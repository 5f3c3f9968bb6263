import Mathlib.Data.List.DropRight
import Verilog.Proofs.Source.Feeds

/-!
# Lines between marks

Where a mark is read, no backslash stands before it (`getLast?_of_sparesMarks`): an escaped
identifier would have taken in the mark. So a text between marks that begins on a line of its own,
and ends with a line, is read as if it stood there without the marks, and with more or fewer line
feeds behind it (`visiblePieces_of_twins`).
-/

namespace Verilog

open Lexicon Pattern SourceKind

/-! ### Backslashes before marks -/

/-- What the second of two patterns takes stands at the end of what both take. -/
theorem exists_split_of_seq {a b : Pattern} {s x r : List Char}
    (h : (seq a b).split s = some (x, r)) : ∃ y z u, x = y ++ z ∧ b.split u = some (z, r) := by
  rw [split] at h
  cases ha : a.split s with
  | none => simp [ha] at h
  | some m =>
    obtain ⟨y, u⟩ := m
    rw [ha] at h
    obtain ⟨⟨z, r'⟩, hz, heq⟩ := Option.map_eq_some_iff.mp h
    obtain ⟨rfl, rfl⟩ := Prod.mk.inj heq
    exact ⟨y, z, u, rfl, hz⟩

/-- What is taken up to a closing text ends as that text does. -/
theorem getLast?_of_splitThrough {close s x r : List Char} {d : Char}
    (h : splitThrough (close ++ [d]) s = some (x, r)) : x.getLast? = some d := by
  induction s generalizing x r with
  | nil => simp [splitThrough] at h
  | cons c s ih =>
    rw [splitThrough] at h
    cases hs : stripFront (close ++ [d]) (c :: s) with
    | some rest =>
      simp only [hs, Option.some.injEq, Prod.mk.injEq] at h
      simp [← h.1]
    | none =>
      simp only [hs, Option.map_eq_some_iff, Prod.mk.injEq] at h
      obtain ⟨⟨y, r'⟩, hy, rfl, rfl⟩ := h
      simp [List.getLast?_cons, ih hy]

/-- **A token that ends before a mark does not end in a backslash.** -/
theorem getLast?_of_firstMatch {s x r : List Char} {kind : SourceKind}
    (h : firstMatch lexicon.classes s = some (kind, x, markDelimiter :: r)) :
    x.getLast? ≠ some '\\' := by
  obtain ⟨-, -, cls, hcls, hsplit, -⟩ := firstMatch_spec h
  have hnot {a : Pattern} (ha : a.Excludes '\\' = true)
      (hsplit : a.split s = some (x, markDelimiter :: r)) : x.getLast? ≠ some '\\' :=
    fun h => not_mem_of_excludes ha hsplit (List.mem_of_getLast? h)
  rcases List.mem_append.mp hcls with h | h
  · simp only [List.mem_cons, List.not_mem_nil, or_false] at h
    rcases h with h | h | h | h | h | h | h | h | h | h | h | h | h | h <;> subst h
    case inr.inr.inr.inr.inl =>
      -- a comment up to the end of its line would go on
      obtain ⟨_, _, _, -, hrun⟩ := exists_split_of_seq hsplit
      exact absurd (head_of_split_run hrun _ rfl) (by decide)
    case inr.inr.inr.inr.inr.inl =>
      obtain ⟨y, z, u, rfl, hthrough⟩ := exists_split_of_seq hsplit
      have hlast : z.getLast? = some '/' := getLast?_of_splitThrough
        (show splitThrough (['*'] ++ ['/']) u = some (z, markDelimiter :: r) from hthrough)
      simp [List.getLast?_append, hlast]
    case inr.inr.inr.inr.inr.inr.inl =>
      obtain ⟨y, z, u, rfl, hrest⟩ := exists_split_of_seq hsplit
      obtain ⟨y', z', u', rfl, hquote⟩ := exists_split_of_seq hrest
      obtain ⟨_, -, heq⟩ := Option.map_eq_some_iff.mp hquote
      obtain ⟨rfl, -⟩ := Prod.mk.inj heq
      simp [List.getLast?_append]
    case inr.inr.inr.inr.inr.inr.inr.inr.inl =>
      -- and so would an escaped identifier
      obtain ⟨_, _, _, -, hrun⟩ := exists_split_of_seq hsplit
      obtain ⟨_, _, _, -, hrun⟩ := exists_split_of_seq hrun
      exact absurd (head_of_split_run hrun _ rfl) (by decide)
    all_goals exact hnot (by decide) hsplit
  · obtain ⟨op, hop, rfl⟩ := List.mem_map.mp h
    have hall : ∀ op ∈ operators, (text op.1).Excludes '\\' = true := by decide
    exact hnot (hall op hop) hsplit

/-- Before a mark that is read there is no backslash. -/
theorem getLast?_of_sparesMarks {u : List Char} (hu : Unmarked u) (rest : List Char)
    (hv : SparesMarks (sourcePieces (u ++ markDelimiter :: rest))) : u.getLast? ≠ some '\\' := by
  induction hn : u.length using Nat.strong_induction_on generalizing u with
  | _ n ih =>
    cases u with
    | nil => simp
    | cons c u =>
      obtain ⟨hc, hu'⟩ := Unmarked.cons.mp hu
      have hborder := firstMatch_border rest (bordersAt_classes (.inl rfl) rest hc hu)
      rw [List.cons_append] at hborder hv
      rcases hborder with ⟨kind, x, r, hx, hd⟩ | hborder
      · have hpieces : sourcePieces (c :: (u ++ markDelimiter :: rest)) =
            (kind, x) :: sourcePieces r := pieces_cons hx
        cases hk : kind.isVerbatim with
        | true => exact absurd hd (hv (kind, x) (hpieces ▸ List.mem_cons_self) hk)
        | false => exact absurd hd ((firstMatch_char hc hx).2 hk)
      · have hrest {x r : List Char} (hx : c :: u = x ++ r) (hne : x ≠ [])
            (hv : SparesMarks (sourcePieces (r ++ markDelimiter :: rest))) (hr : r ≠ []) :
            (c :: u).getLast? ≠ some '\\' := by
          have hlt : r.length < n := by
            have hlen := congrArg List.length hx
            have := List.length_pos_iff.mpr hne
            rw [List.length_append] at hlen
            omega
          have hlast := ih r.length hlt (Unmarked.append.mp (hx ▸ hu)).2 hv rfl
          rwa [hx, List.getLast?_append_of_ne_nil _ hr]
        cases hx : firstMatch lexicon.classes (c :: u) with
        | none =>
          rw [hx, Option.map_none] at hborder
          have hpieces : sourcePieces (c :: (u ++ markDelimiter :: rest)) =
              (lexicon.other, [c]) :: sourcePieces (u ++ markDelimiter :: rest) :=
            pieces_cons_of_none hborder
          by_cases hne : u = []
          · subst hne
            rintro h
            obtain rfl : c = '\\' := by simpa using h
            nomatch hborder
          · exact hrest rfl (List.cons_ne_nil c []) (hpieces ▸ hv).rest hne
        | some m =>
          obtain ⟨kind, x, r⟩ := m
          rw [hx, Option.map_some] at hborder
          obtain ⟨hcut, hne, -⟩ := firstMatch_spec hx
          have hpieces : sourcePieces (c :: (u ++ markDelimiter :: rest)) =
              (kind, x) :: sourcePieces (r ++ markDelimiter :: rest) := pieces_cons hborder
          by_cases hr : r = []
          · subst hr
            rw [hcut, List.append_nil]
            exact getLast?_of_firstMatch hborder
          · exact hrest hcut hne (hpieces ▸ hv).rest hr

/-- Before the marks at the end of what is read before a mark there is no backslash either. -/
theorem MarkedBy.getLast?_withoutMarks {u rest : List Char} {m : SourceKind × List Char}
    {ms : List (SourceKind × List Char)} (h : MarkedBy u ms) (hm : IsMark m) :
    SparesMarks (sourcePieces (u ++ (m.2 ++ rest))) →
      (withoutMarks u).getLast? ≠ some '\\' := by
  refine h.byParts (fun u hu hv => ?_) fun u n t hu hn ih hv => ?_
  · obtain ⟨l, hl⟩ := hm.head
    rw [hl, List.cons_append] at hv
    rw [withoutMarks_unmarked hu]
    exact getLast?_of_sparesMarks hu _ hv
  · obtain ⟨l, hl⟩ := hn.head
    rw [List.append_assoc, List.append_assoc] at hv
    have hmark : sourcePieces (n.2 ++ (t ++ (m.2 ++ rest))) =
        n :: sourcePieces (t ++ (m.2 ++ rest)) := pieces_cons (firstMatch_mark hn _)
    have hbefore : u.getLast? ≠ some '\\' := by
      rw [hl, List.cons_append] at hv
      exact getLast?_of_sparesMarks hu _ hv
    have hcut : sourcePieces (u ++ (n.2 ++ (t ++ (m.2 ++ rest)))) =
        sourcePieces u ++ n :: sourcePieces (t ++ (m.2 ++ rest)) := by
      rw [← hmark]
      rw [hl, List.cons_append] at hv ⊢
      exact sourcePieces_append hu _ hv
    rw [hcut] at hv
    have hbehind := ih fun x hx => hv x (by simp [hx])
    rw [withoutMarks_unmarked_append hu, withoutMarks_mark hn, List.getLast?_append]
    cases hlast : (withoutMarks t).getLast? with
    | none => simpa using hbefore
    | some c => simpa [hlast] using hbehind

/-! ### Lines between marks -/

/-- Does a text end in a backslash, but for line feeds and marks behind it? -/
def escapesFeed (s : List Char) : Bool :=
  ((withoutMarks s).rdropWhile (· == '\n')).getLast? == some '\\'

theorem escapesFeed_eq_true {s u : List Char} {n : Nat}
    (h : withoutMarks s = u ++ List.replicate n '\n') (hu : u.getLast? = some '\\') :
    escapesFeed s = true := by
  have hdrop : (u ++ List.replicate n '\n').rdropWhile (· == '\n') = u.rdropWhile (· == '\n') := by
    clear h
    induction n with
    | zero => simp
    | succ n ih =>
      rw [List.replicate_succ', ← List.append_assoc, List.rdropWhile_concat_pos _ _ _ rfl, ih]
  obtain ⟨u, rfl⟩ := List.getLast?_eq_some_iff.mp hu
  rw [escapesFeed, h, hdrop, List.rdropWhile_concat_neg _ _ _ (by decide)]
  simp

/-- In a text without marks it does not matter how many line feeds there are, unless a backslash
stands before them. -/
theorem visiblePieces_replicate {u z : List Char} {n k : Nat} (hu : Unmarked u) (hz : Unmarked z)
    (hlast : u.getLast? ≠ some '\\') (hn : '\n' ∈ List.replicate n '\n')
    (hk : '\n' ∈ List.replicate k '\n') :
    visiblePieces (u ++ (List.replicate n '\n' ++ z)) =
      visiblePieces (u ++ (List.replicate k '\n' ++ z)) := by
  have hspares (n : Nat) : SparesMarks (sourcePieces (u ++ (List.replicate n '\n' ++ z))) :=
    fun x hx _ => unmarked_sourcePieces (Unmarked.append.mpr
      ⟨hu, Unmarked.append.mpr ⟨Unmarked.replicate_newline n, hz⟩⟩) x hx
  have halike := (Twins.of_unmarked hu).feeds (by rwa [withoutMarks_unmarked hu]) (.of_feeds n)
    (.of_feeds k) hn hk ((Twins.of_unmarked hz).alike false)
  exact visiblePieces_of_alike halike (hspares n) (hspares k)

/-- **A text between marks, on lines of its own**, is read as if it stood there without them and
with other line feeds around it. No backslash may stand before the line feeds behind it. -/
theorem visiblePieces_of_twins {x x' y y' z z' a b : List Char} {m : SourceKind × List Char}
    (hx : Twins x x') (hz : Twins z z') (hm : IsMark m) (ha : Filler a) (hb : Filler b)
    (hy : y = [] ∧ y' = [] ∨ ∃ v v' f f', y = v ++ f ∧ y' = v' ++ f' ∧ Twins v v' ∧
      Filler f ∧ Filler f' ∧ '\n' ∈ f ++ a ∧ '\n' ∈ f' ++ b)
    (hescapes : escapesFeed (x ++ (m.2 ++ '\n' :: (y ++ a))) = false) :
    let s := x ++ (m.2 ++ '\n' :: (y ++ (a ++ z)))
    let t := x' ++ '\n' :: (y' ++ (b ++ z'))
    (SparesMarks (sourcePieces s) → SparesMarks (sourcePieces t) →
      visiblePieces s = visiblePieces t) ∧
    visiblePieces (withoutMarks s) = visiblePieces (withoutMarks t) := by
  intro s t
  have hlast (hs : SparesMarks (sourcePieces s)) : (withoutMarks x).getLast? ≠ some '\\' := by
    obtain ⟨ms, hms⟩ := hx.markedBy
    exact hms.getLast?_withoutMarks hm hs
  have hX := hx.unmarked_withoutMarks
  have hZ := hz.unmarked_withoutMarks
  have hend {u : List Char} {n : Nat}
      (h : withoutMarks (x ++ (m.2 ++ '\n' :: (y ++ a))) = u ++ List.replicate n '\n') :
      u.getLast? ≠ some '\\' := fun hu => by
    rw [escapesFeed_eq_true h hu] at hescapes
    cases hescapes
  obtain ⟨rfl, rfl⟩ | ⟨v, v', f, f', rfl, rfl, hv, hf, hf', hfa, hfb⟩ := hy
  · -- nothing stands there but line feeds
    have hfill : Filler (m.2 ++ '\n' :: a) := .mark hm (.feed ha)
    have hfill' : Filler ('\n' :: b) := .feed hb
    obtain ⟨n, hn, hmem⟩ := hfill.withoutMarks
    obtain ⟨k, hk, hmem'⟩ := hfill'.withoutMarks
    have hs : s = x ++ ((m.2 ++ '\n' :: a) ++ z) := by simp [s]
    have ht : t = x' ++ (('\n' :: b) ++ z') := by simp [t]
    refine ⟨fun hspares => ?_, ?_⟩
    · have halike : LinedAlike false s t := by
        rw [hs, ht]
        exact hx.feeds (hlast hspares) hfill hfill' (by simp) (by simp) (hz.alike false)
      exact visiblePieces_of_alike halike hspares
    · rw [hs, ht, hx.withoutMarks_append, hx.symm.withoutMarks_append, hfill.withoutMarks_append,
        hfill'.withoutMarks_append, hn, hk, ← hx.withoutMarks_eq, ← hz.withoutMarks_eq]
      refine visiblePieces_replicate hX hZ (hend (n := n) ?_) (hmem (by simp)) (hmem' (by simp))
      rw [List.nil_append, hx.withoutMarks_append, hn]
  · have hfill : Filler (f ++ a) := hf.append ha
    have hfill' : Filler (f' ++ b) := hf'.append hb
    obtain ⟨n, hn, hmem⟩ := hfill.withoutMarks
    obtain ⟨k, hk, hmem'⟩ := hfill'.withoutMarks
    have hV := hv.unmarked_withoutMarks
    have hs : s = x ++ ((m.2 ++ ['\n']) ++ (v ++ ((f ++ a) ++ z))) := by simp [s]
    have ht : t = x' ++ (['\n'] ++ (v' ++ ((f' ++ b) ++ z'))) := by simp [t]
    have hfeed (r : List Char) : withoutMarks ('\n' :: r) = '\n' :: withoutMarks r :=
      withoutMarks_cons (by decide) r
    have hthrough : withoutMarks (x ++ (m.2 ++ '\n' :: (v ++ f ++ a))) =
        (withoutMarks x ++ '\n' :: withoutMarks v) ++ List.replicate n '\n' := by
      rw [hx.withoutMarks_append, withoutMarks_mark hm, hfeed, List.append_assoc,
        hv.withoutMarks_append, hn]
      simp
    have hstop := hend hthrough
    refine ⟨fun hspares => ?_, ?_⟩
    · have hlastv (h : (withoutMarks v).getLast? = some '\\') : False :=
        hstop (by simp [List.getLast?_append, List.getLast?_cons, h])
      have halike : LinedAlike false s t := by
        rw [hs, ht]
        exact hx.feeds (hlast hspares) (.mark hm (.feed .nil)) (.feed .nil) (by simp) (by simp)
          (hv.feeds hlastv hfill hfill' hfa hfb (hz.alike false))
      exact visiblePieces_of_alike halike hspares
    · have hS : withoutMarks s = (withoutMarks x ++ '\n' :: withoutMarks v) ++
          (List.replicate n '\n' ++ withoutMarks z) := by
        rw [hs, hx.withoutMarks_append, List.append_assoc, withoutMarks_mark hm,
          List.singleton_append, hfeed, hv.withoutMarks_append, hfill.withoutMarks_append, hn]
        simp
      have hT : withoutMarks t = (withoutMarks x ++ '\n' :: withoutMarks v) ++
          (List.replicate k '\n' ++ withoutMarks z) := by
        rw [ht, hx.symm.withoutMarks_append, List.singleton_append, hfeed,
          hv.symm.withoutMarks_append, hfill'.withoutMarks_append, hk, ← hx.withoutMarks_eq,
          ← hv.withoutMarks_eq, ← hz.withoutMarks_eq]
        simp
      rw [hS, hT]
      exact visiblePieces_replicate
        (Unmarked.append.mpr ⟨hX, Unmarked.cons.mpr ⟨by decide, hV⟩⟩) hZ hstop (hmem hfa)
        (hmem' hfb)

end Verilog
