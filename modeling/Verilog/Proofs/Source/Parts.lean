import Verilog.Proofs.Lexing.Border
import Verilog.Proofs.Source.Mark

/-!
# Reading between marks

Marks cut a text into parts. A token that begins in one of them ends in it, unless it is a comment,
a string or an escaped identifier that takes in the delimiter: to all other classes of source text
the delimiter is no other than the end of the text. So if all marks are read, what stands between
them is read part by part, each part by itself (`nonMarks_pieces`).

Without the marks the parts become one text. It need not be read as they are: the end of a part and
the beginning of the next may make up one token. Where that does not happen at any mark
(`ReadsApart`), the tokens that the grammar sees are the same with the marks and without.
-/

namespace Verilog

open Lexicon Pattern SourceKind

/-! ### Classes at the delimiter and at the end of a line -/

/-- What may stand in a string: a backslash takes the next character. -/
def quotedCharacter : Pattern :=
  alt (one fun c => c != '"' && c != '\\' && c != '\n') (seq (text ['\\']) (one fun _ => true))

theorem split_quotedCharacter {d : Char} (hd : d ≠ '"' ∧ d ≠ '\\' ∧ d ≠ '\n') (s : List Char) :
    quotedCharacter.split (d :: s) = some ([d], s) := by
  simp [quotedCharacter, split, hd]

theorem split_quotedCharacter_escaped (d : Char) (s : List Char) :
    quotedCharacter.split ('\\' :: d :: s) = some (['\\', d], s) := rfl

theorem split_quotedCharacter_of_end {d : Char} (hd : d = '"' ∨ d = '\n') (s : List Char) :
    quotedCharacter.split (d :: s) = none := by
  rcases hd with rfl | rfl <;> rfl

/-- **Inside of a string a character is taken** if it is no line feed, or if a backslash stands
before it. Where it is taken, the text before it has no closing quote. -/
theorem bordersAt_quotedRest {c : Char} (hc : c ≠ '"' ∧ c ≠ '\\') (rest : List Char) :
    (u : List Char) → c ∉ u → (seq (many quotedCharacter) (text ['"'])).BordersAt c u rest
  | [], hu => by
    by_cases hn : c = '\n'
    · exact bordersAt_many_seq_of_none (split_quotedCharacter_of_end (.inr hn) _) rfl
        (borders_of_endsAt (by simp [EndsAt, hc.1]) _ _ hu)
    · exact bordersAt_many_seq_of_past (split_quotedCharacter ⟨hc.1, hc.2, hn⟩ rest) (by simp) rfl
  | d :: u, hu => by
    have hu' := fun h => hu (List.mem_cons_of_mem _ h)
    by_cases hend : d = '"' ∨ d = '\n'
    · exact bordersAt_many_seq_of_none (split_quotedCharacter_of_end hend _)
        (split_quotedCharacter_of_end hend _) (borders_of_endsAt (by simp [EndsAt, hc.1]) _ _ hu)
    rw [not_or] at hend
    by_cases hd : d = '\\'
    · subst hd
      -- a backslash takes the character if that is next
      cases u with
      | nil =>
        exact bordersAt_many_seq_of_past (split_quotedCharacter_escaped c rest) (by simp) rfl
      | cons e u =>
        exact bordersAt_many_seq_of_step (split_quotedCharacter_escaped e _)
          (split_quotedCharacter_escaped e u)
          (bordersAt_quotedRest hc rest u fun h => hu' (List.mem_cons_of_mem _ h))
    · exact bordersAt_many_seq_of_step (split_quotedCharacter ⟨hend.1, hd, hend.2⟩ _)
        (split_quotedCharacter ⟨hend.1, hd, hend.2⟩ u) (bordersAt_quotedRest hc rest u hu')

/-- **A token that begins before a delimiter or line feed** goes past it, or is what it would be if
the text ended there. -/
theorem bordersAt_classes {c d : Char} {u : List Char} (hc : c = markDelimiter ∨ c = '\n')
    (rest : List Char) (hd : d ≠ markDelimiter) (hu : c ∉ d :: u) :
    ∀ cls ∈ lexicon.classes, cls.1.BordersAt c (d :: u) rest := by
  have hends {a : Pattern} (ha : (a.EndsAt markDelimiter && a.EndsAt '\n') = true) :
      a.EndsAt c = true := by
    rw [Bool.and_eq_true] at ha
    obtain rfl | rfl := hc
    · exact ha.1
    · exact ha.2
  have hat {a : Pattern} (ha : (a.EndsAt markDelimiter && a.EndsAt '\n') = true) :
      a.BordersAt c (d :: u) rest := borders_of_endsAt (hends ha) _ _ hu
  have hseq {a b : Pattern} (ha : (a.EndsAt markDelimiter && a.EndsAt '\n') = true)
      (hb : b.Borders c) : (seq a b).BordersAt c (d :: u) rest :=
    Borders.seq_of_endsAt (hends ha) hb _ _ hu
  have hplain : c ≠ '"' ∧ c ≠ '\\' ∧ c ≠ '*' ∧ c ≠ '/' := by
    obtain rfl | rfl := hc <;> decide
  intro cls hcls
  rcases List.mem_append.mp hcls with h | h
  · -- marks begin with the delimiter, line feeds stand alone, the verbatim kinds may go past the
    -- character, and all others stop at it
    simp only [List.mem_cons, List.not_mem_nil, or_false] at h
    rcases h with h | h | h | h | h | h | h | h | h | h | h | h | h | h <;> subst h
    · exact .inr (by simp [split, beginMark, stripFront, hd.symm])
    · exact .inr (by simp [split, endMarkFront, stripFront, hd.symm])
    · exact hat (by decide)
    · obtain rfl | rfl := hc
      · exact borders_of_endsAt (by decide) _ _ hu
      · have hne : '\n' ≠ d := (not_or.mp (mt List.mem_cons.mpr hu)).1
        exact .inr (by simp [split, stripFront, hne])
    · exact hseq (by decide) (borders_run _)
    · exact hseq (by decide) (borders_through (by decide) (by simp [hplain]))
    · exact hseq (by decide) fun u rest hu => bordersAt_quotedRest ⟨hplain.1, hplain.2.1⟩ rest u hu
    · exact hat (by decide)
    · exact hseq (by decide) (borders_run1 _)
    · exact hat (by decide)
    · exact hat (by decide)
    · exact hat (by decide)
    · exact hat (by decide)
    · exact hat (by decide)
  · obtain ⟨op, hop, rfl⟩ := List.mem_map.mp h
    have hall : ∀ op ∈ operators,
        ((text op.1).EndsAt markDelimiter && (text op.1).EndsAt '\n') = true := by decide
    exact hat (hall op hop)

/-! ### The parts of a text -/

/-- Every other of a list, from the first on. -/
def everySecond {α : Type} : List α → List α
  | [] => []
  | [a] => [a]
  | a :: _ :: as => a :: everySecond as

/-- What stands before, between and behind the marks of a text. -/
def markParts (s : List Char) : List (List Char) := everySecond (splitAtChar markDelimiter s)

/-- **Induction over the parts of a text**, from the last one on. -/
@[elab_as_elim]
theorem MarkedBy.byParts {P : List Char → Prop} {s : List Char} {ms : List (SourceKind × List Char)}
    (h : MarkedBy s ms) (last : ∀ u, Unmarked u → P u)
    (before : ∀ u m t, Unmarked u → IsMark m → P t → P (u ++ (m.2 ++ t))) : P s := by
  -- what stands before a character belongs to the same part
  have hall : ∀ u, Unmarked u → P (u ++ s) := by
    induction h with
    | nil =>
      intro u hu
      simpa using last u hu
    | char hc _ ih =>
      intro u hu
      rw [List.append_cons]
      exact ih _ (Unmarked.append.mpr ⟨hu, Unmarked.cons.mpr ⟨hc, .nil⟩⟩)
    | mark hm _ ih => exact fun u hu => before u _ _ hu hm (ih [] .nil)
  exact hall [] .nil

theorem markParts_unmarked {u : List Char} (hu : Unmarked u) : markParts u = [u] := by
  have hsplit : splitAtChar markDelimiter [] = [[]] := rfl
  have := splitAtChar_append hu hsplit
  rw [List.append_nil] at this
  rw [markParts, this]
  rfl

theorem markParts_append {u t : List Char} {m : SourceKind × List Char} (hu : Unmarked u)
    (hm : IsMark m) : markParts (u ++ (m.2 ++ t)) = u :: markParts t := by
  obtain ⟨inside, hinside, hm⟩ := hm.inside
  obtain ⟨x, xs, ht⟩ := List.exists_cons_of_ne_nil (splitAtChar_ne_nil markDelimiter t)
  have hsplit (s : List Char) : splitAtChar markDelimiter (markDelimiter :: s) =
      [] :: splitAtChar markDelimiter s := by rw [splitAtChar, if_pos rfl]
  have hbehind : splitAtChar markDelimiter (inside ++ markDelimiter :: t) = inside :: x :: xs := by
    have := splitAtChar_append hinside (by rw [hsplit, ht] :
      splitAtChar markDelimiter (markDelimiter :: t) = [] :: x :: xs)
    rwa [List.append_nil] at this
  have hall := splitAtChar_append hu (by rw [hsplit, hbehind] :
      splitAtChar markDelimiter (markDelimiter :: (inside ++ markDelimiter :: t)) =
        [] :: inside :: x :: xs)
  rw [markParts, markParts, hm]
  simp [hall, ht, everySecond]

theorem withoutMarks_eq {s : List Char} {ms : List (SourceKind × List Char)} (h : MarkedBy s ms) :
    withoutMarks s = (markParts s).flatten := by
  refine h.byParts (fun u hu => ?_) fun u m t hu hm ih => ?_
  · simp [markParts_unmarked hu, withoutMarks_unmarked hu]
  · rw [withoutMarks_unmarked_append hu, withoutMarks_mark hm, markParts_append hu hm, ih,
      List.flatten_cons]

theorem unmarked_markParts {s : List Char} {ms : List (SourceKind × List Char)}
    (h : MarkedBy s ms) : ∀ u ∈ markParts s, Unmarked u := by
  refine h.byParts (fun u hu => ?_) fun u m t hu hm ih => ?_
  · simpa [markParts_unmarked hu] using hu
  · rw [markParts_append hu hm]
    exact List.forall_mem_cons.mpr ⟨hu, ih⟩

/-! ### Reading part by part -/

/-- No verbatim token has the delimiter in it, as where all marks are read (`marksRead_eq_iff`). -/
def SparesMarks (pieces : List (SourceKind × List Char)) : Prop :=
  ∀ x ∈ pieces, x.1.isVerbatim = true → Unmarked x.2

/-- **Before a mark a text is read as by itself**, if no token goes past the mark. -/
theorem sourcePieces_append {u : List Char} (hu : Unmarked u) (rest : List Char)
    (hv : SparesMarks (sourcePieces (u ++ markDelimiter :: rest))) :
    sourcePieces (u ++ markDelimiter :: rest) =
      sourcePieces u ++ sourcePieces (markDelimiter :: rest) := by
  induction hn : u.length using Nat.strong_induction_on generalizing u with
  | _ n ih =>
    cases u with
    | nil => rfl
    | cons c u =>
      obtain ⟨hc, hu'⟩ := Unmarked.cons.mp hu
      have hborder := firstMatch_border rest (bordersAt_classes (.inl rfl) rest hc hu)
      rw [sourcePieces, List.cons_append] at hv ⊢
      rw [List.cons_append] at hborder
      -- a first token that goes past the mark would be verbatim, and have the delimiter in it
      rcases hborder with ⟨kind, x, r, hx, hd⟩ | hborder
      · rw [pieces_cons hx] at hv
        cases hk : kind.isVerbatim with
        | true => exact absurd hd (hv _ List.mem_cons_self hk)
        | false => exact absurd hd ((firstMatch_char hc hx).2 hk)
      · cases hx : firstMatch lexicon.classes (c :: u) with
        | none =>
          rw [hx, Option.map_none] at hborder
          rw [pieces_cons_of_none hborder] at hv ⊢
          rw [sourcePieces, pieces_cons_of_none hx, List.cons_append]
          exact congrArg _ (ih u.length (by simp [← hn]) hu'
            (fun x hx => hv x (List.mem_cons_of_mem _ hx)) rfl)
        | some m =>
          obtain ⟨kind, x, r⟩ := m
          rw [hx, Option.map_some] at hborder
          have hr : Unmarked r := by
            have := (firstMatch_spec hx).1
            exact (Unmarked.append.mp (this ▸ hu)).2
          rw [pieces_cons hborder] at hv ⊢
          rw [sourcePieces, pieces_cons hx, List.cons_append]
          exact congrArg _ (ih r.length (hn ▸ length_rest_lt hx) hr
            (fun x hx => hv x (List.mem_cons_of_mem _ hx)) rfl)

theorem unmarked_sourcePieces {u : List Char} (hu : Unmarked u) :
    ∀ x ∈ sourcePieces u, Unmarked x.2 :=
  Unmarked.flatMap.mp ((flatMap_pieces lexicon (Nat.le_refl u.length)).symm ▸ hu)

/-- Of a text without delimiters no piece is a mark. -/
theorem isMark_sourcePieces {u : List Char} (hu : Unmarked u) :
    ∀ x ∈ sourcePieces u, x.1.isMark = false := by
  have hnone := filter_pieces (.of_unmarked hu) (Nat.le_refl _)
    fun x hx _ => unmarked_sourcePieces hu x hx
  simpa [sourcePieces] using List.filter_eq_nil_iff.mp hnone

/-- **What is no mark is read part by part**, each part by itself. -/
theorem nonMarks_pieces {s : List Char} {ms : List (SourceKind × List Char)} (h : MarkedBy s ms) :
    SparesMarks (sourcePieces s) →
      (sourcePieces s).filter (fun x => !x.1.isMark) = (markParts s).flatMap sourcePieces := by
  have hpart {u : List Char} (hu : Unmarked u) :
      (sourcePieces u).filter (fun x => !x.1.isMark) = sourcePieces u :=
    List.filter_eq_self.mpr fun x hx => by simp [isMark_sourcePieces hu x hx]
  refine h.byParts (fun u hu _ => ?_) fun u m t hu hm ih hv => ?_
  · simp [markParts_unmarked hu, hpart hu]
  · have hmark : sourcePieces (m.2 ++ t) = m :: sourcePieces t :=
      pieces_cons (firstMatch_mark hm t)
    obtain ⟨l, hl⟩ := hm.head
    have hcut : sourcePieces (u ++ (m.2 ++ t)) = sourcePieces u ++ m :: sourcePieces t := by
      rw [← hmark]
      rw [hl, List.cons_append] at hv ⊢
      exact sourcePieces_append hu _ hv
    rw [hcut] at hv ⊢
    have ht := ih fun x hx => hv x (by simp [hx])
    rw [markParts_append hu hm, List.flatMap_cons, ← ht, List.filter_append, hpart hu,
      List.filter_cons_of_neg (by simp [hm.isMark])]

/-! ### What the grammar sees -/

/-- The pieces of a source text that the grammar sees. -/
def visiblePieces (s : List Char) : List (SourceKind × List Char) :=
  (sourcePieces s).filter fun x => !x.1.isHidden

theorem isHidden_of_isMark {k : SourceKind} (h : k.isMark = true) : k.isHidden = true := by
  revert h
  cases k <;> simp [isMark, isHidden]

/-- **The grammar sees what stands between the marks, part by part.** -/
theorem visiblePieces_eq {s : List Char} {ms : List (SourceKind × List Char)} (h : MarkedBy s ms)
    (hv : SparesMarks (sourcePieces s)) :
    visiblePieces s = (markParts s).flatMap visiblePieces := by
  have hfilter : visiblePieces s =
      ((sourcePieces s).filter fun x => !x.1.isMark).filter fun x => !x.1.isHidden := by
    rw [List.filter_filter, visiblePieces]
    congr 1
    funext x
    cases hx : x.1.isMark with
    | true => simp [isHidden_of_isMark hx]
    | false => simp
  rw [hfilter, nonMarks_pieces h hv, List.filter_flatMap]
  rfl

/-- At none of the places between parts a token would go on that ends there: behind each part, what
follows it is read as by itself. -/
def ReadsApart : List (List Char) → Prop
  | [] => True
  | u :: us => visiblePieces (u ++ us.flatten) = visiblePieces u ++ visiblePieces us.flatten ∧
      ReadsApart us

theorem ReadsApart.visiblePieces_flatten :
    {us : List (List Char)} → ReadsApart us →
      visiblePieces us.flatten = us.flatMap visiblePieces
  | [], _ => rfl
  | _ :: _, ⟨hu, hus⟩ => by
    rw [List.flatten_cons, List.flatMap_cons, hu, hus.visiblePieces_flatten]

/-- **Marks make no difference to the grammar** where they are read and parts are read apart. -/
theorem visiblePieces_withoutMarks {s : List Char} {ms : List (SourceKind × List Char)}
    (h : MarkedBy s ms) (hv : SparesMarks (sourcePieces s)) (ha : ReadsApart (markParts s)) :
    visiblePieces (withoutMarks s) = visiblePieces s := by
  rw [withoutMarks_eq h, visiblePieces_eq h hv, ha.visiblePieces_flatten]

/-- Where marks make no difference, the grammar sees no delimiter. -/
theorem unmarked_visiblePieces {s : List Char} {ms : List (SourceKind × List Char)}
    (h : MarkedBy s ms) (heq : visiblePieces (withoutMarks s) = visiblePieces s) :
    ∀ x ∈ visiblePieces s, Unmarked x.2 := by
  intro x hx
  rw [← heq] at hx
  have hout : Unmarked (withoutMarks s) := by
    rw [withoutMarks_eq h]
    simpa [Unmarked] using unmarked_markParts h
  exact unmarked_sourcePieces hout x (List.mem_filter.mp hx).1

end Verilog
