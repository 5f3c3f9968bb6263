import Verilog.Proofs.Source.Parts

/-!
# Reading lines with more or fewer line feeds between them

To the grammar one end of a line is as good as several, and marks between them are nothing to it
either. So two texts that are alike but for the numbers in their marks, and but for what fills up
the space between lines, are read alike (`visiblePieces_of_alike`), as long as no token takes in a
mark.

Three kinds of tokens need a look. A comment in slashes and stars may go over any number of lines,
and ends at the same place in both texts (`LinedAlike.split_starComment`). A string goes past the
end of a line only where a backslash takes the line feed, and there both texts have to have the same
(`LinedAlike.split_quoted`). To all other classes the line feed and the delimiter are no other than
the end of the text, so what they take hangs on the stretch before it, which is the same in both
texts.
-/

namespace Verilog

open Lexicon Pattern SourceKind

/-! ### Texts that are alike -/

/-- **Are two texts the same but for the numbers in their marks?** -/
inductive Twins : List Char → List Char → Prop
  | nil : Twins [] []
  | char {c s t} (hc : c ≠ markDelimiter) (h : Twins s t) : Twins (c :: s) (c :: t)
  | mark {m n : SourceKind × List Char} {s t} (hm : IsMark m) (hn : IsMark n) (h : Twins s t) :
    Twins (m.2 ++ s) (n.2 ++ t)

/-- Line feeds, and marks among them. -/
inductive Filler : List Char → Prop
  | nil : Filler []
  | feed {s} (h : Filler s) : Filler ('\n' :: s)
  | mark {m : SourceKind × List Char} {s} (hm : IsMark m) (h : Filler s) : Filler (m.2 ++ s)

/-- **Are two texts alike** but for the numbers in their marks and for what fills up the space
between lines? There has to be a line feed in it on both sides, and no backslash before it. Whether
there is one before the texts is told beforehand. -/
inductive LinedAlike : Bool → List Char → List Char → Prop
  | nil {escaping} : LinedAlike escaping [] []
  | char {escaping c s t} (hc : c ≠ markDelimiter) (h : LinedAlike (c == '\\') s t) :
    LinedAlike escaping (c :: s) (c :: t)
  | mark {escaping} {m n : SourceKind × List Char} {s t} (hm : IsMark m) (hn : IsMark n)
    (h : LinedAlike escaping s t) : LinedAlike escaping (m.2 ++ s) (n.2 ++ t)
  | feeds {a b s t} (ha : Filler a) (hb : Filler b) (hfa : '\n' ∈ a) (hfb : '\n' ∈ b)
    (h : LinedAlike false s t) : LinedAlike false (a ++ s) (b ++ t)

/-- Does a text begin with a line feed or a mark? -/
def Stops (s : List Char) : Prop := ∃ d r, s = d :: r ∧ (d = markDelimiter ∨ d = '\n')

theorem IsMark.not_mem {m : SourceKind × List Char} (hm : IsMark m) :
    '\n' ∉ m.2 ∧ '*' ∉ m.2 := by
  obtain rfl | ⟨node, rfl⟩ := hm
  · decide
  · have hdigit {c : Char} (hc : c.isDigit = false) : c ∉ Nat.toDigits 10 node := fun h => by
      simp [Nat.isDigit_of_mem_toDigits (by decide) (by decide) h] at hc
    have hfront : '\n' ∉ endMarkFront ∧ '*' ∉ endMarkFront := by decide
    have hback : '\n' ∉ [markDelimiter] ∧ '*' ∉ [markDelimiter] := by decide
    simp only [endMark, List.mem_append, not_or]
    exact ⟨⟨⟨hfront.1, hdigit (by decide)⟩, hback.1⟩, ⟨hfront.2, hdigit (by decide)⟩, hback.2⟩

theorem IsMark.stops {m : SourceKind × List Char} (hm : IsMark m) (s : List Char) :
    Stops (m.2 ++ s) := by
  obtain ⟨r, hr⟩ := hm.head
  exact ⟨markDelimiter, r ++ s, by rw [hr, List.cons_append], .inl rfl⟩

theorem withoutMarks_cons {c : Char} (hc : c ≠ markDelimiter) (s : List Char) :
    withoutMarks (c :: s) = c :: withoutMarks s :=
  withoutMarks_unmarked_append (s := [c]) (by simpa [Unmarked] using hc.symm) s

/-- Without their marks, texts stand one behind the other as they do with them. -/
theorem MarkedBy.withoutMarks_append {s : List Char} {ms : List (SourceKind × List Char)}
    (h : MarkedBy s ms) (t : List Char) :
    withoutMarks (s ++ t) = withoutMarks s ++ withoutMarks t :=
  Verilog.withoutMarks_append (by rw [h.count_eq]; omega) t

namespace Filler

variable {a b : List Char}

theorem append (ha : Filler a) (hb : Filler b) : Filler (a ++ b) := by
  induction ha with
  | nil => exact hb
  | feed _ ih => exact .feed ih
  | mark hm _ ih =>
    rw [List.append_assoc]
    exact .mark hm ih

theorem of_feeds (n : Nat) : Filler (List.replicate n '\n') := by
  induction n with
  | zero => exact .nil
  | succ n ih => exact .feed ih

theorem of_mark {m : SourceKind × List Char} (hm : IsMark m) : Filler m.2 := by
  simpa using Filler.mark hm .nil

theorem not_mem (ha : Filler a) : '*' ∉ a := by
  induction ha with
  | nil => exact List.not_mem_nil
  | feed _ ih => simpa using ih
  | mark hm _ ih => simpa using ⟨hm.not_mem.2, ih⟩

theorem stops (ha : Filler a) (h : '\n' ∈ a) (s : List Char) : Stops (a ++ s) := by
  cases ha with
  | nil => exact absurd h List.not_mem_nil
  | feed ha => exact ⟨'\n', _, rfl, .inr rfl⟩
  | mark hm ha =>
    rw [List.append_assoc]
    exact hm.stops _

theorem markedBy (ha : Filler a) : ∃ ms, MarkedBy a ms := by
  induction ha with
  | nil => exact ⟨[], .nil⟩
  | feed _ ih =>
    obtain ⟨ms, hms⟩ := ih
    exact ⟨ms, .char (by decide) hms⟩
  | mark hm _ ih =>
    obtain ⟨ms, hms⟩ := ih
    exact ⟨_, .mark hm hms⟩

theorem withoutMarks_append (ha : Filler a) (s : List Char) :
    Verilog.withoutMarks (a ++ s) = Verilog.withoutMarks a ++ Verilog.withoutMarks s := by
  obtain ⟨ms, hms⟩ := ha.markedBy
  exact hms.withoutMarks_append s

/-- Without its marks there are line feeds left. -/
theorem withoutMarks (ha : Filler a) : ∃ n, Verilog.withoutMarks a = List.replicate n '\n' ∧
    ('\n' ∈ a → '\n' ∈ List.replicate n '\n') := by
  induction ha with
  | nil => exact ⟨0, rfl, id⟩
  | @feed a _ ih =>
    obtain ⟨n, hn, -⟩ := ih
    refine ⟨n + 1, ?_, fun _ => List.mem_cons_self⟩
    rw [withoutMarks_cons (by decide), hn, List.replicate_succ]
  | mark hm _ ih =>
    obtain ⟨n, hn, hmem⟩ := ih
    refine ⟨n, by rw [withoutMarks_mark hm, hn], fun h => hmem ?_⟩
    exact (List.mem_append.mp h).resolve_left hm.not_mem.1

end Filler

namespace Twins

variable {s t u v a b : List Char}

theorem append (h : Twins s t) (h' : Twins u v) : Twins (s ++ u) (t ++ v) := by
  induction h with
  | nil => exact h'
  | char hc _ ih => exact .char hc ih
  | mark hm hn _ ih =>
    rw [List.append_assoc, List.append_assoc]
    exact .mark hm hn ih

theorem of_unmarked (h : Unmarked s) : Twins s s := by
  induction s with
  | nil => exact .nil
  | cons c s ih =>
    obtain ⟨hc, hs⟩ := Unmarked.cons.mp h
    exact .char hc (ih hs)

theorem symm (h : Twins s t) : Twins t s := by
  induction h with
  | nil => exact .nil
  | char hc _ ih => exact .char hc ih
  | mark hm hn _ ih => exact .mark hn hm ih

/-- A mark in both texts. -/
theorem of_mark {m n : SourceKind × List Char} (hm : IsMark m) (hn : IsMark n) :
    Twins m.2 n.2 := by
  simpa using mark hm hn .nil

theorem markedBy (h : Twins s t) : ∃ ms, MarkedBy s ms := by
  induction h with
  | nil => exact ⟨[], .nil⟩
  | char hc _ ih =>
    obtain ⟨ms, hms⟩ := ih
    exact ⟨ms, .char hc hms⟩
  | mark hm _ _ ih =>
    obtain ⟨ms, hms⟩ := ih
    exact ⟨_, .mark hm hms⟩

/-- Without their marks the texts are the same. -/
theorem withoutMarks_eq (h : Twins s t) : withoutMarks s = withoutMarks t := by
  induction h with
  | nil => rfl
  | char hc _ ih => rw [withoutMarks_cons hc, withoutMarks_cons hc, ih]
  | mark hm hn _ ih => rw [withoutMarks_mark hm, withoutMarks_mark hn, ih]

theorem unmarked_withoutMarks (h : Twins s t) : Unmarked (withoutMarks s) := by
  induction h with
  | nil => exact .nil
  | char hc _ ih => exact withoutMarks_cons hc _ ▸ Unmarked.cons.mpr ⟨hc, ih⟩
  | mark hm _ _ ih => rwa [withoutMarks_mark hm]

theorem withoutMarks_append (h : Twins s t) (u : List Char) :
    withoutMarks (s ++ u) = withoutMarks s ++ withoutMarks u := by
  obtain ⟨ms, hms⟩ := h.markedBy
  exact hms.withoutMarks_append u

theorem alike (h : Twins s t) (escaping : Bool) : LinedAlike escaping s t := by
  induction h generalizing escaping with
  | nil => exact .nil
  | char hc _ ih => exact .char hc (ih _)
  | mark hm hn _ ih => exact .mark hm hn (ih _)

theorem eq_nil (h : Twins s []) : s = [] := by
  generalize ht : [] = t at h
  cases h with
  | nil => rfl
  | char => cases ht
  | mark _ hn _ =>
    obtain ⟨r, hr⟩ := hn.head
    simp [hr] at ht

/-- A line feed of one text stands in both, and parts both. -/
theorem exists_part (h : Twins s (u ++ '\n' :: v)) :
    ∃ a b, s = a ++ '\n' :: b ∧ Twins a u ∧ Twins b v := by
  generalize ht : u ++ '\n' :: v = t at h
  induction h generalizing u with
  | nil => simp at ht
  | @char c s t hc h ih =>
    cases u with
    | nil =>
      obtain ⟨rfl, rfl⟩ := List.cons.inj ht
      exact ⟨[], s, rfl, .nil, h⟩
    | cons d u =>
      obtain ⟨rfl, htail⟩ := List.cons.inj ht
      obtain ⟨a, b, rfl, ha, hb⟩ := ih htail
      exact ⟨d :: a, b, rfl, .char hc ha, hb⟩
  | @mark m n s t hm hn h ih =>
    -- the line feed stands behind the mark, since no mark has one
    obtain ⟨w, rfl, hw⟩ : ∃ w, u = n.2 ++ w ∧ w ++ '\n' :: v = t := by
      rcases List.append_eq_append_iff.mp ht with ⟨w, hw, hv⟩ | ⟨w, rfl, hw⟩
      · cases w with
        | nil => exact ⟨[], by simpa using hw.symm, hv⟩
        | cons d w =>
          obtain ⟨rfl, -⟩ := List.cons.inj hv
          exact absurd (hw ▸ by simp) hn.not_mem.1
      · exact ⟨w, rfl, hw.symm⟩
    obtain ⟨a, b, rfl, ha, hb⟩ := ih hw
    exact ⟨m.2 ++ a, b, by rw [List.append_assoc], .mark hm hn ha, hb⟩

/-- Both texts end with a line, or neither does. -/
theorem getLast?_eq_newline (h : Twins s t) (ht : t.getLast? = some '\n') :
    s.getLast? = some '\n' := by
  obtain ⟨u, rfl⟩ := List.getLast?_eq_some_iff.mp ht
  obtain ⟨a, b, rfl, -, hb⟩ := h.exists_part
  simp [hb.eq_nil]

/-- What fills up the space between lines in one text does so in both. -/
theorem filler (h : Twins s t) (ht : Filler t) : Filler s := by
  induction ht generalizing s with
  | nil => exact h.eq_nil ▸ .nil
  | @feed t _ ih =>
    generalize htext : '\n' :: t = u at h
    cases h with
    | nil => cases htext
    | char _ h =>
      obtain ⟨rfl, rfl⟩ := List.cons.inj htext
      exact .feed (ih h)
    | mark _ hn _ =>
      obtain ⟨r, hr⟩ := hn.head
      rw [hr, List.cons_append] at htext
      exact absurd (List.cons.inj htext).1 (by decide)
  | @mark m t hm _ ih =>
    generalize htext : m.2 ++ t = u at h
    obtain ⟨r, hr⟩ := hm.head
    cases h with
    | nil => simp [hr] at htext
    | char hc _ =>
      rw [hr, List.cons_append] at htext
      exact absurd (List.cons.inj htext).1.symm hc
    | @mark _ n _ t' hm' hn h =>
      -- both marks are read at the same place
      have hread := (firstMatch_mark hm t).symm.trans (htext ▸ firstMatch_mark hn t')
      simp only [Option.some.injEq, Prod.mk.injEq] at hread
      exact .mark hm' (ih (hread.2.2 ▸ h))

/-- **Behind texts that are the same there may be more or fewer line feeds**, if the texts do not
end in a backslash. -/
theorem feeds (h : Twins u v) (hlast : (withoutMarks u).getLast? ≠ some '\\') (ha : Filler a)
    (hb : Filler b) (hfa : '\n' ∈ a) (hfb : '\n' ∈ b) (hst : LinedAlike false s t) :
    LinedAlike false (u ++ (a ++ s)) (v ++ (b ++ t)) := by
  suffices ∀ escaping, (withoutMarks u = [] → escaping = false) →
      LinedAlike escaping (u ++ (a ++ s)) (v ++ (b ++ t)) from this false fun _ => rfl
  induction h with
  | nil =>
    intro escaping hescaping
    rw [hescaping rfl, List.nil_append, List.nil_append]
    exact .feeds ha hb hfa hfb hst
  | @char c u v hc _ ih =>
    intro escaping _
    rw [withoutMarks_cons hc, List.getLast?_cons] at hlast
    refine .char hc (ih ?_ _ fun hnil => ?_)
    · intro h
      simp [h] at hlast
    · simpa [hnil] using hlast
  | mark hm hn _ ih =>
    intro escaping hescaping
    rw [withoutMarks_mark hm] at hlast hescaping
    rw [List.append_assoc, List.append_assoc]
    exact .mark hm hn (ih hlast escaping hescaping)

end Twins

namespace LinedAlike

variable {escaping : Bool} {s t x : List Char} {c : Char}

theorem symm (h : LinedAlike escaping s t) : LinedAlike escaping t s := by
  induction h with
  | nil => exact .nil
  | char hc _ ih => exact .char hc ih
  | mark hm hn _ ih => exact .mark hn hm ih
  | feeds ha hb hfa hfb _ ih => exact .feeds hb ha hfb hfa ih

/-- Texts that are alike begin alike, or both with a line feed or mark. Behind a backslash they
begin alike with a line feed too. -/
theorem uncons (h : LinedAlike escaping (c :: s) t) (hc : c ≠ markDelimiter)
    (hn : c ≠ '\n' ∨ escaping = true) : ∃ t', t = c :: t' ∧ LinedAlike (c == '\\') s t' := by
  generalize htext : c :: s = text at h
  cases h with
  | nil => cases htext
  | char _ h =>
    obtain ⟨rfl, rfl⟩ := List.cons.inj htext
    exact ⟨_, rfl, h⟩
  | mark hm _ _ =>
    obtain ⟨l, hl⟩ := hm.head
    rw [hl, List.cons_append] at htext
    exact absurd (List.cons.inj htext).1 hc
  | feeds ha _ hfa _ _ =>
    obtain ⟨d, r, hd, hstop⟩ := ha.stops hfa _
    obtain ⟨rfl, -⟩ := List.cons.inj (htext.trans hd)
    exact absurd hstop (by simpa [hc] using hn)

/-- What both texts begin with may be taken off them. -/
theorem drop (h : LinedAlike escaping (x ++ s) t) (hx : ∀ c ∈ x, c ≠ markDelimiter ∧ c ≠ '\n') :
    ∃ t' escaping', t = x ++ t' ∧ LinedAlike escaping' s t' := by
  induction x generalizing escaping t with
  | nil => exact ⟨t, escaping, rfl, h⟩
  | cons c x ih =>
    obtain ⟨⟨hc, hn⟩, hx⟩ := List.forall_mem_cons.mp hx
    obtain ⟨t₁, rfl, h₁⟩ := h.uncons hc (.inl hn)
    obtain ⟨t', escaping', rfl, h'⟩ := ih h₁ hx
    exact ⟨t', escaping', rfl, h'⟩

/-- **The stretch before a line feed or mark** is the same in texts that are alike. -/
theorem exists_front (h : LinedAlike escaping s t) : ∃ front s' t', s = front ++ s' ∧
    t = front ++ t' ∧
    (∀ c ∈ front, c ≠ markDelimiter ∧ c ≠ '\n') ∧ (s' = [] ∧ t' = [] ∨ Stops s' ∧ Stops t') := by
  induction h with
  | nil => exact ⟨[], [], [], rfl, rfl, by simp, .inl ⟨rfl, rfl⟩⟩
  | @char _ c s t hc _ ih =>
    by_cases hn : c = '\n'
    · exact ⟨[], c :: s, c :: t, rfl, rfl, by simp, .inr ⟨⟨c, s, rfl, .inr hn⟩, c, t, rfl, .inr hn⟩⟩
    · obtain ⟨front, s', t', rfl, rfl, hfront, hend⟩ := ih
      exact ⟨c :: front, s', t', rfl, rfl, List.forall_mem_cons.mpr ⟨⟨hc, hn⟩, hfront⟩, hend⟩
  | mark hm hn _ _ => exact ⟨[], _, _, rfl, rfl, by simp, .inr ⟨hm.stops _, hn.stops _⟩⟩
  | feeds ha hb hfa hfb _ _ =>
    exact ⟨[], _, _, rfl, rfl, by simp, .inr ⟨ha.stops hfa _, hb.stops hfb _⟩⟩

end LinedAlike

/-! ### Comments over several lines -/

theorem splitThrough_append_of_not_mem {a : List Char} (ha : '*' ∉ a) (s : List Char) :
    splitThrough ['*', '/'] (a ++ s) =
      (splitThrough ['*', '/'] s).map fun m => (a ++ m.1, m.2) := by
  induction a with
  | nil => simp
  | cons c a ih =>
    rw [List.mem_cons, not_or] at ha
    rw [List.cons_append, splitThrough, stripFront, if_neg ha.1, ih ha.2]
    simp [Option.map_map, Function.comp_def]

theorem splitThrough_cons {c : Char} {s : List Char} (h : ∀ r, c = '*' → s ≠ '/' :: r) :
    splitThrough ['*', '/'] (c :: s) =
      (splitThrough ['*', '/'] s).map fun m => (c :: m.1, m.2) := by
  rw [splitThrough]
  cases hs : stripFront ['*', '/'] (c :: s) with
  | none => rfl
  | some r =>
    obtain ⟨rfl, rfl⟩ := List.cons.inj (stripFront_eq_some hs)
    exact absurd rfl (h r rfl)

namespace LinedAlike

variable {escaping : Bool} {s t x r : List Char}

/-- **A comment ends at the same place** in texts that are alike. -/
theorem splitThrough (h : LinedAlike escaping s t)
    (hs : Pattern.splitThrough ['*', '/'] s = some (x, r)) :
    ∃ y r' escaping', Pattern.splitThrough ['*', '/'] t = some (y, r') ∧
      LinedAlike escaping' r r' := by
  -- what has no star in it is passed over
  have hpass {a b s t x r : List Char} (ha : '*' ∉ a) (hb : '*' ∉ b)
      (ih : ∀ {x r}, Pattern.splitThrough ['*', '/'] s = some (x, r) → ∃ y r' escaping',
        Pattern.splitThrough ['*', '/'] t = some (y, r') ∧ LinedAlike escaping' r r')
      (hs : Pattern.splitThrough ['*', '/'] (a ++ s) = some (x, r)) : ∃ y r' escaping',
        Pattern.splitThrough ['*', '/'] (b ++ t) = some (y, r') ∧ LinedAlike escaping' r r' := by
    rw [splitThrough_append_of_not_mem ha] at hs
    obtain ⟨⟨x', r'⟩, hx, heq⟩ := Option.map_eq_some_iff.mp hs
    obtain ⟨-, rfl⟩ := Prod.mk.inj heq
    obtain ⟨y, r', escaping', hy, hr⟩ := ih hx
    exact ⟨_, r', escaping', by rw [splitThrough_append_of_not_mem hb, hy]; rfl, hr⟩
  induction h generalizing x r with
  | nil => cases hs
  | @char _ c s t hc h ih =>
    by_cases hclose : c = '*' ∧ ∃ r, s = '/' :: r
    · obtain ⟨rfl, r', rfl⟩ := hclose
      obtain ⟨-, rfl⟩ := Prod.mk.inj (Option.some.inj hs)
      obtain ⟨t', rfl, h'⟩ := h.uncons (by decide) (.inl (by decide))
      exact ⟨_, t', _, rfl, h'⟩
    · rw [splitThrough_cons fun r hc hs => hclose ⟨hc, r, hs⟩] at hs
      obtain ⟨⟨x', r'⟩, hx, heq⟩ := Option.map_eq_some_iff.mp hs
      obtain ⟨-, rfl⟩ := Prod.mk.inj heq
      obtain ⟨y, r', escaping', hy, hr⟩ := ih hx
      refine ⟨c :: y, r', escaping', ?_, hr⟩
      rw [splitThrough_cons, hy]
      · rfl
      · rintro r hc rfl
        obtain ⟨s', rfl, -⟩ := h.symm.uncons (by decide) (.inl (by decide))
        exact hclose ⟨hc, s', rfl⟩
  | mark hm hn _ ih => exact hpass hm.not_mem.2 hn.not_mem.2 ih hs
  | feeds ha hb _ _ _ ih => exact hpass ha.not_mem hb.not_mem ih hs

/-- A comment in slashes and stars is cut off in texts that are alike, or in neither. -/
theorem split_starComment (h : LinedAlike escaping s t) (hs : starComment.split s = some (x, r)) :
    ∃ y r' escaping', starComment.split t = some (y, r') ∧ LinedAlike escaping' r r' := by
  rw [starComment, split, split] at hs
  cases hfront : stripFront ['/', '*'] s with
  | none => simp [hfront] at hs
  | some inside =>
    obtain rfl := stripFront_eq_some hfront
    rw [hfront] at hs
    obtain ⟨⟨x', r'⟩, hx, heq⟩ := Option.map_eq_some_iff.mp hs
    obtain ⟨-, rfl⟩ := Prod.mk.inj heq
    obtain ⟨t₁, rfl, h₁⟩ := h.uncons (by decide) (.inl (by decide))
    obtain ⟨t₂, rfl, h₂⟩ := h₁.uncons (by decide) (.inl (by decide))
    obtain ⟨y, r', escaping', hy, hr⟩ := h₂.splitThrough hx
    exact ⟨'/' :: '*' :: y, r', escaping', by simp [starComment, split, stripFront, hy], hr⟩

/-! ### Strings over several lines -/

/-- **A string is the same** in texts that are alike, if it takes in no mark: it takes in a line
feed only behind a backslash, and there both texts have one. -/
theorem split_quotedRest (h : LinedAlike escaping s t)
    (hs : (seq (many quotedCharacter) (text ['"'])).split s = some (x, r)) (hx : Unmarked x) :
    ∃ r' escaping', (seq (many quotedCharacter) (text ['"'])).split t = some (x, r') ∧
      LinedAlike escaping' r r' := by
  induction hlen : s.length using Nat.strong_induction_on generalizing escaping s t x with
  | _ n ih =>
    have hturn {d : Char} {u x' : List Char} (hd : quotedCharacter.split s = some (d :: x', u)) :
        ∃ y, (seq (many quotedCharacter) (text ['"'])).split u = some (y, r) ∧
          x = d :: x' ++ y := by
      rw [split_many_seq_of_split hd] at hs
      obtain ⟨⟨y, r'⟩, hy, heq⟩ := Option.map_eq_some_iff.mp hs
      obtain ⟨rfl, rfl⟩ := Prod.mk.inj heq
      exact ⟨y, hy, rfl⟩
    cases s with
    | nil => cases hs
    | cons d s =>
      by_cases hend : d = '"' ∨ d = '\n'
      · have hsplit (u : List Char) := split_many_seq_of_none (b := text ['"'])
          (split_quotedCharacter_of_end hend u)
        rw [hsplit] at hs
        obtain rfl | rfl := hend
        · obtain ⟨rfl, rfl⟩ := Prod.mk.inj (Option.some.inj hs)
          obtain ⟨t, rfl, h'⟩ := h.uncons (by decide) (.inl (by decide))
          exact ⟨t, _, hsplit t, h'⟩
        · cases hs
      rw [not_or] at hend
      by_cases hd : d = '\\'
      · subst hd
        cases s with
        | nil => cases hs
        | cons d s =>
          obtain ⟨y, hy, rfl⟩ := hturn (split_quotedCharacter_escaped d s)
          obtain ⟨-, hd, hu⟩ : _ ∧ d ≠ markDelimiter ∧ Unmarked y := by
            simpa [Unmarked, eq_comm] using hx
          -- behind the backslash there is the same character, also if it is a line feed
          obtain ⟨t₁, rfl, h₁⟩ := h.uncons (by decide) (.inl (by decide))
          obtain ⟨t₂, rfl, h₂⟩ := h₁.uncons hd (.inr rfl)
          have hless : s.length < n := by simp only [← hlen, List.length_cons]; omega
          obtain ⟨r', escaping', hr, hrest⟩ := ih s.length hless h₂ hy hu rfl
          exact ⟨r', escaping', by
            rw [split_many_seq_of_split (split_quotedCharacter_escaped d t₂), hr]; rfl, hrest⟩
      · have hplain (u : List Char) := split_quotedCharacter ⟨hend.1, hd, hend.2⟩ u
        obtain ⟨y, hy, rfl⟩ := hturn (hplain s)
        obtain ⟨hdelimiter, hu⟩ : d ≠ markDelimiter ∧ Unmarked y := by
          simpa [Unmarked, eq_comm] using hx
        obtain ⟨t, rfl, h'⟩ := h.uncons hdelimiter (.inl hend.2)
        obtain ⟨r', escaping', hr, hrest⟩ := ih s.length (by simp [← hlen]) h' hy hu rfl
        exact ⟨r', escaping', by rw [split_many_seq_of_split (hplain t), hr]; rfl, hrest⟩

/-- A string that takes in no mark is cut off in both of two texts that are alike. -/
theorem split_quoted (h : LinedAlike escaping s t) (hs : quoted.split s = some (x, r))
    (hx : Unmarked x) : ∃ r' escaping', quoted.split t = some (x, r') ∧
    LinedAlike escaping' r r' := by
  rw [quoted, split, split] at hs
  cases hfront : stripFront ['"'] s with
  | none => simp [hfront] at hs
  | some inside =>
    obtain rfl := stripFront_eq_some hfront
    rw [hfront] at hs
    obtain ⟨⟨y, r'⟩, hy, heq⟩ := Option.map_eq_some_iff.mp hs
    obtain ⟨rfl, rfl⟩ := Prod.mk.inj heq
    obtain ⟨t₁, rfl, h₁⟩ := h.uncons (by decide) (.inl (by decide))
    obtain ⟨r'', escaping', hr, hrest⟩ := h₁.split_quotedRest hy (Unmarked.append.mp hx).2
    exact ⟨r'', escaping', by
      rw [quoted, split, split, stripFront, if_pos rfl, stripFront, Option.map_some]
      exact congrArg (Option.map _) hr, hrest⟩

end LinedAlike

/-! ### Tokens that take in line feeds -/

/-- Where a comment in slashes and stars is cut off, it is the first token. -/
theorem firstMatch_of_starComment {s x r : List Char} (h : starComment.split s = some (x, r)) :
    firstMatch lexicon.classes s = some (.blockComment, x, r) := by
  have hs := split_eq_append h
  obtain ⟨x, rfl⟩ : ∃ y, x = '/' :: '*' :: y := by
    rw [starComment, split, split] at h
    cases hfront : stripFront ['/', '*'] s with
    | none => simp [hfront] at h
    | some inside =>
      rw [hfront] at h
      obtain ⟨m, -, heq⟩ := Option.map_eq_some_iff.mp h
      exact ⟨m.1, (Prod.mk.inj heq).1.symm⟩
  subst hs
  have hfront (k : List (Pattern × (List Char → SourceKind))) :
      firstMatch ((starComment, fun _ => .blockComment) :: k) ('/' :: '*' :: x ++ r) =
        some (.blockComment, '/' :: '*' :: x, r) := firstMatch_cons h
  exact hfront _

/-- Where a string is cut off, it is the first token. -/
theorem firstMatch_of_quoted {s x r : List Char} (h : quoted.split s = some (x, r)) :
    firstMatch lexicon.classes s = some (.stringLiteral, x, r) := by
  have hs := split_eq_append h
  obtain ⟨x, rfl⟩ : ∃ y, x = '"' :: y := by
    rw [quoted, split, split] at h
    cases hfront : stripFront ['"'] s with
    | none => simp [hfront] at h
    | some inside =>
      rw [hfront] at h
      obtain ⟨m, -, heq⟩ := Option.map_eq_some_iff.mp h
      exact ⟨m.1, (Prod.mk.inj heq).1.symm⟩
  subst hs
  have hfront (k : List (Pattern × (List Char → SourceKind))) :
      firstMatch ((quoted, fun _ => .stringLiteral) :: k) ('"' :: x ++ r) =
        some (.stringLiteral, '"' :: x, r) := firstMatch_cons h
  exact hfront _

/-- **Only comments and strings take in a line feed** that does not stand alone. -/
theorem split_of_feed {c : Char} {s x r : List Char} {kind : SourceKind} (hc : c ≠ '\n')
    (h : firstMatch lexicon.classes (c :: s) = some (kind, x, r)) (hn : '\n' ∈ x) :
    starComment.split (c :: s) = some (x, r) ∨ quoted.split (c :: s) = some (x, r) := by
  obtain ⟨-, -, cls, hcls, hsplit, rfl⟩ := firstMatch_spec h
  have hnot {a : Pattern} {P : Prop} (ha : a.Excludes '\n' = true)
      (hsplit : a.split (c :: s) = some (x, r)) : P :=
    absurd hn (not_mem_of_excludes ha hsplit)
  rcases List.mem_append.mp hcls with h | h
  · simp only [List.mem_cons, List.not_mem_nil, or_false] at h
    rcases h with h | h | h | h | h | h | h | h | h | h | h | h | h | h <;> subst h
    case inr.inr.inr.inl => simp [split, stripFront, hc.symm] at hsplit
    case inr.inr.inr.inr.inr.inl => exact .inl hsplit
    case inr.inr.inr.inr.inr.inr.inl => exact .inr hsplit
    all_goals exact hnot (by decide) hsplit
  · obtain ⟨op, hop, rfl⟩ := List.mem_map.mp h
    have hall : ∀ op ∈ operators, (text op.1).Excludes '\n' = true := by decide
    exact hnot (hall op hop) hsplit

/-! ### What the grammar sees -/

theorem SparesMarks.rest {x : SourceKind × List Char} {xs : List (SourceKind × List Char)}
    (h : SparesMarks (x :: xs)) : SparesMarks xs := fun y hy => h y (List.mem_cons_of_mem _ hy)

theorem visiblePieces_of_hidden {s r : List Char} {x : SourceKind × List Char}
    (hs : sourcePieces s = x :: sourcePieces r) (hx : x.1.isHidden = true) :
    visiblePieces s = visiblePieces r := by
  rw [visiblePieces, hs, List.filter_cons_of_neg (by simp [hx])]
  rfl

theorem visiblePieces_congr {s t r r' : List Char} {x : SourceKind × List Char}
    (hs : sourcePieces s = x :: sourcePieces r) (ht : sourcePieces t = x :: sourcePieces r')
    (h : visiblePieces r = visiblePieces r') : visiblePieces s = visiblePieces t := by
  rw [visiblePieces, visiblePieces] at h ⊢
  rw [hs, ht, List.filter_cons, List.filter_cons, h]

/-- **What stands between lines is not seen.** -/
theorem Filler.visiblePieces {a : List Char} (ha : Filler a) (s : List Char) :
    Verilog.visiblePieces (a ++ s) = Verilog.visiblePieces s ∧
      (SparesMarks (sourcePieces (a ++ s)) → SparesMarks (sourcePieces s)) := by
  induction ha with
  | nil => exact ⟨rfl, id⟩
  | @feed a _ ih =>
    have hfeed : sourcePieces ('\n' :: (a ++ s)) = (.newline, ['\n']) :: sourcePieces (a ++ s) :=
      pieces_cons rfl
    exact ⟨(visiblePieces_of_hidden hfeed rfl).trans ih.1, fun h => ih.2 (hfeed ▸ h).rest⟩
  | @mark m a hm _ ih =>
    have hmark : sourcePieces (m.2 ++ (a ++ s)) = m :: sourcePieces (a ++ s) :=
      pieces_cons (firstMatch_mark hm _)
    rw [List.append_assoc]
    exact ⟨(visiblePieces_of_hidden hmark (isHidden_of_isMark hm.isMark)).trans ih.1,
      fun h => ih.2 (hmark ▸ h).rest⟩

/-- Where no token takes in a mark, a string takes in none. -/
theorem SparesMarks.unmarked_quoted {s x r : List Char} (h : SparesMarks (sourcePieces s))
    (hs : quoted.split s = some (x, r)) : Unmarked x := by
  obtain ⟨c, u, rfl⟩ := List.exists_cons_of_ne_nil (l := s) (by rintro rfl; cases hs)
  have hpieces : sourcePieces (c :: u) = (.stringLiteral, x) :: sourcePieces r :=
    pieces_cons (firstMatch_of_quoted hs)
  exact h (.stringLiteral, x) (hpieces ▸ List.mem_cons_self) rfl

/-- **A token before a line feed or mark** is what it would be if the text ended there, unless it is
a comment or string over several lines. -/
theorem firstMatch_of_sparesMarks {c : Char} {front s : List Char}
    (hfront : ∀ d ∈ c :: front, d ≠ markDelimiter ∧ d ≠ '\n') (hs : s = [] ∨ Stops s)
    (h : SparesMarks (sourcePieces (c :: front ++ s)))
    (hstar : starComment.split (c :: front ++ s) = none)
    (hquoted : quoted.split (c :: front ++ s) = none) :
    firstMatch lexicon.classes (c :: front ++ s) =
      (firstMatch lexicon.classes (c :: front)).map fun m => (m.1, m.2.1, m.2.2 ++ s) := by
  obtain ⟨hc, hn⟩ := hfront c List.mem_cons_self
  obtain rfl | ⟨d, s, rfl, hd⟩ := hs
  · simp
  have hnot : d ∉ c :: front := fun hmem =>
    hd.elim (hfront d hmem).1 (hfront d hmem).2
  rcases firstMatch_border s (bordersAt_classes hd s hc hnot) with ⟨kind, x, r, hx, hdx⟩ | hborder
  · have hpieces : sourcePieces (c :: front ++ d :: s) = (kind, x) :: sourcePieces r :=
      pieces_cons hx
    obtain rfl | rfl := hd
    · -- a token that goes past a mark takes it in
      cases hk : kind.isVerbatim with
      | true => exact absurd hdx (h (kind, x) (hpieces ▸ List.mem_cons_self) hk)
      | false => exact absurd hdx ((firstMatch_char hc hx).2 hk)
    · rcases split_of_feed hn hx hdx with hsplit | hsplit
      · cases hstar.symm.trans hsplit
      · cases hquoted.symm.trans hsplit
  · exact hborder

/-- **Texts that are alike are read alike**, if no token takes in a mark. -/
theorem visiblePieces_of_alike {escaping : Bool} {s t : List Char} (h : LinedAlike escaping s t)
    (hs : SparesMarks (sourcePieces s)) (ht : SparesMarks (sourcePieces t)) :
    visiblePieces s = visiblePieces t := by
  induction hlen : s.length using Nat.strong_induction_on generalizing escaping s t with
  | _ n ih =>
    cases h with
    | nil => rfl
    | @mark _ m m' s t hm hm' h =>
      obtain ⟨hvs, hcs⟩ := (Filler.of_mark hm).visiblePieces s
      obtain ⟨hvt, hct⟩ := (Filler.of_mark hm').visiblePieces t
      obtain ⟨r, hr⟩ := hm.head
      rw [hvs, hvt]
      have hless : s.length < n := by
        simp only [← hlen, hr, List.length_cons, List.length_append]; omega
      exact ih s.length hless h (hcs hs) (hct ht) rfl
    | @feeds a b s t ha hb hfa _ h =>
      obtain ⟨hvs, hcs⟩ := ha.visiblePieces s
      obtain ⟨hvt, hct⟩ := hb.visiblePieces t
      have hpos := List.length_pos_of_mem hfa
      rw [hvs, hvt]
      exact ih s.length (by rw [← hlen, List.length_append]; omega) h (hcs hs) (hct ht) rfl
    | @char _ c s t hc h =>
      by_cases hn : c = '\n'
      · subst hn
        obtain ⟨hvs, hcs⟩ := (Filler.feed .nil).visiblePieces s
        obtain ⟨hvt, hct⟩ := (Filler.feed .nil).visiblePieces t
        exact hvs.trans ((ih s.length (by simp [← hlen]) h (hcs hs) (hct ht) rfl).trans hvt.symm)
      have hall : LinedAlike escaping (c :: s) (c :: t) := .char hc h
      cases hstar : starComment.split (c :: s) with
      | some m =>
        -- both texts begin with a comment, which is not seen
        obtain ⟨x, r⟩ := m
        obtain ⟨y, r', escaping', hstar', hr⟩ := hall.split_starComment hstar
        have hx := firstMatch_of_starComment hstar
        have hps : sourcePieces (c :: s) = (.blockComment, x) :: sourcePieces r := pieces_cons hx
        have hpt : sourcePieces (c :: t) = (.blockComment, y) :: sourcePieces r' :=
          pieces_cons (firstMatch_of_starComment hstar')
        rw [visiblePieces_of_hidden hps rfl, visiblePieces_of_hidden hpt rfl]
        exact ih r.length (hlen ▸ length_rest_lt hx) hr (hps ▸ hs).rest (hpt ▸ ht).rest rfl
      | none =>
      have hstar' : starComment.split (c :: t) = none := by
        cases hstar' : starComment.split (c :: t) with
        | none => rfl
        | some m =>
          obtain ⟨x, r, _, hx, -⟩ := hall.symm.split_starComment hstar'
          cases hstar.symm.trans hx
      cases hquoted : quoted.split (c :: s) with
      | some m =>
        -- both texts begin with the same string
        obtain ⟨x, r⟩ := m
        have hu := hs.unmarked_quoted hquoted
        obtain ⟨r', escaping', hquoted', hr⟩ := hall.split_quoted hquoted hu
        have hx := firstMatch_of_quoted hquoted
        have hps : sourcePieces (c :: s) = (.stringLiteral, x) :: sourcePieces r := pieces_cons hx
        have hpt : sourcePieces (c :: t) = (.stringLiteral, x) :: sourcePieces r' :=
          pieces_cons (firstMatch_of_quoted hquoted')
        exact visiblePieces_congr hps hpt
          (ih r.length (hlen ▸ length_rest_lt hx) hr (hps ▸ hs).rest (hpt ▸ ht).rest rfl)
      | none =>
      have hquoted' : quoted.split (c :: t) = none := by
        cases hquoted' : quoted.split (c :: t) with
        | none => rfl
        | some m =>
          obtain ⟨r, _, hx, -⟩ := hall.symm.split_quoted hquoted' (ht.unmarked_quoted hquoted')
          cases hquoted.symm.trans hx
      -- the first tokens are the same, and taken of what stands before line feeds and marks
      obtain ⟨front, s', t', rfl, rfl, hfront, hend⟩ := h.exists_front
      have hplain : ∀ d ∈ c :: front, d ≠ markDelimiter ∧ d ≠ '\n' :=
        List.forall_mem_cons.mpr ⟨⟨hc, hn⟩, hfront⟩
      have hfs := firstMatch_of_sparesMarks hplain (hend.imp And.left And.left) hs hstar hquoted
      have hft := firstMatch_of_sparesMarks hplain (hend.imp And.right And.right) ht hstar' hquoted'
      cases hfirst : firstMatch lexicon.classes (c :: front) with
      | none =>
        rw [hfirst, Option.map_none] at hfs hft
        have hps : sourcePieces (c :: (front ++ s')) =
            (lexicon.other, [c]) :: sourcePieces (front ++ s') := pieces_cons_of_none hfs
        have hpt : sourcePieces (c :: (front ++ t')) =
            (lexicon.other, [c]) :: sourcePieces (front ++ t') := pieces_cons_of_none hft
        exact visiblePieces_congr hps hpt (ih (front ++ s').length (by simp [← hlen]) h
          (hps ▸ hs).rest (hpt ▸ ht).rest rfl)
      | some m =>
        obtain ⟨kind, x, r⟩ := m
        rw [hfirst, Option.map_some] at hfs hft
        have hps : sourcePieces (c :: (front ++ s')) = (kind, x) :: sourcePieces (r ++ s') :=
          pieces_cons hfs
        have hpt : sourcePieces (c :: (front ++ t')) = (kind, x) :: sourcePieces (r ++ t') :=
          pieces_cons hft
        have hx : c :: front = x ++ r := (firstMatch_spec hfirst).1
        have hcut : LinedAlike escaping (x ++ (r ++ s')) (x ++ (r ++ t')) := by
          rw [← List.append_assoc, ← List.append_assoc, ← hx]
          exact hall
        obtain ⟨u, escaping', hu, hrest⟩ := hcut.drop fun d hd => hplain d (hx ▸
          List.mem_append_left r hd)
        obtain rfl := List.append_cancel_left hu
        exact visiblePieces_congr hps hpt (ih (r ++ s').length (hlen ▸ length_rest_lt hfs) hrest
          (hps ▸ hs).rest (hpt ▸ ht).rest rfl)

end Verilog
