import Mathlib.Data.List.Count
import Mathlib.Data.List.DropRight
import Mathlib.Order.Basic
import Verilog.Proofs.Lexing.Cut
import Verilog.Proofs.Syntax.MarkedText
import Verilog.Proofs.Text.Unmarked

/-!
# Reading marks back

The preprocessor writes marks, and the lexicon of source text reads them: two independent notions of
what a token is. A mark is read as a mark wherever a token begins at it. Tokens of four kinds may go
past a mark, since they take whatever stands before their end: comments of both sorts, strings and
escaped identifiers. Tokens of all other kinds stop before the delimiter.

So the marks that are read are those that were written exactly where none of the four kinds has the
delimiter in a token (`marksRead_eq_iff`). One half is an induction along the tokens, the other half
is a count: each mark that is read uses up two delimiters, and when all are used up none is left for
other tokens.
-/

namespace Verilog

/-! ### Numbers in marks -/

theorem isBlank_of_isDigit {c : Char} (h : c.isDigit = true) : isBlank c = false := by
  have hc : c.val.toNat = c.toNat := rfl
  simp only [Char.isDigit, Bool.and_eq_true, decide_eq_true_eq, UInt32.le_iff_toNat_le,
    ge_iff_le, hc] at h
  simp at h
  simp [isBlank]
  omega

/-- Digits have no blanks around them and no underscores in them. -/
theorem cleanNumber_digits {s : List Char} (h : ∀ c ∈ s, c.isDigit = true) : cleanNumber s = s := by
  have hdrop : ∀ t : List Char, (∀ c ∈ t, c.isDigit = true) → t.dropWhile isBlank = t := by
    intro t ht
    cases t with
    | nil => rfl
    | cons c t =>
      rw [List.dropWhile_cons, if_neg]
      simp [isBlank_of_isDigit (ht c List.mem_cons_self)]
  have htrim : trim s = s := by
    rw [trim, trimLeft, hdrop s h, trimRight, hdrop s.reverse (by simpa using h),
      List.reverse_reverse]
  rw [cleanNumber, htrim, List.filter_eq_self]
  intro c hc
  have := h c hc
  rw [bne_iff_ne]
  rintro rfl
  simp at this

theorem foldl_digits {s : List Char} (h : ∀ c ∈ s, c.isDigit = true) (n : Nat) :
    s.foldl (fun n c => 10 * n + (digitValue? c).getD 0) n = Nat.ofDigitChars 10 s n := by
  induction s generalizing n with
  | nil => rfl
  | cons c s ih =>
    rw [List.foldl_cons, Nat.ofDigitChars_cons, digitValue?, if_pos (h c List.mem_cons_self)]
    exact ih (fun d hd => h d (List.mem_cons_of_mem _ hd)) _

/-- **Digits are read as the number they denote**, if it fits. -/
theorem readUnsigned_digits {bits : Nat} {s : List Char} (hne : s ≠ [])
    (h : ∀ c ∈ s, c.isDigit = true) :
    readUnsigned 10 bits s = (some (digitsValue 10 s)).filter (· < wordCount bits) := by
  have hread : readDigits 10 s = some (digitsValue 10 s) := by
    have hall : s.all (isDigitOf 10) = true := by
      rw [List.all_eq_true]
      intro c hc
      have hc := h c hc
      rw [isDigitOf, digitValue?, if_pos hc]
      simp [Char.isDigit, UInt32.le_iff_toNat_le] at hc ⊢
      omega
    rw [readDigits, hall, List.isEmpty_eq_false_iff.mpr hne]
    rfl
  have hplus : ∀ digits, s ≠ '+' :: digits := by
    intro digits heq
    have := h '+' (by simp [heq])
    simp at this
  rw [readUnsigned, cleanNumber_digits h]
  split
  · exact absurd rfl (hplus _)
  · rw [hread]

/-- **A number is read back from its digits.** -/
theorem readUnsigned_toDigits {bits n : Nat} (h : n < wordCount bits) :
    readUnsigned 10 bits (Nat.toDigits 10 n) = some n := by
  have hdigit : ∀ c ∈ Nat.toDigits 10 n, c.isDigit = true :=
    fun c hc => Nat.isDigit_of_mem_toDigits (by decide) (by decide) hc
  have hvalue : digitsValue 10 (Nat.toDigits 10 n) = n := by
    rw [digitsValue, foldl_digits hdigit, Nat.ofDigitChars_toDigits (by decide) (by decide)]
  rw [readUnsigned_digits Nat.toDigits_ne_nil hdigit, hvalue]
  simpa using h

/-- **The number of a closing mark is read back.** -/
theorem readEndMark?_endMark {node : NodeId} (h : node < wordCount markLimitBits) :
    readEndMark? (endMark node) = some node := by
  rw [readEndMark?, endMark, List.append_assoc, Pattern.stripFront_append]
  simpa using readUnsigned_toDigits h

/-! ### The lexicon and the delimiter -/

namespace SourceKind

open Pattern

/-- Do tokens of a kind take whatever stands before their end? -/
def isVerbatim : SourceKind → Bool
  | .oneLineComment | .blockComment | .stringLiteral | .escapedIdentifier => true
  | _ => false

/-- The class of closing marks. -/
def endPattern : Pattern := seq (text endMarkFront) (seq (run1 Char.isDigit) (text [markDelimiter]))

/-- The kind of a word is that of names, or that of a reserved word. -/
theorem ofWord_cases {P : SourceKind → Prop} (hname : P .identifier) (hall : ∀ w ∈ reserved, P w.2)
    (word : List Char) : P (ofWord word) := by
  rw [ofWord]
  cases h : reserved.lookup (String.ofList word) with
  | none => exact hname
  | some kind =>
    obtain ⟨before, after, heq, -⟩ := List.lookup_eq_some_iff.mp h
    have hmem : (String.ofList word, kind) ∈ reserved := by rw [heq]; simp
    exact hall _ hmem

theorem isMark_ofWord (word : List Char) : (ofWord word).isMark = false :=
  ofWord_cases (P := fun k => k.isMark = false) rfl (by decide) word

/-- **Only marks and the four verbatim kinds** have classes that take the delimiter. -/
theorem classes_cases : ∀ cls ∈ lexicon.classes,
    cls = (text beginMark, fun _ => .preprocBegin) ∨ cls = (endPattern, fun _ => .preprocEnd) ∨
      (∀ s, (cls.2 s).isMark = false) ∧
        (cls.1.Excludes markDelimiter = true ∨ ∀ s, (cls.2 s).isVerbatim = true) := by
  intro cls hcls
  rcases List.mem_append.mp hcls with h | h
  · simp only [List.mem_cons, List.not_mem_nil, or_false] at h
    rcases h with h | h | h | h | h | h | h | h | h | h | h | h | h | h <;> subst h
    · exact .inl rfl
    · exact .inr (.inl rfl)
    · exact .inr (.inr ⟨fun _ => rfl, .inl (by decide)⟩)
    · exact .inr (.inr ⟨fun _ => rfl, .inl (by decide)⟩)
    · exact .inr (.inr ⟨fun _ => rfl, .inr fun _ => rfl⟩)
    · exact .inr (.inr ⟨fun _ => rfl, .inr fun _ => rfl⟩)
    · exact .inr (.inr ⟨fun _ => rfl, .inr fun _ => rfl⟩)
    · exact .inr (.inr ⟨fun _ => rfl, .inl (by decide)⟩)
    · exact .inr (.inr ⟨fun _ => rfl, .inr fun _ => rfl⟩)
    · exact .inr (.inr ⟨fun _ => rfl, .inl (by decide)⟩)
    · exact .inr (.inr ⟨fun _ => rfl, .inl (by decide)⟩)
    · exact .inr (.inr ⟨fun _ => rfl, .inl (by decide)⟩)
    · exact .inr (.inr ⟨fun _ => rfl, .inl (by decide)⟩)
    · exact .inr (.inr ⟨isMark_ofWord, .inl (by decide)⟩)
  · obtain ⟨op, hop, rfl⟩ := List.mem_map.mp h
    have hall : ∀ op ∈ operators, op.1.contains markDelimiter = false ∧ op.2.isMark = false := by
      decide
    obtain ⟨hexcludes, hmark⟩ := hall op hop
    refine .inr (.inr ⟨fun _ => hmark, .inl ?_⟩)
    rw [Excludes, hexcludes]
    rfl

end SourceKind

/-! ### Texts with marks -/

/-- Is a token, by its kind and text, one of the marks that are written? -/
def IsMark (m : SourceKind × List Char) : Prop :=
  m = (.preprocBegin, beginMark) ∨ ∃ node, m = (.preprocEnd, endMark node)

/-- A text with its marks, in which the delimiter stands nowhere else. -/
inductive MarkedBy : List Char → List (SourceKind × List Char) → Prop
  | nil : MarkedBy [] []
  | char {c s ms} (hc : c ≠ markDelimiter) (h : MarkedBy s ms) : MarkedBy (c :: s) ms
  | mark {m s ms} (hm : IsMark m) (h : MarkedBy s ms) : MarkedBy (m.2 ++ s) (m :: ms)

theorem IsMark.isMark {m : SourceKind × List Char} (hm : IsMark m) : m.1.isMark = true := by
  obtain rfl | ⟨node, rfl⟩ := hm <;> rfl

/-- What stands between the delimiters of a mark. -/
theorem IsMark.inside {m : SourceKind × List Char} (hm : IsMark m) :
    ∃ inside, Unmarked inside ∧ m.2 = markDelimiter :: (inside ++ [markDelimiter]) := by
  obtain rfl | ⟨node, rfl⟩ := hm
  · exact ⟨['P', 'P', 'B'], by decide, rfl⟩
  · refine ⟨'P' :: 'P' :: 'E' :: Nat.toDigits 10 node, ?_, by simp [endMark, endMarkFront]⟩
    have := Unmarked.toDigits node
    simp only [Unmarked, List.mem_cons, not_or]
    exact ⟨by decide, by decide, by decide, this⟩

theorem IsMark.count {m : SourceKind × List Char} (hm : IsMark m) :
    m.2.count markDelimiter = 2 := by
  obtain ⟨inside, hinside, hm⟩ := hm.inside
  simp [hm, List.count_append, List.count_eq_zero.mpr hinside]

theorem IsMark.head {m : SourceKind × List Char} (hm : IsMark m) :
    ∃ s, m.2 = markDelimiter :: s := by
  obtain ⟨inside, -, hm⟩ := hm.inside
  exact ⟨_, hm⟩

namespace MarkedBy

variable {s t : List Char} {ms ns : List (SourceKind × List Char)}

theorem append (hs : MarkedBy s ms) (ht : MarkedBy t ns) : MarkedBy (s ++ t) (ms ++ ns) := by
  induction hs with
  | nil => exact ht
  | char hc _ ih => exact .char hc ih
  | mark hm _ ih =>
    rw [List.append_assoc]
    exact .mark hm ih

theorem of_unmarked (hs : Unmarked s) : MarkedBy s [] := by
  induction s with
  | nil => exact .nil
  | cons c s ih =>
    obtain ⟨hc, hs⟩ := Unmarked.cons.mp hs
    exact .char hc (ih hs)

/-- Unmarked text may be taken off the front. -/
theorem drop (h : MarkedBy (s ++ t) ms) (hs : Unmarked s) : MarkedBy t ms := by
  induction s with
  | nil => exact h
  | cons c s ih =>
    obtain ⟨hc, hs⟩ := Unmarked.cons.mp hs
    generalize htext : c :: s ++ t = text at h
    cases h with
    | nil => simp at htext
    | char _ h =>
      obtain ⟨-, rfl⟩ := List.cons.inj htext
      exact ih h hs
    | mark hm _ =>
      obtain ⟨m, hm⟩ := hm.head
      rw [hm] at htext
      exact absurd (List.cons.inj htext).1 hc

/-- Each mark has two delimiters. -/
theorem count_eq (h : MarkedBy s ms) : s.count markDelimiter = 2 * ms.length := by
  induction h with
  | nil => rfl
  | char hc _ ih => rw [List.count_cons_of_ne hc, ih]
  | mark hm _ ih =>
    rw [List.count_append, hm.count, ih, List.length_cons]
    omega

/-- The marks by themselves have all the delimiters. -/
theorem count_flatMap (h : MarkedBy s ms) :
    (ms.flatMap (·.2)).count markDelimiter = 2 * ms.length := by
  induction h with
  | nil => rfl
  | char _ _ ih => exact ih
  | mark hm _ ih =>
    rw [List.flatMap_cons, List.count_append, hm.count, ih, List.length_cons]
    omega

end MarkedBy

/-! ### Reading -/

open Lexicon SourceKind

/-- A run of digits is taken up to the delimiter. -/
theorem split_digits {ds : List Char} (rest : List Char) (hne : ds ≠ [])
    (h : ∀ c ∈ ds, c.isDigit = true) :
    (Pattern.run1 Char.isDigit).split (ds ++ markDelimiter :: rest) =
      some (ds, markDelimiter :: rest) := by
  have hdelimiter : markDelimiter.isDigit = false := by decide
  obtain ⟨d, ds, rfl⟩ := List.exists_cons_of_ne_nil hne
  obtain ⟨hd, hds⟩ := List.forall_mem_cons.mp h
  simp [Pattern.run1, Pattern.split, hd, List.takeWhile_append_of_pos hds,
    List.dropWhile_append_of_pos hds, hdelimiter]

theorem split_endMark (node : NodeId) (rest : List Char) :
    endPattern.split (endMark node ++ rest) = some (endMark node, rest) := by
  have hdigits := split_digits rest (Nat.toDigits_ne_nil (b := 10) (n := node))
    fun c hc => Nat.isDigit_of_mem_toDigits (by decide) (by decide) hc
  have hfront : (Pattern.text endMarkFront).split (endMark node ++ rest) =
      some (endMarkFront, Nat.toDigits 10 node ++ markDelimiter :: rest) := by
    simp [Pattern.split, endMark, Pattern.stripFront_append]
  rw [endPattern, Pattern.split, hfront]
  simp only [Pattern.split, hdigits, Pattern.stripFront, if_true, Option.map_some, endMark,
    List.append_assoc]

/-- **A mark is read as a mark** wherever a token begins at it. -/
theorem firstMatch_mark {m : SourceKind × List Char} (hm : IsMark m) (rest : List Char) :
    firstMatch lexicon.classes (m.2 ++ rest) = some (m.1, m.2, rest) := by
  obtain rfl | ⟨node, rfl⟩ := hm
  · rfl
  · -- the class of opening marks comes first, and does not match: the fourth characters differ
    have hbegin : (Pattern.text beginMark).split (endMark node ++ rest) = none := rfl
    have hend := split_endMark node rest
    obtain ⟨l, hl⟩ : ∃ l, endMark node = markDelimiter :: l := ⟨_, rfl⟩
    rw [lexicon, List.cons_append, firstMatch, hbegin]
    rw [List.cons_append, firstMatch, ← endPattern, hend, hl]

/-- What the tokens of text before a mark may be: one that is no mark, and has the delimiter only if
it is verbatim. -/
theorem firstMatch_char {c : Char} {s lexeme rest : List Char} {kind : SourceKind}
    (hc : c ≠ markDelimiter)
    (h : firstMatch lexicon.classes (c :: s) = some (kind, lexeme, rest)) :
    kind.isMark = false ∧ (kind.isVerbatim = false → Unmarked lexeme) := by
  obtain ⟨heq, -, cls, hcls, hsplit, hkind⟩ := firstMatch_spec h
  rcases classes_cases cls hcls with rfl | rfl | ⟨hmark, hx⟩
  · -- a class of marks takes no text that another character begins
    have hnone : (Pattern.text beginMark).split (c :: s) = none := by
      rw [Pattern.split, beginMark, Pattern.stripFront, if_neg (Ne.symm hc), Option.map_none]
    simp [hnone] at hsplit
  · have hnone : endPattern.split (c :: s) = none := by
      rw [endPattern, Pattern.split, Pattern.split, endMarkFront, Pattern.stripFront,
        if_neg (Ne.symm hc), Option.map_none]
    simp [hnone] at hsplit
  · refine ⟨hkind ▸ hmark lexeme, fun hv => ?_⟩
    rcases hx with hx | hx
    · exact Pattern.not_mem_of_excludes hx hsplit
    · exact absurd (hx lexeme) (by simp [hkind, hv])

/-- **The marks that are read** in a text with marks, where no verbatim token goes past one. -/
theorem filter_pieces {fuel : Nat} {s : List Char} {ms : List (SourceKind × List Char)}
    (h : MarkedBy s ms) (hlen : s.length ≤ fuel)
    (hv : ∀ x ∈ lexicon.pieces fuel s, x.1.isVerbatim = true → Unmarked x.2) :
    (lexicon.pieces fuel s).filter (fun x => x.1.isMark) = ms := by
  induction fuel generalizing s ms with
  | zero =>
    obtain rfl : s = [] := List.length_eq_zero_iff.mp (Nat.le_zero.mp hlen)
    have hnone : 2 * ms.length = 0 := h.count_eq.symm
    obtain rfl : ms = [] := List.length_eq_zero_iff.mp (by omega)
    rfl
  | succ fuel ih =>
    cases h with
    | nil => rfl
    -- a token that begins between marks ends before the next one, so the marks stay the same
    | @char c s _ hc h =>
      rw [Lexicon.pieces] at hv ⊢
      cases hf : firstMatch lexicon.classes (c :: s) with
      | none =>
        simp only [hf, List.forall_mem_cons] at hv ⊢
        exact ih h (by simpa using hlen) hv.2
      | some r =>
        obtain ⟨kind, lexeme, rest⟩ := r
        obtain ⟨heq, hne, -⟩ := firstMatch_spec hf
        obtain ⟨hmark, hplain⟩ := firstMatch_char hc hf
        simp only [hf, List.forall_mem_cons] at hv ⊢
        have hu : Unmarked lexeme := by
          cases hk : kind.isVerbatim with
          | true => exact hv.1 hk
          | false => exact hplain hk
        have hrest : MarkedBy rest ms := MarkedBy.drop (heq ▸ .char hc h) hu
        rw [List.filter_cons_of_neg (by simp [hmark])]
        refine ih hrest ?_ hv.2
        have := congrArg List.length heq
        have := List.length_pos_iff.mpr hne
        simp only [List.length_cons, List.length_append] at *
        omega
    | @mark m s ms hm h =>
      have hf := firstMatch_mark hm s
      obtain ⟨l, hl⟩ := hm.head
      rw [hl] at hlen hv hf ⊢
      rw [List.cons_append] at *
      rw [Lexicon.pieces, hf] at hv ⊢
      simp only [List.forall_mem_cons] at hv ⊢
      have hlen : s.length ≤ fuel := by
        simp only [List.length_cons, List.length_append] at hlen
        omega
      rw [List.filter_cons_of_pos (by simp [hm.isMark]), ih h hlen hv.2, ← hl]

/-- The delimiters of a list of pieces are those of the marks among them and those of the others. -/
theorem count_flatMap (pieces : List (SourceKind × List Char)) :
    (pieces.flatMap (·.2)).count markDelimiter =
      ((pieces.filter fun x => x.1.isMark).flatMap (·.2)).count markDelimiter +
        ((pieces.filter fun x => !x.1.isMark).flatMap (·.2)).count markDelimiter := by
  induction pieces with
  | nil => rfl
  | cons x pieces ih =>
    cases hx : x.1.isMark <;>
      simp only [List.flatMap_cons, List.count_append, List.filter_cons, hx, ih, if_true,
        Bool.not_true, Bool.not_false, Bool.false_eq_true, if_false] <;>
      omega

/-- All pieces of a source text. -/
def sourcePieces (s : List Char) : List (SourceKind × List Char) :=
  SourceKind.lexicon.pieces s.length s

/-- A token by its kind and text. -/
def kindText (t : SourceToken) : SourceKind × List Char := (t.kind, t.text.toList)

/-- The marks among the tokens of a text, in order. -/
def marksRead (text : String) : List (SourceKind × List Char) :=
  ((SourceToken.ofText text).map kindText).filter fun x => x.1.isMark

theorem map_kindText (text : String) :
    (SourceToken.ofText text).map kindText = lexicon.pieces text.toList.length text.toList := by
  refine (lexicon.map_tokens (fun kind s => (kind, s.toList)) text).trans ?_
  simp

/-- **The marks that are read are those that were written** exactly where no comment, string or
escaped identifier has the delimiter in it. -/
theorem marksRead_eq_iff {text : String} {ms : List (SourceKind × List Char)}
    (h : MarkedBy text.toList ms) :
    marksRead text = ms ↔
      ∀ t ∈ SourceToken.ofText text, t.kind.isVerbatim = true → Unmarked t.text.toList := by
  have hv : (∀ t ∈ SourceToken.ofText text, t.kind.isVerbatim = true → Unmarked t.text.toList) ↔
      ∀ x ∈ lexicon.pieces text.toList.length text.toList,
        x.1.isVerbatim = true → Unmarked x.2 := by
    rw [← map_kindText, List.forall_mem_map]
    rfl
  rw [hv, marksRead, map_kindText]
  refine ⟨fun heq x hx hverb => ?_, fun hv => filter_pieces h (Nat.le_refl _) hv⟩
  -- the marks use up all the delimiters there are
  have hall := congrArg (List.count markDelimiter)
    (lexicon.flatMap_pieces (s := text.toList) (Nat.le_refl _))
  have hmarks : (ms.flatMap (·.2)).count markDelimiter = 2 * ms.length := h.count_flatMap
  rw [count_flatMap, heq, h.count_eq, hmarks] at hall
  have hnone : Unmarked (((lexicon.pieces text.toList.length text.toList).filter
      fun x => !x.1.isMark).flatMap (·.2)) := List.count_eq_zero.mp (by omega)
  have hmark : x.1.isMark = false := by
    revert hverb
    cases x.1 <;> simp [isVerbatim, isMark]
  exact Unmarked.flatMap.mp hnone x (List.mem_filter.mpr ⟨hx, by simp [hmark]⟩)

/-!
## What stands outside of marks

Taking the marks out of a text looks at its delimiters only: they are paired from the left, and what
stands between the two of a pair goes. So where the delimiters before some place come in pairs, what
is behind the place is not touched by what is before it (`withoutMarks_append`).
-/

theorem splitAtChar_ne_nil (c : Char) (s : List Char) : splitAtChar c s ≠ [] := by
  cases s with
  | nil => simp [splitAtChar]
  | cons a s =>
    rw [splitAtChar]
    split
    · simp
    · split <;> simp

/-- Text without separators belongs to the first piece of what follows. -/
theorem splitAtChar_append {c : Char} {s t x : List Char} {xs : List (List Char)} (h : c ∉ s)
    (ht : splitAtChar c t = x :: xs) : splitAtChar c (s ++ t) = (s ++ x) :: xs := by
  induction s with
  | nil => exact ht
  | cons a s ih =>
    rw [List.mem_cons, not_or] at h
    rw [List.cons_append, splitAtChar, if_neg (Ne.symm h.1), ih h.2]
    rfl

/-- Text without delimiters stays. -/
theorem withoutMarks_unmarked_append {s : List Char} (h : Unmarked s) (t : List Char) :
    withoutMarks (s ++ t) = s ++ withoutMarks t := by
  obtain ⟨x, xs, ht⟩ := List.exists_cons_of_ne_nil (splitAtChar_ne_nil markDelimiter t)
  rw [withoutMarks, withoutMarks, splitAtChar_append h ht, ht]
  rcases xs with _ | ⟨y, _ | ⟨z, zs⟩⟩ <;> simp [outsidePieces]

theorem withoutMarks_unmarked {s : List Char} (h : Unmarked s) : withoutMarks s = s := by
  have := withoutMarks_unmarked_append h []
  rwa [List.append_nil, show withoutMarks [] = [] from rfl, List.append_nil] at this

/-- What stands between a pair of delimiters goes. -/
theorem withoutMarks_pair {inside : List Char} (h : Unmarked inside) (t : List Char) :
    withoutMarks (markDelimiter :: (inside ++ markDelimiter :: t)) = withoutMarks t := by
  obtain ⟨x, xs, ht⟩ := List.exists_cons_of_ne_nil (splitAtChar_ne_nil markDelimiter t)
  have hsplit : splitAtChar markDelimiter (markDelimiter :: t) = [] :: x :: xs := by
    rw [splitAtChar, if_pos rfl, ht]
  rw [withoutMarks, withoutMarks, splitAtChar, if_pos rfl, splitAtChar_append h hsplit, ht]
  rfl

/-- **Behind paired delimiters a text is taken out of its marks for itself.** -/
theorem withoutMarks_append {s : List Char} (h : s.count markDelimiter % 2 = 0) (t : List Char) :
    withoutMarks (s ++ t) = withoutMarks s ++ withoutMarks t := by
  induction hn : s.length using Nat.strong_induction_on generalizing s with
  | _ n ih =>
    by_cases hs : Unmarked s
    · rw [withoutMarks_unmarked hs, withoutMarks_unmarked_append hs]
    · -- the first two delimiters are a pair, and behind it delimiters are paired again
      obtain ⟨a, b, rfl, ha⟩ := List.eq_append_cons_of_mem (not_not.mp hs)
      have hcount := List.count_eq_zero.mpr ha
      have hb : markDelimiter ∈ b := by
        by_contra hb
        rw [List.count_append, hcount, List.count_cons_self, List.count_eq_zero.mpr hb] at h
        omega
      obtain ⟨inside, rest, rfl, hi⟩ := List.eq_append_cons_of_mem hb
      have heven : rest.count markDelimiter % 2 = 0 := by
        rw [List.count_append, hcount, List.count_cons_self, List.count_append,
          List.count_eq_zero.mpr hi, List.count_cons_self] at h
        omega
      have hrest := ih rest.length (by simp at hn; omega) heven rfl
      simp only [List.append_assoc, List.cons_append]
      rw [withoutMarks_unmarked_append ha, withoutMarks_unmarked_append ha, withoutMarks_pair hi,
        withoutMarks_pair hi, hrest, List.append_assoc]

theorem withoutMarks_mark {m : SourceKind × List Char} (hm : IsMark m) (t : List Char) :
    withoutMarks (m.2 ++ t) = withoutMarks t := by
  obtain ⟨inside, hinside, hm⟩ := hm.inside
  simpa [hm] using withoutMarks_pair hinside t

end Verilog
