import Verilog.Proofs.Lexing.LineEnds
import Verilog.Proofs.Literal.Value
import Verilog.Text.Literal

/-!
# The spellings of a string

A character of a string has more than one spelling between the quotes: most stand for themselves,
some control characters have letters, a backslash takes the meaning from the character behind it,
and small codes may be given in digits. A line may be continued at any place between two characters.
The text of a string is a row of such parts (`StringPart`).

How far an escape goes is a matter of what stands behind it: of hexadecimal digits at most two
belong to a code, and of octal digits at most three. A part with all its digits is therefore read in
the same way whatever follows it (`Quoted.decodeEscapes_part`), and so the string is read off its
text part by part. To the lexicon a part is characters that neither end the string nor are left
over, a backslash always having one behind it (`StringPart.split_quotedRest`).
-/

namespace Verilog

/-! ### Spellings -/

/-- **Are these the digits of the code of a character?** -/
def IsCodeOf (radix : Radix) (digits : List Char) (c : Char) : Prop :=
  (∀ d ∈ digits, d ∈ figures ∧ figureValue d < radix.size) ∧
    c.toNat = Nat.ofDigits radix.size (digits.reverse.map figureValue)

/-- The control characters that have a letter. -/
def controlLetters : List (Char × Char) :=
  [('n', '\n'), ('t', '\t'), ('v', '\x0b'), ('f', '\x0c'), ('a', '\x07')]

/-- The characters that do not stand for themselves behind a backslash. -/
def escapeCharacters : List Char := "ntvfax01234567\n".toList

/-- Does a character stand for itself between quotes? -/
def IsStringCharacter (c : Char) : Prop := c ≠ '"' ∧ c ≠ '\\' ∧ c ≠ '\n'

instance (c : Char) : Decidable (IsStringCharacter c) := inferInstanceAs (Decidable (_ ∧ _ ∧ _))

/-- **A part of the text of a string.** -/
inductive StringPart where
  /-- A character that stands for itself. -/
  | itself (c : Char) (h : IsStringCharacter c)
  /-- A control character by its letter. -/
  | control (letter c : Char) (h : (letter, c) ∈ controlLetters)
  /-- A character behind a backslash. -/
  | escaped (c : Char) (h : c ∉ escapeCharacters)
  /-- A character by its code in two digits. -/
  | hexadecimal (x y c : Char) (h : IsCodeOf .hexadecimal [x, y] c)
  /-- A character by its code in three digits. -/
  | octal (x y z c : Char) (h : IsCodeOf .octal [x, y, z] c)
  /-- A line that goes on behind its end. -/
  | continued

namespace StringPart

/-- The text of a part. -/
def text : StringPart → List Char
  | itself c _ => [c]
  | control letter _ _ => ['\\', letter]
  | escaped c _ => ['\\', c]
  | hexadecimal x y _ _ => ['\\', 'x', x, y]
  | octal x y z _ _ => ['\\', x, y, z]
  | continued => ['\\', '\n']

/-- What a part stands for. -/
def meaning : StringPart → List Char
  | itself c _ | control _ c _ | escaped c _ | hexadecimal _ _ c _ | octal _ _ _ c _ => [c]
  | continued => []

end StringPart

/-- The text of a string: its parts between quotes. -/
def quotedText (parts : List StringPart) : String :=
  String.ofList ('"' :: (parts.flatMap StringPart.text ++ ['"']))

/-- The string that parts stand for. -/
def spelledString (parts : List StringPart) : String :=
  String.ofList (parts.flatMap StringPart.meaning)

/-- Every character has a spelling. -/
theorem exists_part (c : Char) : ∃ part : StringPart, part.meaning = [c] := by
  by_cases hn : c = '\n'
  · exact ⟨.control 'n' c (by subst hn; decide), rfl⟩
  · by_cases hc : c = '"' ∨ c = '\\'
    · refine ⟨.escaped c ?_, rfl⟩
      rcases hc with rfl | rfl <;> decide
    · rw [not_or] at hc
      exact ⟨.itself c ⟨hc.1, hc.2, hn⟩, rfl⟩

/-- Every string has a spelling. -/
theorem exists_spelling (s : String) : ∃ parts, spelledString parts = s := by
  choose part hpart using exists_part
  refine ⟨s.toList.map part, ?_⟩
  rw [spelledString, List.flatMap_map, List.flatMap_congr fun c _ => hpart c,
    List.flatMap_singleton', String.ofList_toList]

/-! ### Codes -/

section Codes

variable {radix : Radix} {digits : List Char} {c d : Char}

/-- The value of an underscore is past all bases. -/
theorem IsCodeOf.ne_underscore (h : IsCodeOf radix digits c) (hd : d ∈ digits) : d ≠ '_' := by
  rintro rfl
  have hlt := (h.1 _ hd).2
  revert hlt
  cases radix <;> decide

theorem IsCodeOf.isDigitOf (h : IsCodeOf radix digits c) (hd : d ∈ digits) :
    isDigitOf radix.size d = true :=
  (isDigitOf_figure radix (h.1 d hd).1 (h.ne_underscore hd)).1.mpr (h.1 d hd).2

/-- The digits of a code are read as the code. -/
theorem IsCodeOf.ofNat_digitsValue (h : IsCodeOf radix digits c) :
    Char.ofNat (digitsValue radix.size digits) = c := by
  have hvalue : ∀ d ∈ digits, (digitValue? d).getD 0 = figureValue d := fun d hd =>
    (isDigitOf_figure radix (h.1 d hd).1 (h.ne_underscore hd)).2 (h.isDigitOf hd)
  rw [digitsValue_eq_ofDigits hvalue, ← h.2, Char.ofNat_toNat]

end Codes

/-! ### Decoding -/

namespace Quoted

variable {letter x y z c : Char} {s : List Char}

theorem mem_octalDigits (h : isDigitOf 8 c = true) : c ∈ "01234567".toList := by
  have hrange : c.toNat ∈ List.range' 48 8 := by
    rw [isDigitOf, digitValue?] at h
    rw [List.mem_range'_1]
    split at h
    · have hlow : 48 ≤ c.toNat := (Char.isDigit_iff_toNat.mp ‹_›).1
      have hvalue : c.toNat - 48 < 8 := of_decide_eq_true h
      omega
    · -- a letter is worth ten or more
      split at h
      · simp only [Option.any_some, decide_eq_true_eq] at h
        omega
      · split at h
        · simp only [Option.any_some, decide_eq_true_eq] at h
          omega
        · cases h
  have hall : ∀ n ∈ List.range' 48 8, Char.ofNat n ∈ "01234567".toList := by decide
  rw [← Char.ofNat_toNat c]
  exact hall c.toNat hrange

/-- A character that means nothing else behind a backslash is taken for itself. -/
theorem readEscape_of_not_mem (h : c ∉ escapeCharacters) : readEscape (c :: s) = ([c], s) := by
  have hdigit : isDigitOf 8 c = false := by
    rw [Bool.eq_false_iff]
    intro hdigit
    have hall : ∀ d ∈ "01234567".toList, d ∈ escapeCharacters :=
      List.all_iff_forall_prop.mp (by decide)
    exact h (hall c (mem_octalDigits hdigit))
  unfold readEscape
  split
  all_goals try (rename_i heq; obtain ⟨rfl, rfl⟩ := List.cons.inj heq; exact absurd (by decide) h)
  · rename_i heq
    cases heq
  · rename_i heq
    obtain ⟨rfl, rfl⟩ := List.cons.inj heq
    rw [if_neg (by rw [hdigit]; decide)]

theorem readEscape_control (h : (letter, c) ∈ controlLetters) :
    readEscape (letter :: s) = ([c], s) := by
  simp only [controlLetters, List.mem_cons, Prod.mk.injEq, List.not_mem_nil, or_false] at h
  rcases h with ⟨rfl, rfl⟩ | ⟨rfl, rfl⟩ | ⟨rfl, rfl⟩ | ⟨rfl, rfl⟩ | ⟨rfl, rfl⟩ <;> rfl

theorem readEscape_hexadecimal (h : IsCodeOf .hexadecimal [x, y] c) :
    readEscape ('x' :: x :: y :: s) = ([c], s) := by
  have hx : isDigitOf 16 x = true := h.isDigitOf (by simp)
  have hy : isDigitOf 16 y = true := h.isDigitOf (by simp)
  have hcode : Char.ofNat (digitsValue 16 [x, y]) = c := h.ofNat_digitsValue
  simp [readEscape, hx, hy, hcode]

/-- An octal digit behind a backslash begins a code. -/
theorem readEscape_of_isDigitOf (h : isDigitOf 8 c = true) :
    readEscape (c :: s) =
      ([Char.ofNat (digitsValue 8 (c :: (s.take 2).takeWhile (isDigitOf 8)))],
        s.drop ((s.take 2).takeWhile (isDigitOf 8)).length) := by
  have hmem := mem_octalDigits h
  simp at hmem
  rcases hmem with rfl | rfl | rfl | rfl | rfl | rfl | rfl | rfl <;> rfl

theorem readEscape_octal (h : IsCodeOf .octal [x, y, z] c) :
    readEscape (x :: y :: z :: s) = ([c], s) := by
  have hx : isDigitOf 8 x = true := h.isDigitOf (by simp)
  have hy : isDigitOf 8 y = true := h.isDigitOf (by simp)
  have hz : isDigitOf 8 z = true := h.isDigitOf (by simp)
  have hcode : Char.ofNat (digitsValue 8 [x, y, z]) = c := h.ofNat_digitsValue
  rw [readEscape_of_isDigitOf hx]
  simp [hy, hz, hcode]

/-- **A part is read in the same way whatever follows it.** -/
theorem decodeEscapes_part (part : StringPart) (s : List Char) :
    decodeEscapes (part.text ++ s) = part.meaning ++ decodeEscapes s := by
  have hescape {x : List Char} {m : List Char} (h : readEscape (x ++ s) = (m, s)) :
      decodeEscapes ('\\' :: x ++ s) = m ++ decodeEscapes s := by
    rw [List.cons_append, decodeEscapes, if_pos rfl, h]
  cases part with
  | itself c h =>
    simp only [StringPart.text, List.cons_append, List.nil_append, StringPart.meaning]
    rw [decodeEscapes, if_neg h.2.1]
  | control letter c h => exact hescape (readEscape_control h)
  | escaped c h => exact hescape (readEscape_of_not_mem h)
  | hexadecimal x y c h => exact hescape (readEscape_hexadecimal h)
  | octal x y z c h => exact hescape (readEscape_octal h)
  | continued => exact hescape rfl

theorem decodeEscapes_parts (parts : List StringPart) :
    decodeEscapes (parts.flatMap StringPart.text) = parts.flatMap StringPart.meaning := by
  induction parts with
  | nil => rw [List.flatMap_nil, List.flatMap_nil, decodeEscapes]
  | cons part parts ih => rw [List.flatMap_cons, List.flatMap_cons, decodeEscapes_part, ih]

/-- The quotes are taken off. -/
theorem decode_quotedText (parts : List StringPart) :
    decode (quotedText parts) = spelledString parts := by
  have hinside : inside (quotedText parts).toList = parts.flatMap StringPart.text := by
    simp [quotedText, inside]
  rw [decode, hinside, decodeEscapes_parts, spelledString]

end Quoted

/-! ### The token of a string -/

open Pattern

theorem isStringCharacter_of_mem_figures : ∀ c ∈ figures, IsStringCharacter c :=
  List.all_iff_forall_prop.mp (by decide)

section Rest

variable {x s : List Char}

theorem split_quotedRest_plain (hx : ∀ c ∈ x, IsStringCharacter c) :
    quotedRest.split (x ++ s) = (quotedRest.split s).map fun m => (x ++ m.1, m.2) := by
  induction x with
  | nil => simp
  | cons c x ih =>
    obtain ⟨hc, hx⟩ := List.forall_mem_cons.mp hx
    rw [List.cons_append, split_quotedRest_of_split (split_quotedCharacter hc _), ih hx,
      Option.map_map]
    rfl

theorem split_quotedRest_escape {c : Char} (hx : ∀ c ∈ x, IsStringCharacter c) :
    quotedRest.split ('\\' :: c :: x ++ s) =
      (quotedRest.split s).map fun m => ('\\' :: c :: x ++ m.1, m.2) := by
  rw [List.cons_append, List.cons_append,
    split_quotedRest_of_split (split_quotedCharacter_escaped c _), split_quotedRest_plain hx,
    Option.map_map]
  rfl

end Rest

/-- **A part neither ends a string nor is left over.** -/
theorem StringPart.split_quotedRest (part : StringPart) (s : List Char) :
    quotedRest.split (part.text ++ s) =
      (quotedRest.split s).map fun m => (part.text ++ m.1, m.2) := by
  cases part with
  | itself c h => exact split_quotedRest_plain (List.forall_mem_singleton.mpr h)
  | control letter c h => exact split_quotedRest_escape (by simp)
  | escaped c h => exact split_quotedRest_escape (by simp)
  | hexadecimal x y c h =>
    exact split_quotedRest_escape fun d hd => isStringCharacter_of_mem_figures d (h.1 d hd).1
  | octal x y z c h =>
    exact split_quotedRest_escape fun d hd =>
      isStringCharacter_of_mem_figures d (h.1 d (List.mem_cons_of_mem _ hd)).1
  | continued => exact split_quotedRest_escape (by simp)

/-- The string ends at the quote behind its parts. -/
theorem split_quotedRest_parts (parts : List StringPart) :
    quotedRest.split (parts.flatMap StringPart.text ++ ['"']) =
      some (parts.flatMap StringPart.text ++ ['"'], []) := by
  induction parts with
  | nil => rfl
  | cons part parts ih =>
    rw [List.flatMap_cons, List.append_assoc, part.split_quotedRest, ih]
    rfl

/-- No class that comes before strings begins with a quote. -/
theorem firstMatch_quotedText (parts : List StringPart) :
    Lexicon.firstMatch SourceKind.lexicon.classes (quotedText parts).toList =
      some (.stringLiteral, (quotedText parts).toList, []) := by
  have hfront : ∀ cls ∈ SourceKind.lexicon.classes.take 6, cls.1.Refuses '"' = true := by decide
  have hmatch : quoted.split (quotedText parts).toList = some ((quotedText parts).toList, []) := by
    rw [quotedText, String.toList_ofList, split_quoted, split_quotedRest_parts]
    rfl
  rw [quotedText, String.toList_ofList] at hmatch ⊢
  exact (Lexicon.firstMatch_of_refuses hfront).trans (Lexicon.firstMatch_cons hmatch)

/-- **The text of a string is one token.** -/
theorem ofText_quotedText (parts : List StringPart) :
    ∃ t : SourceToken, SourceToken.ofText (quotedText parts) = [t] ∧ t.kind = .stringLiteral ∧
      t.text = quotedText parts := by
  have hpieces : (SourceToken.ofText (quotedText parts)).map kindText =
      [(.stringLiteral, (quotedText parts).toList)] := by
    rw [map_kindText, Lexicon.pieces_cons (firstMatch_quotedText parts)]
    rfl
  obtain ⟨t, ht, hshown⟩ := List.map_eq_singleton_iff.mp hpieces
  obtain ⟨hkind, htext⟩ := Prod.mk.inj hshown
  exact ⟨t, ht, hkind, String.toList_inj.mp htext⟩

/-- **Strings are read as they are spelled.** Every string has a spelling, and every spelling,
between quotes, is one token of source text, which is decoded to the string that it spells. -/
theorem reads_spellings :
    (∀ s, ∃ parts, spelledString parts = s) ∧
      ∀ parts, ∃ t : SourceToken, SourceToken.ofText (quotedText parts) = [t] ∧
        t.kind = .stringLiteral ∧ t.text = quotedText parts ∧
        Quoted.decode t.text = spelledString parts := by
  refine ⟨exists_spelling, fun parts => ?_⟩
  obtain ⟨t, ht, hkind, htext⟩ := ofText_quotedText parts
  exact ⟨t, ht, hkind, htext, by rw [htext, Quoted.decode_quotedText]⟩

end Verilog
