import Mathlib.Data.Bool.AllAny
import Mathlib.Data.Nat.Digits.Defs
import Verilog.Proofs.Syntax.Pairs
import Verilog.Text.Literal

/-!
# The values of integers

An integer is spelled in decimal digits, or as a quote with digits of a base behind it, or as a
quote with one digit that fills a word (`IntegerSpelling`). The lexicon of source text has a class
for each of the three, and nothing else is a token of these kinds: so the text of such a token
always has a spelling (`exists_spells`).

What an integer denotes is said of its spelling: the figures of its base, underscores left out, are
the digits of a number with the last one first (`Denotes`), and a digit that fills a word is all of
its bits. Reading the text of an integer gives just that number, if it fits in a word, and nothing
if there is none or if it does not fit (`reads_integers`).
-/

namespace Verilog

/-! ### Digits -/

/-- Is a text made of decimal digits, with underscores between or behind them? -/
def IsDecimal (s : List Char) : Prop :=
  (∃ c ∈ s.head?, c.isDigit = true) ∧ ∀ c ∈ s, c.isDigit = true ∨ c = '_'

/-- A blank that may stand on either side of a base. -/
def isGap (c : Char) : Bool := c == ' ' || c == '\t'

/-- The figures of all bases, the unknown ones among them, and the underscore. -/
def figures : List Char := "0123456789abcdefABCDEFxXzZ?_".toList

/-- The bases that a number may be written in. -/
inductive Radix where
  | binary | octal | decimal | hexadecimal
  deriving DecidableEq, Repr

namespace Radix

/-- How many figures a base has. -/
def size : Radix → Nat
  | binary => 2
  | octal => 8
  | decimal => 10
  | hexadecimal => 16

/-- The letter of a base, small or large. -/
def letter : Radix → (large : Bool) → Char
  | binary, large => if large then 'B' else 'b'
  | octal, large => if large then 'O' else 'o'
  | decimal, large => if large then 'D' else 'd'
  | hexadecimal, large => if large then 'H' else 'h'

end Radix

/-! ### Spellings -/

/-- **The spelling of a number with a base.** -/
structure BasedSpelling where
  /-- How many bits the number is said to have, which may be left out. -/
  size : List Char
  before : List Char
  sign : List Char
  radix : Radix
  /-- Is the letter of the base a capital? -/
  large : Bool
  behind : List Char
  digits : List Char
  isDecimal_size : size = [] ∧ before = [] ∨ IsDecimal size
  isGap_before : ∀ c ∈ before, isGap c = true
  mem_sign : sign ∈ [[], ['s'], ['S']]
  isGap_behind : ∀ c ∈ behind, isGap c = true
  digits_ne_nil : digits ≠ []
  mem_digits : ∀ c ∈ digits, c ∈ figures

/-- **The spelling of an integer.** -/
inductive IntegerSpelling where
  /-- Decimal digits. -/
  | plain (digits : List Char) (h : IsDecimal digits)
  /-- Digits of a base. -/
  | based (b : BasedSpelling)
  /-- A quote and a digit that fills a word. -/
  | filling (digit : Char) (h : digit ∈ ['0', '1', 'x', 'X', 'z', 'Z'])

/-- The text of a number with a base. -/
def BasedSpelling.text (b : BasedSpelling) : List Char :=
  b.size ++ b.before ++ '\'' :: (b.sign ++ b.radix.letter b.large :: (b.behind ++ b.digits))

namespace IntegerSpelling

/-- The text of an integer. -/
def text : IntegerSpelling → List Char
  | plain digits _ => digits
  | based b => b.text
  | filling digit _ => ['\'', digit]

/-- The kind of token that an integer is. -/
def kind : IntegerSpelling → SourceKind
  | plain .. => .intConst
  | based _ => .basedNumber
  | filling .. => .unbasedUnsized

/-- The digits of an integer. -/
def digits : IntegerSpelling → List Char
  | plain digits _ => digits
  | based b => b.digits
  | filling digit _ => [digit]

/-- **Is a token spelled like this?** -/
def Spells (l : IntegerSpelling) (t : SourceToken) : Prop :=
  l.kind = t.kind ∧ l.text = t.text.toList

end IntegerSpelling

/-- Is a token an integer, to judge by its kind? -/
def SourceKind.isInteger (k : SourceKind) : Bool :=
  k == .intConst || k == .basedNumber || k == .unbasedUnsized

/-! ### What the patterns take -/

namespace Pattern

variable {a : Pattern} {p : Char → Bool} {s x rest : List Char}

theorem isDecimal_of_split (h : digits.split s = some (x, rest)) : IsDecimal x := by
  obtain ⟨front, more, mid, hfront, hmore, rfl⟩ := exists_of_split_seq h
  obtain ⟨c, rfl, hc⟩ := exists_of_split_one hfront
  refine ⟨⟨c, rfl, hc⟩, fun d hd => ?_⟩
  rcases List.mem_cons.mp hd with rfl | hd
  · exact .inl hc
  · simpa using forall_of_split_run hmore d hd

end Pattern

/-! ### Tokens -/

open Pattern

/-- The characters that a number with a base has for digits are the figures. -/
theorem mem_figures {c : Char}
    (h : (isHexDigit c || ['x', 'X', 'z', 'Z', '?', '_'].contains c) = true) : c ∈ figures := by
  rw [Bool.or_eq_true] at h
  rcases h with h | h
  · rw [← Char.ofNat_toNat c]
    have hc : c.val.toNat = c.toNat := rfl
    simp only [isHexDigit, Char.isDigit, Bool.or_eq_true, Bool.and_eq_true, decide_eq_true_eq,
      Char.le_def, UInt32.le_iff_toNat_le, ge_iff_le, hc] at h
    generalize c.toNat = n at h
    have hrange : n ∈ List.range' 48 10 ++ List.range' 97 6 ++ List.range' 65 6 := by
      simp only [List.mem_append, List.mem_range'_1]
      simp at h
      omega
    have hall : ∀ n ∈ List.range' 48 10 ++ List.range' 97 6 ++ List.range' 65 6,
        Char.ofNat n ∈ figures := by decide
    exact hall n hrange
  · have hall : ∀ c ∈ ['x', 'X', 'z', 'Z', '?', '_'], c ∈ figures :=
      List.all_iff_forall_prop.mp (by decide)
    exact hall c (List.contains_iff_mem.mp h)

theorem exists_letter {c : Char} (h : c ∈ ['b', 'B', 'o', 'O', 'd', 'D', 'h', 'H']) :
    ∃ (radix : Radix) (large : Bool), radix.letter large = c := by
  simp only [List.mem_cons, List.not_mem_nil, or_false] at h
  rcases h with rfl | rfl | rfl | rfl | rfl | rfl | rfl | rfl
  · exact ⟨.binary, false, rfl⟩
  · exact ⟨.binary, true, rfl⟩
  · exact ⟨.octal, false, rfl⟩
  · exact ⟨.octal, true, rfl⟩
  · exact ⟨.decimal, false, rfl⟩
  · exact ⟨.decimal, true, rfl⟩
  · exact ⟨.hexadecimal, false, rfl⟩
  · exact ⟨.hexadecimal, true, rfl⟩

/-- What the pattern of numbers with a base takes is spelled as one. -/
theorem exists_basedSpelling {s x rest : List Char}
    (h : SourceKind.basedPattern.split s = some (x, rest)) : ∃ b : BasedSpelling, b.text = x := by
  obtain ⟨front, _, _, hfront, hback, rfl⟩ := exists_of_split_seq h
  obtain ⟨quote, _, _, hquote, hspec, rfl⟩ := exists_of_split_seq hback
  obtain ⟨sign, _, _, hsign, hbase, rfl⟩ := exists_of_split_seq hspec
  obtain ⟨letter, _, _, hletter, hend, rfl⟩ := exists_of_split_seq hbase
  obtain ⟨behind, digits, _, hbehind, hdigits, rfl⟩ := exists_of_split_seq hend
  obtain rfl := eq_of_split_text hquote
  obtain ⟨c, rfl, hc⟩ := exists_of_split_one hletter
  obtain ⟨radix, large, rfl⟩ := exists_letter (List.contains_iff_mem.mp hc)
  obtain ⟨hne, hall⟩ := forall_of_split_run1 hdigits
  obtain ⟨size, before, rfl, hsize, hbefore⟩ : ∃ size before, front = size ++ before ∧
      (size = [] ∧ before = [] ∨ IsDecimal size) ∧ ∀ c ∈ before, isGap c = true := by
    rcases eq_nil_or_of_split_opt hfront with rfl | hfront
    · exact ⟨[], [], rfl, .inl ⟨rfl, rfl⟩, by simp⟩
    · obtain ⟨size, before, _, hsize, hbefore, rfl⟩ := exists_of_split_seq hfront
      exact ⟨size, before, rfl, .inr (isDecimal_of_split hsize), forall_of_split_run hbefore⟩
  have hsign : sign ∈ [[], ['s'], ['S']] := by
    rcases eq_nil_or_of_split_opt hsign with rfl | hsign
    · simp
    · obtain ⟨c, rfl, hc⟩ := exists_of_split_one hsign
      simpa using hc
  exact ⟨{ size, before, sign, radix, large, behind, digits
           isDecimal_size := hsize
           isGap_before := hbefore
           mem_sign := hsign
           isGap_behind := forall_of_split_run hbehind
           digits_ne_nil := hne
           mem_digits := fun c hc => mem_figures (hall c hc) }, by simp [BasedSpelling.text]⟩

theorem isInteger_ofWord (word : List Char) : (SourceKind.ofWord word).isInteger = false :=
  SourceKind.ofWord_cases (P := fun k => k.isInteger = false) rfl (by decide) word

/-- **An integer has a spelling**: a token of such a kind, of whatever text. -/
theorem exists_spells {s : String} {t : SourceToken} (ht : t ∈ SourceToken.ofText s)
    (hk : t.kind.isInteger = true) : ∃ l : IntegerSpelling, l.Spells t := by
  rcases Lexicon.class_of_mem_tokens ht with ⟨h, -⟩ | ⟨cls, hcls, input, rest, hsplit, hkind, -⟩
  · rw [h] at hk
    cases hk
  rcases List.mem_append.mp hcls with h | h
  · simp only [List.mem_cons, List.not_mem_nil, or_false] at h
    rcases h with h | h | h | h | h | h | h | h | h | h | h | h | h | h <;> subst h
    case inr.inr.inr.inr.inr.inr.inr.inr.inr.inl =>
      obtain ⟨b, hb⟩ := exists_basedSpelling hsplit
      exact ⟨.based b, hkind, hb⟩
    case inr.inr.inr.inr.inr.inr.inr.inr.inr.inr.inl =>
      obtain ⟨quote, _, _, hquote, hmore, htext⟩ := exists_of_split_seq hsplit
      obtain ⟨digit, _, _, hdigit, hahead, rfl⟩ := exists_of_split_seq hmore
      obtain rfl := eq_of_split_text hquote
      obtain ⟨c, rfl, hc⟩ := exists_of_split_one hdigit
      refine ⟨.filling c (List.contains_iff_mem.mp hc), hkind, ?_⟩
      simp only [split, Option.ite_none_right_eq_some, Option.some.injEq, Prod.mk.injEq] at hahead
      obtain ⟨-, rfl, -⟩ := hahead
      exact htext.symm
    case inr.inr.inr.inr.inr.inr.inr.inr.inr.inr.inr.inr.inl =>
      exact ⟨.plain _ (isDecimal_of_split hsplit), hkind, rfl⟩
    all_goals
      rw [← hkind] at hk
      first | cases hk | exact absurd hk (by simp [isInteger_ofWord])
  · obtain ⟨op, hop, rfl⟩ := List.mem_map.mp h
    have hall : ∀ op ∈ SourceKind.operators, op.2.isInteger = false := by decide
    rw [← hkind, hall op hop] at hk
    cases hk


/-! ### What is denoted -/

/-- The figures of all bases in order, letters being small. -/
def figureOrder : List Char := "0123456789abcdef".toList

/-- The value of a figure; that of an unknown one is past all bases. -/
def figureValue (c : Char) : Nat := figureOrder.idxOf c.toLower

/-- The digits of a number without the underscores. -/
def bareDigits (s : List Char) : List Char := s.filter (· != '_')

/-- **Do digits of a base denote a number?** -/
def Denotes (base : Nat) (s : List Char) (v : Nat) : Prop :=
  bareDigits s ≠ [] ∧ (∀ c ∈ bareDigits s, figureValue c < base) ∧
    v = Nat.ofDigits base ((bareDigits s).reverse.map figureValue)

/-- **Does an integer denote a number?** A digit that fills a word is all zeros or all ones. -/
def IntegerSpelling.Denotes : IntegerSpelling → Nat → Prop
  | plain digits _, v => Verilog.Denotes 10 digits v
  | based b, v => Verilog.Denotes b.radix.size b.digits v
  | filling digit _, v => digit = '0' ∧ v = 0 ∨ digit = '1' ∧ v = 2 ^ 64 - 1

/-! ### Digits are read -/

theorem isDigitOf_figure (radix : Radix) {c : Char} (h : c ∈ figures) (hne : c ≠ '_') :
    (isDigitOf radix.size c = true ↔ figureValue c < radix.size) ∧
      (isDigitOf radix.size c = true → (digitValue? c).getD 0 = figureValue c) := by
  have hall : ∀ c ∈ figures, c ≠ '_' →
      (isDigitOf radix.size c = true ↔ figureValue c < radix.size) ∧
        (isDigitOf radix.size c = true → (digitValue? c).getD 0 = figureValue c) := by
    cases radix <;> exact List.all_iff_forall_prop.mp (by decide)
  exact hall c h hne

theorem digitsValue_append_singleton (base : Nat) (s : List Char) (c : Char) :
    digitsValue base (s ++ [c]) = base * digitsValue base s + (digitValue? c).getD 0 := by
  simp [digitsValue]

/-- Digits read from the left are a number with the last one first. -/
theorem digitsValue_eq_ofDigits {base : Nat} {s : List Char}
    (h : ∀ c ∈ s, (digitValue? c).getD 0 = figureValue c) :
    digitsValue base s = Nat.ofDigits base (s.reverse.map figureValue) := by
  induction s using List.reverseRecOn with
  | nil => rfl
  | append_singleton s c ih =>
    rw [digitsValue_append_singleton, ih fun d hd => h d (List.mem_append_left _ hd),
      h c (by simp), List.reverse_append, List.reverse_singleton, List.singleton_append,
      List.map_cons, Nat.ofDigits_cons, Nat.add_comm]

/-- Figures without underscores are read if they all are digits of the base. -/
theorem readDigits_bareDigits {radix : Radix} {s : List Char} (hs : ∀ c ∈ s, c ∈ figures)
    (v : Nat) :
    readDigits radix.size (bareDigits s) = some v ↔ Denotes radix.size s v := by
  have hfigure {c : Char} (hc : c ∈ bareDigits s) := by
    have hmem := List.mem_filter.mp hc
    exact isDigitOf_figure radix (hs c hmem.1) (by simpa using hmem.2)
  rw [readDigits, Denotes, Option.ite_none_right_eq_some, Bool.and_eq_true, Bool.not_eq_true',
    List.isEmpty_eq_false_iff, List.all_eq_true, and_assoc]
  refine and_congr_right fun _ => ?_
  constructor
  · rintro ⟨hall, hv⟩
    refine ⟨fun c hc => (hfigure hc).1.mp (hall c hc), ?_⟩
    rw [← Option.some.inj hv, digitsValue_eq_ofDigits fun c hc => (hfigure hc).2 (hall c hc)]
  · rintro ⟨hall, hv⟩
    have hall' : ∀ c ∈ bareDigits s, isDigitOf radix.size c = true := fun c hc =>
      (hfigure hc).1.mpr (hall c hc)
    rw [hv, digitsValue_eq_ofDigits fun c hc => (hfigure hc).2 (hall' c hc)]
    exact ⟨hall', rfl⟩

theorem isBlank_of_mem_figures : ∀ c ∈ figures, isBlank c = false :=
  List.all_iff_forall_prop.mp (by decide)

theorem isBlank_of_isGap {c : Char} (h : isGap c = true) : isBlank c = true := by
  rw [isGap, Bool.or_eq_true, beq_iff_eq, beq_iff_eq] at h
  rcases h with rfl | rfl <;> rfl

theorem dropWhile_isBlank_figures {s : List Char} (h : ∀ c ∈ s, c ∈ figures) :
    s.dropWhile isBlank = s := by
  cases s with
  | nil => rfl
  | cons c s => rw [List.dropWhile_cons, isBlank_of_mem_figures c (h c List.mem_cons_self)]; rfl

/-- Blanks before figures are taken off, and the underscores among them. -/
theorem cleanNumber_figures {gap s : List Char} (hgap : ∀ c ∈ gap, isGap c = true)
    (h : ∀ c ∈ s, c ∈ figures) : cleanNumber (gap ++ s) = bareDigits s := by
  have hleft : trimLeft (gap ++ s) = s := by
    rw [trimLeft, List.dropWhile_append_of_pos fun c hc => isBlank_of_isGap (hgap c hc),
      dropWhile_isBlank_figures h]
  rw [cleanNumber, trim, hleft, trimRight, dropWhile_isBlank_figures (by simpa using h),
    List.reverse_reverse, bareDigits]

/-- No figure is a sign. -/
theorem ne_cons_of_figures {s digits : List Char} {c : Char} (h : ∀ c ∈ s, c ∈ figures)
    (hc : c ∉ figures) : bareDigits s ≠ c :: digits := fun heq => hc <| by
  have hmem : c ∈ bareDigits s := heq ▸ List.mem_cons_self
  exact h c (List.mem_filter.mp hmem).1

/-- **Figures are read in a base** as the number that they denote, if it fits. -/
theorem readUnsigned_figures (radix : Radix) (bits : Nat) {gap s : List Char}
    (hgap : ∀ c ∈ gap, isGap c = true) (h : ∀ c ∈ s, c ∈ figures) (v : Nat) :
    readUnsigned radix.size bits (gap ++ s) = some v ↔
      Denotes radix.size s v ∧ v < 2 ^ bits := by
  rw [readUnsigned, cleanNumber_figures hgap h]
  split
  · rename_i digits heq
    exact absurd heq (ne_cons_of_figures h (by decide))
  · rw [Option.filter_eq_some_iff, readDigits_bareDigits h, decide_eq_true_eq]
    rfl

/-- **Figures are read as a decimal number** in the same way. -/
theorem readDecimal_figures {gap s : List Char} (hgap : ∀ c ∈ gap, isGap c = true)
    (h : ∀ c ∈ s, c ∈ figures) (v : Nat) :
    readDecimal (gap ++ s) = some v ↔ Denotes 10 s v ∧ v < 2 ^ 64 := by
  have hread := readUnsigned_figures .decimal 64 hgap h v
  rw [readDecimal, cleanNumber_figures hgap h]
  split
  · rename_i digits heq
    exact absurd heq (ne_cons_of_figures h (by decide))
  · exact hread

/-! ### Where the quote stands -/

theorem mem_figures_of_isDecimal {s : List Char} (h : IsDecimal s) : ∀ c ∈ s, c ∈ figures := by
  intro c hc
  rcases h.2 c hc with hd | rfl
  · exact mem_figures (by simp [isHexDigit, hd])
  · decide

theorem dropWhile_quote_of_not_mem {s rest : List Char} (h : '\'' ∉ s) :
    (s ++ '\'' :: rest).dropWhile (· != '\'') = '\'' :: rest := by
  have hne : ∀ c ∈ s, (c != '\'') = true := fun c hc => bne_iff_ne.mpr fun he => h (he ▸ hc)
  rw [List.dropWhile_append_of_pos hne]
  rfl

theorem quote_not_mem_of_isDecimal {s : List Char} (h : IsDecimal s) : '\'' ∉ s := fun hmem => by
  rcases h.2 _ hmem with h | h <;> simp at h

/-- A number without a base has no quote. -/
theorem dropWhile_quote_plain {s : List Char} (h : IsDecimal s) :
    s.dropWhile (· != '\'') = [] :=
  List.dropWhile_eq_nil_iff.mpr fun _ hc => bne_iff_ne.mpr fun he =>
    quote_not_mem_of_isDecimal h (he ▸ hc)

/-- What stands before the quote of a number with a base has no quote in it. -/
theorem BasedSpelling.quote_not_mem (b : BasedSpelling) : '\'' ∉ b.size ++ b.before :=
    fun hmem => by
  rcases List.mem_append.mp hmem with hmem | hmem
  · rcases b.isDecimal_size with ⟨hsize, -⟩ | hsize
    · simp [hsize] at hmem
    · exact quote_not_mem_of_isDecimal hsize hmem
  · exact absurd (b.isGap_before _ hmem) (by decide)

/-- Behind the quote of a number with a base stand its sign and its base. -/
theorem BasedSpelling.dropWhile_quote (b : BasedSpelling) :
    b.text.dropWhile (· != '\'') =
      '\'' :: (b.sign ++ b.radix.letter b.large :: (b.behind ++ b.digits)) :=
  dropWhile_quote_of_not_mem b.quote_not_mem

/-! ### Integers are read -/

/-- A number with a base is read in that base. -/
theorem BasedSpelling.integerLiteral_text (b : BasedSpelling) :
    integerLiteral b.text = match b.radix with
      | .decimal => readDecimal (b.behind ++ b.digits)
      | radix => readUnsigned radix.size 64 (b.behind ++ b.digits) := by
  have hsign := b.mem_sign
  simp only [List.mem_cons, List.not_mem_nil, or_false] at hsign
  rw [integerLiteral, b.dropWhile_quote]
  generalize b.behind ++ b.digits = digits
  rcases hsign with hsign | hsign | hsign <;> rw [hsign] <;>
    cases b.radix <;> cases b.large <;> rfl

namespace IntegerSpelling

/-- **The text of an integer is read as what it denotes**, if that fits in a word. -/
theorem integerLiteral_eq_some_iff (l : IntegerSpelling) (v : Nat) :
    integerLiteral l.text = some v ↔ l.Denotes v ∧ v < 2 ^ 64 := by
  cases l with
  | plain digits h =>
    rw [text, integerLiteral, dropWhile_quote_plain h]
    have hgap : ∀ c ∈ ([] : List Char), isGap c = true := by simp
    exact readDecimal_figures hgap (mem_figures_of_isDecimal h) v
  | based b =>
    rw [text, b.integerLiteral_text, Denotes]
    have hread := readUnsigned_figures b.radix 64 b.isGap_behind b.mem_digits v
    have hdecimal := readDecimal_figures b.isGap_behind b.mem_digits v
    cases hr : b.radix with
    | decimal => exact hdecimal
    | binary | octal | hexadecimal =>
      rw [hr] at hread
      exact hread
  | filling digit h =>
    simp only [List.mem_cons, List.not_mem_nil, or_false] at h
    have hsome {n : Nat} (hn : n < 2 ^ 64) : some n = some v ↔ v = n ∧ v < 2 ^ 64 := by
      rw [Option.some_inj]
      exact ⟨fun he => ⟨he.symm, he ▸ hn⟩, fun he => he.1.symm⟩
    rcases h with rfl | rfl | rfl | rfl | rfl | rfl
    case inl =>
      rw [show integerLiteral (filling '0' h).text = some 0 from rfl, hsome (by decide)]
      simp [Denotes]
    case inr.inl =>
      rw [show integerLiteral (filling '1' h).text = some (2 ^ 64 - 1) from rfl, hsome (by decide)]
      simp [Denotes]
    all_goals simp [Denotes, text, integerLiteral]

/-- A number with an unknown digit denotes nothing. -/
theorem not_denotes_of_unknown {l : IntegerSpelling} {c : Char} (hc : c ∈ l.digits)
    (hunknown : c ∈ ['x', 'X', 'z', 'Z', '?']) (v : Nat) : ¬ l.Denotes v := by
  have hvalue : ∀ c ∈ ['x', 'X', 'z', 'Z', '?'], c ≠ '_' ∧ figureValue c = 16 :=
    List.all_iff_forall_prop.mp (by decide)
  obtain ⟨hbare, hvalue⟩ := hvalue c hunknown
  have hdigits {base : Nat} {s : List Char} (hbase : base ≤ 16) (hs : c ∈ s) :
      ¬ Verilog.Denotes base s v := fun h => by
    have hlt := h.2.1 c (List.mem_filter.mpr ⟨hs, by simpa using hbare⟩)
    exact absurd (hvalue ▸ hlt) (Nat.not_lt.mpr hbase)
  cases l with
  | plain digits h => exact hdigits (by decide) hc
  | based b =>
    have hbase : b.radix.size ≤ 16 := by cases b.radix <;> decide
    exact hdigits hbase hc
  | filling digit h =>
    obtain rfl : c = digit := List.mem_singleton.mp hc
    rintro (⟨rfl, -⟩ | ⟨rfl, -⟩) <;> simp at hunknown

end IntegerSpelling

/-- **Integers are read exactly.** The token of an integer has a spelling, and its text is read as a
number if that is what the spelling denotes and it fits in a word of 64 bits. So nothing is read
where there is no digit, where a digit is none of the base or unknown, or where the number is too
large. -/
theorem reads_integers (s : String) (t : SourceToken) (ht : t ∈ SourceToken.ofText s)
    (hk : t.kind.isInteger = true) :
    (∃ l : IntegerSpelling, l.Spells t) ∧ ∀ l : IntegerSpelling, l.Spells t →
      (∀ v, integerLiteral t.text.toList = some v ↔ l.Denotes v ∧ v < 2 ^ 64) ∧
      ((∃ c ∈ l.digits, c ∈ ['x', 'X', 'z', 'Z', '?']) →
        integerLiteral t.text.toList = none) := by
  refine ⟨exists_spells ht hk, fun l hl => ?_⟩
  have hread := l.integerLiteral_eq_some_iff
  rw [hl.2] at hread
  refine ⟨hread, fun ⟨c, hc, hunknown⟩ => ?_⟩
  rw [Option.eq_none_iff_forall_ne_some]
  exact fun v hv => IntegerSpelling.not_denotes_of_unknown hc hunknown v ((hread v).mp hv).1

/-- A number of the greatest size there is, spelled with a sign, blanks and underscores. -/
def widestNumber : BasedSpelling where
  size := ['6', '4']
  before := [' ']
  sign := ['s']
  radix := .hexadecimal
  large := true
  behind := ['\t']
  digits := "0_FFFF_ffff_FFFF_FFFF".toList
  isDecimal_size := .inr ⟨⟨'6', rfl, rfl⟩, List.all_iff_forall_prop.mp (by decide)⟩
  isGap_before := List.all_iff_forall_prop.mp (by decide)
  mem_sign := by decide
  isGap_behind := List.all_iff_forall_prop.mp (by decide)
  digits_ne_nil := by decide
  mem_digits := List.all_iff_forall_prop.mp (by decide)

theorem reads_integers_widestNumber : ∃ t ∈ SourceToken.ofText (String.ofList widestNumber.text),
    (IntegerSpelling.based widestNumber).Spells t ∧
      integerLiteral t.text.toList = some (2 ^ 64 - 1) := by
  have htokens : (SourceToken.ofText (String.ofList widestNumber.text)).map
      (fun t => (t.kind, t.text)) =
        [(.basedNumber, String.ofList widestNumber.text)] := by decide +kernel
  obtain ⟨t, ht, hkind⟩ := List.map_eq_singleton_iff.mp htokens
  obtain ⟨hk, htext⟩ := Prod.mk.inj hkind
  have hmem : t ∈ SourceToken.ofText (String.ofList widestNumber.text) := by rw [ht]; simp
  have hspells : (IntegerSpelling.based widestNumber).Spells t :=
    ⟨hk.symm, by rw [htext, String.toList_ofList]; rfl⟩
  refine ⟨t, hmem, hspells, ?_⟩
  rw [((reads_integers _ t hmem (by rw [hk]; rfl)).2 _ hspells).1]
  exact ⟨⟨by decide, List.all_iff_forall_prop.mp (by decide), by decide⟩, by decide⟩

end Verilog
