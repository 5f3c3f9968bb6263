import Verilog.Ir.Kind
import Verilog.Proofs.Lexing.Cut
import Verilog.Proofs.Lexing.Place
import Verilog.Source.Lexicon
import Verilog.Text.Literal

/-!
# Formulas and how they are written

A formula is what can be said with names, numbers, unary and binary operators and the conditional
operator. It is written as a list of words, with parentheses around a part where the rank of its
operator asks for them: a part of a higher rank than its place takes would otherwise be read apart.
Binary operators of one rank associate to the left, so the place to the right of one takes lower
ranks alone; the conditional operator associates to the right. Other parentheses stand only where a
formula has them itself.

The ranks are those of the language reference (IEEE 1800, table of operator precedence), and know
nothing of the grammar that reads the words.

A word of a formula is read as one token where a blank or a semicolon stands behind it. A number is
the one word whose token looks further: a quote behind the blanks would make it the size of a number
with a base, so what stands behind the blank is asked not to be one. No word begins with a quote, so
the words of a formula with blanks between are its tokens with blanks between.
-/

namespace Verilog

/-! ### Operators -/

/-- An operator before its only operand. -/
inductive UnaryOperator where
  | plus | minus | not | bitNeg | reduceAnd | reduceNand | reduceOr | reduceNor | reduceXor
  /-- Written with the tilde first or last. -/
  | reduceXnor (tildeFirst : Bool)
  deriving DecidableEq, Repr

namespace UnaryOperator

/-- How an operator is written. -/
def text : UnaryOperator → String
  | plus => "+"
  | minus => "-"
  | not => "!"
  | bitNeg => "~"
  | reduceAnd => "&"
  | reduceNand => "~&"
  | reduceOr => "|"
  | reduceNor => "~|"
  | reduceXor => "^"
  | reduceXnor true => "~^"
  | reduceXnor false => "^~"

/-- What an operator means in a design. -/
def meaning : UnaryOperator → Operator
  | plus => .plus
  | minus => .minus
  | not => .not
  | bitNeg => .bitNeg
  | reduceAnd => .reduceAnd
  | reduceNand => .reduceNand
  | reduceOr => .reduceOr
  | reduceNor => .reduceNor
  | reduceXor => .reduceXor
  | reduceXnor _ => .reduceXnor

end UnaryOperator

/-- An operator between two operands that has a meaning in a design. -/
inductive BinaryOperator where
  | power | mult | div | mod | add | sub | shiftLeft | shiftRight | arithShiftLeft | arithShiftRight
  | lt | le | gt | ge | eq | neq | caseEq | caseNeq | bitAnd | bitXor
  /-- Written with the tilde first or last. -/
  | bitXnor (tildeFirst : Bool)
  | bitOr | logAnd | logOr
  deriving DecidableEq, Repr

namespace BinaryOperator

/-- How an operator is written. -/
def text : BinaryOperator → String
  | power => "**"
  | mult => "*"
  | div => "/"
  | mod => "%"
  | add => "+"
  | sub => "-"
  | shiftLeft => "<<"
  | shiftRight => ">>"
  | arithShiftLeft => "<<<"
  | arithShiftRight => ">>>"
  | lt => "<"
  | le => "<="
  | gt => ">"
  | ge => ">="
  | eq => "=="
  | neq => "!="
  | caseEq => "==="
  | caseNeq => "!=="
  | bitAnd => "&"
  | bitXor => "^"
  | bitXnor true => "~^"
  | bitXnor false => "^~"
  | bitOr => "|"
  | logAnd => "&&"
  | logOr => "||"

/-- What an operator means in a design. -/
def meaning : BinaryOperator → Operator
  | power => .power
  | mult => .mult
  | div => .div
  | mod => .mod
  | add => .add
  | sub => .sub
  | shiftLeft => .shiftLeft
  | shiftRight => .shiftRight
  | arithShiftLeft => .arithShiftLeft
  | arithShiftRight => .arithShiftRight
  | lt => .lt
  | le => .le
  | gt => .gt
  | ge => .ge
  | eq => .eq
  | neq => .neq
  | caseEq => .caseEq
  | caseNeq => .caseNeq
  | bitAnd => .bitAnd
  | bitXor => .bitXor
  | bitXnor _ => .bitXnor
  | bitOr => .bitOr
  | logAnd => .logAnd
  | logOr => .logOr

/-- The rank of an operator: the lower, the tighter it binds. -/
def rank : BinaryOperator → Nat
  | power => 1
  | mult | div | mod => 2
  | add | sub => 3
  | shiftLeft | shiftRight | arithShiftLeft | arithShiftRight => 4
  | lt | le | gt | ge => 5
  | eq | neq | caseEq | caseNeq => 6
  | bitAnd => 7
  | bitXor | bitXnor _ => 8
  | bitOr => 9
  | logAnd => 10
  | logOr => 11

end BinaryOperator

/-- The rank of the conditional operator. -/
def conditionalRank : Nat := 12

/-! ### Formulas -/

/-- Is a text a letter or an underscore, and letters, digits, underscores and dollar signs after
it? -/
def isWord : List Char → Bool
  | [] => false
  | c :: cs => isNameStart c && cs.all isNameRest

/-- A name that is not escaped, and not a reserved word. -/
structure PlainName where
  text : String
  isWord : isWord text.toList = true
  unreserved : SourceKind.ofWord text.toList = .identifier

/-- A formula. -/
inductive Formula where
  | name (x : PlainName)
  /-- A number that fits 64 bits. -/
  | number (n : UInt64)
  | unary (op : UnaryOperator) (operand : Formula)
  | binary (op : BinaryOperator) (left right : Formula)
  /-- One of two formulas, as a condition has it. -/
  | choose (condition yes no : Formula)
  /-- A formula in parentheses that its place does not ask for. -/
  | parens (inner : Formula)

/-- A word of a formula. -/
inductive FormulaWord where
  | name (x : PlainName)
  | number (n : UInt64)
  | unary (op : UnaryOperator)
  | binary (op : BinaryOperator)
  | question | colon | leftParen | rightParen

/-- How a word is written; a number in decimal digits. -/
def FormulaWord.text : FormulaWord → String
  | name x => x.text
  | number n => n.toNat.repr
  | unary op => op.text
  | binary op => op.text
  | question => "?"
  | colon => ":"
  | leftParen => "("
  | rightParen => ")"

namespace Formula

/-- The rank of a formula is that of its outermost operator. Unary operators bind tightest. -/
def rank : Formula → Nat
  | name _ | number _ | unary _ _ | parens _ => 0
  | binary op _ _ => op.rank
  | choose _ _ _ => conditionalRank

/-- The words of a part in a place that takes ranks up to a limit. -/
def placed (limit rank : Nat) (words : List FormulaWord) : List FormulaWord :=
  if rank ≤ limit then words else .leftParen :: (words ++ [.rightParen])

/-- The words of a formula. -/
def words : Formula → List FormulaWord
  | name x => [.name x]
  | number n => [.number n]
  | unary op f => .unary op :: placed 0 f.rank f.words
  | binary op f g => placed op.rank f.rank f.words ++ .binary op :: placed (op.rank - 1) g.rank
    g.words
  | choose c f g =>
    placed (conditionalRank - 1) c.rank c.words ++ .question :: (f.words ++ .colon :: g.words)
  | parens f => .leftParen :: (f.words ++ [.rightParen])

/-- A formula as a text: its words with blanks between. -/
def text (f : Formula) : String := " ".intercalate (f.words.map FormulaWord.text)

/-- The text of a module that assigns a formula to a net. -/
def moduleText (f : Formula) : String := "module m; assign x = " ++ f.text ++ "; endmodule"

/-- Parentheses stand only where they are needed. -/
example (a b c : PlainName) :
    (binary .mult (binary .add (name a) (name b)) (unary .minus (name c))).words =
      [.leftParen, .name a, .binary .add, .name b, .rightParen, .binary .mult, .unary .minus,
        .name c] := rfl

end Formula

/-! ### The kinds of words -/

/-- The kind of token that an operator is. -/
def UnaryOperator.kind : UnaryOperator → SourceKind
  | plus => .plus
  | minus => .minus
  | not => .bang
  | bitNeg => .tilde
  | reduceAnd => .amp
  | reduceNand => .tildeAmp
  | reduceOr => .pipe
  | reduceNor => .tildePipe
  | reduceXor => .caret
  | reduceXnor _ => .tildeCaret

/-- The kind of token that an operator is. -/
def BinaryOperator.kind : BinaryOperator → SourceKind
  | power => .starStar
  | mult => .star
  | div => .slash
  | mod => .percent
  | add => .plus
  | sub => .minus
  | shiftLeft => .shl
  | shiftRight => .shr
  | arithShiftLeft => .aShl
  | arithShiftRight => .aShr
  | lt => .less
  | le => .lessEq
  | gt => .greater
  | ge => .greaterEq
  | eq => .eqEq
  | neq => .notEq
  | caseEq => .caseEq
  | caseNeq => .caseNeq
  | bitAnd => .amp
  | bitXor => .caret
  | bitXnor _ => .tildeCaret
  | bitOr => .pipe
  | logAnd => .ampAmp
  | logOr => .pipePipe

/-- The kind of token that a word is. -/
def FormulaWord.kind : FormulaWord → SourceKind
  | name _ => .identifier
  | number _ => .intConst
  | unary op => op.kind
  | binary op => op.kind
  | question => .question
  | colon => .colon
  | leftParen => .leftParen
  | rightParen => .rightParen

/-! ### What stands behind a word -/

/-- Does a text part what stands before it from what comes after? -/
inductive Parted : List Char → Prop
  | nil : Parted []
  | semicolon (s : List Char) : Parted (';' :: s)
  | blank {c : Char} (s : List Char) (hspace : isSpace c = false) (hquote : c ≠ '\'') :
    Parted (' ' :: c :: s)

theorem Parted.head {s : List Char} (h : Parted s) {p : Char → Bool} (hsemicolon : p ';' = false)
    (hblank : p ' ' = false) : ∀ c ∈ s.head?, p c = false := by
  intro c hc
  cases h with
  | nil => cases hc
  | semicolon => exact Option.some.inj hc ▸ hsemicolon
  | blank => exact Option.some.inj hc ▸ hblank

theorem ne_of_class {p : Char → Bool} {c d : Char} (hc : p c = true) (hd : p d = false) :
    d ≠ c := by
  rintro rfl
  rw [hc] at hd
  cases hd

/-- A character of a class that has no blanks is none. -/
theorem isSpace_of_class {p : Char → Bool} {c : Char} (hc : p c = true)
    (hp : p ' ' = false ∧ p '\t' = false ∧ p '\r' = false ∧ p '\x0c' = false) :
    isSpace c = false := by
  obtain ⟨h₁, h₂, h₃, h₄⟩ := hp
  simp [isSpace, (ne_of_class hc h₁).symm, (ne_of_class hc h₂).symm, (ne_of_class hc h₃).symm,
    (ne_of_class hc h₄).symm]

/-- Letters lie between the first capital letter and the last small one. -/
theorem toNat_of_isAlpha {c : Char} (h : c.isAlpha = true) :
    'A'.toNat ≤ c.toNat ∧ c.toNat ≤ 'z'.toNat := by
  obtain h | h := Bool.or_eq_true_iff.mp h
  · have h : c.val ≥ 'A'.val ∧ c.val ≤ 'Z'.val := of_decide_eq_true h
    exact ⟨UInt32.le_iff_toNat_le.mp h.1, (UInt32.le_iff_toNat_le.mp h.2).trans (by decide)⟩
  · have hlow : c.val ≥ 'a'.val := of_decide_eq_true (Bool.and_eq_true_iff.mp h).1
    have hhigh : c.val ≤ 'z'.val := of_decide_eq_true (Bool.and_eq_true_iff.mp h).2
    exact ⟨le_trans (by decide) (UInt32.le_iff_toNat_le.mp hlow), UInt32.le_iff_toNat_le.mp hhigh⟩

theorem toNat_of_isDigit {c : Char} (h : c.isDigit = true) :
    '0'.toNat ≤ c.toNat ∧ c.toNat ≤ '9'.toNat := by
  have hlow : c.val ≥ '0'.val := of_decide_eq_true (Bool.and_eq_true_iff.mp h).1
  have hhigh : c.val ≤ '9'.val := of_decide_eq_true (Bool.and_eq_true_iff.mp h).2
  exact ⟨UInt32.le_iff_toNat_le.mp hlow, UInt32.le_iff_toNat_le.mp hhigh⟩

theorem isDigit_of_isNameStart {c : Char} (hc : isNameStart c = true) : c.isDigit = false := by
  by_contra hd
  obtain ⟨-, hd⟩ := toNat_of_isDigit (Bool.not_eq_false _ ▸ hd)
  rw [isNameStart, Bool.or_eq_true, beq_iff_eq] at hc
  obtain hc | rfl := hc
  · exact absurd ((toNat_of_isAlpha hc).1.trans hd) (by decide)
  · exact absurd hd (by decide)

namespace SourceKind

open Lexicon Pattern

variable {rest : List Char}

/-! ### Names and numbers -/

theorem refuses_of_isNameStart {c : Char} (hc : isNameStart c = true) :
    ∀ cls ∈ lexicon.classes.take 13, cls.1.Refuses c = true := by
  have hne {d : Char} (hd : isNameStart d = false) : d ≠ c := ne_of_class hc hd
  have hdigit := isDigit_of_isNameStart hc
  have hspace := isSpace_of_class hc (by decide)
  simp [lexicon, Refuses, Idles, beginMark, endMarkFront, run1, starComment, quoted, escapedName,
    basedPattern, unbasedPattern, realPattern, digits, hdigit, hspace, hne (d := '\n') rfl,
    hne (d := markDelimiter) rfl, hne (d := '/') rfl, hne (d := '"') rfl, hne (d := '$') rfl,
    hne (d := '\\') rfl, hne (d := '\'') rfl]

/-- **A word is one token**, a reserved word or a name. -/
theorem firstMatch_word {w : List Char} (hw : isWord w = true) (hrest : Parted rest) :
    firstMatch lexicon.classes (w ++ rest) = some (ofWord w, w, rest) := by
  cases w with
  | nil => cases hw
  | cons c w =>
    obtain ⟨hc, hw⟩ : isNameStart c = true ∧ ∀ d ∈ w, isNameRest d = true := by
      simpa [isWord] using hw
    have hmatch : word.split (c :: (w ++ rest)) = some (c :: w, rest) :=
      split_one_seq hc (split_run hw (hrest.head rfl rfl))
    rw [← List.take_append_drop 13 lexicon.classes, List.cons_append,
      firstMatch_of_refuses (refuses_of_isNameStart hc)]
    exact firstMatch_cons hmatch

theorem refuses_of_isDigit {c : Char} (hc : c.isDigit = true) :
    (∀ cls ∈ lexicon.classes.take 9, cls.1.Refuses c = true) ∧ unbasedPattern.Refuses c = true := by
  have hne {d : Char} (hd : d.isDigit = false) : d ≠ c := ne_of_class hc hd
  have hspace := isSpace_of_class hc (by decide)
  simp [lexicon, Refuses, beginMark, endMarkFront, run1, starComment, quoted, escapedName,
    unbasedPattern, hspace, hne (d := '\n') rfl, hne (d := markDelimiter) rfl, hne (d := '/') rfl,
    hne (d := '"') rfl, hne (d := '$') rfl, hne (d := '\\') rfl, hne (d := '\'') rfl]

/-- **Digits are one token**: no number with a base, since no quote comes after them, and no real
number. -/
theorem firstMatch_digits {ds : List Char} (hne : ds ≠ []) (hds : ∀ c ∈ ds, c.isDigit = true)
    (hrest : Parted rest) :
    firstMatch lexicon.classes (ds ++ rest) = some (.intConst, ds, rest) := by
  obtain ⟨c, ds, rfl⟩ := List.exists_cons_of_ne_nil hne
  obtain ⟨hc, hds⟩ := List.forall_mem_cons.mp hds
  have hdigits : digits.split (c :: (ds ++ rest)) = some (c :: ds, rest) :=
    split_one_seq hc (split_run (fun d hd => by simp [hds d hd]) (hrest.head rfl rfl))
  have hbased : basedPattern.split (c :: (ds ++ rest)) = none := by
    have hquote : (text ['\'']).split (rest.dropWhile fun c => c == ' ' || c == '\t') = none := by
      cases hrest with
      | nil => rfl
      | semicolon => rfl
      | @blank c s hspace hquote =>
        have hc : (c == ' ' || c == '\t') = false := by
          simp only [isSpace, Bool.or_eq_false_iff] at hspace
          simp [hspace.1.1]
        simp [split, stripFront, hc, hquote.symm]
    have hsize : (opt (seq digits gap)).split (c :: (ds ++ rest)) =
        some (c :: ds ++ rest.takeWhile fun c => c == ' ' || c == '\t',
          rest.dropWhile fun c => c == ' ' || c == '\t') := by
      rw [split, split, hdigits]
      rfl
    rw [basedPattern, split, hsize]
    simp only [split] at hquote ⊢
    rw [hquote]
    rfl
  have hreal : realPattern.split (c :: (ds ++ rest)) = none := by
    rw [realPattern, split, hdigits]
    cases hrest with
    | nil => rfl
    | semicolon => rfl
    | blank => rfl
  obtain ⟨hfront, hunbased⟩ := refuses_of_isDigit hc
  rw [← List.take_append_drop 9 lexicon.classes, List.cons_append, firstMatch_of_refuses hfront]
  change firstMatch ((basedPattern, _) :: (unbasedPattern, _) :: (realPattern, _) ::
    (digits, fun _ => SourceKind.intConst) :: _) _ = _
  rw [firstMatch_cons_of_none hbased, firstMatch_cons_of_none (split_of_refuses _ _ hunbased),
    firstMatch_cons_of_none hreal]
  exact firstMatch_cons hdigits

/-- A blank before something else. -/
theorem firstMatch_blank {c : Char} (s : List Char) (hc : isSpace c = false) :
    firstMatch lexicon.classes (' ' :: c :: s) = some (.whitespace, [' '], c :: s) := by
  have hmatch : (run1 isSpace).split (' ' :: c :: s) = some ([' '], c :: s) :=
    split_one_seq rfl (split_run (x := []) (by simp) (by simpa using hc))
  have hfront : ∀ cls ∈ lexicon.classes.take 2, cls.1.Refuses ' ' = true := by decide
  exact (firstMatch_of_refuses hfront).trans (firstMatch_cons hmatch)

end SourceKind

/-! ### Words -/

namespace FormulaWord

open Lexicon SourceKind

theorem isDigit_text_number (n : UInt64) :
    (number n).text.toList ≠ [] ∧ ∀ c ∈ (number n).text.toList, c.isDigit = true := by
  rw [text, Nat.toList_repr]
  exact ⟨Nat.toDigits_ne_nil, fun c hc => Nat.isDigit_of_mem_toDigits (by decide) (by decide) hc⟩

/-- **A word is one token.** -/
theorem firstMatch_text (w : FormulaWord) {rest : List Char} (hrest : Parted rest) :
    firstMatch lexicon.classes (w.text.toList ++ rest) = some (w.kind, w.text.toList, rest) := by
  cases w with
  | name x =>
    have := firstMatch_word x.isWord hrest
    rwa [x.unreserved] at this
  | number n =>
    obtain ⟨hne, hdigits⟩ := isDigit_text_number n
    exact firstMatch_digits hne hdigits hrest
  | unary op =>
    cases hrest <;> cases op
    case nil.reduceXnor b | semicolon.reduceXnor b | blank.reduceXnor b => cases b <;> rfl
    all_goals rfl
  | binary op =>
    cases hrest <;> cases op
    case nil.bitXnor b | semicolon.bitXnor b | blank.bitXnor b => cases b <;> rfl
    all_goals rfl
  | question | colon | leftParen | rightParen => cases hrest <;> rfl

/-- What a word begins with: no blank, and no quote. -/
theorem exists_text_eq_cons (w : FormulaWord) :
    ∃ c s, w.text.toList = c :: s ∧ isSpace c = false ∧ c ≠ '\'' := by
  cases w with
  | name x =>
    have hword := x.isWord
    rw [text]
    cases hx : x.text.toList with
    | nil => rw [hx] at hword; cases hword
    | cons c s =>
      rw [hx, isWord, Bool.and_eq_true] at hword
      exact ⟨c, s, rfl, isSpace_of_class hword.1 (by decide),
        (ne_of_class hword.1 (by decide)).symm⟩
  | number n =>
    obtain ⟨hne, hdigits⟩ := isDigit_text_number n
    obtain ⟨c, s, hs⟩ := List.exists_cons_of_ne_nil hne
    have hc : c.isDigit = true := hdigits c (hs ▸ List.mem_cons_self)
    exact ⟨c, s, hs, isSpace_of_class hc (by decide), (ne_of_class hc (by decide)).symm⟩
  | unary op =>
    cases op
    case reduceXnor b => cases b <;> exact ⟨_, _, rfl, by decide, by decide⟩
    all_goals exact ⟨_, _, rfl, by decide, by decide⟩
  | binary op =>
    cases op
    case bitXnor b => cases b <;> exact ⟨_, _, rfl, by decide, by decide⟩
    all_goals exact ⟨_, _, rfl, by decide, by decide⟩
  | question | colon | leftParen | rightParen => exact ⟨_, _, rfl, by decide, by decide⟩

end FormulaWord

end Verilog
