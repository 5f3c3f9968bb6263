import Verilog.Proofs.Formula.Read
import Verilog.Proofs.Literal.Value
import Verilog.Proofs.Syntax.Transparent

/-!
# The layout of numbers

The value of a constant is not its number but a text. A decimal number that fits in a word is named
by what it denotes, and any other number by its digits. Of those digits the underscores are left
out, but not where there is no base, and the blanks behind a base are kept. So the value of a number
is the same in every layout as long as it is decimal and fits, and otherwise it shows some of the
layout (`values_of_layouts`).

A blank behind a number is no part of it, so it should make no difference to what follows. It makes
none before an operator or a punctuation sign (`number_ends`), but for the one sign that is a figure
as well: a question mark behind a number with a base is taken into it.
-/

namespace Verilog

/-- **The text of a number without its layout**: underscores and blanks are left out. -/
def unlaid (s : List Char) : List Char := s.filter fun c => !(c == '_' || isGap c)

/-- What the value of a constant begins with if it names the digits. -/
def Radix.mark : Radix → String
  | binary => "BIN:"
  | octal => "OCT:"
  | decimal => "DEC:"
  | hexadecimal => "HEX:"

namespace IntegerSpelling

/-- Is a number written in decimal digits? -/
def IsDecimalNumber : IntegerSpelling → Prop
  | plain .. => True
  | based b => b.radix = .decimal
  | filling .. => False

/-- The base of an integer. -/
def radix : IntegerSpelling → Radix
  | plain .. => .decimal
  | based b => b.radix
  | filling .. => .binary

/-- **The digits as the value of a constant shows them**: with the underscores if there is no base,
and with the blanks behind the base if there is one. -/
def shownDigits : IntegerSpelling → List Char
  | plain digits _ => digits
  | based b => b.behind ++ bareDigits b.digits
  | filling digit _ => [digit]

end IntegerSpelling

/-! ### Layout is left out -/

section Unlaid

variable {s s' : List Char}

theorem unlaid_append (s s' : List Char) : unlaid (s ++ s') = unlaid s ++ unlaid s' :=
  List.filter_append s s'

theorem unlaid_cons {c : Char} (h : (c == '_' || isGap c) = false) (s : List Char) :
    unlaid (c :: s) = c :: unlaid s := by
  rw [unlaid, List.filter_cons_of_pos (by rw [h]; rfl), unlaid]

theorem unlaid_gap (h : ∀ c ∈ s, isGap c = true) : unlaid s = [] :=
  List.filter_eq_nil_iff.mpr fun c hc => by simp [h c hc]

theorem isGap_of_mem_figures : ∀ c ∈ figures, isGap c = false :=
  List.all_iff_forall_prop.mp (by decide)

/-- Figures have no layout but the underscores. -/
theorem unlaid_figures (h : ∀ c ∈ s, c ∈ figures) : unlaid s = bareDigits s :=
  List.filter_congr fun c hc => by rw [isGap_of_mem_figures c (h c hc), Bool.or_false]; rfl

theorem unlaid_sign (h : s ∈ [[], ['s'], ['S']]) : unlaid s = s := by
  have hall : ∀ s ∈ [[], ['s'], ['S']], unlaid s = s := by decide
  exact hall s h

theorem Radix.isLetter (radix : Radix) (large : Bool) :
    (radix.letter large == '_' || isGap (radix.letter large)) = false ∧
      (radix.letter large == 's' || radix.letter large == 'S') = false := by
  cases radix <;> cases large <;> decide

theorem Radix.eq_of_letter {radix radix' : Radix} {large large' : Bool}
    (h : radix.letter large = radix'.letter large') : radix = radix' := by
  cases radix <;> cases radix' <;> first | rfl | (cases large <;> cases large' <;> cases h)

end Unlaid

namespace BasedSpelling

variable (b : BasedSpelling)

/-- Behind the quote, a number without its layout has its sign, its base and its digits. -/
theorem dropWhile_unlaid : (unlaid b.text).dropWhile (· != '\'') =
    '\'' :: (b.sign ++ b.radix.letter b.large :: bareDigits b.digits) := by
  rw [text, unlaid_append, unlaid_cons (by decide), unlaid_append b.sign,
    unlaid_cons (b.radix.isLetter b.large).1, unlaid_append b.behind, unlaid_gap b.isGap_behind,
    unlaid_figures b.mem_digits, unlaid_sign b.mem_sign, List.nil_append]
  exact dropWhile_quote_of_not_mem fun h => b.quote_not_mem (List.mem_of_mem_filter h)

theorem dropWhile_sign (rest : List Char) :
    (b.sign ++ b.radix.letter b.large :: rest).dropWhile (fun c => c == 's' || c == 'S') =
      b.radix.letter b.large :: rest := by
  have hsign : ∀ c ∈ b.sign, (c == 's' || c == 'S') = true := by
    have hall : ∀ s ∈ [[], ['s'], ['S']], s.all (fun c => c == 's' || c == 'S') = true := by decide
    exact List.all_eq_true.mp (hall b.sign b.mem_sign)
  rw [List.dropWhile_append_of_pos hsign, List.dropWhile_cons_of_neg]
  rw [(b.radix.isLetter b.large).2]
  decide

/-- Numbers that differ in their layout alone have the same base and the same digits. -/
theorem eq_of_unlaid_eq {b b' : BasedSpelling} (h : unlaid b.text = unlaid b'.text) :
    b.radix = b'.radix ∧ bareDigits b.digits = bareDigits b'.digits := by
  have hquote := congrArg (List.dropWhile (· != '\'')) h
  rw [b.dropWhile_unlaid, b'.dropWhile_unlaid] at hquote
  have hletter := congrArg (List.dropWhile fun c => c == 's' || c == 'S') (List.cons.inj hquote).2
  rw [b.dropWhile_sign, b'.dropWhile_sign] at hletter
  obtain ⟨hradix, hdigits⟩ := List.cons.inj hletter
  exact ⟨Radix.eq_of_letter hradix, hdigits⟩

theorem bareDigits_behind :
    bareDigits (b.behind ++ b.digits) = b.behind ++ bareDigits b.digits := by
  have hgap : bareDigits b.behind = b.behind := List.filter_eq_self.mpr fun c hc => by
    have hc := b.isGap_behind c hc
    rw [bne_iff_ne]
    rintro rfl
    cases hc
  rw [bareDigits, List.filter_append]
  exact congrArg (· ++ bareDigits b.digits) hgap

end BasedSpelling

/-! ### Values -/

namespace IntegerSpelling

/-- **The value of a number** names what it denotes if it is decimal and fits, or its digits. -/
theorem integerValue_text (l : IntegerSpelling) (h : l.kind ≠ .unbasedUnsized) :
    (∀ v, l.IsDecimalNumber → l.Denotes v → v < 2 ^ 64 → integerValue l.text = s!"UINT:{v}") ∧
      ((∀ v, l.IsDecimalNumber → l.Denotes v → ¬ v < 2 ^ 64) →
        integerValue l.text = l.radix.mark ++ String.ofList l.shownDigits) := by
  have hread := l.integerLiteral_eq_some_iff
  have hnone (hdec : l.IsDecimalNumber)
      (hno : ∀ v, l.IsDecimalNumber → l.Denotes v → ¬ v < 2 ^ 64) : integerLiteral l.text = none :=
    Option.eq_none_iff_forall_ne_some.mpr fun v hv => hno v hdec ((hread v).mp hv).1
      ((hread v).mp hv).2
  cases l with
  | plain digits hd =>
    have hvalue : integerValue digits = plainValue digits := by
      rw [integerValue, dropWhile_quote_plain hd]
    have hdecimal : integerLiteral digits = readDecimal digits := by
      rw [integerLiteral, dropWhile_quote_plain hd]
    refine ⟨fun v _ hv hlt => ?_, fun hno => ?_⟩
    · have hsome : integerLiteral digits = some v := (hread v).mpr ⟨hv, hlt⟩
      rw [text, hvalue, plainValue, ← hdecimal, hsome]
    · have hn : integerLiteral digits = none := hnone trivial hno
      rw [text, hvalue, plainValue, ← hdecimal, hn]
      rfl
  | based b =>
    have hvalue : integerValue b.text =
        basedValue b.text (b.radix.letter b.large :: (b.behind ++ b.digits)) := by
      rw [integerValue, b.dropWhile_quote]
      exact congrArg (basedValue b.text) (b.dropWhile_sign _)
    have hshown : (b.behind ++ b.digits).filter (· != '_') = b.behind ++ bareDigits b.digits :=
      b.bareDigits_behind
    refine ⟨fun v hdec hv hlt => ?_, fun hno => ?_⟩
    · have hdec : b.radix = .decimal := hdec
      rw [text, hvalue, basedValue, hdec]
      have hsome : integerLiteral b.text = some v := (hread v).mpr ⟨hv, hlt⟩
      cases b.large <;> simp only [Radix.letter, hsome] <;> rfl
    · rw [text, hvalue, basedValue, radix, shownDigits, hshown]
      cases hr : b.radix with
      | decimal =>
        have hn : integerLiteral b.text = none := hnone hr hno
        cases b.large <;> simp only [Radix.letter, hn] <;> rfl
      | binary | octal | hexadecimal => cases b.large <;> rfl
  | filling digit hd => exact absurd rfl h

/-- Numbers that differ in their layout alone are of one kind, of one base, and denote the same. -/
theorem same_of_unlaid_eq {l l' : IntegerSpelling} (h : l.kind ≠ .unbasedUnsized)
    (h' : l'.kind ≠ .unbasedUnsized) (heq : unlaid l.text = unlaid l'.text) :
    l.radix = l'.radix ∧ (l.IsDecimalNumber ↔ l'.IsDecimalNumber) ∧
      ∀ v, l.Denotes v ↔ l'.Denotes v := by
  have hquote {digits : List Char} (hd : IsDecimal digits) (b : BasedSpelling)
      (heq : unlaid digits = unlaid b.text) : False := by
    have hmem : '\'' ∈ unlaid b.text :=
      List.mem_filter.mpr ⟨by simp [BasedSpelling.text], by decide⟩
    exact quote_not_mem_of_isDecimal hd (List.mem_of_mem_filter (heq ▸ hmem))
  cases l with
  | filling digit hd => exact absurd rfl h
  | plain digits hd =>
    cases l' with
    | filling digit' hd' => exact absurd rfl h'
    | based b' => exact (hquote hd b' heq).elim
    | plain digits' hd' =>
      have hbare : bareDigits digits = bareDigits digits' := by
        rw [← unlaid_figures (mem_figures_of_isDecimal hd),
          ← unlaid_figures (mem_figures_of_isDecimal hd')]
        exact heq
      exact ⟨rfl, Iff.rfl, fun v => by simp only [Denotes, Verilog.Denotes, hbare]⟩
  | based b =>
    cases l' with
    | filling digit' hd' => exact absurd rfl h'
    | plain digits' hd' => exact (hquote hd' b heq.symm).elim
    | based b' =>
      obtain ⟨hradix, hbare⟩ := BasedSpelling.eq_of_unlaid_eq heq
      exact ⟨hradix, by simp only [IsDecimalNumber, hradix],
        fun v => by simp only [Denotes, Verilog.Denotes, hradix, hbare]⟩

/-- **Two layouts of a number** have the same value if it is decimal and fits, or else if as much as
the value shows of them is the same. -/
theorem integerValue_eq_iff {l l' : IntegerSpelling} (h : l.kind ≠ .unbasedUnsized)
    (h' : l'.kind ≠ .unbasedUnsized) (heq : unlaid l.text = unlaid l'.text) :
    integerValue l.text = integerValue l'.text ↔
      (l.IsDecimalNumber ∧ ∃ v, l.Denotes v ∧ v < 2 ^ 64) ∨ l.shownDigits = l'.shownDigits := by
  obtain ⟨hradix, hdec, hden⟩ := same_of_unlaid_eq h h' heq
  by_cases hfits : l.IsDecimalNumber ∧ ∃ v, l.Denotes v ∧ v < 2 ^ 64
  · obtain ⟨hd, v, hv, hlt⟩ := hfits
    rw [(l.integerValue_text h).1 v hd hv hlt,
      (l'.integerValue_text h').1 v (hdec.mp hd) ((hden v).mp hv) hlt]
    exact iff_of_true rfl (.inl ⟨hd, v, hv, hlt⟩)
  · rw [(l.integerValue_text h).2 fun v hd hv hlt => hfits ⟨hd, v, hv, hlt⟩,
      (l'.integerValue_text h').2 fun v hd hv hlt =>
        hfits ⟨hdec.mpr hd, v, (hden v).mpr hv, hlt⟩, or_iff_right hfits, hradix]
    rw [← String.toList_inj, String.toList_append, String.toList_append, List.append_cancel_left_eq,
      String.toList_ofList, String.toList_ofList]

end IntegerSpelling

/-! ### Constants -/

/-- A text with blanks at neither end is not trimmed. -/
theorem trim_eq_self {s : List Char} (hhead : ∀ c ∈ s.head?, isBlank c = false)
    (hlast : ∀ c ∈ s.getLast?, isBlank c = false) : trim s = s := by
  have hdrop {s : List Char} (h : ∀ c ∈ s.head?, isBlank c = false) : s.dropWhile isBlank = s := by
    cases s with
    | nil => rfl
    | cons c s => exact List.dropWhile_cons_of_neg (by simp [h c rfl])
  rw [trim, trimLeft, hdrop hhead, trimRight, hdrop (by rwa [List.head?_reverse]),
    List.reverse_reverse]

theorem isBlank_of_isDecimal {s : List Char} (h : IsDecimal s) :
    ∀ c ∈ s.head?, isBlank c = false := fun c hc =>
  isBlank_of_mem_figures c (mem_figures_of_isDecimal h c (List.mem_of_mem_head? hc))

namespace IntegerSpelling

/-- The text of an integer begins and ends with something else than a blank. -/
theorem trim_text (l : IntegerSpelling) : trim l.text = l.text := by
  have hlast {x y : List Char} (hy : y ≠ []) (h : ∀ c ∈ y, isBlank c = false) :
      ∀ c ∈ (x ++ y).getLast?, isBlank c = false := fun c hc => by
    rw [List.getLast?_append_of_ne_nil _ hy] at hc
    exact h c (List.mem_of_getLast? hc)
  cases l with
  | plain digits hd =>
    refine trim_eq_self (isBlank_of_isDecimal hd) fun c hc => ?_
    exact isBlank_of_mem_figures c (mem_figures_of_isDecimal hd c (List.mem_of_getLast? hc))
  | based b =>
    refine trim_eq_self (fun c hc => ?_) ?_
    · rcases b.isDecimal_size with ⟨hsize, hbefore⟩ | hsize
      · rw [text, BasedSpelling.text, hsize, hbefore] at hc
        obtain rfl : '\'' = c := Option.some.inj hc
        decide
      · have hne : b.size ≠ [] := fun hnil => by
          obtain ⟨⟨c, hc, -⟩, -⟩ := hsize
          rw [hnil] at hc
          cases hc
        rw [text, BasedSpelling.text, List.append_assoc, List.head?_append_of_ne_nil _ hne] at hc
        exact isBlank_of_isDecimal hsize c hc
    · have hsplit : (based b).text =
          (b.size ++ b.before ++ '\'' :: (b.sign ++ b.radix.letter b.large :: b.behind)) ++
            b.digits := by
        simp [text, BasedSpelling.text]
      rw [hsplit]
      exact hlast b.digits_ne_nil fun c hc => isBlank_of_mem_figures c (b.mem_digits c hc)
  | filling digit hd =>
    have hall : ∀ digit ∈ ['0', '1', 'x', 'X', 'z', 'Z'], trim ['\'', digit] = ['\'', digit] :=
      List.all_iff_forall_prop.mp (by decide)
    exact hall digit hd

end IntegerSpelling

/-- **Is a token lowered to constants of a value?** Wherever the token is a leaf of a tree, an
expression is read there, and added to a design it is an object that is a constant of the value. -/
def SourceToken.LowersTo (token : SourceToken) (value : String) : Prop :=
  ∀ (t : NodeTable) (id : NodeId) (production : NodeKind) (front : Bool),
    leafKindIn? token.kind production front = some (t.kind id) →
    t.name id = leafName? (t.kind id) token.text →
    ∃ e, t.expr? id = some e ∧ ∀ (p : ObjectId) (ir : Ir), ∃ o,
      (Ir.addExpr (some p) e ir).2.object? (Ir.addExpr (some p) e ir).1 = some o ∧
        o.kind = .constant ∧ o.value = some value

theorem IntegerSpelling.lowersTo {l : IntegerSpelling} {token : SourceToken} (h : l.Spells token) :
    token.LowersTo (integerValue l.text) := by
  intro t id production front hkind hname
  have hk : t.kind id = .slIntConst := by
    rw [← h.1] at hkind
    cases l <;> exact (Option.some.inj hkind).symm
  have hname : t.name id = some (String.ofList l.text) := by
    rw [hname, hk, leafName?, trimText, ← h.2, l.trim_text]
  have h0 : id ≠ 0 :=
    Nat.pos_iff_ne_zero.mp (NodeTable.contains_iff.mp (NodeTable.contains_of_kind hk (by decide))).1
  refine ⟨.constant (integerValue l.text) (t.range? id id), ?_, fun p ir =>
    ⟨{ kind := .constant, parent := some p, range := t.range? id id,
       value := some (integerValue l.text) }, ?_, rfl, rfl⟩⟩
  · rw [NodeTable.expr?, NodeTable.exprWithin, if_neg h0, NodeTable.readNode_integer hk hname,
      String.toList_ofList]
  · exact (Ir.object?_add ir _ _).trans (if_pos rfl)

/-- **The value of a constant and the layout of its number.** Two tokens that are numbers and differ
in their underscores and blanks alone are lowered to constants of the same value just if the number
is decimal and fits in a word, and then the value names the number; or else if the tokens show the
same digits: with the underscores where there is no base, and with the blanks behind the base where
there is one. -/
theorem values_of_layouts (s s' : String) (t t' : SourceToken) (ht : t ∈ SourceToken.ofText s)
    (ht' : t' ∈ SourceToken.ofText s') (hk : t.kind = .intConst ∨ t.kind = .basedNumber)
    (hk' : t'.kind = .intConst ∨ t'.kind = .basedNumber)
    (h : unlaid t.text.toList = unlaid t'.text.toList) :
    (∃ l l' : IntegerSpelling, l.Spells t ∧ l'.Spells t') ∧
      ∃ value value', t.LowersTo value ∧ t'.LowersTo value' ∧
        ∀ l l' : IntegerSpelling, l.Spells t → l'.Spells t' →
          (∀ v, l.IsDecimalNumber → l.Denotes v → v < 2 ^ 64 →
            value = s!"UINT:{v}" ∧ value' = s!"UINT:{v}") ∧
          (value = value' ↔ (l.IsDecimalNumber ∧ ∃ v, l.Denotes v ∧ v < 2 ^ 64) ∨
            l.shownDigits = l'.shownDigits) := by
  have hspelled {s : String} {t : SourceToken} (ht : t ∈ SourceToken.ofText s)
      (hk : t.kind = .intConst ∨ t.kind = .basedNumber) : ∃ l : IntegerSpelling, l.Spells t :=
    exists_spells ht (by rcases hk with hk | hk <;> rw [hk] <;> rfl)
  have hkind {l : IntegerSpelling} {t : SourceToken} (hl : l.Spells t)
      (hk : t.kind = .intConst ∨ t.kind = .basedNumber) : l.kind ≠ .unbasedUnsized := by
    rcases hk with hk | hk <;> rw [hl.1, hk] <;> decide
  obtain ⟨l₀, hl₀⟩ := hspelled ht hk
  obtain ⟨l₀', hl₀'⟩ := hspelled ht' hk'
  refine ⟨⟨l₀, l₀', hl₀, hl₀'⟩, integerValue t.text.toList, integerValue t'.text.toList,
    hl₀.2 ▸ IntegerSpelling.lowersTo hl₀, hl₀'.2 ▸ IntegerSpelling.lowersTo hl₀',
    fun l l' hl hl' => ?_⟩
  have hlaid : unlaid l.text = unlaid l'.text := by rw [hl.2, hl'.2, h]
  obtain ⟨-, hdec, hden⟩ :=
    IntegerSpelling.same_of_unlaid_eq (hkind hl hk) (hkind hl' hk') hlaid
  rw [← hl.2, ← hl'.2]
  refine ⟨fun v hd hv hlt => ⟨?_, ?_⟩,
    IntegerSpelling.integerValue_eq_iff (hkind hl hk) (hkind hl' hk') hlaid⟩
  · exact (l.integerValue_text (hkind hl hk)).1 v hd hv hlt
  · exact (l'.integerValue_text (hkind hl' hk')).1 v (hdec.mp hd) ((hden v).mp hv) hlt

/-- The only token of a text. -/
theorem exists_token (text : String) (kind : SourceKind)
    (h : (SourceToken.ofText text).map (fun t => (t.kind, t.text)) = [(kind, text)]) :
    ∃ t ∈ SourceToken.ofText text, t.kind = kind ∧ t.text = text := by
  obtain ⟨t, ht, hshown⟩ := List.map_eq_singleton_iff.mp h
  exact ⟨t, by simp [ht], Prod.mk.inj hshown⟩

/-- Ten in eight bits, with an underscore between its digits. -/
def dividedTen : BasedSpelling where
  size := ['8']
  before := []
  sign := []
  radix := .decimal
  large := false
  behind := []
  digits := ['1', '_', '0']
  isDecimal_size := .inr ⟨⟨'8', rfl, rfl⟩, List.all_iff_forall_prop.mp (by decide)⟩
  isGap_before := List.all_iff_forall_prop.mp (by decide)
  mem_sign := by decide
  isGap_behind := List.all_iff_forall_prop.mp (by decide)
  digits_ne_nil := by decide
  mem_digits := List.all_iff_forall_prop.mp (by decide)

theorem values_of_layouts_dividedTen :
    ∃ t ∈ SourceToken.ofText "8'd1_0", ∃ t' ∈ SourceToken.ofText "8 'd 10",
      t.kind = .basedNumber ∧ t'.kind = .basedNumber ∧
      unlaid t.text.toList = unlaid t'.text.toList ∧
      t.LowersTo "UINT:10" ∧ t'.LowersTo "UINT:10" := by
  obtain ⟨t, ht, hk, htext⟩ := exists_token "8'd1_0" .basedNumber
    (by decide +kernel)
  obtain ⟨t', ht', hk', htext'⟩ := exists_token "8 'd 10" .basedNumber
    (by decide +kernel)
  have hlaid : unlaid t.text.toList = unlaid t'.text.toList := by
    rw [htext, htext']
    decide
  obtain ⟨⟨-, l', -, hl'⟩, value, value', hv, hv', hvalues⟩ :=
    values_of_layouts _ _ t t' ht ht' (.inr hk) (.inr hk') hlaid
  have hl : (IntegerSpelling.based dividedTen).Spells t := ⟨hk.symm, by rw [htext]; rfl⟩
  have hten : (IntegerSpelling.based dividedTen).Denotes 10 :=
    ⟨by decide, List.all_iff_forall_prop.mp (by decide), by decide⟩
  obtain ⟨rfl, rfl⟩ := (hvalues _ l' hl hl').1 10 rfl hten (by decide)
  exact ⟨t, ht, t', ht', hk, hk', hlaid, hv, hv'⟩

/-- Blanks behind the base change the value. -/
theorem values_differ_spacedByte :
    ∃ t ∈ SourceToken.ofText "8'hFF", ∃ t' ∈ SourceToken.ofText "8'h FF",
      t.kind = .basedNumber ∧ t'.kind = .basedNumber ∧
      unlaid t.text.toList = unlaid t'.text.toList ∧
      t.LowersTo "HEX:FF" ∧ t'.LowersTo "HEX: FF" := by
  obtain ⟨t, ht, hk, htext⟩ := exists_token "8'hFF" .basedNumber
    (by decide +kernel)
  obtain ⟨t', ht', hk', htext'⟩ := exists_token "8'h FF" .basedNumber
    (by decide +kernel)
  have hlowers {s : String} {t : SourceToken} (ht : t ∈ SourceToken.ofText s)
      (hk : t.kind = .basedNumber) : t.LowersTo (integerValue t.text.toList) := by
    obtain ⟨l, hl⟩ := exists_spells ht (by rw [hk]; rfl)
    exact hl.2 ▸ IntegerSpelling.lowersTo hl
  refine ⟨t, ht, t', ht', hk, hk', ?_, ?_, ?_⟩
  · rw [htext, htext']
    decide
  · have hvalue := hlowers ht hk
    rw [htext] at hvalue
    exact hvalue
  · have hvalue := hlowers ht' hk'
    rw [htext'] at hvalue
    exact hvalue

/-! ### Where a number ends -/

section Ends

open Pattern

variable {a b : Pattern} {c : Char} {s x y mid rest : List Char}

theorem Pattern.split_seq (ha : a.split s = some (x, mid)) (hb : b.split mid = some (y, rest)) :
    (seq a b).split s = some (x ++ y, rest) := by
  rw [split, ha]
  exact congrArg (Option.map fun r => (x ++ r.1, r.2)) hb

theorem Pattern.split_text (t rest : List Char) : (text t).split (t ++ rest) = some (t, rest) := by
  rw [split, stripFront_append]
  rfl

/-- The figures are what may stand behind the base of a number. -/
theorem figure_iff : (isHexDigit c || ['x', 'X', 'z', 'Z', '?', '_'].contains c) = true ↔
    c ∈ figures := by
  have hall : ∀ c ∈ figures, (isHexDigit c || ['x', 'X', 'z', 'Z', '?', '_'].contains c) = true :=
    List.all_iff_forall_prop.mp (by decide)
  exact ⟨mem_figures, hall c⟩

theorem split_isDecimal (h : IsDecimal x) (hrest : ∀ c ∈ rest.head?, c.isDigit = false ∧ c ≠ '_') :
    Pattern.digits.split (x ++ rest) = some (x, rest) := by
  obtain ⟨⟨c, hc, hdigit⟩, hall⟩ := h
  obtain ⟨x, rfl⟩ : ∃ y, x = c :: y := by
    cases x with
    | nil => cases hc
    | cons d y => exact ⟨y, by rw [Option.some.inj hc]⟩
  refine split_one_seq hdigit (split_run (fun d hd => ?_) fun d hd => ?_)
  · simpa using hall d (List.mem_cons_of_mem _ hd)
  · simpa using hrest d hd

theorem not_isDigit_of_isGap (h : isGap c = true) : c.isDigit = false ∧ c ≠ '_' := by
  rw [isGap, Bool.or_eq_true, beq_iff_eq, beq_iff_eq] at h
  rcases h with rfl | rfl <;> decide

/-- A size is decimal, or left out. -/
theorem BasedSpelling.split_size (b : BasedSpelling) (s : List Char) :
    (opt (seq Pattern.digits SourceKind.gap)).split (b.size ++ (b.before ++ '\'' :: s)) =
      some (b.size ++ b.before, '\'' :: s) := by
  rcases b.isDecimal_size with ⟨hsize, hbefore⟩ | hsize
  · rw [hsize, hbefore]
    rfl
  · have hgap : SourceKind.gap.split (b.before ++ '\'' :: s) = some (b.before, '\'' :: s) :=
      split_run b.isGap_before (by simp)
    have hdigits : Pattern.digits.split (b.size ++ (b.before ++ '\'' :: s)) =
        some (b.size, b.before ++ '\'' :: s) := by
      refine split_isDecimal hsize fun c hc => ?_
      cases hb : b.before with
      | nil =>
        rw [hb] at hc
        obtain rfl : '\'' = c := Option.some.inj hc
        decide
      | cons d before =>
        rw [hb] at hc
        obtain rfl : d = c := Option.some.inj hc
        exact not_isDigit_of_isGap (b.isGap_before d (by simp [hb]))
    rw [split, split_seq hdigits hgap]
    rfl

/-- **A number is taken up to the end of its figures.** -/
theorem BasedSpelling.split_text_append (b : BasedSpelling)
    (hrest : ∀ c ∈ rest.head?, c ∉ figures) :
    SourceKind.basedPattern.split (b.text ++ rest) = some (b.text, rest) := by
  obtain ⟨d, ds, hb⟩ := List.exists_cons_of_ne_nil b.digits_ne_nil
  obtain ⟨hd, hds⟩ := List.forall_mem_cons.mp (hb ▸ b.mem_digits)
  have hdigits : (run1 fun c => isHexDigit c || ['x', 'X', 'z', 'Z', '?', '_'].contains c).split
      (b.digits ++ rest) = some (b.digits, rest) := by
    rw [hb]
    refine split_one_seq (figure_iff.mpr hd) (split_run (fun c hc => figure_iff.mpr (hds c hc)) ?_)
    exact fun c hc => Bool.eq_false_iff.mpr fun h => hrest c hc (figure_iff.mp h)
  have hbehind : SourceKind.gap.split (b.behind ++ (b.digits ++ rest)) =
      some (b.behind, b.digits ++ rest) := by
    refine split_run b.isGap_behind fun c hc => ?_
    rw [hb] at hc
    obtain rfl : d = c := Option.some.inj hc
    exact isGap_of_mem_figures d hd
  have hletter (s : List Char) : (among ['b', 'B', 'o', 'O', 'd', 'D', 'h', 'H']).split
      (b.radix.letter b.large :: s) = some ([b.radix.letter b.large], s) := by
    cases b.radix <;> cases b.large <;> rfl
  have hsign (s : List Char) : (opt (among ['s', 'S'])).split
      (b.sign ++ b.radix.letter b.large :: s) = some (b.sign, b.radix.letter b.large :: s) := by
    have hmem := b.mem_sign
    simp only [List.mem_cons, List.not_mem_nil, or_false] at hmem
    rcases hmem with hmem | hmem | hmem <;> rw [hmem]
    · cases b.radix <;> cases b.large <;> rfl
    · rfl
    · rfl
  have hall := split_seq (b.split_size _) <| split_seq (Pattern.split_text ['\''] _) <|
    split_seq (hsign _) <| split_seq (hletter _) <| split_seq hbehind hdigits
  simpa [SourceKind.basedPattern, BasedSpelling.text] using hall

/-- **A number is the first token** of a text that goes on with no figure. -/
theorem BasedSpelling.sourcePieces_append (b : BasedSpelling)
    (hrest : ∀ c ∈ rest.head?, c ∉ figures) :
    sourcePieces (b.text ++ rest) = (SourceKind.basedNumber, b.text) :: sourcePieces rest := by
  obtain ⟨c, s, hs, hfront⟩ : ∃ c s, b.text = c :: s ∧
      ∀ cls ∈ SourceKind.lexicon.classes.take 9, cls.1.Refuses c = true := by
    rcases b.isDecimal_size with ⟨hsize, hbefore⟩ | ⟨⟨c, hc, hdigit⟩, -⟩
    · refine ⟨'\'', _, by rw [text, hsize, hbefore]; rfl, by decide⟩
    · obtain ⟨size, hsize⟩ : ∃ size, b.size = c :: size := List.head?_eq_some_iff.mp hc
      exact ⟨c, _, by rw [text, hsize]; rfl, (SourceKind.refuses_of_isDigit hdigit).1⟩
  have hmatch := b.split_text_append hrest
  have hfirst : Lexicon.firstMatch SourceKind.lexicon.classes (b.text ++ rest) =
      some (.basedNumber, b.text, rest) := by
    rw [hs] at hmatch ⊢
    exact (Lexicon.firstMatch_of_refuses hfront).trans (Lexicon.firstMatch_cons hmatch)
  exact Lexicon.pieces_cons hfirst

theorem BasedSpelling.visiblePieces_append (b : BasedSpelling)
    (hrest : ∀ c ∈ rest.head?, c ∉ figures) :
    visiblePieces (b.text ++ rest) = (SourceKind.basedNumber, b.text) :: visiblePieces rest := by
  rw [visiblePieces, b.sourcePieces_append hrest]
  rfl

/-- The grammar does not see a blank. -/
theorem visiblePieces_blank (s : List Char) (hc : isSpace c = false) :
    visiblePieces (' ' :: c :: s) = visiblePieces (c :: s) := by
  have hpieces : sourcePieces (' ' :: c :: s) = (.whitespace, [' ']) :: sourcePieces (c :: s) :=
    Lexicon.pieces_cons (SourceKind.firstMatch_blank s hc)
  rw [visiblePieces, hpieces]
  rfl

/-- Does an operator or a punctuation sign begin with a character? -/
def BeginsOperator (c : Char) : Prop := ∃ op ∈ SourceKind.operators, op.1.head? = some c

theorem BeginsOperator.isSpace (h : BeginsOperator c) : isSpace c = false := by
  have hall : (SourceKind.operators.all fun op => op.1.head?.all (!Verilog.isSpace ·)) = true := by
    decide
  obtain ⟨op, hop, hc⟩ := h
  simpa [hc] using List.all_eq_true.mp hall op hop

/-- Of the characters that begin operators one is a figure. -/
theorem BeginsOperator.not_mem_figures (h : BeginsOperator c) (hne : c ≠ '?') : c ∉ figures := by
  have hall : (SourceKind.operators.all fun op =>
      op.1.head?.all fun c => c == '?' || !figures.contains c) = true := by decide
  obtain ⟨op, hop, hc⟩ := h
  simpa [hc, hne] using List.all_eq_true.mp hall op hop

/-- A number with more figures. -/
def BasedSpelling.extended (b : BasedSpelling) (more : List Char) (h : ∀ c ∈ more, c ∈ figures) :
    BasedSpelling :=
  { b with
    digits := b.digits ++ more
    digits_ne_nil := List.append_ne_nil_of_left_ne_nil b.digits_ne_nil more
    mem_digits := List.forall_mem_append.mpr ⟨b.mem_digits, h⟩ }

theorem BasedSpelling.text_extended (b : BasedSpelling) {more : List Char}
    (h : ∀ c ∈ more, c ∈ figures) : (b.extended more h).text = b.text ++ more := by
  simp [text, extended]

/-- **Where a number ends.** A number that an operator or a punctuation sign follows is the same
token with a blank between them and without, unless the sign is a question mark. To the lexicon that
is a figure of any base, also of base ten: the number takes it in with all figures behind it, and so
it is no number that could be read. -/
theorem number_ends (b : BasedSpelling) (c : Char) (r : List Char) (hc : BeginsOperator c) :
    seenTokens (String.ofList (b.text ++ ' ' :: c :: r)) =
        (.basedNumber, b.text) :: seenTokens (String.ofList (c :: r)) ∧
      (seenTokens (String.ofList (b.text ++ c :: r)) =
        seenTokens (String.ofList (b.text ++ ' ' :: c :: r)) ↔ c ≠ '?') ∧
      (c = '?' → ∃ more left, r = more ++ left ∧ (∀ d ∈ more, d ∈ figures) ∧
        seenTokens (String.ofList (b.text ++ c :: r)) =
          (.basedNumber, b.text ++ '?' :: more) :: seenTokens (String.ofList left) ∧
        integerLiteral (b.text ++ '?' :: more) = none) := by
  simp only [seenTokens_eq, String.toList_ofList]
  have hspaced : visiblePieces (b.text ++ ' ' :: c :: r) =
      (.basedNumber, b.text) :: visiblePieces (c :: r) := by
    have hblank : ∀ d ∈ (' ' :: c :: r).head?, d ∉ figures := fun d hd => by
      obtain rfl : ' ' = d := Option.some.inj hd
      decide
    rw [b.visiblePieces_append hblank, visiblePieces_blank r hc.isSpace]
  have htaken (hquestion : c = '?') : ∃ more left, r = more ++ left ∧ (∀ d ∈ more, d ∈ figures) ∧
      visiblePieces (b.text ++ c :: r) =
        (.basedNumber, b.text ++ '?' :: more) :: visiblePieces left ∧
      integerLiteral (b.text ++ '?' :: more) = none := by
    have hmore : ∀ d ∈ r.takeWhile figures.contains, d ∈ figures := fun d hd =>
      List.contains_iff_mem.mp (List.mem_takeWhile_imp hd)
    have hall : ∀ d ∈ '?' :: r.takeWhile figures.contains, d ∈ figures :=
      List.forall_mem_cons.mpr ⟨by decide, hmore⟩
    refine ⟨r.takeWhile figures.contains, r.dropWhile figures.contains,
      List.takeWhile_append_dropWhile.symm, hmore, ?_, ?_⟩
    · have hleft : ∀ d ∈ (r.dropWhile figures.contains).head?, d ∉ figures := fun d hd => by
        have hhead := List.head?_dropWhile_not figures.contains r
        rw [Option.mem_def.mp hd] at hhead
        exact fun hmem => Bool.eq_false_iff.mp hhead (List.contains_iff_mem.mpr hmem)
      have hnumber := (b.extended _ hall).visiblePieces_append hleft
      rw [b.text_extended hall] at hnumber
      rw [hquestion, ← hnumber]
      simp
    · have hread := (IntegerSpelling.based (b.extended _ hall)).integerLiteral_eq_some_iff
      rw [IntegerSpelling.text, b.text_extended hall] at hread
      refine Option.eq_none_iff_forall_ne_some.mpr fun v hv => ?_
      exact IntegerSpelling.not_denotes_of_unknown (c := '?')
        (List.mem_append_right _ List.mem_cons_self) (by decide) v ((hread v).mp hv).1
  refine ⟨hspaced, ⟨?_, fun hne => ?_⟩, htaken⟩
  · rintro heq hquestion
    obtain ⟨more, left, -, -, hseen, -⟩ := htaken hquestion
    rw [hseen, hspaced] at heq
    have htext := (Prod.mk.inj (List.cons.inj heq).1).2
    simp at htext
  · rw [hspaced]
    exact b.visiblePieces_append (by simpa using hc.not_mem_figures hne)

/-- Three in four bits. -/
def sizedThree : BasedSpelling where
  size := ['4']
  before := []
  sign := []
  radix := .decimal
  large := false
  behind := []
  digits := ['3']
  isDecimal_size := .inr ⟨⟨'4', rfl, rfl⟩, List.all_iff_forall_prop.mp (by decide)⟩
  isGap_before := List.all_iff_forall_prop.mp (by decide)
  mem_sign := by decide
  isGap_behind := List.all_iff_forall_prop.mp (by decide)
  digits_ne_nil := by decide
  mem_digits := List.all_iff_forall_prop.mp (by decide)

theorem number_ends_sizedThree : BeginsOperator ':' ∧
    seenTokens "4'd3:a" = (.basedNumber, sizedThree.text) :: seenTokens ":a" := by
  have hcolon : BeginsOperator ':' := ⟨([':'], .colon), by decide, rfl⟩
  obtain ⟨hspaced, hsame, -⟩ := number_ends sizedThree ':' ['a'] hcolon
  exact ⟨hcolon, (hsame.mpr (by decide)).trans hspaced⟩

/-- **A choice needs a blank** behind a number with a base, but not behind one without. -/
theorem number_takes_question :
    seenTokens "4'd3?a:b" ≠ seenTokens "4'd3 ?a:b" ∧ seenTokens "3?a:b" = seenTokens "3 ?a:b" := by
  decide +kernel

end Ends

end Verilog
