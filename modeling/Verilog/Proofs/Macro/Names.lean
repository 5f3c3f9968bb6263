import Verilog.Proofs.Lexing.Names

/-!
# Names in the body of a macro

The body of a macro is cut into tokens by the lexicon of directives, and the formal arguments among
its names are replaced, all at once and each by the text of an actual argument that nothing looks
into again. What the body says is settled by the lexicon of source text. So formal arguments are
replaced in the right places as far as the two lexicons find the same names
(`MacroDefinition.replaces_names`).

That is not so everywhere: a number with a base holds what is a name to the lexicon of directives,
and a macro replaces it (`MacroDefinition.replaces_digits_sizedLiteral`).
-/

namespace Verilog

open Pattern Lexicon

/-! ### Edits -/

/-- A stretch of a text, from a place up to another, and what is put there instead. -/
structure Edit where
  start : Nat
  stop : Nat
  text : List Char
  deriving DecidableEq

/-- The text that begins at a place, with edits made, each of them behind those before it. -/
def edited (p : Nat) : List Edit → List Char → List Char
  | [], s => s
  | e :: es, s => s.take (e.start - p) ++ (e.text ++ edited e.stop es (s.drop (e.stop - p)))

theorem edited_append {p : Nat} {w : List Char} {es : List Edit}
    (h : ∀ e ∈ es.head?, p + w.length ≤ e.start ∧ e.start ≤ e.stop) (s : List Char) :
    edited p es (w ++ s) = w ++ edited (p + w.length) es s := by
  cases es with
  | nil => rfl
  | cons e es =>
    obtain ⟨hstart, hstop⟩ := h e rfl
    rw [edited, edited, show e.start - p = w.length + (e.start - (p + w.length)) by omega,
      show e.stop - p = w.length + (e.stop - (p + w.length)) by omega, List.take_length_add_append,
      List.drop_length_add_append, List.append_assoc]

namespace MacroDefinition

variable {formals : List FormalArgument} {actuals : List String}

/-- What is done with a token of a body: a formal argument gives way to the actual one, a comment to
nothing, and the end of a line that is continued to a blank. -/
def editOf (formals : List FormalArgument) (actuals : List String) (x : Piece DirectiveKind) :
    Option Edit :=
  let edit (text : List Char) : Edit := ⟨x.start, x.start + x.text.length, text⟩
  match x.kind with
  | .identifier =>
    (actualFor actuals formals (String.ofList x.text)).map fun actual => edit actual.toList
  | .oneLineComment => some (edit [])
  | .lineContinuation => some (edit [' '])
  | _ => none

/-- The edits that a use of a macro with a body makes in the body. -/
def edits (formals : List FormalArgument) (actuals : List String) (s : List Char) : List Edit :=
  (DirectiveKind.lexicon.piecesFrom 0 s).filterMap (editOf formals actuals)

theorem range_editOf {x : Piece DirectiveKind} {e : Edit} (h : editOf formals actuals x = some e) :
    e.start = x.start ∧ e.stop = x.start + x.text.length := by
  rw [editOf] at h
  split at h
  · obtain ⟨-, -, rfl⟩ := Option.map_eq_some_iff.mp h
    exact ⟨rfl, rfl⟩
  · cases h
    exact ⟨rfl, rfl⟩
  · cases h
    exact ⟨rfl, rfl⟩
  · cases h

/-- A token becomes what is put in its place, or it stays. -/
theorem substituteToken_eq {x : Piece DirectiveKind}
    (hkind : x.kind ≠ .tickTick ∧ x.kind ≠ .tickQuote) :
    (substituteToken formals actuals ⟨x.kind, String.ofList x.text⟩).toList =
      ((editOf formals actuals x).map (·.text)).getD x.text := by
  obtain ⟨htick, hquote⟩ := hkind
  obtain ⟨start, kind, w⟩ := x
  rw [substituteToken, editOf]
  dsimp only at htick hquote ⊢
  split
  · cases actualFor actuals formals (String.ofList w) <;> simp
  · exact absurd rfl htick
  · rfl
  · exact absurd rfl hquote
  · rfl
  · split <;> simp_all

/-- **The body with its edits** is what becomes of its tokens, joined. -/
theorem flatMap_substituteToken {xs : List (DirectiveKind × List Char)}
    (hxs : ∀ x ∈ xs, x.1 ≠ .tickTick ∧ x.1 ≠ .tickQuote) (p : Nat) :
    xs.flatMap (fun x => (substituteToken formals actuals ⟨x.1, String.ofList x.2⟩).toList) =
      edited p ((laid p xs).filterMap (editOf formals actuals)) (xs.flatMap (·.2)) := by
  induction xs generalizing p with
  | nil => rfl
  | cons x xs ih =>
    obtain ⟨kind, w⟩ := x
    obtain ⟨hx, hxs⟩ := List.forall_mem_cons.mp hxs
    have hbehind : ∀ e ∈ ((laid (p + w.length) xs).filterMap (editOf formals actuals)).head?,
        p + w.length ≤ e.start ∧ e.start ≤ e.stop := by
      intro e he
      obtain ⟨y, hy, hedit⟩ := List.mem_filterMap.mp (List.mem_of_mem_head? he)
      obtain ⟨hstart, hstop⟩ := range_editOf hedit
      have := le_start_of_mem_laid hy
      omega
    rw [List.flatMap_cons, List.flatMap_cons, ih hxs (p + w.length), laid, List.filterMap_cons,
      substituteToken_eq (x := ⟨p, kind, w⟩) hx]
    cases hedit : editOf formals actuals ⟨p, kind, w⟩ with
    | none => rw [edited_append hbehind]; rfl
    | some e =>
      obtain ⟨hstart, hstop⟩ := range_editOf hedit
      rw [edited, hstart, hstop]
      simp

/-- Without backquotes no tokens are pasted and no quotes are made plain. -/
theorem not_tick_of_mem_pieces {s : List Char} (hs : backquote ∉ s)
    {x : DirectiveKind × List Char} (hx : x ∈ DirectiveKind.lexicon.pieces s.length s) :
    x.1 ≠ .tickTick ∧ x.1 ≠ .tickQuote := by
  have hfree : backquote ∉ x.2 := fun hc => hs <| by
    rw [← DirectiveKind.lexicon.flatMap_pieces (Nat.le_refl s.length)]
    exact List.mem_flatMap.mpr ⟨x, hx, hc⟩
  rcases class_of_mem_pieces hx with ⟨hother, -⟩ | ⟨cls, hcls, input, r, hsplit, hkind, -⟩
  · rw [hother]
    exact ⟨by decide, by decide⟩
  rcases DirectiveKind.classes_tick cls hcls with ⟨t, ht, hmem⟩ | h
  · rw [ht] at hsplit
    exact absurd (eq_of_split_text hsplit ▸ hmem) hfree
  · exact hkind ▸ h x.2

/-- **A macro replaces names** as follows in a body with given text. -/
structure ReplacesNames (m : MacroDefinition) (s : List Char) : Prop where
  /-- All formal arguments are replaced at once, and the rest of the body stays as it is. -/
  substituted : ∀ actuals, (m.substitute actuals).toList =
    trim (edited 0 (edits (m.formals.getD []) actuals s) s)
  /-- What may be replaced is a name in the source text, or a part of something that hides it. -/
  sound : ∀ x ∈ DirectiveKind.lexicon.piecesFrom 0 s, x.kind = .identifier →
    ⟨x.start, SourceKind.ofWord x.text, x.text⟩ ∈ SourceKind.lexicon.piecesFrom 0 s ∨
    ∃ y ∈ SourceKind.lexicon.piecesFrom 0 s, y.Covers x.start ∧
      (y.kind.hidesNames = true ∨ y.kind = .identifier ∧ '$' ∈ y.text)
  /-- A name in the source text may be replaced, unless it stands behind a number. -/
  complete : ∀ y ∈ SourceKind.lexicon.piecesFrom 0 s, y.kind = .identifier →
    ⟨y.start, .identifier, y.text⟩ ∈ DirectiveKind.lexicon.piecesFrom 0 s ∨
    ∃ x ∈ DirectiveKind.lexicon.piecesFrom 0 s, x.Covers y.start ∧
      (x.kind = .identifier ∨ x.kind = .number)

/-- **Names are replaced where they are names**, in every body without macro uses. -/
theorem replaces_names {m : MacroDefinition} {text : String} (hbody : m.body = bodyOf text)
    (hs : WithoutUses text.toList) : m.ReplacesNames text.toList where
  substituted actuals := by
    have htick : ∀ x ∈ DirectiveKind.lexicon.pieces text.toList.length text.toList,
        x.1 ≠ .tickTick ∧ x.1 ≠ .tickQuote :=
      fun x => not_tick_of_mem_pieces hs.backquote_not_mem
    have hjoin := @flatMap_substituteToken (m.formals.getD []) actuals _ htick 0
    rw [DirectiveKind.lexicon.flatMap_pieces (Nat.le_refl _)] at hjoin
    rw [substitute, hbody, bodyOf, signs_eq, trimText, String.toList_ofList, String.toList_join,
      List.map_map, List.map_map, List.flatMap_map, edits, Lexicon.piecesFrom, ← hjoin]
    rfl
  sound x hx hkind := by
    have hname : x.IsName := by
      refine isName_of_kind ?_ ?_ hx
      · rw [hkind]; decide
      · rw [hkind]; exact DirectiveKind.classes_identifier
    rcases kindred.told hs hx hname with ⟨y, hy, hstart, htext⟩ | ⟨y, hy, hplain, hcovers⟩
    · have hyname : y.IsName := by rwa [Piece.IsName, htext]
      have hyeq : y = ⟨x.start, SourceKind.ofWord x.text, x.text⟩ := by
        rw [← hstart, ← htext, ← SourceKind.kind_of_isName hy hyname]
      exact .inl (hyeq ▸ hy)
    · exact .inr ⟨y, hy, hcovers, SourceKind.kind_of_covers hx hname hy hplain hcovers⟩
  complete y hy hkind := by
    have hname : y.IsName := by
      refine isName_of_kind ?_ ?_ hy
      · rw [hkind]; decide
      · rw [hkind]; exact SourceKind.classes_identifier
    rcases kindred.symm.told hs hy hname with ⟨x, hx, hstart, htext⟩ | ⟨x, hx, hplain, hcovers⟩
    · have hxname : x.IsName := by rwa [Piece.IsName, htext]
      have hxeq : x = ⟨y.start, .identifier, y.text⟩ := by
        rw [← hstart, ← htext, ← DirectiveKind.kind_of_isName hx hxname]
      exact .inl (hxeq ▸ hx)
    · exact .inr ⟨x, hx, hcovers, DirectiveKind.kind_of_covers hy hname hx hplain hcovers⟩

/-- The macro with two formal arguments whose body adds them behind a comment. -/
def sumOfTwo : MacroDefinition :=
  { ofText "SUM" "x /* x */ + y" with formals := some [⟨"x", none⟩, ⟨"y", some "1"⟩] }

theorem replaces_names_sumOfTwo :
    sumOfTwo.body = bodyOf "x /* x */ + y" ∧ WithoutUses "x /* x */ + y".toList ∧
      sumOfTwo.ReplacesNames "x /* x */ + y".toList ∧
      sumOfTwo.substitute ["y", "x"] = "y /* x */ + x" := by
  have hbody : sumOfTwo.body = bodyOf "x /* x */ + y" :=
    body_ofText "SUM" "x /* x */ + y"
  have huses : WithoutUses "x /* x */ + y".toList :=
    ⟨by decide, fun r hr => absurd (hr.subset List.mem_cons_self) (by decide)⟩
  exact ⟨hbody, huses, replaces_names hbody huses, by decide +kernel⟩

/-- **A number with a base may hide a name**, and then its digits are replaced. -/
theorem replaces_digits_sizedLiteral :
    { ofText "M" "8'hFF" with formals := some [⟨"hFF", none⟩] }.substitute ["3"] = "8'3" ∧
      (SourceToken.ofText "8'hFF").map (fun t => (t.kind, t.text)) = [(.basedNumber, "8'hFF")] := by
  decide +kernel

end MacroDefinition

end Verilog
