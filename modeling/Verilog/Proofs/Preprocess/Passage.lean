import Verilog.Preprocess.Directive
import Verilog.Proofs.Directive.Pieces
import Verilog.Proofs.Grammar.Rename
import Verilog.Proofs.Preprocess.Branch

/-!
# The same passage in two texts

Most of what is said of a piece of a text hangs on the kinds and texts of its tokens, and not on
where they stand. Two trees stand over the same passage of two texts (`DirectiveText.SamePassage`)
if they are the same but for the positions at their leaves, and if the tokens up to there are of the
same kinds and texts. Then they name the same macros, have the same arguments and define the same
macros up to sites.

Texts that are put together from parts are read part by part if the parts are read independently of
each other (`Composes`). So a part that two texts have in common is the same passages in both
(`samePassages_part`).
-/

namespace Verilog

open ParseTree

/-! ### Macros that cannot be told apart

A definition keeps the node, the file and the lines it stands in, and no use of the macro looks at
them. Nor does anything look at the body but for the texts that it gives, so blanks around it make
no difference either. How alike macros are to be is left open (`MacroLikeness`): the same up to
sites, or the same as far as uses, later definitions and conditional directives can tell
(`MacroDefinition.Alike`).
-/

namespace MacroDefinition

/-- A macro without the site of its definition. -/
def unsited (m : MacroDefinition) : MacroDefinition :=
  { name := m.name, formals := m.formals, body := m.body, escaped := m.escaped }

/-- **Can two macros not be told apart**, but for where they are defined? -/
structure Alike (m₁ m₂ : MacroDefinition) : Prop where
  name : m₁.name = m₂.name
  formals : m₁.formals = m₂.formals
  bodyText : m₁.bodyText = m₂.bodyText
  substitute : ∀ actuals, m₁.substitute actuals = m₂.substitute actuals

theorem Alike.of_unsited {m₁ m₂ : MacroDefinition} (h : m₁.unsited = m₂.unsited) :
    Alike m₁ m₂ := by
  have hkeep {β : Type} {f : MacroDefinition → β} (hf : ∀ m : MacroDefinition, f m.unsited = f m) :
      f m₁ = f m₂ := by rw [← hf m₁, h, hf m₂]
  exact ⟨hkeep fun _ => rfl, hkeep fun _ => rfl, hkeep fun _ => rfl, fun actuals =>
    hkeep (f := (·.substitute actuals)) fun _ => rfl⟩

end MacroDefinition

/-- A way for macros to be alike: they cannot be told apart, and are alike if only their sites are
different. -/
structure MacroLikeness where
  Rel : MacroDefinition → MacroDefinition → Prop
  of_unsited : ∀ {m₁ m₂}, m₁.unsited = m₂.unsited → Rel m₁ m₂
  alike : ∀ {m₁ m₂}, Rel m₁ m₂ → m₁.Alike m₂

namespace MacroLikeness

/-- Only their sites are different. -/
def upToSites : MacroLikeness := ⟨fun m₁ m₂ => m₁.unsited = m₂.unsited, id, .of_unsited⟩

/-- They cannot be told apart. -/
def upToBlanks : MacroLikeness := ⟨MacroDefinition.Alike, .of_unsited, id⟩

/-- **Are the macros in force alike**, one by one? -/
def Tables (l : MacroLikeness) (t₁ t₂ : MacroTable) : Prop :=
  List.Forall₂ l.Rel t₁.macros t₂.macros

variable {l : MacroLikeness} {t₁ t₂ : MacroTable} {m₁ m₂ : MacroDefinition}

theorem tables_empty : l.Tables {} {} := .nil

/-- The macros that two tables have by a name are alike. -/
theorem Tables.get? (h : l.Tables t₁ t₂) (name : String) :
    Option.Rel l.Rel (t₁.get? name) (t₂.get? name) := by
  obtain ⟨ms₁⟩ := t₁
  obtain ⟨ms₂⟩ := t₂
  rw [MacroTable.get?, MacroTable.get?]
  replace h : List.Forall₂ l.Rel ms₁ ms₂ := h
  induction h with
  | nil => exact .none
  | @cons m₁ m₂ _ _ hm _ ih =>
    rw [List.find?_cons, List.find?_cons, (l.alike hm).name]
    cases m₂.name == name with
    | true => exact .some hm
    | false => exact ih

theorem Tables.contains (h : l.Tables t₁ t₂) (name : String) :
    t₁.contains name = t₂.contains name := by
  have hfound := h.get? name
  rw [MacroTable.contains, MacroTable.contains]
  generalize t₁.get? name = r₁, t₂.get? name = r₂ at hfound
  cases hfound <;> rfl

theorem Tables.define (h : l.Tables t₁ t₂) (hm : l.Rel m₁ m₂) :
    l.Tables (t₁.define m₁) (t₂.define m₂) := by
  obtain ⟨ms₁⟩ := t₁
  obtain ⟨ms₂⟩ := t₂
  rw [MacroTable.define, MacroTable.define, Tables]
  replace h : List.Forall₂ l.Rel ms₁ ms₂ := h
  induction h with
  | nil => exact .cons hm .nil
  | @cons n₁ n₂ _ _ hn hns ih =>
    rw [MacroTable.put, MacroTable.put, (l.alike hn).name, (l.alike hm).name]
    split
    · exact .cons hm hns
    · exact .cons hn ih

theorem Tables.undefine (h : l.Tables t₁ t₂) (name : String) :
    l.Tables (t₁.undefine name) (t₂.undefine name) := by
  obtain ⟨ms₁⟩ := t₁
  obtain ⟨ms₂⟩ := t₂
  rw [MacroTable.undefine, MacroTable.undefine, Tables]
  replace h : List.Forall₂ l.Rel ms₁ ms₂ := h
  induction h with
  | nil => exact .nil
  | @cons m₁ m₂ _ _ hm _ ih =>
    rw [List.filter_cons, List.filter_cons, (l.alike hm).name]
    split
    · exact .cons hm ih
    · exact ih

end MacroLikeness

/-- The macros in force without the sites of their definitions. -/
def MacroTable.unsited (t : MacroTable) : MacroTable := ⟨t.macros.map MacroDefinition.unsited⟩

/-- Tables that are the same up to sites are so macro by macro. -/
theorem MacroTable.unsited_eq_iff {t₁ t₂ : MacroTable} :
    t₁.unsited = t₂.unsited ↔ MacroLikeness.upToSites.Tables t₁ t₂ := by
  rw [MacroTable.unsited, MacroTable.unsited, MacroTable.mk.injEq, ← List.forall₂_eq_eq_eq,
    List.forall₂_map_left_iff, List.forall₂_map_right_iff]
  rfl

/-- Whether a definition says something else than an earlier one can be told of no more. -/
theorem DirectiveText.redefines_of_alike {m₁ m₂ n₁ n₂ : MacroDefinition} (hm : m₁.Alike m₂)
    (hn : n₁.Alike n₂) : redefines m₁ n₁ = redefines m₂ n₂ := by
  rw [redefines, redefines, hm.formals, hn.formals, hm.bodyText, hn.bodyText]

/-! ### Passages -/

namespace DirectiveText

/-- What is said of a token wherever it stands. -/
def sign? (d : DirectiveText) (i : Nat) : Option (DirectiveKind × String) :=
  d.tokens[i]?.map fun t => (t.kind, t.text)

/-- **Do two trees stand over the same passage** of two texts? -/
def SamePassage (d₁ d₂ : DirectiveText) (t₁ t₂ : ParseTree) : Prop :=
  ∃ (t : ParseTree) (n₁ n₂ : Nat), t₁ = t.rename (n₁ + ·) ∧ t₂ = t.rename (n₂ + ·) ∧
    ∀ j ∈ t.leaves, ∀ i ≤ j, d₁.sign? (n₁ + i) = d₂.sign? (n₂ + i)

variable {d d₁ d₂ : DirectiveText} {t t₁ t₂ : ParseTree}

theorem SamePassage.of_tokens (h : d₁.tokens = d₂.tokens) (t : ParseTree) :
    SamePassage d₁ d₂ t t :=
  ⟨t, 0, 0, (rename_of_fixed Nat.zero_add t).symm, (rename_of_fixed Nat.zero_add t).symm,
    fun _ _ i _ => by rw [sign?, sign?, h]⟩

namespace SamePassage

theorem kind (h : SamePassage d₁ d₂ t₁ t₂) : t₁.kind? = t₂.kind? := by
  obtain ⟨t, n₁, n₂, rfl, rfl, -⟩ := h
  simp

theorem children (h : SamePassage d₁ d₂ t₁ t₂) :
    List.Forall₂ (SamePassage d₁ d₂) t₁.children t₂.children := by
  obtain ⟨t, n₁, n₂, rfl, rfl, hsigns⟩ := h
  rw [children_rename, children_rename, List.forall₂_map_left_iff, List.forall₂_map_right_iff,
    List.forall₂_same]
  intro u hu
  refine ⟨u, n₁, n₂, rfl, rfl, fun j hj => hsigns j ?_⟩
  cases t with
  | leaf i => cases hu
  | node k ts => exact leaves_subset_of_mem hu hj

theorem signs (h : SamePassage d₁ d₂ t₁ t₂) :
    t₁.leaves.map d₁.sign? = t₂.leaves.map d₂.sign? := by
  obtain ⟨t, n₁, n₂, rfl, rfl, hsigns⟩ := h
  rw [leaves_rename, leaves_rename, List.map_map, List.map_map]
  exact List.map_congr_left fun j hj => hsigns j hj j (Nat.le_refl j)

theorem leaf {i j : Nat} (h : SamePassage d₁ d₂ (.leaf i) (.leaf j)) : d₁.sign? i = d₂.sign? j :=
  List.singleton_injective h.signs

end SamePassage

section

variable {α : Type} {f₁ f₂ : ParseTree → α} {p : ParseTree → Bool} {ts₁ ts₂ : List ParseTree}

/-- What is found by its kind among the same passages is the same passage. -/
theorem find_passages (h : List.Forall₂ (SamePassage d₁ d₂) ts₁ ts₂)
    (hp : ∀ t u, t.kind? = u.kind? → p t = p u) :
    Option.Rel (SamePassage d₁ d₂) (ts₁.find? p) (ts₂.find? p) := by
  induction h with
  | nil => exact .none
  | @cons u₁ u₂ _ _ hu _ ih =>
    rw [List.find?_cons, List.find?_cons, hp u₁ u₂ hu.kind]
    cases p u₂ with
    | true => exact .some hu
    | false => exact ih

theorem map_find_passages (h : List.Forall₂ (SamePassage d₁ d₂) ts₁ ts₂)
    (hp : ∀ t u, t.kind? = u.kind? → p t = p u)
    (hf : ∀ u₁ u₂, SamePassage d₁ d₂ u₁ u₂ → f₁ u₁ = f₂ u₂) :
    (ts₁.find? p).map f₁ = (ts₂.find? p).map f₂ := by
  have hfind := find_passages h hp
  generalize ts₁.find? p = r₁, ts₂.find? p = r₂ at hfind
  cases hfind with
  | none => rfl
  | some hu => exact congrArg some (hf _ _ hu)

theorem map_filter_passages (h : List.Forall₂ (SamePassage d₁ d₂) ts₁ ts₂)
    (hp : ∀ t u, t.kind? = u.kind? → p t = p u)
    (hf : ∀ u₁ u₂, SamePassage d₁ d₂ u₁ u₂ → f₁ u₁ = f₂ u₂) :
    (ts₁.filter p).map f₁ = (ts₂.filter p).map f₂ := by
  induction h with
  | nil => rfl
  | @cons u₁ u₂ _ _ hu _ ih =>
    rw [List.filter_cons, List.filter_cons, hp u₁ u₂ hu.kind]
    split
    · rw [List.map_cons, List.map_cons, hf _ _ hu, ih]
    · exact ih

end

theorem isNode_of_kind (k : NodeKind) (t u : ParseTree) (h : t.kind? = u.kind?) :
    t.isNode k = u.isNode k := by
  rw [isNode, isNode, h]

/-! ### What is said of passages -/

theorem map_tokensOf (d : DirectiveText) (t : ParseTree) :
    (d.tokensOf t).map (fun token => (token.kind, token.text)) =
      (t.leaves.map d.sign?).reduceOption := by
  change _ = (t.leaves.map d.sign?).filterMap id
  rw [tokensOf, List.map_filterMap, List.filterMap_map]
  rfl

namespace SamePassage

theorem tokens (h : SamePassage d₁ d₂ t₁ t₂) :
    (d₁.tokensOf t₁).map (fun token => (token.kind, token.text)) =
      (d₂.tokensOf t₂).map (fun token => (token.kind, token.text)) := by
  rw [map_tokensOf, map_tokensOf, h.signs]

theorem texts (h : SamePassage d₁ d₂ t₁ t₂) :
    (d₁.tokensOf t₁).map (·.text) = (d₂.tokensOf t₂).map (·.text) := by
  simpa [Function.comp_def] using congrArg (List.map Prod.snd) h.tokens

theorem textOf (h : SamePassage d₁ d₂ t₁ t₂) : d₁.textOf t₁ = d₂.textOf t₂ :=
  congrArg String.join h.texts

theorem trimmedTextOf (h : SamePassage d₁ d₂ t₁ t₂) : d₁.trimmedTextOf t₁ = d₂.trimmedTextOf t₂ :=
  congrArg trimText h.textOf

theorem newlinesIn (h : SamePassage d₁ d₂ t₁ t₂) : d₁.newlinesIn t₁ = d₂.newlinesIn t₂ := by
  have hcount (d : DirectiveText) (t : ParseTree) : d.newlinesIn t =
      ((d.tokensOf t).map (·.text)).foldl (fun n text => n + newlines text.toList) 0 := by
    rw [List.foldl_map]
    rfl
  rw [hcount, hcount, h.texts]

theorem macroNameOf (h : SamePassage d₁ d₂ t₁ t₂) : d₁.macroNameOf t₁ = d₂.macroNameOf t₂ :=
  map_find_passages h.children
    (fun t u hk => by rw [isNode_of_kind _ t u hk, isNode_of_kind _ t u hk])
    fun _ _ hu => hu.trimmedTextOf

/-- The first tokens of both are alike. -/
theorem first (h : SamePassage d₁ d₂ t₁ t₂) :
    t₁.first?.bind d₁.sign? = t₂.first?.bind d₂.sign? := by
  have hfirst (d : DirectiveText) (t : ParseTree) :
      t.first?.bind d.sign? = (t.leaves.map d.sign?).head?.join := by
    rw [first?_eq, List.head?_map]
    cases t.leaves.head? <;> rfl
  rw [hfirst, hfirst, h.signs]

theorem usedName (h : SamePassage d₁ d₂ t₁ t₂) : d₁.usedName t₁ = d₂.usedName t₂ := by
  have hname (d : DirectiveText) (t : ParseTree) : d.usedName t = (t.first?.bind d.sign?).map
      fun sign => String.ofList (sign.2.toList.dropWhile (· == backquote)) := by
    rw [DirectiveText.usedName]
    cases t.first? with
    | none => rfl
    | some i =>
      rw [Option.bind_some, Option.bind_some, sign?, Option.map_map]
      rfl
  rw [hname, hname, h.first]

theorem actualsOf (h : SamePassage d₁ d₂ t₁ t₂) : d₁.actualsOf t₁ = d₂.actualsOf t₂ := by
  have hfind := find_passages h.children (isNode_of_kind .ppMacroActualArgs)
  rw [DirectiveText.actualsOf, DirectiveText.actualsOf, find?, find?]
  generalize t₁.children.find? _ = r₁, t₂.children.find? _ = r₂ at hfind ⊢
  cases hfind with
  | none => rfl
  | some hu =>
    exact map_filter_passages hu.children (isNode_of_kind .ppMacroArg)
      fun _ _ hv => hv.trimmedTextOf

theorem formalsOf (h : SamePassage d₁ d₂ t₁ t₂) : d₁.formalsOf t₁ = d₂.formalsOf t₂ := by
  refine map_find_passages h.children (isNode_of_kind .ppFormalArgList) fun _ _ hlist => ?_
  refine map_filter_passages hlist.children (isNode_of_kind .ppFormalArg) fun _ _ hformal => ?_
  have hpart (k : NodeKind) := map_find_passages hformal.children (isNode_of_kind k)
    fun _ _ hu => hu.trimmedTextOf
  rw [find?, find?, find?, find?, hpart, hpart]

/-- **The macros that both define** are the same up to sites. -/
theorem definitionOf (h : SamePassage d₁ d₂ t₁ t₂) (name : String) (node₁ node₂ : NodeId) :
    (d₁.definitionOf name node₁ t₁).unsited = (d₂.definitionOf name node₂ t₂).unsited := by
  have hp (t u : ParseTree) (hk : t.kind? = u.kind?) :
      (t.isNode .ppSimpleMacroDefinitionBody || t.isNode .ppEscapedMacroDefinitionBody) =
        (u.isNode .ppSimpleMacroDefinitionBody || u.isNode .ppEscapedMacroDefinitionBody) := by
    rw [isNode_of_kind _ t u hk, isNode_of_kind _ t u hk]
  have hbody : ∀ u₁ u₂, SamePassage d₁ d₂ u₁ u₂ →
      ((d₁.tokensOf u₁).map fun t => (⟨t.kind, t.text⟩ : BodyToken)) =
        (d₂.tokensOf u₂).map fun t => ⟨t.kind, t.text⟩ := fun _ _ hu => by
    simpa [Function.comp_def] using
      congrArg (List.map fun sign => (⟨sign.1, sign.2⟩ : BodyToken)) hu.tokens
  have hescaped := map_find_passages h.children hp fun u₁ u₂ hu =>
    isNode_of_kind .ppEscapedMacroDefinitionBody u₁ u₂ hu.kind
  rw [DirectiveText.definitionOf, DirectiveText.definitionOf, MacroDefinition.unsited,
    MacroDefinition.unsited]
  simp only [h.formalsOf, map_find_passages h.children hp hbody, MacroDefinition.mk.injEq, true_and,
    and_true]
  simpa [Option.any_map] using congrArg (Option.any id) hescaped

/-- What stands between the first and the last leaf is alike too, also where no leaf is. -/
theorem trailingTextOf (h : SamePassage d₁ d₂ t₁ t₂) :
    d₁.trailingTextOf t₁ = d₂.trailingTextOf t₂ := by
  have hfind := find_passages h.children (isNode_of_kind .ppMacroActualArgs)
  obtain ⟨t, n₁, n₂, rfl, rfl, hsigns⟩ := h
  have hends (n : Nat) : (t.rename (n + ·)).first? = t.first?.map (n + ·) ∧
      (t.rename (n + ·)).last? = t.last?.map (n + ·) := by
    rw [first?_eq, last?_eq, first?_eq, last?_eq, leaves_rename, List.head?_map, List.getLast?_map]
    exact ⟨rfl, rfl⟩
  rw [DirectiveText.trailingTextOf, DirectiveText.trailingTextOf, find?, find?, (hends n₁).1,
    (hends n₁).2, (hends n₂).1, (hends n₂).2]
  generalize (t.rename (n₁ + ·)).children.find? _ = r₁, (t.rename (n₂ + ·)).children.find? _ = r₂
    at hfind ⊢
  cases hfind with
  | none => rfl
  | some _ =>
    cases t.first? with
    | none => rfl
    | some first =>
      cases hlast : t.last? with
      | none => rfl
      | some last =>
        have hmem : last ∈ t.leaves := List.mem_of_getLast? (t.last?_eq ▸ hlast)
        refine congrArg String.join (List.ext_getElem? fun i => ?_)
        simp only [List.getElem?_map, List.getElem?_drop, List.getElem?_take]
        by_cases hi : first + 1 + i < last + 1
        · rw [if_pos (by omega), if_pos (by omega)]
          have hsign := hsigns last hmem (first + 1 + i) (by omega)
          rw [sign?, sign?, ← Nat.add_assoc, ← Nat.add_assoc, ← Nat.add_assoc, ← Nat.add_assoc]
            at hsign
          simpa [Function.comp_def] using congrArg (Option.map Prod.snd) hsign
        · rw [if_neg (by omega), if_neg (by omega)]

/-- **The text of a use**, before the uses in it are expanded, is the same for macros that cannot be
told apart. -/
theorem substitutedText (h : SamePassage d₁ d₂ t₁ t₂) {m₁ m₂ : MacroDefinition}
    (hm : m₁.Alike m₂) : d₁.substitutedText m₁ t₁ = d₂.substitutedText m₂ t₂ := by
  rw [DirectiveText.substitutedText, DirectiveText.substitutedText, hm.formals, hm.name,
    h.trailingTextOf, h.actualsOf, funext hm.substitute]

/-- The numbers and the name of a file that stand directly below both are the same. -/
theorem numbers (h : SamePassage d₁ d₂ t₁ t₂) :
    ((t₁.children.filter (·.isNode .ppNumber)).map fun n =>
        readUnsigned 10 32 (d₁.textOf n).toList) =
      (t₂.children.filter (·.isNode .ppNumber)).map fun n =>
        readUnsigned 10 32 (d₂.textOf n).toList :=
  map_filter_passages h.children (isNode_of_kind .ppNumber) fun _ _ hu => by rw [hu.textOf]

theorem quoted (h : SamePassage d₁ d₂ t₁ t₂) :
    (t₁.find? .ppString).map d₁.textOf = (t₂.find? .ppString).map d₂.textOf :=
  map_find_passages h.children (isNode_of_kind .ppString) fun _ _ hu => hu.textOf

/-- What stands behind the first tokens of both is the same. -/
theorem textBehind (h : SamePassage d₁ d₂ t₁ t₂) :
    ((t₁.leaves.drop 1).filterMap fun i => d₁.tokens[i]?.map (·.text)) =
      (t₂.leaves.drop 1).filterMap fun i => d₂.tokens[i]?.map (·.text) := by
  have hbehind (d : DirectiveText) (t : ParseTree) :
      ((t.leaves.drop 1).filterMap fun i => d.tokens[i]?.map (·.text)) =
        ((t.leaves.map d.sign?).drop 1).filterMap (Option.map Prod.snd) := by
    rw [← List.map_drop, List.filterMap_map]
    simp [Function.comp_def, sign?]
  rw [hbehind, hbehind, h.signs]

end SamePassage

end DirectiveText

/-! ### Texts of several parts -/

/-- The kinds and texts of the tokens of a text. -/
def signs (text : String) : List (DirectiveKind × String) :=
  (DirectiveToken.ofText text).map fun t => (t.kind, t.text)

/-- The pieces of a text. -/
def piecesOf (text : String) : List ParseTree :=
  (DirectiveGrammar.parse (DirectiveToken.ofText text)).children

/-- The pieces of texts that stand one behind the other, the first of them behind so many tokens. -/
def piecesFrom : Nat → List String → List ParseTree
  | _, [] => []
  | n, part :: parts =>
    (piecesOf part).map (·.rename (n + ·)) ++ piecesFrom (n + (signs part).length) parts

/-- **Is a text read part by part?** Its tokens are those of its parts, and its pieces too. -/
structure Composes (text : String) (parts : List String) : Prop where
  signs : signs text = parts.flatMap signs
  pieces : piecesOf text = piecesFrom 0 parts

/-- Do the tokens of a part stand in a text behind so many others? -/
def Holds (text : String) (n : Nat) (part : String) : Prop :=
  ∀ i < (signs part).length, (signs text)[n + i]? = (signs part)[i]?

theorem pieces_ofText (text : String) (file : Option String) (parent : NodeId) (recording : Bool) :
    (DirectiveText.ofText text file parent recording).pieces = piecesOf text := by
  rw [DirectiveText.pieces, piecesOf, DirectiveText.ofText]

theorem Composes.holds {text part : String} {before after : List String}
    (h : Composes text (before ++ part :: after)) :
    Holds text (before.flatMap Verilog.signs).length part := by
  intro i hi
  rw [h.signs, List.flatMap_append, List.flatMap_cons, List.getElem?_append_right
    (Nat.le_add_right _ _), Nat.add_sub_cancel_left, List.getElem?_append_left hi]

theorem holds_self (text : String) : Holds text 0 text := fun i _ => by rw [Nat.zero_add]

/-- The leaves of the pieces of a text are places of its tokens. -/
theorem lt_of_mem_leaves {text : String} {t : ParseTree} (ht : t ∈ piecesOf text) {i : Nat}
    (hi : i ∈ t.leaves) : i < (signs text).length := by
  have htiles {before rest : List DirectiveToken} {ts : List ParseTree}
      (h : DirectiveGrammar.Tiles before ts rest) (ht : t ∈ ts) :
      i < before.length + rest.length := by
    induction h with
    | nil => cases ht
    | @cons before taken rest u us hpiece _ ih =>
      rw [List.length_append]
      obtain rfl | ht := List.mem_cons.mp ht
      · have hsub := hpiece.leaves.sublist.subset hi
        rw [DirectiveGrammar.map_fst_numbered, List.mem_range'_1] at hsub
        omega
      · have := ih ht
        rw [List.length_append] at this
        omega
  simpa [signs] using htiles (DirectiveGrammar.tiles_parse _) ht

theorem sign?_ofText (text : String) (file : Option String) (parent : NodeId) (recording : Bool)
    (i : Nat) : (DirectiveText.ofText text file parent recording).sign? i = (signs text)[i]? := by
  rw [DirectiveText.sign?, DirectiveText.ofText, signs, List.getElem?_map, List.getElem?_toArray]

/-- **What two texts have in common is the same passages in both.** -/
theorem samePassages_part {text₁ text₂ part : String} {n₁ n₂ : Nat} (h₁ : Holds text₁ n₁ part)
    (h₂ : Holds text₂ n₂ part) (file₁ file₂ : Option String) (parent₁ parent₂ : NodeId)
    (recording₁ recording₂ : Bool) :
    List.Forall₂ (DirectiveText.SamePassage (.ofText text₁ file₁ parent₁ recording₁)
      (.ofText text₂ file₂ parent₂ recording₂)) ((piecesOf part).map (·.rename (n₁ + ·)))
      ((piecesOf part).map (·.rename (n₂ + ·))) := by
  rw [List.forall₂_map_left_iff, List.forall₂_map_right_iff, List.forall₂_same]
  intro t ht
  refine ⟨t, n₁, n₂, rfl, rfl, fun j hj i hi => ?_⟩
  have hlt := Nat.lt_of_le_of_lt hi (lt_of_mem_leaves ht hj)
  rw [sign?_ofText, sign?_ofText, h₁ i hlt, h₂ i hlt]

end Verilog
