import Verilog.Proofs.Lexing.Cut
import Verilog.Proofs.Preprocess.Written

/-!
# What macro uses give

Whatever is read off a text without the delimiter of marks, names, arguments, bodies of macros,
the delimiter is not in it either; and the text of a macro use is put together from such pieces.
So a use gives a text without the delimiter, if the expansion of the uses in it does
(`Preprocessing.Expands`).
-/

namespace Verilog

open Preprocessing

/-- Is the delimiter nowhere in a text that is preprocessed, nor in the name of its file? -/
structure DirectiveText.Unmarked (d : DirectiveText) : Prop where
  tokens : ∀ t ∈ d.tokens, Verilog.Unmarked t.text.toList
  file : Verilog.Unmarked (nameText d.file).toList

namespace DirectiveText

variable {d : DirectiveText} {t : ParseTree}

theorem unmarked_token {text : String} (h : Verilog.Unmarked text.toList) :
    ∀ t ∈ DirectiveToken.ofText text, Verilog.Unmarked t.text.toList := by
  have hcut := DirectiveKind.lexicon.flatMap_tokens text
  rw [← hcut, Verilog.Unmarked.flatMap] at h
  exact h

theorem unmarked_ofText {text : String} {file : Option String} (parent : NodeId) (recording : Bool)
    (h : Verilog.Unmarked text.toList) (hf : Verilog.Unmarked (nameText file).toList) :
    (ofText text file parent recording).Unmarked :=
  ⟨fun t ht => unmarked_token h t (by simpa [ofText] using ht), hf⟩

section Pieces

variable (hd : d.Unmarked)
include hd

theorem Unmarked.tokensOf : ∀ x ∈ d.tokensOf t, Verilog.Unmarked x.text.toList := by
  intro x hx
  obtain ⟨i, -, hi⟩ := List.mem_filterMap.mp hx
  exact hd.tokens x (Array.mem_of_getElem? hi)

theorem Unmarked.textOf : Verilog.Unmarked (d.textOf t).toList := by
  refine Unmarked.join.mpr fun s hs => ?_
  obtain ⟨x, hx, rfl⟩ := List.mem_map.mp hs
  exact hd.tokensOf x hx

theorem Unmarked.trimmedTextOf : Verilog.Unmarked (d.trimmedTextOf t).toList := hd.textOf.trimText

theorem Unmarked.macroNameOf {name : String} (h : d.macroNameOf t = some name) :
    Verilog.Unmarked name.toList := by
  obtain ⟨c, -, rfl⟩ := Option.map_eq_some_iff.mp h
  exact hd.trimmedTextOf

theorem Unmarked.macroNameOf_getD : Verilog.Unmarked ((d.macroNameOf t).getD "").toList := by
  cases h : d.macroNameOf t with
  | none => decide
  | some name => exact hd.macroNameOf h

theorem Unmarked.usedName {name : String} (h : d.usedName t = some name) :
    Verilog.Unmarked name.toList := by
  obtain ⟨x, hx, rfl⟩ := Option.map_eq_some_iff.mp h
  obtain ⟨i, -, hi⟩ := Option.bind_eq_some_iff.mp hx
  rw [String.toList_ofList]
  exact (hd.tokens x (Array.mem_of_getElem? hi)).dropWhile _

theorem Unmarked.actualsOf : ∀ a ∈ d.actualsOf t, Verilog.Unmarked a.toList := by
  intro a ha
  rw [DirectiveText.actualsOf] at ha
  split at ha
  · obtain ⟨c, -, rfl⟩ := List.mem_map.mp ha
    exact hd.trimmedTextOf
  · simp at ha

theorem Unmarked.trailingTextOf : Verilog.Unmarked (d.trailingTextOf t).toList := by
  rw [DirectiveText.trailingTextOf]
  split
  · refine Unmarked.join.mpr fun s hs => ?_
    obtain ⟨x, hx, rfl⟩ := List.mem_map.mp hs
    have hx : x ∈ d.tokens.toList := List.mem_of_mem_take (List.mem_of_mem_drop hx)
    exact hd.tokens x (Array.mem_toList_iff.mp hx)
  · decide

theorem Unmarked.definitionOf {name : String} (node : NodeId) (hn : Verilog.Unmarked name.toList) :
    (d.definitionOf name node t).Unmarked := by
  refine ⟨hn, fun x hx => ?_, fun f hf s hs => ?_⟩
  · rw [DirectiveText.definitionOf] at hx
    cases hb : t.children.find? fun c =>
        c.isNode .ppSimpleMacroDefinitionBody || c.isNode .ppEscapedMacroDefinitionBody with
    | none => simp [hb] at hx
    | some b =>
      simp only [hb, Option.map_some, Option.getD_some] at hx
      obtain ⟨y, hy, rfl⟩ := List.mem_map.mp hx
      exact hd.tokensOf y hy
  · simp only [DirectiveText.definitionOf, DirectiveText.formalsOf] at hf
    cases hl : t.find? .ppFormalArgList with
    | none => simp [hl] at hf
    | some list =>
      simp only [hl, Option.map_some, Option.getD_some] at hf
      obtain ⟨formal, -, rfl⟩ := List.mem_map.mp hf
      obtain ⟨c, -, rfl⟩ := Option.map_eq_some_iff.mp hs
      exact hd.trimmedTextOf

end Pieces

end DirectiveText

/-! ### Substitution -/

namespace MacroDefinition

variable {m : MacroDefinition} {actuals : List String} {formals : List FormalArgument}

/-- What a formal argument is replaced by is an actual argument, or its default. -/
theorem actualFor_cases {name s : String} (h : actualFor actuals formals name = some s) :
    s ∈ actuals ∨ s = "" ∨ ∃ f ∈ formals, f.default = some s := by
  induction formals generalizing actuals with
  | nil => simp [actualFor] at h
  | cons f formals ih =>
    rw [actualFor] at h
    split at h
    · obtain rfl := Option.some.inj h
      cases actuals with
      | cons a actuals => exact .inl (by simp)
      | nil =>
        cases hf : f.default with
        | none => exact .inr (.inl (by simp))
        | some s => exact .inr (.inr ⟨f, List.mem_cons_self, by simp [hf]⟩)
    · obtain hs | hs | ⟨g, hg, hs⟩ := ih h
      · exact .inl (List.mem_of_mem_tail hs)
      · exact .inr (.inl hs)
      · exact .inr (.inr ⟨g, List.mem_cons_of_mem _ hg, hs⟩)

theorem Unmarked.substitute (hm : m.Unmarked) (ha : ∀ a ∈ actuals, Verilog.Unmarked a.toList) :
    Verilog.Unmarked (m.substitute actuals).toList := by
  refine Verilog.Unmarked.trimText (Unmarked.join.mpr fun s hs => ?_)
  obtain ⟨t, ht, rfl⟩ := List.mem_map.mp hs
  have htext := hm.body t ht
  rw [substituteToken]
  split
  · cases h : actualFor actuals (m.formals.getD []) t.text with
    | none => exact htext
    | some s =>
      rw [Option.getD_some]
      obtain hs | hs | ⟨f, hf, hs⟩ := actualFor_cases h
      · exact ha s hs
      · subst hs
        exact .nil
      · exact hm.defaults f hf s hs
  · decide
  · decide
  · decide
  · decide
  · exact htext

theorem unmarked_ofText {name value : String} (hn : Verilog.Unmarked name.toList)
    (hv : Verilog.Unmarked value.toList) : (ofText name value).Unmarked := by
  refine ⟨hn, fun t ht => ?_, by simp [ofText]⟩
  obtain ⟨u, hu, rfl⟩ := List.mem_map.mp ht
  exact DirectiveText.unmarked_token hv u hu

end MacroDefinition

namespace MacroTable

variable {t : MacroTable} {m : MacroDefinition}

theorem mem_put {ms : List MacroDefinition} {x : MacroDefinition} (h : x ∈ put m ms) :
    x = m ∨ x ∈ ms := by
  induction ms with
  | nil => exact .inl (List.mem_singleton.mp h)
  | cons y ms ih =>
    rw [put] at h
    split at h
    · rcases List.mem_cons.mp h with rfl | h
      · exact .inl rfl
      · exact .inr (List.mem_cons_of_mem _ h)
    · rcases List.mem_cons.mp h with rfl | h
      · exact .inr List.mem_cons_self
      · exact (ih h).imp_right (List.mem_cons_of_mem _)

theorem Unmarked.define (ht : t.Unmarked) (hm : m.Unmarked) : (t.define m).Unmarked := by
  intro x hx
  rcases mem_put hx with rfl | hx
  · exact hm
  · exact ht x hx

theorem Unmarked.undefine (ht : t.Unmarked) (name : String) : (t.undefine name).Unmarked :=
  fun x hx => ht x (List.mem_filter.mp hx).1

theorem Unmarked.get (ht : t.Unmarked) {name : String} (h : t.get? name = some m) : m.Unmarked :=
  ht m (List.mem_of_find?_eq_some h)

theorem Unmarked.defineAll (ht : t.Unmarked) {texts : List (String × String)}
    (h : ∀ d ∈ texts, Verilog.Unmarked d.1.toList ∧ Verilog.Unmarked d.2.toList) :
    (t.defineAll texts).Unmarked := by
  induction texts generalizing t with
  | nil => exact ht
  | cons d texts ih =>
    obtain ⟨hn, hv⟩ := h d List.mem_cons_self
    exact ih (ht.define (MacroDefinition.unmarked_ofText hn hv))
      fun e he => h e (List.mem_cons_of_mem _ he)

end MacroTable

/-! ### Uses -/

/-- The arguments of a use are those written, or defaults; what is wrong with them quotes no more
than the name of the macro. -/
theorem completeArguments_cases (name : String) (formals : List FormalArgument)
    (actuals : List String) :
    (∃ args, completeArguments name formals actuals = .ok args ∧
      ∀ a ∈ args, a ∈ actuals ∨ ∃ f ∈ formals, f.default = some a) ∨
    ∃ fault, completeArguments name formals actuals = .error fault ∧ fault.quoted = [name] := by
  rw [completeArguments]
  set given := if formals.isEmpty && actuals == [""] then [] else actuals with hgiven
  have hsub : given ⊆ actuals := by
    rw [hgiven]
    split
    · exact List.nil_subset _
    · exact List.Subset.refl _
  split
  · exact .inr ⟨_, rfl, rfl⟩
  · refine .inl ⟨_, rfl, fun a ha => ?_⟩
    obtain ⟨i, hi, rfl⟩ := List.mem_iff_getElem.mp ha
    simp only [List.length_zipWith, Nat.lt_min] at hi
    rw [List.getElem_zipWith]
    split
    · cases hf : formals[i].default with
      | none => exact .inl (by simpa using hsub (List.getElem_mem hi.1))
      | some s => exact .inr ⟨_, List.getElem_mem hi.2, by simpa using hf⟩
    · exact .inl (hsub (List.getElem_mem hi.1))

namespace Preprocessing

/-- **What expansions are asked for**: expanding an unmarked text writes nothing and gives an
unmarked text. -/
def Expands (expand : Expander) : Prop :=
  ∀ file name text marking, Unmarked (nameText file).toList → Unmarked text.toList →
    Writes marking (expand file name text) fun s => Unmarked s.toList

end Preprocessing

namespace DirectiveText

variable {d : DirectiveText} {t : ParseTree} {marking : Bool} {expand : Expander}

theorem writes_report (hd : d.Unmarked) {fault : DirectiveFault} (token : Option Nat)
    (hf : ∀ s ∈ fault.quoted, Verilog.Unmarked s.toList) :
    Writes marking (d.report fault token) fun _ => True :=
  Preprocessing.writes_report (DirectiveFault.unmarked_diagnostic hf hd.file)

/-- The text of a use before the uses in it are expanded is unmarked, and what is wrong with a use
quotes no more than the name of the macro. -/
theorem substitutedText_cases (hd : d.Unmarked) {m : MacroDefinition} (hm : m.Unmarked) :
    (∃ text, d.substitutedText m t = .ok text ∧ Verilog.Unmarked text.toList) ∨
    ∃ fault, d.substitutedText m t = .error fault ∧ fault.quoted = [m.name] := by
  rw [substitutedText]
  split
  · refine .inl ⟨_, rfl, ?_⟩
    rw [String.toList_append, Verilog.Unmarked.append]
    exact ⟨hm.substitute (by simp), hd.trailingTextOf⟩
  · rename_i formals hformals
    obtain ⟨args, hargs, hmem⟩ | ⟨fault, hfault, hq⟩ :=
      completeArguments_cases m.name formals (d.actualsOf t)
    · refine .inl ⟨m.substitute args, by rw [hargs]; rfl, hm.substitute fun a ha => ?_⟩
      rcases hmem a ha with ha | ⟨f, hf, hfa⟩
      · exact hd.actualsOf a ha
      · exact hm.defaults f (by simpa [hformals] using hf) a hfa
    · exact .inr ⟨fault, by rw [hfault]; rfl, hq⟩

/-- **The text of a macro use** is unmarked. -/
theorem writes_evaluate (hd : d.Unmarked) (he : Expands expand) :
    Writes marking (d.evaluate expand t) Unmarked.InSome := by
  have hreport (fault : DirectiveFault) (h : ∀ s ∈ fault.quoted, Verilog.Unmarked s.toList) :
      Writes marking (do d.report fault t.first?; return none) Unmarked.InSome :=
    (writes_report hd _ h).bind fun _ _ => .pure .none
  rw [evaluate]
  split
  · exact .pure .none
  · rename_i name hname
    have hn := hd.usedName hname
    refine WritesFrom.get.bind fun st hst => ?_
    split
    · exact hreport (.unknownMacro name) (by simpa [DirectiveFault.quoted] using hn)
    · rename_i m hm
      have hm := hst.macros.get hm
      split
      · exact hreport (.recursion name) (by simpa [DirectiveFault.quoted] using hn)
      · obtain ⟨text, htext, hu⟩ | ⟨fault, hfault, hq⟩ := substitutedText_cases (t := t) hd hm
        · simp only [htext]
          exact (he _ _ _ _ hd.file hu).map fun s hs => .some hs
        · simp only [hfault]
          exact hreport fault (by simpa [hq] using hm.name)

end DirectiveText

end Verilog
