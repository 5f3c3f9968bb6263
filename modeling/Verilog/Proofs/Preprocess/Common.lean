import Verilog.Proofs.Preprocess.Abreast

/-!
# What is done with a passage of two texts

Whatever a program does with a passage of one text it does with the same passage of another text,
up to places: the programs go abreast (`Preprocessing.Abreast`). Here this is shown of all that is
done without scanning another text. What holds of expansions is taken along
(`Preprocessing.ExpandersAbreast`), and inclusions are left out.

Where the first text is included and the second one has the same passage in the midst of others,
chains of conditional directives are open around it there that are not open in the included text
(`ChainsWithin`). That is no difference as long as the passage closes no chain but its own.
-/

namespace Verilog

open Preprocessing Step

namespace Preprocessing

/-- **Do two ways to expand go abreast?** Where the files of the uses differ, the first one is to
spare what tells its file. -/
def ExpandersAbreast (c : PeerSetting) (spared : Sparing) (expand₁ expand₂ : Expander) : Prop :=
  ∀ file₁ file₂ name text, file₁ = file₂ ∨ spared file₁ .ppSvFileDirective = true →
    Abreast c.Fails (Peers c) Eq Eq (expand₁ file₁ name text) (expand₂ file₂ name text)

end Preprocessing

/-! ### Chains side by side -/

/-- A chain wherever it begins. -/
def Conditional.unplaced (c : Conditional) : Conditional := { c with line := 0, column := 0 }

/-- **Do the same chains stand open**, on the second side inside of outer ones? Text is active in
the outer ones. -/
structure ChainsWithin (outer cs₁ cs₂ : Conditionals) : Prop where
  frames : cs₂.map Conditional.unplaced = (cs₁ ++ outer).map Conditional.unplaced
  active : Conditionals.active outer = true

namespace ChainsWithin

variable {outer cs₁ cs₂ : Conditionals}

theorem active_eq (h : ChainsWithin outer cs₁ cs₂) :
    Conditionals.active cs₁ = Conditionals.active cs₂ := by
  have hactive (cs : Conditionals) : Conditionals.active cs =
      (cs.map Conditional.unplaced).head?.all (·.active) := by
    rw [Conditionals.active, List.head?_map, Option.all_map]
    rfl
  rw [hactive cs₂, h.frames, ← hactive]
  cases cs₁ with
  | nil => exact h.active.symm
  | cons c cs => rfl

theorem openChain (h : ChainsWithin outer cs₁ cs₂) (test : Bool)
    (line₁ column₁ line₂ column₂ : Nat) :
    ChainsWithin outer (Conditionals.openChain cs₁ test line₁ column₁)
      (Conditionals.openChain cs₂ test line₂ column₂) := by
  refine ⟨?_, h.active⟩
  rw [Conditionals.openChain, Conditionals.openChain, h.active_eq, List.cons_append, List.map_cons,
    List.map_cons, h.frames]
  rfl

/-- Where a chain is open on the first side, it is the innermost one on both. -/
theorem exists_cons (h : ChainsWithin outer cs₁ cs₂) (hne : cs₁ ≠ []) : ∃ c₁ c₂ more₁ more₂,
    cs₁ = c₁ :: more₁ ∧ cs₂ = c₂ :: more₂ ∧ c₂.unplaced = c₁.unplaced ∧
      ChainsWithin outer more₁ more₂ := by
  obtain ⟨c₁, more₁, rfl⟩ := List.exists_cons_of_ne_nil hne
  obtain ⟨hframes, hactive⟩ := h
  rw [List.cons_append, List.map_cons] at hframes
  obtain ⟨c₂, more₂, rfl, hc, hmore⟩ := List.map_eq_cons_iff.mp hframes
  exact ⟨c₁, c₂, more₁, more₂, rfl, rfl, hc, hmore, hactive⟩

theorem eq_nil (h : ChainsWithin [] [] cs₂) : cs₂ = [] := by
  simpa using h.frames

theorem length_eq (h : ChainsWithin [] cs₁ cs₂) : cs₁.length = cs₂.length := by
  simpa using (congrArg List.length h.frames).symm

end ChainsWithin

/-- The number of chains that are open behind a directive. -/
def chainsBehind (n : Nat) : NodeKind → Nat
  | .ppIfdefDirective | .ppIfndefDirective => n + 1
  | .ppEndifDirective => n - 1
  | _ => n

/-! ### Conditional directives and macros -/

namespace DirectiveText

variable {c : PeerSetting} {d₁ d₂ : DirectiveText} {t₁ t₂ : ParseTree}

theorem abreast_report (fault : DirectiveFault) (token₁ token₂ : Option Nat) :
    Abreast c.Fails (Peers c) Eq (fun _ _ => True) (d₁.report fault token₁)
      (d₂.report fault token₂) :=
  Preprocessing.abreast_report _ _ _

/-- Both sides step to another branch of the innermost chain, or close it, or report that there is
none. -/
theorem abreast_stepOn (next : Conditionals → Option Conditionals)
    {outer cs₁ cs₂ : Conditionals} {n : Nat} (h : ChainsWithin outer cs₁ cs₂)
    (hopen : cs₁ ≠ [] ∨ outer = []) (hnil : next [] = none) (hn : cs₁ = [] → n = 0)
    (hlength : ∀ cs, next cs₁ = some cs → cs.length = n)
    (hcons : ∀ c₁ c₂ more₁ more₂, c₂.unplaced = c₁.unplaced → ChainsWithin outer more₁ more₂ →
      ∃ cs₁ cs₂, next (c₁ :: more₁) = some cs₁ ∧ next (c₂ :: more₂) = some cs₂ ∧
        ChainsWithin outer cs₁ cs₂)
    (fault : DirectiveFault) (token₁ token₂ : Option Nat) :
    Abreast c.Fails (Peers c) Eq
      (fun next₁ next₂ => ChainsWithin outer next₁ next₂ ∧ next₁.length = n)
      (match next cs₁ with
        | some next => pure next
        | none => do d₁.report fault token₁; pure cs₁ : Preprocessing Conditionals)
      (match next cs₂ with
        | some next => pure next
        | none => do d₂.report fault token₂; pure cs₂ : Preprocessing Conditionals) := by
  by_cases hne : cs₁ = []
  · obtain rfl := hopen.resolve_left (not_not_intro hne)
    subst hne
    obtain rfl := h.eq_nil
    rw [hnil]
    exact (abreast_report fault token₁ token₂).bind joins_eq fun _ _ _ =>
      .pure joins_eq ⟨h, (hn rfl).symm⟩
  · obtain ⟨c₁, c₂, more₁, more₂, rfl, rfl, hc, hmore⟩ := h.exists_cons hne
    obtain ⟨cs₁, cs₂, h₁, h₂, hnext⟩ := hcons c₁ c₂ more₁ more₂ hc hmore
    rw [h₁, h₂]
    exact .pure joins_eq ⟨hnext, hlength cs₁ h₁⟩

theorem abreast_stepConditions (h : SamePassage d₁ d₂ t₁ t₂) {kind : NodeKind}
    (hk : isConditional kind = true) {outer cs₁ cs₂ : Conditionals}
    (hcs : ChainsWithin outer cs₁ cs₂)
    (hopen : (strayFault? kind).isSome → cs₁ ≠ [] ∨ outer = []) :
    Abreast c.Fails (Peers c) Eq (fun next₁ next₂ => ChainsWithin outer next₁ next₂ ∧
        next₁.length = chainsBehind cs₁.length kind)
      (d₁.stepConditions kind t₁ cs₁) (d₂.stepConditions kind t₂ cs₂) := by
  rw [stepConditions, stepConditions, h.macroNameOf]
  refine .look fun st₁ st₂ hst => ?_
  rw [hst.macros.contains]
  have hframe {c₁ c₂ : Conditional} (hc : c₂.unplaced = c₁.unplaced) :
      c₂.outerActive = c₁.outerActive ∧ c₂.branchTaken = c₁.branchTaken := by
    simp only [Conditional.unplaced, Conditional.mk.injEq] at hc
    exact ⟨hc.1, hc.2.1⟩
  cases kind with
  | ppIfdefDirective => exact .pure joins_eq ⟨hcs.openChain _ _ _ _ _, rfl⟩
  | ppIfndefDirective => exact .pure joins_eq ⟨hcs.openChain _ _ _ _ _, rfl⟩
  | ppElsifDirective =>
    refine abreast_stepOn (·.nextBranch? _) hcs (hopen rfl) rfl (by rintro rfl; rfl)
      (fun cs hnext => ?_) (fun c₁ c₂ more₁ more₂ hc hmore => ⟨_, _, rfl, rfl, ?_, hmore.active⟩)
      _ _ _
    · cases cs₁ <;> cases hnext
      rfl
    · simp [Conditional.unplaced, hframe hc, hmore.frames]
  | ppElseDirective =>
    refine abreast_stepOn Conditionals.lastBranch? hcs (hopen rfl) rfl
      (by rintro rfl; rfl) (fun cs hnext => ?_)
      (fun c₁ c₂ more₁ more₂ hc hmore => ⟨_, _, rfl, rfl, ?_, hmore.active⟩) _ _ _
    · cases cs₁ <;> cases hnext
      rfl
    · simp [Conditional.unplaced, hframe hc, hmore.frames]
  | ppEndifDirective =>
    refine abreast_stepOn Conditionals.closeChain? hcs (hopen rfl) rfl
      (by rintro rfl; rfl) (fun cs hnext => ?_)
      (fun c₁ c₂ more₁ more₂ _ hmore => ⟨_, _, rfl, rfl, hmore⟩) _ _ _
    cases cs₁ <;> cases hnext
    rfl
  | _ => exact absurd hk (by decide)

/-- Macros are changed on both sides. -/
theorem abreast_modifyMacros {f g : MacroTable → MacroTable}
    (h : ∀ m₁ m₂, c.macros.Tables m₁ m₂ → c.macros.Tables (f m₁) (g m₂)) :
    Abreast c.Fails (Peers c) Eq (fun _ _ => True) (modifyMacros f) (modifyMacros g) :=
  .modify joins_eq (fun _ _ hst => ⟨hst.session₁, hst.session₂, hst.reports, h _ _ hst.macros,
    hst.expanding, hst.including₁, hst.including₂⟩) (fun _ => rfl) fun _ => rfl

theorem abreast_define (h : SamePassage d₁ d₂ t₁ t₂) (node₁ node₂ : NodeId) :
    Abreast c.Fails (Peers c) Eq (fun _ _ => True) (d₁.define node₁ t₁) (d₂.define node₂ t₂) := by
  rw [define, define, h.macroNameOf]
  cases d₂.macroNameOf t₂ with
  | none => exact .pure joins_eq trivial
  | some name =>
    dsimp only
    split
    · exact abreast_report _ _ _
    · have hdefinition : c.macros.Rel (d₁.definitionOf name node₁ t₁)
          (d₂.definitionOf name node₂ t₂) := c.macros.of_unsited (h.definitionOf name node₁ node₂)
      have hdefine : Abreast c.Fails (Peers c) Eq (fun _ _ => True)
          (modifyMacros (·.define (d₁.definitionOf name node₁ t₁)))
          (modifyMacros (·.define (d₂.definitionOf name node₂ t₂))) :=
        abreast_modifyMacros fun _ _ hm => hm.define hdefinition
      refine .look fun st₁ st₂ hst => ?_
      have hfound := hst.macros.get? name
      have hredefines : (st₁.macros.get? name).any (redefines · (d₁.definitionOf name node₁ t₁)) =
          (st₂.macros.get? name).any (redefines · (d₂.definitionOf name node₂ t₂)) := by
        generalize st₁.macros.get? name = m₁, st₂.macros.get? name = m₂ at hfound ⊢
        cases hfound with
        | none => rfl
        | some hm => exact redefines_of_alike (c.macros.alike hm) (c.macros.alike hdefinition)
      rw [hredefines]
      split
      · exact (abreast_report _ _ _).bind joins_eq fun _ _ _ => hdefine
      · exact hdefine

theorem abreast_undefine (h : SamePassage d₁ d₂ t₁ t₂) :
    Abreast c.Fails (Peers c) Eq (fun _ _ => True) (d₁.undefine t₁) (d₂.undefine t₂) := by
  rw [undefine, undefine, h.macroNameOf]
  refine .look fun st₁ st₂ hst => ?_
  rw [hst.macros.contains]
  split
  · exact abreast_modifyMacros fun _ _ hm => hm.undefine _
  · exact abreast_report _ _ _

/-! ### Macro uses -/

section

variable {spared : Sparing} {expand₁ expand₂ : Expander}

/-- **A macro use** gives the same text on both sides, or none. -/
theorem abreast_evaluate (h : SamePassage d₁ d₂ t₁ t₂)
    (hfile : d₁.file = d₂.file ∨ spared d₁.file .ppSvFileDirective = true)
    (he : ExpandersAbreast c spared expand₁ expand₂) :
    Abreast c.Fails (Peers c) Eq Eq (d₁.evaluate expand₁ t₁) (d₂.evaluate expand₂ t₂) := by
  have hrefuse (fault : DirectiveFault) : Abreast c.Fails (Peers c) Eq Eq
      (do d₁.report fault t₁.first?; return none : Preprocessing (Option String))
      (do d₂.report fault t₂.first?; return none : Preprocessing (Option String)) :=
    (abreast_report _ _ _).bind joins_eq fun _ _ _ => .pure joins_eq rfl
  rw [evaluate, evaluate, h.usedName]
  cases d₂.usedName t₂ with
  | none => exact .pure joins_eq rfl
  | some name =>
    refine .look fun st₁ st₂ hst => ?_
    have hfound := hst.macros.get? name
    rw [hst.expanding]
    generalize st₁.macros.get? name = m₁, st₂.macros.get? name = m₂ at hfound ⊢
    cases hfound with
    | none => exact hrefuse _
    | @some m₁ m₂ hm =>
      dsimp only
      split
      · exact hrefuse _
      · rw [h.substitutedText (c.macros.alike hm)]
        cases d₂.substitutedText m₂ t₂ with
        | error fault => exact hrefuse fault
        | ok text =>
          dsimp only
          rw [map_eq_pure_bind, map_eq_pure_bind]
          exact (he _ _ name text hfile).bind joins_eq fun s s' hs => .pure joins_eq (hs ▸ rfl)

theorem abreast_includedName (h : SamePassage d₁ d₂ t₁ t₂)
    (hfile : d₁.file = d₂.file ∨ spared d₁.file .ppSvFileDirective = true)
    (he : ExpandersAbreast c spared expand₁ expand₂) :
    Abreast c.Fails (Peers c) Eq Eq (d₁.includedName expand₁ t₁) (d₂.includedName expand₂ t₂) := by
  have hfind := find_passages h.children (isNode_of_kind .ppString)
  have huse := find_passages h.children (p := fun c => c.kind?.any (·.isMacroUse))
    fun t u hk => by rw [hk]
  unfold includedName ParseTree.find?
  dsimp only
  generalize t₁.children.find? (·.isNode .ppString) = r₁,
    t₂.children.find? (·.isNode .ppString) = r₂ at hfind ⊢
  cases hfind with
  | some hu =>
    dsimp only
    rw [hu.textOf]
    exact .pure joins_eq rfl
  | none =>
    generalize t₁.children.find? (fun c => c.kind?.any (·.isMacroUse)) = r₁,
      t₂.children.find? (fun c => c.kind?.any (·.isMacroUse)) = r₂ at huse ⊢
    cases huse with
    | none => exact .pure joins_eq rfl
    | some hu =>
      exact (abreast_evaluate hu hfile he).bind joins_eq fun _ _ htext =>
        .pure joins_eq (htext ▸ rfl)

theorem abreast_doUse (h : SamePassage d₁ d₂ t₁ t₂)
    (hfile : d₁.file = d₂.file ∨ spared d₁.file .ppSvFileDirective = true)
    (he : ExpandersAbreast c spared expand₁ expand₂) (active : Bool) (node₁ node₂ : NodeId) :
    Abreast c.Fails (Peers c) Eq (fun _ _ => True) (d₁.doUse expand₁ active t₁ node₁)
      (d₂.doUse expand₂ active t₂ node₂) := by
  rw [doUse, doUse]
  split
  · refine (abreast_evaluate h hfile he).bind joins_eq fun text _ htext => ?_
    subst htext
    have hlead : Abreast c.Fails (Peers c) Eq (fun _ _ => True)
        (modify fun st =>
          let definition := (((d₁.usedName t₁).bind st.macros.get?).map (·.node)).getD 0
          { st with nodes := st.nodes.modify node₁ fun n => { n with definition } })
        (modify fun st =>
          let definition := (((d₂.usedName t₂).bind st.macros.get?).map (·.node)).getD 0
          { st with nodes := st.nodes.modify node₂ fun n => { n with definition } }) :=
      .modify joins_eq (fun _ _ hst => hst.of_eq rfl rfl rfl rfl rfl rfl rfl rfl) (fun _ => rfl)
        fun _ => rfl
    refine Abreast.bind (Q := fun _ _ => True) joins_eq ?_ fun _ _ _ => hlead
    cases text with
    | none => exact .pure joins_eq trivial
    | some text => exact abreast_emit _
  · exact .pure joins_eq trivial

end

/-! ### Lines and settings -/

/-- What two texts are to tell alike of their lines: their file, and their numbers? -/
structure Telling where
  file : Bool
  line : Bool

/-- **Are what two scans keep alike?** The same chains are open, up to outer ones, and if it
matters, the lines of the texts count as lines of the same file, or so many lines further on. -/
structure ScopesAlike (outer : Conditionals) (telling : Telling) (d₁ d₂ : DirectiveText)
    (scope₁ scope₂ : ScanScope) : Prop where
  conditions : ChainsWithin outer scope₁.conditions scope₂.conditions
  file : telling.file = true →
    (scope₁.sourcePlace d₁.file 0).1 = (scope₂.sourcePlace d₂.file 0).1
  line : telling.line = true → scope₁.origin.map (·.2) = scope₂.origin.map (·.2)

variable {outer : Conditionals} {telling : Telling} {scope₁ scope₂ : ScanScope}

/-- The numbers of the same line are told alike. -/
theorem ScopesAlike.sourcePlace_line (hs : ScopesAlike outer telling d₁ d₂ scope₁ scope₂)
    (h : telling.line = true) (line : Nat) :
    (scope₁.sourcePlace d₁.file line).2 = (scope₂.sourcePlace d₂.file line).2 := by
  have horigin := hs.line h
  rw [ScanScope.sourcePlace, ScanScope.sourcePlace]
  generalize scope₁.origin = r₁, scope₂.origin = r₂ at horigin
  rcases r₁ with _ | ⟨file₁, delta₁⟩ <;> rcases r₂ with _ | ⟨file₂, delta₂⟩
  · rfl
  · cases horigin
  · cases horigin
  · obtain rfl : delta₁ = delta₂ := Option.some.inj horigin
    rfl

theorem abreast_renumber (h : SamePassage d₁ d₂ t₁ t₂)
    (hrange : telling.line = true → d₁.rangeOf t₁ = d₂.rangeOf t₂)
    (hs : ScopesAlike outer telling d₁ d₂ scope₁ scope₂) :
    Abreast c.Fails (Peers c) Eq (fun next₁ next₂ => ScopesAlike outer telling d₁ d₂ next₁ next₂ ∧
        next₁.conditions = scope₁.conditions)
      (d₁.renumber scope₁ t₁) (d₂.renumber scope₂ t₂) := by
  have hrefuse (fault : DirectiveFault) :
      Abreast c.Fails (Peers c) Eq (fun next₁ next₂ => ScopesAlike outer telling d₁ d₂ next₁ next₂ ∧
          next₁.conditions = scope₁.conditions)
        (do d₁.report fault t₁.first?; return scope₁ : Preprocessing ScanScope)
        (do d₂.report fault t₂.first?; return scope₂ : Preprocessing ScanScope) :=
    (abreast_report _ _ _).bind joins_eq fun _ _ _ => .pure joins_eq ⟨hs, rfl⟩
  have hquoted := h.quoted
  unfold renumber
  dsimp only
  rw [h.numbers]
  generalize t₁.find? .ppString = r₁, t₂.find? .ppString = r₂,
    ((t₂.children.filter (·.isNode .ppNumber)).map fun n =>
      readUnsigned 10 32 (d₂.textOf n).toList) = numbers at hquoted ⊢
  match r₁, r₂, hquoted with
  | none, none, _ =>
    split
    · contradiction
    · exact hrefuse _
  | some path₁, some path₂, hquoted =>
    have hpath : d₁.textOf path₁ = d₂.textOf path₂ := Option.some.inj hquoted
    split
    · rename_i heq
      obtain rfl := Option.some.inj heq
      split
      · exact hrefuse _
      · rw [hpath]
        refine .look fun st₁ st₂ _ => ?_
        refine Abreast.bind (Q := fun _ _ => True) joins_eq (.modify joins_eq
          (fun _ _ hst => hst.of_eq rfl rfl rfl rfl rfl rfl rfl rfl) (fun _ => rfl)
          fun _ => rfl) fun _ _ _ => .pure joins_eq ⟨⟨hs.conditions, fun _ => rfl, fun hline => ?_⟩,
            rfl⟩
        rw [hrange hline]
    · rename_i hnot
      split
      · exact (hnot _ _ _ _ rfl rfl).elim
      · exact hrefuse _

theorem abreast_changeSettings (hr : d₁.recording = d₂.recording)
    (f : DirectiveState → DirectiveState) : Abreast c.Fails (Peers c) Eq (fun _ _ => True)
      (d₁.changeSettings f) (d₂.changeSettings f) := by
  rw [changeSettings, changeSettings, hr]
  split
  · exact .modify joins_eq (fun _ _ hst => hst.of_eq rfl rfl rfl rfl rfl rfl rfl rfl) (fun _ => rfl)
      fun _ => rfl
  · exact .pure joins_eq trivial

theorem abreast_setTimeScale (h : SamePassage d₁ d₂ t₁ t₂) (hr : d₁.recording = d₂.recording) :
    Abreast c.Fails (Peers c) Eq (fun _ _ => True) (d₁.setTimeScale t₁) (d₂.setTimeScale t₂) := by
  unfold setTimeScale
  rw [h.textBehind]
  dsimp only
  split
  · exact abreast_changeSettings hr _
  · exact abreast_report _ _ _

theorem abreast_setNetType (h : SamePassage d₁ d₂ t₁ t₂) (hr : d₁.recording = d₂.recording) :
    Abreast c.Fails (Peers c) Eq (fun _ _ => True) (d₁.setNetType t₁) (d₂.setNetType t₂) := by
  unfold setNetType
  rw [h.macroNameOf]
  dsimp only
  split
  · exact abreast_changeSettings hr _
  · exact abreast_report _ _ _

/-! ### Directives -/

section

variable {expand₁ expand₂ : Expander} {includer₁ includer₂ : Includer}

/-- **A directive in active text** does the same on both sides, unless it includes a file; and where
it tells the file or line, the lines must count as lines of the same file or as the same lines. -/
theorem abreast_act (h : SamePassage d₁ d₂ t₁ t₂) (hr : d₁.recording = d₂.recording)
    (hrange : telling.line = true → d₁.rangeOf t₁ = d₂.rangeOf t₂)
    (hs : ScopesAlike outer telling d₁ d₂ scope₁ scope₂) {kind : NodeKind}
    (hinclude : kind = .ppIncludeDirective → d₂.recording = false)
    (hline : kind = .ppSvLineDirective → telling.line = true)
    (hfile : kind = .ppSvFileDirective → telling.file = true)
    (node₁ node₂ : NodeId) :
    Abreast c.Fails (Peers c) Eq (fun next₁ next₂ => ScopesAlike outer telling d₁ d₂ next₁ next₂ ∧
        next₁.conditions = scope₁.conditions)
      (d₁.act expand₁ includer₁ scope₁ kind node₁ t₁)
      (d₂.act expand₂ includer₂ scope₂ kind node₂ t₂) := by
  have hreturn {x y : Preprocessing Unit}
      (hxy : Abreast c.Fails (Peers c) Eq (fun _ _ => True) x y) :
      Abreast c.Fails (Peers c) Eq (fun next₁ next₂ => ScopesAlike outer telling d₁ d₂ next₁ next₂ ∧
        next₁.conditions = scope₁.conditions) (do x; return scope₁) (do y; return scope₂) :=
    hxy.bind joins_eq fun _ _ _ => .pure joins_eq ⟨hs, rfl⟩
  unfold act
  split
  · exact hreturn (abreast_undefine h)
  · exact hreturn (abreast_modifyMacros fun _ _ _ => MacroLikeness.tables_empty)
  · have hr₂ := hinclude rfl
    rw [includeFile, includeFile, hr, hr₂]
    exact hreturn (.pure joins_eq trivial)
  · exact abreast_renumber h hrange hs
  · exact hreturn (abreast_setTimeScale h hr)
  · exact hreturn (abreast_setNetType h hr)
  · exact hreturn (abreast_changeSettings hr _)
  · dsimp only
    rw [hs.file (hfile rfl)]
    exact hreturn (abreast_emit _)
  · dsimp only
    rw [hrange (hline rfl), hs.sourcePlace_line (hline rfl)]
    exact hreturn (abreast_emit _)
  · split
    · exact hreturn (abreast_define h node₁ node₂)
    · exact .pure joins_eq ⟨hs, rfl⟩

/-- **What a directive does** between its marks. In inactive text only the conditional ones do
something, and a chain that is gone on with or closed has to be one of the passage. -/
theorem abreast_doDirective (h : SamePassage d₁ d₂ t₁ t₂) (hr : d₁.recording = d₂.recording)
    (hrange : telling.line = true → d₁.rangeOf t₁ = d₂.rangeOf t₂)
    (hs : ScopesAlike outer telling d₁ d₂ scope₁ scope₂) {kind : NodeKind}
    (hopen : (strayFault? kind).isSome → scope₁.conditions ≠ [] ∨ outer = [])
    (hactive : scope₁.conditions.active = true →
      (kind = .ppIncludeDirective → d₂.recording = false) ∧
        (kind = .ppSvLineDirective → telling.line = true) ∧
        (kind = .ppSvFileDirective → telling.file = true))
    (node₁ node₂ : NodeId) :
    Abreast c.Fails (Peers c) Eq (fun next₁ next₂ => ScopesAlike outer telling d₁ d₂ next₁ next₂ ∧
        next₁.conditions.length = chainsBehind scope₁.conditions.length kind)
      (d₁.doDirective expand₁ includer₁ scope₁ kind t₁ node₁)
      (d₂.doDirective expand₂ includer₂ scope₂ kind t₂ node₂) := by
  rw [doDirective, doDirective]
  split
  · rename_i hk
    exact (abreast_stepConditions h hk hs.conditions hopen).bind joins_eq fun _ _ hnext =>
      .pure joins_eq ⟨⟨hnext.1, hs.file, hs.line⟩, hnext.2⟩
  · rename_i hk
    have hbehind (n : Nat) : chainsBehind n kind = n := by
      unfold chainsBehind
      split <;> first | rfl | exact absurd rfl hk
    rw [hbehind, ← hs.conditions.active_eq]
    split
    · rename_i hact
      obtain ⟨hinclude, hline, hfile⟩ := hactive hact
      exact (abreast_act h hr hrange hs hinclude hline hfile node₁ node₂).mono fun _ _ hnext =>
        ⟨hnext.1, congrArg List.length hnext.2⟩
    · exact .pure joins_eq ⟨hs, rfl⟩

end

/-! ### Tokens and ends -/

/-- **A token** is copied on both sides. -/
theorem abreast_copyToken {i j : Nat} (h : d₁.sign? i = d₂.sign? j)
    (hactive : scope₁.conditions.active = scope₂.conditions.active) :
    Abreast c.Fails (Peers c) Eq (fun _ _ => True) (d₁.copyToken scope₁ i)
      (d₂.copyToken scope₂ j) := by
  rw [sign?, sign?] at h
  rw [copyToken, copyToken, hactive]
  generalize d₁.tokens[i]? = r₁, d₂.tokens[j]? = r₂ at h ⊢
  rcases r₁ with _ | token₁ <;> rcases r₂ with _ | token₂
  · exact .pure joins_eq trivial
  · cases h
  · cases h
  · obtain ⟨hkind, htext⟩ := Prod.mk.inj (Option.some.inj h)
    dsimp only
    rw [hkind, htext, Token.newlineCount, Token.newlineCount, htext]
    split
    · split
      · exact (abreast_report _ _ _).bind joins_eq fun _ _ _ => abreast_emit _
      · exact abreast_emit _
    · split
      · exact abreast_emit _
      · split
        · exact abreast_emit _
        · exact abreast_emit _

/-- The chains that are left open are reported on both sides, wherever they begin. -/
theorem abreast_reportOpenChains (hr : d₁.recording = d₂.recording) {cs₁ cs₂ : Conditionals}
    (h : cs₁.length = cs₂.length) : Abreast c.Fails (Peers c) Eq (fun _ _ => True)
      (d₁.reportOpenChains cs₁) (d₂.reportOpenChains cs₂) := by
  rw [reportOpenChains, reportOpenChains, hr]
  split
  · refine .forM (A := fun _ _ => True) joins_eq
      (fun _ _ _ => Preprocessing.abreast_report _ _ _) ?_
    rw [List.forall₂_iff_zip]
    exact ⟨by simpa using h, fun _ => trivial⟩
  · exact .pure joins_eq trivial

/-! ### Pieces -/

/-- Do the marks of two pieces go abreast? -/
structure MarksAbreast (E : Failing) (R : PreprocessState → PreprocessState → Prop)
    (T : List Char → List Char → Prop) (d₁ d₂ : DirectiveText) (t₁ t₂ : ParseTree) : Prop where
  opens : ∀ marked, Abreast E R T (fun _ _ => True) (d₁.openMarks marked t₁)
    (d₂.openMarks marked t₂)
  closes : ∀ marked node₁ node₂, Abreast E R T (fun _ _ => True) (d₁.closeMarks marked node₁ t₁)
    (d₂.closeMarks marked node₂ t₂)

section

variable {E : Failing} {R : PreprocessState → PreprocessState → Prop}
  {T : List Char → List Char → Prop} {expand₁ expand₂ : Expander} {includer₁ includer₂ : Includer}

theorem MarksAbreast.between {α β : Type} {Q : α → β → Prop} (hT : Joins T)
    (hm : MarksAbreast E R T d₁ d₂ t₁ t₂) (marked : Bool) {inner₁ : NodeId → Preprocessing α}
    {inner₂ : NodeId → Preprocessing β}
    (h : ∀ node₁ node₂, Abreast E R T Q (inner₁ node₁) (inner₂ node₂)) :
    Abreast E R T Q
      (do
        let node ← d₁.openMarks marked t₁
        let a ← inner₁ node
        d₁.closeMarks marked node t₁
        return a)
      (do
        let node ← d₂.openMarks marked t₂
        let a ← inner₂ node
        d₂.closeMarks marked node t₂
        return a) :=
  (hm.opens marked).bind hT fun node₁ node₂ _ => (h node₁ node₂).bind hT fun _ _ hab =>
    (hm.closes marked node₁ node₂).bind hT fun _ _ _ => .pure hT hab

/-- **One piece**: it is copied, or what it does is done between its marks. -/
theorem abreast_scanPiece {Q : ScanScope → ScanScope → Prop} (hT : Joins T)
    (h : SamePassage d₁ d₂ t₁ t₂) (hm : MarksAbreast E R T d₁ d₂ t₁ t₂)
    (hactive : scope₁.conditions.active = scope₂.conditions.active)
    (hQ : t₁.kind?.any (·.isDirective) = false → Q scope₁ scope₂)
    (hcopy : ∀ i j, d₁.sign? i = d₂.sign? j →
      Abreast E R T (fun _ _ => True) (d₁.copyToken scope₁ i) (d₂.copyToken scope₂ j))
    (hdo : ∀ kind, t₁.kind? = some kind → ∀ node₁ node₂, Abreast E R T Q
      (d₁.doDirective expand₁ includer₁ scope₁ kind t₁ node₁)
      (d₂.doDirective expand₂ includer₂ scope₂ kind t₂ node₂))
    (huse : ∀ node₁ node₂, Abreast E R T (fun _ _ => True)
      (d₁.doUse expand₁ scope₂.conditions.active t₁ node₁)
      (d₂.doUse expand₂ scope₂.conditions.active t₂ node₂)) :
    Abreast E R T Q (d₁.scanPiece expand₁ includer₁ scope₁ t₁)
      (d₂.scanPiece expand₂ includer₂ scope₂ t₂) := by
  have hkind := h.kind
  cases t₁ with
  | leaf i =>
    cases t₂ with
    | leaf j => exact (hcopy i j h.leaf).bind hT fun _ _ _ => .pure hT (hQ rfl)
    | node kind us => cases hkind
  | node kind ts =>
    cases t₂ with
    | leaf j => cases hkind
    | node kind₂ us =>
      obtain rfl : kind = kind₂ := Option.some.inj hkind
      unfold scanPiece
      dsimp only
      split
      · rw [scanDirective_eq, scanDirective_eq]
        exact hm.between hT true (hdo kind rfl)
      · rename_i hnot
        have hQ := hQ (eq_false_of_ne_true hnot)
        split
        · rw [scanUse_eq, scanUse_eq, hactive]
          exact (hm.between hT _ huse).bind hT fun _ _ _ => .pure hT hQ
        · have hsigns : List.Forall₂ (fun i j => d₁.sign? i = d₂.sign? j)
              (ParseTree.leavesAll ts) (ParseTree.leavesAll us) := by
            have hmap := h.signs
            rwa [← List.forall₂_eq_eq_eq, List.forall₂_map_left_iff, List.forall₂_map_right_iff]
              at hmap
          exact (Abreast.forM hT hcopy hsigns).bind hT fun _ _ _ => .pure hT hQ

end

end DirectiveText

/-! ### Expansions -/

namespace DirectiveText

variable {c : PeerSetting} {spared : Sparing} {expand₁ expand₂ : Expander}
  {includer₁ includer₂ : Includer}

/-- The text of a macro has no marks. -/
theorem marksAbreast_expansion {d₁ d₂ : DirectiveText} {t₁ t₂ : ParseTree}
    (h : SamePassage d₁ d₂ t₁ t₂) (hr₁ : d₁.recording = false) (hr₂ : d₂.recording = false) :
    MarksAbreast c.Fails (Peers c) Eq d₁ d₂ t₁ t₂ where
  opens marked := by
    rw [openMarks, openMarks, hr₁, hr₂]
    exact .pure joins_eq trivial
  closes marked node₁ node₂ := by
    rw [closeMarks, closeMarks, hr₁, hr₂, Bool.and_false, h.newlinesIn]
    exact (abreast_emit _).bind joins_eq fun _ _ _ => .pure joins_eq trivial

/-- **The text of a macro** is scanned with the same outcome on both sides: its lines are counted
from its own beginning. -/
theorem abreast_scanSparing (text : String) {file₁ file₂ : Option String}
    (hfile : file₁ = file₂ ∨ spared file₁ .ppSvFileDirective = true)
    (he : ExpandersAbreast c spared expand₁ expand₂) :
    Abreast c.Fails (Peers c) Eq (fun _ _ => True)
      ((DirectiveText.ofText text file₁ 0 false).scanSparing spared expand₁ includer₁)
      ((DirectiveText.ofText text file₂ 0 false).scan expand₂ includer₂) := by
  set d₁ := DirectiveText.ofText text file₁ 0 false
  set d₂ := DirectiveText.ofText text file₂ 0 false
  have hpassage (t : ParseTree) : SamePassage d₁ d₂ t t := .of_tokens rfl t
  let V (_ : List ParseTree) := ScopesAlike [] ⟨decide (file₁ = file₂), true⟩ d₁ d₂
  have hpiece (t u : ParseTree) (ts : List ParseTree) (scope₁ scope₂ : ScanScope) (htu : t = u)
      (hs : V (t :: ts) scope₁ scope₂) : Abreast c.Fails (Peers c) Eq (V ts)
        (d₁.pieceSparing spared expand₁ includer₁ scope₁ t)
        (d₂.scanPiece expand₂ includer₂ scope₂ u) := by
    subst htu
    rw [pieceSparing]
    split
    · exact .lapses
    · rename_i hspared
      refine abreast_scanPiece joins_eq (hpassage t) (marksAbreast_expansion (hpassage t) rfl rfl)
        hs.conditions.active_eq (fun _ => hs)
        (fun _ _ hij => abreast_copyToken hij hs.conditions.active_eq) (fun kind hkind _ _ => ?_)
        fun _ _ => abreast_doUse (hpassage t) hfile he _ _ _
      refine (abreast_doDirective (hpassage t) rfl (fun _ => rfl) hs (fun _ => .inr rfl)
        (fun hactive => ?_) _ _).mono fun _ _ hnext => hnext.1
      rw [hactive, hkind, Bool.true_and] at hspared
      refine ⟨fun _ => rfl, fun _ => rfl, fun h => ?_⟩
      exact decide_eq_true (hfile.resolve_right fun h' => hspared (h ▸ h'))
  have hstart : V d₁.pieces {} {} := ⟨⟨rfl, rfl⟩, of_decide_eq_true, fun _ => rfl⟩
  refine (Abreast.foldlM joins_eq hpiece (List.forall₂_same.mpr fun _ _ => rfl) hstart).bind
    joins_eq fun scope₁ scope₂ hs => ?_
  have hrecording : d₁.recording = d₂.recording := rfl
  exact abreast_reportOpenChains hrecording hs.conditions.length_eq

end DirectiveText

/-- **Expansions go abreast**, however deep they nest. -/
theorem expandersAbreast {c : PeerSetting} {spared : Sparing} (depth : Nat) :
    ExpandersAbreast c spared (expandSparing spared depth) (expandWithin depth) := by
  induction depth with
  | zero => exact fun _ _ _ _ _ => .pure joins_eq rfl
  | succ depth ih =>
    intro file₁ file₂ name text hfile
    rw [expandSparing, expandWithin]
    dsimp only
    split
    · exact (DirectiveText.abreast_scanSparing text hfile ih).apart name
    · exact .pure joins_eq rfl

end Verilog
