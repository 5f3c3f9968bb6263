import Verilog.Proofs.Grammar.Settled
import Verilog.Proofs.Grammar.Yields
import Verilog.Proofs.Source.Grammar
import Verilog.Source.Grammar.Text
import Verilog.Syntax.Name

/-!
# How declarations open

Modules, interfaces and primitives open with the word that says what they are, and a declared net or
variable with its name. So in a tree of source text the first part of such a node is known
(`SourceGrammar.opened_parse`).
-/

namespace Verilog

/-- The kind of the first part of a node, for the kinds of nodes that all open with the same one. -/
def NodeKind.opening? : NodeKind → Option NodeKind
  | .paModuleDeclaration => some .paModuleKeyword
  | .paInterfaceDeclaration => some .paInterface
  | .paUdpDeclaration => some .paPrimitive
  | .paNetDeclAssignment | .paVariableDeclAssignment => some .slStringConst
  | _ => none

/-- Is a tree a node of a kind, or a token that is a leaf of that kind? -/
def ParseTree.IsOf (tokens : List (Nat × SourceKind)) (k : NodeKind) : ParseTree → Prop
  | leaf i => ∃ s, (i, s) ∈ tokens ∧ s.leafKind? = some k
  | node k' _ => k' = k

/-- Is the first part of a node as its kind says? -/
def ParseTree.Opened (tokens : List (Nat × SourceKind)) (kind : NodeKind) (ts : List ParseTree) :
    Prop :=
  ∀ k, kind.opening? = some k → ∃ t us, ts = t :: us ∧ t.IsOf tokens k

open ParseTree

namespace SourceGrammar

open Grammar

variable {tokens : List (Nat × SourceKind)} {kind k : NodeKind} {g : SourceGrammar}

/-- Does all that a grammar makes open with a node or a leaf of a kind? -/
def OpensWith (k : NodeKind) : SourceGrammar → Prop
  | .token s => s.leafKind? = some k
  | .tokenIn p => ∀ s, p s → s.leafKind? = some k
  | .node k' _ => k' = k
  | .seq a _ => OpensWith k a
  | _ => False

theorem opens_yields {ts : List ParseTree} (h : Yields rules tokens g ts) (hg : OpensWith k g) :
    ∃ t us, ts = t :: us ∧ t.IsOf tokens k := by
  induction h with
  | token hmem => exact ⟨_, [], rfl, _, hmem, hg⟩
  | tokenIn hmem hp => exact ⟨_, [], rfl, _, hmem, hg _ hp⟩
  | node => exact ⟨_, [], rfl, hg⟩
  | seq _ _ iha =>
    obtain ⟨t, us, rfl, ht⟩ := iha hg
    exact ⟨t, _, rfl, ht⟩
  | _ => exact hg.elim

/-! ### Functions that regroup trees -/

section Regrouping

variable {W : NodeKind → List ParseTree → Prop} {ts : List ParseTree}

theorem everyOf_groupLeft (hk : ∀ us, W kind us) (h : EveryOf W ts) :
    EveryOf W (groupLeft kind ts) := by
  induction ts using groupLeft.induct kind with
  | case1 left operator right more ih =>
    rw [groupLeft]
    obtain ⟨hleft, hoperator, hright, hmore⟩ := h
    exact ih ⟨⟨hk _, hleft, hoperator, hright, trivial⟩, hmore⟩
  | case2 ts hts => rwa [groupLeft.eq_2 _ _ hts]

theorem everyOf_wrapConditional (hk : ∀ us, W kind us) (h : EveryOf W ts) :
    EveryOf W (wrapConditional kind ts) := by
  unfold wrapConditional
  split
  · exact h
  · exact ⟨⟨hk _, h⟩, trivial⟩

/-- A list of trees is what stands in front of it and the rest. -/
theorem everyOf_split (p : ParseTree → Bool) (ts : List ParseTree) (h : EveryOf W ts) :
    EveryOf W (ts.takeWhile p) ∧ EveryOf W (ts.drop (ts.takeWhile p).length) := by
  rw [← everyOf_append, List.prefix_iff_eq_append.mp (List.takeWhile_prefix p)]
  exact h

theorem everyOf_groupModportEntries
    (hd : ∀ kind us,
      kind = .paModportSimplePortsDeclaration ∨ kind = .paModportClockingDeclaration →
      W .paModportPortsDeclaration [.node kind us])
    (hc : ∀ us, W .paModportClockingDeclaration us)
    (hs : ∀ us, W .paModportSimplePortsDeclaration us) (h : EveryOf W ts) :
    EveryOf W (groupModportEntries ts) := by
  induction ts using groupModportEntries.induct with
  | case1 => rwa [groupModportEntries]
  | case2 k n more ih =>
    rw [groupModportEntries]
    exact ⟨⟨hd _ _ (.inr rfl), ⟨hc _, h.1, h.2.1, trivial⟩, trivial⟩, ih h.2.2⟩
  | case3 d more hne ports ih =>
    rw [groupModportEntries.eq_3 _ _ hne]
    obtain ⟨hports, hrest⟩ := everyOf_split (·.kind?.isSome) more h.2
    exact ⟨⟨hd _ _ (.inl rfl), ⟨hs _, h.1, hports⟩, trivial⟩, ih hrest⟩
  | case4 port more hne hne' ports ih =>
    rw [groupModportEntries.eq_4 _ _ hne hne']
    obtain ⟨hports, hrest⟩ := everyOf_split (·.kind?.isSome) more h.2
    exact ⟨⟨hd _ _ (.inl rfl), ⟨hs _, h.1, hports⟩, trivial⟩, ih hrest⟩

end Regrouping

/-! ### The productions that open in a certain way -/

/-- The productions that are to open in a certain way. -/
def openings (g : SourceGrammar) : List (NodeKind × SourceGrammar) :=
  g.productions.filter fun r => r.1.opening?.isSome

/-- A grammar whose nodes open as they are to. -/
abbrev EnsuresOpened (tokens : List (Nat × SourceKind)) (g : SourceGrammar) : Prop :=
  g.Ensures rules tokens (Opened tokens)

theorem opened_of_none (h : kind.opening? = none) (ts : List ParseTree) :
    Opened tokens kind ts := fun k hk => by
  rw [h] at hk
  cases hk

theorem ensures_of_openings
    (hp : ∀ r ∈ openings g, ∀ k, r.1.opening? = some k → OpensWith k r.2)
    (hr : ∀ f ∈ g.regroupings, ∀ ts, EveryOf (Opened tokens) ts → EveryOf (Opened tokens) (f ts))
    (hs : ∀ kind ∈ g.skips, kind.opening? = none) : EnsuresOpened tokens g := by
  refine ⟨fun r hmem ts hts k hk => ?_, hr, fun kind hmem is => opened_of_none (hs kind hmem) _⟩
  exact opens_yields hts (hp r (List.mem_filter.mpr ⟨hmem, by simp [hk]⟩) k hk)

/-- A grammar without functions that regroup, none of whose productions is to open in a certain
way. -/
theorem ensures_of_nil (hp : openings g = []) (hr : g.regroupings = [])
    (hs : ∀ kind ∈ g.skips, kind.opening? = none) : EnsuresOpened tokens g :=
  ensures_of_openings (by simp [hp]) (by simp [hr]) hs

theorem opening?_expressionKind (constant : Bool) : (expressionKind constant).opening? = none := by
  cases constant <;> rfl

/-- The functions of a level are those of its operands and the one that groups them. -/
theorem mem_regroupings_binaryLevel {constant : Bool} {operators : List SourceKind}
    {f : List ParseTree → List ParseTree}
    (h : f ∈ (binaryLevel constant g operators).regroupings) :
    f = groupLeft (expressionKind constant) ∨ f ∈ g.regroupings := by
  simpa [binaryLevel, regroupings, oneOf] using h

theorem mem_regroupings_conditional {constant : Bool} {f : List ParseTree → List ParseTree}
    (h : f ∈ (conditional constant).regroupings) :
    f = wrapConditional (expressionKind constant) ∨ f ∈ (binary constant).regroupings := by
  simpa [conditional, regroupings, all, expression] using h

/-- The levels of an expression only wrap operands into expressions. -/
theorem ensures_binaryLevel {constant : Bool} {operators : List SourceKind}
    (h : EnsuresOpened tokens g) : EnsuresOpened tokens (binaryLevel constant g operators) := by
  have hk : ∀ us, Opened tokens (expressionKind constant) us :=
    opened_of_none (opening?_expressionKind constant)
  refine ⟨fun r hmem => h.production r ?_, fun f hmem => ?_, fun kind hmem => h.skip kind ?_⟩
  · simpa [binaryLevel, productions, oneOf] using hmem
  · rcases mem_regroupings_binaryLevel hmem with rfl | hmem
    · exact fun ts => everyOf_groupLeft hk
    · exact h.regrouping f hmem
  · simpa [binaryLevel, skips, oneOf] using hmem

theorem ensures_operand (constant : Bool) : EnsuresOpened tokens (operand constant) := by
  cases constant <;> exact ensures_of_nil rfl rfl (by decide)

theorem ensures_conditional (constant : Bool) : EnsuresOpened tokens (conditional constant) := by
  have hk : ∀ us, Opened tokens (expressionKind constant) us :=
    opened_of_none (opening?_expressionKind constant)
  have h : EnsuresOpened tokens (binary constant) :=
    binary_induction (ensures_operand constant) fun _ _ => ensures_binaryLevel
  refine ⟨fun r hmem => h.production r ?_, fun f hmem => ?_, fun kind hmem => h.skip kind ?_⟩
  · simpa [conditional, productions, all, expression] using hmem
  · rcases mem_regroupings_conditional hmem with rfl | hmem
    · exact fun ts => everyOf_wrapConditional hk
    · exact h.regrouping f hmem
  · simpa [conditional, skips, all, expression] using hmem

/-- What a name that is declared is made of. -/
def declaredParts : SourceGrammar :=
  all [identifier, many 0 unpackedDimension, opt (seq (token .equals) (expression false))]

theorem openings_item : openings itemBody = [(.paNetDeclAssignment, declaredParts),
    (.paNetDeclAssignment, declaredParts), (.paVariableDeclAssignment, declaredParts),
    (.paVariableDeclAssignment, identifier)] := by
  with_unfolding_all rfl

set_option maxRecDepth 4000 in
theorem openings_text : ∃ ms is us, openings text = (.paModuleDeclaration, seq (header
    (node .paModuleKeyword (oneOf [.kwModule, .kwMacromodule]))) ms) ::
    (.paInterfaceDeclaration, seq (header (token .kwInterface)) is) ::
    (.paUdpDeclaration, seq (token .kwPrimitive) us) :: openings itemBody :=
  ⟨_, _, _, by with_unfolding_all rfl⟩

theorem opensWith_identifier : OpensWith .slStringConst identifier := by
  intro s hs
  cases s <;> first | rfl | cases hs

theorem opensWith_openings_item :
    ∀ r ∈ openings itemBody, ∀ k, r.1.opening? = some k → OpensWith k r.2 := by
  rw [openings_item]
  simp only [List.forall_mem_cons, NodeKind.opening?, Option.some.injEq, forall_eq']
  exact ⟨opensWith_identifier, opensWith_identifier, opensWith_identifier, opensWith_identifier,
    by simp⟩

theorem opensWith_openings_text :
    ∀ r ∈ openings text, ∀ k, r.1.opening? = some k → OpensWith k r.2 := by
  obtain ⟨ms, is, us, h⟩ := openings_text
  rw [h]
  simp only [List.forall_mem_cons, NodeKind.opening?, Option.some.injEq, forall_eq']
  exact ⟨rfl, rfl, rfl, opensWith_openings_item⟩

theorem everyOf_regroupings_item (ts : List ParseTree) (h : EveryOf (Opened tokens) ts) :
    EveryOf (Opened tokens) (groupModportEntries ts) :=
  everyOf_groupModportEntries (fun _ _ _ => opened_of_none rfl _) (opened_of_none rfl)
    (opened_of_none rfl) h

theorem ensures_item : EnsuresOpened tokens itemBody := by
  refine ensures_of_openings opensWith_openings_item ?_ (by decide)
  rw [show itemBody.regroupings = [groupModportEntries] by with_unfolding_all rfl]
  simpa using everyOf_regroupings_item

theorem ensures_text : EnsuresOpened tokens text := by
  refine ensures_of_openings opensWith_openings_text ?_ (by decide)
  rw [show text.regroupings = [groupModportEntries] by with_unfolding_all rfl]
  simpa using everyOf_regroupings_item

theorem ensures_rules : ∀ x, EnsuresOpened tokens (rules x)
  | .expression true => ensures_conditional true
  | .expression false => ensures_conditional false
  | .unary true => ensures_of_nil rfl rfl (by decide)
  | .unary false => ensures_of_nil rfl rfl (by decide)
  | .braces => ensures_of_nil rfl rfl (by decide)
  | .statement => ensures_of_nil (by with_unfolding_all rfl) (by with_unfolding_all rfl) (by decide)
  | .item => ensures_item

/-- **In a tree of source text** every node whose kind says how it opens does so. -/
theorem opened_parse {tokens : List (Token SourceKind)} {tree : ParseTree}
    (h : (parse tokens).1 = some tree) : tree.Every (Opened (visible tokens)) := by
  obtain ⟨trees, htrees, hhead⟩ := Option.bind_eq_some_iff.mp h
  exact everyOf_iff.mp ((yields_parse htrees).every ensures_rules ensures_text) tree
    (List.mem_of_head? hhead)

end SourceGrammar

/-!
## Where the productions of source text end

Every production of source text that has leaves ends with a part that has some: the lists that may
be empty all stand before a closing token. And what the grammar puts together afterwards, operands
around their operators and the ports of a modport, are trees with leaves.
-/

namespace SourceGrammar

open Grammar ParseTree

variable {g : SourceGrammar}

/-! ### Functions that regroup trees -/

theorem filled_groupLeft (kind : NodeKind) (ts : List ParseTree) :
    (∀ t ∈ ts, t.Filled) → ∀ t ∈ groupLeft kind ts, t.Filled := by
  induction ts using groupLeft.induct kind with
  | case1 left operator right more ih =>
    intro h
    simp only [List.forall_mem_cons] at h
    obtain ⟨hleft, hoperator, hright, hmore⟩ := h
    rw [groupLeft]
    refine ih (List.forall_mem_cons.mpr ⟨filled_node (List.cons_ne_nil _ _) ?_, hmore⟩)
    simp [hleft, hoperator, hright]
  | case2 ts hts =>
    rw [groupLeft.eq_2 _ _ hts]
    exact id

theorem regroups_groupLeft (kind : NodeKind) : Regroups (groupLeft kind) false :=
  ⟨leavesAll_groupLeft kind, fun ts _ => filled_groupLeft kind ts⟩

theorem regroups_wrapConditional (kind : NodeKind) : Regroups (wrapConditional kind) true := by
  refine ⟨leavesAll_wrapConditional kind, fun ts hne h => ?_⟩
  match ts with
  | [] => exact absurd rfl (hne rfl)
  | [t] => exact h
  | t :: u :: us =>
    exact List.forall_mem_singleton.mpr (filled_node (List.cons_ne_nil _ _) h)

theorem filled_groupModportEntries (ts : List ParseTree) :
    (∀ t ∈ ts, t.Filled) → ∀ t ∈ groupModportEntries ts, t.Filled := by
  have hentry {kind : NodeKind} {us : List ParseTree} (hne : us ≠ []) (h : ∀ t ∈ us, t.Filled) :
      (ParseTree.node .paModportPortsDeclaration [.node kind us]).Filled :=
    filled_node (List.cons_ne_nil _ _) (List.forall_mem_singleton.mpr (filled_node hne h))
  induction ts using groupModportEntries.induct with
  | case1 =>
    rw [groupModportEntries]
    exact id
  | case2 k n more ih =>
    intro h
    simp only [List.forall_mem_cons] at h
    rw [groupModportEntries, List.forall_mem_cons]
    exact ⟨hentry (List.cons_ne_nil _ _) (by simp [filled_leaf]), ih h.2.2⟩
  | case3 d more hne ports ih =>
    intro h
    rw [List.forall_mem_cons] at h
    rw [groupModportEntries.eq_3 _ _ hne, List.forall_mem_cons]
    refine ⟨hentry (List.cons_ne_nil _ _) ?_, ih fun t ht => h.2 t (List.mem_of_mem_drop ht)⟩
    exact List.forall_mem_cons.mpr
      ⟨h.1, fun t ht => h.2 t ((List.takeWhile_prefix _).subset ht)⟩
  | case4 port more hne hne' ports ih =>
    intro h
    rw [List.forall_mem_cons] at h
    rw [groupModportEntries.eq_4 _ _ hne hne', List.forall_mem_cons]
    refine ⟨hentry (List.cons_ne_nil _ _) ?_, ih fun t ht => h.2 t (List.mem_of_mem_drop ht)⟩
    exact List.forall_mem_cons.mpr
      ⟨h.1, fun t ht => h.2 t ((List.takeWhile_prefix _).subset ht)⟩

theorem regroups_groupModportEntries : Regroups groupModportEntries false :=
  ⟨leavesAll_groupModportEntries, fun ts _ => filled_groupModportEntries ts⟩

/-! ### The productions -/

theorem settles_of_regroupings (hp : (g.productions.all fun r => r.2.settled) = true)
    (hd : (g.regrouped.all fun r => r.2.dense) = true)
    (hr : ∀ f ∈ g.regroupings, Regroups f false) : g.Settles where
  production := List.all_eq_true.mp hp
  regrouping r hmem := by
    refine ⟨(hr r.1 ?_).of_any _, List.all_eq_true.mp hd r hmem⟩
    rw [← map_regrouped]
    exact List.mem_map_of_mem hmem

theorem settles_of_nil (hp : (g.productions.all fun r => r.2.settled) = true)
    (hr : g.regroupings = []) : g.Settles := by
  refine settles_of_regroupings hp ?_ (by simp [hr])
  rw [← map_regrouped, List.map_eq_nil_iff] at hr
  rw [hr, List.all_nil]

theorem settles_of_entries (hp : (g.productions.all fun r => r.2.settled) = true)
    (hd : (g.regrouped.all fun r => r.2.dense) = true)
    (hr : g.regroupings = [groupModportEntries]) : g.Settles :=
  settles_of_regroupings hp hd (hr ▸ List.forall_mem_singleton.mpr regroups_groupModportEntries)

/-- A level of binary operators is settled as its operands are, and its trees have leaves as theirs
have. -/
theorem settles_binaryLevel {constant : Bool} {operators : List SourceKind}
    (h : g.Settles ∧ g.dense = true) : (binaryLevel constant g operators).Settles ∧
      (binaryLevel constant g operators).dense = true := by
  have hdense : (binaryLevel constant g operators).dense = true := by
    simp [binaryLevel, dense, oneOf, h.2]
  refine ⟨⟨fun r hr => h.1.production r ?_, fun r hr => ?_⟩, hdense⟩
  · simpa [binaryLevel, productions, oneOf] using hr
  · rcases List.mem_cons.mp hr with rfl | hr
    · exact ⟨(regroups_groupLeft _).of_any _, hdense⟩
    · refine h.1.regrouping r ?_
      simpa [regrouped, oneOf] using hr

theorem settles_binary (constant : Bool) :
    (binary constant).Settles ∧ (binary constant).dense = true := by
  refine binary_induction (P := fun g => g.Settles ∧ g.dense = true) ?_
    fun _ _ => settles_binaryLevel
  cases constant <;> exact ⟨settles_of_nil (by with_unfolding_all rfl) rfl, rfl⟩

theorem settles_conditional (constant : Bool) : (conditional constant).Settles := by
  have h := (settles_binary constant).1
  refine ⟨fun r hr => h.production r ?_, fun r hr => ?_⟩
  · simpa [conditional, productions, all, expression] using hr
  · rcases List.mem_cons.mp hr with rfl | hr
    · exact ⟨regroups_wrapConditional _, by cases constant <;> with_unfolding_all rfl⟩
    · refine h.regrouping r ?_
      simpa [regrouped, all, expression] using hr

theorem settles_item : itemBody.Settles :=
  settles_of_entries (by decide +kernel) (by with_unfolding_all rfl) (by with_unfolding_all rfl)

theorem settles_text : text.Settles :=
  settles_of_entries (by decide +kernel) (by with_unfolding_all rfl) (by with_unfolding_all rfl)

theorem settles_rules : ∀ x, (rules x).Settles
  | .expression true => settles_conditional true
  | .expression false => settles_conditional false
  | .unary true => settles_of_nil (by with_unfolding_all rfl) rfl
  | .unary false => settles_of_nil (by with_unfolding_all rfl) rfl
  | .braces => settles_of_nil (by with_unfolding_all rfl) rfl
  | .statement => settles_of_nil (by with_unfolding_all rfl) (by with_unfolding_all rfl)
  | .item => settles_item

theorem bears_rules : ∀ x, (rules x).bears = true
  | .expression true | .expression false | .unary true | .unary false | .braces | .statement
  | .item => by rfl

theorem dense_rules : ∀ x, (rules x).dense = true
  | .expression true | .expression false | .unary true | .unary false | .braces | .statement
  | .item => by rfl

/-- **In the tree of a text every node with leaves ends with a part that has some.** -/
theorem settled_of_parse {tokens : List SourceToken} {tree : ParseTree}
    (h : (parse tokens).1 = some tree) : tree.Every fun _ ts => Settled ts := by
  simp only [parse] at h
  obtain ⟨trees, htrees, hhead⟩ := Option.bind_eq_some_iff.mp h
  have hall := settled_parse settles_rules bears_rules dense_rules settles_text htrees
  exact everyOf_iff.mp hall tree (List.mem_of_head? hhead)

end SourceGrammar

end Verilog
