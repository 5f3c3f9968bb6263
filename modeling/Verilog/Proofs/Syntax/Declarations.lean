import Verilog.Proofs.Grammar.Rename
import Verilog.Proofs.Syntax.Elements

/-!
# Which elements a syntax tree has

The elements of a syntax tree are what its parse tree declares, in the order of the text: each
production that is a declaration and has a name is one, named behind those around it, and nothing
inside an opaque body is one (`ParseTree.declarations`). Each is recorded with the settings that
hold where it begins (`ParseTree.snapshots`). Growing a tree puts them behind the elements there
were (`Growth.Declared`); linking nodes, leading places back and copying directives keep them.
-/

namespace Verilog

/-! ### What a parse tree declares -/

namespace ParseTree

/-- The name of an element with those of the elements around it in front. -/
def dottedName (outer : Option String) (name : String) : String :=
  match outer with
  | some outer => s!"{outer}.{name}"
  | none => name

/-- The element that a production itself declares. -/
def ownDeclaration? (tokens : Array SourceToken) (outer : Option String) (t : ParseTree) :
    Option (ElementKind × String) :=
  match t.kind?.bind ElementKind.ofNode?, declaredName? tokens t with
  | some kind, some name => some (kind, dottedName outer name)
  | _, _ => none

mutual

/-- The elements that a tree declares, by kind and dotted name. -/
def declarations (tokens : Array SourceToken) (outer : Option String) :
    ParseTree → List (ElementKind × String)
  | leaf _ => []
  | node kind ts =>
    let own := ownDeclaration? tokens outer (node kind ts)
    own.toList ++
      if kind = .paOpaqueBody then []
      else declarationsAll tokens (own.map (·.2) <|> outer) ts

/-- The elements that trees declare. -/
def declarationsAll (tokens : Array SourceToken) (outer : Option String) :
    List ParseTree → List (ElementKind × String)
  | [] => []
  | t :: ts => declarations tokens outer t ++ declarationsAll tokens outer ts

end

mutual

/-- The elements that a tree declares, with the settings that each production has. -/
def snapshots (tokens : Array SourceToken) (settings : ParseTree → DirectiveState)
    (outer : Option String) : ParseTree → List ((ElementKind × String) × DirectiveState)
  | leaf _ => []
  | node kind ts =>
    let own := ownDeclaration? tokens outer (node kind ts)
    own.toList.map (·, settings (node kind ts)) ++
      if kind = .paOpaqueBody then []
      else snapshotsAll tokens settings (own.map (·.2) <|> outer) ts

/-- The elements that trees declare, with the settings that each production has. -/
def snapshotsAll (tokens : Array SourceToken) (settings : ParseTree → DirectiveState)
    (outer : Option String) : List ParseTree → List ((ElementKind × String) × DirectiveState)
  | [] => []
  | t :: ts => snapshots tokens settings outer t ++ snapshotsAll tokens settings outer ts

end

variable {tokens : Array SourceToken}

mutual

/-- Without the settings these are the declarations. -/
theorem map_fst_snapshots (settings : ParseTree → DirectiveState) (outer : Option String) :
    (t : ParseTree) → (snapshots tokens settings outer t).map (·.1) = declarations tokens outer t
  | leaf _ => rfl
  | node kind ts => by
    have hown (own : Option (ElementKind × String)) (settings : DirectiveState) :
        (own.toList.map (·, settings)).map (·.1) = own.toList := by cases own <;> rfl
    rw [snapshots, declarations, List.map_append, hown]
    split
    · rfl
    · rw [map_fst_snapshotsAll settings _ ts]

theorem map_fst_snapshotsAll (settings : ParseTree → DirectiveState) (outer : Option String) :
    (ts : List ParseTree) →
      (snapshotsAll tokens settings outer ts).map (·.1) = declarationsAll tokens outer ts
  | [] => rfl
  | t :: ts => by
    rw [snapshotsAll, declarationsAll, List.map_append, map_fst_snapshots settings outer t,
      map_fst_snapshotsAll settings outer ts]

end

theorem ownDeclaration?_eq_none {k : NodeKind} (hk : ElementKind.ofNode? k = none)
    {outer : Option String} {ts : List ParseTree} :
    ownDeclaration? tokens outer (node k ts) = none := by
  simp [ownDeclaration?, kind?, hk]

/-- A production that is no declaration declares what its only part does. -/
theorem declarations_singleton {k : NodeKind} (hk : ElementKind.ofNode? k = none)
    (hseen : k ≠ .paOpaqueBody) {outer : Option String} {t : ParseTree} :
    (node k [t]).declarations tokens outer = t.declarations tokens outer := by
  simp [declarations, declarationsAll, ownDeclaration?_eq_none hk, hseen]

theorem declarationsAll_append (tokens : Array SourceToken) (outer : Option String)
    (ts us : List ParseTree) : declarationsAll tokens outer (ts ++ us) =
      declarationsAll tokens outer ts ++ declarationsAll tokens outer us := by
  induction ts with
  | nil => rfl
  | cons t ts ih => rw [List.cons_append, declarationsAll, declarationsAll, ih, List.append_assoc]

end ParseTree

/-! ### Elements while nodes are made -/

/-- The kinds of elements and their full names. -/
def NodeTable.declared (t : NodeTable) : List (ElementKind × Option String) :=
  t.elements.toList.map fun e => (e.kind, e.name)

/-- Elements by kind and full name, the name of their library in front. -/
def inLibrary (library : String) (ds : List (ElementKind × String)) :
    List (ElementKind × Option String) :=
  ds.map fun d => (d.1, some (library ++ "@" ++ d.2))

/-- The kinds of elements and their full names, with their time scales and types of undeclared
nets. -/
def NodeTable.snapshots (t : NodeTable) :
    List ((ElementKind × Option String) × Option TimeScale × NodeKind) :=
  t.elements.toList.map fun e => ((e.kind, e.name), e.time, e.netType)

/-- Elements with such settings, the name of their library in front. -/
def snapshotsIn (library : String) (ds : List ((ElementKind × String) × DirectiveState)) :
    List ((ElementKind × Option String) × Option TimeScale × NodeKind) :=
  ds.map fun d => ((d.1.1, some (library ++ "@" ++ d.1.2)), d.2.time, d.2.netType)

theorem NodeTable.declared_of_snapshots {t : NodeTable} {library : String}
    {ds : List ((ElementKind × String) × DirectiveState)}
    (h : t.snapshots = snapshotsIn library ds) : t.declared = inLibrary library (ds.map (·.1)) := by
  have := congrArg (List.map (·.1)) h
  simpa [snapshots, snapshotsIn, declared, inLibrary, Function.comp_def] using this

/-- The preprocessed line on which a production begins. -/
def MarkedText.lineOf (m : MarkedText) (t : ParseTree) : Nat :=
  ((t.first?.bind (m.tokens[·]?)).map (·.line)).getD 1

/-- The settings that hold on that line. -/
def MarkedText.settingsOf (m : MarkedText) (t : ParseTree) : DirectiveState :=
  m.text.stateAt (m.lineOf t)

namespace Growth

open ParseTree

/-- **What growing does to elements**: those that are declared are recorded behind the others,
unless an opaque body is open, and as many of those are open as before. -/
structure Declared (s : GrowthSource) (g g' : Growth)
    (ds : List ((ElementKind × String) × DirectiveState)) : Prop where
  elements : (g'.table s).snapshots =
    (g.table s).snapshots ++ snapshotsIn s.library (if 0 < g.pauses then [] else ds)
  pauses : g'.pauses = g.pauses

variable {s : GrowthSource} {g g' g'' : Growth}
  {ds ds' : List ((ElementKind × String) × DirectiveState)}

theorem snapshots_eq (h : g'.elements = g.elements) : (g'.table s).snapshots =
    (g.table s).snapshots := by
  simp [NodeTable.snapshots, table, h]

namespace Declared

/-- A step that leaves elements and pauses alone. -/
theorem of_eq (he : g'.elements = g.elements) (hp : g'.pauses = g.pauses) : Declared s g g' [] :=
  ⟨by simp [snapshots_eq he, snapshotsIn], hp⟩

theorem refl (s : GrowthSource) (g : Growth) : Declared s g g [] := of_eq rfl rfl

theorem trans (h : Declared s g g' ds) (h' : Declared s g' g'' ds') :
    Declared s g g'' (ds ++ ds') := by
  refine ⟨?_, h'.pauses.trans h.pauses⟩
  rw [h'.elements, h.elements, h.pauses, List.append_assoc]
  split <;> simp [snapshotsIn]

/-- Nothing is declared on the way. -/
theorem after (h : Declared s g g' []) (h' : Declared s g' g'' ds) : Declared s g g'' ds :=
  h.trans h'

end Declared

theorem declared_addHidden (s : GrowthSource) (p : NodeId) (g : Growth) :
    Declared s g (g.addHidden s p) [] := by
  unfold addHidden
  simp only
  split
  · exact .of_eq rfl rfl
  · split
    case h_1 | h_2 => split <;> exact .of_eq rfl rfl
    case h_3 | h_4 => exact .of_eq rfl rfl
    case h_5 | h_6 => split <;> exact .of_eq rfl rfl
    case h_7 => exact .of_eq rfl rfl

theorem declared_advance (s : GrowthSource) (stop : Nat) (p : NodeId) (g : Growth) :
    Declared s g (g.advance s stop p) [] :=
  (addHiddens_rel (R := fun g g' => Declared s g g' []) (Declared.refl s) .after
    (declared_addHidden s p) _ g).after (.of_eq rfl rfl)

theorem declared_reach (s : GrowthSource) (p : NodeId) (t : ParseTree) (g : Growth) :
    Declared s g (g.reach s p t) [] := by
  rw [reach]
  split
  · exact declared_advance s _ p g
  · exact .refl s g

theorem declared_addLeaf (s : GrowthSource) (p : NodeId) (production : ParseTree) (i : Nat)
    (g : Growth) : Declared s g (g.addLeaf s p production i) [] := by
  refine (declared_advance s i p g).trans ?_
  unfold addLeaf
  simp only
  split
  · exact .of_eq rfl rfl
  · split <;> exact .of_eq rfl rfl

/-- What a production declares is recorded, and is around what stands in it. -/
theorem declared_addElement (s : GrowthSource) (t : ParseTree) (id : NodeId)
    (around : Option (Nat × String)) (g : Growth) :
    let own := ownDeclaration? s.marked.tokens (around.map (·.2)) t
    let r := g.addElement s t id around
    (r.2.table s).snapshots = (g.table s).snapshots ++
        snapshotsIn s.library (own.toList.map (·, s.marked.settingsOf t)) ∧
      r.2.pauses = g.pauses ∧ r.1.map (·.2) = (own.map (·.2) <|> around.map (·.2)) := by
  simp only [addElement, ownDeclaration?]
  cases t.kind?.bind ElementKind.ofNode? with
  | none => exact ⟨by simp [snapshotsIn], rfl, rfl⟩
  | some kind =>
    cases declaredName? s.marked.tokens t with
    | none => exact ⟨by simp [snapshotsIn], rfl, rfl⟩
    | some name =>
      cases around <;> simp [NodeTable.snapshots, table, dottedName, snapshotsIn,
        MarkedText.settingsOf, MarkedText.lineOf]

theorem declared_addProduction (s : GrowthSource) (t : ParseTree) (kind : NodeKind)
    (around : Surroundings) (g : Growth) :
    let own := ownDeclaration? s.marked.tokens (around.element.map (·.2)) t
    let r := g.addProduction s t kind around
    (r.2.table s).snapshots = (g.table s).snapshots ++
        snapshotsIn s.library (own.toList.map (·, s.marked.settingsOf t)) ∧
      r.2.pauses = g.pauses + (if kind = .paOpaqueBody then 1 else 0) ∧
      r.1.element.map (·.2) = (own.map (·.2) <|> around.element.map (·.2)) := by
  simp only [addProduction]
  split
  · exact declared_addElement s t (g.nodes.size + 1) around.element
      { g with nodes := g.nodes.push _, pauses := g.pauses + 1 }
  · have h := declared_addElement s t (g.nodes.size + 1) around.element
      { g with nodes := g.nodes.push (g.productionNode s kind (t.first?.bind (s.marked.tokens[·]?))
        (t.last?.bind (s.marked.tokens[·]?)) around.parent) }
    rwa [Int.add_zero]

/-- Behind a production the elements are the same, and its opaque body is closed. -/
theorem declared_leave {kind : NodeKind} (h : g.leave s kind = .ok g') :
    (g'.table s).snapshots = (g.table s).snapshots ∧
      g'.pauses = g.pauses - if kind = .paOpaqueBody then 1 else 0 := by
  unfold leave at h
  by_cases hk : kind = .paOpaqueBody
  · rw [if_pos hk] at h ⊢
    split at h
    · cases h
    · cases h
      exact ⟨rfl, rfl⟩
  · rw [if_neg hk] at h ⊢
    cases h
    exact ⟨rfl, (Int.sub_zero _).symm⟩

mutual

/-- **Going through a tree** records what it declares. -/
theorem declared_addTree (s : GrowthSource) (around : Surroundings) (production : ParseTree) :
    (t : ParseTree) → ∀ {g g' : Growth}, addTree s around production t g = .ok g' → 0 ≤ g.pauses →
      Declared s g g'
        (t.snapshots s.marked.tokens s.marked.settingsOf (around.element.map (·.2)))
  | .leaf i, g, g', h, _ => by
    rw [addTree] at h
    cases h
    exact declared_addLeaf s around.parent production i g
  | .node kind ts, g, g', h, h0 => by
    have h := cases_of_addTree h
    have hreach := declared_reach s around.parent (.node kind ts) g
    generalize g.reach s around.parent (.node kind ts) = g₁ at h hreach
    refine hreach.after ?_
    rw [← hreach.pauses] at h0
    obtain ⟨hpaused, h⟩ | ⟨hpaused, g₂, hts, h⟩ := h
    · obtain ⟨helements, hpauses⟩ := declared_addTrees s around (.node kind ts) ts h h0
      rw [if_pos hpaused] at helements
      exact ⟨by rw [if_pos hpaused, helements], hpauses⟩
    · obtain ⟨hown, hpauses, helement⟩ := declared_addProduction s (.node kind ts) kind around g₁
      generalize g₁.addProduction s (.node kind ts) kind around = r at hts hown hpauses helement
      have hbelow := declared_addTrees s r.1 (.node kind ts) ts hts
        (by rw [hpauses]; split <;> omega)
      obtain ⟨he, hp⟩ := declared_leave (s := s) h
      have hseen : 0 < r.2.pauses ↔ kind = .paOpaqueBody := by
        rw [hpauses]
        by_cases hk : kind = .paOpaqueBody
        · simp only [hk, if_true, iff_true]
          omega
        · simpa only [hk, if_false, iff_false, Int.add_zero] using hpaused
      refine ⟨?_, ?_⟩
      · rw [he, hbelow.elements, hown, if_neg hpaused, helement, snapshots]
        simp only [hseen, snapshotsIn, List.map_append, List.append_assoc]
      · rw [hp, hbelow.pauses, hpauses]
        omega

theorem declared_addTrees (s : GrowthSource) (around : Surroundings) (production : ParseTree) :
    (ts : List ParseTree) → ∀ {g g' : Growth}, addTrees s around production ts g = .ok g' →
      0 ≤ g.pauses →
      Declared s g g'
        (snapshotsAll s.marked.tokens s.marked.settingsOf (around.element.map (·.2)) ts)
  | [], g, g', h, _ => by
    rw [addTrees] at h
    cases h
    exact .refl s g
  | t :: ts, g, g', h, h0 => by
    rw [addTrees] at h
    obtain ⟨g₁, ht, h⟩ := exists_of_bind h
    have hhead := declared_addTree s around production t ht h0
    exact hhead.trans (declared_addTrees s around production ts h (hhead.pauses ▸ h0))

end

/-- **The elements are what the tree declares** when all nodes are there. -/
theorem snapshots_ofTree {kind : NodeKind} {ts : List ParseTree} (hkind : kind ≠ .paOpaqueBody)
    (h : ofTree s (.node kind ts) = .ok g) : (g.table s).snapshots = snapshotsIn s.library
      ((ParseTree.node kind ts).snapshots s.marked.tokens s.marked.settingsOf none) := by
  obtain ⟨g₁, hts, rfl⟩ := exists_of_ofTree h
  obtain ⟨hown, hpauses, helement⟩ := declared_addElement s (.node kind ts) rootId none
    (({} : Growth).add (rootNode s kind)).2
  generalize addElement s (.node kind ts) rootId none _ = r at hts hown hpauses helement
  have hbelow := declared_addTrees s ⟨rootId, r.1⟩ (.node kind ts) ts hts
    (Int.le_of_eq hpauses.symm)
  have hleft : Declared s g₁ (g₁.relink .leave) [] := .of_eq rfl rfl
  have hlast := hleft.after (declared_advance s s.marked.tokens.size rootId _)
  have hzero : r.2.pauses = 0 := hpauses
  rw [hlast.elements, hbelow.elements, hown, hzero, helement, snapshots, if_neg hkind]
  simp [snapshotsIn, NodeTable.snapshots, table, add]

end Growth

/-! ### Elements of the finished table -/

namespace NodeTable

theorem snapshots_mapPlaces (t : NodeTable) (m : LocationMapper) :
    (t.mapPlaces m).snapshots = t.snapshots := by
  simp [snapshots, mapPlaces, Function.comp_def]

/-- **The elements of a syntax tree** are those that its parse tree declares, in order, each with
the settings on the line on which it begins. -/
theorem snapshots_syntaxTree {s : GrowthSource} {m : LocationMapper} {kind : NodeKind}
    {ts : List ParseTree} {t : NodeTable} (hkind : kind ≠ .paOpaqueBody)
    (h : syntaxTree s m (.node kind ts) = .ok t) : t.snapshots = snapshotsIn s.library
      ((ParseTree.node kind ts).snapshots s.marked.tokens s.marked.settingsOf none) := by
  obtain ⟨g, hg, h⟩ := Growth.exists_of_bind h
  obtain rfl := Except.ok.inj h
  rw [← Growth.snapshots_ofTree hkind hg]
  calc (((g.linked s).mapPlaces m).graftDirectives s.marked.text.nodes).snapshots
      = ((g.linked s).mapPlaces m).snapshots := by
        rw [snapshots, elements_graftDirectives, snapshots]
    _ = (g.linked s).snapshots := snapshots_mapPlaces _ m
    _ = (g.table s).snapshots := by rw [snapshots, elements_linked, snapshots]; rfl

theorem declared_syntaxTree {s : GrowthSource} {m : LocationMapper} {kind : NodeKind}
    {ts : List ParseTree} {t : NodeTable} (hkind : kind ≠ .paOpaqueBody)
    (h : syntaxTree s m (.node kind ts) = .ok t) : t.declared =
      inLibrary s.library ((ParseTree.node kind ts).declarations s.marked.tokens none) := by
  rw [declared_of_snapshots (snapshots_syntaxTree hkind h), ParseTree.map_fst_snapshots]

end NodeTable

/-!
## Declarations one by one

What a tree declares is also known as the productions that are declarations, each with its own name.
They have tokens, and come in the order in which they begin.
-/

/-- A production that declares an element, the kind of the element and its own name. -/
structure Declaration where
  tree : ParseTree
  kind : ElementKind
  name : String

namespace ParseTree

/-- The declaration that a production is. -/
def declaration? (tokens : Array SourceToken) (t : ParseTree) : Option Declaration :=
  match t.kind?.bind ElementKind.ofNode?, declaredName? tokens t with
  | some kind, some name => some ⟨t, kind, name⟩
  | _, _ => none

mutual

/-- The declarations of a tree in the order of the text, none of them inside an opaque body. -/
def recorded (tokens : Array SourceToken) : ParseTree → List Declaration
  | leaf _ => []
  | node kind ts =>
    (declaration? tokens (node kind ts)).toList ++
      if kind = .paOpaqueBody then [] else recordedAll tokens ts

/-- The declarations of trees. -/
def recordedAll (tokens : Array SourceToken) : List ParseTree → List Declaration
  | [] => []
  | t :: ts => recorded tokens t ++ recordedAll tokens ts

end

end ParseTree

/-! ### Declarations have tokens -/

namespace ParseTree

variable {tokens : Array SourceToken} {t : ParseTree} {d : Declaration} {i : Nat}

theorem declaration?_eq_some (h : declaration? tokens t = some d) :
    d.tree = t ∧ t.kind?.bind ElementKind.ofNode? = some d.kind ∧
      declaredName? tokens t = some d.name := by
  unfold declaration? at h
  split at h
  · obtain rfl := Option.some.inj h
    exact ⟨rfl, ‹_›, ‹_›⟩
  · cases h

theorem mem_leaves_of_ownLeaves (h : i ∈ t.ownLeaves) : i ∈ t.leaves := by
  obtain ⟨u, hu, hi⟩ := List.mem_filterMap.mp h
  cases t with
  | leaf j => cases hu
  | node kind ts =>
    cases u with
    | leaf j =>
      obtain rfl := Option.some.inj hi
      exact leaves_subset_of_mem hu (by simp [leaves])
    | node kind us => cases hi

/-- What names a declaration is one of its tokens. -/
theorem mem_leaves_of_nameToken? (h : nameToken? tokens t = some i) : i ∈ t.leaves := by
  unfold nameToken? at h
  split at h
  · have hi := (List.mem_filter.mp (List.mem_of_getLast? h)).1
    exact (List.takeWhile_sublist _).subset hi
  · have hi := (List.mem_filter.mp (List.mem_of_getLast? h)).1
    exact (List.takeWhile_sublist _).subset hi
  · exact List.mem_of_find?_eq_some h
  · exact List.mem_of_find?_eq_some h
  · exact List.mem_of_find?_eq_some h
  · exact mem_leaves_of_ownLeaves (List.mem_of_find?_eq_some h)

/-- A declaration begins and ends with tokens. -/
theorem exists_ends_of_declaration? (h : declaration? tokens t = some d)
    (hseen : ∀ i ∈ t.leaves, ∃ token, tokens[i]? = some token) :
    ∃ first last, t.first?.bind (tokens[·]?) = some first ∧
      t.last?.bind (tokens[·]?) = some last := by
  obtain ⟨-, -, hname⟩ := declaration?_eq_some h
  obtain ⟨token, htoken, -⟩ := Option.map_eq_some_iff.mp hname
  obtain ⟨i, hi, -⟩ := Option.bind_eq_some_iff.mp htoken
  have hne : t.leaves ≠ [] := List.ne_nil_of_mem (mem_leaves_of_nameToken? hi)
  obtain ⟨first, hfirst⟩ := hseen _ (List.head_mem hne)
  obtain ⟨last, hlast⟩ := hseen _ (List.getLast_mem hne)
  refine ⟨first, last, ?_, ?_⟩
  · rw [t.first?_eq, List.head?_eq_some_head hne, Option.bind_some, hfirst]
  · rw [t.last?_eq, List.getLast?_eq_some_getLast hne, Option.bind_some, hlast]

/-! ### The order of declarations -/

/-- Does a declaration begin no later than another? -/
def NoLaterThan (d d' : Declaration) : Prop :=
  ∀ i ∈ d.tree.first?, ∀ j ∈ d'.tree.first?, i ≤ j

mutual

theorem leaves_subset_of_mem_recorded :
    (t : ParseTree) → ∀ d ∈ t.recorded tokens, d.tree.leaves ⊆ t.leaves
  | .leaf i, d, hd => by simp [recorded] at hd
  | .node kind ts, d, hd => by
    rw [recorded] at hd
    rcases List.mem_append.mp hd with hd | hd
    · rw [(declaration?_eq_some (Option.mem_toList.mp hd)).1]
      exact List.Subset.refl _
    · split at hd
      · cases hd
      · exact leaves_subset_of_mem_recordedAll ts d hd

theorem leaves_subset_of_mem_recordedAll :
    (ts : List ParseTree) → ∀ d ∈ recordedAll tokens ts, d.tree.leaves ⊆ leavesAll ts
  | [], d, hd => by simp [recordedAll] at hd
  | t :: ts, d, hd => by
    rcases List.mem_append.mp hd with hd | hd
    · exact List.subset_append_of_subset_left _ (leaves_subset_of_mem_recorded t d hd)
    · exact List.subset_append_of_subset_right _ (leaves_subset_of_mem_recordedAll ts d hd)

end

mutual

/-- **Declarations stand in the order of the text**, if the leaves of the tree do. -/
theorem pairwise_recorded :
    (t : ParseTree) → t.leaves.Pairwise (· < ·) → (t.recorded tokens).Pairwise NoLaterThan
  | .leaf i, _ => by simp [recorded]
  | .node kind ts, h => by
    rw [recorded, List.pairwise_append]
    refine ⟨?_, ?_, fun d hd d' hd' i hi j hj => ?_⟩
    · cases declaration? tokens (.node kind ts) <;> simp
    · split
      · exact .nil
      · exact pairwise_recordedAll ts h
    · -- What lies in a declaration has tokens of that declaration alone.
      rw [(declaration?_eq_some (Option.mem_toList.mp hd)).1, first?_eq, Option.mem_def] at hi
      split at hd'
      · cases hd'
      · rw [first?_eq, Option.mem_def] at hj
        have hj := leaves_subset_of_mem_recordedAll ts d' hd' (List.mem_of_head? hj)
        obtain ⟨js, hjs⟩ := List.head?_eq_some_iff.mp hi
        rw [leaves] at h hjs
        rw [hjs] at h hj
        rcases List.mem_cons.mp hj with rfl | hj
        · exact Nat.le_refl j
        · exact Nat.le_of_lt (List.rel_of_pairwise_cons h hj)

theorem pairwise_recordedAll :
    (ts : List ParseTree) → (leavesAll ts).Pairwise (· < ·) →
      (recordedAll tokens ts).Pairwise NoLaterThan
  | [], _ => .nil
  | t :: ts, h => by
    rw [leavesAll, List.pairwise_append] at h
    obtain ⟨ht, hts, hlt⟩ := h
    rw [recordedAll, List.pairwise_append]
    refine ⟨pairwise_recorded t ht, pairwise_recordedAll ts hts, fun d hd d' hd' i hi j hj => ?_⟩
    rw [first?_eq, Option.mem_def] at hi hj
    exact Nat.le_of_lt (hlt i (leaves_subset_of_mem_recorded t d hd (List.mem_of_head? hi)) j
      (leaves_subset_of_mem_recordedAll ts d' hd' (List.mem_of_head? hj)))

end

end ParseTree

end Verilog
