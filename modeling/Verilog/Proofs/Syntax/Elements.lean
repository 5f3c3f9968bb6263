import Verilog.Proofs.Generate.Read
import Verilog.Proofs.Node.Graft
import Verilog.Proofs.Session
import Verilog.Proofs.Source.Opening
import Verilog.Proofs.Syntax.Tree
import Verilog.Syntax.File

/-!
# The design elements of a syntax tree

A design element is recorded with the node that declares it when that node is made. Nodes are only
ever added, and what is done to them afterwards changes no kind, so in the syntax tree the element
still points at a declaration of its kind (`DesignElement.Recorded`), one below the root.

What a declaration opens with is known from the grammar, so a table that comes from a text can be
read (`NodeTable.Readable`), and a module, an interface or a primitive has the word that opens it
(`NodeTable.Declares`).
-/

namespace Verilog

open NodeTable

/-! ### Elements while nodes are made -/

/-- **What is recorded of an element**: its name has the library in front, and its node declares an
element of its kind. -/
structure DesignElement.Recorded (e : DesignElement) (library : String) (nodes : Array Node) :
    Prop where
  name : ∃ dotted, e.name = some (library ++ "@" ++ dotted)
  node : ∃ i n, e.node = i + 1 ∧ nodes[i]? = some n ∧ ElementKind.ofNode? n.kind = some e.kind

namespace Growth

/-- What growing does to nodes and elements: nodes stay, and new elements are recorded. -/
structure Adds (s : GrowthSource) (g g' : Growth) : Prop where
  nodes : ∀ (i : Nat) (n : Node), g.nodes[i]? = some n → g'.nodes[i]? = some n
  elements : ∀ e ∈ g'.elements, e ∈ g.elements ∨ e.Recorded s.library g'.nodes

variable {s : GrowthSource} {g g' g'' : Growth}

namespace Adds

theorem refl (s : GrowthSource) (g : Growth) : Adds s g g := ⟨fun _ _ => id, fun _ => .inl⟩

theorem trans (h : Adds s g g') (h' : Adds s g' g'') : Adds s g g'' := by
  refine ⟨fun i n hn => h'.nodes i n (h.nodes i n hn), fun e he => ?_⟩
  rcases h'.elements e he with he | he
  · refine (h.elements e he).imp_right fun ⟨hname, i, n, hid, hn, hk⟩ => ?_
    exact ⟨hname, i, n, hid, h'.nodes i n hn, hk⟩
  · exact .inr he

/-- A step that leaves elements and nodes alone. -/
theorem of_eq (hn : g'.nodes = g.nodes) (he : g'.elements = g.elements) : Adds s g g' :=
  ⟨fun _ _ => by rw [hn]; exact id, fun _ => by rw [he]; exact .inl⟩

/-- A step that adds a node. -/
theorem of_push {n : Node} (hn : g'.nodes = g.nodes.push n) (he : g'.elements = g.elements) :
    Adds s g g' := by
  refine ⟨fun i m hm => ?_, fun _ => by rw [he]; exact .inl⟩
  have hlt := (Array.getElem?_eq_some_iff.mp hm).1
  rwa [hn, Array.getElem?_push, if_neg (Nat.ne_of_lt hlt)]

end Adds

theorem adds_addHidden (s : GrowthSource) (p : NodeId) (g : Growth) :
    Adds s g (g.addHidden s p) := by
  unfold addHidden
  simp only
  split
  · exact .of_eq rfl rfl
  · split
    case h_1 | h_2 =>
      split
      · exact .of_push rfl rfl
      · exact .of_eq rfl rfl
    case h_3 | h_4 => exact .of_push rfl rfl
    case h_5 =>
      split
      · exact .of_eq rfl rfl
      · exact .of_push rfl rfl
    case h_6 =>
      split
      · exact .of_eq rfl rfl
      · exact .of_push rfl rfl
    case h_7 => exact .of_eq rfl rfl

theorem adds_advance (s : GrowthSource) (stop : Nat) (p : NodeId) (g : Growth) :
    Adds s g (g.advance s stop p) :=
  (addHiddens_rel (Adds.refl s) .trans (adds_addHidden s p) _ g).trans (.of_eq rfl rfl)

theorem adds_addLeaf (s : GrowthSource) (p : NodeId) (production : ParseTree) (i : Nat) (g : Growth)
    :
    Adds s g (g.addLeaf s p production i) := by
  refine (adds_advance s i p g).trans ?_
  unfold addLeaf
  simp only
  split
  · exact .of_eq rfl rfl
  · split
    · exact .of_push rfl rfl
    · exact .of_eq rfl rfl

/-- An element is recorded with a node of the kind of its production. -/
theorem adds_addElement {kind : NodeKind} (ts : List ParseTree) {i : Nat} {n : Node}
    (hn : g.nodes[i]? = some n) (hk : n.kind = kind) (around : Option (Nat × String)) :
    Adds s g (g.addElement s (.node kind ts) (i + 1) around).2 := by
  unfold addElement
  split
  · rename_i element name hkind hname
    rw [ParseTree.kind?, Option.bind_some, ← hk] at hkind
    refine ⟨fun _ _ => id, fun e he => ?_⟩
    rcases Array.mem_push.mp he with he | rfl
    · exact .inl he
    · exact .inr ⟨⟨_, rfl⟩, i, n, rfl, hn, hkind⟩
  · exact .refl s g

theorem adds_addProduction (s : GrowthSource) (kind : NodeKind) (ts : List ParseTree)
    (around : Surroundings) (g : Growth) :
    Adds s g (g.addProduction s (.node kind ts) kind around).2 := by
  unfold addProduction
  simp only
  set n := g.productionNode s kind _ _ around.parent with hn
  have hkind : n.kind = kind := by
    rw [hn]
    unfold productionNode
    split <;> rfl
  have hself : (g.nodes.push n)[g.nodes.size]? = some n := by simp
  have helement {g₁ : Growth} (hg₁ : g₁.nodes = g.nodes.push n) (he : g₁.elements = g.elements) :
      Adds s g (g₁.addElement s (.node kind ts) (g.nodes.size + 1) around.element).2 :=
    (Adds.of_push hg₁ he).trans
      (adds_addElement ts (hg₁ ▸ hself) hkind around.element)
  have hrelinked {g₁ : Growth} (h : Adds s g g₁) (f : Linking → Linking) :
      Adds s g (g₁.relink f) := h.trans (.of_eq rfl rfl)
  refine hrelinked ?_ _
  split
  · exact helement rfl rfl
  · exact helement rfl rfl

theorem adds_leave {kind : NodeKind} (h : g.leave s kind = .ok g') : Adds s g g' := by
  unfold leave at h
  split at h
  · split at h
    · cases h
    · cases h
      exact .of_eq rfl rfl
  · cases h
    exact .of_eq rfl rfl

mutual

theorem adds_addTree (s : GrowthSource) (around : Surroundings) (production : ParseTree) :
    (t : ParseTree) → ∀ {g g' : Growth}, addTree s around production t g = .ok g' → Adds s g g'
  | .leaf i, g, g', h => by
    rw [addTree] at h
    cases h
    exact adds_addLeaf s around.parent production i g
  | .node kind ts, g, g', h => by
    have hreach : Adds s g (g.reach s around.parent (.node kind ts)) := by
      rw [reach]
      split
      · exact adds_advance s _ _ g
      · exact .refl s g
    refine hreach.trans ?_
    obtain ⟨-, h⟩ | ⟨-, g₂, hts, h⟩ := cases_of_addTree h
    · exact adds_addTrees s _ _ ts h
    · exact (adds_addProduction s kind ts around _).trans
        ((adds_addTrees s _ _ ts hts).trans (adds_leave h))

theorem adds_addTrees (s : GrowthSource) (around : Surroundings) (production : ParseTree) :
    (ts : List ParseTree) → ∀ {g g' : Growth}, addTrees s around production ts g = .ok g' →
      Adds s g g'
  | [], g, g', h => by
    rw [addTrees] at h
    cases h
    exact .refl s g
  | t :: ts, g, g', h => by
    rw [addTrees] at h
    obtain ⟨g₁, ht, h⟩ := exists_of_bind h
    exact (adds_addTree s around production t ht).trans (adds_addTrees s around production ts h)

end

/-- **All elements are recorded** when all nodes are there. -/
theorem recorded_ofTree {tree : ParseTree} (h : ofTree s tree = .ok g) :
    ∀ e ∈ g.elements, e.Recorded s.library g.nodes := by
  cases tree with
  | leaf i =>
    rw [ofTree] at h
    cases h
    simp
  | node kind ts =>
    obtain ⟨g₁, hts, rfl⟩ := exists_of_ofTree h
    have hkind : (rootNode s kind).kind = kind := by
      rw [rootNode]
      split <;> rfl
    have hroot : Adds s {} (({} : Growth).add (rootNode s kind)).2 := .of_push rfl rfl
    have helement := adds_addElement (s := s) (g := (({} : Growth).add (rootNode s kind)).2) ts
      (i := 0) rfl hkind none
    have hleft : Adds s g₁ (g₁.relink .leave) := .of_eq rfl rfl
    have hall := ((hroot.trans helement).trans (adds_addTrees s _ _ ts hts)).trans
      (hleft.trans (adds_advance s s.marked.tokens.size rootId _))
    exact fun e he => (hall.elements e he).resolve_left (by simp)

end Growth

/-! ### Elements of the finished table -/

namespace NodeTable

variable {t u v : NodeTable}

/-- Do the elements of a table have the names, kinds and nodes of those of another? -/
def KeepsElements (t u : NodeTable) : Prop :=
  ∀ e ∈ u.elements, ∃ e' ∈ t.elements, e.name = e'.name ∧ e.kind = e'.kind ∧ e.node = e'.node

theorem KeepsElements.of_eq (h : u.elements = t.elements) : t.KeepsElements u :=
  fun e he => ⟨e, h ▸ he, rfl, rfl, rfl⟩

theorem KeepsElements.trans (h : t.KeepsElements u) (h' : u.KeepsElements v) :
    t.KeepsElements v := by
  intro e he
  obtain ⟨e', he', hn, hk, hi⟩ := h' e he
  obtain ⟨e'', he'', hn', hk', hi'⟩ := h e' he'
  exact ⟨e'', he'', hn.trans hn', hk.trans hk', hi.trans hi'⟩

theorem keepsElements_mapPlaces (t : NodeTable) (m : LocationMapper) :
    t.KeepsElements (t.mapPlaces m) := by
  intro e he
  obtain ⟨e', he', rfl⟩ := Array.mem_map.mp he
  exact ⟨e', he', rfl, rfl, rfl⟩

theorem elements_foldl {α : Type} {f : NodeTable → α → NodeTable}
    (h : ∀ u a, (f u a).elements = u.elements) (as : List α) (t : NodeTable) :
    (as.foldl f t).elements = t.elements := by
  induction as generalizing t with
  | nil => rfl
  | cons a as ih => rw [List.foldl_cons, ih, h]

theorem elements_link (ids : List NodeId) (t : NodeTable) : (t.link ids).elements = t.elements := by
  induction ids generalizing t with
  | nil => rfl
  | cons a ids ih =>
    cases ids with
    | nil => exact elements_modify t a _
    | cons b ids => rw [link, ih, elements_modify]

theorem elements_sortChildren (t : NodeTable) (p : NodeId) :
    (t.sortChildren p).elements = t.elements := by
  rw [sortChildren]
  split
  · rfl
  · rw [linkFamily, elements_link, elements_modify]

/-- Linking keeps the elements. -/
theorem elements_linked (s : GrowthSource) (g : Growth) : (g.linked s).elements = g.elements := by
  refine (elements_sortChildren _ _).trans (elements_foldl (fun u x => ?_) _ _)
  cases x with
  | append p c => exact elements_append u p c
  | sort p => exact elements_sortChildren u p

theorem elements_graftWithin (source : NodeTable) (depth : Nat) (id parent : NodeId)
    (t : NodeTable) : (source.graftWithin depth id parent t).elements = t.elements := by
  induction depth generalizing id parent t with
  | zero => rfl
  | succ depth ih =>
    rw [graftWithin]
    exact (elements_foldl (fun u child => ih child _ u) _ _).trans (elements_addChild t parent _)

theorem elements_graftDirectives (t directives : NodeTable) :
    (t.graftDirectives directives).elements = t.elements :=
  elements_foldl (fun u id => elements_graftWithin directives _ _ id u) _ t

/-- **Making the table of the nodes** keeps the elements. -/
theorem keepsElements_finish (s : GrowthSource) (g : Growth) (directives : NodeTable)
    (m : LocationMapper) :
    (g.table s).KeepsElements (((g.linked s).mapPlaces m).graftDirectives directives) :=
  (KeepsElements.of_eq (elements_linked s g)).trans
    ((keepsElements_mapPlaces _ m).trans (.of_eq (elements_graftDirectives _ directives)))

end NodeTable

/-! ### What declarations open with -/

/-- Does a node of an outline open with a node of the kind that it is to open with? -/
def OpensAs (a : NodeKind × Option String) (os : List (Outline (NodeKind × Option String))) :
    Prop :=
  ∀ k, a.1.opening? = some k → ∃ name below more, os = .node (k, name) below :: more

section Leaves

variable {k : SourceKind} {kind : NodeKind} {front : Bool}

theorem opening?_leafKind? (h : k.leafKind? = some kind) : kind.opening? = none := by
  unfold SourceKind.leafKind? at h
  split at h <;> cases h <;> rfl

theorem opening?_operatorKind? (h : k.operatorKind? front = some kind) : kind.opening? = none := by
  unfold SourceKind.operatorKind? at h
  cases front <;> split at h <;> cases h <;> rfl

theorem opening?_gateKind? (h : k.gateKind? = some kind) : kind.opening? = none := by
  unfold SourceKind.gateKind? at h
  split at h <;> cases h <;> rfl

theorem opening?_leafKindIn? {production : NodeKind}
    (h : leafKindIn? k production front = some kind) : kind.opening? = none := by
  unfold leafKindIn? at h
  split at h
  · rename_i hk
    cases h
    exact opening?_leafKind? hk
  · split at h
    · exact opening?_operatorKind? h
    · split at h
      case h_4 => exact opening?_gateKind? h
      case h_5 => cases h
      all_goals split at h <;> cases h; rfl

end Leaves

namespace ParseTree

variable {tokens : Array SourceToken} {production : ParseTree}

/-- What the grammar sees at a position is a token there. -/
theorem exists_token_of_visible {i : Nat} {k : SourceKind}
    (h : (i, k) ∈ SourceGrammar.visible tokens.toList) :
    ∃ token, tokens[i]? = some token ∧ token.kind = k := by
  obtain ⟨hmem, -⟩ := List.mem_filter.mp h
  obtain ⟨⟨token, j⟩, hj, he⟩ := List.mem_map.mp hmem
  obtain ⟨rfl, rfl⟩ := Prod.mk.inj he
  exact ⟨token, by simpa using List.mk_mem_zipIdx_iff_getElem?.mp hj, rfl⟩

/-- What a tree of a kind shows first is a node of that kind. -/
theorem outline_of_isOf (production : ParseTree) {t : ParseTree} {k : NodeKind}
    (hp : production.kind?.isSome)
    (h : t.IsOf (SourceGrammar.visible tokens.toList) k) :
    ∃ name below more, outline tokens production t = .node (k, name) below :: more := by
  cases t with
  | leaf i =>
    obtain ⟨s, hs, hk⟩ := h
    obtain ⟨token, hi, rfl⟩ := exists_token_of_visible hs
    obtain ⟨kind, hkind⟩ := Option.isSome_iff_exists.mp hp
    refine ⟨leafName? k token.text, [], [], ?_⟩
    simp [outline, leafLabel?, hi, hkind, leafKindIn?, hk]
  | node k' ts => exact ⟨none, _, [], by rw [outline, show k' = k from h]⟩

/-- Nothing is asked of leaves. -/
theorem opening?_leafLabel? {i : Nat} {a : NodeKind × Option String}
    (h : production.leafLabel? tokens i = some a) : a.1.opening? = none := by
  simp only [leafLabel?, bind, Option.bind_eq_some_iff, Option.some.injEq, pure] at h
  obtain ⟨token, -, _, -, kind, hkind, rfl⟩ := h
  exact opening?_leafKindIn? hkind

/-- The outlines below a production. -/
def outlineBelow (tokens : Array SourceToken) (kind : NodeKind) (ts : List ParseTree) :
    List (Outline (NodeKind × Option String)) :=
  if kind = .paOpaqueBody then [] else outlineAll tokens (.node kind ts) ts

section EveryOf

variable {V : NodeKind × Option String → List (Outline (NodeKind × Option String)) → Prop}

mutual

/-- **What holds of leaves and of productions** holds in the whole outline of a tree. -/
theorem everyOf_outline_of_leaves
    (hleaf : ∀ (production : ParseTree) i a, production.leafLabel? tokens i = some a → V a [])
    (production : ParseTree) :
    (t : ParseTree) → t.Every (fun kind ts => V (kind, none) (outlineBelow tokens kind ts)) →
      Outline.EveryOf V (outline tokens production t)
  | .leaf i, _ => by
    rw [outline]
    cases hl : production.leafLabel? tokens i with
    | none => trivial
    | some a => exact ⟨⟨hleaf production i a hl, trivial⟩, trivial⟩
  | .node kind ts, h => by
    rw [outline]
    refine ⟨⟨h.1, ?_⟩, trivial⟩
    split
    · trivial
    · exact everyOf_outlineAll_of_leaves hleaf (.node kind ts) ts h.2

theorem everyOf_outlineAll_of_leaves
    (hleaf : ∀ (production : ParseTree) i a, production.leafLabel? tokens i = some a → V a [])
    (production : ParseTree) :
    (ts : List ParseTree) →
      EveryOf (fun kind ts => V (kind, none) (outlineBelow tokens kind ts)) ts →
      Outline.EveryOf V (outlineAll tokens production ts)
  | [], _ => trivial
  | t :: ts, h => Outline.everyOf_append (everyOf_outline_of_leaves hleaf production t h.1)
      (everyOf_outlineAll_of_leaves hleaf production ts h.2)

end

/-- The same, of leaves that nothing is asked of. -/
theorem everyOf_outline (hleaf : ∀ a, a.1.opening? = none → V a []) (production : ParseTree)
    (t : ParseTree) (h : t.Every (fun kind ts => V (kind, none) (outlineBelow tokens kind ts))) :
    Outline.EveryOf V (outline tokens production t) :=
  everyOf_outline_of_leaves (fun _ _ a ha => hleaf a (opening?_leafLabel? ha)) production t h

end EveryOf

theorem opensAs_outline (production : ParseTree) {t : ParseTree}
    (h : t.Every (Opened (SourceGrammar.visible tokens.toList))) :
    Outline.EveryOf OpensAs (outline tokens production t) := by
  refine everyOf_outline (fun a ha k hk => ?_) production t (h.imp fun kind ts hopened k hk => ?_)
  · rw [ha] at hk
    cases hk
  · obtain ⟨u, us, rfl, hu⟩ := hopened k hk
    obtain ⟨name, below, more, he⟩ := outline_of_isOf (.node kind (u :: us)) rfl hu
    have hseen : kind ≠ .paOpaqueBody := by
      rintro rfl
      cases hk
    rw [outlineBelow, if_neg hseen, outlineAll, he]
    exact ⟨name, below, _, rfl⟩

end ParseTree

namespace NodeTable

variable {t : NodeTable}

/-- Each node below the root has its part of the outlines that stand there. -/
theorem exists_outline_of_below {V : NodeKind × Option String →
      List (Outline (NodeKind × Option String)) → Prop}
    {os : List (Outline (NodeKind × Option String))}
    (hat : Outline.AllAt t.skeleton os [t.root]) (hos : Outline.EveryOf V os) {id : NodeId}
    (hid : t.Below t.root id) :
    ∃ o : Outline (NodeKind × Option String), o.At t.skeleton id ∧ o.Every V := by
  induction hid with
  | root => exact Outline.exists_of_allAt hat hos t.root (by simp)
  | child _ hq ih =>
    obtain ⟨⟨a, below⟩, ⟨-, hbelow⟩, -, hevery⟩ := ih
    exact Outline.exists_of_allAt hbelow hevery _ hq

/-- **Below the root of a syntax tree** every node whose kind says how it opens does so. -/
theorem opens_below {os : List (Outline (NodeKind × Option String))}
    (hat : Outline.AllAt t.skeleton os [t.root]) (hos : Outline.EveryOf OpensAs os) {id : NodeId}
    (hid : t.Below t.root id) {k : NodeKind} (hk : (t.kind id).opening? = some k) :
    ∃ q ∈ t.shape id, t.kind q = k := by
  obtain ⟨⟨a, below⟩, ⟨rfl, hbelow⟩, hopens, -⟩ := exists_outline_of_below hat hos hid
  obtain ⟨name, more, rest, rfl⟩ := hopens k hk
  cases hs : t.skeleton.below id with
  | nil =>
    rw [hs] at hbelow
    exact hbelow.elim
  | cons q qs =>
    rw [hs] at hbelow
    exact ⟨q, by rw [show t.shape id = q :: qs from hs]; simp, congrArg Prod.fst hbelow.1.1⟩

/-! ### Nodes that are found -/

theorem kind_of_findWithin {k : NodeKind} {depth : Nat} {id q : NodeId}
    (h : t.findWithin k depth id = some q) : t.kind q = k := by
  induction depth generalizing id with
  | zero => cases h
  | succ depth ih =>
    rw [findWithin] at h
    split at h
    · rename_i hk
      exact Option.some.inj h ▸ beq_iff_eq.mp hk
    · obtain ⟨c, -, hc⟩ := List.exists_of_findSome?_eq_some h
      exact ih hc

/-- What stands directly below a node is found there. -/
theorem contains_first {k : NodeKind} {id q : NodeId} (hid : t.contains id)
    (hq : q ∈ t.children id) (hk : t.kind q = k) (hn : k ≠ .slNoType) :
    t.contains (t.first id k) := by
  obtain ⟨h0, hle⟩ := contains_iff.mp hid
  obtain ⟨n, hn'⟩ : ∃ n, t.size = n + 1 := ⟨t.size - 1, by omega⟩
  have hfound : (t.findWithin k (t.size + 1) id).isSome := by
    rw [hn', findWithin]
    split
    · rfl
    · rw [List.isSome_findSome?, List.any_eq_true]
      exact ⟨q, hq, by rw [findWithin, hk, beq_self_eq_true, if_pos rfl]; rfl⟩
  obtain ⟨r, hr⟩ := Option.isSome_iff_exists.mp hfound
  rw [first, if_neg (Nat.pos_iff_ne_zero.mp h0), hr]
  exact contains_of_kind (kind_of_findWithin hr) hn

/-- The first child of a kind is one of the children, where there is one. -/
theorem childOf_of_mem {k : NodeKind} {id q : NodeId} (hq : q ∈ t.children id) (hk : t.kind q = k) :
    t.childOf id k ∈ t.children id ∧ t.kind (t.childOf id k) = k := by
  obtain ⟨r, hr⟩ := Option.isSome_iff_exists.mp
    (List.find?_isSome (p := fun id => t.kind id == k).mpr ⟨q, hq, by simp [hk]⟩)
  rw [childOf, hr]
  exact ⟨List.mem_of_find?_eq_some hr,
    beq_iff_eq.mp (List.find?_some (p := fun id => t.kind id == k) hr)⟩

theorem contains_childOf {k : NodeKind} {id q : NodeId} (hq : q ∈ t.children id) (hk : t.kind q = k)
    (hn : k ≠ .slNoType) : t.contains (t.childOf id k) :=
  contains_of_kind (childOf_of_mem hq hk).2 hn

/-! ### Tables of files -/

/-- **What is known of the table of a file**: it can be read; its elements are named after a
library and declared below the root; and a declaration that opens with a word has that word. -/
structure Declares (t : NodeTable) : Prop where
  readable : t.Readable
  named : ∀ e ∈ t.elements, ∃ library dotted, e.name = some (library ++ "@" ++ dotted)
  declared : ∀ e ∈ t.elements, t.Below t.root e.node ∧ t.contains e.node ∧
    ElementKind.ofNode? (t.kind e.node) = some e.kind
  opening : ∀ id, t.Below t.root id → t.contains id → ∀ k, (t.kind id).opening? = some k →
    t.contains (t.first id k)

theorem opening?_ne {kind k : NodeKind} (h : kind.opening? = some k) : k ≠ .slNoType := by
  unfold NodeKind.opening? at h
  split at h <;> cases h <;> decide

/-- A table without nodes. -/
theorem declares_empty (file : Option String) (library : String) :
    Declares { file, library } := by
  have hchildren (p : NodeId) : ({ file, library } : NodeTable).children p = [] := by
    cases p <;> rfl
  have hcontains (p : NodeId) : ¬({ file, library } : NodeTable).contains p := by
    simp [contains, size]
  refine ⟨⟨fun p q hq => ?_, fun id _ hk => ?_⟩, by simp, by simp, fun id _ hid =>
    absurd hid (hcontains id)⟩
  · rw [hchildren] at hq
    cases hq
  · rw [kind, node_of_not_contains (hcontains id)] at hk
    cases hk

variable {s : GrowthSource} {g : Growth} {rows : List (Nat × Nat)} {m : LocationMapper}
  {directives v : NodeTable}

/-- What was made for the text and gives the tree its shape is below the root. -/
theorem Finished.below (h : Finished m directives (g.table s) v) (hg : g.Going s rows)
    {q : Nat} (hq : (g.table s).contains q) (hk : ((g.table s).kind q).isTrivia = false) :
    v.Below 1 q := by
  induction q using Nat.strong_induction_on with
  | _ q ih =>
    by_cases h1 : q = 1
    · exact h1 ▸ .root
    obtain ⟨hmem, hlt⟩ := h.connected hg (h.contains hq) h1
    have hpar := (h.fields hq).2.2
    rw [hpar] at hmem hlt
    have hc : (g.table s).contains ((g.table s).parent q) := contains_iff.mpr
      ⟨Nat.pos_of_ne_zero (hg.parent_pos q hq h1),
        Nat.le_of_lt (Nat.lt_of_lt_of_le hlt (contains_iff.mp hq).2)⟩
    refine (ih _ hlt hc (hg.parent_shape q hq)).child (mem_shape hmem ?_)
    rw [(h.fields hq).1]
    exact hk

end NodeTable

/-- A declaration of an element is no comment, blank or mark. -/
theorem ElementKind.isTrivia_ofNode? {kind : NodeKind} {k : ElementKind} (h : ofNode? kind = some k)
    :
    kind.isTrivia = false := by
  unfold ofNode? at h
  split at h <;> cases h <;> rfl

/-- **The syntax tree of a marked text declares its elements.** -/
theorem declares_syntaxTree {text : PreprocessedText} {s : GrowthSource} {tree : ParseTree}
    {m : LocationMapper} {t : NodeTable} (hm : MarkedText.ofText text = .ok s.marked)
    (ht : (SourceGrammar.parse s.marked.tokens.toList).1 = some tree)
    (h : syntaxTree s m tree = .ok t) : t.Declares := by
  obtain ⟨ts, g, rows, rfl, he, hg, ha, hnext, hshape⟩ := Growth.ofTree_of_parse hm ht
  rw [syntaxTree, he] at h
  obtain rfl := Except.ok.inj h
  have hf := (places_linked hg ha m).finished s.marked.text.nodes
  have helements := keepsElements_finish s g s.marked.text.nodes m
  change Declares (((g.linked s).mapPlaces m).graftDirectives s.marked.text.nodes)
  generalize ((g.linked s).mapPlaces m).graftDirectives s.marked.text.nodes = v at *
  have hroot : v.root = Growth.rootId := hf.root_eq hg
  have hopens {id : NodeId} (hid : v.Below v.root id) {k : NodeKind}
      (hk : (v.kind id).opening? = some k) : ∃ q ∈ v.shape id, v.kind q = k := by
    have hids : ∀ q ∈ [v.root], (g.table s).contains q ∧ ((g.table s).kind q).isTrivia = false :=
      List.forall_mem_singleton.mpr (hroot ▸ hg.root)
    exact opens_below (hf.outline_at hg hids (hroot ▸ hshape (.leaf 0)))
      (ParseTree.opensAs_outline _ (SourceGrammar.opened_parse ht)) hid hk
  have hrecorded : ∀ e ∈ v.elements, ∃ e' : DesignElement, e'.Recorded s.library g.nodes ∧
      e.name = e'.name ∧ e.kind = e'.kind ∧ e.node = e'.node := fun e he' => by
    obtain ⟨e', hmem, heq⟩ := helements e he'
    exact ⟨e', Growth.recorded_ofTree he e' hmem, heq⟩
  refine ⟨⟨fun p q hq => hf.sound.linked.contains p q hq, fun id hid hk => ?_⟩, fun e hmem => ?_,
    fun e hmem => ?_, fun id hid hc k hk => ?_⟩
  · have hname : (v.kind id).opening? = some .slStringConst := by
      rcases Bool.or_eq_true_iff.mp hk with hk | hk <;> rw [beq_iff_eq.mp hk] <;> rfl
    obtain ⟨q, hq, hqk⟩ := hopens hid hname
    exact contains_childOf (children_of_shape hq) hqk (by decide)
  · obtain ⟨e', ⟨⟨dotted, hdotted⟩, -⟩, hname, -⟩ := hrecorded e hmem
    exact ⟨s.library, dotted, hname.trans hdotted⟩
  · obtain ⟨e', ⟨-, i, n, hi, hn, hk⟩, -, hkind, hnode⟩ := hrecorded e hmem
    obtain ⟨hlt, hget⟩ := Array.getElem?_eq_some_iff.mp hn
    have hc : (g.table s).contains (i + 1) := contains_iff.mpr ⟨Nat.succ_pos i, hlt⟩
    have hnk : (g.table s).kind (i + 1) = n.kind := by
      rw [kind, node_succ hlt]
      exact congrArg Node.kind hget
    rw [hnode, hi, hkind, (hf.fields hc).1, hnk, hroot]
    exact ⟨hf.below hg hc (hnk ▸ ElementKind.isTrivia_ofNode? hk), hf.contains hc, hk⟩
  · obtain ⟨q, hq, hqk⟩ := hopens hid hk
    exact contains_first hc (children_of_shape hq) hqk (opening?_ne hk)

/-! ### Files -/

/-- What a program over a session gives, if it comes to an end. -/
def Reporting.Gives {α : Type} (Q : α → Prop) (x : Reporting α) : Prop :=
  ∀ s a s', x s = .ok a s' → Q a

namespace Reporting.Gives

variable {α β : Type} {Q : α → Prop} {R : β → Prop}

theorem pure {a : α} (h : Q a) : Gives Q (pure a) := by
  intro s a' s' hrun
  cases hrun
  exact h

theorem bind {x : Reporting α} {f : α → Reporting β} (hf : ∀ a, Gives R (f a)) :
    Gives R (x >>= f) := by
  intro s b s' hrun
  obtain ⟨a, s₁, -, hrun⟩ := Step.exists_of_bind hrun
  exact hf a s₁ b s' hrun

theorem throw (e : Failure) : Gives Q (throw e : Reporting α) := fun _ _ _ h => nomatch h

end Reporting.Gives

namespace SourceFile

/-- **The table of a file that has been read** declares its elements. -/
theorem declares_ofPreprocessed (p : PreprocessedText) :
    Reporting.Gives (fun f => f.nodes.Declares) (ofPreprocessed p) := by
  unfold ofPreprocessed
  refine .bind fun session => ?_
  split
  · exact .throw _
  · rename_i marked hm
    refine .bind fun _ => ?_
    split
    · exact .pure (declares_empty _ _)
    · rename_i tree ht
      dsimp only
      split
      · rename_i nodes hnodes
        exact .pure (declares_syntaxTree (s := ⟨marked, _, _⟩) hm ht hnodes)
      · exact .throw _

end SourceFile

end Verilog
