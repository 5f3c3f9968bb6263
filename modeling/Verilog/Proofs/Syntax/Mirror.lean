import Mathlib.Logic.Relation
import Verilog.Proofs.Syntax.Declarations

/-!
# How the elements of a syntax tree lie in each other

The declarations of a parse tree lie in each other, and so do the nodes that are made of them. An
element says in which other element it lies, by giving the place of that one among the elements.

While the tree is gone through, the innermost element around the next node is known at each step
(`Growth.Within`), and nodes that are made later stand around no earlier one: what is said of an
element when it is recorded stays true (`Growth.Mirrored`). In the end the elements are the
declarations in their order, each has the innermost element around its node for a parent, and the
names on the way down to it make up its own (`NodeTable.Mirrors`).
-/

namespace Verilog

/-! ### Nodes around nodes -/

/-- Is a node another one, or around it at whatever distance, if these are the parents? -/
def Encloses (up : NodeId → NodeId) : NodeId → NodeId → Prop :=
  Relation.ReflTransGen fun p q => up q = p

/-- **Does a node stand around another?** -/
def NodeTable.Around (t : NodeTable) : NodeId → NodeId → Prop :=
  Relation.TransGen fun p q => t.parent q = p

section Encloses

variable {up up' : NodeId → NodeId} {p q n : NodeId}

theorem NodeTable.around_iff {t : NodeTable} : t.Around p q ↔ Encloses t.parent p (t.parent q) :=
  Relation.TransGen.tail'_iff.trans ⟨fun ⟨_, h, he⟩ => he ▸ h, fun h => ⟨_, h, rfl⟩⟩

/-- What is around a node is that node, or is around its parent. -/
theorem encloses_iff : Encloses up p q ↔ p = q ∨ Encloses up p (up q) :=
  Relation.ReflTransGen.cases_tail_iff _ _ _ |>.trans <| or_congr eq_comm
    ⟨fun ⟨_, h, he⟩ => he ▸ h, fun h => ⟨_, h, rfl⟩⟩

theorem Encloses.le (hup : ∀ q, up q ≤ q) (h : Encloses up p q) : p ≤ q := by
  induction h with
  | refl => exact Nat.le_refl _
  | tail _ he ih => exact ih.trans (he ▸ hup _)

/-- What is around a node depends on the parents up to that node alone. -/
theorem Encloses.congr (hup : ∀ q, q ≤ n → up' q = up q ∧ up q ≤ q) (h : Encloses up p q)
    (hq : q ≤ n) : Encloses up' p q := by
  induction h with
  | refl => exact .refl
  | @tail b c _ he ih =>
    obtain ⟨heq, hle⟩ := hup c hq
    exact (ih ((he ▸ hle).trans hq)).tail (heq.trans he)

end Encloses

/-- **Is this the innermost of some elements** whose node is a node or around it? The element is
given by its place among them. -/
def IsInnermost (up : NodeId → NodeId) (es : Array DesignElement) (q : NodeId) :
    Option Nat → Prop
  | none => ∀ e ∈ es, ¬Encloses up e.node q
  | some j => ∃ p, es[j]? = some p ∧ Encloses up p.node q ∧
      ∀ e ∈ es, Encloses up e.node q → Encloses up e.node p.node

/-- Elements whose nodes come after a node are not around it. -/
theorem IsInnermost.mono {up : NodeId → NodeId} (hup : ∀ q, up q ≤ q)
    {es es' : Array DesignElement} {q : NodeId} {o : Option Nat}
    (hes : ∀ (i : Nat) e, es[i]? = some e → es'[i]? = some e)
    (hnew : ∀ e ∈ es', e ∈ es ∨ q < e.node) (h : IsInnermost up es q o) :
    IsInnermost up es' q o := by
  -- parents come first, so that nothing made later is around
  have hold : ∀ e ∈ es', Encloses up e.node q → e ∈ es := fun e he hencl =>
    (hnew e he).resolve_right (Nat.not_lt.mpr (hencl.le hup))
  cases o with
  | none => exact fun e he hencl => h e (hold e he hencl) hencl
  | some j =>
    obtain ⟨p, hp, hencl, hall⟩ := h
    exact ⟨p, hes j p hp, hencl, fun e he hencl => hall e (hold e he hencl) hencl⟩

/-- The elements are what is around a new node, if none is at it. -/
theorem IsInnermost.below {up : NodeId → NodeId} {es : Array DesignElement} {q : NodeId}
    {o : Option Nat} (hq : ∀ e ∈ es, e.node ≠ q) (h : IsInnermost up es (up q) o) :
    IsInnermost up es q o := by
  have hiff : ∀ e ∈ es, Encloses up e.node q ↔ Encloses up e.node (up q) := fun e he =>
    encloses_iff.trans (or_iff_right (hq e he))
  cases o with
  | none => exact fun e he hencl => h e he ((hiff e he).mp hencl)
  | some j =>
    obtain ⟨p, hp, hencl, hall⟩ := h
    exact ⟨p, hp, (hiff p (Array.mem_of_getElem? hp)).mpr hencl,
      fun e he hencl => hall e he ((hiff e he).mp hencl)⟩

/-! ### Declarations and what becomes of them -/

/-- **Is a node the one that a declaration becomes?** It is of the kind of the production, and goes
from the first of its tokens to the last. -/
structure Declaration.Becomes (s : GrowthSource) (d : Declaration) (n : Node) : Prop where
  kind : d.tree.kind? = some n.kind
  place : ∃ first last, d.tree.first?.bind (s.marked.tokens[·]?) = some first ∧
    d.tree.last?.bind (s.marked.tokens[·]?) = some last ∧
    (n.line, n.column) = first.begins ∧ (n.endLine, n.endColumn) = last.ends

/-- **The own names on the way down to an element**, from the outermost of those it lies in. -/
inductive PathTo (es : Array DesignElement) (ds : List Declaration) : Nat → List String → Prop
  | top {i : Nat} {e : DesignElement} {d : Declaration} (he : es[i]? = some e)
      (hd : ds[i]? = some d) (hp : e.parent = none) : PathTo es ds i [d.name]
  | within {i j : Nat} {e : DesignElement} {d : Declaration} {names : List String}
      (he : es[i]? = some e) (hd : ds[i]? = some d) (hp : e.parent = some j)
      (h : PathTo es ds j names) : PathTo es ds i (names ++ [d.name])

theorem PathTo.ne_nil {es : Array DesignElement} {ds : List Declaration} {i : Nat}
    {names : List String} (h : PathTo es ds i names) : names ≠ [] := by
  cases h <;> simp

/-- The way to an element is a matter of parents and names. -/
theorem PathTo.mono {es es' : Array DesignElement} {ds ds' : List Declaration} {i : Nat}
    {names : List String}
    (hes : ∀ (i : Nat) e, es[i]? = some e → ∃ e', es'[i]? = some e' ∧ e'.parent = e.parent)
    (hds : ∀ (i : Nat) d, ds[i]? = some d → ds'[i]? = some d) (h : PathTo es ds i names) :
    PathTo es' ds' i names := by
  induction h with
  | top he hd hp =>
    obtain ⟨e', he', hp'⟩ := hes _ _ he
    exact .top he' (hds _ _ hd) (hp'.trans hp)
  | within he hd hp _ ih =>
    obtain ⟨e', he', hp'⟩ := hes _ _ he
    exact .within he' (hds _ _ hd) (hp'.trans hp) ih

theorem intercalate_concat {names : List String} (h : names ≠ []) (name : String) :
    ".".intercalate (names ++ [name]) = ".".intercalate names ++ "." ++ name := by
  induction names with
  | nil => exact absurd rfl h
  | cons a names ih =>
    cases names with
    | nil => simp [String.intercalate_cons_cons]
    | cons b names =>
      have ih := ih (List.cons_ne_nil _ _)
      rw [List.cons_append] at ih
      rw [List.cons_append, List.cons_append, String.intercalate_cons_cons, ih,
        String.intercalate_cons_cons]
      simp [String.append_assoc]

/-! ### Elements while nodes are made -/

namespace Growth

open ParseTree

/-- **What growing does to nodes and elements**: they stay, and new elements have new nodes. -/
structure Enlarges (g g' : Growth) : Prop where
  nodes : ∀ (i : Nat) (n : Node), g.nodes[i]? = some n → g'.nodes[i]? = some n
  elements : ∀ (i : Nat) (e : DesignElement), g.elements[i]? = some e → g'.elements[i]? = some e
  later : ∀ e ∈ g'.elements, e ∈ g.elements ∨ g.nodes.size < e.node

/-- **What is said of the element** that a declaration is recorded as, when there are such nodes,
elements and declarations. -/
structure Records (up : NodeId → NodeId) (s : GrowthSource) (g : Growth) (ds : List Declaration)
    (i : Nat) (d : Declaration) (e : DesignElement) : Prop where
  kind : e.kind = d.kind
  number : e.uniqueId = i + 1
  node : ∃ n, g.nodes[e.node - 1]? = some n ∧ d.Becomes s n
  innermost : IsInnermost up g.elements (up e.node) e.parent
  name : ∃ names, PathTo g.elements ds i names ∧
    e.name = some (s.library ++ "@" ++ ".".intercalate names)

/-- **The elements that are recorded are those of the declarations** that were met. -/
structure Mirrored (up : NodeId → NodeId) (s : GrowthSource) (g : Growth) (ds : List Declaration) :
    Prop where
  length : ds.length = g.elements.size
  bounded : ∀ e ∈ g.elements, 0 < e.node ∧ e.node ≤ g.nodes.size
  ordered : (g.elements.toList.map (·.node)).Pairwise (· < ·)
  records : ∀ (i : Nat) e d, g.elements[i]? = some e → ds[i]? = some d → Records up s g ds i d e

/-- **What is around the next node** is there, and the element that it is to lie in is the innermost
around it. -/
structure Within (up : NodeId → NodeId) (g : Growth) (ds : List Declaration)
    (around : Surroundings) : Prop where
  le : around.parent ≤ g.nodes.size
  innermost : IsInnermost up g.elements around.parent (around.element.map (·.1))
  path : ∀ x, around.element = some x →
    ∃ names, PathTo g.elements ds x.1 names ∧ x.2 = ".".intercalate names

/-- Do the nodes have these parents? -/
def Agrees (up : NodeId → NodeId) (g : Growth) : Prop :=
  ∀ (i : Nat) (n : Node), g.nodes[i]? = some n → up (i + 1) = n.parent

variable {up : NodeId → NodeId} {s : GrowthSource} {g g' g'' : Growth}
  {ds ds' : List Declaration} {around : Surroundings}

theorem size_le_of_nodes (h : ∀ (i : Nat) (n : Node), g.nodes[i]? = some n →
    g'.nodes[i]? = some n) : g.nodes.size ≤ g'.nodes.size := by
  by_contra hlt
  have hlt := Nat.lt_of_not_le hlt
  have hn := h _ _ (Array.getElem?_eq_getElem hlt)
  rw [Array.getElem?_eq_none (Nat.le_refl _)] at hn
  cases hn

namespace Enlarges

theorem refl (g : Growth) : Enlarges g g := ⟨fun _ _ => id, fun _ _ => id, fun _ => .inl⟩

theorem trans (h : Enlarges g g') (h' : Enlarges g' g'') : Enlarges g g'' := by
  refine ⟨fun i n hn => h'.nodes i n (h.nodes i n hn),
    fun i e he => h'.elements i e (h.elements i e he), fun e he => ?_⟩
  rcases h'.later e he with he | hlt
  · exact h.later e he
  · exact .inr ((size_le_of_nodes h.nodes).trans_lt hlt)

/-- A step that leaves the elements alone. -/
theorem of_eq (hn : ∀ (i : Nat) (n : Node), g.nodes[i]? = some n → g'.nodes[i]? = some n)
    (he : g'.elements = g.elements) : Enlarges g g' :=
  ⟨hn, fun _ _ => by rw [he]; exact id, fun _ => by rw [he]; exact .inl⟩

theorem keeps (h : Enlarges g g') (i : Nat) (e : DesignElement) (he : g.elements[i]? = some e) :
    ∃ e', g'.elements[i]? = some e' ∧ e'.parent = e.parent :=
  ⟨e, h.elements i e he, rfl⟩

theorem later_of_le {q : NodeId} (h : Enlarges g g') (hq : q ≤ g.nodes.size) :
    ∀ e ∈ g'.elements, e ∈ g.elements ∨ q < e.node :=
  fun e he => (h.later e he).imp_right hq.trans_lt

end Enlarges

theorem Agrees.earlier (h : Agrees up g') (hg : Enlarges g g') : Agrees up g :=
  fun i n hn => h i n (hg.nodes i n hn)

/-! ### What was said stays true -/

section Later

variable (hup : ∀ q, up q ≤ q)

include hup

theorem Within.later (hg : Enlarges g g') (hds : ∀ (i : Nat) d, ds[i]? = some d → ds'[i]? = some d)
    (h : Within up g ds around) : Within up g' ds' around := by
  refine ⟨h.le.trans (size_le_of_nodes hg.nodes),
    h.innermost.mono hup hg.elements (hg.later_of_le h.le), fun x hx => ?_⟩
  obtain ⟨names, hpath, hdotted⟩ := h.path x hx
  exact ⟨names, hpath.mono hg.keeps hds, hdotted⟩

theorem Records.later {i : Nat} {d : Declaration} {e : DesignElement} (hg : Enlarges g g')
    (hds : ∀ (i : Nat) d, ds[i]? = some d → ds'[i]? = some d) (he : e.node ≤ g.nodes.size)
    (h : Records up s g ds i d e) : Records up s g' ds' i d e := by
  obtain ⟨n, hn, hbecomes⟩ := h.node
  obtain ⟨names, hpath, hname⟩ := h.name
  exact ⟨h.kind, h.number, ⟨n, hg.nodes _ n hn, hbecomes⟩,
    h.innermost.mono hup hg.elements (hg.later_of_le ((hup _).trans he)),
    names, hpath.mono hg.keeps hds, hname⟩

/-- A step that leaves the elements alone. -/
theorem Mirrored.of_eq (hn : ∀ (i : Nat) (n : Node), g.nodes[i]? = some n → g'.nodes[i]? = some n)
    (he : g'.elements = g.elements) (h : Mirrored up s g ds) : Mirrored up s g' ds := by
  refine ⟨by rw [he, h.length], ?_, by rw [he]; exact h.ordered, ?_⟩
  · rw [he]
    exact fun e hmem => ⟨(h.bounded e hmem).1, (h.bounded e hmem).2.trans (size_le_of_nodes hn)⟩
  · rw [he]
    intro i e d hi hd
    exact (h.records i e d hi hd).later hup (.of_eq hn he) (fun _ _ => id)
      (h.bounded e (Array.mem_of_getElem? hi)).2

end Later

/-! ### Steps -/

theorem elements_addHidden (s : GrowthSource) (p : NodeId) (g : Growth) :
    (g.addHidden s p).elements = g.elements := by
  unfold addHidden
  simp only
  split
  · rfl
  · split <;> first | rfl | (split <;> rfl)

theorem elements_advance (s : GrowthSource) (stop : Nat) (p : NodeId) (g : Growth) :
    (g.advance s stop p).elements = g.elements :=
  addHiddens_rel (R := fun g g' => g'.elements = g.elements) (fun _ => rfl)
    (fun h h' => h'.trans h) (elements_addHidden s p) _ g

theorem elements_addLeaf (s : GrowthSource) (p : NodeId) (production : ParseTree) (i : Nat)
    (g : Growth) : (g.addLeaf s p production i).elements = g.elements := by
  refine Eq.trans ?_ (elements_advance s i p g)
  unfold addLeaf
  simp only
  split
  · rfl
  · split <;> rfl

theorem elements_reach (s : GrowthSource) (p : NodeId) (t : ParseTree) (g : Growth) :
    (g.reach s p t).elements = g.elements := by
  rw [reach]
  split
  · exact elements_advance s _ p g
  · rfl

theorem nodes_reach (s : GrowthSource) (p : NodeId) (t : ParseTree) (g : Growth) :
    ∀ (i : Nat) (n : Node), g.nodes[i]? = some n → (g.reach s p t).nodes[i]? = some n := by
  rw [reach]
  split
  · exact (adds_advance s _ p g).nodes
  · exact fun _ _ => id

theorem elements_leave {kind : NodeKind} (h : g.leave s kind = .ok g') :
    g'.nodes = g.nodes ∧ g'.elements = g.elements := by
  unfold leave at h
  split at h
  · split at h
    · cases h
    · cases h
      exact ⟨rfl, rfl⟩
  · cases h
    exact ⟨rfl, rfl⟩

/-- **How a production is recorded**: not at all, or behind the other elements. -/
theorem addElement_cases (s : GrowthSource) (t : ParseTree) (id : NodeId)
    (around : Option (Nat × String)) (g : Growth) :
    (declaration? s.marked.tokens t = none ∧ g.addElement s t id around = (around, g)) ∨
    ∃ d e, declaration? s.marked.tokens t = some d ∧
      g.addElement s t id around =
        (some (g.elements.size, dottedName (around.map (·.2)) d.name),
          { g with elements := g.elements.push e }) ∧
      e.kind = d.kind ∧ e.node = id ∧ e.uniqueId = g.elements.size + 1 ∧
      e.parent = around.map (·.1) ∧
      e.name = some (s.library ++ "@" ++ dottedName (around.map (·.2)) d.name) := by
  rw [addElement, declaration?]
  cases t.kind?.bind ElementKind.ofNode? with
  | none => exact .inl ⟨rfl, rfl⟩
  | some kind =>
    cases declaredName? s.marked.tokens t with
    | none => exact .inl ⟨rfl, rfl⟩
    | some name =>
      cases around <;> exact .inr ⟨_, _, rfl, rfl, rfl, rfl, rfl, rfl, rfl⟩

section Production

variable {g₁ : Growth} {n : Node} {t : ParseTree} {d : Declaration} {e : DesignElement}

/-- The declarations keep their places when another one is met. -/
theorem getElem?_concat (d : Declaration) (i : Nat) (d' : Declaration) (h : ds[i]? = some d') :
    (ds ++ [d])[i]? = some d' := by
  rw [List.getElem?_append_left (List.getElem?_eq_some_iff.mp h).1, h]

theorem Enlarges.push (hn : ∀ (i : Nat) (n : Node), g.nodes[i]? = some n → g₁.nodes[i]? = some n)
    (hnode : e.node = g.nodes.size + 1) :
    Enlarges g { g₁ with elements := g.elements.push e } := by
  refine ⟨hn, fun i f hf => ?_, fun f hf => ?_⟩
  · rwa [Array.getElem?_push_lt (Array.getElem?_eq_some_iff.mp hf).1,
      ← Array.getElem?_eq_getElem]
  · exact (Array.mem_push.mp hf).imp_right fun hf => by rw [hf, hnode]; exact Nat.lt_succ_self _

/-- The way down to a new element goes on from the way to the one that it lies in. -/
theorem Within.exists_path (hw : Within up g ds around) (hg : Enlarges g g')
    (he : g'.elements[g.elements.size]? = some e) (hd : (ds ++ [d])[g.elements.size]? = some d)
    (hparent : e.parent = around.element.map (·.1)) :
    ∃ names, PathTo g'.elements (ds ++ [d]) g.elements.size names ∧
      dottedName (around.element.map (·.2)) d.name = ".".intercalate names := by
  cases hel : around.element with
  | none =>
    rw [hel] at hparent
    exact ⟨_, .top he hd hparent, by simp [dottedName]⟩
  | some x =>
    rw [hel] at hparent
    obtain ⟨names, hnames, hdotted⟩ := hw.path x hel
    refine ⟨_, .within he hd hparent (hnames.mono hg.keeps (getElem?_concat d)), ?_⟩
    rw [intercalate_concat hnames.ne_nil, ← hdotted]
    rfl

/-- **One more element** that is recorded as it should be. -/
theorem Mirrored.push (hup : ∀ q, up q ≤ q) (hg : Mirrored up s g ds) (hgrown : Enlarges g g')
    (he : g'.elements = g.elements.push e) (hnode : e.node = g.nodes.size + 1)
    (hle : e.node ≤ g'.nodes.size)
    (hnew : Records up s g' (ds ++ [d]) g.elements.size d e) : Mirrored up s g' (ds ++ [d]) := by
  refine ⟨by simp [he, hg.length], fun f hf => ?_, ?_, fun i f d' hf hd' => ?_⟩
  · rw [he] at hf
    rcases Array.mem_push.mp hf with hf | rfl
    · obtain ⟨hpos, hf⟩ := hg.bounded f hf
      exact ⟨hpos, hf.trans (size_le_of_nodes hgrown.nodes)⟩
    · exact ⟨hnode ▸ Nat.succ_pos _, hle⟩
  · rw [he, Array.toList_push, List.map_append, List.map_singleton, List.pairwise_append]
    refine ⟨hg.ordered, List.pairwise_singleton _ _, fun q hq r hr => ?_⟩
    obtain ⟨f, hf, rfl⟩ := List.mem_map.mp hq
    rw [List.mem_singleton.mp hr, hnode]
    exact Nat.lt_succ_of_le (hg.bounded f (Array.mem_toList_iff.mp hf)).2
  · rw [he] at hf
    by_cases hi : i < g.elements.size
    · rw [Array.getElem?_push_lt hi, ← Array.getElem?_eq_getElem hi] at hf
      rw [List.getElem?_append_left (hg.length ▸ hi)] at hd'
      exact (hg.records i f d' hf hd').later hup hgrown (getElem?_concat d)
        (hg.bounded f (Array.mem_of_getElem? hf)).2
    · obtain rfl : i = g.elements.size := by
        have hlt := (Array.getElem?_eq_some_iff.mp hf).1
        rw [Array.size_push] at hlt
        omega
      obtain rfl : e = f := by simpa using hf
      obtain rfl : d = d' := by simpa [← hg.length] using hd'
      exact hnew

/-- **A production is recorded** when its node has been made. -/
theorem mirrored_addElement (hup : ∀ q, up q ≤ q) (hg : Mirrored up s g ds)
    (hw : Within up g ds around) (hn : g₁.nodes = g.nodes.push n) (he : g₁.elements = g.elements)
    (hid : up (g.nodes.size + 1) = around.parent)
    (hbecomes : ∀ d, declaration? s.marked.tokens t = some d → d.Becomes s n) :
    let r := g₁.addElement s t (g.nodes.size + 1) around.element
    let ds' := ds ++ (declaration? s.marked.tokens t).toList
    Mirrored up s r.2 ds' ∧ Within up r.2 ds' ⟨g.nodes.size + 1, r.1⟩ ∧ Enlarges g r.2 := by
  have hnodes : ∀ (i : Nat) (m : Node), g.nodes[i]? = some m → g₁.nodes[i]? = some m :=
    (Adds.of_push (s := s) hn he).nodes
  have hsize : g₁.nodes.size = g.nodes.size + 1 := by rw [hn, Array.size_push]
  rcases addElement_cases s t (g.nodes.size + 1) around.element g₁ with
    ⟨hnone, hr⟩ | ⟨d, e, hd, hr, hkind, hnode, hnumber, hparent, hname⟩
  · rw [hr, hnone, Option.toList_none, List.append_nil]
    refine ⟨hg.of_eq hup hnodes he, ⟨Nat.le_of_eq hsize.symm, ?_, ?_⟩, .of_eq hnodes he⟩
    · rw [he]
      refine IsInnermost.below (fun e hmem => ?_) (hid.symm ▸ hw.innermost)
      exact Nat.ne_of_lt (Nat.lt_succ_of_le (hg.bounded e hmem).2)
    · rw [he]
      exact hw.path
  · rw [hr, hd, Option.toList_some, he]
    rw [he] at hnumber
    have hgrown : Enlarges g { g₁ with elements := g.elements.push e } := .push hnodes hnode
    have hself : (g.elements.push e)[g.elements.size]? = some e := by simp
    have hown : (ds ++ [d])[g.elements.size]? = some d := by simp [← hg.length]
    have hpath := hw.exists_path hgrown hself hown hparent
    refine ⟨hg.push hup hgrown rfl hnode (hnode ▸ Nat.le_of_eq hsize.symm) ?_,
      ⟨Nat.le_of_eq hsize.symm, ⟨e, hself, hnode ▸ .refl, fun f _ hencl => hnode ▸ hencl⟩, ?_⟩,
      hgrown⟩
    · obtain ⟨names, hnames, hdotted⟩ := hpath
      refine ⟨hkind, hnumber, ⟨n, ?_, hbecomes _ hd⟩, ?_, names, hnames, by rw [hname, hdotted]⟩
      · rw [hnode, hn]
        simp
      · rw [hnode, hid, hparent]
        exact hw.innermost.mono hup hgrown.elements (hgrown.later_of_le hw.le)
    · rintro x hx
      obtain rfl := Option.some.inj hx
      exact hpath

/-- How nodes are linked makes no difference to the elements. -/
theorem mirrored_relink (hup : ∀ q, up q ≤ q)
    (h : Mirrored up s g₁ ds ∧ Within up g₁ ds around ∧ Enlarges g g₁) (f : Linking → Linking) :
    Mirrored up s (g₁.relink f) ds ∧ Within up (g₁.relink f) ds around ∧
      Enlarges g (g₁.relink f) := by
  obtain ⟨hmirrored, hwithin, hlarger⟩ := h
  have hsame : Enlarges g₁ (g₁.relink f) := .of_eq (fun _ _ => id) rfl
  exact ⟨hmirrored.of_eq hup hsame.nodes rfl, ⟨hwithin.le, hwithin.innermost, hwithin.path⟩,
    hlarger.trans hsame⟩

theorem productionNode_spec (s : GrowthSource) (kind : NodeKind) (first last : Option SourceToken)
    (p : NodeId) (g : Growth) :
    let n := g.productionNode s kind first last p
    n.kind = kind ∧ n.parent = p ∧ ∀ t u, first = some t → last = some u →
      (n.line, n.column) = t.begins ∧ (n.endLine, n.endColumn) = u.ends := by
  cases first with
  | none => exact ⟨rfl, rfl, fun _ _ ht _ => nomatch ht⟩
  | some t =>
    cases last with
    | none => exact ⟨rfl, rfl, fun _ _ _ hu => nomatch hu⟩
    | some u =>
      refine ⟨rfl, rfl, fun t' u' ht hu => ?_⟩
      obtain rfl := Option.some.inj ht
      obtain rfl := Option.some.inj hu
      exact ⟨rfl, rfl⟩

theorem mirrored_addProduction (hup : ∀ q, up q ≤ q) {kind : NodeKind} {ts : List ParseTree}
    (hg : Mirrored up s g ds) (hw : Within up g ds around)
    (hagrees : Agrees up (g.addProduction s (.node kind ts) kind around).2)
    (hseen : ∀ i ∈ leavesAll ts, ∃ token, s.marked.tokens[i]? = some token) :
    let r := g.addProduction s (.node kind ts) kind around
    let ds' := ds ++ (declaration? s.marked.tokens (.node kind ts)).toList
    Mirrored up s r.2 ds' ∧ Within up r.2 ds' r.1 ∧ Enlarges g r.2 := by
  obtain ⟨-, hnodes, -⟩ := addProduction_spec s (.node kind ts) kind around g
  obtain ⟨hkind, hparent, hplace⟩ := productionNode_spec s kind
    ((ParseTree.node kind ts).first?.bind (s.marked.tokens[·]?))
    ((ParseTree.node kind ts).last?.bind (s.marked.tokens[·]?)) around.parent g
  have hid : up (g.nodes.size + 1) = around.parent := by
    rw [← hparent]
    refine hagrees g.nodes.size _ ?_
    rw [hnodes]
    simp
  have hbecomes (d : Declaration) (hd : declaration? s.marked.tokens (.node kind ts) = some d) :
      d.Becomes s (g.productionNode s kind
        ((ParseTree.node kind ts).first?.bind (s.marked.tokens[·]?))
        ((ParseTree.node kind ts).last?.bind (s.marked.tokens[·]?)) around.parent) := by
    obtain ⟨first, last, hfirst, hlast⟩ := exists_ends_of_declaration? hd hseen
    obtain ⟨htree, -⟩ := declaration?_eq_some hd
    obtain ⟨hbegins, hends⟩ := hplace first last hfirst hlast
    exact ⟨by rw [htree, hkind]; rfl, first, last, by rw [htree, hfirst], by rw [htree, hlast],
      hbegins, hends⟩
  rw [addProduction]
  dsimp only
  refine mirrored_relink hup ?_ _
  split
  · exact mirrored_addElement hup hg hw rfl rfl hid hbecomes
  · exact mirrored_addElement hup hg hw rfl rfl hid hbecomes

end Production

/-! ### Trees -/

mutual

/-- **Going through a tree** records its declarations, unless an opaque body is open. -/
theorem mirrored_addTree (hup : ∀ q, up q ≤ q) (around : Surroundings) (production : ParseTree) :
    (t : ParseTree) → ∀ {g g' : Growth} {ds : List Declaration},
      addTree s around production t g = .ok g' → Agrees up g' →
      (∀ i ∈ t.leaves, ∃ token, s.marked.tokens[i]? = some token) → Mirrored up s g ds →
      Within up g ds around → 0 ≤ g.pauses →
      Mirrored up s g' (ds ++ if 0 < g.pauses then [] else t.recorded s.marked.tokens) ∧
        Enlarges g g'
  | .leaf i, g, g', ds, h, _, _, hg, _, _ => by
    rw [addTree] at h
    cases h
    have hnodes := (adds_addLeaf s around.parent production i g).nodes
    have helements := elements_addLeaf s around.parent production i g
    rw [recorded, ite_self, List.append_nil]
    exact ⟨hg.of_eq hup hnodes helements, .of_eq hnodes helements⟩
  | .node kind ts, g, g', ds, h, hagrees, hseen, hg, hw, h0 => by
    have h := cases_of_addTree h
    have hreach : Enlarges g (g.reach s around.parent (.node kind ts)) :=
      .of_eq (nodes_reach s _ _ g) (elements_reach s _ _ g)
    have hg := hg.of_eq hup (nodes_reach s _ _ g) (elements_reach s around.parent (.node kind ts) g)
    have hw := hw.later hup hreach fun _ _ => id
    rw [← (declared_reach s around.parent (.node kind ts) g).pauses] at h0 ⊢
    generalize g.reach s around.parent (.node kind ts) = g₁ at h hreach hg hw h0 ⊢
    obtain ⟨hpaused, h⟩ | ⟨hpaused, g₂, hts, h⟩ := h
    -- in an opaque body nothing is recorded, at whatever depth
    · obtain ⟨hmirrored, henlarges⟩ :=
        mirrored_addTrees hup around (.node kind ts) ts h hagrees hseen hg hw h0
      rw [if_pos hpaused] at hmirrored ⊢
      exact ⟨hmirrored, hreach.trans henlarges⟩
    · obtain ⟨hnodes, helements⟩ := elements_leave h
      obtain ⟨-, -, -, -, hpauses⟩ := addProduction_spec s (.node kind ts) kind around g₁
      have hagrees₂ : Agrees up g₂ := by
        rw [Agrees, ← hnodes]
        exact hagrees
      have hagreesr : Agrees up (g₁.addProduction s (.node kind ts) kind around).2 :=
        fun i n hn => hagrees₂ i n ((adds_addTrees s _ _ ts hts).nodes i n hn)
      obtain ⟨hgr, hwr, hown⟩ := mirrored_addProduction hup hg hw hagreesr hseen
      generalize g₁.addProduction s (.node kind ts) kind around = r at hts hpauses hgr hwr hown
      obtain ⟨hmirrored, henlarges⟩ := mirrored_addTrees hup r.1 (.node kind ts) ts hts hagrees₂
        hseen hgr hwr (by rw [hpauses]; split <;> omega)
      -- below the production it is this production alone that can have opened a body
      have hbody : (0 < r.2.pauses) = (kind = .paOpaqueBody) := by
        rw [hpauses]
        by_cases hk : kind = .paOpaqueBody
        · simp only [hk, if_true, eq_iff_iff, iff_true]
          omega
        · simpa only [hk, if_false, eq_iff_iff, iff_false, Int.add_zero] using hpaused
      have hback : ∀ (i : Nat) (n : Node), g₂.nodes[i]? = some n → g'.nodes[i]? = some n := by
        rw [hnodes]
        exact fun _ _ => id
      rw [if_neg hpaused, recorded, ← List.append_assoc]
      simp only [hbody] at hmirrored
      exact ⟨hmirrored.of_eq hup hback helements,
        hreach.trans (hown.trans (henlarges.trans (.of_eq hback helements)))⟩

theorem mirrored_addTrees (hup : ∀ q, up q ≤ q) (around : Surroundings) (production : ParseTree) :
    (ts : List ParseTree) → ∀ {g g' : Growth} {ds : List Declaration},
      addTrees s around production ts g = .ok g' → Agrees up g' →
      (∀ i ∈ leavesAll ts, ∃ token, s.marked.tokens[i]? = some token) → Mirrored up s g ds →
      Within up g ds around → 0 ≤ g.pauses →
      Mirrored up s g' (ds ++ if 0 < g.pauses then [] else recordedAll s.marked.tokens ts) ∧
        Enlarges g g'
  | [], g, g', ds, h, _, _, hg, _, _ => by
    rw [addTrees] at h
    cases h
    rw [recordedAll, ite_self, List.append_nil]
    exact ⟨hg, .refl g⟩
  | t :: ts, g, g', ds, h, hagrees, hseen, hg, hw, h0 => by
    rw [addTrees] at h
    obtain ⟨g₁, ht, h⟩ := exists_of_bind h
    have hagrees₁ : Agrees up g₁ :=
      fun i n hn => hagrees i n ((adds_addTrees s _ _ ts h).nodes i n hn)
    have hpauses := (declared_addTree s around production t ht h0).pauses
    obtain ⟨hg₁, hlarger⟩ := mirrored_addTree hup around production t ht hagrees₁
      (fun i hi => hseen i (List.mem_append_left _ hi)) hg hw h0
    -- what is around the trees has not changed, however many declarations the first one has
    have hkept (more : List Declaration) :
        ∀ (i : Nat) d, ds[i]? = some d → (ds ++ more)[i]? = some d := fun i d hd => by
      rw [List.getElem?_append_left (List.getElem?_eq_some_iff.mp hd).1, hd]
    have hw₁ (more : List Declaration) := hw.later hup hlarger (hkept more)
    obtain ⟨hg₂, hlarger₂⟩ := mirrored_addTrees hup around production ts h hagrees
      (fun i hi => hseen i (List.mem_append_right _ hi)) hg₁ (hw₁ _) (hpauses ▸ h0)
    refine ⟨?_, hlarger.trans hlarger₂⟩
    rw [hpauses, List.append_assoc] at hg₂
    rw [recordedAll]
    by_cases hpaused : 0 < g.pauses <;> simpa [hpaused] using hg₂

end

/-- **The elements of a whole tree** are its declarations. -/
theorem mirrored_ofTree {ts : List ParseTree} (hup : ∀ q, up q ≤ q)
    (h : ofTree s (.node .paTopLevelRule ts) = .ok g) (hagrees : Agrees up g)
    (hseen : ∀ i ∈ leavesAll ts, ∃ token, s.marked.tokens[i]? = some token) :
    Mirrored up s g ((ParseTree.node .paTopLevelRule ts).recorded s.marked.tokens) := by
  obtain ⟨g₁, hts, rfl⟩ := exists_of_ofTree h
  have hnone : declaration? s.marked.tokens (.node .paTopLevelRule ts) = none := rfl
  rcases addElement_cases s (.node .paTopLevelRule ts) rootId none
    (({} : Growth).add (rootNode s .paTopLevelRule)).2 with ⟨-, hr⟩ | ⟨_, _, hsome, -⟩
  swap
  · rw [hnone] at hsome
    cases hsome
  rw [hr] at hts
  have hleft : Adds s g₁ (g₁.relink .leave) := .of_eq rfl rfl
  have hlast := hleft.trans (adds_advance s s.marked.tokens.size rootId _)
  have hroot : (({} : Growth).add (rootNode s .paTopLevelRule)).2.elements = #[] := rfl
  have hstart : Mirrored up s (({} : Growth).add (rootNode s .paTopLevelRule)).2 [] :=
    ⟨rfl, by simp [hroot], by simp [hroot], by simp [hroot]⟩
  have hwithin : Within up (({} : Growth).add (rootNode s .paTopLevelRule)).2 []
      ⟨rootId, none⟩ :=
    ⟨Nat.le_refl _, fun e he => by simp [hroot] at he, fun _ hx => nomatch hx⟩
  obtain ⟨hmirrored, -⟩ := mirrored_addTrees hup ⟨rootId, none⟩ _ ts hts
    (fun i n hn => hagrees i n (hlast.nodes i n hn)) hseen hstart hwithin (Int.le_refl 0)
  exact hmirrored.of_eq hup hlast.nodes
    (elements_advance s s.marked.tokens.size rootId (g₁.relink .leave))

end Growth

/-! ### The finished table -/

namespace NodeTable

/-- **What it means that the elements of a table mirror declarations.** -/
structure Mirrors (t : NodeTable) (s : GrowthSource) (m : LocationMapper) (ds : List Declaration) :
    Prop where
  /-- There is one element for each declaration, in the same order. -/
  length : t.elements.size = ds.length
  /-- It is of the kind of the declaration, and its node is what the production became. -/
  declared : ∀ (i : Nat) e d, t.elements[i]? = some e → ds[i]? = some d →
    e.kind = d.kind ∧ ∃ n, d.Becomes s n ∧ (t.node e.node).unlinked = (m.mapNode n).unlinked
  numbered : ∀ (i : Nat) e, t.elements[i]? = some e → e.uniqueId = i + 1
  ordered : (t.elements.toList.map (·.node)).Pairwise (· < ·)
  /-- The parent comes before the element, and is the innermost of those around it. -/
  parent : ∀ (i : Nat) e j, t.elements[i]? = some e → e.parent = some j → j < i ∧
    ∃ p, t.elements[j]? = some p ∧ t.Around p.node e.node ∧
      ∀ q ∈ t.elements, t.Around q.node e.node → q.node = p.node ∨ t.Around q.node p.node
  /-- No element is around one without a parent. -/
  outermost : ∀ e ∈ t.elements, e.parent = none → ∀ q ∈ t.elements, ¬t.Around q.node e.node
  /-- The name tells the way down to the element. -/
  named : ∀ (i : Nat) e, t.elements[i]? = some e → ∃ names, PathTo t.elements ds i names ∧
    e.name = some (s.library ++ "@" ++ ".".intercalate names)

variable {s : GrowthSource} {g : Growth} {rows : List (Nat × Nat)} {m : LocationMapper}
  {directives v : NodeTable} {ds : List Declaration}

/-- Is an element another one but for its place? -/
structure SameElement (e f : DesignElement) : Prop where
  name : f.name = e.name
  kind : f.kind = e.kind
  uniqueId : f.uniqueId = e.uniqueId
  node : f.node = e.node
  parent : f.parent = e.parent

/-- Elements are only led back to their places. -/
theorem exists_elements_finish (s : GrowthSource) (g : Growth) (directives : NodeTable)
    (m : LocationMapper) :
    ∃ place, (((g.linked s).mapPlaces m).graftDirectives directives).elements =
      g.elements.map place ∧ ∀ e, SameElement e (place e) := by
  rw [elements_graftDirectives, mapPlaces, ← elements_linked s g]
  exact ⟨_, rfl, fun e => ⟨rfl, rfl, rfl, rfl, rfl⟩⟩

theorem parent_of_not_contains {t : NodeTable} {q : NodeId} (h : ¬t.contains q) :
    t.parent q = 0 := by
  rw [parent, node_of_not_contains h]

/-- No parent is later than its node. -/
theorem parent_le (hg : g.Going s rows) (q : NodeId) : (g.table s).parent q ≤ q := by
  by_cases hq : (g.table s).contains q
  · exact Nat.le_of_lt (hg.parent_lt q hq)
  · rw [parent_of_not_contains hq]
    exact Nat.zero_le q

/-- The nodes that were made for a text are around each other as they were. -/
theorem Finished.around_iff (hf : Finished m directives (g.table s) v) (hg : g.Going s rows)
    {p q : NodeId} (hq : (g.table s).contains q) :
    v.Around p q ↔ Encloses (g.table s).parent p ((g.table s).parent q) := by
  have hup : ∀ r, r ≤ g.nodes.size → v.parent r = (g.table s).parent r ∧
      (g.table s).parent r ≤ r := fun r hr => by
    refine ⟨?_, parent_le hg r⟩
    by_cases h0 : r = 0
    · have hnot {t : NodeTable} : ¬t.contains r := by simp [contains_iff, h0]
      rw [parent_of_not_contains hnot, parent_of_not_contains hnot]
    · exact (hf.fields (contains_iff.mpr ⟨Nat.pos_of_ne_zero h0, hr⟩)).2.2
  have hle : (g.table s).parent q ≤ g.nodes.size :=
    (Nat.le_of_lt (hg.parent_lt q hq)).trans (contains_iff.mp hq).2
  rw [NodeTable.around_iff, (hf.fields hq).2.2]
  refine ⟨fun h => h.congr (fun r hr => ?_) hle, fun h => h.congr hup hle⟩
  obtain ⟨heq, hr⟩ := hup r hr
  exact ⟨heq.symm, heq ▸ hr⟩

/-- Elements with nodes in order are told apart by their nodes. -/
theorem lt_of_ordered {es : Array DesignElement} (h : (es.toList.map (·.node)).Pairwise (· < ·))
    {i j : Nat} {e p : DesignElement} (he : es[i]? = some e) (hp : es[j]? = some p)
    (hlt : p.node < e.node) : j < i := by
  rw [List.pairwise_map, List.pairwise_iff_getElem] at h
  obtain ⟨hi, rfl⟩ := Array.getElem?_eq_some_iff.mp he
  obtain ⟨hj, rfl⟩ := Array.getElem?_eq_some_iff.mp hp
  rcases Nat.lt_trichotomy j i with hji | rfl | hij
  · exact hji
  · exact absurd hlt (Nat.lt_irrefl _)
  · exact absurd (h i j hi hj hij) (Nat.not_lt.mpr (Nat.le_of_lt hlt))

section Finish

variable {place : DesignElement → DesignElement}
  (hf : Finished m directives (g.table s) v) (hg : g.Going s rows)
  (hplace : v.elements = g.elements.map place) (hsame : ∀ e, SameElement e (place e))
  (h : Growth.Mirrored (g.table s).parent s g ds)

include hplace hsame

theorem exists_kept {i : Nat} {e : DesignElement} (he : g.elements[i]? = some e) :
    ∃ f, v.elements[i]? = some f ∧ SameElement e f :=
  ⟨place e, by rw [hplace, Array.getElem?_map, he]; rfl, hsame e⟩

include h

/-- An element of the finished table is one that was recorded. -/
theorem exists_records {i : Nat} {f : DesignElement} (hi : v.elements[i]? = some f) :
    ∃ e d, g.elements[i]? = some e ∧ ds[i]? = some d ∧ SameElement e f ∧
      Growth.Records (g.table s).parent s g ds i d e := by
  rw [hplace, Array.getElem?_map, Option.map_eq_some_iff] at hi
  obtain ⟨e, he, rfl⟩ := hi
  have hlt : i < ds.length := h.length ▸ (Array.getElem?_eq_some_iff.mp he).1
  have hd : ds[i]? = some ds[i] := List.getElem?_eq_getElem hlt
  exact ⟨e, ds[i], he, hd, hsame e, h.records i e _ he hd⟩

include hf hg

/-- An element of the finished table has the node of its declaration, and its parent is innermost
around it. -/
theorem finished_element {i : Nat} {f : DesignElement} (hi : v.elements[i]? = some f) :
    (g.table s).contains f.node ∧
    (∃ d n, ds[i]? = some d ∧ d.Becomes s n ∧
      (v.node f.node).unlinked = (m.mapNode n).unlinked) ∧
    ∀ p, v.Around p f.node ↔ Encloses (g.table s).parent p ((g.table s).parent f.node) := by
  obtain ⟨e, d, he, hd, hef, hrec⟩ := exists_records hplace hsame h hi
  have hc : (g.table s).contains e.node :=
    contains_iff.mpr (h.bounded e (Array.mem_of_getElem? he))
  obtain ⟨n, hn, hbecomes⟩ := hrec.node
  have hnode : (g.table s).node e.node = n := by
    obtain ⟨hpos, hle⟩ := contains_iff.mp hc
    have hlt : e.node - 1 < g.nodes.size := Nat.sub_one_lt_of_le hpos hle
    rw [← Nat.sub_add_cancel hpos, node_succ hlt]
    exact (Array.getElem?_eq_some_iff.mp hn).2
  rw [hef.node]
  exact ⟨hc, ⟨d, n, hd, hbecomes, hnode ▸ hf.node e.node hc⟩, fun _ => hf.around_iff hg hc⟩

/-- **Finishing a table** keeps what its elements mirror. -/
theorem mirrors_of_mirrored : v.Mirrors s m ds := by
  have hparent {i : Nat} {f : DesignElement} (hi : v.elements[i]? = some f) :
      IsInnermost (g.table s).parent g.elements ((g.table s).parent f.node) f.parent := by
    obtain ⟨e, d, -, -, hef, hrec⟩ := exists_records hplace hsame h hi
    rw [hef.node, hef.parent]
    exact hrec.innermost
  have hmem {q : DesignElement} (hq : q ∈ v.elements) : ∃ r ∈ g.elements, SameElement r q := by
    obtain ⟨r, hr, rfl⟩ := Array.mem_map.mp (hplace ▸ hq)
    exact ⟨r, hr, hsame r⟩
  have hordered : (v.elements.toList.map (·.node)).Pairwise (· < ·) := by
    rw [hplace, Array.toList_map, List.map_map]
    exact (List.map_congr_left fun e _ => (hsame e).node) ▸ h.ordered
  refine ⟨?_, ?_, ?_, hordered, ?_, ?_, ?_⟩
  · rw [hplace, Array.size_map, h.length]
  · intro i f d hi hd
    obtain ⟨e, d', -, hd', hef, hrec⟩ := exists_records hplace hsame h hi
    obtain rfl := Option.some.inj (hd.symm.trans hd')
    obtain ⟨-, ⟨d', n, hd', hbecomes, hnode⟩, -⟩ := finished_element hf hg hplace hsame h hi
    obtain rfl := Option.some.inj (hd.symm.trans hd')
    exact ⟨hef.kind.trans hrec.kind, n, hbecomes, hnode⟩
  · intro i f hi
    obtain ⟨e, d, -, -, hef, hrec⟩ := exists_records hplace hsame h hi
    exact hef.uniqueId.trans hrec.number
  · intro i f j hi hj
    obtain ⟨hc, -, haround⟩ := finished_element hf hg hplace hsame h hi
    have hinner := hparent hi
    rw [hj] at hinner
    obtain ⟨p, hp, hencl, hall⟩ := hinner
    obtain ⟨p', hp', hpp'⟩ := exists_kept hplace hsame hp
    obtain ⟨-, -, haround'⟩ := finished_element hf hg hplace hsame h hp'
    have hbelow : v.Around p'.node f.node := (haround _).mpr (hpp'.node ▸ hencl)
    -- the elements stand in the order of their nodes, and what is around a node is made before it
    refine ⟨lt_of_ordered hordered hi hp' ?_, p', hp', hbelow, fun q hq hqf => ?_⟩
    · rw [hpp'.node]
      exact Nat.lt_of_le_of_lt (hencl.le (parent_le hg)) (hg.parent_lt f.node hc)
    · obtain ⟨r, hr, hrq⟩ := hmem hq
      rw [haround, hrq.node] at hqf
      rw [haround', hrq.node, hpp'.node]
      exact encloses_iff.mp (hall r hr hqf)
  · intro f hf' hnone q hq hqf
    obtain ⟨i, hi⟩ := Array.mem_iff_getElem?.mp hf'
    obtain ⟨-, -, haround⟩ := finished_element hf hg hplace hsame h hi
    obtain ⟨r, hr, hrq⟩ := hmem hq
    have hinner := hparent hi
    rw [hnone] at hinner
    exact hinner r hr (hrq.node ▸ (haround _).mp hqf)
  · intro i f hi
    obtain ⟨e, d, -, -, hef, hrec⟩ := exists_records hplace hsame h hi
    obtain ⟨names, hpath, hname⟩ := hrec.name
    refine ⟨names, hpath.mono (fun i e he => ?_) (fun _ _ => id), hef.name.trans hname⟩
    obtain ⟨f, hf, hef⟩ := exists_kept hplace hsame he
    exact ⟨f, hf, hef.parent⟩

end Finish

end NodeTable

/-- **The elements of a syntax tree mirror the declarations of its text**, which stand in the order
of the text. -/
theorem mirrors_declarations {text : PreprocessedText} {marked : MarkedText} {tree : ParseTree}
    (library : String) (keepBlanks : Bool) (m : LocationMapper)
    (hm : MarkedText.ofText text = .ok marked)
    (ht : (SourceGrammar.parse marked.tokens.toList).1 = some tree) :
    (tree.recorded marked.tokens).Pairwise ParseTree.NoLaterThan ∧
    ∃ t, syntaxTree ⟨marked, library, keepBlanks⟩ m tree = .ok t ∧
      t.Mirrors ⟨marked, library, keepBlanks⟩ m (tree.recorded marked.tokens) := by
  obtain ⟨-, hsorted, hseen, -⟩ := SourceGrammar.tree_of_parse ht
  refine ⟨ParseTree.pairwise_recorded tree hsorted, ?_⟩
  generalize hs : (⟨marked, library, keepBlanks⟩ : GrowthSource) = s
  obtain rfl : marked = s.marked := by rw [← hs]
  obtain ⟨ts, g, rows, rfl, he, hg, ha, -, -⟩ := Growth.ofTree_of_parse hm ht
  have hf := (NodeTable.places_linked hg ha m).finished s.marked.text.nodes
  obtain ⟨place, hplace, hsame⟩ :=
    NodeTable.exists_elements_finish s g s.marked.text.nodes m
  have hagrees : Growth.Agrees (g.table s).parent g := fun i n hn => by
    obtain ⟨hi, rfl⟩ := Array.getElem?_eq_some_iff.mp hn
    rw [NodeTable.parent, NodeTable.node_succ hi]
    rfl
  have hmirrored := Growth.mirrored_ofTree (NodeTable.parent_le hg) he hagrees fun i hi => by
    obtain ⟨token, htoken, -⟩ := hseen i hi
    exact ⟨token, by simpa using htoken⟩
  refine ⟨((g.linked s).mapPlaces m).graftDirectives s.marked.text.nodes, ?_,
    NodeTable.mirrors_of_mirrored hf hg hplace hsame hmirrored⟩
  rw [syntaxTree, he]
  rfl

/-- A text with a class in a module. -/
def markedClass : PreprocessedText :=
  { markedSemicolon with text := "module m; class c; endclass endmodule" }

theorem mirrors_declarations_markedClass :
    ∃ marked tree, MarkedText.ofText markedClass = .ok marked ∧
      (SourceGrammar.parse marked.tokens.toList).1 = some tree ∧
      (tree.recorded marked.tokens).map (·.name) = ["m", "c"] ∧
      (tree.recorded marked.tokens).Pairwise ParseTree.NoLaterThan ∧
      ∃ t, syntaxTree ⟨marked, "work", false⟩ ⟨{}, {}, some "top.sv", false⟩ tree = .ok t ∧
        t.Mirrors ⟨marked, "work", false⟩ ⟨{}, {}, some "top.sv", false⟩
          (tree.recorded marked.tokens) := by
  have htest : passesMarked markedClass (fun m =>
      (SourceGrammar.parse m.tokens.toList).1.any fun tree =>
        (tree.recorded m.tokens).map (·.name) == ["m", "c"]) = true := by decide +kernel
  obtain ⟨m, hm, hany⟩ := exists_of_passesMarked htest
  obtain ⟨tree, ht, hnames⟩ := Option.any_eq_true _ _ |>.mp hany
  exact ⟨m, tree, hm, ht, eq_of_beq hnames,
    mirrors_declarations "work" false ⟨{}, {}, some "top.sv", false⟩ hm ht⟩

end Verilog
