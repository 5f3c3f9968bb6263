import Verilog.Design.Compile
import Verilog.Collection.OrderedMap
import Verilog.Proofs.Generate.Read

/-!
# The objects of definitions

A definition has an object without a parent; what belongs to it, its modports, assignments and
generate constructs, becomes objects with parents. `Definition.Founded` says so of a definition
that is being compiled, and of its handles and modports that they are there.
-/

namespace Verilog

namespace Ir

/-- **A design that has more objects**: what was there has kept its parent and its place, and what
is new, certain objects aside, has a parent and a place. -/
structure Widens (roots : ObjectId → Prop) (ir ir' : Ir) : Prop where
  size_le : ir.size ≤ ir'.size
  lists_le : ir.lists.size ≤ ir'.lists.size
  parent : ∀ i, i < ir.size → ir'.parent? i = ir.parent? i
  range : ∀ i, i < ir.size → ir'.range? i = ir.range? i
  new : ∀ i, ir.size ≤ i → i < ir'.size → ¬roots i →
    (ir'.parent? i).isSome ∧ (ir'.range? i).isSome
  sound : ir.Sound [] → ir'.Sound []

variable {ir ir₁ ir₂ : Ir} {roots objects lists : ObjectId → Prop} {p : ObjectId}
  {ids : List ObjectId}

theorem Grows.widens (h : Grows objects lists ir ir₁) (hs : ir.Sound [] → ir₁.Sound []) :
    Widens roots ir ir₁ :=
  ⟨h.size_le, h.lists_le, h.parent, h.range, fun i hi hi' _ => h.new i hi hi', hs⟩

theorem AddsBelow.widens (h : AddsBelow p ir ids ir₁) : Widens roots ir ir₁ :=
  h.grows.widens (h.sound [])

theorem Furnishes.widens (h : Furnishes p ir ir₁) : Widens roots ir ir₁ :=
  h.grows.widens (h.sound [])

theorem Widens.refl (roots : ObjectId → Prop) (ir : Ir) : Widens roots ir ir :=
  (Furnishes.refl 0 ir).widens

theorem Widens.trans (h : Widens roots ir ir₁) (h' : Widens roots ir₁ ir₂) :
    Widens roots ir ir₂ := by
  have hsize {i} (hi : i < ir.size) := Nat.lt_of_lt_of_le hi h.size_le
  refine ⟨Nat.le_trans h.size_le h'.size_le, Nat.le_trans h.lists_le h'.lists_le, fun i hi => ?_,
    fun i hi => ?_, fun i hi hi' hn => ?_, fun hs => h'.sound (h.sound hs)⟩
  · rw [h'.parent i (hsize hi), h.parent i hi]
  · rw [h'.range i (hsize hi), h.range i hi]
  · by_cases hlt : i < ir₁.size
    · rw [h'.parent i hlt, h'.range i hlt]
      exact h.new i hi hlt hn
    · exact h'.new i (Nat.le_of_not_lt hlt) hi' hn

end Ir

namespace Definition

/-- Are the object of a definition, those of its modports and its lists there? -/
structure Within (d : Definition) (ir : Ir) : Prop where
  object : Nat.lt d.object ir.size
  modports : ∀ m ∈ d.modports.values, Nat.lt m.object ir.size
  handles : ∀ h ∈ d.handles, Nat.lt h.2 ir.lists.size

theorem Within.mono {d : Definition} {ir ir' : Ir} (h : d.Within ir)
    (hsize : ir.size ≤ ir'.size) (hlists : ir.lists.size ≤ ir'.lists.size) : d.Within ir' :=
  ⟨Nat.lt_of_lt_of_le h.object hsize, fun m hm => Nat.lt_of_lt_of_le (h.modports m hm) hsize,
    fun l hl => Nat.lt_of_lt_of_le (h.handles l hl) hlists⟩

/-- **A definition and what has been compiled of it**: all that is new but its object has a parent
and a place, and its object has a place if the definition has a source. -/
structure Founded (d : Definition) (ir ir' : Ir) : Prop where
  widens : ir.Widens (fun i => i = d.object) ir'
  within : d.Within ir'
  place : d.roots ≠ [] → (ir'.range? d.object).isSome

variable {d d' : Definition} {ir ir₁ ir₂ : Ir} {t : NodeTable} {root : NodeId}

/-- More is compiled below the object. -/
theorem Founded.trans (h : d.Founded ir ir₁) (h' : ir₁.Widens (fun _ => False) ir₂) :
    d.Founded ir ir₂ := by
  refine ⟨h.widens.trans ?_, h.within.mono h'.size_le h'.lists_le, fun hr => ?_⟩
  · exact ⟨h'.size_le, h'.lists_le, h'.parent, h'.range, fun i hi hi' _ =>
      h'.new i hi hi' (by simp),
      h'.sound⟩
  · rw [h'.range _ h.within.object]
    exact h.place hr

/-- The definition itself learns something. -/
theorem Founded.learn (h : d.Founded ir ir₁) (ho : d'.object = d.object) (hr : d'.roots = d.roots)
    (hm : ∀ m ∈ d'.modports.values, m.object < ir₁.size)
    (hh : ∀ l ∈ d'.handles, l.2 < ir₁.lists.size) : d'.Founded ir ir₁ := by
  refine ⟨ho ▸ h.widens, ⟨ho ▸ h.within.object, hm, hh⟩, fun hn => ?_⟩
  rw [ho]
  exact h.place (hr ▸ hn)

/-- An object without a parent is added for a definition. -/
theorem founded_add (ir : Ir) {o : DesignObject} (hobject : d.object = ir.size)
    (hparent : o.parent = none) (hparts : o.parts = []) (hlists : o.lists = [])
    (hmodports : d.modports.values = []) (hhandles : d.handles = [])
    (hrange : d.roots ≠ [] → o.range.isSome) : d.Founded ir (ir.add o).2 := by
  have hold {i} (hi : i < ir.size) : (ir.add o).2.object? i = ir.object? i := by
    rw [Ir.object?_add, if_neg (Nat.ne_of_lt hi)]
  refine ⟨⟨by simp, Nat.le_refl _, fun i hi => ?_, fun i hi => ?_, fun i hi hi' hn => ?_, fun hs =>
    ?_⟩,
    ⟨?_, by simp [hmodports], by simp [hhandles]⟩, fun hr => ?_⟩
  · rw [Ir.parent?, hold hi, Ir.parent?]
  · rw [Ir.range?, hold hi, Ir.range?]
  · obtain rfl : i = ir.size := Nat.le_antisymm (Nat.lt_succ_iff.mp (by simpa using hi')) hi
    exact absurd hobject.symm hn
  · exact hs.add hparts hlists (by simp [hparent])
  · rw [hobject]
    exact Nat.lt_of_lt_of_eq (Nat.lt_succ_self _) (Ir.size_add ir o).symm
  · rw [hobject, Ir.range?, Ir.object?_add, if_pos rfl]
    exact hrange hr

theorem headOf_fields (kind : NodeKind) (name : String) : (headOf kind name).1.parent = none ∧
    (headOf kind name).1.parts = [] ∧ (headOf kind name).1.lists = [] := by
  unfold headOf
  simp only
  split <;> exact ⟨rfl, rfl, rfl⟩

theorem founded_declare (name : String) (t : NodeTable) (root : NodeId) (ir : Ir)
    (h : t.contains (t.first root (headOf (t.kind root) name).2)) :
    (declare name t root ir).1.Founded ir (declare name t root ir).2 := by
  obtain ⟨hparent, hparts, hlists⟩ := headOf_fields (t.kind root) name
  exact founded_add ir rfl hparent hparts hlists rfl rfl fun _ => NodeTable.isSome_range? h

theorem founded_builtIn (name : String) (ir : Ir) :
    (builtIn name ir).1.Founded ir (builtIn name ir).2 :=
  founded_add ir rfl rfl rfl rfl rfl rfl fun h => absurd rfl h

/-! ### Modports -/

theorem founded_addModport (h : d.Founded ir ir₁) (name : String) {node : NodeId}
    (hnode : t.contains node) :
    (d.addModport name t node ir₁).1.Founded ir (d.addModport name t node ir₁).2 := by
  let o : DesignObject := { kind := .modport, name := some name, parent := some d.object,
                            range := t.range? node node }
  have hadd : ir₁.AddsBelow d.object [ir₁.size] (ir₁.add o).2 :=
    Ir.addsBelow_add h.within.object rfl (NodeTable.isSome_range? hnode) rfl rfl
  have h' := h.trans hadd.widens
  refine h'.learn rfl rfl (fun m hm => ?_) h'.within.handles
  rcases OrderedMap.mem_values_insert hm with rfl | hm
  · exact Nat.lt_of_lt_of_eq (Nat.lt_succ_self _) (Ir.size_add ir₁ o).symm
  · exact h'.within.modports m hm

/-- The ports of a modport are no objects. -/
theorem founded_modifyModport (h : d.Founded ir ir₁) (name : String) (s : Signal) :
    Founded { d with modports := d.modports.modify name fun m => { m with ports := m.ports ++ [s] }
    }
      ir ir₁ := by
  refine h.learn rfl rfl (fun m hm => ?_) h.within.handles
  obtain ⟨m', hm', rfl | rfl⟩ := OrderedMap.mem_values_modify hm
  · exact h.within.modports m hm'
  · exact h.within.modports m' hm'

/-- A definition that has been compiled so far, with the nodes that declare it. -/
structure FoundedAt (d : Definition) (roots : List (NodeTable × NodeId)) (ir ir' : Ir) : Prop where
  founded : d.Founded ir ir'
  roots : d.roots = roots

theorem founded_addModportPort {root : NodeId} (h : d.FoundedAt [(t, root)] ir ir₁) (name : String)
    (s : Signal) {node : NodeId} (hnode : t.contains node) :
    (d.addModportPort name s node ir₁).1.FoundedAt [(t, root)] ir
      (d.addModportPort name s node ir₁).2 := by
  rw [addModportPort]
  simp only
  split
  · exact ⟨founded_modifyModport h.founded name s, h.roots⟩
  · rw [h.roots]
    exact ⟨founded_modifyModport (founded_addModport h.founded name hnode) name s, h.roots⟩

theorem founded_addEntry {root : NodeId} {acc : Definition × Ir}
    (h : acc.1.FoundedAt [(t, root)] ir acc.2) (name : String) {item : NodeId}
    (hitem : t.contains item) (e : ModportEntry) :
    (addEntry name item acc e).1.FoundedAt [(t, root)] ir (addEntry name item acc e).2 := by
  cases e with
  | port s => exact founded_addModportPort h name s hitem
  | clocking b =>
    exact ⟨h.founded.learn rfl rfl h.founded.within.modports h.founded.within.handles, h.roots⟩

/-- Steps one after the other. -/
theorem founded_foldl {α : Type} {roots : List (NodeTable × NodeId)}
    {f : Definition × Ir → α → Definition × Ir} {as : List α}
    (hf : ∀ a ∈ as, ∀ acc : Definition × Ir, acc.1.FoundedAt roots ir acc.2 →
      (f acc a).1.FoundedAt roots ir (f acc a).2) {acc : Definition × Ir}
    (h : acc.1.FoundedAt roots ir acc.2) :
    (as.foldl f acc).1.FoundedAt roots ir (as.foldl f acc).2 := by
  induction as generalizing acc with
  | nil => exact h
  | cons a as ih =>
    rw [List.forall_mem_cons] at hf
    exact ih hf.2 (hf.1 acc h)

/-- **The modports of a definition** are objects below its own. -/
theorem founded_addModports {root : NodeId} (h : d.FoundedAt [(t, root)] ir ir₁) (node : NodeId) :
    (d.addModports t node ir₁).1.FoundedAt [(t, root)] ir (d.addModports t node ir₁).2 := by
  refine founded_foldl (fun item hitem acc hacc => ?_) h
  obtain ⟨id, -, hitem⟩ := List.mem_flatMap.mp hitem
  have hc : t.contains item := NodeTable.contains_of_mem_childrenOf hitem (by decide)
  exact founded_foldl (fun e _ acc hacc => founded_addEntry hacc _ hc e) hacc

end Definition

end Verilog
