import Mathlib.Data.List.Infix
import Verilog.Design.Ports
import Verilog.Collection.OrderedMap
import Verilog.Proofs.Ir.Modport

/-!
# The modports of a definition

An item of a modport consists of groups: of ports that stand behind one direction, and of clocking
blocks. A direction is written once and holds for the ports behind it, in later groups as well, so
the direction of a port is the last one written before it in the item (`NodeTable.offeredPorts`).
Going through the groups one by one, with the direction carried along, finds just these ports, and
the clocking blocks in between (`modportEntries_port?`, `modportEntries_clocking?`).

A modport is made for its first port. So an item that names ports becomes a modport, with an object
of its own below that of the definition; one that names none, but perhaps clocking blocks, does not
(`Definition.addModportItem_eq`). Of all items that are declared below a node this is
`Definition.Offers`.
-/

namespace Verilog

namespace NodeTable

/-! ### What is written in an item -/

variable (t : NodeTable)

/-- The items of the modports that are declared below a node. -/
def modportItems (root : NodeId) : List NodeId :=
  (t.childrenOf root .paModportDeclaration).flatMap fun id => t.childrenOf id .paModportItem

/-- The name of an item. -/
def modportName (item : NodeId) : String := t.nameText (t.childOf item .slStringConst)

/-- The groups of an item. -/
def modportGroups (item : NodeId) : List NodeId :=
  (t.childrenOf item .paModportPortsDeclaration).flatMap t.shape

/-- The directions and ports in some groups, in order. -/
def simpleParts (groups : List NodeId) : List NodeId :=
  (groups.filter fun id => t.kind id == .paModportSimplePortsDeclaration).flatMap t.shape

/-- The last direction among some parts, or the one to begin with. -/
def lastDirection (start : NodeKind) (parts : List NodeId) : NodeKind :=
  ((parts.map t.kind).reverse.find? NodeKind.isDirection).getD start

/-- The ports among some parts, each with the last direction before it. -/
def directedPorts (component : String) (start : NodeKind) (parts : List NodeId) : List Signal :=
  (parts.inits.zip parts).filterMap fun (before, part) =>
    if t.kind part = .paModportSimplePort then
      some { component, nodes := t, node := part, nameNode := t.childOf part .slStringConst
             direction := t.lastDirection start before }
    else none

/-- The clocking blocks among some groups. -/
def namedBlocks (groups : List NodeId) : List ClockingBlock :=
  (groups.filter fun id => t.kind id == .paModportClockingDeclaration).map fun id =>
    ⟨t.nameText (t.childOf id .slStringConst), id⟩

/-- **The ports of an item**: each with the last direction written before it in the item. -/
def offeredPorts (component : String) (item : NodeId) : List Signal :=
  t.directedPorts component .slNoType (t.simpleParts (t.modportGroups item))

/-- **The clocking blocks of an item.** -/
def offeredBlocks (item : NodeId) : List ClockingBlock := t.namedBlocks (t.modportGroups item)

variable {t} {component : String}

/-! ### Directions -/

/-- The direction behind a part. -/
def directionBehind (t : NodeTable) (start : NodeKind) (part : NodeId) : NodeKind :=
  if (t.kind part).isDirection then t.kind part else start

theorem lastDirection_cons (start : NodeKind) (part : NodeId) (parts : List NodeId) :
    t.lastDirection start (part :: parts) =
      t.lastDirection (t.directionBehind start part) parts := by
  rw [lastDirection, List.map_cons, List.reverse_cons, List.find?_append, Option.getD_or,
    List.find?_singleton, directionBehind, lastDirection]
  split <;> rfl

theorem directedPorts_cons (start : NodeKind) (part : NodeId) (parts : List NodeId) :
    t.directedPorts component start (part :: parts) =
      (if t.kind part = .paModportSimplePort then
        [{ component, nodes := t, node := part, nameNode := t.childOf part .slStringConst
           direction := start }] else []) ++
        t.directedPorts component (t.directionBehind start part) parts := by
  rw [directedPorts, List.inits_cons, List.zip_cons_cons, List.filterMap_cons, List.zip_map_left,
    List.filterMap_map, directedPorts]
  have hrest (p : List NodeId × NodeId) : t.lastDirection start (part :: p.1) =
      t.lastDirection (t.directionBehind start part) p.1 := lastDirection_cons start part p.1
  simp only [Function.comp_def, Prod.map_fst, Prod.map_snd, id_eq, hrest]
  split <;> rename_i heq <;> split at heq <;> cases heq <;> simp [*, lastDirection]

theorem directedPorts_append (start : NodeKind) (parts more : List NodeId) :
    t.directedPorts component start (parts ++ more) = t.directedPorts component start parts ++
      t.directedPorts component (t.lastDirection start parts) more := by
  induction parts generalizing start with
  | nil => rfl
  | cons part parts ih =>
    rw [List.cons_append, directedPorts_cons, ih, directedPorts_cons, lastDirection_cons,
      List.append_assoc]

end NodeTable

/-! ### Going through an item -/

namespace ModportEntry

/-- The port that is named. -/
def port? : ModportEntry → Option Signal
  | port s => some s
  | clocking _ => none

/-- The clocking block that is named. -/
def clocking? : ModportEntry → Option ClockingBlock
  | port _ => none
  | clocking b => some b

end ModportEntry

section Entries

variable {t : NodeTable} {component : String}

/-- A group of ports is gone through with the direction at hand. -/
theorem modportPorts_eq (start : NodeKind) (parts : List NodeId) :
    modportPorts component t start parts =
      ((t.directedPorts component start parts).map .port, t.lastDirection start parts) := by
  induction parts generalizing start with
  | nil => rfl
  | cons part parts ih =>
    rw [modportPorts, t.directedPorts_cons, t.lastDirection_cons, NodeTable.directionBehind]
    by_cases hdirection : (t.kind part).isDirection
    · have hport : t.kind part ≠ .paModportSimplePort := fun h => by
        rw [h] at hdirection
        cases hdirection
      rw [if_pos hdirection, if_pos hdirection, if_neg hport, ih, List.nil_append]
    · rw [if_neg hdirection, if_neg hdirection, ih]
      by_cases hport : t.kind part = .paModportSimplePort <;> simp [hport]

/-- Are the entries of an item grouped one by one? -/
def NodeTable.GroupsEntries (t : NodeTable) (ids : List NodeId) : Prop :=
  ∀ id ∈ ids, ∃ group, t.shape id = [group] ∧ (t.kind group = .paModportSimplePortsDeclaration ∨
    t.kind group = .paModportClockingDeclaration)

/-- **The ports that are found in an item** are those that are written there, each with the last
direction before it, however they are grouped. -/
theorem modportEntries_port? (component : String) {ids : List NodeId} (h : t.GroupsEntries ids)
    (start : NodeKind) :
    (modportEntries component t start ids).filterMap ModportEntry.port? =
      t.directedPorts component start (t.simpleParts (ids.flatMap t.shape)) := by
  induction ids generalizing start with
  | nil => rfl
  | cons id ids ih =>
    obtain ⟨⟨group, hgroup, hkind⟩, hids⟩ := List.forall_mem_cons.mp h
    rw [modportEntries, hgroup, List.flatMap_cons, hgroup, List.singleton_append,
      NodeTable.simpleParts]
    rcases hkind with hkind | hkind
    · -- the direction at the end of a group of ports is the one that the next group begins with
      have hports : ((t.directedPorts component start (t.shape group)).map
          ModportEntry.port).filterMap ModportEntry.port? =
            t.directedPorts component start (t.shape group) := by
        rw [List.filterMap_map]
        exact List.filterMap_some
      simp only [hkind, modportPorts_eq, List.filterMap_append, hports, ih hids]
      rw [List.filter_cons_of_pos (by simp [hkind]), List.flatMap_cons, t.directedPorts_append,
        NodeTable.simpleParts]
    · simp only [hkind, List.filterMap_cons, ModportEntry.port?, ih hids]
      rw [List.filter_cons_of_neg (by simp [hkind]), NodeTable.simpleParts]

/-- **The clocking blocks that are found in an item** are those that are written there. -/
theorem modportEntries_clocking? (component : String) {ids : List NodeId}
    (h : t.GroupsEntries ids) (start : NodeKind) :
    (modportEntries component t start ids).filterMap ModportEntry.clocking? =
      t.namedBlocks (ids.flatMap t.shape) := by
  induction ids generalizing start with
  | nil => rfl
  | cons id ids ih =>
    obtain ⟨⟨group, hgroup, hkind⟩, hids⟩ := List.forall_mem_cons.mp h
    rw [modportEntries, hgroup, List.flatMap_cons, hgroup, List.singleton_append,
      NodeTable.namedBlocks]
    rcases hkind with hkind | hkind
    · have hports : ((t.directedPorts component start (t.shape group)).map
          ModportEntry.port).filterMap ModportEntry.clocking? = [] := by
        rw [List.filterMap_map]
        exact List.filterMap_eq_nil_iff.mpr fun _ _ => rfl
      simp only [hkind, modportPorts_eq, List.filterMap_append, hports, ih hids, List.nil_append]
      rw [List.filter_cons_of_neg (by simp [hkind]), NodeTable.namedBlocks]
    · simp only [hkind, List.filterMap_cons, ModportEntry.clocking?, ih hids]
      rw [List.filter_cons_of_pos (by simp [hkind]), List.map_cons, NodeTable.namedBlocks]

end Entries

/-! ### Modports that are made -/

namespace Definition

/-- Clocking blocks with some more under a name. -/
def addBlocks (name : String) (blocks : List ClockingBlock)
    (clocking : OrderedMap String (List ClockingBlock)) : OrderedMap String (List ClockingBlock) :=
  blocks.foldl (fun clocking b => clocking.insert name ((clocking.get? name).getD [] ++ [b]))
    clocking

/-- Only what stands under the name changes. -/
theorem get?_addBlocks (name other : String) (blocks : List ClockingBlock)
    (clocking : OrderedMap String (List ClockingBlock)) :
    ((addBlocks name blocks clocking).get? other).getD [] =
      (clocking.get? other).getD [] ++ if name = other then blocks else [] := by
  induction blocks generalizing clocking with
  | nil => simp [addBlocks]
  | cons b blocks ih =>
    refine (ih _).trans ?_
    rw [OrderedMap.get?_insert]
    by_cases hname : name = other <;> simp [hname]

variable {t : NodeTable} {d : Definition} {ir : Ir} {name : String} {item root : NodeId}
  {es : List ModportEntry}

/-- What is added to a modport that has been made. -/
theorem addEntries_of_made {modports : OrderedMap String Modport} {m : Modport}
    (h : d.modports = modports.insert name m) (es : List ModportEntry) :
    es.foldl (addEntry name item) (d, ir) =
      ({ d with
          modports := modports.insert name
            { m with ports := m.ports ++ es.filterMap ModportEntry.port? }
          clocking := addBlocks name (es.filterMap ModportEntry.clocking?) d.clocking }, ir) := by
  induction es generalizing d m with
  | nil => simp [addBlocks, ← h]
  | cons e es ih =>
    rw [List.foldl_cons]
    cases e with
    | clocking b => exact ih (d := d.addClockingBlock name b) h
    | port s =>
      have hcontains : d.modports.contains name = true := by
        rw [h, OrderedMap.contains, OrderedMap.get?_insert, if_pos rfl]
        rfl
      rw [addEntry, addModportPort]
      simp only [hcontains, if_true]
      rw [ih (m := { m with ports := m.ports ++ [s] }) (by rw [h, OrderedMap.modify_insert]),
        List.append_assoc]
      rfl

/-- The first port of a modport makes it. -/
theorem addModportPort_of_new (hroots : d.roots = [(t, root)])
    (hnew : d.modports.contains name = false) (s : Signal) : d.addModportPort name s item ir =
      ({ d with
          modports := d.modports.insert name
            { parent := d.name, name, nodes := t, node := item, object := ir.size, ports := [s] } },
        (ir.add { kind := .modport, name := some name, parent := some d.object
                  range := t.range? item item }).2) := by
  rw [addModportPort]
  simp only [hnew, addModport, OrderedMap.modify_insert]
  rw [if_neg Bool.false_ne_true]
  split <;> rename_i heq <;> rw [hroots] at heq <;> cases heq
  rfl

/-- Where no ports are named, no modport is made. -/
theorem addEntries_of_no_ports (h : es.filterMap ModportEntry.port? = []) :
    es.foldl (addEntry name item) (d, ir) =
      ({ d with
          clocking := addBlocks name (es.filterMap ModportEntry.clocking?) d.clocking }, ir) := by
  induction es generalizing d with
  | nil => rfl
  | cons e es ih =>
    cases e with
    | clocking b => exact ih (d := d.addClockingBlock name b) h
    | port s => cases h

/-- Where ports are named, a modport is made for the first of them, and the others are added. -/
theorem addEntries_of_ports (hroots : d.roots = [(t, root)])
    (hnew : d.modports.contains name = false) (h : es.filterMap ModportEntry.port? ≠ []) :
    es.foldl (addEntry name item) (d, ir) =
      ({ d with
          modports := d.modports.insert name
            { parent := d.name, name, nodes := t, node := item, object := ir.size
              ports := es.filterMap ModportEntry.port? }
          clocking := addBlocks name (es.filterMap ModportEntry.clocking?) d.clocking },
        (ir.add { kind := .modport, name := some name, parent := some d.object
                  range := t.range? item item }).2) := by
  induction es generalizing d with
  | nil => exact absurd rfl h
  | cons e es ih =>
    rw [List.foldl_cons]
    cases e with
    | clocking b => exact ih (d := d.addClockingBlock name b) hroots hnew h
    | port s =>
      rw [addEntry, addModportPort_of_new hroots hnew, addEntries_of_made rfl]
      rfl

/-- An item that names no ports becomes no modport. -/
theorem addModportItem_of_no_ports
    (hgroups : t.GroupsEntries (t.childrenOf item .paModportPortsDeclaration))
    (h : t.offeredPorts d.name item = []) : addModportItem t (d, ir) item =
      ({ d with
          clocking := addBlocks (t.modportName item) (t.offeredBlocks item) d.clocking }, ir) := by
  have hports := (modportEntries_port? d.name hgroups .slNoType).trans h
  rw [addModportItem, addEntries_of_no_ports hports, modportEntries_clocking? d.name hgroups]
  rfl

/-- **An item that names ports becomes a modport**, with an object below that of the definition. -/
theorem addModportItem_of_ports (hroots : d.roots = [(t, root)])
    (hnew : d.modports.contains (t.modportName item) = false)
    (hgroups : t.GroupsEntries (t.childrenOf item .paModportPortsDeclaration))
    (h : t.offeredPorts d.name item ≠ []) : addModportItem t (d, ir) item =
      ({ d with
          modports := d.modports.insert (t.modportName item)
            { parent := d.name, name := t.modportName item, nodes := t, node := item
              object := ir.size, ports := t.offeredPorts d.name item }
          clocking := addBlocks (t.modportName item) (t.offeredBlocks item) d.clocking },
        (ir.add { kind := .modport, name := some (t.modportName item), parent := some d.object
                  range := t.range? item item }).2) := by
  have hports := modportEntries_port? d.name hgroups .slNoType
  have hne : (modportEntries d.name t .slNoType
      (t.childrenOf item .paModportPortsDeclaration)).filterMap ModportEntry.port? ≠ [] :=
    fun heq => h (hports.symm.trans heq)
  refine (addEntries_of_ports hroots hnew hne).trans ?_
  rw [hports, modportEntries_clocking? d.name hgroups]
  rfl

/-- **What modports a definition has**, if these are the items that are declared in it: one for each
item that names ports, in the order of the items, with the ports of the item, and under the name of
each item the clocking blocks of the item. The modports below the object of the definition are the
objects of its modports. -/
structure Offers (t : NodeTable) (items : List NodeId) (d : Definition) (ir : Ir) : Prop where
  keys : d.modports.keys =
    (items.filter fun item => !(t.offeredPorts d.name item).isEmpty).map t.modportName
  made : ∀ item ∈ items, t.offeredPorts d.name item ≠ [] → ∃ object,
    d.modports.get? (t.modportName item) = some
      { parent := d.name, name := t.modportName item, nodes := t, node := item, object
        ports := t.offeredPorts d.name item }
  unmade : ∀ name, (∀ item ∈ items, t.modportName item = name → t.offeredPorts d.name item = []) →
    d.modports.get? name = none
  blocks : ∀ item ∈ items, d.clockingBlocks (t.modportName item) = t.offeredBlocks item
  others : ∀ name, name ∉ items.map t.modportName → d.clockingBlocks name = []
  objects : ir.modportsBelow d.object =
    d.modports.values.map fun m => (m.object, some m.name, m.nodes.range? m.node m.node)

namespace Offers

variable {items : List NodeId}

theorem modportName_ne {other : NodeId} (hfresh : t.modportName item ∉ items.map t.modportName)
    (hmem : other ∈ items) : t.modportName item ≠ t.modportName other :=
  fun heq => hfresh (List.mem_map.mpr ⟨other, hmem, heq.symm⟩)

/-- What an item adds of clocking blocks. -/
theorem blocks_append (h : Offers t items d ir)
    (hfresh : t.modportName item ∉ items.map t.modportName) (d' : Definition)
    (hd' : d'.clocking = addBlocks (t.modportName item) (t.offeredBlocks item) d.clocking) :
    (∀ other ∈ items ++ [item], d'.clockingBlocks (t.modportName other) = t.offeredBlocks other) ∧
      ∀ name, name ∉ (items ++ [item]).map t.modportName → d'.clockingBlocks name = [] := by
  have hblocks (name : String) : d'.clockingBlocks name = d.clockingBlocks name ++
      if t.modportName item = name then t.offeredBlocks item else [] := by
    rw [clockingBlocks, hd', get?_addBlocks]
    rfl
  refine ⟨fun other hmem => ?_, fun name hname => ?_⟩
  · rw [hblocks]
    rcases List.mem_append.mp hmem with hmem | hmem
    · rw [if_neg (modportName_ne hfresh hmem), h.blocks other hmem, List.append_nil]
    · rw [List.mem_singleton.mp hmem, if_pos rfl, h.others _ hfresh, List.nil_append]
  · rw [List.map_append, List.mem_append, not_or] at hname
    rw [hblocks, if_neg fun heq => hname.2 (by simp [heq]), h.others name hname.1, List.nil_append]

/-- **One item more.** -/
theorem addModportItem (h : Offers t items d ir) (hroots : d.roots = [(t, root)])
    (hfresh : t.modportName item ∉ items.map t.modportName)
    (hgroups : t.GroupsEntries (t.childrenOf item .paModportPortsDeclaration)) :
    Offers t (items ++ [item]) (Definition.addModportItem t (d, ir) item).1
      (Definition.addModportItem t (d, ir) item).2 := by
  by_cases hnone : t.offeredPorts d.name item = []
  · rw [addModportItem_of_no_ports hgroups hnone]
    obtain ⟨hown, hothers⟩ := h.blocks_append hfresh { d with
      clocking := addBlocks (t.modportName item) (t.offeredBlocks item) d.clocking } rfl
    refine ⟨?_, fun other hmem hne => ?_, fun name hname => ?_, hown, hothers, h.objects⟩
    · rw [List.filter_append, List.filter_cons_of_neg (by simp [hnone]), List.filter_nil,
        List.append_nil]
      exact h.keys
    · rcases List.mem_append.mp hmem with hmem | hmem
      · exact h.made other hmem hne
      · exact absurd (List.mem_singleton.mp hmem ▸ hnone) hne
    · exact h.unmade name fun other hmem => hname other (List.mem_append_left _ hmem)
  · have hnew : d.modports.contains (t.modportName item) = false := by
      rw [OrderedMap.contains, h.unmade _ fun other hmem heq =>
        absurd heq.symm (modportName_ne hfresh hmem)]
      rfl
    rw [addModportItem_of_ports hroots hnew hgroups hnone]
    obtain ⟨hown, hothers⟩ := h.blocks_append hfresh { d with
      modports := d.modports.insert (t.modportName item)
        { parent := d.name, name := t.modportName item, nodes := t, node := item
          object := ir.size, ports := t.offeredPorts d.name item }
      clocking := addBlocks (t.modportName item) (t.offeredBlocks item) d.clocking } rfl
    refine ⟨?_, fun other hmem hne => ?_, fun name hname => ?_, hown, hothers, ?_⟩
    · rw [List.filter_append, List.filter_cons_of_pos (by simpa using hnone), List.filter_nil,
        List.map_append, OrderedMap.keys_insert_of_not_contains hnew, h.keys]
      rfl
    · rw [OrderedMap.get?_insert]
      rcases List.mem_append.mp hmem with hmem | hmem
      · rw [if_neg (modportName_ne hfresh hmem)]
        exact h.made other hmem hne
      · rw [List.mem_singleton.mp hmem, if_pos rfl]
        exact ⟨_, rfl⟩
    · rw [OrderedMap.get?_insert, if_neg fun heq => hnone (hname item (by simp) heq)]
      exact h.unmade name fun other hmem => hname other (List.mem_append_left _ hmem)
    · rw [Ir.modportsBelow_add rfl rfl, OrderedMap.values_insert_of_not_contains hnew,
        List.map_append, h.objects]
      rfl

end Offers

/-! ### What adding modports leaves as it was -/

/-- Has a definition changed in nothing but its modports and clocking blocks, and have modports been
added at most below its object? -/
def KeepsRest (d : Definition) (ir : Ir) (acc : Definition × Ir) : Prop :=
  (∃ modports clocking, acc.1 = { d with modports, clocking }) ∧
    ir.Extends (fun p => p = d.object) acc.2

theorem keepsRest_refl (d : Definition) (ir : Ir) : KeepsRest d ir (d, ir) :=
  ⟨⟨d.modports, d.clocking, rfl⟩, .refl ir⟩

theorem keepsRest_addEntry {acc : Definition × Ir} (h : KeepsRest d ir acc) (name : String)
    (item : NodeId) (e : ModportEntry) : KeepsRest d ir (addEntry name item acc e) := by
  obtain ⟨d₁, ir₁⟩ := acc
  obtain ⟨⟨modports, clocking, rfl⟩, hextends⟩ := h
  cases e with
  | clocking b => exact ⟨⟨_, _, rfl⟩, hextends⟩
  | port s =>
    rw [addEntry, addModportPort]
    dsimp only
    split
    · exact ⟨⟨_, _, rfl⟩, hextends⟩
    · split
      · exact ⟨⟨_, _, rfl⟩, hextends⟩
      · refine ⟨⟨_, _, rfl⟩, hextends.trans (.add ir₁ fun _ p hp => ?_)⟩
        exact (Option.some.inj hp).symm

theorem keepsRest_addModportItem {acc : Definition × Ir} (h : KeepsRest d ir acc) (t : NodeTable)
    (item : NodeId) : KeepsRest d ir (addModportItem t acc item) :=
  List.foldlRecOn _ _ h fun _ hacc e _ => keepsRest_addEntry hacc _ item e

theorem keepsRest_addModports (d : Definition) (t : NodeTable) (root : NodeId) (ir : Ir) :
    KeepsRest d ir (d.addModports t root ir) :=
  List.foldlRecOn _ _ (keepsRest_refl d ir) fun _ hacc item _ =>
    keepsRest_addModportItem hacc t item

/-! ### All items -/

variable {items : List NodeId}

/-- Items one after the other. -/
theorem Offers.addItems (h : Offers t items d ir) (hroots : d.roots = [(t, root)])
    {more : List NodeId} (hnames : ((items ++ more).map t.modportName).Nodup)
    (hgroups : ∀ item ∈ more, t.GroupsEntries (t.childrenOf item .paModportPortsDeclaration)) :
    Offers t (items ++ more) (more.foldl (Definition.addModportItem t) (d, ir)).1
      (more.foldl (Definition.addModportItem t) (d, ir)).2 := by
  induction more generalizing items d ir with
  | nil => rwa [List.append_nil]
  | cons item more ih =>
    obtain ⟨hitem, hmore⟩ := List.forall_mem_cons.mp hgroups
    have hfresh : t.modportName item ∉ items.map t.modportName := by
      rw [List.map_append, List.nodup_append] at hnames
      exact fun hmem => hnames.2.2 _ hmem _ (by simp) rfl
    have hnext := h.addModportItem hroots hfresh hitem
    obtain ⟨⟨modports, clocking, hkept⟩, -⟩ := keepsRest_addModportItem (keepsRest_refl d ir) t item
    rw [List.append_cons] at hnames ⊢
    exact ih hnext ((congrArg roots hkept).trans hroots) hnames hmore

/-- **The modports that are declared below a node** are those that a definition has that had none
before. -/
theorem offers_addModports (hroots : d.roots = [(t, root)]) (hmodports : d.modports = {})
    (hclocking : d.clocking = {}) (hobjects : ir.modportsBelow d.object = []) {node : NodeId}
    (hnames : ((t.modportItems node).map t.modportName).Nodup)
    (hgroups : ∀ item ∈ t.modportItems node,
      t.GroupsEntries (t.childrenOf item .paModportPortsDeclaration)) :
    Offers t (t.modportItems node) (d.addModports t node ir).1 (d.addModports t node ir).2 := by
  have hnone : Offers t [] d ir := by
    refine ⟨by rw [hmodports]; rfl, by simp, fun name _ => by rw [hmodports]; rfl, by simp,
      fun name _ => by rw [clockingBlocks, hclocking]; rfl, ?_⟩
    rw [hobjects, hmodports]
    rfl
  exact hnone.addItems hroots hnames hgroups

end Definition

end Verilog
