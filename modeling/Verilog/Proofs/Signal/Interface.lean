import Verilog.Proofs.Design.First
import Verilog.Proofs.Design.Generates
import Verilog.Proofs.Design.Modport

/-!
# The modports of interfaces

A modport is made for the first port that its item names, so an interface has a modport, with one
object below its own, for each item that names ports, and for no other (`makes_modports`). An item
that names only clocking blocks is not lost, since these are kept under its name; but there is no
modport of that name (`makes_no_modport_clockedBus`).

When an interface is compiled nothing has its object as a parent yet, and what comes behind its
modports, in the same definition and in those that follow, is no modport or stands below an object
that is newer (`Compiling.opens_addDefinition`, `Compiling.extends_addDefinition`). So what a design
shows of an interface it goes on to show (`Compiling.shows_addElement`).
-/

namespace Verilog

open Definition Step

namespace Compiling.From

variable {α : Type} {ir : Ir} {x : Compiling α} {Q R : α → Ir → Prop}

theorem and (hx : From ir x Q) (hx' : From ir x R) : From ir x fun a ir' => Q a ir' ∧ R a ir' :=
  fun c a c' hc hrun => ⟨hx c a c' hc hrun, hx' c a c' hc hrun⟩

/-- What keeps the modports of a design keeps them from any design on. -/
theorem of_composed {F : Session → Session → Prop} (hx : Composed F KeepsModports x) :
    From ir x fun _ ir' => ir.KeepsModports ir' := by
  rintro c a c' rfl hrun
  exact (hx.keeps_of_ok frame_keepsModports hrun).modports

end Compiling.From

/-! ### One definition -/

namespace Definition

/-- A definition with its ports and signals, before anything else of it is compiled. -/
def bare (name : String) (t : NodeTable) (root : NodeId) (ir : Ir) : Definition :=
  { (declare name t root ir).1 with ports := portsOf name t root, signals := signalsOf name t root }

/-- A definition with its modports, before the assignments and generate constructs in it are
compiled. -/
def opened (name : String) (t : NodeTable) (root : NodeId) (ir : Ir) : Definition × Ir :=
  (bare name t root ir).addModports t root (declare name t root ir).2

/-- **The modports of an interface are those that are declared in it.** -/
structure Views (t : NodeTable) (root : NodeId) (d : Definition) (ir : Ir) : Prop where
  roots : d.roots = [(t, root)]
  kind : (ir.object? d.object).map (·.kind) = some .interfaceInstance
  offers : d.Offers t (t.modportItems root) ir

variable {t : NodeTable} {root : NodeId} {d : Definition} {ir ir₁ : Ir}

theorem headOf_kind_ne (kind : NodeKind) (name : String) :
    (headOf kind name).1.kind ≠ .modport := by
  unfold headOf
  simp only
  split <;> simp

/-- The object of a definition is no modport. -/
theorem keepsModports_declare (name : String) (t : NodeTable) (root : NodeId) (ir : Ir) :
    ir.KeepsModports (declare name t root ir).2 :=
  .add ir fun hk => absurd hk (headOf_kind_ne (t.kind root) name)

theorem keepsRest_opened (name : String) (t : NodeTable) (root : NodeId) (ir : Ir) :
    KeepsRest (bare name t root ir) (declare name t root ir).2 (opened name t root ir) :=
  keepsRest_addModports _ t root _

/-- A definition adds modports below its own object only. -/
theorem extends_opened (name : String) (t : NodeTable) (root : NodeId) (ir : Ir) :
    ir.Extends (fun p => p = ir.size) (opened name t root ir).2 :=
  ((keepsModports_declare name t root ir).mono fun _ => False.elim).trans
    (keepsRest_opened name t root ir).2

/-- Where nothing has the next object as its parent, there are just the modports that are declared
in an interface. -/
theorem views_opened (name : String) (hnext : ∀ i, ir.parent? i ≠ some ir.size)
    (hkind : t.kind root = .paInterfaceDeclaration)
    (hnames : ((t.modportItems root).map t.modportName).Nodup)
    (hgroups : ∀ item ∈ t.modportItems root,
      t.GroupsEntries (t.childrenOf item .paModportPortsDeclaration)) :
    Views t root (opened name t root ir).1 (opened name t root ir).2 := by
  obtain ⟨⟨modports, clocking, hd⟩, hextends⟩ := keepsRest_opened name t root ir
  have hdeclare := keepsModports_declare name t root ir
  have hobjects : (declare name t root ir).2.modportsBelow ir.size = [] := by
    rw [hdeclare.modportsBelow_eq id, Ir.modportsBelow_eq_nil hnext]
  refine ⟨congrArg Definition.roots hd, ?_, offers_addModports rfl rfl rfl hobjects hnames hgroups⟩
  -- the object has been what it is since the definition was declared
  have hobject : (opened name t root ir).1.object = ir.size := congrArg Definition.object hd
  have hhead : (declare name t root ir).2.object? ir.size = _ :=
    (Ir.object?_add ir _ _).trans (if_pos rfl)
  have hkept := congrArg (Option.map Prod.fst)
    (hextends.head ir.size (by rw [declare]; simp))
  rw [Option.map_map, Option.map_map, hhead] at hkept
  rw [hobject]
  refine hkept.trans ?_
  simp [DesignObject.head, hkind, DefinitionKind.ofNode]

/-- More objects, and other handles and classes, leave the modports as they are. -/
theorem Views.mono (h : Views t root d ir) (hextends : ir.Extends (fun p => ir.size ≤ p) ir₁)
    (handles : List (HandleRole × ListId)) (classes : OrderedMap String NodeId) :
    Views t root { d with handles, classes } ir₁ := by
  have hlt : d.object < ir.size := by
    obtain ⟨o, ho, -⟩ := Option.map_eq_some_iff.mp h.kind
    exact (Array.getElem?_eq_some_iff.mp ho).1
  refine ⟨h.roots, ?_, ⟨h.offers.keys, h.offers.made, h.offers.unmade, h.offers.blocks,
    h.offers.others, ?_⟩⟩
  · have hkept := congrArg (Option.map Prod.fst) (hextends.head d.object hlt)
    rw [Option.map_map, Option.map_map] at hkept
    exact hkept.trans h.kind
  · exact (hextends.modportsBelow_eq (Nat.not_le.mpr hlt)).trans h.offers.objects

end Definition

/-- Has a design a definition of a name with the modports that are declared below a node? -/
def Design.Shows (design : Design) (ir : Ir) (name : String) (t : NodeTable)
    (root : NodeId) : Prop :=
  ∃ d, design.definitions.get? name = some d ∧ d.Views t root ir

namespace Compiling

variable {ir : Ir} {design : Design} {name : String} {t t' : NodeTable} {root : NodeId}
  {e : DesignElement}

/-- Of a definition itself, the assignments in it only change the handles. -/
theorem keeps_addAssigns (d : Definition) (assigns : List NetAssign) :
    From ir (addAssigns d assigns) fun d' ir' =>
      (∃ handles, d' = { d with handles }) ∧ ir.KeepsModports ir' := by
  refine .and ?_ (.of_composed (F := fun _ _ => True) (composed_addAssigns d assigns))
  refine .bind (Q := fun _ _ => True) (.onIr trivial) fun ids ir₁ _ => ?_
  split
  · exact .pure ⟨d.handles, rfl⟩
  · exact .bind (Q := fun _ _ => True) (.onIr trivial) fun list ir₂ _ => .pure ⟨_, rfl⟩

/-- **A definition is compiled**: behind its modports nothing comes that is one. -/
theorem opens_addDefinition (name : String) (t : NodeTable) (root : NodeId) :
    From ir (addDefinition name t root) fun d ir' =>
      (∃ handles, d = { (opened name t root ir).1 with handles }) ∧
        (opened name t root ir).2.KeepsModports ir' := by
  refine .bind (Q := fun d ir₁ => (d, ir₁) = declare name t root ir) (.onIr rfl) ?_
  rintro d ir₁ hdeclare
  obtain ⟨rfl, rfl⟩ := Prod.mk.inj hdeclare
  refine .bind (Q := fun d ir₁ => (d, ir₁) = opened name t root ir) (.onIr rfl) ?_
  rintro d ir₁ hopened
  rw [← hopened]
  refine (keeps_addAssigns d _).bind fun d₁ ir₂ hassigns => ?_
  refine (From.of_composed (F := fun _ _ => True) (composed_addGenerates d₁ _)).bind
    fun _ ir₃ hgenerates => .pure ⟨hassigns.1, hassigns.2.trans hgenerates⟩

/-- Definitions for gates take the place of none. -/
theorem keeps_addGates (gates : List String) :
    From ir (addGates design gates) fun design' ir' => ir.KeepsModports ir' ∧
      ∀ name d, design.definitions.get? name = some d →
        design'.definitions.get? name = some d := by
  induction gates generalizing ir design with
  | nil => exact .pure ⟨.refl ir, fun _ _ => id⟩
  | cons gate gates ih =>
    rw [addGates]
    split
    · exact ih
    · rename_i hnew
      refine .bind (Q := fun _ ir₁ => ir.KeepsModports ir₁) (.onIr (.add ir fun hk => by cases hk))
        fun d ir₁ h₁ => (ih.mono fun design' ir₂ h => ⟨h₁.trans h.1, fun name d' hd' => ?_⟩)
      refine h.2 name d' ?_
      rw [OrderedMap.get?_insert, if_neg, hd']
      rintro rfl
      rw [OrderedMap.contains, hd'] at hnew
      exact hnew rfl

/-- What is compiled of a definition that is new. -/
theorem extends_addDefinition (name : String) (t : NodeTable) (root : NodeId) :
    From ir (addDefinition name t root) fun _ ir' => ir.Extends (fun p => ir.size ≤ p) ir' :=
  (opens_addDefinition name t root).mono fun _ _ h =>
    ((extends_opened name t root ir).mono fun _ hp => Nat.le_of_eq hp.symm).trans
      (h.2.mono fun _ => False.elim)

theorem addElement_of_component (h : e.kind.isComponent = true) :
    addElement t design e = addComponent design t (nameText e.name) e.node := by
  unfold addElement
  cases hkind : e.kind <;> rw [hkind] at h <;> first | rfl | cases h

/-- An element that is no component, or whose name is defined, only changes classes. -/
theorem revisits_addElement (h : e.kind.isComponent = true →
      design.definitions.contains (nameText e.name) = true) :
    From ir (addElement t design e) fun design' ir' => design' = design.revisit t e ∧ ir' = ir := by
  rintro c design' c' rfl hrun
  rw [addElement_repeated h] at hrun
  obtain ⟨rfl, rfl⟩ := EStateM.Result.ok.inj hrun
  exact ⟨rfl, rfl⟩

/-- **What a design shows, it goes on to show**: a component more has another name and an object of
its own, and a class changes no modports. -/
theorem shows_addElement (h : design.Shows ir name t root) :
    From ir (addElement t' design e) fun design' ir' => design'.Shows ir' name t root := by
  obtain ⟨d, hd, hviews⟩ := h
  by_cases hnew : e.kind.isComponent = true → design.definitions.contains (nameText e.name) = true
  · refine (revisits_addElement hnew).mono ?_
    rintro _ _ ⟨rfl, rfl⟩
    obtain ⟨classes, hget, -⟩ := (Design.revisited_one t' design e).definition name
    refine ⟨{ d with classes := classes d }, ?_, hviews.mono (.refl _) d.handles (classes d)⟩
    rw [hget, hd, Option.map_some]
  · obtain ⟨hcomponent, hname⟩ := not_forall.mp hnew
    have hne : nameText e.name ≠ name := fun heq => hname (by
      rw [heq, OrderedMap.contains, hd]
      rfl)
    rw [addElement_of_component hcomponent, addComponent, if_neg hname]
    refine (extends_addDefinition _ _ _).bind fun d' ir₁ h₁ => ?_
    refine (keeps_addGates _).bind fun design₁ ir₂ h₂ => .pure ⟨d, ?_, ?_⟩
    · rw [OrderedMap.get?_insert, if_neg hne]
      exact h₂.2 name d hd
    · exact hviews.mono (h₁.trans (h₂.1.mono fun _ => False.elim)) d.handles d.classes

theorem shows_addElements (h : design.Shows ir name t root) (es : List DesignElement) :
    From ir (addElements t' es design) fun design' ir' => design'.Shows ir' name t root := by
  induction es generalizing design ir with
  | nil => exact .pure h
  | cons e es ih => exact (shows_addElement h).bind fun _ _ h => ih h

theorem shows_addFiles (h : design.Shows ir name t root) (files : List SourceFile) :
    From ir (addFiles files design) fun design' ir' => design'.Shows ir' name t root := by
  induction files generalizing design ir with
  | nil => exact .pure h
  | cons f files ih => exact (shows_addElements h _).bind fun _ _ h => ih h

/-! ### The first component of a name -/

theorem undefined_addGates {gates : List String} (hne : ∀ gate ∈ gates, gate ≠ name)
    (h : design.definitions.contains name = false) : From ir (addGates design gates)
      fun design' _ => design'.definitions.contains name = false := by
  induction gates generalizing ir design with
  | nil => exact .pure h
  | cons gate gates ih =>
    obtain ⟨hgate, hgates⟩ := List.forall_mem_cons.mp hne
    rw [addGates]
    split
    · exact ih hgates h
    · refine .bind (Q := fun _ _ => True) (.onIr trivial) fun d ir₁ _ => ih hgates ?_
      rw [OrderedMap.contains_insert, h, Bool.or_false]
      exact decide_eq_false hgate

/-- An element of another name leaves a name undefined that no gate has. -/
theorem undefined_addElement (hat : '@' ∈ name.toList)
    (hne : e.kind.isComponent = true → nameText e.name ≠ name)
    (h : design.definitions.contains name = false) : From ir (addElement t design e)
      fun design' _ => design'.definitions.contains name = false := by
  by_cases hnew : e.kind.isComponent = true → design.definitions.contains (nameText e.name) = true
  · refine (revisits_addElement hnew).mono ?_
    rintro _ _ ⟨rfl, -⟩
    rw [(Design.revisited_one t design e).contains, h]
  · obtain ⟨hcomponent, hname⟩ := not_forall.mp hnew
    rw [addElement_of_component hcomponent, addComponent, if_neg hname]
    refine .bind (Q := fun _ _ => True) (fun _ _ _ _ _ => trivial) fun d ir₁ _ => ?_
    refine (undefined_addGates (fun gate hgate heq => ?_) h).bind fun design₁ _ h₁ => .pure ?_
    · exact at_not_mem_gatesOf hgate (heq ▸ hat)
    · rw [OrderedMap.contains_insert, h₁, Bool.or_false]
      exact decide_eq_false (hne hcomponent)

theorem undefined_addElements {es : List DesignElement} (hat : '@' ∈ name.toList)
    (hne : ∀ e ∈ es, e.kind.isComponent = true → nameText e.name ≠ name)
    (h : design.definitions.contains name = false) : From ir (addElements t es design)
      fun design' _ => design'.definitions.contains name = false := by
  induction es generalizing ir design with
  | nil => exact .pure h
  | cons e es ih =>
    obtain ⟨he, hes⟩ := List.forall_mem_cons.mp hne
    exact (undefined_addElement hat he h).bind fun _ _ h => ih hes h

theorem undefined_addFiles {files : List SourceFile} (hat : '@' ∈ name.toList)
    (hne : ∀ f ∈ files, ∀ e ∈ f.nodes.elements.toList, e.kind.isComponent = true →
      nameText e.name ≠ name)
    (h : design.definitions.contains name = false) : From ir (addFiles files design)
      fun design' _ => design'.definitions.contains name = false := by
  induction files generalizing ir design with
  | nil => exact .pure h
  | cons f files ih =>
    obtain ⟨hf, hfiles⟩ := List.forall_mem_cons.mp hne
    exact (undefined_addElements hat hf h).bind fun _ _ h => ih hfiles h

theorem addElements_append (t : NodeTable) (es es' : List DesignElement) (design : Design) :
    addElements t (es ++ es') design = addElements t es design >>= addElements t es' := by
  induction es generalizing design with
  | nil => rw [List.nil_append, addElements, pure_bind]
  | cons e es ih =>
    rw [List.cons_append, addElements, addElements, bind_assoc]
    congr 1
    funext design
    exact ih design

/-- **An interface whose name is new** is shown with the modports that are declared in it. -/
theorem shows_addComponent {node : NodeId} (hnew : design.definitions.contains name = false)
    (hbacked : ir.Backed design.definitions.values)
    (hkind : t.kind node = .paInterfaceDeclaration)
    (hnames : ((t.modportItems node).map t.modportName).Nodup)
    (hgroups : ∀ item ∈ t.modportItems node,
      t.GroupsEntries (t.childrenOf item .paModportPortsDeclaration)) :
    From ir (addComponent design t name node) fun design' ir' => design'.Shows ir' name t node := by
  have hnext (i : ObjectId) : ir.parent? i ≠ some ir.size := fun hi =>
    Nat.lt_asymm (hbacked.sound.parent_lt i _ hi) (Ir.lt_of_parent? hi)
  have hviews := views_opened name hnext hkind hnames hgroups
  rw [addComponent, if_neg (by simp [hnew])]
  refine (opens_addDefinition name t node).bind ?_
  rintro _ ir₁ ⟨⟨handles, rfl⟩, h₁⟩
  refine (keeps_addGates _).bind fun design₁ ir₂ h₂ => .pure ⟨{ (opened name t node ir).1 with
    handles }, ?_, hviews.mono ((h₁.trans h₂.1).mono fun _ => False.elim) handles _⟩
  rw [OrderedMap.get?_insert, if_pos rfl]

end Compiling

namespace NodeTable

variable {t : NodeTable} {root id item : NodeId} {k : NodeKind}

/-- Children of a kind belong to the shape of the tree, unless the kind does not. -/
theorem mem_shape_of_mem_childrenOf (h : id ∈ t.childrenOf item k) (hk : k.isTrivia = false) :
    id ∈ t.shape item := by
  obtain ⟨hmem, hkind⟩ := mem_childrenOf.mp h
  exact List.mem_filter.mpr ⟨hmem, by rw [hkind, hk]; rfl⟩

/-- **In a table that is made as the grammar says**, the entries of each item are grouped one by
one. -/
theorem WellMade.groupsEntries (ht : t.WellMade) (hroot : t.Below t.root root)
    (h : item ∈ t.modportItems root) :
    t.GroupsEntries (t.childrenOf item .paModportPortsDeclaration) := by
  obtain ⟨declaration, hdeclaration, hitem⟩ := List.mem_flatMap.mp h
  have hbelow := (hroot.child (mem_shape_of_mem_childrenOf hdeclaration rfl)).child
    (mem_shape_of_mem_childrenOf hitem rfl)
  exact fun id hid => ht.group id (hbelow.child (mem_shape_of_mem_childrenOf hid rfl))
    (mem_childrenOf.mp hid).2

end NodeTable

/-! ### The interfaces of files -/

/-- Is an element of a file the first module, interface or primitive of its name among those of some
files? -/
def DesignElement.IsFirst (files : List SourceFile) (f : SourceFile) (e : DesignElement) : Prop :=
  ∃ before after es es', files = before ++ f :: after ∧
    f.nodes.elements.toList = es ++ e :: es' ∧
    (∀ g ∈ before, ∀ e' ∈ g.nodes.elements.toList, e'.kind.isComponent = true →
      nameText e'.name ≠ nameText e.name) ∧
    ∀ e' ∈ es, e'.kind.isComponent = true → nameText e'.name ≠ nameText e.name

/-- **The modports of the interfaces of files.** Of whatever files that have been read, an interface
that is the first of its name, and in which no two items of modports have the same name, is defined
with a modport for each item that names ports, in the order of the items. The ports of a modport are
the simple ports of its item in order, each with the last direction written before it in the item;
its clocking blocks are those that the item names, in order. The modports below the object of the
interface are the objects of its modports, each of one. An item that names no ports, though, becomes
no modport and no object, also if it names clocking blocks. -/
theorem makes_modports (files : List SourceFile) (hfiles : ∀ f ∈ files, f.IsRead)
    (s s' : Session) (design : Design) (ir : Ir) (h : compileDesign files s = .ok (design, ir) s')
    (f : SourceFile) (e : DesignElement) (hfirst : e.IsFirst files f) (hkind : e.kind = .interface)
    (hnames : ((f.nodes.modportItems e.node).map f.nodes.modportName).Nodup) :
    ∃ d, design.definitions.get? (nameText e.name) = some d ∧ d.Views f.nodes e.node ir := by
  obtain ⟨before, after, es, es', rfl, helements, hbefore, hes⟩ := hfirst
  have hread : f.IsRead := hfiles f (by simp)
  have hmem : ∀ e' ∈ es ++ e :: es', e' ∈ f.nodes.elements := fun e' he' =>
    Array.mem_toList_iff.mp (helements ▸ he')
  have he := hmem e (by simp)
  obtain ⟨hbelow, -, hnode⟩ := hread.declares.declared e he
  obtain ⟨library, dotted, hname⟩ := hread.declares.named e he
  have hat : '@' ∈ (nameText e.name).toList := by
    rw [hname, nameText, Option.getD_some, String.toList_append, String.toList_append]
    simp
  have hinterface : f.nodes.kind e.node = .paInterfaceDeclaration := by
    rw [hkind] at hnode
    unfold ElementKind.ofNode? at hnode
    split at hnode <;> first | assumption | cases hnode
  have hrun : Compiling.From {} (Compiling.addFiles (before ++ f :: after) {}) fun design ir =>
      design.Shows ir (nameText e.name) f.nodes e.node := by
    rw [Compiling.addFiles_append]
    refine ((Compiling.from_addFiles (fun g hg => (hfiles g (by simp [hg])).declares) .empty).and
      (Compiling.undefined_addFiles hat hbefore rfl)).bind fun design₁ ir₁ h₁ => ?_
    refine .bind ?_ fun design₃ ir₃ h₃ => Compiling.shows_addFiles h₃ after
    rw [helements, Compiling.addElements_append]
    refine ((Compiling.from_addElements hread.declares (fun e' he' => hmem e' (by simp [he']))
      h₁.1).and (Compiling.undefined_addElements hat hes h₁.2)).bind fun design₂ ir₂ h₂ => ?_
    refine .bind ?_ fun design₃ ir₃ h₃ => Compiling.shows_addElements h₃ es'
    rw [Compiling.addElement_of_component (by rw [hkind]; rfl)]
    exact Compiling.shows_addComponent h₂.2 h₂.1 hinterface hnames fun item hitem =>
      hread.wellMade.groupsEntries hbelow hitem
  rw [compileDesign] at h
  split at h
  · rename_i design' c hdesign
    obtain ⟨⟨rfl, rfl⟩, rfl⟩ : (design' = design ∧ c.ir = ir) ∧ c.session = s' := by simpa using h
    exact hrun _ _ _ rfl hdesign
  · cases h

/-- An interface with an item that names a port and one that names none. -/
def clockedBus : String := "interface bus; modport mp(input a), watch(clocking cb); endinterface\n"

/-- Does a file begin with the interface `bus`, whose items are `mp` and `watch`, and has a design
of it no modport `watch`? -/
def leavesOut (f : SourceFile) (design : Design) : Bool :=
  match f.nodes.elements.toList, design.definitions.get? "work@bus" with
  | e :: _, some d => e.kind == .interface && nameText e.name == "work@bus" &&
      (f.nodes.modportItems e.node).map f.nodes.modportName == ["mp", "watch"] &&
        !d.modports.contains "watch" && (d.clockingBlocks "watch").map (·.name) == ["cb"]
  | _, _ => false

theorem exists_leavesOut : ∃ f s design ir s',
    SourceFile.ofText "bus.sv" clockedBus bareSession = .ok f s ∧
      compileDesign [f] s = .ok (design, ir) s' ∧ ∃ e es d,
        f.nodes.elements.toList = e :: es ∧ e.kind = .interface ∧ nameText e.name = "work@bus" ∧
        (f.nodes.modportItems e.node).map f.nodes.modportName = ["mp", "watch"] ∧
        design.definitions.get? "work@bus" = some d ∧ d.modports.contains "watch" = false ∧
        (d.clockingBlocks "watch").map (·.name) = ["cb"] := by
  have h : (SourceFile.ofText "bus.sv" clockedBus).endsIn
      (fun f => (compileDesign [f]).endsIn fun r _ => leavesOut f r.1) bareSession = true := by
    rw [Step.endsIn, SourceFile.ofText_of_plain ⟨by decide +kernel, by decide +kernel⟩]
    decide +kernel
  obtain ⟨f, s, hf, h⟩ := Step.exists_of_endsIn h
  obtain ⟨⟨design, ir⟩, s', hd, h⟩ := Step.exists_of_endsIn h
  refine ⟨f, s, design, ir, s', hf, hd, ?_⟩
  rw [leavesOut] at h
  split at h
  · rename_i e es d hes hget
    simp only [Bool.and_eq_true, Bool.not_eq_true', beq_iff_eq] at h
    obtain ⟨⟨⟨⟨hkind, hname⟩, hitems⟩, hmodport⟩, hblocks⟩ := h
    exact ⟨e, es, d, hes, hkind, hname, hitems, hget, hmodport, hblocks⟩
  · cases h

theorem makes_modports_clockedBus : ∃ f s design ir s', ∃ e : DesignElement,
    SourceFile.ofText "bus.sv" clockedBus bareSession = .ok f s ∧ (∀ g ∈ [f], g.IsRead) ∧
      compileDesign [f] s = .ok (design, ir) s' ∧ e.IsFirst [f] f ∧ e.kind = .interface ∧
      ((f.nodes.modportItems e.node).map f.nodes.modportName).Nodup ∧
      ∃ d, design.definitions.get? (nameText e.name) = some d ∧ d.Views f.nodes e.node ir := by
  obtain ⟨f, s, design, ir, s', hf, hd, e, es, -, hes, hkind, -, hitems, -⟩ := exists_leavesOut
  have hread : ∀ g ∈ [f], g.IsRead := List.forall_mem_singleton.mpr (SourceFile.isRead_ofText hf)
  have hfirst : e.IsFirst [f] f := ⟨[], [], [], es, rfl, hes, by simp, by simp⟩
  have hnames : ((f.nodes.modportItems e.node).map f.nodes.modportName).Nodup := by
    rw [hitems]
    decide
  exact ⟨f, s, design, ir, s', e, hf, hread, hd, hfirst, hkind, hnames,
    makes_modports [f] hread s s' design ir hd f e hfirst hkind hnames⟩

/-- An item that names only a clocking block becomes no modport. -/
theorem makes_no_modport_clockedBus : ∃ f s design ir s', ∃ e ∈ f.nodes.elements, ∃ d,
    SourceFile.ofText "bus.sv" clockedBus bareSession = .ok f s ∧
      compileDesign [f] s = .ok (design, ir) s' ∧ e.kind = .interface ∧
      ((f.nodes.modportItems e.node).map f.nodes.modportName).Nodup ∧
      "watch" ∈ (f.nodes.modportItems e.node).map f.nodes.modportName ∧
      design.definitions.get? (nameText e.name) = some d ∧ d.modports.get? "watch" = none ∧
      (d.clockingBlocks "watch").map (·.name) = ["cb"] := by
  obtain ⟨f, s, design, ir, s', hf, hd, e, es, d, hes, hkind, hname, hitems, hget, hmodport,
    hblocks⟩ := exists_leavesOut
  have hmem : e ∈ f.nodes.elements := Array.mem_toList_iff.mp (hes ▸ List.mem_cons_self)
  refine ⟨f, s, design, ir, s', e, hmem, d, hf, hd, hkind, ?_, ?_, hname ▸ hget, ?_, hblocks⟩
  · rw [hitems]
    decide
  · rw [hitems]
    decide
  · rwa [OrderedMap.contains, Option.isSome_eq_false_iff, Option.isNone_iff_eq_none] at hmodport

end Verilog
