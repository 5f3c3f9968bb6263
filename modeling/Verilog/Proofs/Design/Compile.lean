import Verilog.Proofs.Design.Definition
import Verilog.Proofs.Syntax.Elements
import Verilog.Proofs.Syntax.Marks

/-!
# A compiled design is a forest

Definitions are compiled one after the other, each to an object of its own and to objects below it.
So in a design the objects without a parent are those of its definitions, and what an object holds
are its children, each once (`Design.isForest_compile`). Gates have no source and so no place;
everything else has one, as far as the files that are compiled have been read from texts.
-/

namespace Verilog

namespace Compiling

open Definition

variable {ir ir₁ : Ir} {d : Definition} {t : NodeTable} {root : NodeId}

/-! ### One definition -/

theorem from_addConstructs (component : String) {p : ObjectId} {cs : List GenerateConstruct}
    (hcs : ∀ c ∈ cs, c.Located) (hp : p < ir.size) :
    From ir (addConstructs component p cs) fun ids ir' => ir.AddsBelow p ids ir' := by
  induction cs generalizing ir with
  | nil => exact .pure (.nil ir p)
  | cons c cs ih =>
    rw [List.forall_mem_cons] at hcs
    refine (from_addConstruct component p c hcs.1 hp).bind fun ids ir₁ h₁ => ?_
    refine (ih hcs.2 (Nat.lt_of_lt_of_le hp h₁.grows.size_le)).bind fun more ir₂ h₂ => ?_
    exact .pure (h₁.append h₂)

/-- The continuous assignments of a definition stand in a list of the definition. -/
theorem from_addAssigns (h : d.Founded ir ir₁) {assigns : List NetAssign}
    (ha : ∀ a ∈ assigns, a.Located) :
    From ir₁ (addAssigns d assigns) fun d' ir' => d'.Founded ir ir' := by
  have hids := Ir.addsBelow_addNetAssigns ha h.within.object
  refine .bind (.onIr (Q := fun ids ir' => ir₁.AddsBelow d.object ids ir') hids) fun ids ir₂ h₂ =>
    ?_
  split
  · exact .pure (h.trans h₂.widens)
  · refine .bind (Q := fun l ir' => (l, ir') = ir₂.addListOf ids) (.onIr rfl) ?_
    rintro l ir₃ he
    obtain ⟨rfl, rfl⟩ := Prod.mk.inj he
    obtain ⟨hgrows, hsound⟩ := h₂.addListOf h.within.object
    have h' := h.trans (hgrows.widens fun hs => (hsound [] hs).forget)
    refine .pure (h'.learn rfl rfl h'.within.modports fun e he => ?_)
    rcases List.mem_cons.mp ((setRole_subperm _ _ _).subset (List.mem_map_of_mem he)) with he | he
    · have hpush : ir₂.addList.2.Grows Ir.nothing (Ir.only ir₂.lists.size) (ir₂.addListOf ids).2 :=
        .pushAll _ _ ids
      rw [he]
      exact Nat.lt_of_lt_of_le (by simp [Ir.addList]) hpush.lists_le
    · obtain ⟨e', he', heq⟩ := List.mem_map.mp he
      exact heq ▸ h'.within.handles e' he'

/-- The generate constructs of a definition stand in a list of its object. -/
theorem from_addGenerates (h : d.Founded ir ir₁) {constructs : List GenerateConstruct}
    (hc : ∀ c ∈ constructs, c.Located) :
    From ir₁ (addGenerates d constructs) fun _ ir' => d.Founded ir ir' := by
  refine (from_addConstructs d.name hc h.within.object).bind fun ids ir₂ h₂ => ?_
  split
  · refine .bind (Q := fun l ir' => (l, ir') = ir₂.addListOf ids) (.onIr rfl) ?_
    rintro l ir₃ he
    obtain ⟨rfl, rfl⟩ := Prod.mk.inj he
    exact .change (h.trans (h₂.setListOf h.within.object .generates).widens)
  · exact .pure (h.trans h₂.widens)

/-- **A definition is compiled** to an object and objects below it. -/
theorem from_addDefinition (ht : t.Readable) (hroot : t.Below t.root root) (name : String)
    (hfirst : t.contains (t.first root (headOf (t.kind root) name).2)) :
    From ir (addDefinition name t root) fun d ir' => d.Founded ir ir' := by
  refine .bind (Q := fun d ir' => d.FoundedAt [(t, root)] ir ir')
    (.onIr ⟨founded_declare name t root ir hfirst, rfl⟩) fun d ir₁ h => ?_
  have hports : Definition.FoundedAt
      { d with ports := portsOf name t root, signals := signalsOf name t root } [(t, root)] ir
      ir₁ :=
    ⟨h.founded.learn rfl rfl h.founded.within.modports h.founded.within.handles, h.roots⟩
  refine .bind (Q := fun d ir' => d.FoundedAt [(t, root)] ir ir')
    (.onIr (founded_addModports hports root)) fun d ir₂ h => ?_
  refine (from_addAssigns h.founded fun a ha => ?_).bind fun d ir₃ h => ?_
  · obtain ⟨item, -, ha⟩ := List.mem_flatMap.mp ha
    exact NodeTable.located_netAssigns t item a ha
  · refine (from_addGenerates h fun c hc => ?_).bind fun _ ir₄ h => .pure h
    obtain ⟨id, hid, rfl⟩ := List.mem_map.mp hc
    have hid := (List.mem_filter.mp hid).1
    exact NodeTable.located_construct ht (hroot.child hid)
      (ht.contains root id (NodeTable.children_of_shape hid))

end Compiling

/-! ### All definitions of a design -/

/-- **A design whose objects are backed by definitions**: objects without a parent are those of
definitions, and those without a place belong to definitions without a source. -/
structure Ir.Backed (ir : Ir) (ds : List Definition) : Prop where
  sound : ir.Sound []
  within : ∀ d ∈ ds, d.Within ir
  parentless : ∀ i, i < ir.size → ir.parent? i = none → ∃ d ∈ ds, d.object = i
  placeless : ∀ i, i < ir.size → ir.range? i = none → ∃ d ∈ ds, d.object = i ∧ d.roots = []

namespace Ir.Backed

variable {ir ir' : Ir} {ds ds' : List Definition} {d : Definition}

theorem empty : Backed {} [] :=
  ⟨sound_empty, by simp, fun _ h => absurd h (Nat.not_lt_zero _), fun _ h =>
  absurd h (Nat.not_lt_zero _)⟩

/-- A definition more. -/
theorem add (h : ir.Backed ds) (hd : d.Founded ir ir') : ir'.Backed (ds ++ [d]) := by
  refine ⟨hd.widens.sound h.sound, fun e he => ?_, fun i hi hn => ?_, fun i hi hn => ?_⟩
  · rcases List.mem_append.mp he with he | he
    · exact (h.within e he).mono hd.widens.size_le hd.widens.lists_le
    · exact List.mem_singleton.mp he ▸ hd.within
  · by_cases hlt : i < ir.size
    · obtain ⟨e, he, ho⟩ := h.parentless i hlt (hd.widens.parent i hlt ▸ hn)
      exact ⟨e, List.mem_append_left _ he, ho⟩
    · by_cases hid : i = d.object
      · exact ⟨d, by simp, hid.symm⟩
      · simpa [hn] using (hd.widens.new i (Nat.le_of_not_lt hlt) hi hid).1
  · by_cases hlt : i < ir.size
    · obtain ⟨e, he, ho⟩ := h.placeless i hlt (hd.widens.range i hlt ▸ hn)
      exact ⟨e, List.mem_append_left _ he, ho⟩
    · by_cases hid : i = d.object
      · refine ⟨d, by simp, hid.symm, ?_⟩
        by_contra hr
        simpa [← hid, hn] using hd.place hr
      · simpa [hn] using (hd.widens.new i (Nat.le_of_not_lt hlt) hi hid).2

/-- Definitions may be listed otherwise, and change in what is said of no object. -/
theorem congr (h : ir.Backed ds)
    (hto : ∀ d ∈ ds, ∃ d' ∈ ds', d'.object = d.object ∧ d'.roots = d.roots)
    (hfrom : ∀ d' ∈ ds', ∃ d ∈ ds, d'.object = d.object ∧ d'.modports = d.modports ∧
      d'.handles = d.handles) : ir.Backed ds' := by
  refine ⟨h.sound, fun d' hd' => ?_, fun i hi hn => ?_, fun i hi hn => ?_⟩
  · obtain ⟨d, hd, ho, hm, hh⟩ := hfrom d' hd'
    obtain ⟨hobject, hmodports, hhandles⟩ := h.within d hd
    exact ⟨ho ▸ hobject, hm ▸ hmodports, hh ▸ hhandles⟩
  · obtain ⟨d, hd, rfl⟩ := h.parentless i hi hn
    obtain ⟨d', hd', ho, -⟩ := hto d hd
    exact ⟨d', hd', ho⟩
  · obtain ⟨d, hd, rfl, hr⟩ := h.placeless i hi hn
    obtain ⟨d', hd', ho, hroots⟩ := hto d hd
    exact ⟨d', hd', ho, hroots.trans hr⟩

theorem of_mem (h : ir.Backed ds) (hmem : ∀ d, d ∈ ds' ↔ d ∈ ds) : ir.Backed ds' :=
  h.congr (fun d hd => ⟨d, (hmem d).mpr hd, rfl, rfl⟩)
    fun d hd => ⟨d, (hmem d).mp hd, rfl, rfl, rfl⟩

/-- The classes of a definition are no objects. -/
theorem modify {m : OrderedMap String Definition} (h : ir.Backed m.values) (name : String)
    (f : Definition → Definition) (hf : ∀ d, (f d).object = d.object ∧ (f d).roots = d.roots ∧
      (f d).modports = d.modports ∧ (f d).handles = d.handles) :
    ir.Backed (m.modify name f).values := by
  refine h.congr (fun d hd => ?_) fun d' hd' => ?_
  · obtain ⟨d', hd', rfl | rfl⟩ := OrderedMap.exists_values_modify name f hd
    · exact ⟨d', hd', rfl, rfl⟩
    · exact ⟨f d, hd', (hf d).1, (hf d).2.1⟩
  · obtain ⟨d, hd, rfl | rfl⟩ := OrderedMap.mem_values_modify hd'
    · exact ⟨d', hd, rfl, rfl, rfl⟩
    · exact ⟨d, hd, (hf d).1, (hf d).2.2⟩

end Ir.Backed

/-- No gate is named like an element of a library. -/
theorem at_not_mem_gateName? {k : NodeKind} {name : String} (h : NodeTable.gateName? k = some name)
    :
    '@' ∉ name.toList := by
  unfold NodeTable.gateName? at h
  split at h <;> cases h <;> decide

theorem at_not_mem_gatesOf {t : NodeTable} {node : NodeId} {gate : String}
    (h : gate ∈ gatesOf t node) : '@' ∉ gate.toList := by
  obtain ⟨id, -, hid⟩ := List.mem_filterMap.mp (List.mem_eraseDups.mp h)
  obtain ⟨k, -, hk⟩ := Option.bind_eq_some_iff.mp hid
  exact at_not_mem_gateName? hk

/-- A component opens with the word that its object starts at. -/
theorem opening?_eq_headOf {kind : NodeKind} {e : ElementKind} (name : String)
    (h : ElementKind.ofNode? kind = some e) (he : e = .module ∨ e = .interface ∨ e = .primitive) :
    kind.opening? = some (Definition.headOf kind name).2 := by
  unfold ElementKind.ofNode? at h
  split at h <;> cases h <;> first | rfl | simp at he

namespace Compiling

variable {ir : Ir} {design : Design} {t : NodeTable}

theorem from_addGates {ds : List Definition} (gates : List String)
    (h : ir.Backed (ds ++ design.definitions.values)) :
    From ir (addGates design gates) fun design' ir' =>
      ir'.Backed (ds ++ design'.definitions.values) ∧
        ∀ name, design'.definitions.contains name → design.definitions.contains name ∨
        name ∈ gates := by
  induction gates generalizing ir design with
  | nil => exact .pure ⟨h, fun _ => .inl⟩
  | cons gate gates ih =>
    rw [addGates]
    split
    · exact (ih h).mono fun _ _ h => ⟨h.1, fun name hn => (h.2 name hn).imp_right (.tail _)⟩
    · rename_i hc
      refine .bind (Q := fun d ir' => d.Founded ir ir') (.onIr (Definition.founded_builtIn gate ir))
        fun d ir₁ hd => ?_
      have hvalues := OrderedMap.values_insert_of_not_contains (Bool.not_eq_true _ ▸ hc) d
      have hnext : ir₁.Backed (ds ++ (design.definitions.insert gate d).values) := by
        rw [hvalues, ← List.append_assoc]
        exact h.add hd
      refine (ih hnext).mono fun _ _ h => ⟨h.1, fun name hn => ?_⟩
      rcases h.2 name hn with hn | hn
      · rw [OrderedMap.contains_insert, Bool.or_eq_true, decide_eq_true_eq] at hn
        rcases hn with rfl | hn
        · exact .inr List.mem_cons_self
        · exact .inl hn
      · exact .inr (.tail _ hn)

/-- **A component** becomes a definition, unless there is one of its name. -/
theorem from_addComponent (ht : t.Readable) {node : NodeId} (hnode : t.Below t.root node)
    {name : String} (hname : '@' ∈ name.toList)
    (hfirst : t.contains (t.first node (Definition.headOf (t.kind node) name).2))
    (h : ir.Backed design.definitions.values) :
    From ir (addComponent design t name node) fun design' ir' =>
      ir'.Backed design'.definitions.values := by
  unfold addComponent
  split
  · exact .bind (Q := fun _ ir' => ir'.Backed design.definitions.values) (.report h _ _ _)
      fun _ _ h => .pure h
  · rename_i hc
    refine (from_addDefinition ht hnode name hfirst).bind fun d ir₁ hd => ?_
    have hds : ir₁.Backed ([d] ++ design.definitions.values) :=
      (h.add hd).of_mem fun e => by simp [or_comm]
    refine (from_addGates (gatesOf t node) hds).bind fun design' ir₂ h => .pure ?_
    obtain ⟨h₂, hnames⟩ := h
    have hnew : design'.definitions.contains name = false := by
      by_contra hn
      rw [Bool.not_eq_false] at hn
      rcases hnames name hn with hn | hn
      · exact hc hn
      · exact at_not_mem_gatesOf hn hname
    rw [OrderedMap.values_insert_of_not_contains hnew]
    exact h₂.of_mem fun e => by simp [or_comm]

theorem from_addElement (ht : t.Declares) {e : DesignElement} (he : e ∈ t.elements)
    (h : ir.Backed design.definitions.values) :
    From ir (addElement t design e) fun design' ir' => ir'.Backed design'.definitions.values := by
  obtain ⟨library, dotted, hname⟩ := ht.named e he
  obtain ⟨hbelow, hc, hkind⟩ := ht.declared e he
  have hat : '@' ∈ (nameText e.name).toList := by
    rw [hname, nameText, Option.getD_some, String.toList_append, String.toList_append]
    simp
  have hcomponent (hk : e.kind = .module ∨ e.kind = .interface ∨ e.kind = .primitive) :
      From ir (addComponent design t (nameText e.name) e.node) fun design' ir' =>
        ir'.Backed design'.definitions.values :=
    from_addComponent ht.readable hbelow hat
      (ht.opening e.node hbelow hc _ (opening?_eq_headOf _ hkind hk)) h
  unfold addElement
  dsimp only
  split
  case h_1 hk => exact hcomponent (.inl hk)
  case h_2 hk => exact hcomponent (.inr (.inl hk))
  case h_3 hk => exact hcomponent (.inr (.inr hk))
  case h_4 | h_5 | h_7 => exact .pure h
  case h_6 =>
    refine .pure ?_
    unfold Design.addClass
    dsimp only
    split
    · exact h
    · exact h.modify _ _ fun d => ⟨rfl, rfl, rfl, rfl⟩

theorem from_addElements (ht : t.Declares) {es : List DesignElement}
    (hes : ∀ e ∈ es, e ∈ t.elements)
    (h : ir.Backed design.definitions.values) :
    From ir (addElements t es design) fun design' ir' => ir'.Backed design'.definitions.values := by
  induction es generalizing ir design with
  | nil => exact .pure h
  | cons e es ih =>
    rw [List.forall_mem_cons] at hes
    exact (from_addElement ht hes.1 h).bind fun _ _ h => ih hes.2 h

theorem from_addFiles {files : List SourceFile} (hfiles : ∀ f ∈ files, f.nodes.Declares)
    (h : ir.Backed design.definitions.values) :
    From ir (addFiles files design) fun design' ir' => ir'.Backed design'.definitions.values := by
  induction files generalizing ir design with
  | nil => exact .pure h
  | cons f files ih =>
    rw [List.forall_mem_cons] at hfiles
    exact (from_addElements hfiles.1 (fun e he => Array.mem_toList_iff.mp he) h).bind
      fun _ _ h => ih hfiles.2 h

end Compiling

/-! ### Designs as forests -/

namespace Ir

/-- What an object refers to: its parts, and the members of its lists. -/
def references (ir : Ir) (id : ObjectId) : List ObjectId :=
  match ir.object? id with
  | some o => o.parts.map (·.2) ++ o.lists.flatMap fun l => ir.members l.2
  | none => []

theorem references_eq (ir : Ir) (id : ObjectId) : ir.references id = ir.held [] id := by
  rw [references, held, holds, partIds, listIds]
  cases ir.object? id with
  | none => rfl
  | some o => simp [List.flatMap_map]

/-- What the objects of a design refer to, one object after the other. -/
def allReferences (ir : Ir) : List ObjectId := (List.range ir.size).flatMap ir.references

/-- No object is referred to twice. -/
theorem Sound.nodup_allReferences {ir : Ir} (h : ir.Sound []) : ir.allReferences.Nodup := by
  refine List.nodup_flatMap.mpr ⟨fun p _ => references_eq ir p ▸ h.nodup p, ?_⟩
  refine List.pairwise_lt_range.imp fun {p q} hlt c hp hq => Nat.ne_of_lt hlt ?_
  rw [references_eq] at hp hq
  exact Option.some.inj ((h.parent p c hp).symm.trans (h.parent q c hq))

end Ir

/-- **What it means that a design is a forest.** -/
structure Design.IsForest (design : Design) (ir : Ir) : Prop where
  /-- The numbers that objects hold are those of objects and lists. -/
  numbers : ∀ i o, ir.object? i = some o → (∀ p, o.parent = some p → Nat.lt p ir.size) ∧
    (∀ r ∈ o.parts, Nat.lt r.2 ir.size) ∧ ∀ l ∈ o.lists, Nat.lt l.2 ir.lists.size
  /-- So are those in lists, in use or not. -/
  members : ∀ l, ∀ c ∈ ir.members l, Nat.lt c ir.size
  /-- So are those that definitions hold. -/
  definitions : ∀ d ∈ design.definitions.values, d.Within ir
  /-- Every object has a parent, which comes before it, or is the object of a definition. -/
  parents : ∀ i o, ir.object? i = some o → (∃ p, o.parent = some p ∧ Nat.lt p i) ∨
    o.parent = none ∧ ∃ d ∈ design.definitions.values, d.object = i
  /-- What an object refers to has that object as its parent. -/
  children : ∀ i, ∀ c ∈ ir.references i, ∃ o, ir.object? c = some o ∧ o.parent = some i
  /-- Nothing is referred to from two places. -/
  once : ir.allReferences.Nodup
  /-- Every object has a place, or belongs to a definition without a source. -/
  places : ∀ i o, ir.object? i = some o → o.range.isSome ∨
    ∃ d ∈ design.definitions.values, d.object = i ∧ d.roots = []

theorem Ir.Backed.isForest {design : Design} {ir : Ir} (h : ir.Backed design.definitions.values) :
    design.IsForest ir := by
  have hs := h.sound
  have hlt {i o} (ho : ir.object? i = some o) : i < ir.size := (Array.getElem?_eq_some_iff.mp ho).1
  have hparent {i o} (ho : ir.object? i = some o) : ir.parent? i = o.parent := by
    rw [Ir.parent?, ho, Option.bind_some]
  have hchildren (i c) (hc : c ∈ ir.references i) :
      ∃ o, ir.object? c = some o ∧ o.parent = some i :=
    Option.bind_eq_some_iff.mp (hs.parent i c (Ir.references_eq ir i ▸ hc))
  refine ⟨fun i o ho => ⟨fun p hp => ?_, fun r hr => ?_, fun l hl => ?_⟩, hs.members_lt, h.within,
    fun i o ho => ?_, hchildren, hs.nodup_allReferences, fun i o ho => ?_⟩
  · exact Nat.lt_trans (hs.parent_lt i p ((hparent ho).trans hp)) (hlt ho)
  · obtain ⟨o', ho', -⟩ := hchildren i r.2 (by
      rw [Ir.references, ho]
      exact List.mem_append_left _ (List.mem_map_of_mem hr))
    exact hlt ho'
  · refine hs.lists_lt i l.2 (List.mem_append_left _ ?_)
    rw [Ir.listIds, ho]
    exact List.mem_map_of_mem hl
  · cases hp : o.parent with
    | some p => exact .inl ⟨p, rfl, hs.parent_lt i p ((hparent ho).trans hp)⟩
    | none => exact .inr ⟨rfl, h.parentless i (hlt ho) ((hparent ho).trans hp)⟩
  · cases hr : o.range with
    | some r => exact .inl rfl
    | none =>
      refine .inr (h.placeless i (hlt ho) ?_)
      rw [Ir.range?, ho, Option.bind_some, hr]

/-- Has a file been read from some text? -/
def SourceFile.IsRead (f : SourceFile) : Prop :=
  ∃ text s s', SourceFile.ofPreprocessed text s = .ok f s'

theorem SourceFile.isRead_ofText {path text : String} {s s' : Session} {f : SourceFile}
    (h : ofText path text s = .ok f s') : f.IsRead := by
  obtain ⟨p, mid, -, h⟩ := Step.exists_of_bind h
  exact ⟨p, mid, s', h⟩

end Verilog
