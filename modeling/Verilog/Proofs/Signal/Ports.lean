import Verilog.Proofs.Signal.Interface

/-!
# Ports in the header and ports in the body

A port is declared in the header of a component, or it is named in the header and declared by an
item. What a declaration says of the type of a port is read off its parts in the same way at both
places (`NodeTable.typeWords`, `declaredSignal_says`). A port that the header names takes its
direction, its type of net and its sign from there, but neither dimensions nor the name of a type.
So ports that are declared alike at both places are the same ports in the same order, of which those
in the body have no dimensions (`declares_ports_alike`).

Only the first port of a name is given what a declaration says, and names are distinct, so the order
of the items does not matter: the ports of the header with the declarations of their names are what
remains of going through the items (`foldl_declare`).
-/

namespace Verilog

open Step

/-! ### Types of ports -/

/-- Does a kind say of what type a port is: is it a type of net, a sign, a data type or a packed
dimension? -/
def NodeKind.isTypePart (k : NodeKind) : Bool :=
  k.isNetType || k == .paSigningSigned || k == .paDataType || k == .paPackedDimension

/-- What a declaration says that the type of a port hangs on. -/
structure TypeWords where
  /-- The kinds of its parts, as far as they say something. -/
  kinds : List NodeKind
  /-- The first kind in its data type, and all kinds there. -/
  dataType : Option (NodeKind × List NodeKind)
  deriving DecidableEq

/-- What is said of the type of a port. -/
structure PortType where
  netType : NodeKind
  signed : Bool
  /-- Are there packed dimensions? -/
  isPacked : Bool
  /-- Has the type a name? -/
  isNamed : Bool
  deriving DecidableEq

namespace PortType

/-- **The type of a port** by what its declaration says: a data type comes before a type of net, and
is all that is looked at if it has a name. -/
def ofWords (w : TypeWords) : PortType :=
  match w.dataType with
  | some (first, below) =>
    match first with
    | .slStringConst | .paClassScope => ⟨.slNoType, false, false, true⟩
    | kind => ⟨kind, (w.kinds ++ below).any (· == .paSigningSigned),
        below.any (· == .paPackedDimension), false⟩
  | none => ⟨(w.kinds.find? NodeKind.isNetType).getD .slNoType,
      w.kinds.any (· == .paSigningSigned), w.kinds.any (· == .paPackedDimension), false⟩

end PortType

/-- What a signal shows of its type. -/
def Signal.portType (s : Signal) : PortType := ⟨s.netType, s.signed, s.packed != 0, s.hasTypeName⟩

namespace NodeTable

variable {t : NodeTable} {id : NodeId} {k : NodeKind}

/-- What a declaration says that the type of a port hangs on. -/
def typeWords (t : NodeTable) (owner : NodeId) : TypeWords where
  kinds := ((t.children owner).map t.kind).filter NodeKind.isTypePart
  dataType := ((t.children owner).find? fun id => t.kind id == .paDataType).map fun id =>
    (t.kind (t.child id), (t.shape id).map t.kind)

theorem ne_zero_of_mem_chain {fuel first q : Nat} (h : q ∈ t.chain fuel first) : q ≠ 0 := by
  induction fuel generalizing first with
  | zero => cases h
  | succ fuel ih =>
    rw [chain] at h
    split at h
    · cases h
    · rcases List.mem_cons.mp h with rfl | h
      · assumption
      · exact ih h

/-- There is a child of a kind if the kind is among those of the children. -/
theorem childOf_bne_zero (t : NodeTable) (id : NodeId) (k : NodeKind) :
    (t.childOf id k != 0) = (t.children id).any fun q => t.kind q == k := by
  rw [Bool.eq_iff_iff, bne_iff_ne, List.any_eq_true, childOf]
  cases h : (t.children id).find? fun q => t.kind q == k with
  | none => simpa using List.find?_eq_none.mp h
  | some q =>
    have hq := List.mem_of_find?_eq_some h
    have hk := List.find?_some (p := fun q => t.kind q == k) h
    exact iff_of_true (ne_zero_of_mem_chain hq) ⟨q, hq, hk⟩

section Filtered

variable {α : Type} {p q : α → Bool}

theorem and_eq_of_imp (h : ∀ a, q a = true → p a = true) : (fun a => p a && q a) = q := by
  funext a
  cases hq : q a
  · rw [Bool.and_false]
  · rw [h a hq, Bool.and_true]

theorem find?_filter_of_imp (h : ∀ a, q a = true → p a = true) (as : List α) :
    (as.filter p).find? q = as.find? q := by
  simp only [List.find?_filter, Bool.decide_and, Bool.decide_eq_true, and_eq_of_imp h]

theorem any_filter_of_imp (h : ∀ a, q a = true → p a = true) (as : List α) :
    (as.filter p).any q = as.any q := by
  rw [List.any_filter, and_eq_of_imp h]

end Filtered

end NodeTable

open NodeTable

/-- **What a declaration says of the type of a signal.** -/
theorem declaredSignal_says (c : String) (t : NodeTable) (owner node nameNode : NodeId)
    (direction : NodeKind) :
    (declaredSignal c t owner node nameNode direction).portType = .ofWords (t.typeWords owner) := by
  have hkinds {k : NodeKind} (hk : k.isTypePart = true) :
      (t.typeWords owner).kinds.any (· == k) = (t.children owner).any fun id => t.kind id == k := by
    rw [typeWords, any_filter_of_imp fun a ha => by rw [beq_iff_eq.mp ha, hk], List.any_map]
    rfl
  have hbelow {k : NodeKind} (hk : k.isTrivia = false) (d : NodeId) :
      ((t.shape d).map t.kind).any (· == k) = (t.children d).any fun id => t.kind id == k := by
    rw [List.any_map, shape]
    refine any_filter_of_imp (fun id hid => ?_) _
    rw [beq_iff_eq.mp hid, hk]
    rfl
  have hsigned := hkinds (k := .paSigningSigned) rfl
  rw [declaredSignal, PortType.ofWords]
  cases hfind : (t.children owner).find? fun id => t.kind id == .paDataType with
  | none =>
    have hnone : t.childOf owner .paDataType = 0 := by rw [childOf, hfind]; rfl
    have hnet : (t.typeWords owner).kinds.find? NodeKind.isNetType =
        ((t.children owner).map t.kind).find? NodeKind.isNetType := by
      rw [typeWords, find?_filter_of_imp fun k hk => by simp [NodeKind.isTypePart, hk]]
    have hdata : (t.typeWords owner).dataType = none := by rw [typeWords, hfind]; rfl
    simp only [hnone, bne_self_eq_false, Bool.false_eq_true, if_false, hdata, hnet, hsigned,
      hkinds (k := .paPackedDimension) rfl, Signal.portType, Signal.hasTypeName, childOf_bne_zero]
  | some d =>
    have hsome : t.childOf owner .paDataType = d := by rw [childOf, hfind]; rfl
    have hd : (d != 0) = true :=
      bne_iff_ne.mpr (ne_zero_of_mem_chain (List.mem_of_find?_eq_some hfind))
    have hdata : (t.typeWords owner).dataType =
        some (t.kind (t.child d), (t.shape d).map t.kind) := by rw [typeWords, hfind]; rfl
    have hnamed {k : NodeKind} (hk : t.kind (t.child d) = k) (hne : k ≠ .slNoType) :
        (t.child d != 0) = true := by
      refine bne_iff_ne.mpr fun h0 => hne ?_
      rw [← hk, h0]
      rfl
    simp only [hsome, hd, if_true, hdata]
    split
    · rename_i hk
      simp [Signal.portType, Signal.hasTypeName, hnamed hk (by decide), *]
    · rename_i hk
      simp [Signal.portType, Signal.hasTypeName, hnamed hk (by decide), *]
    · simp only [Signal.portType, Signal.hasTypeName, List.any_append, hsigned,
        hbelow (k := .paSigningSigned) rfl, hbelow (k := .paPackedDimension) rfl,
        childOf_bne_zero, bne_self_eq_false]

/-! ### Ports of the body -/

/-- The names that are declared by items of the body, each with its declaration. -/
def NodeTable.bodyNames (t : NodeTable) (items : List NodeId) : List (NodeId × NodeId) :=
  items.flatMap fun item => match t.shape item with
    | [] => []
    | declaration :: _ =>
      (t.childrenOf (t.childOf declaration .paListOfPortIdentifiers) .slStringConst).map
        (declaration, ·)

/-- The port that a name in a declaration of the body declares. -/
def bodyPort (c : String) (t : NodeTable) (x : NodeId × NodeId) : Signal :=
  declaredSignal c t x.1 (t.childOf x.1 .paListOfPortIdentifiers) x.2 (bodyDirection (t.kind x.1))

/-- What a declaration says of its name and direction is kept, whatever it says of the type. -/
theorem declaredSignal_fields (c : String) (t : NodeTable) (owner node nameNode : NodeId)
    (direction : NodeKind) : ∃ typeName netType packed signed,
      declaredSignal c t owner node nameNode direction =
        { component := c, nodes := t, node, nameNode, direction, typeName, netType, packed, signed
          unpacked := t.childOf node .paUnpackedDimension } := by
  rw [declaredSignal]
  simp only
  split
  · split <;> exact ⟨_, _, _, _, rfl⟩
  · exact ⟨_, _, _, _, rfl⟩

theorem name_declaredSignal (c : String) (t : NodeTable) (owner node nameNode : NodeId)
    (direction : NodeKind) :
    (declaredSignal c t owner node nameNode direction).name = t.nameText nameNode := by
  obtain ⟨_, _, _, _, h⟩ := declaredSignal_fields c t owner node nameNode direction
  rw [h]
  rfl

section Declare

variable {c : String} {t : NodeTable} {ports : List Signal} {xs : List (NodeId × NodeId)}

/-- Items are gone through name by name. -/
theorem foldl_declarePorts (c : String) (t : NodeTable) (items : List NodeId)
    (ports : List Signal) : items.foldl (declarePorts c t) ports =
      (t.bodyNames items).foldl (fun ports x => declarePort (bodyPort c t x) x.1 ports) ports := by
  rw [NodeTable.bodyNames, List.foldl_flatMap]
  congr 1
  funext ports item
  rw [declarePorts]
  cases t.shape item with
  | nil => rfl
  | cons declaration more =>
    simp only [List.foldl_map]
    rfl

/-- A declaration of the name of a port is put into that port, and into no other. -/
theorem declarePort_eq (declared : Signal) (node : NodeId)
    (hnames : (ports.map Signal.name).Nodup) (hmem : declared.name ∈ ports.map Signal.name) :
    declarePort declared node ports =
      ports.map fun s => if s.name = declared.name then s.declaredAs declared node else s := by
  induction ports with
  | nil => cases hmem
  | cons s ports ih =>
    obtain ⟨hs, hports⟩ := List.nodup_cons.mp hnames
    rw [declarePort, List.map_cons]
    split
    · rename_i heq
      congr 1
      -- the name is that of the first port and so of no other
      refine ((List.map_congr_left fun s' hs' => if_neg fun h' => hs ?_).trans
        (List.map_id' ports)).symm
      rw [heq, ← h']
      exact List.mem_map_of_mem hs'
    · rename_i hne
      rw [ih hports ((List.mem_cons.mp hmem).resolve_left fun h => hne h.symm)]

/-- A port with what the first declaration of its name says. -/
def declaredBy (c : String) (t : NodeTable) (xs : List (NodeId × NodeId)) (s : Signal) : Signal :=
  match xs.find? fun x => t.nameText x.2 == s.name with
  | some x => s.declaredAs (bodyPort c t x) x.1
  | none => s

theorem name_bodyPort (c : String) (t : NodeTable) (x : NodeId × NodeId) :
    (bodyPort c t x).name = t.nameText x.2 := name_declaredSignal c t _ _ _ _

/-- Where keys differ, an entry is found by its key. -/
theorem find?_eq_of_nodup {α : Type} {key : α → String} {as : List α} (h : (as.map key).Nodup)
    {a : α} (ha : a ∈ as) : as.find? (fun b => key b == key a) = some a := by
  cases hfind : as.find? fun b => key b == key a with
  | none => exact absurd (beq_self_eq_true (key a)) (List.find?_eq_none.mp hfind a ha)
  | some b =>
    have hb := List.find?_some (p := fun b => key b == key a) hfind
    rw [List.inj_on_of_nodup_map h (List.mem_of_find?_eq_some hfind) ha (beq_iff_eq.mp hb)]

/-- **Declarations of different names** give each port what is said of its name. -/
theorem foldl_declare (hnames : (ports.map Signal.name).Nodup)
    (hxs : (xs.map fun x => t.nameText x.2).Nodup)
    (hmem : ∀ x ∈ xs, t.nameText x.2 ∈ ports.map Signal.name) :
    xs.foldl (fun ports x => declarePort (bodyPort c t x) x.1 ports) ports =
      ports.map (declaredBy c t xs) := by
  induction xs generalizing ports with
  | nil => exact (List.map_id' ports).symm
  | cons x xs ih =>
    obtain ⟨hx, hxs⟩ := List.nodup_cons.mp hxs
    obtain ⟨hmemx, hmem⟩ := List.forall_mem_cons.mp hmem
    have hone := declarePort_eq (bodyPort c t x) x.1 hnames (by rwa [name_bodyPort])
    have hsame : (declarePort (bodyPort c t x) x.1 ports).map Signal.name =
        ports.map Signal.name := by
      rw [hone, List.map_map]
      refine List.map_congr_left fun s _ => ?_
      simp only [Function.comp_apply]
      split <;> rfl
    rw [List.foldl_cons, ih (by rwa [hsame]) hxs (by rwa [hsame]), hone, List.map_map]
    refine List.map_congr_left fun s _ => ?_
    simp only [Function.comp_apply, name_bodyPort]
    by_cases hs : s.name = t.nameText x.2
    · -- what is behind the first declaration has other names
      have hnone : xs.find? (fun y => t.nameText y.2 == t.nameText x.2) = none :=
        List.find?_eq_none.mpr fun y hy h =>
          hx (List.mem_map.mpr ⟨y, hy, by simpa using h⟩)
      have hname : (s.declaredAs (bodyPort c t x) x.1).name = t.nameText x.2 := hs
      rw [if_pos hs, declaredBy, hname, hnone, declaredBy, List.find?_cons_of_pos (by simp [hs])]
    · rw [if_neg hs, declaredBy, declaredBy,
        List.find?_cons_of_neg (by simpa using fun h => hs h.symm)]

end Declare

/-! ### Ports that are declared in two ways -/

/-- A port that is declared in one header, and in another component by a name in the header and a
name in a declaration of the body. -/
structure TwofoldPort where
  header : NodeId
  place : NodeId
  body : NodeId × NodeId

namespace TwofoldPort

/-- **Is the same said at both places?** The header declares a port that is no interface, with a
direction. The names agree, and so do the directions and what is said of the type. -/
structure IsAlike (t t' : NodeTable) (p : TwofoldPort) : Prop where
  isNoInterface : t.childOf p.header .paInterfacePortHeader = 0
  direction : ((t.children p.header).map t.kind).find? NodeKind.isDirection =
    some (bodyDirection (t'.kind p.body.1))
  typeWords : t.typeWords p.header = t'.typeWords p.body.1
  name : t.nameText (t.childOf p.header .slStringConst) = t'.nameText p.body.2
  place : t'.nameText (t'.childOf p.place .slStringConst) = t'.nameText p.body.2

/-- The port that is declared in the header. -/
def inHeader (c : String) (t t' : NodeTable) (p : TwofoldPort) : Signal :=
  declaredSignal c t p.header p.header (t.childOf p.header .slStringConst)
    (bodyDirection (t'.kind p.body.1))

/-- The port that is named in the header and declared in the body. -/
def inBody (c : String) (t : NodeTable) (p : TwofoldPort) : Signal :=
  (namedPort c t p.place).declaredAs (bodyPort c t p.body) p.body.1

end TwofoldPort

/-- Are the ports of a component those that are declared in its header? -/
structure NodeTable.DeclaresInHeader (t : NodeTable) (root : NodeId) (ps : List TwofoldPort) :
    Prop where
  header : t.childrenOf (t.childOf root .paListOfPortDeclarations) .paAnsiPortDeclaration =
    ps.map (·.header)
  named : t.childrenOf (t.childOf root .paListOfPorts) .paPort = []
  body : t.childrenOf root .paPortDeclaration = []

/-- Are the ports of a component those that its header names and its body declares, in whatever
order? Their names differ. -/
structure NodeTable.DeclaresInBody (t : NodeTable) (root : NodeId) (ps : List TwofoldPort) :
    Prop where
  header : t.childrenOf (t.childOf root .paListOfPortDeclarations) .paAnsiPortDeclaration = []
  named : t.childrenOf (t.childOf root .paListOfPorts) .paPort = ps.map (·.place)
  body : (t.bodyNames (t.childrenOf root .paPortDeclaration)).Perm (ps.map (·.body))
  names : (ps.map fun p => t.nameText p.body.2).Nodup

section Twofold

variable {t t' : NodeTable} {root root' : NodeId} {ps : List TwofoldPort}

/-- Each port of the header has its own direction. -/
theorem headerPorts_eq (c : String) (h : ∀ p ∈ ps, p.IsAlike t t') (direction : NodeKind) :
    headerPorts c t direction (ps.map (·.header)) = ps.map (·.inHeader c t t') := by
  induction ps generalizing direction with
  | nil => rfl
  | cons p ps ih =>
    obtain ⟨hp, hps⟩ := List.forall_mem_cons.mp h
    have hport : headerPort c t direction p.header =
        (p.inHeader c t t', bodyDirection (t'.kind p.body.1)) := by
      rw [headerPort, hp.isNoInterface, hp.direction]
      rfl
    rw [List.map_cons, headerPorts, hport, List.map_cons]
    exact congrArg _ (ih hps _)

/-- **The ports of a header with declarations.** -/
theorem portsOf_inHeader (c : String) (h : t.DeclaresInHeader root ps)
    (halike : ∀ p ∈ ps, p.IsAlike t t') : portsOf c t root = ps.map (·.inHeader c t t') := by
  rw [portsOf, h.header, h.named, h.body, headerPorts_eq c halike]
  exact List.append_nil _

/-- **The ports of a header with names**: each with what the declaration of its name says, wherever
that stands. -/
theorem portsOf_inBody (c : String) (h : t'.DeclaresInBody root' ps)
    (halike : ∀ p ∈ ps, p.IsAlike t t') : portsOf c t' root' = ps.map (·.inBody c t') := by
  have hports : ((ps.map fun p => namedPort c t' p.place).map Signal.name) =
      ps.map fun p => t'.nameText p.body.2 := by
    rw [List.map_map]
    exact List.map_congr_left fun p hp => (halike p hp).place
  set xs := t'.bodyNames (t'.childrenOf root' .paPortDeclaration)
  have hxs : (xs.map fun x => t'.nameText x.2).Nodup := by
    rw [(h.body.map _).nodup_iff, List.map_map]
    exact h.names
  have hmem (x : NodeId × NodeId) (hx : x ∈ xs) : t'.nameText x.2 ∈
      (ps.map fun p => namedPort c t' p.place).map Signal.name := by
    rw [hports]
    obtain ⟨p, hp, rfl⟩ := List.mem_map.mp (h.body.mem_iff.mp hx)
    exact List.mem_map_of_mem hp
  have hheader : portsOf c t' root' = (t'.childrenOf root' .paPortDeclaration).foldl
      (declarePorts c t') (ps.map fun p => namedPort c t' p.place) := by
    rw [portsOf, h.header, h.named, List.map_map]
    rfl
  rw [hheader, foldl_declarePorts, foldl_declare (by rw [hports]; exact h.names) hxs hmem,
    List.map_map]
  refine List.map_congr_left fun p hp => ?_
  have hname : (namedPort c t' p.place).name = t'.nameText p.body.2 := (halike p hp).place
  have hfind := find?_eq_of_nodup hxs (h.body.mem_iff.mpr (List.mem_map_of_mem hp))
  simp only [Function.comp_apply, declaredBy, hname, hfind]
  rfl

/-- **Are two ports the same**, of which the second one has lost its dimensions and the name of its
type? -/
structure Signal.IsUnshaped (s s' : Signal) : Prop where
  name : s'.name = s.name
  direction : s'.direction = s.direction
  netType : s'.netType = s.netType
  signed : s'.signed = s.signed
  packed : s'.packed = 0
  unpacked : s'.unpacked = 0
  typeText : s'.typeText = ""

theorem isUnshaped_of_isAlike (c c' : String) {p : TwofoldPort} (h : p.IsAlike t t') :
    (p.inHeader c t t').IsUnshaped (p.inBody c' t') := by
  have htype : (p.inHeader c t t').portType = (bodyPort c' t' p.body).portType := by
    rw [TwofoldPort.inHeader, declaredSignal_says, bodyPort, declaredSignal_says, h.typeWords]
  obtain ⟨_, _, _, _, hh⟩ := declaredSignal_fields c t p.header p.header
    (t.childOf p.header .slStringConst) (bodyDirection (t'.kind p.body.1))
  obtain ⟨_, _, _, _, hb⟩ := declaredSignal_fields c' t' p.body.1
    (t'.childOf p.body.1 .paListOfPortIdentifiers) p.body.2 (bodyDirection (t'.kind p.body.1))
  refine ⟨?_, ?_, ?_, ?_, rfl, rfl, rfl⟩
  · exact h.place.trans (h.name.symm.trans (name_declaredSignal c t _ _ _ _).symm)
  · rw [TwofoldPort.inHeader, hh, TwofoldPort.inBody, bodyPort, hb]
    rfl
  · exact (congrArg PortType.netType htype).symm
  · exact (congrArg PortType.signed htype).symm

end Twofold

/-! ### The ports of the definitions of a design -/

/-- Are the ports of a definition those of the node that declares it? -/
def Definition.ReadsPorts (d : Definition) : Prop :=
  ∀ t root, d.roots = [(t, root)] → d.ports = portsOf d.name t root

/-- Are the ports of all definitions of a design those of the nodes that declare them? -/
def Design.ReadsPorts (design : Design) : Prop :=
  ∀ name d, design.definitions.get? name = some d → d.ReadsPorts

namespace Compiling

variable {ir : Ir} {design : Design}

theorem readsPorts_addDefinition (name : String) (t : NodeTable) (root : NodeId) :
    From ir (addDefinition name t root) fun d _ => d.ReadsPorts := by
  refine (opens_addDefinition name t root).mono ?_
  rintro _ _ ⟨⟨handles, rfl⟩, -⟩ t' root' hroots
  obtain ⟨⟨modports, clocking, hd⟩, -⟩ := Definition.keepsRest_opened name t root ir
  rw [hd] at hroots ⊢
  obtain ⟨rfl, rfl⟩ : t = t' ∧ root = root' := by
    simpa [Definition.bare, Definition.declare] using hroots
  rfl

theorem Design.ReadsPorts.insert {name : String} {d : Definition} (h : design.ReadsPorts)
    (hd : d.ReadsPorts) :
    Design.ReadsPorts { design with definitions := design.definitions.insert name d } := by
  intro other d' hget
  rw [OrderedMap.get?_insert] at hget
  split at hget
  · exact Option.some.inj hget ▸ hd
  · exact h other d' hget

theorem readsPorts_addGates (h : design.ReadsPorts) (gates : List String) :
    From ir (addGates design gates) fun design' _ => design'.ReadsPorts := by
  induction gates generalizing ir design with
  | nil => exact .pure h
  | cons gate gates ih =>
    rw [addGates]
    split
    · exact ih h
    · exact .bind (Q := fun d _ => d.ReadsPorts) (.onIr fun _ _ hroots => by cases hroots)
        fun d ir₁ hd => ih (Design.ReadsPorts.insert h hd)

theorem readsPorts_addElement (h : design.ReadsPorts) (t : NodeTable) (e : DesignElement) :
    From ir (addElement t design e) fun design' _ => design'.ReadsPorts := by
  by_cases hnew : e.kind.isComponent = true → design.definitions.contains (nameText e.name) = true
  · refine (revisits_addElement hnew).mono ?_
    rintro _ _ ⟨rfl, -⟩ name d hget
    -- what is visited again keeps its ports
    obtain ⟨classes, hclasses, -⟩ := (Design.revisited_one t design e).definition name
    rw [hclasses] at hget
    obtain ⟨d, hd, rfl⟩ := Option.map_eq_some_iff.mp hget
    exact h name d hd
  · obtain ⟨hcomponent, hname⟩ := not_forall.mp hnew
    rw [addElement_of_component hcomponent, addComponent, if_neg hname]
    exact (readsPorts_addDefinition _ t _).bind fun d ir₁ hd =>
      (readsPorts_addGates h _).bind fun design₁ ir₂ h₁ => .pure (Design.ReadsPorts.insert h₁ hd)

theorem readsPorts_addElements (h : design.ReadsPorts) (t : NodeTable) (es : List DesignElement) :
    From ir (addElements t es design) fun design' _ => design'.ReadsPorts := by
  induction es generalizing design ir with
  | nil => exact .pure h
  | cons e es ih => exact (readsPorts_addElement h t e).bind fun _ _ h => ih h

theorem readsPorts_addFiles (h : design.ReadsPorts) (files : List SourceFile) :
    From ir (addFiles files design) fun design' _ => design'.ReadsPorts := by
  induction files generalizing design ir with
  | nil => exact .pure h
  | cons f files ih => exact (readsPorts_addElements h _ _).bind fun _ _ h => ih h

end Compiling

/-- **The ports of every definition of a design** are those of the node that declares it. -/
theorem readsPorts_compileDesign {files : List SourceFile} {s s' : Session} {design : Design}
    {ir : Ir} (h : compileDesign files s = .ok (design, ir) s') : design.ReadsPorts := by
  rw [compileDesign] at h
  split at h
  · rename_i design' c hdesign
    obtain ⟨⟨rfl, -⟩, -⟩ : (design' = design ∧ c.ir = ir) ∧ c.session = s' := by simpa using h
    exact Compiling.readsPorts_addFiles (fun name d hget => by cases hget) files _ _ _ rfl hdesign
  · cases h

/-- **Ports in the header and ports in the body.** Take two definitions of designs, whose files are
whatever, where the ports of the one are declared in its header, and those of the other are named in
its header and declared by its items, in whatever order and several at a time or not. If the same is
said of each port at both places, then the definitions have the same ports in the same order: with
the same names, directions, types of net and signs. In the first definition a port has the packed
dimensions and the name of a type if its declaration has them; in the second one no port has any of
these, nor unpacked dimensions. -/
theorem declares_ports_alike (files files' : List SourceFile) (s s' r r' : Session)
    (design design' : Design) (ir ir' : Ir) (h : compileDesign files s = .ok (design, ir) s')
    (h' : compileDesign files' r = .ok (design', ir') r') (name name' : String) (d d' : Definition)
    (hd : design.definitions.get? name = some d) (hd' : design'.definitions.get? name' = some d')
    (t t' : NodeTable) (root root' : NodeId) (hroots : d.roots = [(t, root)])
    (hroots' : d'.roots = [(t', root')]) (ps : List TwofoldPort)
    (hheader : t.DeclaresInHeader root ps) (hbody : t'.DeclaresInBody root' ps)
    (halike : ∀ p ∈ ps, p.IsAlike t t') :
    d.ports.map Signal.portType = ps.map (fun p => .ofWords (t.typeWords p.header)) ∧
      d.ports.map (·.unpacked) = ps.map (fun p => t.childOf p.header .paUnpackedDimension) ∧
      List.Forall₂ Signal.IsUnshaped d.ports d'.ports := by
  rw [readsPorts_compileDesign h name d hd t root hroots, portsOf_inHeader _ hheader halike,
    readsPorts_compileDesign h' name' d' hd' t' root' hroots', portsOf_inBody _ hbody halike,
    List.map_map, List.map_map]
  refine ⟨List.map_congr_left fun p _ => declaredSignal_says _ t _ _ _ _,
    List.map_congr_left fun p _ => ?_, ?_⟩
  · obtain ⟨_, _, _, _, hfields⟩ := declaredSignal_fields d.name t p.header p.header
      (t.childOf p.header .slStringConst) (bodyDirection (t'.kind p.body.1))
    simp only [Function.comp_apply, TwofoldPort.inHeader, hfields]
  · rw [List.forall₂_map_left_iff, List.forall₂_map_right_iff, List.forall₂_same]
    exact fun p hp => isUnshaped_of_isAlike _ _ (halike p hp)

/-! ### The same port in two modules -/

instance (t t' : NodeTable) (p : TwofoldPort) : Decidable (p.IsAlike t t') :=
  decidable_of_iff (_ ∧ _ ∧ _ ∧ _ ∧ _)
    ⟨fun ⟨h₁, h₂, h₃, h₄, h₅⟩ => ⟨h₁, h₂, h₃, h₄, h₅⟩,
      fun ⟨h₁, h₂, h₃, h₄, h₅⟩ => ⟨h₁, h₂, h₃, h₄, h₅⟩⟩

instance (t : NodeTable) (root : NodeId) (ps : List TwofoldPort) :
    Decidable (t.DeclaresInHeader root ps) :=
  decidable_of_iff (_ ∧ _ ∧ _) ⟨fun ⟨h₁, h₂, h₃⟩ => ⟨h₁, h₂, h₃⟩, fun ⟨h₁, h₂, h₃⟩ => ⟨h₁, h₂, h₃⟩⟩

instance (t : NodeTable) (root : NodeId) (ps : List TwofoldPort) :
    Decidable (t.DeclaresInBody root ps) :=
  decidable_of_iff (_ ∧ _ ∧ _ ∧ _)
    ⟨fun ⟨h₁, h₂, h₃, h₄⟩ => ⟨h₁, h₂, h₃, h₄⟩, fun ⟨h₁, h₂, h₃, h₄⟩ => ⟨h₁, h₂, h₃, h₄⟩⟩

/-- Modules with the same port, declared in the header of the first one and in the body of the
second one. -/
def twinModules : String :=
  "module m(input [3:0] a); endmodule\nmodule n(a); input [3:0] a; endmodule\n"

/-- The port of `twinModules`. -/
def twinPort : TwofoldPort := ⟨7, 24, 27, 40⟩

/-- Is the port of `twinModules` declared alike in the definitions of a design, and is it packed in
the first one only? -/
def declaresTwins (design : Design) : Bool :=
  match design.definitions.get? "work@m", design.definitions.get? "work@n" with
  | some d, some d' =>
    match d.roots, d'.roots with
    | [(t, root)], [(t', root')] =>
      decide (t.DeclaresInHeader root [twinPort] ∧ t'.DeclaresInBody root' [twinPort] ∧
        twinPort.IsAlike t t' ∧ d.ports.map (·.packed) = [9] ∧ d'.ports.map (·.packed) = [0])
    | _, _ => false
  | _, _ => false

theorem exists_twins : ∃ f s design ir s' d d' t t' root root',
    SourceFile.ofText "m.sv" twinModules bareSession = .ok f s ∧
      compileDesign [f] s = .ok (design, ir) s' ∧
      design.definitions.get? "work@m" = some d ∧ design.definitions.get? "work@n" = some d' ∧
      d.roots = [(t, root)] ∧ d'.roots = [(t', root')] ∧ t.DeclaresInHeader root [twinPort] ∧
      t'.DeclaresInBody root' [twinPort] ∧ twinPort.IsAlike t t' ∧
      d.ports.map (·.packed) = [9] ∧ d'.ports.map (·.packed) = [0] := by
  have h : (SourceFile.ofText "m.sv" twinModules).endsIn
      (fun f => (compileDesign [f]).endsIn fun r _ => declaresTwins r.1) bareSession = true := by
    rw [Step.endsIn, SourceFile.ofText_of_plain ⟨by decide +kernel, by decide +kernel⟩]
    decide +kernel
  obtain ⟨f, s, hf, h⟩ := Step.exists_of_endsIn h
  obtain ⟨⟨design, ir⟩, s', hd, h⟩ := Step.exists_of_endsIn h
  rw [declaresTwins] at h
  split at h
  · rename_i d d' hget hget'
    split at h
    · rename_i t root t' root' hroots hroots'
      exact ⟨f, s, design, ir, s', d, d', t, t', root, root', hf, hd, hget, hget', hroots, hroots',
        of_decide_eq_true h⟩
    · cases h
  · cases h

theorem declares_ports_alike_twinModules : ∃ f s design ir s' d d' t t' root root',
    SourceFile.ofText "m.sv" twinModules bareSession = .ok f s ∧
      compileDesign [f] s = .ok (design, ir) s' ∧
      design.definitions.get? "work@m" = some d ∧ design.definitions.get? "work@n" = some d' ∧
      d.roots = [(t, root)] ∧ d'.roots = [(t', root')] ∧ t.DeclaresInHeader root [twinPort] ∧
      t'.DeclaresInBody root' [twinPort] ∧ (∀ p ∈ [twinPort], p.IsAlike t t') ∧
      d.ports.map Signal.portType = [.ofWords (t.typeWords twinPort.header)] ∧
      List.Forall₂ Signal.IsUnshaped d.ports d'.ports := by
  obtain ⟨f, s, design, ir, s', d, d', t, t', root, root', hf, hd, hget, hget', hroots, hroots',
    hheader, hbody, halike, -⟩ := exists_twins
  have halike : ∀ p ∈ [twinPort], p.IsAlike t t' := List.forall_mem_singleton.mpr halike
  obtain ⟨htypes, -, hports⟩ := declares_ports_alike [f] [f] s s' s s' design design ir ir hd hd
    "work@m" "work@n" d d' hget hget' t t' root root' hroots hroots' [twinPort] hheader hbody halike
  exact ⟨f, s, design, ir, s', d, d', t, t', root, root', hf, hd, hget, hget', hroots, hroots',
    hheader, hbody, halike, htypes, hports⟩

/-- The packed dimension of the port is there in the first module and lost in the second one. -/
theorem loses_dimension_twinModules : ∃ f s design ir s' d d',
    SourceFile.ofText "m.sv" twinModules bareSession = .ok f s ∧
      compileDesign [f] s = .ok (design, ir) s' ∧
      design.definitions.get? "work@m" = some d ∧ design.definitions.get? "work@n" = some d' ∧
      d.ports.map (·.packed != 0) = [true] ∧ d'.ports.map (·.packed != 0) = [false] := by
  obtain ⟨f, s, design, ir, s', d, d', -, -, -, -, hf, hd, hget, hget', -, -, -, -, -, hpacked,
    hpacked'⟩ := exists_twins
  refine ⟨f, s, design, ir, s', d, d', hf, hd, hget, hget', ?_, ?_⟩
  · simpa using congrArg (List.map (· != 0)) hpacked
  · simpa using congrArg (List.map (· != 0)) hpacked'

end Verilog
