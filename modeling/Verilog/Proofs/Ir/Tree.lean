import Verilog.Proofs.Ir.Added

/-!
# Designs read back as trees

What an object of a design holds can be read back as a tree (`Ir.IsTree`): objects without numbers,
each with what stands in its roles. A design determines the tree of an object (`Ir.IsTree.unique`).

A design goes on growing after an object has been made, but what is added or given later concerns
older objects or newer ones. So the three forms in which a design grows are taken up again with the
trees of what they add, give and fill in, read back in whatever design retains what was new.
-/

namespace Verilog

/-- An object of a design with what it holds. -/
inductive DesignTree where
  /-- What the object says of itself, and what stands in its roles. -/
  | node (label : DesignObject) (parts : List (PartRole × DesignTree))
      (lists : List (ListRole × List DesignTree))

namespace DesignObject

/-- What an object says of itself, its parent and what it holds left aside. -/
def label (o : DesignObject) : DesignObject := { o with parent := none, parts := [], lists := [] }

/-- An object that is given parts and lists, one after the other. -/
def gain (o : DesignObject) (parts : List (PartRole × ObjectId))
    (lists : List (ListRole × ListId)) :
    DesignObject :=
  { o with
    parts := parts.foldl (fun es e => setRole e.1 e.2 es) o.parts
    lists := lists.foldl (fun es e => setRole e.1 e.2 es) o.lists }

end DesignObject

namespace Ir

variable {ir ir₁ ir₂ later : Ir} {p c : ObjectId} {l : ListId} {ids ids' : List ObjectId}

/-! ### Reading back -/

mutual

/-- **Is an object below a parent read back as a tree?** -/
inductive IsTree (ir : Ir) : ObjectId → DesignTree → ObjectId → Prop
  | node {p id : ObjectId} {o : DesignObject} {parts : List (PartRole × DesignTree)}
      {lists : List (ListRole × List DesignTree)} (object : ir.object? id = some o)
      (parent : o.parent = some p) (hparts : ArePartTrees ir id parts o.parts)
      (hlists : AreListTrees ir id lists o.lists) : IsTree ir p (.node o.label parts lists) id

/-- Are objects below a parent read back as trees? -/
inductive AreTrees (ir : Ir) : ObjectId → List DesignTree → List ObjectId → Prop
  | nil {p : ObjectId} : AreTrees ir p [] []
  | cons {p c : ObjectId} {t : DesignTree} {ts : List DesignTree} {cs : List ObjectId}
      (head : IsTree ir p t c) (tail : AreTrees ir p ts cs) : AreTrees ir p (t :: ts) (c :: cs)

/-- Are the parts of an object read back as trees in the same roles? -/
inductive ArePartTrees (ir : Ir) :
    ObjectId → List (PartRole × DesignTree) → List (PartRole × ObjectId) → Prop
  | nil {p : ObjectId} : ArePartTrees ir p [] []
  | cons {p c : ObjectId} {role : PartRole} {t : DesignTree} {ts : List (PartRole × DesignTree)}
      {cs : List (PartRole × ObjectId)} (head : IsTree ir p t c) (tail : ArePartTrees ir p ts cs) :
      ArePartTrees ir p ((role, t) :: ts) ((role, c) :: cs)

/-- Are the members of the lists of an object read back as trees in the same roles? -/
inductive AreListTrees (ir : Ir) :
    ObjectId → List (ListRole × List DesignTree) → List (ListRole × ListId) → Prop
  | nil {p : ObjectId} : AreListTrees ir p [] []
  | cons {p : ObjectId} {l : ListId} {role : ListRole} {ts : List DesignTree}
      {more : List (ListRole × List DesignTree)} {ls : List (ListRole × ListId)}
      (head : AreTrees ir p ts (ir.members l)) (tail : AreListTrees ir p more ls) :
      AreListTrees ir p ((role, ts) :: more) ((role, l) :: ls)

end

mutual

/-- **An object is read back as one tree.** -/
theorem IsTree.unique {p c : ObjectId} {t u : DesignTree} :
    ir.IsTree p t c → ir.IsTree p u c → t = u
  | .node object _ hparts hlists, .node object' _ hparts' hlists' => by
    have ho := Option.some.inj (object'.symm.trans object)
    rw [ho] at hparts' hlists' ⊢
    rw [hparts.unique hparts', hlists.unique hlists']
  termination_by structural h => h

theorem AreTrees.unique {p : ObjectId} {ids : List ObjectId} {ts us : List DesignTree} :
    ir.AreTrees p ts ids → ir.AreTrees p us ids → ts = us
  | .nil, .nil => rfl
  | .cons head tail, .cons head' tail' => by rw [head.unique head', tail.unique tail']
  termination_by structural h => h

theorem ArePartTrees.unique {p : ObjectId} {ts us : List (PartRole × DesignTree)}
    {cs : List (PartRole × ObjectId)} : ir.ArePartTrees p ts cs → ir.ArePartTrees p us cs → ts = us
  | .nil, .nil => rfl
  | .cons head tail, .cons head' tail' => by rw [head.unique head', tail.unique tail']
  termination_by structural h => h

theorem AreListTrees.unique {p : ObjectId} {ts us : List (ListRole × List DesignTree)}
    {ls : List (ListRole × ListId)} : ir.AreListTrees p ts ls → ir.AreListTrees p us ls → ts = us
  | .nil, .nil => rfl
  | .cons head tail, .cons head' tail' => by rw [head.unique head', tail.unique tail']
  termination_by structural h => h

end

theorem AreTrees.append {ts us : List DesignTree} (h : ir.AreTrees p ts ids)
    (h' : ir.AreTrees p us ids') : ir.AreTrees p (ts ++ us) (ids ++ ids') := by
  induction ts generalizing ids with
  | nil =>
    cases h
    exact h'
  | cons t ts ih =>
    cases h with
    | cons head tail => exact .cons head (ih tail)

theorem ArePartTrees.append {ts us : List (PartRole × DesignTree)}
    {cs ds : List (PartRole × ObjectId)} (h : ir.ArePartTrees p ts cs)
    (h' : ir.ArePartTrees p us ds) : ir.ArePartTrees p (ts ++ us) (cs ++ ds) := by
  induction ts generalizing cs with
  | nil =>
    cases h
    exact h'
  | cons t ts ih =>
    cases h with
    | cons head tail => exact .cons head (ih tail)

theorem AreListTrees.append {ts us : List (ListRole × List DesignTree)}
    {ls ks : List (ListRole × ListId)} (h : ir.AreListTrees p ts ls)
    (h' : ir.AreListTrees p us ks) : ir.AreListTrees p (ts ++ us) (ls ++ ks) := by
  induction ts generalizing ls with
  | nil =>
    cases h
    exact h'
  | cons t ts ih =>
    cases h with
    | cons head tail => exact .cons head (ih tail)

theorem ArePartTrees.roles {ts : List (PartRole × DesignTree)} {cs : List (PartRole × ObjectId)}
    (h : ir.ArePartTrees p ts cs) : cs.map (·.1) = ts.map (·.1) := by
  induction ts generalizing cs with
  | nil =>
    cases h
    rfl
  | cons t ts ih =>
    cases h with
    | cons head tail => rw [List.map_cons, List.map_cons, ih tail]

theorem AreListTrees.roles {ts : List (ListRole × List DesignTree)}
    {ls : List (ListRole × ListId)} (h : ir.AreListTrees p ts ls) :
    ls.map (·.1) = ts.map (·.1) := by
  induction ts generalizing ls with
  | nil =>
    cases h
    rfl
  | cons t ts ih =>
    cases h with
    | cons head tail => rw [List.map_cons, List.map_cons, ih tail]

end Ir

/-! ### Roles -/

theorem setRole_of_not_mem {ρ : Type} [DecidableEq ρ] {role : ρ} {es : List (ρ × Nat)}
    (h : role ∉ es.map (·.1)) (n : Nat) : setRole role n es = es ++ [(role, n)] := by
  induction es with
  | nil => rfl
  | cons e es ih =>
    rw [List.map_cons, List.mem_cons, not_or] at h
    rw [setRole, if_neg fun he => h.1 he.symm, ih h.2, List.cons_append]

/-- What is put in different roles stands there in its order. -/
theorem foldl_setRole {ρ : Type} [DecidableEq ρ] {es fs : List (ρ × Nat)}
    (h : ((fs ++ es).map (·.1)).Nodup) :
    es.foldl (fun es e => setRole e.1 e.2 es) fs = fs ++ es := by
  induction es generalizing fs with
  | nil => simp
  | cons e es ih =>
    have hnew : e.1 ∉ fs.map (·.1) := fun hmem => by
      rw [List.map_append, List.map_cons, List.nodup_append] at h
      exact h.2.2 _ hmem _ List.mem_cons_self rfl
    rw [List.foldl_cons, setRole_of_not_mem hnew, ih (by simpa using h), List.append_assoc,
      List.singleton_append]

namespace DesignObject

variable {o : DesignObject} {parts : List (PartRole × ObjectId)}
  {lists : List (ListRole × ListId)}

@[simp] theorem label_gain : (o.gain parts lists).label = o.label := rfl

@[simp] theorem parent_gain : (o.gain parts lists).parent = o.parent := rfl

theorem gain_gain (parts' : List (PartRole × ObjectId)) (lists' : List (ListRole × ListId)) :
    (o.gain parts lists).gain parts' lists' = o.gain (parts ++ parts') (lists ++ lists') := by
  simp only [gain, List.foldl_append]

end DesignObject

namespace Ir

variable {ir ir₁ ir₂ later : Ir} {p c : ObjectId} {l : ListId} {ids ids' : List ObjectId}

/-! ### The three forms of programs, with trees -/

/-- Objects are added below an object, and are read back as trees. -/
structure AddsTrees (p : ObjectId) (ir : Ir) (ids : List ObjectId) (trees : List DesignTree)
    (ir' : Ir) : Prop where
  adds : AddsBelow p ir ids ir'
  trees : ∀ later, Retains ir ir' later → later.AreTrees p trees ids

/-- An object is given parts and lists, and these are read back as trees. -/
structure GivesTrees (p : ObjectId) (ir : Ir) (parts : List (PartRole × DesignTree))
    (lists : List (ListRole × List DesignTree)) (ir' : Ir) : Prop where
  furnishes : Furnishes p ir ir'
  trees : ∃ ps ls, ir'.object? p = (ir.object? p).map (·.gain ps ls) ∧
    ∀ later, Retains ir ir' later → later.ArePartTrees p parts ps ∧ later.AreListTrees p lists ls

/-- A list is given members, and these are read back as trees. -/
structure FillsTrees (p : ObjectId) (l : ListId) (ir : Ir) (trees : List DesignTree) (ir' : Ir) :
    Prop where
  fills : Fills p l ir ir'
  trees : ∃ ids, ir'.members l = ir.members l ++ ids ∧
    ∀ later, Retains ir ir' later → later.AreTrees p trees ids

variable {parts parts' : List (PartRole × DesignTree)}
  {lists lists' : List (ListRole × List DesignTree)} {trees trees' : List DesignTree}
  {tree : DesignTree}

theorem AddsTrees.nil (ir : Ir) (p : ObjectId) : AddsTrees p ir [] [] ir :=
  ⟨.nil ir p, fun _ _ => .nil⟩

theorem GivesTrees.refl (p : ObjectId) (ir : Ir) : GivesTrees p ir [] [] ir :=
  ⟨.refl p ir, [], [], by cases ir.object? p <;> rfl, fun _ _ => ⟨.nil, .nil⟩⟩

theorem FillsTrees.refl (p : ObjectId) (l : ListId) (ir : Ir) : FillsTrees p l ir [] ir :=
  ⟨.refl p l ir, [], by simp, fun _ _ => .nil⟩

theorem GivesTrees.trans (h : GivesTrees p ir parts lists ir₁)
    (h' : GivesTrees p ir₁ parts' lists' ir₂) (hp : p < ir.size) :
    GivesTrees p ir (parts ++ parts') (lists ++ lists') ir₂ := by
  obtain ⟨ps, ls, hobject, htrees⟩ := h.trees
  obtain ⟨ps', ls', hobject', htrees'⟩ := h'.trees
  refine ⟨h.furnishes.trans h'.furnishes, ps ++ ps', ls ++ ls', ?_, fun later hlater => ?_⟩
  · rw [hobject', hobject, Option.map_map]
    exact Option.map_congr fun o _ => DesignObject.gain_gain ps' ls'
  · obtain ⟨hparts, hlists⟩ := htrees later
      (hlater.earlier h'.furnishes.grows (fun _ he => he ▸ hp) fun _ hn => hn.elim)
    obtain ⟨hparts', hlists'⟩ := htrees' later
      (hlater.since h.furnishes.grows.size_le h.furnishes.grows.lists_le)
    exact ⟨hparts.append hparts', hlists.append hlists'⟩

theorem FillsTrees.trans (h : FillsTrees p l ir trees ir₁) (h' : FillsTrees p l ir₁ trees' ir₂)
    (hp : p < ir.size) (hl : l < ir.lists.size) : FillsTrees p l ir (trees ++ trees') ir₂ := by
  obtain ⟨ids, hmembers, htrees⟩ := h.trees
  obtain ⟨ids', hmembers', htrees'⟩ := h'.trees
  refine ⟨h.fills.trans h'.fills hp, ids ++ ids', ?_, fun later hlater => ?_⟩
  · rw [hmembers', hmembers, List.append_assoc]
  · exact (htrees later (hlater.earlier h'.fills.grows (fun _ hn => hn.elim) fun _ he =>
      he ▸ hl)).append
      (htrees' later (hlater.since h.fills.grows.size_le h.fills.grows.lists_le))

/-! ### How they are put together -/

theorem object?_setPart_self (ir : Ir) (p : ObjectId) (role : PartRole) (c : ObjectId) :
    (ir.setPart p role c).object? p = (ir.object? p).map (·.gain [(role, c)] []) := by
  rw [setPart, object?_modify, if_pos rfl]
  rfl

theorem object?_setList_self (ir : Ir) (p : ObjectId) (role : ListRole) (l : ListId) :
    (ir.setList p role l).object? p = (ir.object? p).map (·.gain [] [(role, l)]) := by
  rw [setList, object?_modify, if_pos rfl]
  rfl

theorem members_pushAll (hl : l < ir.lists.size) (ids : List ObjectId) :
    (ir.pushAll l ids).members l = ir.members l ++ ids := by
  induction ids generalizing ir with
  | nil => simp [pushAll]
  | cons c ids ih =>
    have hsize : (ir.push l c).lists.size = ir.lists.size := by simp [push]
    rw [pushAll, List.foldl_cons]
    refine (ih (hsize ▸ hl)).trans ?_
    rw [members_push, if_pos ⟨rfl, hl⟩, List.append_assoc, List.singleton_append]

/-- A new object is put in a role of the object it was added below. -/
theorem AddsTrees.setPart (h : AddsTrees p ir [c] [tree] ir₁) (hp : p < ir.size)
    (role : PartRole) : GivesTrees p ir [(role, tree)] [] (ir₁.setPart p role c) := by
  refine ⟨h.adds.setPart hp role, [(role, c)], [], ?_, fun later hlater => ⟨?_, .nil⟩⟩
  · rw [object?_setPart_self, h.adds.grows.object p hp (by simp)]
  · have hset : Grows (only p) nothing ir₁ (ir₁.setPart p role c) := .setPart ir₁ p role c
    rcases h.trees later (hlater.earlier hset (fun _ he => he ▸ hp) fun _ hn => hn.elim) with
      _ | ⟨hc, _⟩
    exact .cons hc .nil

/-- New objects become members of a list of the object they were added below. -/
theorem AddsTrees.pushAll (h : AddsTrees p ir ids trees ir₁) (hp : p < ir.size)
    (hl : l < ir.lists.size) : FillsTrees p l ir trees (ir₁.pushAll l ids) := by
  refine ⟨h.adds.pushAll hp l, ids, ?_, fun later hlater => h.trees later ?_⟩
  · rw [members_pushAll (Nat.lt_of_lt_of_le hl h.adds.grows.lists_le),
      h.adds.grows.members l hl (by simp)]
  · have hpush : Grows nothing (only l) ir₁ (ir₁.pushAll l ids) := .pushAll ir₁ l ids
    exact hlater.earlier hpush (fun _ hn => hn.elim) fun _ he => he ▸ hl

theorem AddsTrees.push (h : AddsTrees p ir [c] [tree] ir₁) (hp : p < ir.size)
    (hl : l < ir.lists.size) : FillsTrees p l ir [tree] (ir₁.push l c) := h.pushAll hp hl

/-- Are no two of the roles of a tree the same? -/
def DistinctRoles (parts : List (PartRole × DesignTree))
    (lists : List (ListRole × List DesignTree)) : Prop :=
  (parts.map (·.1)).Nodup ∧ (lists.map (·.1)).Nodup

/-- **An object with all it was given** is read back as a tree. -/
theorem GivesTrees.isTree {o : DesignObject} (h : GivesTrees p ir₁ parts lists ir₂)
    (ho : ir₁.object? p = some o) (hp : ir.size ≤ p) (hl : ir.lists.size ≤ ir₁.lists.size)
    (hparts : o.parts = []) (hlists : o.lists = []) {q : ObjectId} (hparent : o.parent = some q)
    (hroles : DistinctRoles parts lists) (hlater : Retains ir ir₂ later) :
    later.IsTree q (.node o.label parts lists) p := by
  obtain ⟨ps, ls, hobject, htrees⟩ := h.trees
  have hin : p < ir₁.size := (Array.getElem?_eq_some_iff.mp ho).1
  obtain ⟨hps, hls⟩ := htrees later (hlater.since (Nat.le_trans hp (Nat.le_of_lt hin)) hl)
  have hgain : later.object? p = some (o.gain ps ls) := by
    rw [hlater.object p hp (Nat.lt_of_lt_of_le hin h.furnishes.grows.size_le), hobject, ho]
    rfl
  have hps' : (o.gain ps ls).parts = ps := by
    rw [DesignObject.gain, hparts]
    exact foldl_setRole (by rw [List.nil_append, hps.roles]; exact hroles.1)
  have hls' : (o.gain ps ls).lists = ls := by
    rw [DesignObject.gain, hlists]
    exact foldl_setRole (by rw [List.nil_append, hls.roles]; exact hroles.2)
  have hlabel : (o.gain ps ls).label = o.label := DesignObject.label_gain
  rw [← hlabel]
  exact .node hgain hparent (hps'.symm ▸ hps) (hls'.symm ▸ hls)

/-- An object is added and given what it is to hold. -/
theorem GivesTrees.addsTrees {o : DesignObject}
    (h : GivesTrees ir.size (ir.add o).2 parts lists ir₁)
    (hp : p < ir.size) (hparent : o.parent = some p) (hrange : o.range.isSome)
    (hparts : o.parts = []) (hlists : o.lists = []) (hroles : DistinctRoles parts lists) :
    AddsTrees p ir [ir.size] [.node o.label parts lists] ir₁ := by
  refine ⟨h.furnishes.addsBelow hp hparent hrange hparts hlists, fun later hlater => ?_⟩
  have ho : (ir.add o).2.object? ir.size = some o := (object?_add ir o _).trans (if_pos rfl)
  exact .cons (h.isTree ho (Nat.le_refl _) (Nat.le_refl _) hparts hlists hparent hroles hlater) .nil

/-- An object that holds nothing. -/
theorem addsTrees_add {o : DesignObject} (hp : p < ir.size) (hparent : o.parent = some p)
    (hrange : o.range.isSome) (hparts : o.parts = []) (hlists : o.lists = []) :
    AddsTrees p ir [ir.size] [.node o.label [] []] (ir.add o).2 :=
  (GivesTrees.refl ir.size (ir.add o).2).addsTrees hp hparent hrange hparts hlists
    ⟨.nil, .nil⟩

/-- An object is added and put in a role, and then given what it is to hold. -/
theorem GivesTrees.inRole {o : DesignObject} {role : PartRole}
    (h : GivesTrees ir.size ((ir.add o).2.setPart p role ir.size) parts lists ir₁)
    (hp : p < ir.size) (hparent : o.parent = some p) (hrange : o.range.isSome)
    (hparts : o.parts = []) (hlists : o.lists = []) (hroles : DistinctRoles parts lists) :
    GivesTrees p ir [(role, .node o.label parts lists)] [] ir₁ := by
  have hadd := addsTrees_add (o := o) hp hparent hrange hparts hlists
  have hset := hadd.setPart hp role
  have hne : p ≠ ir.size := Nat.ne_of_lt hp
  have ho : ((ir.add o).2.setPart p role ir.size).object? ir.size = some o :=
    (object?_setPart_of_ne _ hne.symm role ir.size).trans ((object?_add ir o _).trans (if_pos rfl))
  refine ⟨hset.furnishes.transNew h.furnishes (Nat.le_refl _), [(role, ir.size)], [], ?_,
    fun later hlater => ⟨.cons ?_ .nil, .nil⟩⟩
  · rw [h.furnishes.grows.object p (Nat.lt_of_lt_of_le hp hset.furnishes.grows.size_le) hne,
      object?_setPart_self, hadd.adds.grows.object p hp (by simp)]
  · exact h.isTree ho (Nat.le_refl _) (Nat.le_refl _) hparts hlists hparent hroles hlater

/-- An object is added and made a member of a list, and then given what it is to hold. -/
theorem GivesTrees.inList {o : DesignObject}
    (h : GivesTrees ir.size ((ir.add o).2.push l ir.size) parts lists ir₁)
    (hp : p < ir.size) (hl : l < ir.lists.size) (hparent : o.parent = some p)
    (hrange : o.range.isSome) (hparts : o.parts = []) (hlists : o.lists = [])
    (hroles : DistinctRoles parts lists) :
    FillsTrees p l ir [.node o.label parts lists] ir₁ := by
  have hadd := addsTrees_add (o := o) hp hparent hrange hparts hlists
  have hpush := hadd.push hp hl
  have ho : ((ir.add o).2.push l ir.size).object? ir.size = some o :=
    (object?_add ir o _).trans (if_pos rfl)
  refine ⟨hpush.fills.transNew h.furnishes (Nat.le_refl _), [ir.size], ?_,
    fun later hlater => .cons ?_ .nil⟩
  · rw [h.furnishes.grows.members l (Nat.lt_of_lt_of_le hl hpush.fills.grows.lists_le) (by simp),
      members_push, if_pos ⟨rfl, hl⟩, members_add]
  · exact h.isTree ho (Nat.le_refl _) hpush.fills.grows.lists_le hparts hlists hparent hroles hlater

/-- A new list is given members, and then put in a role. -/
theorem FillsTrees.setList (h : FillsTrees p ir.lists.size ir.addList.2 trees ir₁)
    (hp : p < ir.size) (role : ListRole) :
    GivesTrees p ir [] [(role, trees)] (ir₁.setList p role ir.lists.size) := by
  obtain ⟨ids, hmembers, htrees⟩ := h.trees
  have hnil : ir.addList.2.members ir.lists.size = [] := by simp [members, addList]
  have hin : ir.lists.size < ir.addList.2.lists.size := by simp [addList]
  have hset : Grows (only p) nothing ir₁ (ir₁.setList p role ir.lists.size) :=
    .setList ir₁ p role ir.lists.size
  refine ⟨h.fills.setList role, [], [(role, ir.lists.size)], ?_, fun later hlater => ⟨.nil, ?_⟩⟩
  · rw [object?_setList_self, h.fills.grows.object p hp (by simp)]
    rfl
  · refine .cons ?_ .nil
    rw [hlater.members _ (Nat.le_refl _) (Nat.lt_of_lt_of_le hin h.fills.grows.lists_le)]
    change later.AreTrees p trees (ir₁.members ir.lists.size)
    rw [hmembers, hnil, List.nil_append]
    have hsince : Retains ir.addList.2 (ir₁.setList p role ir.lists.size) later :=
      hlater.since (Nat.le_refl _) (Nat.le_of_lt hin)
    exact htrees later (hsince.earlier hset (fun _ he => he ▸ hp) fun _ hn => hn.elim)

/-- A new list is put in a role, and then given members. -/
theorem FillsTrees.ofSetList (role : ListRole)
    (h : FillsTrees p ir.lists.size (ir.addList.2.setList p role ir.lists.size) trees ir₁)
    (hp : p < ir.size) : GivesTrees p ir [] [(role, trees)] ir₁ := by
  obtain ⟨ids, hmembers, htrees⟩ := h.trees
  have hnil : (ir.addList.2.setList p role ir.lists.size).members ir.lists.size = [] := by
    simp [members, addList, Ir.setList, modify]
  have hin : ir.lists.size < (ir.addList.2.setList p role ir.lists.size).lists.size := by
    simp [addList, Ir.setList, modify]
  refine ⟨h.fills.ofSetList role hp, [], [(role, ir.lists.size)], ?_,
    fun later hlater => ⟨.nil, .cons ?_ .nil⟩⟩
  · rw [h.fills.grows.object p (by rwa [size_setList, size_addList]) (by simp),
      object?_setList_self]
    rfl
  · rw [hlater.members _ (Nat.le_refl _) (Nat.lt_of_lt_of_le hin h.fills.grows.lists_le), hmembers,
      hnil, List.nil_append]
    exact htrees later (hlater.since (by simp) (Nat.le_of_lt hin))

/-- The members of a new list become members of another list of the same object. -/
theorem FillsTrees.splice (h : FillsTrees p ir.lists.size ir.addList.2 trees ir₁)
    (hp : p < ir.size) (hl : l < ir.lists.size) :
    FillsTrees p l ir trees (ir₁.pushAll l (ir₁.members ir.lists.size)) := by
  obtain ⟨ids, hmembers, htrees⟩ := h.trees
  have hnil : ir.addList.2.members ir.lists.size = [] := by simp [members, addList]
  have hin : ir.lists.size < ir.addList.2.lists.size := by simp [addList]
  rw [hnil, List.nil_append] at hmembers
  refine ⟨h.fills.splice hp l, ids, ?_, fun later hlater => ?_⟩
  · rw [members_pushAll (Nat.lt_of_lt_of_le (Nat.lt_trans hl hin) h.fills.grows.lists_le), hmembers,
      h.fills.grows.members l (Nat.lt_trans hl hin) (Nat.ne_of_lt hl), members_addList]
  · have hpush : Grows nothing (only l) ir₁ (ir₁.pushAll l (ir₁.members ir.lists.size)) :=
      .pushAll ir₁ l _
    have hsince : Retains ir.addList.2 (ir₁.pushAll l (ir₁.members ir.lists.size)) later :=
      hlater.since (Nat.le_refl _) (Nat.le_of_lt hin)
    exact htrees later (hsince.earlier hpush (fun _ hn => hn.elim)
      fun _ he => he ▸ Nat.lt_trans hl hin)

/-- New objects become the members of a new list, which is put in a role. -/
theorem AddsTrees.setListOf (h : AddsTrees p ir ids trees ir₁) (hp : p < ir.size)
    (role : ListRole) : GivesTrees p ir [] [(role, trees)]
      ((ir₁.addListOf ids).2.setList p role (ir₁.addListOf ids).1) := by
  have hnil : ir₁.addList.2.members ir₁.lists.size = [] := by simp [members, addList]
  have hin : ir₁.lists.size < ir₁.addList.2.lists.size := by simp [addList]
  have hmembers : (ir₁.addListOf ids).2.members ir₁.lists.size = ids := by
    refine (members_pushAll hin ids).trans ?_
    rw [hnil, List.nil_append]
  have hpush : Grows nothing (only ir₁.lists.size) ir₁.addList.2 (ir₁.addListOf ids).2 :=
    .pushAll _ ir₁.lists.size ids
  have hgrows : Grows nothing nothing ir₁ (ir₁.addListOf ids).2 :=
    (Grows.addList ir₁).trans hpush (fun _ _ => id) fun l hl he => Nat.ne_of_lt hl he
  have hlists := Nat.lt_of_lt_of_le hin hpush.lists_le
  have hset : Grows (only p) nothing ir₁
      ((ir₁.addListOf ids).2.setList p role ir₁.lists.size) :=
    (hgrows.mono (by simp) (by simp)).trans (.setList _ p role _) (fun _ _ => id) fun _ _ => id
  refine ⟨h.adds.setListOf hp role, [], [(role, ir₁.lists.size)], ?_,
    fun later hlater => ⟨.nil, .cons ?_ .nil⟩⟩
  · have hp₁ := Nat.lt_of_lt_of_le hp h.adds.grows.size_le
    refine (object?_setList_self _ p role ir₁.lists.size).trans ?_
    rw [hgrows.object p hp₁ (by simp), h.adds.grows.object p hp (by simp)]
  · have hlist : later.members ir₁.lists.size = (ir₁.addListOf ids).2.members ir₁.lists.size :=
      hlater.members _ h.adds.grows.lists_le hlists
    rw [hlist, hmembers]
    exact h.trees later (hlater.earlier hset (fun _ he => he ▸ hp) fun _ hn => hn.elim)

end Ir

end Verilog
