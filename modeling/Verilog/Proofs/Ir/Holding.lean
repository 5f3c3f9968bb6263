import Mathlib.Data.List.Flatten
import Mathlib.Data.List.Perm.Subperm
import Verilog.Ir.Basic

/-!
# What the objects of a design hold

An object holds its parts and the members of its lists. In a design each object is held at most
once, and by its parent. While a design is being made a list may have members before it is put into
the object that is to hold it, so what objects hold is counted with the lists that they are promised
(`Ir.held`): giving an object a list that it is promised changes nothing of what it holds.

Since an object has one parent, two objects never hold the same one; that no object holds another
one twice is all that is to be shown of each step, and it holds because a step only ever gives an
object what was made after all that the object holds already.
-/

namespace Verilog

/-! ### Roles -/

/-- Putting something in a role keeps what is in the other roles. -/
theorem setRole_subperm {ρ : Type} [DecidableEq ρ] (role : ρ) (n : Nat) (es : List (ρ × Nat)) :
    ((setRole role n es).map (·.2)).Subperm (n :: es.map (·.2)) := by
  induction es with
  | nil => exact .refl _
  | cons e es ih =>
    rw [setRole]
    split
    · exact (List.subperm_cons n).mpr (List.sublist_cons_self _ _).subperm
    · refine ((List.subperm_cons e.2).mpr ih).trans ?_
      exact (List.Perm.swap n e.2 _).subperm

theorem mem_setRole {ρ : Type} [DecidableEq ρ] (role : ρ) (n : Nat) (es : List (ρ × Nat)) :
    n ∈ (setRole role n es).map (·.2) := by
  induction es with
  | nil => simp [setRole]
  | cons e es ih =>
    rw [setRole]
    split
    · simp
    · exact List.mem_cons_of_mem _ ih

namespace Ir

/-- Lists that objects are to be given. -/
abbrev Promises := List (ObjectId × ListId)

/-- The parts of an object. -/
def partIds (ir : Ir) (p : ObjectId) : List ObjectId :=
  ((ir.object? p).map fun o => o.parts.map (·.2)).getD []

/-- The lists of an object. -/
def listIds (ir : Ir) (p : ObjectId) : List ListId :=
  ((ir.object? p).map fun o => o.lists.map (·.2)).getD []

/-- The lists of an object and those that it is promised. -/
def holds (promised : Promises) (ir : Ir) (p : ObjectId) : List ListId :=
  ir.listIds p ++ (promised.filter (·.1 == p)).map (·.2)

/-- What an object holds. -/
def held (promised : Promises) (ir : Ir) (p : ObjectId) : List ObjectId :=
  ir.partIds p ++ (ir.holds promised p).flatMap ir.members

/-- The parent of an object. -/
def parent? (ir : Ir) (c : ObjectId) : Option ObjectId := (ir.object? c).bind (·.parent)

/-- The place of an object. -/
def range? (ir : Ir) (c : ObjectId) : Option SourceRange := (ir.object? c).bind (·.range)

/-- **A sound design**: objects come after their parents, lists belong to one object each, and an
object holds nothing twice and nothing but its children. -/
structure Sound (promised : Promises) (ir : Ir) : Prop where
  parent_lt : ∀ c p, ir.parent? c = some p → Nat.lt p c
  lists_lt : ∀ p, ∀ l ∈ ir.holds promised p, Nat.lt l ir.lists.size
  holder : ∀ p q, ∀ l ∈ ir.holds promised p, l ∈ ir.holds promised q → p = q
  lists_nodup : ∀ p, (ir.holds promised p).Nodup
  parent : ∀ p, ∀ c ∈ ir.held promised p, ir.parent? c = some p
  nodup : ∀ p, (ir.held promised p).Nodup
  members_lt : ∀ l, ∀ c ∈ ir.members l, Nat.lt c ir.size

variable {promised : Promises} {ir : Ir} {p c : ObjectId} {l : ListId}

theorem sound_empty : Sound [] {} := by
  refine ⟨?_, ?_, ?_, ?_, ?_, ?_, ?_⟩ <;>
    simp [parent?, object?, holds, listIds, held, partIds, members]

theorem lt_of_parent? (h : ir.parent? c = some p) : c < ir.size := by
  by_contra hc
  rw [parent?, object?, Array.getElem?_eq_none (Nat.le_of_not_lt hc)] at h
  cases h

/-! ### The steps in which a design is made -/

@[simp] theorem object?_add (ir : Ir) (o : DesignObject) (i : ObjectId) :
    (ir.add o).2.object? i = if i = ir.size then some o else ir.object? i := by
  simp only [add, object?, Array.getElem?_push, size]
  rfl

@[simp] theorem members_add (ir : Ir) (o : DesignObject) (l : ListId) :
    (ir.add o).2.members l = ir.members l := rfl

theorem object?_modify (ir : Ir) (p : ObjectId) (f : DesignObject → DesignObject) (i : ObjectId) :
    (ir.modify p f).object? i = if p = i then (ir.object? i).map f else ir.object? i := by
  simp only [modify, object?, Array.getElem?_modify]

@[simp] theorem members_addList (ir : Ir) (l : ListId) : ir.addList.2.members l = ir.members l := by
  simp only [addList, members, Array.getElem?_push]
  split
  · rename_i h
    rw [h]
    simp
  · rfl

theorem members_push (ir : Ir) (l : ListId) (c : ObjectId) (k : ListId) :
    (ir.push l c).members k =
      if l = k ∧ k < ir.lists.size then ir.members k ++ [c] else ir.members k := by
  simp only [push, members, Array.getElem?_modify]
  by_cases hl : l = k
  · by_cases hk : k < ir.lists.size
    · simp [hl, hk]
    · simp [hl, hk]
  · simp [hl]

/-! ### Each step keeps a design sound -/

theorem partIds_congr {ir' : Ir} (h : ir'.object? p = ir.object? p) : ir'.partIds p =
    ir.partIds p := by
  rw [partIds, h, partIds]

theorem listIds_congr {ir' : Ir} (h : ir'.object? p = ir.object? p) : ir'.listIds p =
    ir.listIds p := by
  rw [listIds, h, listIds]

/-- A step after which objects hold no more than before. -/
theorem Sound.of_subperm {promised' : Promises} {ir' : Ir} (h : ir.Sound promised)
    (hsize : ir.size ≤ ir'.size) (hlists : ir.lists.size ≤ ir'.lists.size)
    (hparent : ∀ c, c < ir.size → ir'.parent? c = ir.parent? c)
    (hnew : ∀ c p, ir.size ≤ c → ir'.parent? c = some p → p < c)
    (hholds : ∀ p, (ir'.holds promised' p).Subperm (ir.holds promised p))
    (hheld : ∀ p, (ir'.held promised' p).Subperm (ir.held promised p))
    (hmembers : ∀ l, ir'.members l = ir.members l) : ir'.Sound promised' := by
  have hsub (p) := (hholds p).subset
  have hnodup {α : Type} {xs ys : List α} (hs : xs.Subperm ys) (hn : ys.Nodup) : xs.Nodup := by
    obtain ⟨zs, hz, hzs⟩ := hs
    exact hz.nodup_iff.mp (hn.sublist hzs)
  refine ⟨fun c p hc => ?_, fun p l hl => ?_, fun p q l hp hq =>
    h.holder p q l (hsub p hp) (hsub q hq),
    fun p => hnodup (hholds p) (h.lists_nodup p), fun p c hc => ?_,
    fun p => hnodup (hheld p) (h.nodup p), fun l c hc => ?_⟩
  · by_cases hlt : c < ir.size
    · exact h.parent_lt c p (hparent c hlt ▸ hc)
    · exact hnew c p (Nat.le_of_not_lt hlt) hc
  · exact Nat.lt_of_lt_of_le (h.lists_lt p l (hsub p hl)) hlists
  · have hpar := h.parent p c ((hheld p).subset hc)
    rw [hparent c (lt_of_parent? hpar), hpar]
  · exact Nat.lt_of_lt_of_le (h.members_lt l c (hmembers l ▸ hc)) hsize

/-- A new object holds nothing. -/
theorem Sound.add (h : ir.Sound promised) {o : DesignObject} (hparts : o.parts = [])
    (hlists : o.lists = []) (hp : ∀ p, o.parent = some p → p < ir.size) :
    (ir.add o).2.Sound promised := by
  have hnone : ir.object? ir.size = none := Array.getElem?_eq_none (Nat.le_refl _)
  have hold (i : ObjectId) (hi : i ≠ ir.size) : (ir.add o).2.object? i = ir.object? i := by
    rw [object?_add, if_neg hi]
  have hpartIds (p) : (ir.add o).2.partIds p = ir.partIds p := by
    by_cases hi : p = ir.size
    · rw [partIds, partIds, object?_add, if_pos hi, hi, hnone]
      simp [hparts]
    · exact partIds_congr (hold p hi)
  have hholds (p) : (ir.add o).2.holds promised p = ir.holds promised p := by
    rw [holds, holds]
    congr 1
    by_cases hi : p = ir.size
    · rw [listIds, listIds, object?_add, if_pos hi, hi, hnone]
      simp [hlists]
    · exact listIds_congr (hold p hi)
  refine h.of_subperm (by simp [Ir.add, size]) (Nat.le_refl _) (fun c hc => ?_)
    (fun c p hc hpar => ?_)
    (fun p => hholds p ▸ .refl _) (fun p => ?_) fun l => members_add ir o l
  · rw [parent?, hold c (Nat.ne_of_lt hc), parent?]
  · rw [parent?, object?_add] at hpar
    split at hpar
    · rename_i heq
      exact heq ▸ hp p hpar
    · rw [object?, Array.getElem?_eq_none hc] at hpar
      cases hpar
  · rw [held, held, hpartIds, hholds]
    exact .refl _

theorem holds_promise_perm (promised : Promises) (ir : Ir) (p : ObjectId) (l : ListId)
    (q : ObjectId) : (ir.holds ((p, l) :: promised) q).Perm
      ((if p = q then [l] else []) ++ ir.holds promised q) := by
  rw [holds, holds]
  by_cases hq : p = q
  · simp [hq]
  · simp [hq]

/-- An object that is promised a list holds its members besides. -/
theorem held_promise_perm (promised : Promises) (ir : Ir) (p : ObjectId) (l : ListId) :
    (ir.held ((p, l) :: promised) p).Perm (ir.members l ++ ir.held promised p) := by
  have h := (holds_promise_perm promised ir p l p).flatMap (g := ir.members) fun _ _ => .refl _
  rw [held, held]
  refine (List.Perm.append_left _ h).trans ?_
  simpa using List.perm_append_comm_assoc (ir.partIds p) (ir.members l) _

/-- A new list may be promised to an object. -/
theorem Sound.addList (h : ir.Sound promised) (p : ObjectId) :
    ir.addList.2.Sound ((p, ir.lists.size) :: promised) := by
  have hfresh (q) : ir.lists.size ∉ ir.holds promised q := fun hl =>
    Nat.lt_irrefl _ (h.lists_lt q _ hl)
  have hperm (q) : (ir.addList.2.holds ((p, ir.lists.size) :: promised) q).Perm
      ((if p = q then [ir.lists.size] else []) ++ ir.holds promised q) :=
    holds_promise_perm promised ir.addList.2 p _ q
  have hmem (q l) : l ∈ ir.addList.2.holds ((p, ir.lists.size) :: promised) q ↔
      p = q ∧ l = ir.lists.size ∨ l ∈ ir.holds promised q := by
    rw [(hperm q).mem_iff, List.mem_append]
    by_cases hq : p = q <;> simp [hq]
  have hnone : ir.members ir.lists.size = [] := by simp [members]
  have hheld (q) : (ir.addList.2.held ((p, ir.lists.size) :: promised) q).Perm
    (ir.held promised q) := by
    rw [held, held, funext (members_addList ir)]
    refine List.Perm.append (.refl _) (((hperm q).flatMap fun _ _ => .refl _).trans ?_)
    by_cases hq : p = q <;> simp [hq, hnone]
  refine ⟨h.parent_lt, fun q l hl => ?_, fun q r l hq hr => ?_, fun q => ?_, fun q c hc => ?_,
    fun q => ?_, fun l c hc => ?_⟩
  · have hlt : l ≤ ir.lists.size := by
      rcases (hmem q l).mp hl with ⟨-, rfl⟩ | hl
      · exact Nat.le_refl _
      · exact Nat.le_of_lt (h.lists_lt q l hl)
    simpa [Ir.addList, Nat.lt_succ_iff] using hlt
  · rcases (hmem q l).mp hq with ⟨rfl, rfl⟩ | hq <;> rcases (hmem r _).mp hr with ⟨rfl, he⟩ | hr
    · rfl
    · exact absurd hr (hfresh r)
    · exact absurd (he ▸ hq) (hfresh q)
    · exact h.holder q r l hq hr
  · rw [(hperm q).nodup_iff]
    by_cases hq : p = q
    · simpa [hq, h.lists_nodup q] using hfresh q
    · simpa [hq] using h.lists_nodup q
  · exact h.parent q c ((hheld q).mem_iff.mp hc)
  · exact (hheld q).nodup_iff.mpr (h.nodup q)
  · exact h.members_lt l c (members_addList ir l ▸ hc)

/-- A promise may be forgotten. -/
theorem Sound.forget (h : ir.Sound ((p, l) :: promised)) : ir.Sound promised := by
  have hholds (q) : (ir.holds promised q).Sublist (ir.holds ((p, l) :: promised) q) :=
    List.Sublist.append_left (((List.sublist_cons_self _ _).filter _).map _) _
  exact h.of_subperm (Nat.le_refl _) (Nat.le_refl _) (fun _ _ => rfl) (fun c p _ => h.parent_lt c p)
    (fun q => (hholds q).subperm) (fun q => (((hholds q).flatMap _).append_left _).subperm)
    fun _ => rfl

/-! ### What the steps leave alone -/

theorem parent?_modify {f : DesignObject → DesignObject} (hf : ∀ o, (f o).parent = o.parent)
    (ir : Ir) (p c : ObjectId) : (ir.modify p f).parent? c = ir.parent? c := by
  rw [parent?, parent?, object?_modify]
  split <;> cases ir.object? c <;> simp [hf]

theorem range?_modify {f : DesignObject → DesignObject} (hf : ∀ o, (f o).range = o.range)
    (ir : Ir) (p c : ObjectId) : (ir.modify p f).range? c = ir.range? c := by
  rw [range?, range?, object?_modify]
  split <;> cases ir.object? c <;> simp [hf]

@[simp] theorem parent?_setPart (ir : Ir) (p : ObjectId) (role : PartRole) (b c : ObjectId) :
    (ir.setPart p role b).parent? c = ir.parent? c := by
  apply parent?_modify
  exact fun _ => rfl

@[simp] theorem range?_setPart (ir : Ir) (p : ObjectId) (role : PartRole) (b c : ObjectId) :
    (ir.setPart p role b).range? c = ir.range? c := by
  apply range?_modify
  exact fun _ => rfl

@[simp] theorem parent?_setList (ir : Ir) (p : ObjectId) (role : ListRole) (l : ListId)
    (c : ObjectId) : (ir.setList p role l).parent? c = ir.parent? c := by
  apply parent?_modify
  exact fun _ => rfl

@[simp] theorem range?_setList (ir : Ir) (p : ObjectId) (role : ListRole) (l : ListId)
    (c : ObjectId) : (ir.setList p role l).range? c = ir.range? c := by
  apply range?_modify
  exact fun _ => rfl

@[simp] theorem size_setPart (ir : Ir) (p : ObjectId) (role : PartRole) (b : ObjectId) :
    (ir.setPart p role b).size = ir.size := by
  simp [setPart, modify, size]

@[simp] theorem size_setList (ir : Ir) (p : ObjectId) (role : ListRole) (l : ListId) :
    (ir.setList p role l).size = ir.size := by
  simp [setList, modify, size]

@[simp] theorem size_add (ir : Ir) (o : DesignObject) : (ir.add o).2.size = ir.size + 1 := by
  simp [add, size]

@[simp] theorem size_addList (ir : Ir) : ir.addList.2.size = ir.size := rfl

@[simp] theorem size_push (ir : Ir) (l : ListId) (c : ObjectId) : (ir.push l c).size = ir.size :=
    rfl

theorem object?_setPart_of_ne (ir : Ir) {p q : ObjectId} (hq : q ≠ p) (role : PartRole)
    (b : ObjectId) : (ir.setPart p role b).object? q = ir.object? q := by
  rw [setPart, object?_modify, if_neg hq.symm]

theorem object?_setList_of_ne (ir : Ir) {p q : ObjectId} (hq : q ≠ p) (role : ListRole)
    (l : ListId) : (ir.setList p role l).object? q = ir.object? q := by
  rw [setList, object?_modify, if_neg hq.symm]

@[simp] theorem listIds_setPart (ir : Ir) (p : ObjectId) (role : PartRole) (b q : ObjectId) :
    (ir.setPart p role b).listIds q = ir.listIds q := by
  by_cases hq : q = p
  · rw [listIds, listIds, setPart, object?_modify, if_pos hq.symm, Option.map_map]
    rfl
  · exact listIds_congr (object?_setPart_of_ne ir hq role b)

@[simp] theorem partIds_setList (ir : Ir) (p : ObjectId) (role : ListRole) (l : ListId)
    (q : ObjectId) : (ir.setList p role l).partIds q = ir.partIds q := by
  by_cases hq : q = p
  · rw [partIds, partIds, setList, object?_modify, if_pos hq.symm, Option.map_map]
    rfl
  · exact partIds_congr (object?_setList_of_ne ir hq role l)

/-! ### Objects are given parts and lists -/

/-- **An object is given a list that it was promised.** -/
theorem Sound.setList (h : ir.Sound ((p, l) :: promised)) (role : ListRole) :
    (ir.setList p role l).Sound promised := by
  have hholds (q) : ((ir.setList p role l).holds promised q).Subperm
      (ir.holds ((p, l) :: promised) q) := by
    rw [holds]
    by_cases hq : q = p
    · have hlists : ((ir.setList p role l).listIds q).Subperm (l :: ir.listIds q) := by
        rw [listIds, listIds, Ir.setList, object?_modify, if_pos hq.symm, Option.map_map]
        cases ir.object? q with
        | none => exact (List.nil_sublist _).subperm
        | some o => exact setRole_subperm role l o.lists
      refine ((List.subperm_append_right _).mpr hlists).trans ?_
      simpa [hq, holds] using (holds_promise_perm promised ir p l q).symm.subperm
    · rw [listIds_congr (object?_setList_of_ne ir hq role l)]
      simpa [Ne.symm hq, holds] using (holds_promise_perm promised ir p l q).symm.subperm
  refine h.of_subperm (Nat.le_of_eq (size_setList ir p role l).symm) (Nat.le_refl _)
    (fun c _ => parent?_setList ir p role l c) (fun c q _ hc => h.parent_lt c q (by simpa using hc))
    hholds (fun q => ?_) fun _ => rfl
  rw [held, held, partIds_setList]
  obtain ⟨zs, hz, hzs⟩ := hholds q
  refine (List.subperm_append_left _).mpr ?_
  exact ⟨zs.flatMap ir.members, hz.flatMap fun _ _ => .refl _, hzs.flatMap _⟩

/-- A step after which one object holds one thing more. -/
theorem Sound.of_gain {ir' : Ir} (h : ir.Sound promised) (hsize : ir'.size = ir.size)
    (hlists : ir'.lists.size = ir.lists.size) (hparent : ∀ c, ir'.parent? c = ir.parent? c)
    (hholds : ∀ q, ir'.holds promised q = ir.holds promised q)
    (hp : ir.parent? c = some p) (hc : c ∉ ir.held promised p)
    (hheld : ∀ q, (ir'.held promised q).Subperm (if q = p then c :: ir.held promised q
      else ir.held promised q))
    (hmembers : ∀ l, ∀ b ∈ ir'.members l, b ∈ ir.members l ∨ b = c) : ir'.Sound promised := by
  refine ⟨fun b q => hparent b ▸ h.parent_lt b q, fun q l => hlists ▸ hholds q ▸ h.lists_lt q l,
    fun q r l => hholds q ▸ hholds r ▸ h.holder q r l, fun q => hholds q ▸ h.lists_nodup q,
    fun q b hb => ?_, fun q => ?_, fun l b hb => ?_⟩
  · have hb := (hheld q).subset hb
    rw [hparent]
    split at hb
    · rename_i hq
      rcases List.mem_cons.mp hb with rfl | hb
      · exact hq ▸ hp
      · exact h.parent q b hb
    · exact h.parent q b hb
  · obtain ⟨zs, hz, hzs⟩ := hheld q
    refine hz.nodup_iff.mp (List.Nodup.sublist hzs ?_)
    split
    · rename_i hq
      exact List.nodup_cons.mpr ⟨hq ▸ hc, h.nodup q⟩
    · exact h.nodup q
  · rw [hsize]
    rcases hmembers l b hb with hb | rfl
    · exact h.members_lt l b hb
    · exact lt_of_parent? hp

/-- **An object is given a part.** -/
theorem Sound.setPart (h : ir.Sound promised) (role : PartRole) (hp : ir.parent? c = some p)
    (hc : c ∉ ir.held promised p) : (ir.setPart p role c).Sound promised := by
  have hholds (q) : (ir.setPart p role c).holds promised q = ir.holds promised q := by
    rw [holds, holds, listIds_setPart]
  refine h.of_gain (size_setPart ir p role c) rfl (parent?_setPart ir p role c) hholds hp hc
    (fun q => ?_) fun l b hb => .inl hb
  rw [held, held, hholds]
  split
  · rename_i hq
    have hparts : ((ir.setPart p role c).partIds q).Subperm (c :: ir.partIds q) := by
      rw [partIds, partIds, Ir.setPart, object?_modify, if_pos hq.symm, Option.map_map]
      cases ir.object? q with
      | none => exact (List.nil_sublist _).subperm
      | some o => exact setRole_subperm role c o.parts
    exact (List.subperm_append_right _).mpr hparts
  · rename_i hq
    rw [partIds_congr (object?_setPart_of_ne ir hq role c)]
    exact .refl _

/-- **A list that an object holds gets a member.** -/
theorem Sound.push (h : ir.Sound promised) (hl : l ∈ ir.holds promised p)
    (hp : ir.parent? c = some p) (hc : c ∉ ir.held promised p) : (ir.push l c).Sound promised := by
  have hlt := h.lists_lt p l hl
  have hmembers (k) : (ir.push l c).members k =
      if k = l then ir.members k ++ [c] else ir.members k := by
    rw [members_push]
    by_cases hk : k = l
    · rw [if_pos ⟨hk.symm, hk ▸ hlt⟩, if_pos hk]
    · rw [if_neg fun hn => hk hn.1.symm, if_neg hk]
  refine h.of_gain rfl (by simp [Ir.push]) (fun _ => rfl) (fun _ => rfl) hp hc (fun q => ?_)
    fun k b hb => ?_
  · have hsame (ls : List ListId) (hls : l ∉ ls) :
        ls.flatMap (ir.push l c).members = ls.flatMap ir.members :=
      List.flatMap_congr fun k hk => by
        rw [hmembers, if_neg fun he : k = l => hls (he ▸ hk)]
    split
    · rename_i hq
      -- the list is one of those of the object, and it is there only once
      obtain ⟨before, after, hsplit⟩ := List.append_of_mem (hq ▸ hl)
      have hnodup := h.lists_nodup q
      rw [hsplit] at hnodup
      obtain ⟨-, hnl, hdisj⟩ := List.nodup_append.mp hnodup
      have hbefore : l ∉ before := fun hb => hdisj l hb l List.mem_cons_self rfl
      have hafter : l ∉ after := (List.nodup_cons.mp hnl).1
      have hlists : (ir.push l c).holds promised q = before ++ l :: after := hsplit
      rw [held, held, hlists, hsplit]
      simp only [List.flatMap_append, List.flatMap_cons, hsame before hbefore, hsame after hafter,
        hmembers l, if_true]
      have hmiddle := @List.perm_middle _ c
        (ir.partIds q ++ (before.flatMap ir.members ++ ir.members l)) (after.flatMap ir.members)
      have hparts : (ir.push l c).partIds q = ir.partIds q := rfl
      rw [hparts]
      simpa using hmiddle.subperm
    · rename_i hq
      have hnot : l ∉ ir.holds promised q := fun hlq => hq (h.holder q p l hlq hl)
      rw [held, held]
      have hlists : (ir.push l c).holds promised q = ir.holds promised q := rfl
      rw [hlists, hsame _ hnot]
      exact .refl _
  · rw [hmembers] at hb
    split at hb
    · exact (List.mem_append.mp hb).imp_right List.mem_singleton.mp
    · exact .inl hb

end Ir

end Verilog
