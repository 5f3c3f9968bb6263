import Verilog.Proofs.Ir.Holding

/-!
# How a design grows

A design is made by programs of three forms. One adds objects below an object and gives their
numbers, and changes nothing else (`Ir.AddsBelow`); one gives an object parts or lists
(`Ir.Furnishes`); one gives members to a list that is promised to an object (`Ir.Fills`). Each keeps
a design sound, whatever other objects are promised. The lemmas here say how programs of these forms
are put together, so that of a program that makes a part of a design only the form is to be shown.
-/

namespace Verilog

namespace Ir

/-- **A design that has grown**: what was there has kept its parent and its place and is unchanged,
but perhaps for some objects and lists; what is new has a parent and a place. -/
structure Grows (objects : ObjectId → Prop) (lists : ListId → Prop) (ir ir' : Ir) : Prop where
  size_le : ir.size ≤ ir'.size
  lists_le : ir.lists.size ≤ ir'.lists.size
  object : ∀ i, i < ir.size → ¬objects i → ir'.object? i = ir.object? i
  members : ∀ l, l < ir.lists.size → ¬lists l → ir'.members l = ir.members l
  parent : ∀ i, i < ir.size → ir'.parent? i = ir.parent? i
  range : ∀ i, i < ir.size → ir'.range? i = ir.range? i
  new : ∀ i, ir.size ≤ i → i < ir'.size → (ir'.parent? i).isSome ∧ (ir'.range? i).isSome

/-- Nothing is changed. -/
abbrev nothing : Nat → Prop := fun _ => False

/-- One thing is changed at most. -/
abbrev only (n : Nat) : Nat → Prop := fun m => m = n

variable {promised : Promises} {ir ir₁ ir₂ ir₃ : Ir} {objects objects' : ObjectId → Prop}
  {lists lists' : ListId → Prop} {p c : ObjectId} {l : ListId} {ids ids' : List ObjectId}

namespace Grows

theorem refl (ir : Ir) : Grows objects lists ir ir :=
  ⟨Nat.le_refl _, Nat.le_refl _, fun _ _ _ => rfl, fun _ _ _ => rfl, fun _ _ => rfl, fun _ _ => rfl,
    fun _ h h' => absurd h' (Nat.not_lt.mpr h)⟩

/-- One step after the other, if the second one changes no more of what was there at first. -/
theorem trans (h : Grows objects lists ir ir₁) (h' : Grows objects' lists' ir₁ ir₂)
    (hobjects : ∀ i, i < ir.size → objects' i → objects i)
    (hlists : ∀ l, l < ir.lists.size → lists' l → lists l) : Grows objects lists ir ir₂ := by
  have hsize {i} (hi : i < ir.size) := Nat.lt_of_lt_of_le hi h.size_le
  have hlsize {l} (hl : l < ir.lists.size) := Nat.lt_of_lt_of_le hl h.lists_le
  refine ⟨Nat.le_trans h.size_le h'.size_le, Nat.le_trans h.lists_le h'.lists_le, fun i hi hn => ?_,
    fun l hl hn => ?_, fun i hi => ?_, fun i hi => ?_, fun i hi hi' => ?_⟩
  · rw [h'.object i (hsize hi) fun ho => hn (hobjects i hi ho), h.object i hi hn]
  · rw [h'.members l (hlsize hl) fun ho => hn (hlists l hl ho), h.members l hl hn]
  · rw [h'.parent i (hsize hi), h.parent i hi]
  · rw [h'.range i (hsize hi), h.range i hi]
  · by_cases hlt : i < ir₁.size
    · rw [h'.parent i hlt, h'.range i hlt]
      exact h.new i hi hlt
    · exact h'.new i (Nat.le_of_not_lt hlt) hi'

theorem mono (h : Grows objects lists ir ir₁) (hobjects : ∀ i, objects i → objects' i)
    (hlists : ∀ l, lists l → lists' l) : Grows objects' lists' ir ir₁ :=
  (refl ir).trans h (fun i _ => hobjects i) fun l _ => hlists l

theorem add (ir : Ir) {o : DesignObject} (hparent : o.parent.isSome) (hrange : o.range.isSome) :
    Grows objects lists ir (ir.add o).2 := by
  have hold {i} (hi : i < ir.size) : (ir.add o).2.object? i = ir.object? i := by
    rw [object?_add, if_neg (Nat.ne_of_lt hi)]
  refine ⟨by simp, Nat.le_refl _, fun i hi _ => hold hi, fun l _ _ => members_add ir o l,
    fun i hi => by rw [parent?, hold hi, parent?], fun i hi => by rw [range?, hold hi, range?],
    fun i hi hi' => ?_⟩
  obtain rfl : i = ir.size := Nat.le_antisymm (Nat.lt_succ_iff.mp (by simpa using hi')) hi
  rw [parent?, range?, object?_add, if_pos rfl]
  exact ⟨hparent, hrange⟩

theorem addList (ir : Ir) : Grows objects lists ir ir.addList.2 :=
  ⟨Nat.le_refl _, by simp [Ir.addList], fun _ _ _ => rfl, fun l _ _ => members_addList ir l,
    fun _ _ => rfl, fun _ _ => rfl, fun _ h h' => absurd h' (Nat.not_lt.mpr h)⟩

theorem setPart (ir : Ir) (p : ObjectId) (role : PartRole) (c : ObjectId) :
    Grows (only p) lists ir (ir.setPart p role c) :=
  ⟨Nat.le_of_eq (size_setPart ir p role c).symm, Nat.le_refl _,
    fun _ _ hn => object?_setPart_of_ne ir hn role c, fun _ _ _ => rfl,
    fun i _ => parent?_setPart ir p role c i, fun i _ => range?_setPart ir p role c i,
    fun _ h h' => absurd (size_setPart ir p role c ▸ h') (Nat.not_lt.mpr h)⟩

theorem setList (ir : Ir) (p : ObjectId) (role : ListRole) (l : ListId) :
    Grows (only p) lists ir (ir.setList p role l) :=
  ⟨Nat.le_of_eq (size_setList ir p role l).symm, Nat.le_refl _,
    fun _ _ hn => object?_setList_of_ne ir hn role l, fun _ _ _ => rfl,
    fun i _ => parent?_setList ir p role l i, fun i _ => range?_setList ir p role l i,
    fun _ h h' => absurd (size_setList ir p role l ▸ h') (Nat.not_lt.mpr h)⟩

theorem push (ir : Ir) (l : ListId) (c : ObjectId) : Grows objects (only l) ir (ir.push l c) :=
  ⟨Nat.le_refl _, by simp [Ir.push], fun _ _ _ => rfl,
    fun k _ hn => by rw [members_push, if_neg fun he => hn he.1.symm], fun _ _ => rfl,
    fun _ _ => rfl, fun _ h h' => absurd h' (Nat.not_lt.mpr h)⟩

/-- An object that is not changed keeps its lists and those it is promised. -/
theorem holds_eq (h : Grows objects lists ir ir₁) (hp : p < ir.size) (hn : ¬objects p) :
    ir₁.holds promised p = ir.holds promised p := by
  rw [holds, holds, listIds_congr (h.object p hp hn)]

/-- An object that is not changed holds what it held, unless its lists are changed. -/
theorem held_eq (h : Grows objects lists ir ir₁) (hs : ir.Sound promised) (hp : p < ir.size)
    (hn : ¬objects p) (hl : ∀ l ∈ ir.holds promised p, ¬lists l) :
    ir₁.held promised p = ir.held promised p := by
  rw [held, held, partIds_congr (h.object p hp hn), h.holds_eq hp hn]
  congr 1
  exact List.flatMap_congr fun l hmem => h.members l (hs.lists_lt p l hmem) (hl l hmem)

end Grows

/-! ### The three forms of programs -/

/-- Objects are added below an object, and nothing else changes. -/
structure AddsBelow (p : ObjectId) (ir : Ir) (ids : List ObjectId) (ir' : Ir) : Prop where
  grows : Grows nothing nothing ir ir'
  fresh : ∀ c ∈ ids, ir.size ≤ c
  parent : ∀ c ∈ ids, ir'.parent? c = some p
  nodup : ids.Nodup
  sound : ∀ promised, ir.Sound promised → ir'.Sound promised

/-- An object is given parts and lists, and nothing else changes. -/
structure Furnishes (p : ObjectId) (ir ir' : Ir) : Prop where
  grows : Grows (only p) nothing ir ir'
  sound : ∀ promised, ir.Sound promised → ir'.Sound promised

/-- A list of an object, or one that it is promised, is given members, and nothing else changes. -/
structure Fills (p : ObjectId) (l : ListId) (ir ir' : Ir) : Prop where
  grows : Grows nothing (only l) ir ir'
  sound : ∀ promised, l ∈ ir.holds promised p → ir.Sound promised → ir'.Sound promised

theorem AddsBelow.nil (ir : Ir) (p : ObjectId) : AddsBelow p ir [] ir :=
  ⟨.refl ir, by simp, by simp, .nil, fun _ h => h⟩

theorem AddsBelow.append (h : AddsBelow p ir ids ir₁) (h' : AddsBelow p ir₁ ids' ir₂) :
    AddsBelow p ir (ids ++ ids') ir₂ := by
  refine ⟨h.grows.trans h'.grows (fun _ _ => id) fun _ _ => id, fun c hc => ?_, fun c hc => ?_, ?_,
    fun promised hs => h'.sound promised (h.sound promised hs)⟩
  · rcases List.mem_append.mp hc with hc | hc
    · exact h.fresh c hc
    · exact Nat.le_trans h.grows.size_le (h'.fresh c hc)
  · rcases List.mem_append.mp hc with hc | hc
    · have hpar := h.parent c hc
      rw [h'.grows.parent c (lt_of_parent? hpar), hpar]
    · exact h'.parent c hc
  · refine List.nodup_append.mpr ⟨h.nodup, h'.nodup, fun a ha b hb hab => ?_⟩
    have hlt := lt_of_parent? (h.parent a ha)
    exact absurd (h'.fresh b hb) (Nat.not_le.mpr (hab ▸ hlt))

theorem Furnishes.refl (p : ObjectId) (ir : Ir) : Furnishes p ir ir := ⟨.refl ir, fun _ h => h⟩

theorem Furnishes.trans (h : Furnishes p ir ir₁) (h' : Furnishes p ir₁ ir₂) : Furnishes p ir ir₂ :=
  ⟨h.grows.trans h'.grows (fun _ _ => id) fun _ _ => id,
    fun promised hs => h'.sound promised (h.sound promised hs)⟩

theorem Fills.refl (p : ObjectId) (l : ListId) (ir : Ir) : Fills p l ir ir :=
  ⟨.refl ir, fun _ _ h => h⟩

theorem Fills.trans (h : Fills p l ir ir₁) (h' : Fills p l ir₁ ir₂) (hp : p < ir.size) :
    Fills p l ir ir₂ :=
  ⟨h.grows.trans h'.grows (fun _ _ => id) fun _ _ => id, fun promised hl hs =>
    h'.sound promised (h.grows.holds_eq hp (by simp) ▸ hl) (h.sound promised hl hs)⟩

/-- What is new is not held by an object that was there. -/
theorem AddsBelow.not_held (h : AddsBelow p ir ids ir₁) (hs : ir.Sound promised) (hp : p < ir.size)
    (hc : c ∈ ids) : c ∉ ir₁.held promised p := by
  rw [h.grows.held_eq hs hp (by simp) (by simp)]
  exact fun hheld => absurd (lt_of_parent? (hs.parent p c hheld)) (Nat.not_lt.mpr (h.fresh c hc))

/-! ### How they are put together -/

theorem mem_held_push {b : ObjectId} (h : b ∈ (ir.push l c).held promised p) :
    b ∈ ir.held promised p ∨ b = c := by
  have hparts : (ir.push l c).partIds p = ir.partIds p := rfl
  have hlists : (ir.push l c).holds promised p = ir.holds promised p := rfl
  rw [held, hparts, hlists, List.mem_append, List.mem_flatMap] at h
  rw [held, List.mem_append, List.mem_flatMap]
  rcases h with hb | ⟨k, hk, hb⟩
  · exact .inl (.inl hb)
  · rw [members_push] at hb
    split at hb
    · exact (List.mem_append.mp hb).imp (fun hb => .inr ⟨k, hk, hb⟩) List.mem_singleton.mp
    · exact .inl (.inr ⟨k, hk, hb⟩)

/-- A list that an object holds may get several members at once. -/
theorem Sound.pushAll (h : ir.Sound promised) (hl : l ∈ ir.holds promised p)
    (hp : ∀ c ∈ ids, ir.parent? c = some p) (hn : ids.Nodup)
    (hc : ∀ c ∈ ids, c ∉ ir.held promised p) : (ir.pushAll l ids).Sound promised := by
  induction ids generalizing ir with
  | nil => exact h
  | cons c ids ih =>
    obtain ⟨hcn, hn⟩ := List.nodup_cons.mp hn
    refine ih (h.push hl (hp c (by simp)) (hc c (by simp))) hl (fun b hb => hp b (by simp [hb])) hn
      fun b hb hheld => ?_
    rcases mem_held_push hheld with hheld | rfl
    · exact hc b (by simp [hb]) hheld
    · exact hcn hb

theorem Grows.pushAll (ir : Ir) (l : ListId) (ids : List ObjectId) :
    Grows objects (only l) ir (ir.pushAll l ids) := by
  induction ids generalizing ir with
  | nil => exact .refl ir
  | cons c ids ih => exact (Grows.push ir l c).trans (ih _) (fun _ _ => id) fun _ _ => id

/-- A new object is put in a role of the object it was added below. -/
theorem AddsBelow.setPart (h : AddsBelow p ir [c] ir₁) (hp : p < ir.size) (role : PartRole) :
    Furnishes p ir (ir₁.setPart p role c) :=
  ⟨(h.grows.mono (by simp) (by simp)).trans (.setPart ir₁ p role c) (fun _ _ => id) fun _ _ => id,
    fun promised hs =>
      (h.sound promised hs).setPart role (h.parent c (by simp)) (h.not_held hs hp (by simp))⟩

/-- New objects become members of a list of the object they were added below. -/
theorem AddsBelow.pushAll (h : AddsBelow p ir ids ir₁) (hp : p < ir.size) (l : ListId) :
    Fills p l ir (ir₁.pushAll l ids) :=
  ⟨(h.grows.mono (by simp) (by simp)).trans (.pushAll ir₁ l ids) (fun _ _ => id) fun _ _ => id,
    fun promised hl hs => (h.sound promised hs).pushAll (h.grows.holds_eq hp (by simp) ▸ hl)
    h.parent
      h.nodup fun _ hc => h.not_held hs hp hc⟩

theorem AddsBelow.push (h : AddsBelow p ir [c] ir₁) (hp : p < ir.size) (l : ListId) :
    Fills p l ir (ir₁.push l c) := h.pushAll hp l

/-- An object is added and given what it is to hold. -/
theorem Furnishes.addsBelow {o : DesignObject} (h : Furnishes ir.size (ir.add o).2 ir₁)
    (hp : p < ir.size) (hparent : o.parent = some p) (hrange : o.range.isSome)
    (hparts : o.parts = [])
    (hlists : o.lists = []) : AddsBelow p ir [ir.size] ir₁ := by
  have hadd : Grows nothing nothing ir (ir.add o).2 := .add ir (by simp [hparent]) hrange
  have hin : ir.size < (ir.add o).2.size := by simp
  refine ⟨hadd.trans h.grows (fun i hi he => Nat.ne_of_lt hi he) fun _ _ => id, by simp, ?_,
    by simp, fun promised hs => h.sound promised (hs.add hparts hlists ?_)⟩
  · intro c hc
    rw [List.mem_singleton.mp hc, h.grows.parent _ hin, parent?, object?_add, if_pos rfl]
    exact hparent
  · intro q hq
    rw [hparent] at hq
    exact Option.some.inj hq ▸ hp

/-- What is given to an object goes on with what is given to a new one. -/
theorem Furnishes.transNew {q : ObjectId} (h : Furnishes p ir ir₁) (h' : Furnishes q ir₁ ir₂)
    (hq : ir.size ≤ q) : Furnishes p ir ir₂ :=
  ⟨h.grows.trans h'.grows (fun _ hi he => absurd hi (Nat.not_lt.mpr (he ▸ hq))) fun _ _ => id,
    fun promised hs => h'.sound promised (h.sound promised hs)⟩

/-- What a list is given goes on with what is given to a new object. -/
theorem Fills.transNew {q : ObjectId} (h : Fills p l ir ir₁) (h' : Furnishes q ir₁ ir₂)
    (hq : ir.size ≤ q) : Fills p l ir ir₂ :=
  ⟨h.grows.trans h'.grows (fun _ hi he => absurd hi (Nat.not_lt.mpr (he ▸ hq)))
      fun _ _ hn => hn.elim,
    fun promised hl hs => h'.sound promised (h.sound promised hl hs)⟩

/-- A new list is given members, and then put in a role. -/
theorem Fills.setList (h : Fills p ir.lists.size ir.addList.2 ir₁)
    (role : ListRole) : Furnishes p ir (ir₁.setList p role ir.lists.size) := by
  have hfill : Grows (only p) (only ir.lists.size) ir.addList.2 ir₁ :=
    h.grows.mono (by simp) fun _ => id
  have hgrows : Grows (only p) nothing ir ir₁ := (Grows.addList ir).trans hfill (fun _ _ => id)
    fun l hl he => Nat.ne_of_lt hl he
  refine ⟨hgrows.trans (.setList ir₁ p role _) (fun _ _ => id) fun _ _ => id, fun promised hs => ?_⟩
  exact (h.sound _ (by simp [holds]) (hs.addList p)).setList role

/-- A new list is put in a role, and then given members. -/
theorem Fills.ofSetList (role : ListRole)
    (h : Fills p ir.lists.size (ir.addList.2.setList p role ir.lists.size) ir₁) (hp : p < ir.size) :
    Furnishes p ir ir₁ := by
  have hset : Grows (only p) nothing ir (ir.addList.2.setList p role ir.lists.size) :=
    (Grows.addList ir).trans (.setList _ p role _) (fun _ _ => id) fun _ _ => id
  refine ⟨hset.trans h.grows (fun _ _ hn => hn.elim) fun l hl he => Nat.ne_of_lt hl he,
    fun promised hs => h.sound promised ?_ ((hs.addList p).setList role)⟩
  rw [holds, listIds, Ir.setList, object?_modify, if_pos rfl]
  refine List.mem_append_left _ ?_
  obtain ⟨o, ho⟩ : ∃ o, ir.addList.2.object? p = some o :=
    ⟨_, Array.getElem?_eq_getElem hp⟩
  rw [ho]
  exact mem_setRole role _ o.lists

/-- The members of a new list become members of another list of the same object, and the new list
is left over. -/
theorem Fills.splice (h : Fills p ir.lists.size ir.addList.2 ir₁) (hp : p < ir.size) (l : ListId) :
    Fills p l ir (ir₁.pushAll l (ir₁.members ir.lists.size)) := by
  have hgrows : Grows nothing (only l) ir ir₁ := (Grows.addList ir).trans h.grows (fun _ _ => id)
    fun k hk he => absurd he (Nat.ne_of_lt hk)
  refine ⟨hgrows.trans (.pushAll ir₁ l _) (fun _ _ => id) fun _ _ => id, fun promised hl hs => ?_⟩
  have hs₁ := h.sound _ (by simp [holds]) (hs.addList p)
  have hperm := held_promise_perm promised ir₁ p ir.lists.size
  have hnodup := hperm.nodup_iff.mp (hs₁.nodup p)
  obtain ⟨hmembers, -, hdisjoint⟩ := List.nodup_append.mp hnodup
  refine hs₁.forget.pushAll (hgrows.holds_eq hp (by simp) ▸ hl) (fun c hc => ?_) hmembers
    fun c hc hheld => hdisjoint c hc c hheld rfl
  exact hs₁.parent p c (hperm.mem_iff.mpr (List.mem_append_left _ hc))

/-- New objects become the members of a new list, which may be promised to the object they were
added below. -/
theorem AddsBelow.addListOf (h : AddsBelow p ir ids ir₁) (hp : p < ir.size) :
    Grows nothing nothing ir (ir₁.addListOf ids).2 ∧ ∀ promised, ir.Sound promised →
      (ir₁.addListOf ids).2.Sound ((p, ir₁.lists.size) :: promised) := by
  refine ⟨(h.grows.trans (.addList ir₁) (fun _ _ => id) fun _ _ => id).trans
    (.pushAll _ ir₁.lists.size ids) (fun _ _ => id) fun l hl he => ?_, fun promised hs => ?_⟩
  · exact Nat.ne_of_lt (Nat.lt_of_lt_of_le hl h.grows.lists_le) he
  · refine Sound.pushAll ((h.sound promised hs).addList p) (by simp [holds]) h.parent h.nodup
      fun c hc hheld => ?_
    have hmem := (held_promise_perm promised ir₁.addList.2 p ir₁.lists.size).mem_iff.mp hheld
    have hempty : ir₁.addList.2.members ir₁.lists.size = [] := by simp [members, Ir.addList]
    rw [hempty, List.nil_append, held, funext (members_addList ir₁)] at hmem
    exact h.not_held hs hp hc hmem

/-- The new list may be put in a role. -/
theorem AddsBelow.setListOf (h : AddsBelow p ir ids ir₁) (hp : p < ir.size) (role : ListRole) :
    Furnishes p ir ((ir₁.addListOf ids).2.setList p role (ir₁.addListOf ids).1) :=
  ⟨((h.addListOf hp).1.mono (by simp) (by simp)).trans (.setList _ p role _) (fun _ _ => id)
      fun _ _ => id,
    fun promised hs => ((h.addListOf hp).2 promised hs).setList role⟩

end Ir

end Verilog
