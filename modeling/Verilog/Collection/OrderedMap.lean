/-!
# Maps that keep the order of entry

An ordered map gives each key at most one value. Keys stand in the order in which they were first
entered; a new value for a key takes the place of the old one.
-/

namespace Verilog

/-- Keys with their values, in the order in which the keys were entered. -/
structure OrderedMap (κ α : Type) where
  entries : List (κ × α) := []
  deriving DecidableEq, Repr

namespace OrderedMap

variable {κ α : Type}

/-- The keys in order. -/
def keys (m : OrderedMap κ α) : List κ := m.entries.map (·.1)

/-- The values in the order of their keys. -/
def values (m : OrderedMap κ α) : List α := m.entries.map (·.2)

variable [DecidableEq κ]

/-- The value of a key in a list of entries. -/
def lookupIn (k : κ) : List (κ × α) → Option α
  | [] => none
  | e :: es => if e.1 = k then some e.2 else lookupIn k es

/-- The value of a key. -/
def get? (m : OrderedMap κ α) (k : κ) : Option α := lookupIn k m.entries

/-- Does a key have a value? -/
def contains (m : OrderedMap κ α) (k : κ) : Bool := (m.get? k).isSome

/-- Puts a value in the place of the one of the same key, or at the end. -/
def insertInto (k : κ) (a : α) : List (κ × α) → List (κ × α)
  | [] => [(k, a)]
  | e :: es => if e.1 = k then (k, a) :: es else e :: insertInto k a es

/-- Gives a key a value. -/
def insert (m : OrderedMap κ α) (k : κ) (a : α) : OrderedMap κ α := ⟨insertInto k a m.entries⟩

/-- Changes the value of a key, if it has one. -/
def modify (m : OrderedMap κ α) (k : κ) (f : α → α) : OrderedMap κ α :=
  match m.get? k with
  | some a => m.insert k (f a)
  | none => m

/-! ### Values after an entry -/

theorem lookupIn_insertInto (k l : κ) (a : α) (es : List (κ × α)) :
    lookupIn l (insertInto k a es) = if k = l then some a else lookupIn l es := by
  induction es with
  | nil => simp [insertInto, lookupIn]
  | cons e es ih =>
    by_cases he : e.1 = k
    · subst he
      by_cases hl : e.1 = l <;> simp [insertInto, lookupIn, hl]
    · rw [insertInto, if_neg he, lookupIn, lookupIn, ih]
      by_cases hl : e.1 = l
      · have : k ≠ l := fun h => he (hl.trans h.symm)
        simp [hl, this]
      · simp [hl]

@[simp] theorem get?_insert (m : OrderedMap κ α) (k l : κ) (a : α) :
    (m.insert k a).get? l = if k = l then some a else m.get? l :=
  lookupIn_insertInto k l a m.entries

/-! ### Entries

An entry puts a new value at the end, or in the place of the old one of its key; no other value is
touched.
-/

/-- A key that has no value gets one at the end. -/
theorem insertInto_of_none {k : κ} {es : List (κ × α)} (h : lookupIn k es = none) (a : α) :
    insertInto k a es = es ++ [(k, a)] := by
  induction es with
  | nil => rfl
  | cons e es ih =>
    rw [lookupIn] at h
    split at h
    · cases h
    · rename_i he
      rw [insertInto, if_neg he, ih h, List.cons_append]

/-- Only the entry of the key itself changes. -/
theorem insertInto_of_some {k : κ} {a : α} {es : List (κ × α)} (h : lookupIn k es = some a)
    (b : α) : ∃ before after, es = before ++ (k, a) :: after ∧
      insertInto k b es = before ++ (k, b) :: after := by
  induction es with
  | nil => cases h
  | cons e es ih =>
    rw [lookupIn] at h
    split at h
    · rename_i he
      obtain rfl := Option.some.inj h
      exact ⟨[], es, by rw [← he]; rfl, by rw [insertInto, if_pos he]; rfl⟩
    · rename_i he
      obtain ⟨before, after, hes, hins⟩ := ih h
      exact ⟨e :: before, after, by rw [hes]; rfl, by rw [insertInto, if_neg he, hins]; rfl⟩

theorem contains_eq_false {m : OrderedMap κ α} {k : κ} :
    m.contains k = false ↔ lookupIn k m.entries = none := by
  rw [contains, get?]
  cases lookupIn k m.entries <;> simp

theorem values_insert_of_not_contains {m : OrderedMap κ α} {k : κ} (h : m.contains k = false)
    (a : α) : (m.insert k a).values = m.values ++ [a] := by
  rw [values, insert, insertInto_of_none (contains_eq_false.mp h), List.map_append]
  rfl

/-- A new value takes the place of the old one of its key. -/
theorem values_insert_of_get? {m : OrderedMap κ α} {k : κ} {a : α} (h : m.get? k = some a) (b : α) :
    ∃ before after, m.values = before ++ a :: after ∧
      (m.insert k b).values = before ++ b :: after := by
  obtain ⟨before, after, hes, hins⟩ := insertInto_of_some h b
  refine ⟨before.map (·.2), after.map (·.2), ?_, ?_⟩
  · rw [values, hes, List.map_append, List.map_cons]
  · rw [values, insert, hins, List.map_append, List.map_cons]

/-- A value that is entered is new, and the others were there. -/
theorem mem_values_insert {m : OrderedMap κ α} {k : κ} {a b : α} (h : b ∈ (m.insert k a).values) :
    b = a ∨ b ∈ m.values := by
  cases hc : m.get? k with
  | none =>
    have hc : m.contains k = false := by rw [contains, hc]; rfl
    rw [values_insert_of_not_contains hc] at h
    exact (List.mem_append.mp h).symm.imp_left List.mem_singleton.mp
  | some c =>
    obtain ⟨before, after, hold, hnew⟩ := values_insert_of_get? hc a
    rw [hnew] at h
    rw [hold]
    simp only [List.mem_append, List.mem_cons] at h ⊢
    exact h.elim (.inr ∘ .inl) (Or.imp_right (.inr ∘ .inr))

/-- At most one value changes. -/
theorem values_modify (m : OrderedMap κ α) (k : κ) (f : α → α) : (m.modify k f).values = m.values ∨
    ∃ before a after, m.values = before ++ a :: after ∧
      (m.modify k f).values = before ++ f a :: after := by
  rw [modify]
  split
  · rename_i a h
    obtain ⟨before, after, hold, hnew⟩ := values_insert_of_get? h (f a)
    exact .inr ⟨before, a, after, hold, hnew⟩
  · exact .inl rfl

/-- A value after a change is one that was there, perhaps changed. -/
theorem mem_values_modify {m : OrderedMap κ α} {k : κ} {f : α → α} {b : α}
    (h : b ∈ (m.modify k f).values) : ∃ a ∈ m.values, b = a ∨ b = f a := by
  rcases values_modify m k f with heq | ⟨before, a, after, hold, hnew⟩
  · exact ⟨b, heq ▸ h, .inl rfl⟩
  · rw [hnew] at h
    rw [hold]
    simp only [List.mem_append, List.mem_cons] at h
    rcases h with h | rfl | h
    · exact ⟨b, by simp [h], .inl rfl⟩
    · exact ⟨a, by simp, .inr rfl⟩
    · exact ⟨b, by simp [h], .inl rfl⟩

/-- A value that was there is still there, perhaps changed. -/
theorem exists_values_modify {m : OrderedMap κ α} (k : κ) (f : α → α) {a : α} (h : a ∈ m.values) :
    ∃ b ∈ (m.modify k f).values, b = a ∨ b = f a := by
  rcases values_modify m k f with heq | ⟨before, c, after, hold, hnew⟩
  · exact ⟨a, heq ▸ h, .inl rfl⟩
  · rw [hold] at h
    rw [hnew]
    simp only [List.mem_append, List.mem_cons] at h
    rcases h with h | rfl | h
    · exact ⟨a, by simp [h], .inl rfl⟩
    · exact ⟨f a, by simp, .inr rfl⟩
    · exact ⟨a, by simp [h], .inl rfl⟩

theorem contains_insert (m : OrderedMap κ α) (k l : κ) (a : α) :
    (m.insert k a).contains l = (decide (k = l) || m.contains l) := by
  rw [contains, get?_insert]
  by_cases h : k = l <;> simp [h, contains]

theorem contains_modify (m : OrderedMap κ α) (k l : κ) (f : α → α) :
    (m.modify k f).contains l = m.contains l := by
  rw [modify]
  split
  · rename_i a h
    rw [contains_insert]
    by_cases hk : k = l
    · simp [← hk, contains, h]
    · simp [hk]
  · rfl

theorem get?_modify (m : OrderedMap κ α) (k l : κ) (f : α → α) :
    (m.modify k f).get? l = if k = l then (m.get? l).map f else m.get? l := by
  rw [modify]
  by_cases hk : k = l
  · subst hk
    split <;> simp_all
  · split <;> simp [hk]

/-- A key that has a value stays where it stands. -/
theorem keys_insert_of_get? {m : OrderedMap κ α} {k : κ} {a : α} (h : m.get? k = some a) (b : α) :
    (m.insert k b).keys = m.keys := by
  obtain ⟨before, after, hes, hins⟩ := insertInto_of_some h b
  rw [keys, keys, insert, hins, hes, List.map_append, List.map_append, List.map_cons,
    List.map_cons]

theorem keys_insert_of_not_contains {m : OrderedMap κ α} {k : κ} (h : m.contains k = false)
    (a : α) : (m.insert k a).keys = m.keys ++ [k] := by
  rw [keys, insert, insertInto_of_none (contains_eq_false.mp h), List.map_append]
  rfl

theorem insertInto_insertInto (k : κ) (a b : α) (es : List (κ × α)) :
    insertInto k b (insertInto k a es) = insertInto k b es := by
  induction es with
  | nil => simp [insertInto]
  | cons e es ih => by_cases he : e.1 = k <;> simp [insertInto, he, ih]

/-- A value that has just been entered is changed. -/
theorem modify_insert (m : OrderedMap κ α) (k : κ) (a : α) (f : α → α) :
    (m.insert k a).modify k f = m.insert k (f a) := by
  rw [modify, get?_insert, if_pos rfl]
  exact congrArg mk (insertInto_insertInto k a (f a) m.entries)

theorem keys_modify (m : OrderedMap κ α) (k : κ) (f : α → α) : (m.modify k f).keys = m.keys := by
  rw [modify]
  split
  · rename_i h
    exact keys_insert_of_get? h _
  · rfl

end OrderedMap

end Verilog
