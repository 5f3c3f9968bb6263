import Mathlib.Data.Nat.Basic
import Mathlib.Order.Basic

/-!
# Outlines

A table of nodes is looked at as a forest: each number has a label and a list of numbers below it.
An `Outline` is a tree with labels and no numbers; that it stands at a number of a forest says what
is there to the last node, with no bound on the depth (`Outline.At`).

Forests grow at the end: a tree is put below a node, and its nodes get the next numbers. What makes
growth manageable is that a node below another has the greater number (`Forest.Grounded`), so what
was put somewhere stays as it is while more is put below a node that was there before
(`Forest.Gains.trans`).
-/

namespace Verilog

/-- A tree with labels. -/
inductive Outline (α : Type) where
  /-- A label and what is below it. -/
  | node (label : α) (below : List (Outline α))

/-- Labelled numbers, each with the numbers below it. -/
structure Forest (α : Type) where
  size : Nat
  label : Nat → α
  below : Nat → List Nat

variable {α : Type}

namespace Outline

mutual

/-- Does a tree stand at a number of a forest? -/
def At (f : Forest α) : Outline α → Nat → Prop
  | node a os, id => f.label id = a ∧ AllAt f os (f.below id)

/-- Do trees stand at the numbers of a list, one at each? -/
def AllAt (f : Forest α) : List (Outline α) → List Nat → Prop
  | [], [] => True
  | o :: os, id :: ids => o.At f id ∧ AllAt f os ids
  | _, _ => False

end

variable {f f' : Forest α}

@[simp] theorem allAt_nil : AllAt f [] [] := trivial

theorem allAt_nil_iff {ids : List Nat} : AllAt f [] ids ↔ ids = [] := by
  cases ids <;> simp [AllAt]

@[simp] theorem allAt_cons {o : Outline α} {os : List (Outline α)} {id : Nat}
    {ids : List Nat} : AllAt f (o :: os) (id :: ids) ↔ o.At f id ∧ AllAt f os ids := Iff.rfl

theorem allAt_append {os os' : List (Outline α)} {ids ids' : List Nat} (h : AllAt f os ids)
    (h' : AllAt f os' ids') : AllAt f (os ++ os') (ids ++ ids') := by
  induction os generalizing ids with
  | nil => simpa [allAt_nil_iff.mp h] using h'
  | cons o os ih =>
    cases ids with
    | nil => exact h.elim
    | cons id ids => exact ⟨h.1, ih h.2⟩

mutual

/-- A tree is still there if nothing has changed where it stands. -/
theorem At.congr {S : Nat → Prop} (hl : ∀ q, S q → f'.label q = f.label q)
    (hb : ∀ q, S q → f'.below q = f.below q) (hs : ∀ q, S q → ∀ r ∈ f.below q, S r) :
    {o : Outline α} → {id : Nat} → S id → o.At f id → o.At f' id
  | node a os, id, hid, h => by
    refine ⟨(hl id hid).trans h.1, ?_⟩
    rw [hb id hid]
    exact AllAt.congr hl hb hs (hs id hid) h.2

theorem AllAt.congr {S : Nat → Prop} (hl : ∀ q, S q → f'.label q = f.label q)
    (hb : ∀ q, S q → f'.below q = f.below q) (hs : ∀ q, S q → ∀ r ∈ f.below q, S r) :
    {os : List (Outline α)} → {ids : List Nat} → (∀ id ∈ ids, S id) → AllAt f os ids →
      AllAt f' os ids
  | [], ids, _, h => by rwa [allAt_nil_iff] at h ⊢
  | o :: os, [], _, h => h.elim
  | o :: os, id :: ids, hids, h =>
    ⟨At.congr hl hb hs (hids id (by simp)) h.1,
      AllAt.congr hl hb hs (fun q hq => hids q (by simp [hq])) h.2⟩

end

variable {V : α → List (Outline α) → Prop} {os : List (Outline α)}

mutual

/-- Has every node of an outline a property, which speaks of its label and what is below it? -/
def Every (V : α → List (Outline α) → Prop) : Outline α → Prop
  | node a os => V a os ∧ EveryOf V os

/-- `Every` for each outline of a list. -/
def EveryOf (V : α → List (Outline α) → Prop) : List (Outline α) → Prop
  | [] => True
  | o :: os => o.Every V ∧ EveryOf V os

end

theorem everyOf_append {os os' : List (Outline α)} (h : EveryOf V os) (h' : EveryOf V os') :
    EveryOf V (os ++ os') := by
  induction os with
  | nil => exact h'
  | cons o os ih => exact ⟨h.1, ih h.2⟩

/-- Where outlines stand, each number has one of them. -/
theorem exists_of_allAt {ids : List Nat} (hat : AllAt f os ids) (h : EveryOf V os) :
    ∀ id ∈ ids, ∃ o : Outline α, o.At f id ∧ o.Every V := by
  induction os generalizing ids with
  | nil => simp [allAt_nil_iff.mp hat]
  | cons o os ih =>
    cases ids with
    | nil => simp
    | cons id ids =>
      rw [List.forall_mem_cons]
      exact ⟨⟨o, hat.1, h.1⟩, ih hat.2 h.2⟩

end Outline

open Outline

namespace Forest

/-- A node below another has a greater number, and one that is there. -/
def Grounded (f : Forest α) : Prop := ∀ p, ∀ q ∈ f.below p, p < q ∧ q ≤ f.size

/-- Nothing that is there has changed, and nothing new is below it. -/
structure Keeps (f f' : Forest α) : Prop where
  size_le : f.size ≤ f'.size
  label_eq : ∀ q, 0 < q → q ≤ f.size → f'.label q = f.label q
  below_eq : ∀ q, f'.below q = f.below q

theorem Keeps.refl (f : Forest α) : f.Keeps f := ⟨Nat.le_refl _, fun _ _ _ => rfl, fun _ => rfl⟩

theorem Keeps.trans {f f' f'' : Forest α} (h : f.Keeps f') (h' : f'.Keeps f'') : f.Keeps f'' := by
  refine ⟨h.size_le.trans h'.size_le, fun q hq hqs => ?_, fun q => ?_⟩
  · rw [h'.label_eq q hq (hqs.trans h.size_le), h.label_eq q hq hqs]
  · rw [h'.below_eq, h.below_eq]

/-- **What it means to put trees below a node** of a forest: they stand there behind what stood
there before, their numbers are new, and nothing else has changed. -/
structure Gains (f f' : Forest α) (p : Nat) (os : List (Outline α)) : Prop where
  size_le : f.size ≤ f'.size
  label_eq : ∀ q, 0 < q → q ≤ f.size → f'.label q = f.label q
  below_eq : ∀ q, q ≤ f.size → q ≠ p → f'.below q = f.below q
  tops : ∃ tops, f'.below p = f.below p ++ tops ∧ (∀ q ∈ tops, f.size < q) ∧ AllAt f' os tops

namespace Gains

variable {f f' f'' : Forest α} {p : Nat} {os os' : List (Outline α)}

/-- Nothing is put below a node. -/
theorem of_keeps (h : f.Keeps f') (p : Nat) : f.Gains f' p [] :=
  ⟨h.size_le, h.label_eq, fun q _ _ => h.below_eq q, [], by simp [h.below_eq]⟩

theorem of_keeps_left (h : f.Keeps f') (h' : f'.Gains f'' p os) : f.Gains f'' p os := by
  obtain ⟨tops, he, hnew, hat⟩ := h'.tops
  refine ⟨h.size_le.trans h'.size_le, ?_, ?_, tops, ?_, ?_, hat⟩
  · intro q hq hqs
    rw [h'.label_eq q hq (hqs.trans h.size_le), h.label_eq q hq hqs]
  · intro q hqs hqp
    rw [h'.below_eq q (hqs.trans h.size_le) hqp, h.below_eq]
  · rw [he, h.below_eq]
  · exact fun q hq => h.size_le.trans_lt (hnew q hq)

/-- **What was put below a node stays there** while more is put behind it. -/
theorem trans (h : f.Gains f' p os) (h' : f'.Gains f'' p os') (hp : p ≤ f.size)
    (hg : f'.Grounded) : f.Gains f'' p (os ++ os') := by
  obtain ⟨tops, he, hnew, hat⟩ := h.tops
  obtain ⟨tops', he', hnew', hat'⟩ := h'.tops
  refine ⟨h.size_le.trans h'.size_le, ?_, ?_, tops ++ tops', ?_, ?_, ?_⟩
  · intro q hq hqs
    rw [h'.label_eq q hq (hqs.trans h.size_le), h.label_eq q hq hqs]
  · intro q hqs hqp
    rw [h'.below_eq q (hqs.trans h.size_le) hqp, h.below_eq q hqs hqp]
  · rw [he', he, List.append_assoc]
  · intro q hq
    rcases List.mem_append.mp hq with hq | hq
    · exact hnew q hq
    · exact h.size_le.trans_lt (hnew' q hq)
  · refine allAt_append ?_ hat'
    -- The new trees have numbers past the size of `f`, so `p` is none of their nodes.
    refine AllAt.congr (S := fun q => f.size < q ∧ q ≤ f'.size) ?_ ?_ ?_ ?_ hat
    · exact fun q ⟨hlo, hhi⟩ => h'.label_eq q (by omega) hhi
    · exact fun q ⟨hlo, hhi⟩ => h'.below_eq q hhi (by omega)
    · intro q ⟨hlo, _⟩ r hr
      obtain ⟨hqr, hr⟩ := hg q r hr
      exact ⟨hlo.trans hqr, hr⟩
    · exact fun q hq => ⟨hnew q hq, (hg p q (by simp [he, hq])).2⟩

/-- **A node with trees below it**: first the node is put below another, then the trees below the
node. -/
theorem node {a : α} {c : Nat} (hs : f'.size = f.size + 1) (hc : c = f.size + 1)
    (hl : ∀ q, 0 < q → q ≤ f.size → f'.label q = f.label q) (ha : f'.label c = a)
    (hb : ∀ q, q ≠ p → f'.below q = f.below q) (hbp : f'.below p = f.below p ++ [c])
    (hbc : f.below c = []) (hp : p ≤ f.size) (h' : f'.Gains f'' c os) :
    f.Gains f'' p [.node a os] := by
  subst hc
  obtain ⟨tops, he, hnew, hat⟩ := h'.tops
  have hsize := h'.size_le
  refine ⟨by omega, ?_, ?_, [f.size + 1], ?_, by simp, ⟨?_, ?_⟩, trivial⟩
  · intro q hq hqs
    rw [h'.label_eq q hq (by omega), hl q hq hqs]
  · intro q hqs hqp
    rw [h'.below_eq q (by omega) (by omega), hb q hqp]
  · rw [h'.below_eq p (by omega) (by omega), hbp]
  · rw [h'.label_eq _ (by omega) (by omega), ha]
  · rw [he, hb _ (by omega), hbc]
    exact hat

end Gains

end Forest

end Verilog
