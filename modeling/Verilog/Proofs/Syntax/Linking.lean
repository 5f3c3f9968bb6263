import Verilog.Proofs.Syntax.Growth

/-!
# How the nodes of a text are linked

The nodes of a text are linked while the text is gone through: productions and leaves as they are
met, hidden tokens behind them when they come, and only where hidden tokens have come the children
are sorted, once the production is left. That this suffices is shown in two parts.

What steps do to a table (`NodeTable.linkBy_spec`): the children of a node are those that are put
below it, and those that start at one place stay in the order in which they are put there. They are
in the order in which they start if the node is sorted behind the last of them, or if they are put
there in this order.

What steps are noted (`Growth.Linkable`): below each node its family is put, in the order of the
numbers; and every node is marked for sorting, or has been sorted behind its last child, or has no
hidden token below it. Productions and leaves start one behind the other, so in the end every node
has its family below it in the order in which it starts (`Growth.arranged_ofTree`).
-/

namespace Verilog

open NodeTable

/-! ### What steps do -/

namespace LinkStep

variable {steps : List LinkStep} {p q c : NodeId}

/-- The node that a step puts below a node, if it does. -/
def child? (p : NodeId) : LinkStep → Option NodeId
  | append q c => if q = p then some c else none
  | sort _ => none

/-- The nodes that steps put below a node, in order. -/
def appended (p : NodeId) (steps : List LinkStep) : List NodeId := steps.filterMap (child? p)

/-- Are the children of a node sorted behind the last one that is put there? -/
def SortedLast (p : NodeId) (steps : List LinkStep) : Prop :=
  ∃ before after, steps = before ++ sort p :: after ∧ appended p after = []

theorem appended_cons_append :
    appended p (append q c :: steps) = (if q = p then [c] else []) ++ appended p steps := by
  by_cases h : q = p <;> simp [appended, child?, h]

theorem appended_cons_sort : appended p (sort q :: steps) = appended p steps :=
  List.filterMap_cons_none rfl

theorem appended_concat (x : LinkStep) :
    appended p (steps ++ [x]) = appended p steps ++ (child? p x).toList := by
  rw [appended, List.filterMap_append, ← appended]
  cases h : child? p x <;> simp [h]

theorem sortedLast_sort (p : NodeId) (steps : List LinkStep) : SortedLast p (steps ++ [sort p]) :=
  ⟨steps, [], rfl, rfl⟩

/-- Steps that put nothing more below a node leave it sorted. -/
theorem SortedLast.concat (h : SortedLast p steps) {x : LinkStep} (hx : child? p x = none) :
    SortedLast p (steps ++ [x]) := by
  obtain ⟨before, after, rfl, hafter⟩ := h
  refine ⟨before, after ++ [x], by simp, ?_⟩
  rw [appended_concat, hafter, hx]
  rfl

theorem SortedLast.of_cons_append (h : SortedLast p (append q c :: steps)) :
    SortedLast p steps := by
  obtain ⟨before, after, heq, hafter⟩ := h
  cases before with
  | nil => cases heq
  | cons x before =>
    obtain ⟨-, rfl⟩ := List.cons.inj heq
    exact ⟨before, after, rfl, hafter⟩

/-- Behind a step that sorts a node, the node is sorted later, or nothing more is put below it. -/
theorem SortedLast.of_cons_sort (h : SortedLast p (sort q :: steps)) :
    SortedLast p steps ∨ q = p ∧ appended p steps = [] := by
  obtain ⟨before, after, heq, hafter⟩ := h
  cases before with
  | nil =>
    obtain ⟨hq, rfl⟩ := List.cons.inj heq
    exact .inr ⟨sort.inj hq, hafter⟩
  | cons x before =>
    obtain ⟨-, rfl⟩ := List.cons.inj heq
    exact .inl ⟨before, after, rfl, hafter⟩

end LinkStep

namespace NodeTable

open LinkStep

variable {t u v : NodeTable} {steps : List LinkStep} {p q c : NodeId}
  {ids before after : List NodeId}

/-- Nothing but the last child gets another sibling. -/
theorem sibling_append_of_not_mem (hq : q ∉ t.children p) :
    (t.append p c).sibling q = t.sibling q := by
  by_cases h0 : p = 0 ∨ c = 0
  · rw [NodeTable.append, if_pos (by simpa using h0)]
  · rw [not_or] at h0
    have hparent (w : NodeTable) :
        (w.modify c fun n => { n with parent := p }).sibling q = w.sibling q := by
      simp only [sibling, node_modify]
      split <;> rfl
    rw [append_eq h0.1 h0.2, hparent, linkBehind]
    cases hl : (t.children p).getLast? with
    | none => exact sibling_modify_child _ _
    | some last =>
      rw [sibling_modify_sibling, if_neg]
      rintro ⟨rfl, -⟩
      exact hq (List.mem_of_getLast? hl)

/-- **One order only** is a stable sort of nodes that come in the order of their numbers. -/
theorem IsStableSort.unique (hids : ids.Pairwise (· < ·)) (h : t.IsStableSort ids before)
    (h' : t.IsStableSort ids after) : before = after := by
  have hstrict {l : List NodeId} (hl : t.IsStableSort ids l) :
      l.Pairwise fun a b =>
        NoLater (t.begins a) (t.begins b) ∧ (t.begins a = t.begins b → a < b) := by
    rw [List.pairwise_iff_forall_sublist]
    intro a b hab
    refine ⟨List.pairwise_iff_forall_sublist.mp hl.sorted hab, fun hplace => ?_⟩
    -- at one place the nodes are in the order that they had
    have hsub := hab.filter fun q => t.begins q = t.begins b
    rw [hl.stable] at hsub
    have htwo : [a, b].filter (fun q => t.begins q = t.begins b) = [a, b] := by simp [hplace]
    rw [htwo] at hsub
    exact List.pairwise_iff_forall_sublist.mp hids (hsub.trans List.filter_sublist)
  refine (h.perm.trans h'.perm.symm).eq_of_pairwise (fun a b _ _ hab hba => ?_) (hstrict h)
    (hstrict h')
  have hplace : t.begins a = t.begins b := by
    have h₁ := hab.1
    have h₂ := hba.1
    rw [NoLater] at h₁ h₂
    exact Prod.ext (by omega) (by omega)
  exact absurd (hab.2 hplace) (Nat.lt_asymm (hba.2 hplace.symm))

/-- **What steps do to the children of nodes.** They are those that were there, and those that are
put there; of those that start at one place the order is kept; and they are in the order in which
they start where they are sorted last, or come in this order. -/
structure Follows (t u v : NodeTable) (steps : List LinkStep) : Prop where
  same : t.SameNodes v
  linked : v.Linked v.children
  perm : ∀ p, (v.children p).Perm (u.children p ++ appended p steps)
  stable : ∀ p place, (v.children p).filter (fun q => t.begins q = place) =
    (u.children p ++ appended p steps).filter fun q => t.begins q = place
  ascending : ∀ p, SortedLast p steps ∨ t.Ascending (u.children p ++ appended p steps) →
    t.Ascending (v.children p)

/-- Can nodes be put below others by steps? They are there, have these parents, and are linked to
nothing yet. -/
structure Joins (t u : NodeTable) (steps : List LinkStep) : Prop where
  same : t.SameNodes u
  linked : u.Linked u.children
  free : ∀ q, (∀ p, q ∉ u.children p) → u.sibling q = 0
  there : ∀ p, ∀ c ∈ appended p steps, t.contains p ∧ t.contains c ∧ t.parent c = p
  nodup : ∀ p, (u.children p ++ appended p steps).Nodup

theorem children_append (h : t.Joins u (.append p c :: steps)) :
    (u.append p c).children = Function.update u.children p (u.children p ++ [c]) ∧
      t.Joins (u.append p c) steps := by
  obtain ⟨hp, hc, hparent⟩ := h.there p c (by simp [appended_cons_append])
  have hnodup := h.nodup p
  rw [appended_cons_append, if_pos rfl, ← List.append_assoc] at hnodup
  have hfree (q : NodeId) : c ∉ u.children q := fun hmem => by
    have hq := h.linked.parent q c hmem
    rw [h.same.parent_eq, hparent] at hq
    subst hq
    exact (List.nodup_append.mp (List.nodup_append.mp hnodup).1).2.2 c hmem c (by simp) rfl
  obtain ⟨hlinked, hnodes⟩ := h.linked.append (h.same.contains_eq p ▸ hp)
    (h.same.contains_eq c ▸ hc) hfree (h.free c hfree)
  have heq : (u.append p c).children = Function.update u.children p (u.children p ++ [c]) :=
    funext hlinked.children_eq
  have hsame : t.SameNodes (u.append p c) := by
    refine ⟨(sizeFile_append u p c).1.trans h.same.size,
      (sizeFile_append u p c).2.trans h.same.file, fun q => (hnodes q).trans ?_⟩
    split
    · rename_i hq
      subst hq
      rw [← h.same.unlinked q, ← hparent, ← h.same.parent_eq q]
      rfl
    · exact h.same.unlinked q
  refine ⟨heq, hsame, hlinked.children, fun q hq => ?_, fun r d hd => ?_, fun r => ?_⟩
  · rw [heq] at hq
    have hold (r : NodeId) : q ∉ u.children r := fun hmem => hq r (by
      by_cases hr : r = p
      · subst hr
        simp [hmem]
      · rwa [Function.update_of_ne hr])
    rw [sibling_append_of_not_mem (hold p)]
    exact h.free q hold
  · exact h.there r d (by rw [appended_cons_append]; exact List.mem_append_right _ hd)
  · rw [heq]
    by_cases hr : r = p
    · subst hr
      rwa [Function.update_self]
    · have hother := h.nodup r
      rw [appended_cons_append, if_neg (Ne.symm hr), List.nil_append] at hother
      rwa [Function.update_of_ne hr]

theorem joins_sort (h : t.Joins u (.sort p :: steps)) : t.Joins (u.sortChildren p) steps := by
  have hsort := h.linked.sortChildren p
  refine ⟨h.same.trans hsort.same, hsort.linked, fun q hq => ?_, fun r d hd => ?_, fun r => ?_⟩
  · have hold (r : NodeId) : q ∉ u.children r := fun hmem => hq r (hsort.mem_children.mpr hmem)
    rw [hsort.sibling q fun r _ => hold r]
    exact h.free q hold
  · exact h.there r d (by rwa [appended_cons_sort])
  · have hnodup := h.nodup r
    rw [appended_cons_sort] at hnodup
    have hperm : ((u.sortChildren p).children r).Perm (u.children r) := by
      by_cases hr : r = p
      · exact (hsort.sorted r hr).perm
      · rw [hsort.others r hr]
    exact (hperm.append_right _).nodup_iff.mpr hnodup

/-- **Steps one after the other** put nodes below others, and sort them there. -/
theorem follows_linkBy (steps : List LinkStep) : ∀ {u : NodeTable}, t.Joins u steps →
    t.Follows u (u.linkBy steps) steps := by
  induction steps with
  | nil =>
    intro u h
    refine ⟨h.same, h.linked, fun p => ?_, fun p place => ?_, fun p hp => ?_⟩
    · rw [show appended p [] = [] from rfl, List.append_nil]
      exact .refl _
    · rw [show appended p [] = [] from rfl, List.append_nil]
      rfl
    · rcases hp with ⟨before, after, heq, -⟩ | hp
      · simp at heq
      · rwa [show appended p [] = [] from rfl, List.append_nil] at hp
  | cons x steps ih =>
    intro u h
    cases x with
    | append p c =>
      obtain ⟨hchildren, hjoins⟩ := children_append h
      have hfollows := ih hjoins
      have heq (q : NodeId) : (u.append p c).children q ++ appended q steps =
          u.children q ++ appended q (.append p c :: steps) := by
        rw [hchildren, appended_cons_append]
        by_cases hq : q = p
        · subst hq
          simp
        · simp [Function.update_of_ne hq, Ne.symm hq]
      refine ⟨hfollows.same, hfollows.linked, fun q => heq q ▸ hfollows.perm q,
        fun q place => heq q ▸ hfollows.stable q place, fun q hq => ?_⟩
      refine hfollows.ascending q (hq.imp SortedLast.of_cons_append fun hq => ?_)
      rwa [heq]
    | sort p =>
      have hsort := h.linked.sortChildren p
      have hfollows := ih (joins_sort h)
      -- the children of a node that is sorted are a stable sort of what they were
      have hstable (q : NodeId) : ((u.sortChildren p).children q).Perm (u.children q) ∧
          ∀ place, ((u.sortChildren p).children q).filter (fun r => t.begins r = place) =
            (u.children q).filter fun r => t.begins r = place := by
        by_cases hq : q = p
        · have hs := h.same.isStableSort (hsort.sorted q hq)
          exact ⟨hs.perm, hs.stable⟩
        · rw [hsort.others q hq]
          exact ⟨.refl _, fun _ => rfl⟩
      refine ⟨hfollows.same, hfollows.linked, fun q => ?_, fun q place => ?_, fun q hq => ?_⟩
      · rw [appended_cons_sort]
        exact (hfollows.perm q).trans ((hstable q).1.append_right _)
      · rw [appended_cons_sort]
        refine (hfollows.stable q place).trans ?_
        rw [List.filter_append, List.filter_append, (hstable q).2 place]
      · refine hfollows.ascending q ?_
        rw [appended_cons_sort] at hq
        rcases hq with hq | hq
        · rcases hq.of_cons_sort with hq | ⟨rfl, hnone⟩
          · exact .inl hq
          · refine .inr ?_
            rw [hnone, List.append_nil]
            exact (h.same.isStableSort (hsort.sorted p rfl)).sorted
        · have hfront : t.Ascending (u.children q) := (List.pairwise_append.mp hq).1
          by_cases hqp : q = p
          · subst hqp
            -- what is in order already is left alone
            have hsame : u.sortChildren q = u := sortChildren_of_ascending (by
              rw [Ascending, h.same.begins_eq]
              exact hfront)
            rw [hsame]
            exact .inr hq
          · rw [hsort.others q hqp]
            exact .inr hq

/-- **A table without links** is linked by steps that put below each node those that name it as
their parent, in the order of their numbers: each node gets its family, in the order in which it
starts, if it is sorted last or its family starts in the order of the numbers. -/
theorem linkBy_spec (hbare : ∀ q, t.child q = 0 ∧ t.sibling q = 0)
    (hparent : ∀ q, t.contains q → t.parent q ≠ 0 → t.contains (t.parent q))
    (happended : ∀ p, appended p steps =
      if p = 0 then [] else t.ids.filter fun id => t.parent id = p)
    (hsorted : ∀ p, SortedLast p steps ∨ t.Ascending (appended p steps)) :
    t.SameNodes (t.linkBy steps) ∧ (∀ p, t.Ascending ((t.linkBy steps).children p)) ∧
      (t.linkBy steps).Linked fun p => if p = 0 then [] else t.sortedFamily p := by
  have hnone (p : NodeId) : t.children p = [] := by
    rw [NodeTable.children, (hbare p).1]
    rfl
  have hempty : t.Linked t.children := by
    refine ⟨fun p => ?_, fun p q hq => ?_, fun p q hq => ?_, fun p => ?_⟩ <;> rw [hnone] at *
    · exact (hbare p).1
    · simp at hq
    · simp at hq
    · exact List.nodup_nil
  have hascend (p : NodeId) : (t.ids.filter fun id => t.parent id = p).Pairwise (· < ·) :=
    t.pairwise_ids.sublist List.filter_sublist
  have hjoins : t.Joins t steps := by
    refine ⟨.refl t, hempty, fun q _ => (hbare q).2, fun p c hc => ?_, fun p => ?_⟩
    · rw [happended] at hc
      split at hc
      · simp at hc
      · rename_i hp
        obtain ⟨hc, hpar⟩ := List.mem_filter.mp hc
        have hpar : t.parent c = p := by simpa using hpar
        exact ⟨hpar ▸ hparent c (mem_ids.mp hc) (hpar ▸ hp), mem_ids.mp hc, hpar⟩
    · rw [hnone, List.nil_append, happended]
      split
      · exact List.nodup_nil
      · exact (hascend p).imp Nat.ne_of_lt
  have hfollows := follows_linkBy steps hjoins
  have hall (p : NodeId) : t.Ascending ((t.linkBy steps).children p) := by
    refine hfollows.ascending p ?_
    rw [hnone, List.nil_append]
    exact hsorted p
  refine ⟨hfollows.same, hall, ?_⟩
  have heq : (t.linkBy steps).children = fun p => if p = 0 then [] else t.sortedFamily p := by
    funext p
    have hperm := hfollows.perm p
    have hstable := hfollows.stable p
    rw [hnone, List.nil_append, happended] at hperm hstable
    by_cases hp : p = 0
    · rw [if_pos hp] at hperm ⊢
      exact List.perm_nil.mp hperm
    · rw [if_neg hp] at hperm hstable ⊢
      exact IsStableSort.unique (hascend p) ⟨hperm, hall p, hstable⟩ (.mergeSort t _)
  rw [← heq]
  exact hfollows.linked

end NodeTable

/-! ### What is noted -/

namespace Linking

open LinkStep

variable {l : Linking} {hidden : NodeId → Prop} {p q c id : NodeId}

/-- The nodes of the productions that are open. -/
def openIds (l : Linking) : List NodeId := l.frames.map (·.id)

/-- Is a node open, and are its children to be sorted when it is left? -/
def Flagged (l : Linking) (p : NodeId) : Prop := ∃ f ∈ l.frames, f.id = p ∧ f.needsSort = true

/-- The nodes that are put below a node. -/
def appended (l : Linking) (p : NodeId) : List NodeId := LinkStep.appended p l.steps.toList

/-- **Is a node in order, or to be put in order?** It is to be sorted when it is left, or there is
nothing hidden below it, or it has been left and sorted behind its last child. -/
def Settles (l : Linking) (hidden : NodeId → Prop) (p : NodeId) : Prop :=
  l.Flagged p ∨ (∀ c ∈ l.appended p, ¬hidden c) ∨ p ∉ l.openIds ∧ SortedLast p l.steps.toList

/-- **No node is forgotten**: each is in order, or to be put in order. -/
structure Fits (l : Linking) (hidden : NodeId → Prop) : Prop where
  nodup : l.openIds.Nodup
  settles : ∀ p, l.Settles hidden p

/-- What counts as hidden matters for the nodes that are put somewhere only. -/
theorem Fits.imp {hidden' : NodeId → Prop} (h : l.Fits hidden)
    (himp : ∀ p, ∀ c ∈ l.appended p, hidden' c → hidden c) : l.Fits hidden' :=
  ⟨h.nodup, fun p => (h.settles p).imp id (Or.imp (fun hs c hc hk => hs c hc (himp p c hc hk)) id)⟩

theorem appended_append (l : Linking) (p c q : NodeId) :
    (l.append p c).appended q = l.appended q ++ if p = q then [c] else [] := by
  rw [appended, append, Array.toList_push, appended_concat, ← appended]
  by_cases h : p = q <;> simp [child?, h]

theorem appended_sort (l : Linking) (p q : NodeId) : (l.sort p).appended q = l.appended q := by
  rw [appended, sort, Array.toList_push, appended_concat]
  exact List.append_nil _

theorem openIds_flag (p : NodeId) (frames : List OpenNode) :
    (flag p frames).map (·.id) = frames.map (·.id) := by
  induction frames with
  | nil => rfl
  | cons f fs ih =>
    rw [flag]
    split
    · rfl
    · rw [List.map_cons, ih, List.map_cons]

theorem openIds_markForSort (l : Linking) (p : NodeId) : (l.markForSort p).openIds = l.openIds := by
  rw [markForSort]
  split
  · exact openIds_flag p l.frames
  · rfl

theorem appended_markForSort (l : Linking) (p q : NodeId) :
    (l.markForSort p).appended q = l.appended q := by
  rw [markForSort]
  split
  · rfl
  · exact appended_sort l p q

/-- What is marked is in order, or to be put in order. -/
theorem settles_markForSort_self (l : Linking) (hidden : NodeId → Prop) (p : NodeId) :
    (l.markForSort p).Settles hidden p := by
  rw [markForSort]
  split
  · rename_i hopen
    refine .inl ?_
    have hflag (frames : List OpenNode) (h : ∃ f ∈ frames, f.id = p) :
        ∃ f ∈ flag p frames, f.id = p ∧ f.needsSort = true := by
      induction frames with
      | nil => simp at h
      | cons f fs ih =>
        rw [flag]
        split
        · exact ⟨_, List.mem_cons_self, ‹_›, rfl⟩
        · obtain ⟨g, hg, hid⟩ := h
          rcases List.mem_cons.mp hg with rfl | hg
          · contradiction
          · obtain ⟨f', hf', hf⟩ := ih ⟨g, hg, hid⟩
            exact ⟨f', List.mem_cons_of_mem _ hf', hf⟩
    exact hflag l.frames (by simpa using hopen)
  · rename_i hopen
    refine .inr (.inr ⟨?_, ?_⟩)
    · simpa [openIds, sort] using hopen
    · rw [sort, Array.toList_push]
      exact sortedLast_sort p _

/-- Another node is marked. -/
theorem Settles.markForSort (h : l.Settles hidden q) (p : NodeId) :
    (l.markForSort p).Settles hidden q := by
  by_cases hq : q = p
  · exact hq ▸ settles_markForSort_self l hidden p
  rw [Settles, appended_markForSort, openIds_markForSort]
  rcases h with ⟨f, hf, hid, hsort⟩ | h | ⟨hclosed, h⟩
  · refine .inl ?_
    rw [Linking.markForSort]
    split
    · have hkept (frames : List OpenNode) (hf : f ∈ frames) : f ∈ flag p frames := by
        induction frames with
        | nil => simp at hf
        | cons f' fs ih =>
          rw [flag]
          rcases List.mem_cons.mp hf with rfl | hf
          · rw [if_neg (hid ▸ hq)]
            exact List.mem_cons_self
          · split
            · exact List.mem_cons_of_mem _ hf
            · exact List.mem_cons_of_mem _ (ih hf)
      exact ⟨f, hkept l.frames hf, hid, hsort⟩
    · exact ⟨f, hf, hid, hsort⟩
  · exact .inr (.inl h)
  · refine .inr (.inr ⟨hclosed, ?_⟩)
    rw [Linking.markForSort]
    split
    · exact h
    · rw [sort, Array.toList_push]
      exact h.concat rfl

/-- A node is put below another one. -/
theorem Settles.append_of_ne (h : l.Settles hidden q) (hq : q ≠ p) (c : NodeId) :
    (l.append p c).Settles hidden q := by
  rw [Settles, appended_append, if_neg (Ne.symm hq), List.append_nil]
  refine h.imp id (Or.imp id fun ⟨hclosed, h⟩ => ⟨hclosed, ?_⟩)
  rw [Linking.append, Array.toList_push]
  exact h.concat (by simp [child?, Ne.symm hq])

/-- What is not hidden may be put below a node that is open. -/
theorem Settles.append_shown (h : l.Settles hidden p) (hp : p ∈ l.openIds) (hc : ¬hidden c) :
    (l.append p c).Settles hidden p := by
  rcases h with h | h | ⟨hclosed, -⟩
  · exact .inl h
  · refine .inr (.inl fun d hd => ?_)
    rw [appended_append, if_pos rfl] at hd
    rcases List.mem_append.mp hd with hd | hd
    · exact h d hd
    · rwa [List.mem_singleton.mp hd]
  · exact absurd hp hclosed

theorem Fits.append (h : l.Fits hidden) (hp : p ∈ l.openIds) (hc : ¬hidden c) :
    (l.append p c).Fits hidden := by
  refine ⟨h.nodup, fun q => ?_⟩
  by_cases hq : q = p
  · exact hq ▸ (h.settles p).append_shown hp hc
  · exact (h.settles q).append_of_ne hq c

theorem appended_enter (l : Linking) (p id q : NodeId) :
    (l.enter p id).appended q = l.appended q ++ if p = q then [id] else [] :=
  appended_append l p id q

theorem openIds_enter (l : Linking) (p id : NodeId) : (l.enter p id).openIds = id :: l.openIds :=
  rfl

/-- **A production is entered** that is not open, and has nothing below it. -/
theorem Fits.enter (h : l.Fits hidden) (hp : p ∈ l.openIds) (hc : ¬hidden id)
    (hnew : id ∉ l.openIds) (hnone : l.appended id = []) : (l.enter p id).Fits hidden := by
  refine ⟨List.nodup_cons.mpr ⟨hnew, h.nodup⟩, fun q => ?_⟩
  have hbelow : p ≠ id := fun he => hnew (he ▸ hp)
  by_cases hq : q = id
  · subst hq
    refine .inr (.inl fun c hc => ?_)
    rw [appended_enter, hnone, if_neg hbelow] at hc
    simp at hc
  · rcases (h.append hp hc).settles q with ⟨f, hf, hid, hsort⟩ | hs | ⟨hclosed, hs⟩
    · exact .inl ⟨f, List.mem_cons_of_mem _ hf, hid, hsort⟩
    · exact .inr (.inl hs)
    · refine .inr (.inr ⟨?_, hs⟩)
      rw [openIds_enter]
      exact fun hmem => (List.mem_cons.mp hmem).elim hq hclosed

theorem appended_leave (l : Linking) (q : NodeId) : l.leave.appended q = l.appended q := by
  rw [leave]
  split
  · rfl
  · split
    · exact appended_sort _ _ q
    · rfl

theorem openIds_leave (l : Linking) : l.leave.openIds = l.openIds.tail := by
  rw [leave]
  split
  · rename_i hframes
    rw [openIds, hframes]
    rfl
  · rename_i f frames hframes
    have hids : l.openIds = f.id :: frames.map (·.id) := by rw [openIds, hframes]; rfl
    rw [hids]
    dsimp only
    split <;> rfl

/-- **A production is left**: it is sorted now if it is to be. -/
theorem Fits.leave (h : l.Fits hidden) : l.leave.Fits hidden := by
  cases hframes : l.frames with
  | nil => rwa [Linking.leave, hframes]
  | cons f frames =>
    have hids : l.openIds = f.id :: frames.map (·.id) := by rw [openIds, hframes]; rfl
    have hnodup := h.nodup
    rw [hids, List.nodup_cons] at hnodup
    have htail : l.leave.openIds = frames.map (·.id) := by rw [openIds_leave, hids]; rfl
    refine ⟨htail ▸ hnodup.2, fun q => ?_⟩
    rw [Settles, appended_leave, htail]
    have hsteps (hq : SortedLast q l.steps.toList) : SortedLast q l.leave.steps.toList := by
      rw [Linking.leave, hframes]
      dsimp only
      split
      · rw [sort, Array.toList_push]
        exact hq.concat rfl
      · exact hq
    rcases h.settles q with ⟨f', hf', hid, hsort⟩ | hs | ⟨hclosed, hs⟩
    · rw [hframes] at hf'
      rcases List.mem_cons.mp hf' with rfl | hf'
      · refine .inr (.inr ⟨hid ▸ hnodup.1, ?_⟩)
        rw [Linking.leave, hframes]
        dsimp only
        rw [if_pos hsort, sort, Array.toList_push, hid]
        exact sortedLast_sort q _
      · refine .inl ⟨f', ?_, hid, hsort⟩
        rw [Linking.leave, hframes]
        dsimp only
        split <;> exact hf'
    · exact .inr (.inl hs)
    · rw [hids] at hclosed
      exact .inr (.inr ⟨fun hmem => hclosed (List.mem_cons_of_mem _ hmem), hsteps hs⟩)

/-! ### Hidden tokens -/

/-- The nodes that are made below a node, of some that are given with their parents. -/
def madeBelow (made : List (NodeId × NodeId)) (q : NodeId) : List NodeId :=
  (made.filter fun n => n.2 == q).map (·.1)

theorem drain_eq (l : Linking) (p : NodeId) (made : List (NodeId × NodeId)) : l.drain p made =
    (let below := made.filter fun n => n.2 == p
     let l := (made.filter fun n => !(n.2 == p)).foldl
      (fun l n => (l.append n.2 n.1).markForSort n.2) l
     if below.isEmpty then l
     else (below.foldl (fun l n => l.append p n.1) l).markForSort p) := by
  rw [drain, List.partition_eq_filter_filter]
  rfl

/-- Nodes that belong elsewhere are put there, and what they are put below is marked. -/
theorem beside_spec (made : List (NodeId × NodeId)) : ∀ {l : Linking}, l.Fits hidden →
    let l' := made.foldl (fun l n => (l.append n.2 n.1).markForSort n.2) l
    l'.Fits hidden ∧ l'.openIds = l.openIds ∧
      ∀ q, l'.appended q = l.appended q ++ madeBelow made q := by
  induction made with
  | nil => exact fun h => ⟨h, rfl, fun q => (List.append_nil _).symm⟩
  | cons n made ih =>
    intro l h
    have hids : ((l.append n.2 n.1).markForSort n.2).openIds = l.openIds :=
      openIds_markForSort _ _
    have hfits : ((l.append n.2 n.1).markForSort n.2).Fits hidden := by
      refine ⟨hids ▸ h.nodup, fun q => ?_⟩
      by_cases hq : q = n.2
      · subst hq
        exact settles_markForSort_self _ hidden n.2
      · exact ((h.settles q).append_of_ne hq n.1).markForSort n.2
    obtain ⟨hlast, hlastIds, happended⟩ := ih hfits
    refine ⟨hlast, hlastIds.trans hids, fun q => ?_⟩
    rw [List.foldl_cons, happended, appended_markForSort, appended_append, List.append_assoc]
    congr 1
    by_cases hq : n.2 = q <;> simp [madeBelow, hq]

/-- Nodes that belong below the open production are put there. -/
theorem below_spec (p : NodeId) (made : List (NodeId × NodeId)) : ∀ {l : Linking},
    l.openIds.Nodup → (∀ q, q ≠ p → l.Settles hidden q) →
    let l' := made.foldl (fun l n => l.append p n.1) l
    l'.openIds = l.openIds ∧ (∀ q, q ≠ p → l'.Settles hidden q) ∧
      ∀ q, l'.appended q = l.appended q ++ if p = q then made.map (·.1) else [] := by
  induction made with
  | nil => exact fun _ h => ⟨rfl, h, fun q => by simp⟩
  | cons n made ih =>
    intro l hnodup h
    obtain ⟨hids, hsettles, happended⟩ := ih (l := l.append p n.1) hnodup
      fun q hq => (h q hq).append_of_ne hq n.1
    refine ⟨hids, hsettles, fun q => ?_⟩
    rw [List.foldl_cons, happended, appended_append, List.append_assoc]
    congr 1
    by_cases hq : p = q <;> simp [hq]

/-- **Hidden tokens that come together** are put below their parents, each of which is marked. -/
theorem drain_spec (h : l.Fits hidden) (p : NodeId) (made : List (NodeId × NodeId)) :
    (l.drain p made).Fits hidden ∧ (l.drain p made).openIds = l.openIds ∧
      ∀ q, (l.drain p made).appended q = l.appended q ++ madeBelow made q := by
  rw [drain_eq]
  dsimp only
  obtain ⟨hfits, hids, happended⟩ := beside_spec (made.filter fun n => !(n.2 == p)) h
  generalize (made.filter fun n => !(n.2 == p)).foldl _ l = l₁ at *
  have hother (q : NodeId) (hq : q ≠ p) :
      madeBelow (made.filter fun n => !(n.2 == p)) q = madeBelow made q := by
    rw [madeBelow, madeBelow, List.filter_filter]
    congr 1
    refine List.filter_congr fun n _ => ?_
    by_cases hn : n.2 = q <;> simp [hn, hq]
  have hself : madeBelow (made.filter fun n => !(n.2 == p)) p = [] := by
    rw [madeBelow, List.filter_filter, List.map_eq_nil_iff, List.filter_eq_nil_iff]
    simp
  have hbelow : madeBelow made p = (made.filter fun n => n.2 == p).map (·.1) := rfl
  split
  · rename_i hnone
    refine ⟨hfits, hids, fun q => ?_⟩
    rw [happended]
    by_cases hq : q = p
    · rw [hq, hself, hbelow, List.isEmpty_iff.mp hnone]
      rfl
    · rw [hother q hq]
  · obtain ⟨hids', hsettles, happended'⟩ := below_spec p (made.filter fun n => n.2 == p)
      hfits.nodup fun q _ => hfits.settles q
    generalize (made.filter fun n => n.2 == p).foldl _ l₁ = l₂ at *
    have hmarked : (l₂.markForSort p).openIds = l.openIds :=
      (openIds_markForSort l₂ p).trans (hids'.trans hids)
    refine ⟨⟨hmarked ▸ h.nodup, fun q => ?_⟩, hmarked, fun q => ?_⟩
    · by_cases hq : q = p
      · exact hq ▸ settles_markForSort_self l₂ hidden p
      · exact (hsettles q hq).markForSort p
    · rw [appended_markForSort, happended', happended, List.append_assoc]
      by_cases hq : q = p
      · rw [hq, hself, if_pos rfl, hbelow, List.nil_append]
      · rw [hother q hq, if_neg (Ne.symm hq), List.append_nil]

end Linking

/-! ### What is noted while nodes are made -/

namespace Growth

open Linking

variable {s : GrowthSource} {g g' g'' : Growth} {n : Node} {more : List Node} {p q : NodeId}

/-- Is a number that of a node, of so many? -/
def Among (count : Nat) (p : NodeId) : Prop := p ≠ 0 ∧ p ≤ count

theorem Among.mono {count count' : Nat} (h : Among count p) (hle : count ≤ count') :
    Among count' p := ⟨h.1, Nat.le_trans h.2 hle⟩

/-- **The invariant of linking**: below each node stands its family, in the order of the numbers,
and no node is forgotten. -/
structure Linkable (s : GrowthSource) (g : Growth) : Prop where
  fits : g.links.Fits fun c => ((g.table s).kind c).isTrivia = true
  appended : ∀ p, g.links.appended p =
    if p = 0 then [] else (g.table s).ids.filter fun q => (g.table s).parent q = p
  opened : ∀ id ∈ g.links.openIds, Among g.nodes.size id
  marks : ∀ mark ∈ g.openMarks, Among g.nodes.size mark.parent
  parents : ∀ n ∈ g.nodes, n.parent ≤ g.nodes.size
  bare : ∀ n ∈ g.nodes, n.child = 0 ∧ n.sibling = 0

/-- More nodes are made below some of so many, and nothing is noted yet. -/
structure Makes (count : Nat) (g g' : Growth) (more : List Node) : Prop where
  nodes : g'.nodes = g.nodes ++ more.toArray
  links : g'.links = g.links
  marks : ∀ mark ∈ g'.openMarks, Among count mark.parent
  bare : ∀ n ∈ more, n.child = 0 ∧ n.sibling = 0
  parent : ∀ n ∈ more, Among count n.parent

section Hidden

variable {count : Nat}

theorem Makes.trans {more' : List Node} (h : Makes count g g' more)
    (h' : Makes count g' g'' more') : Makes count g g'' (more ++ more') where
  nodes := by rw [h'.nodes, h.nodes, Array.append_assoc, ← List.append_toArray]
  links := h'.links.trans h.links
  marks := h'.marks
  bare n hn := (List.mem_append.mp hn).elim (h.bare n) (h'.bare n)
  parent n hn := (List.mem_append.mp hn).elim (h.parent n) (h'.parent n)

theorem makes_none (hn : g'.nodes = g.nodes) (hl : g'.links = g.links)
    (hm : ∀ mark ∈ g'.openMarks, Among count mark.parent) : Makes count g g' [] :=
  ⟨by simp [hn], hl, hm, by simp, by simp⟩

theorem makes_one (hn : g'.nodes = g.nodes.push n) (hl : g'.links = g.links)
    (hm : ∀ mark ∈ g'.openMarks, Among count mark.parent) (hbare : n.child = 0 ∧ n.sibling = 0)
    (hp : Among count n.parent) : Makes count g g' [n] :=
  ⟨by simp [hn], hl, hm, by simpa using hbare, by simpa using hp⟩

theorem makes_addHidden (hp : Among count p)
    (hm : ∀ mark ∈ g.openMarks, Among count mark.parent) :
    ∃ more, Makes count g (g.addHidden s p) more := by
  unfold addHidden
  simp only
  split
  · exact ⟨_, makes_none rfl rfl hm⟩
  · split
    case h_1 | h_2 =>
      split
      · exact ⟨_, makes_one rfl rfl hm ⟨rfl, rfl⟩ hp⟩
      · exact ⟨_, makes_none rfl rfl hm⟩
    case h_3 | h_4 => exact ⟨_, makes_one rfl rfl hm ⟨rfl, rfl⟩ hp⟩
    case h_5 =>
      split
      · exact ⟨_, makes_none rfl rfl hm⟩
      · exact ⟨_, makes_one rfl rfl (List.forall_mem_cons.mpr ⟨hp, hm⟩) ⟨rfl, rfl⟩ hp⟩
    case h_6 =>
      split
      · exact ⟨_, makes_none rfl rfl hm⟩
      · rename_i mark marks hmarks
        rw [hmarks, List.forall_mem_cons] at hm
        exact ⟨_, makes_one rfl rfl hm.2 ⟨rfl, rfl⟩ hm.1⟩
    case h_7 => exact ⟨_, makes_none rfl rfl hm⟩

theorem makes_addHiddens (hp : Among count p)
    (hm : ∀ mark ∈ g.openMarks, Among count mark.parent) (tokens : Nat) :
    ∃ more, Makes count g (g.addHiddens s tokens p) more := by
  rw [addHiddens]
  generalize List.range tokens = js
  induction js generalizing g with
  | nil => exact ⟨[], makes_none rfl rfl hm⟩
  | cons _ js ih =>
    obtain ⟨first, hfirst⟩ := makes_addHidden (s := s) hp hm
    obtain ⟨more, hmore⟩ := ih hfirst.marks
    exact ⟨_, hfirst.trans hmore⟩

end Hidden

/-- The nodes that have been made are those that are new. -/
theorem madeSince_eq (hn : g'.nodes = g.nodes ++ more.toArray) : g'.madeSince g.nodes.size =
    (more.zipIdx (g.nodes.size + 1)).map fun n => (n.2, n.1.parent) := by
  rw [madeSince, hn]
  simp

/-- **The family of a node** where there are more nodes. -/
theorem filter_ids_append (hn : g'.nodes = g.nodes ++ more.toArray) (q : NodeId) :
    ((g'.table s).ids.filter fun r => (g'.table s).parent r = q) =
      ((g.table s).ids.filter fun r => (g.table s).parent r = q) ++
        madeBelow ((more.zipIdx (g.nodes.size + 1)).map fun n => (n.2, n.1.parent)) q := by
  induction more generalizing g with
  | nil =>
    have hsame : g'.table s = { g.table s with elements := g'.elements } := by
      simp [table, hn]
    rw [hsame]
    exact (List.append_nil _).symm
  | cons n more ih =>
    have hfirst := filter_ids_add (t := g.table s) (n := n) fun n => decide (n.parent = q)
    have hrest := ih (g := (g.add n).2) (by rw [hn]; simp [add])
    refine hrest.trans ((congrArg (· ++ _) hfirst).trans ?_)
    rw [List.append_assoc]
    congr 1
    by_cases hq : n.parent = q <;> simp [madeBelow, hq, add, table, size]

theorem node_append (hn : g'.nodes = g.nodes ++ more.toArray) (hq : (g.table s).contains q) :
    (g'.table s).node q = (g.table s).node q := by
  obtain ⟨h0, hle⟩ := contains_iff.mp hq
  obtain ⟨i, rfl⟩ : ∃ i, q = i + 1 := Nat.exists_eq_succ_of_ne_zero h0.ne'
  have hi : i < g.nodes.size := hle
  simp [table, NodeTable.node, hn, Array.getElem?_append_left hi]

namespace Linkable

/-- What is noted of the nodes that are there says the same where there are more. -/
theorem later (h : Linkable s g) (hn : g'.nodes = g.nodes ++ more.toArray) :
    g.links.Fits fun c => ((g'.table s).kind c).isTrivia = true := by
  refine h.fits.imp fun p c hc hk => ?_
  rw [h.appended] at hc
  split at hc
  · simp at hc
  · rwa [kind, node_append hn (mem_ids.mp (List.mem_filter.mp hc).1)] at hk

/-- Nothing stands below a node that is not there. -/
theorem appended_eq_nil (h : Linkable s g) : g.links.appended (g.nodes.size + 1) = [] := by
  rw [h.appended, if_neg (Nat.succ_ne_zero _), List.filter_eq_nil_iff]
  intro q hq hparent
  obtain ⟨h0, hle⟩ := contains_iff.mp (mem_ids.mp hq)
  obtain ⟨i, rfl⟩ : ∃ i, q = i + 1 := Nat.exists_eq_succ_of_ne_zero h0.ne'
  have hi : i < g.nodes.size := hle
  have hle := h.parents _ (Array.getElem_mem hi)
  have heq : g.nodes[i].parent = g.nodes.size + 1 := by
    rw [← of_decide_eq_true hparent, parent, node_succ (t := g.table s) hi]
    rfl
  rw [heq] at hle
  exact Nat.not_succ_le_self _ hle

/-- **A production or a leaf is made** below a node that is open. -/
theorem push (h : Linkable s g) (hk : n.kind.isTrivia = false)
    (hbare : n.child = 0 ∧ n.sibling = 0) (hp : n.parent ∈ g.links.openIds)
    (hn : g'.nodes = g.nodes.push n) (hm : g'.openMarks = g.openMarks)
    (hl : g'.links = g.links.append n.parent (g.nodes.size + 1) ∨
      g'.links = g.links.enter n.parent (g.nodes.size + 1)) : Linkable s g' := by
  have hn' : g'.nodes = g.nodes ++ [n].toArray := by simp [hn]
  have hsize : g'.nodes.size = g.nodes.size + 1 := by rw [hn, Array.size_push]
  have hle : g.nodes.size ≤ g'.nodes.size := hsize ▸ Nat.le_succ _
  have hshown : ¬((g'.table s).kind (g.nodes.size + 1)).isTrivia = true := by
    simp [table, kind, NodeTable.node, hn, hk]
  have hfamily (q : NodeId) :
      g.links.appended q ++ (if n.parent = q then [g.nodes.size + 1] else []) =
        if q = 0 then [] else (g'.table s).ids.filter fun r => (g'.table s).parent r = q := by
    rw [h.appended, filter_ids_append hn' q]
    by_cases hq : q = 0
    · subst hq
      simp [(h.opened _ hp).1]
    · by_cases hnq : n.parent = q <;> simp [hq, madeBelow, hnq]
  have hmarks : ∀ mark ∈ g'.openMarks, Among g'.nodes.size mark.parent := fun mark hmark =>
    (h.marks mark (hm ▸ hmark)).mono hle
  have hparents : ∀ m ∈ g'.nodes, m.parent ≤ g'.nodes.size := fun m hmem => by
    rw [hn] at hmem
    rcases Array.mem_push.mp hmem with hmem | rfl
    · exact Nat.le_trans (h.parents m hmem) hle
    · exact ((h.opened _ hp).mono hle).2
  have hbareAll : ∀ m ∈ g'.nodes, m.child = 0 ∧ m.sibling = 0 := fun m hmem => by
    rw [hn] at hmem
    exact (Array.mem_push.mp hmem).elim (h.bare m) fun he => he ▸ hbare
  rcases hl with hl | hl
  · refine ⟨?_, fun q => ?_, fun id hid => ?_, hmarks, hparents, hbareAll⟩
    · rw [hl]
      exact (h.later hn').append hp hshown
    · rw [hl, appended_append]
      exact hfamily q
    · rw [hl] at hid
      exact (h.opened id hid).mono hle
  · refine ⟨?_, fun q => ?_, fun id hid => ?_, hmarks, hparents, hbareAll⟩
    · rw [hl]
      refine (h.later hn').enter hp hshown (fun hmem => ?_) h.appended_eq_nil
      exact Nat.not_succ_le_self _ (h.opened _ hmem).2
    · rw [hl, appended_enter]
      exact hfamily q
    · rw [hl, openIds_enter] at hid
      rcases List.mem_cons.mp hid with rfl | hid
      · exact ⟨Nat.succ_ne_zero _, hsize ▸ Nat.le_refl _⟩
      · exact (h.opened id hid).mono hle

/-- **Hidden tokens are dealt with**, those that belong below a node and those that do not. -/
theorem advance (h : Linkable s g) (hp : Among g.nodes.size p) (stop : Nat) :
    Linkable s (g.advance s stop p) ∧ (g.advance s stop p).links.openIds = g.links.openIds := by
  rw [Growth.advance]
  obtain ⟨more, hmakes⟩ := makes_addHiddens (s := s) hp h.marks
    (min stop s.marked.tokens.size - g.next)
  generalize g.addHiddens s _ p = g' at hmakes
  have hlater := h.later (s := s) hmakes.nodes
  rw [← hmakes.links] at hlater
  obtain ⟨hfits, hids, happended⟩ := drain_spec hlater p (g'.madeSince g.nodes.size)
  have hopen : (g'.relink (·.drain p (g'.madeSince g.nodes.size))).links.openIds =
      g.links.openIds := hids.trans (congrArg openIds hmakes.links)
  have hle : g.nodes.size ≤ g'.nodes.size := by rw [hmakes.nodes]; simp
  have hnodes (P : Node → Prop) (hold : ∀ n ∈ g.nodes, P n) (hnew : ∀ n ∈ more, P n) :
      ∀ n ∈ g'.nodes, P n := fun n hn => by
    rw [hmakes.nodes] at hn
    exact (Array.mem_append.mp hn).elim (hold n) fun hn => hnew n (by simpa using hn)
  refine ⟨⟨hfits, fun q => ?_, fun id hid => ?_,
    fun mark hmark => (hmakes.marks mark hmark).mono hle,
    hnodes _ (fun n hn => Nat.le_trans (h.parents n hn) hle)
      fun n hn => ((hmakes.parent n hn).mono hle).2, hnodes _ h.bare hmakes.bare⟩, hopen⟩
  · refine (happended q).trans ?_
    rw [hmakes.links, h.appended, madeSince_eq hmakes.nodes]
    refine Eq.trans ?_ (congrArg (fun ids => if q = 0 then [] else ids)
      (filter_ids_append (s := s) hmakes.nodes q)).symm
    by_cases hq : q = 0
    · -- no hidden token becomes a root
      rw [if_pos hq, if_pos hq, List.nil_append, madeBelow, List.map_eq_nil_iff,
        List.filter_eq_nil_iff]
      intro m hm
      obtain ⟨x, hx, rfl⟩ := List.mem_map.mp hm
      simpa [hq] using (hmakes.parent x.1 (List.fst_mem_of_mem_zipIdx hx)).1
    · rw [if_neg hq, if_neg hq]
  · rw [hopen] at hid
    exact (h.opened id hid).mono hle

/-- What is noted of nodes and marks says the same where these are the same. -/
theorem of_eq (h : Linkable s g) (hn : g'.nodes = g.nodes) (hm : g'.openMarks = g.openMarks)
    (hl : g'.links = g.links) : Linkable s g' := by
  cases g
  cases g'
  cases hn
  cases hm
  cases hl
  exact ⟨h.fits, h.appended, h.opened, h.marks, h.parents, h.bare⟩

theorem leave (h : Linkable s g) : Linkable s (g.relink .leave) ∧
    (g.relink .leave).links.openIds = g.links.openIds.tail := by
  have hids : (g.relink .leave).links.openIds = g.links.openIds.tail := openIds_leave g.links
  refine ⟨⟨h.fits.leave, fun q => (appended_leave g.links q).trans (h.appended q),
    fun id hid => ?_, h.marks, h.parents, h.bare⟩, hids⟩
  rw [hids] at hid
  exact h.opened id (List.mem_of_mem_tail hid)

end Linkable

theorem linkable_addLeaf (h : Linkable s g) (hp : p ∈ g.links.openIds) (production : ParseTree)
    (i : Nat) : Linkable s (g.addLeaf s p production i) ∧
      (g.addLeaf s p production i).links.openIds = g.links.openIds := by
  obtain ⟨h₁, hids⟩ := h.advance (h.opened p hp) i
  rw [← hids] at hp
  unfold addLeaf
  generalize g.advance s i p = g₁ at *
  simp only
  split
  · exact ⟨h₁.of_eq rfl rfl rfl, hids⟩
  · split
    · rename_i n hn
      have hbare : n.child = 0 ∧ n.sibling = 0 := by
        simp only [leafNode?, bind, Option.bind_eq_some_iff, Option.some.injEq, pure] at hn
        obtain ⟨_, -, _, -, _, -, rfl⟩ := hn
        exact ⟨rfl, rfl⟩
      obtain ⟨hk, rfl, -⟩ := leafNode?_eq_some hn
      exact ⟨h₁.push hk hbare hp rfl rfl (.inl rfl), hids⟩
    · exact ⟨h₁.of_eq rfl rfl rfl, hids⟩

theorem links_addProduction (s : GrowthSource) (t : ParseTree) (kind : NodeKind)
    (around : Surroundings) (g : Growth) : (g.addProduction s t kind around).2.links =
      g.links.enter around.parent (g.nodes.size + 1) := by
  have helement (g : Growth) (id : NodeId) (o : Option (Nat × String)) :
      (g.addElement s t id o).2.links = g.links := by
    unfold addElement
    split <;> rfl
  unfold addProduction
  simp only [relink, helement]
  split <;> rfl

theorem linkable_addProduction (h : Linkable s g) {around : Surroundings}
    (hp : around.parent ∈ g.links.openIds) (t : ParseTree) {kind : NodeKind}
    (hk : kind.isTrivia = false) :
    let r := g.addProduction s t kind around
    Linkable s r.2 ∧ r.2.links.openIds = r.1.parent :: g.links.openIds := by
  obtain ⟨hpar, hnodes, -, hmarks, -⟩ := addProduction_spec s t kind around g
  have hlinks := links_addProduction s t kind around g
  generalize g.addProduction s t kind around = r at *
  have hspec (first last : Option SourceToken) :
      let n := g.productionNode s kind first last around.parent
      n.kind = kind ∧ n.parent = around.parent ∧ n.child = 0 ∧ n.sibling = 0 := by
    unfold productionNode
    split <;> exact ⟨rfl, rfl, rfl, rfl⟩
  obtain ⟨hkind, hparent, hbare⟩ := hspec (t.first?.bind (s.marked.tokens[·]?))
    (t.last?.bind (s.marked.tokens[·]?))
  generalize g.productionNode s kind _ _ around.parent = n at *
  subst hkind
  refine ⟨h.push hk hbare (hparent.symm ▸ hp) hnodes hmarks (.inr (hparent.symm ▸ hlinks)), ?_⟩
  rw [hlinks, openIds_enter, hpar]

theorem linkable_leave {kind : NodeKind} (h : Linkable s g) (hg : g.leave s kind = .ok g') :
    Linkable s g' ∧ g'.links.openIds = g.links.openIds.tail := by
  unfold leave at hg
  split at hg
  · split at hg
    · cases hg
    · cases hg
      exact ⟨h.leave.1.of_eq rfl rfl rfl, h.leave.2⟩
  · cases hg
    exact h.leave

mutual

/-- **Going through a tree** keeps the invariant, and opens and closes alike. -/
theorem linkable_addTree (around : Surroundings) (production : ParseTree) :
    (t : ParseTree) → (∀ k ∈ t.kinds, k.isTrivia = false) → ∀ {g g' : Growth}, Linkable s g →
      around.parent ∈ g.links.openIds → addTree s around production t g = .ok g' →
      Linkable s g' ∧ g'.links.openIds = g.links.openIds
  | .leaf i, _, g, g', h, hp, hg => by
    rw [addTree] at hg
    cases hg
    exact linkable_addLeaf h hp production i
  | .node kind ts, hkinds, g, g', h, hp, hg => by
    have hk : kind.isTrivia = false := hkinds kind (by simp [ParseTree.kinds])
    have hks : ∀ k ∈ ParseTree.kindsAll ts, k.isTrivia = false :=
      fun k hk => hkinds k (by simp [ParseTree.kinds, hk])
    obtain ⟨h₁, hids⟩ : Linkable s (g.reach s around.parent (.node kind ts)) ∧
        (g.reach s around.parent (.node kind ts)).links.openIds = g.links.openIds := by
      rw [reach]
      split
      · exact h.advance (h.opened _ hp) _
      · exact ⟨h, rfl⟩
    have hg := cases_of_addTree hg
    generalize g.reach s around.parent (.node kind ts) = g₁ at *
    rw [← hids] at hp ⊢
    obtain ⟨-, hg⟩ | ⟨-, g₂, hg₂, hg⟩ := hg
    · exact linkable_addTrees around _ ts hks h₁ hp hg
    · obtain ⟨hr, hrids⟩ := linkable_addProduction h₁ hp (.node kind ts) hk
      generalize g₁.addProduction s (.node kind ts) kind around = r at *
      obtain ⟨h₂, hids₂⟩ := linkable_addTrees r.1 _ ts hks hr (by simp [hrids]) hg₂
      obtain ⟨h₃, hids₃⟩ := linkable_leave h₂ hg
      exact ⟨h₃, by rw [hids₃, hids₂, hrids, List.tail_cons]⟩

theorem linkable_addTrees (around : Surroundings) (production : ParseTree) :
    (ts : List ParseTree) → (∀ k ∈ ParseTree.kindsAll ts, k.isTrivia = false) →
      ∀ {g g' : Growth}, Linkable s g → around.parent ∈ g.links.openIds →
      addTrees s around production ts g = .ok g' →
      Linkable s g' ∧ g'.links.openIds = g.links.openIds
  | [], _, g, g', h, _, hg => by
    rw [addTrees] at hg
    cases hg
    exact ⟨h, rfl⟩
  | t :: ts, hkinds, g, g', h, hp, hg => by
    rw [addTrees] at hg
    obtain ⟨g₁, ht, hg⟩ := exists_of_bind hg
    obtain ⟨h₁, hids₁⟩ := linkable_addTree around production t
      (fun k hk => hkinds k (List.mem_append_left _ hk)) h hp ht
    obtain ⟨h₂, hids₂⟩ := linkable_addTrees around production ts
      (fun k hk => hkinds k (List.mem_append_right _ hk)) h₁ (hids₁ ▸ hp) hg
    exact ⟨h₂, hids₂.trans hids₁⟩

end

/-- **When all nodes are there** nothing is open, and the invariant holds. -/
theorem linkable_ofTree {kind : NodeKind} {ts : List ParseTree}
    (hkinds : ∀ k ∈ (ParseTree.node kind ts).kinds, k.isTrivia = false)
    (h : ofTree s (.node kind ts) = .ok g) : Linkable s g ∧ g.links.openIds = [] := by
  obtain ⟨g₁, hg₁, rfl⟩ := exists_of_ofTree h
  have hspec : (rootNode s kind).parent = 0 ∧ (rootNode s kind).child = 0 ∧
      (rootNode s kind).sibling = 0 := by
    rw [rootNode]
    split <;> exact ⟨rfl, rfl, rfl⟩
  have hlinks (t : ParseTree) : (addElement s t rootId none
      (({} : Growth).add (rootNode s kind)).2).2.links = {} := by
    unfold addElement
    split <;> rfl
  have hlinks := hlinks (.node kind ts)
  obtain ⟨hnodes, -, hmarks, -⟩ := addElement_spec s (.node kind ts) rootId none
    (({} : Growth).add (rootNode s kind)).2
  generalize addElement s (.node kind ts) rootId none _ = r at *
  have hroot : Linkable s r.2 := by
    have hone : r.2.nodes = #[rootNode s kind] := hnodes
    refine ⟨?_, fun p => ?_, fun id hid => ?_, ?_, ?_, ?_⟩
    · rw [hlinks]
      have hnone (p : NodeId) : ({} : Linking).appended p = [] := rfl
      exact ⟨by simp [openIds], fun p => .inr (.inl fun c hc => by simp [hnone] at hc)⟩
    · rw [hlinks]
      by_cases hp : p = 0
      · simp [hp, appended, LinkStep.appended]
      · simp [hp, appended, LinkStep.appended, table, ids, size, hone, parent, NodeTable.node,
          hspec.1, Ne.symm hp]
    · rw [hlinks] at hid
      obtain rfl : id = 1 := by simpa [openIds] using hid
      rw [hone]
      exact ⟨Nat.one_ne_zero, Nat.le_refl _⟩
    · rw [hmarks]
      simp [add]
    · simp [hone, hspec.1]
    · simpa [hone] using hspec.2
  have hopen : r.2.links.openIds = [rootId] := by rw [hlinks]; rfl
  obtain ⟨h₁, hids⟩ := linkable_addTrees ⟨rootId, r.1⟩ (.node kind ts) ts
    (fun k hk => hkinds k (by simp [ParseTree.kinds, hk])) hroot (by simp [hopen]) hg₁
  have hwithin : Among g₁.nodes.size rootId := h₁.opened rootId (by simp [hids, hopen])
  obtain ⟨h₂, hids₂⟩ := h₁.leave
  obtain ⟨h₃, hids₃⟩ := h₂.advance (p := rootId) hwithin s.marked.tokens.size
  exact ⟨h₃, by rw [hids₃, hids₂, hids, hopen]; rfl⟩

/-- **Nodes are arranged** if they are linked so that each has its family below it, in the order in
which it starts, and are what they were but for their links. -/
structure Arranged (s : GrowthSource) (g : Growth) : Prop where
  same : (g.table s).SameNodes (g.linked s)
  linked : (g.linked s).Linked fun p => if p = 0 then [] else (g.table s).sortedFamily p

/-- **The nodes of a text are arranged** when they are linked. -/
theorem arranged_ofTree {kind : NodeKind} {ts : List ParseTree} {rows : List (Nat × Nat)}
    (hkinds : ∀ k ∈ (ParseTree.node kind ts).kinds, k.isTrivia = false)
    (he : ofTree s (.node kind ts) = .ok g) (hg : Going s g rows) : Arranged s g := by
  obtain ⟨h, hopen⟩ := linkable_ofTree hkinds he
  have hbare (q : NodeId) : (g.table s).child q = 0 ∧ (g.table s).sibling q = 0 := by
    by_cases hq : (g.table s).contains q
    · obtain ⟨h0, hle⟩ := contains_iff.mp hq
      obtain ⟨i, rfl⟩ : ∃ i, q = i + 1 := Nat.exists_eq_succ_of_ne_zero h0.ne'
      have hi : i < g.nodes.size := hle
      rw [child, sibling, node_succ (t := g.table s) hi]
      exact h.bare _ (Array.getElem_mem hi)
    · rw [child, sibling, node_of_not_contains hq]
      exact ⟨rfl, rfl⟩
  have hparent (q : NodeId) (hq : (g.table s).contains q) (h0 : (g.table s).parent q ≠ 0) :
      (g.table s).contains ((g.table s).parent q) :=
    contains_iff.mpr ⟨Nat.pos_of_ne_zero h0,
      Nat.le_trans (Nat.le_of_lt (hg.parent_lt q hq)) (contains_iff.mp hq).2⟩
  have hsorted (p : NodeId) : LinkStep.SortedLast p g.links.steps.toList ∨
      (g.table s).Ascending (LinkStep.appended p g.links.steps.toList) := by
    rcases h.fits.settles p with ⟨f, hf, -⟩ | hshown | ⟨-, hlast⟩
    · rw [openIds, List.map_eq_nil_iff] at hopen
      simp [hopen] at hf
    · -- what is not hidden starts in the order of the numbers
      refine .inr ?_
      have happended := h.appended p
      rw [Linking.appended] at happended hshown
      rw [happended] at hshown ⊢
      split
      · exact .nil
      · rename_i hp
        rw [if_neg hp] at hshown
        refine List.Pairwise.imp_of_mem (fun {a b} ha hb hab => ?_)
          ((g.table s).pairwise_ids.sublist List.filter_sublist)
        exact hg.sorted a b (mem_ids.mp (List.mem_filter.mp ha).1)
          (mem_ids.mp (List.mem_filter.mp hb).1) (Nat.le_of_lt hab)
          (by simpa using hshown a ha) (by simpa using hshown b hb)
    · exact .inl hlast
  obtain ⟨hsame, hascending, hlinked⟩ := linkBy_spec hbare hparent h.appended hsorted
  have heq : g.linked s = (g.table s).linkBy g.links.steps.toList := by
    refine sortChildren_of_ascending (t := (g.table s).linkBy g.links.steps.toList) ?_
    rw [Ascending, hsame.begins_eq]
    exact hascending _
  exact ⟨heq.symm ▸ hsame, heq.symm ▸ hlinked⟩

-- The comment is met when the arguments, none, have been made: it is put behind them, and to where
-- it stands when the call is left.
example :
    (do
      let marked ← (MarkedText.ofText
        { file := none, text := "initial $f(/**/);\n", nodes := { file := none, library := "work" },
          lines := {}, includes := [], macros := {}, states := [] }).toOption
      let tree ← (SourceGrammar.parse marked.tokens.toList).1
      let g ← (ofTree ⟨marked, "work", false⟩ tree).toOption
      return g.links.steps.toList.drop 4) =
    some [.append 5 6, .append 6 7, .append 5 8, .append 5 9, .sort 5] := by
  decide +kernel

end Growth

end Verilog
