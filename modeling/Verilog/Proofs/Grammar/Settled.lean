import Verilog.Proofs.Grammar.Leaves
import Verilog.Proofs.Grammar.Yields

/-!
# Where the leaves of a production end

A production may have parts without any leaf. Wherever it has leaves, though, its last part has
some: a list that may be empty is always followed by a token of the same production. So the text of
a production reaches to the end of its last part. Which grammars are of this sort is read off their
parts (`Grammar.Settles`), from what their trees have of leaves (`Grammar.bears`, `Grammar.dense`,
`Grammar.capped`), and one induction over the grammar proves it of their runs
(`Grammar.settled_run`).
-/

namespace Verilog

namespace ParseTree

/-- Has every tree some leaf? -/
def Dense (ts : List ParseTree) : Prop := ∀ t ∈ ts, t.leaves ≠ []

/-- Has the last tree some leaf, if there is a tree? -/
def Capped (ts : List ParseTree) : Prop := ∀ t ∈ ts.getLast?, t.leaves ≠ []

/-- Has the last tree some leaf, if any of them has? -/
def Settled (ts : List ParseTree) : Prop := leavesAll ts = [] ∨ Capped ts

variable {t : ParseTree} {ts us : List ParseTree}

theorem Dense.capped (h : Dense ts) : Capped ts := fun t ht => h t (List.mem_of_getLast? ht)

theorem dense_nil : Dense [] := fun _ h => nomatch h

theorem dense_append : Dense (ts ++ us) ↔ Dense ts ∧ Dense us := List.forall_mem_append

theorem capped_nil : Capped [] := fun _ h => nomatch h

theorem Capped.append (hts : Capped ts) (hus : Capped us) : Capped (ts ++ us) := by
  intro t ht
  rw [List.getLast?_append] at ht
  cases hlast : us.getLast? with
  | none => exact hts t (by simpa [hlast] using ht)
  | some u =>
    rw [hlast, Option.some_or, Option.mem_some] at ht
    exact ht ▸ hus u hlast

/-- Trees that are capped and not without leaves cap what is before them. -/
theorem Capped.append_right (hus : Capped us) (hne : leavesAll us ≠ []) : Capped (ts ++ us) := by
  have hus' : us ≠ [] := fun h => hne (by rw [h, leavesAll])
  intro t ht
  rw [List.getLast?_append, List.getLast?_eq_some_getLast hus', Option.some_or] at ht
  exact hus t ((List.getLast?_eq_some_getLast hus').trans ht)

theorem Capped.leavesAll_ne (h : Capped ts) (hne : ts ≠ []) : leavesAll ts ≠ [] := by
  have hlast := h _ (List.getLast?_eq_some_getLast hne)
  rw [← List.dropLast_append_getLast hne, leavesAll_append, leavesAll, leavesAll, List.append_nil]
  exact List.append_ne_nil_of_right_ne_nil _ hlast

theorem settled_singleton (t : ParseTree) : Settled [t] := by
  by_cases h : t.leaves = []
  · exact .inl (by rw [leavesAll, leavesAll, h, List.append_nil])
  · refine .inr fun u hu => ?_
    obtain rfl : t = u := by simpa using hu
    exact h

/-- Has a tree some leaf, and are all its nodes settled? -/
def Filled (t : ParseTree) : Prop := t.leaves ≠ [] ∧ t.Every fun _ ts => Settled ts

theorem filled_leaf (i : Nat) : (leaf i).Filled := ⟨List.cons_ne_nil _ _, trivial⟩

/-- A node around trees with leaves. -/
theorem filled_node {kind : NodeKind} (hne : ts ≠ []) (h : ∀ t ∈ ts, t.Filled) :
    (node kind ts).Filled := by
  refine ⟨?_, .inr (Dense.capped fun t ht => (h t ht).1), everyOf_iff.mpr fun t ht => (h t ht).2⟩
  obtain ⟨t, ts, rfl⟩ := List.exists_cons_of_ne_nil hne
  rw [leaves, leavesAll]
  exact List.append_ne_nil_of_left_ne_nil (h t List.mem_cons_self).1 _

/-- Where the first tree has a leaf, the others are settled, or there are none. -/
theorem Settled.capped_of_leaf (h : Settled (t :: ts)) (ht : t.leaves ≠ []) : Capped ts := by
  have hcapped : Capped (t :: ts) := h.resolve_left fun he => ht (List.append_eq_nil_iff.mp he).1
  intro u hu
  refine hcapped u ?_
  obtain ⟨v, vs, rfl⟩ := List.exists_cons_of_ne_nil (l := ts) fun he => by simp [he] at hu
  rwa [List.getLast?_cons_cons]

/-- Behind a tree without leaves the others are settled. -/
theorem Settled.tail (h : Settled (t :: ts)) : Settled ts := by
  by_cases ht : t.leaves = []
  · rcases h with h | h
    · exact .inl (List.append_eq_nil_iff.mp h).2
    · cases ts with
      | nil => exact .inl rfl
      | cons u us => exact .inr fun v hv => h v (by rwa [List.getLast?_cons_cons])
  · exact .inr (h.capped_of_leaf ht)

end ParseTree

open ParseTree

namespace Grammar

variable {κ ν : Type}

/-! ### What is read off a grammar -/

/-- Has what a grammar gives some leaf? -/
def bears : Grammar κ ν → Bool
  | token _ | tokenIn _ | ref _ => true
  | seq a b => a.bears || b.bears
  | alt a b => a.bears && b.bears
  | many least a | sepBy least _ a => least != 0 && a.bears
  | node _ a | map _ a | unlessAt _ a | retry _ a | skipTo _ _ a => a.bears
  | empty | opt _ => false

/-- Has every tree that a grammar gives some leaf? -/
def dense : Grammar κ ν → Bool
  | empty | token _ | tokenIn _ | ref _ => true
  | seq a b | alt a b => a.dense && b.dense
  | node _ a => a.bears
  | opt a | many _ a | sepBy _ _ a | map _ a | unlessAt _ a | retry _ a | skipTo _ _ a => a.dense

/-- Has the last tree that a grammar gives some leaf, if it gives a tree? -/
def capped : Grammar κ ν → Bool
  | empty | token _ | tokenIn _ | ref _ => true
  | seq a b => b.capped && (a.capped || b.bears)
  | alt a b => a.capped && b.capped
  | node _ a => a.bears
  | map _ a => a.dense
  | opt a | many _ a | sepBy _ _ a | unlessAt _ a | retry _ a | skipTo _ _ a => a.capped

/-- Is what a grammar gives settled: capped, or one tree only? -/
def settled : Grammar κ ν → Bool
  | node _ _ => true
  | a => a.capped

/-- A function that leaves the leaves where they are, and of trees with leaves makes trees with
leaves, where there is at least one of them if need be. -/
structure Regroups (f : List ParseTree → List ParseTree) (some : Bool) : Prop where
  leaves : ∀ ts, leavesAll (f ts) = leavesAll ts
  filled : ∀ ts, (some = true → ts ≠ []) → (∀ t ∈ ts, t.Filled) → ∀ t ∈ f ts, t.Filled

theorem Regroups.of_any {f : List ParseTree → List ParseTree} (h : Regroups f false) (some : Bool) :
    Regroups f some :=
  ⟨h.leaves, fun ts _ => h.filled ts fun h => absurd h Bool.false_ne_true⟩

/-- **A grammar all of whose nodes are settled**, to judge by its productions. -/
structure Settles (g : Grammar κ ν) : Prop where
  production : ∀ r ∈ g.productions, r.2.settled = true
  regrouping : ∀ r ∈ g.regrouped, Regroups r.1 r.2.bears ∧ r.2.dense = true

variable {a g : Grammar κ ν} {c next : Cursor κ} {trees ts us : List ParseTree}

theorem Settles.mono (h : g.Settles) (hp : a.productions ⊆ g.productions)
    (hr : a.regrouped ⊆ g.regrouped) : a.Settles :=
  ⟨fun r hmem => h.production r (hp hmem), fun r hmem => h.regrouping r (hr hmem)⟩

/-! ### Runs -/

/-- **What the trees of a grammar are**, where it is known of them what is read off it. -/
structure Bearing (g : Grammar κ ν) (trees : List ParseTree) : Prop where
  bears : g.bears = true → leavesAll trees ≠ []
  dense : g.dense = true → Dense trees
  capped : g.capped = true → Capped trees
  settled : EveryOf (fun _ ts => Settled ts) trees

/-- The trees of a grammar that is settled are so. -/
theorem Bearing.settled_of (h : g.Bearing trees)
    (hnode : ∀ kind a, g = node kind a → ∃ t, trees = [t]) (hg : g.settled = true) :
    Settled trees := by
  cases g with
  | node kind a =>
    obtain ⟨t, rfl⟩ := hnode kind a rfl
    exact settled_singleton t
  | _ => exact .inr (h.capped hg)

theorem bearing_leaf {i : Nat} (g : Grammar κ ν) : g.Bearing [.leaf i] := by
  have hdense : Dense [.leaf i] := fun t ht => by
    rw [List.mem_singleton.mp ht, leaves]
    exact List.cons_ne_nil _ _
  exact ⟨fun _ => by simp [leavesAll, leaves], fun _ => hdense, fun _ => hdense.capped,
    by simp [EveryOf, Every]⟩

/-- What each turn of a repetition is, the trees of all of them are. -/
theorem bearing_turns {R : Cursor κ → List ParseTree → Cursor κ → Prop}
    (hR : ∀ c ts mid, R c ts mid → a.Bearing ts) (h : Runner.Turns R c trees next) :
    (a.dense = true → Dense trees) ∧ (a.capped = true → Capped trees) ∧
      EveryOf (fun _ ts => Settled ts) trees := by
  induction h with
  | nil => exact ⟨fun _ => dense_nil, fun _ => capped_nil, by simp [EveryOf]⟩
  | cons h _ ih =>
    have hfirst := hR _ _ _ h
    exact ⟨fun hd => dense_append.mpr ⟨hfirst.dense hd, ih.1 hd⟩,
      fun hc => (hfirst.capped hc).append (ih.2.1 hc),
      everyOf_append.mpr ⟨hfirst.settled, ih.2.2⟩⟩

theorem Bearing.seq {b : Grammar κ ν} (ha : a.Bearing ts) (hb : b.Bearing us) :
    (seq a b).Bearing (ts ++ us) := by
  refine ⟨fun h => ?_, fun h => ?_, fun h => ?_, everyOf_append.mpr ⟨ha.settled, hb.settled⟩⟩
  · rw [leavesAll_append, Ne, List.append_eq_nil_iff, not_and_or]
    exact (Bool.or_eq_true_iff.mp h).imp ha.bears hb.bears
  · obtain ⟨hda, hdb⟩ := Bool.and_eq_true_iff.mp h
    exact dense_append.mpr ⟨ha.dense hda, hb.dense hdb⟩
  · obtain ⟨hcb, hor⟩ := Bool.and_eq_true_iff.mp h
    rcases Bool.or_eq_true_iff.mp hor with hca | hbb
    · exact (ha.capped hca).append (hb.capped hcb)
    · exact (hb.capped hcb).append_right (hb.bears hbb)

theorem Bearing.left (h : a.Bearing ts) (b : Grammar κ ν) : (alt a b).Bearing ts :=
  ⟨fun hb => h.bears (Bool.and_eq_true_iff.mp hb).1,
    fun hd => h.dense (Bool.and_eq_true_iff.mp hd).1,
    fun hc => h.capped (Bool.and_eq_true_iff.mp hc).1, h.settled⟩

theorem Bearing.right {b : Grammar κ ν} (a : Grammar κ ν) (h : b.Bearing ts) :
    (alt a b).Bearing ts :=
  ⟨fun hb => h.bears (Bool.and_eq_true_iff.mp hb).2,
    fun hd => h.dense (Bool.and_eq_true_iff.mp hd).2,
    fun hc => h.capped (Bool.and_eq_true_iff.mp hc).2, h.settled⟩

/-- A production may have parts without leaves before its last one. -/
theorem Bearing.node {kind : NodeKind} (ha : a.Bearing ts) (hts : Settled ts) :
    (node kind a).Bearing [.node kind ts] := by
  have hleaves (hb : a.bears = true) : Dense [.node kind ts] := fun t ht => by
    rw [List.mem_singleton.mp ht, leaves]
    exact ha.bears hb
  refine ⟨fun hb => ?_, hleaves, fun hb => (hleaves hb).capped, ⟨⟨hts, ha.settled⟩, trivial⟩⟩
  simpa [leavesAll, leaves] using ha.bears hb

theorem Bearing.map {f : List ParseTree → List ParseTree} (ha : a.Bearing ts)
    (hf : Regroups f a.bears) (hd : a.dense = true) : (map f a).Bearing (f ts) := by
  have hne (hb : a.bears = true) : ts ≠ [] := fun he => ha.bears hb (by rw [he, leavesAll])
  have hfilled := hf.filled ts hne fun t ht => ⟨ha.dense hd t ht, everyOf_iff.mp ha.settled t ht⟩
  have hall : Dense (f ts) := fun t ht => (hfilled t ht).1
  exact ⟨fun hb => hf.leaves ts ▸ ha.bears hb, fun _ => hall, fun _ => hall.capped,
    everyOf_iff.mpr fun t ht => (hfilled t ht).2⟩

/-- A node that stands for skipped tokens has leaves. -/
theorem bearing_skipped {taken : List (Nat × κ)} (hne : taken ≠ []) (g : Grammar κ ν)
    (kind : NodeKind) : g.Bearing [Runner.skipped kind taken] := by
  have hfilled : (Runner.skipped kind taken).Filled := by
    match taken with
    | [(i, _)] => exact filled_node (List.cons_ne_nil _ _) (by simp [filled_leaf])
    | (i, _) :: _ :: _ => exact filled_node (List.cons_ne_nil _ _) (by simp [filled_leaf])
  have hdense : Dense [Runner.skipped kind taken] := fun t ht =>
    List.mem_singleton.mp ht ▸ hfilled.1
  exact ⟨fun _ => by simpa [leavesAll] using hfilled.1, fun _ => hdense, fun _ => hdense.capped,
    hfilled.2, trivial⟩

variable [DecidableEq κ] {callee : ν → Runner κ}

/-- The trees of a production are one tree. -/
theorem exists_singleton_of_node {kind : NodeKind}
    (h : ((node kind a).run callee).Succeeds c trees next) : ∃ t, trees = [t] := by
  obtain ⟨ts, rfl, -⟩ := Runner.Succeeds.of_map h
  exact ⟨_, rfl⟩

/-- **What is read off a grammar holds of its runs**, if the grammars it refers to give trees that
all have leaves. -/
theorem bearing_run (hc : ∀ x c ts next, (callee x).Succeeds c ts next →
      leavesAll ts ≠ [] ∧ Dense ts ∧ EveryOf (fun _ ts => Settled ts) ts) :
    ∀ {g : Grammar κ ν}, g.Settles → ∀ c trees next, (g.run callee).Succeeds c trees next →
      g.Bearing trees := by
  intro g hg
  induction g with
  | empty =>
    intro c trees next h
    obtain ⟨rfl, -⟩ := succeeds_empty h
    exact ⟨fun hb => absurd hb Bool.false_ne_true, fun _ => dense_nil, fun _ => capped_nil,
      by simp [EveryOf]⟩
  | token k | tokenIn p =>
    intro c trees next h
    obtain ⟨i, k, -, -, rfl, -⟩ := Runner.Succeeds.of_token h
    exact bearing_leaf _
  | seq a b iha ihb =>
    intro c trees next h
    obtain ⟨ts, mid, us, hts, hus, rfl⟩ := Runner.Succeeds.of_seq h
    exact .seq
      (iha (hg.mono (List.subset_append_left _ _) (List.subset_append_left _ _)) _ _ _ hts)
      (ihb (hg.mono (List.subset_append_right _ _) (List.subset_append_right _ _)) _ _ _ hus)
  | alt a b iha ihb =>
    intro c trees next h
    rcases Runner.Succeeds.of_alt h with h | h
    · exact .left
        (iha (hg.mono (List.subset_append_left _ _) (List.subset_append_left _ _)) _ _ _ h) b
    · exact .right a
        (ihb (hg.mono (List.subset_append_right _ _) (List.subset_append_right _ _)) _ _ _ h)
  | opt a ih =>
    intro c trees next h
    rcases Runner.Succeeds.of_opt h with h | ⟨rfl, -⟩
    · have ha := ih (hg.mono (List.Subset.refl _) (List.Subset.refl _)) _ _ _ h
      exact ⟨fun h => absurd h Bool.false_ne_true, ha.dense, ha.capped, ha.settled⟩
    · exact ⟨fun h => absurd h Bool.false_ne_true, fun _ => dense_nil, fun _ => capped_nil,
        by simp [EveryOf]⟩
  | many least a ih =>
    intro c trees next h
    have ha := ih (hg.mono (List.Subset.refl _) (List.Subset.refl _))
    obtain ⟨hdense, hcapped, hsettled⟩ :=
      bearing_turns ha (Runner.Succeeds.of_many h)
    refine ⟨fun hb => ?_, hdense, hcapped, hsettled⟩
    obtain ⟨hleast, hb⟩ := Bool.and_eq_true_iff.mp hb
    obtain ⟨ts, mid, us, hts, rfl⟩ := Runner.Succeeds.first_of_many h (bne_iff_ne.mp hleast)
    rw [leavesAll_append]
    exact List.append_ne_nil_of_left_ne_nil ((ha _ _ _ hts).bears hb) _
  | sepBy least s a _ ih =>
    intro c trees next h
    have ha := ih (hg.mono (List.Subset.refl _) (List.Subset.refl _))
    have hturns : (a.dense = true → Dense trees) ∧ (a.capped = true → Capped trees) ∧
        EveryOf (fun _ ts => Settled ts) trees := by
      rcases Runner.Succeeds.of_sepBy h with ⟨rfl, -⟩ | ⟨ts, mid, us, hts, hus, rfl⟩
      · exact ⟨fun _ => dense_nil, fun _ => capped_nil, by simp [EveryOf]⟩
      · have hfirst := ha _ _ _ hts
        obtain ⟨hdense, hcapped, hsettled⟩ :=
          bearing_turns (by rintro _ _ _ ⟨_, _, _, hitem⟩; exact ha _ _ _ hitem) hus
        exact ⟨fun hd => dense_append.mpr ⟨hfirst.dense hd, hdense hd⟩,
          fun hc => (hfirst.capped hc).append (hcapped hc),
          everyOf_append.mpr ⟨hfirst.settled, hsettled⟩⟩
    refine ⟨fun hb => ?_, hturns.1, hturns.2.1, hturns.2.2⟩
    obtain ⟨hleast, hb⟩ := Bool.and_eq_true_iff.mp hb
    obtain ⟨ts, mid, us, hts, rfl⟩ := Runner.Succeeds.first_of_sepBy h (bne_iff_ne.mp hleast)
    rw [leavesAll_append]
    exact List.append_ne_nil_of_left_ne_nil ((ha _ _ _ hts).bears hb) _
  | node kind a ih =>
    intro c trees next h
    obtain ⟨ts, rfl, hts⟩ := Runner.Succeeds.of_map h
    have ha := ih (hg.mono (List.subset_cons_self _ _) (List.Subset.refl _)) _ _ _ hts
    have hsettled : Settled ts := by
      refine ha.settled_of (fun kind' b hab => ?_) (hg.production _ List.mem_cons_self)
      rw [hab] at hts
      exact exists_singleton_of_node hts
    exact ha.node hsettled
  | map f a ih =>
    intro c trees next h
    obtain ⟨ts, rfl, hts⟩ := Runner.Succeeds.of_map h
    obtain ⟨hf, hdense⟩ := hg.regrouping _ List.mem_cons_self
    exact (ih (hg.mono (List.Subset.refl _) (List.subset_cons_self _ _)) _ _ _ hts).map hf hdense
  | ref x =>
    intro c trees next h
    obtain ⟨hbears, hdense, hsettled⟩ := hc x c trees next h
    exact ⟨fun _ => hbears, fun _ => hdense, fun _ => hdense.capped, hsettled⟩
  | unlessAt stops a ih =>
    intro c trees next h
    have ha := ih (hg.mono (List.Subset.refl _) (List.Subset.refl _)) _ _ _
      (Runner.Succeeds.of_unlessAt h)
    exact ⟨ha.bears, ha.dense, ha.capped, ha.settled⟩
  | retry stops a ih =>
    intro c trees next h
    obtain ⟨-, d, -, -, h⟩ := Runner.Succeeds.of_retry h
    have ha := ih (hg.mono (List.Subset.refl _) (List.Subset.refl _)) _ _ _ h
    exact ⟨ha.bears, ha.dense, ha.capped, ha.settled⟩
  | skipTo stops kind a ih =>
    intro c trees next h
    rcases Runner.Succeeds.of_skipTo h with h | ⟨taken, hcut, -, -, rfl⟩
    · have ha := ih (hg.mono (List.Subset.refl _) (List.Subset.refl _)) _ _ _ h
      exact ⟨ha.bears, ha.dense, ha.capped, ha.settled⟩
    · exact bearing_skipped hcut.ne_nil _ kind

variable {rules : ν → Grammar κ ν}

theorem bearing_runRef (hr : ∀ x, (rules x).Settles) (hb : ∀ x, (rules x).bears = true)
    (hd : ∀ x, (rules x).dense = true) (fuel : Nat) : ∀ x c ts next,
      (runRef rules fuel x).Succeeds c ts next →
        leavesAll ts ≠ [] ∧ Dense ts ∧ EveryOf (fun _ ts => Settled ts) ts := by
  induction fuel with
  | zero =>
    intro x c ts next h
    obtain ⟨_, _, h⟩ := h
    cases h
  | succ fuel ih =>
    intro x c ts next h
    have hx := bearing_run ih (hr x) _ _ _ h
    exact ⟨hx.bears (hb x), hx.dense (hd x), hx.settled⟩

/-- **In the trees of a whole list of tokens every node is settled.** -/
theorem settled_parse (hr : ∀ x, (rules x).Settles) (hb : ∀ x, (rules x).bears = true)
    (hd : ∀ x, (rules x).dense = true) (hg : g.Settles) {tokens : List (Nat × κ)}
    (h : (parse rules g tokens).1 = some trees) : EveryOf (fun _ ts => Settled ts) trees := by
  obtain ⟨next, hrun, -⟩ := succeeds_of_parse h
  exact (bearing_run (bearing_runRef hr hb hd _) hg _ _ _ hrun).settled

end Grammar

end Verilog
