import Mathlib.Data.List.Basic
import Verilog.Proofs.Grammar.Success

/-!
# What a run reads

Whatever a grammar does, its trees are made of the tokens it went past, in their order: the leaves
of the trees of a run are some of the positions between the cursor it started at and the cursor it
ended at (`Runner.Reads`). Separators and tokens that were skipped after a fault are the ones left
out. Along with that goes the one thing there is to know about the inner nodes, that their kinds
are among those the grammar names; both are stated together, since one induction over the grammar
(`Grammar.reads_run`) gives both.

The induction needs nothing of the grammar but that the functions it applies to trees, which group
operands and the like, leave the leaves where they are (`Grammar.Orderly`).
-/

namespace Verilog

namespace ParseTree

mutual

/-- The kinds of the inner nodes. -/
def kinds : ParseTree → List NodeKind
  | leaf _ => []
  | node k ts => k :: kindsAll ts

/-- The kinds of the inner nodes of a list of trees. -/
def kindsAll : List ParseTree → List NodeKind
  | [] => []
  | t :: ts => t.kinds ++ kindsAll ts

end

@[simp] theorem leavesAll_append (ts us : List ParseTree) :
    leavesAll (ts ++ us) = leavesAll ts ++ leavesAll us := by
  induction ts with
  | nil => rfl
  | cons t ts ih => simp [leavesAll, ih]

@[simp] theorem kindsAll_append (ts us : List ParseTree) :
    kindsAll (ts ++ us) = kindsAll ts ++ kindsAll us := by
  induction ts with
  | nil => rfl
  | cons t ts ih => simp [kindsAll, ih]

end ParseTree

open ParseTree

variable {κ ν : Type} {P : NodeKind → Prop}

/-! ### Runs -/

/-- **What a run that succeeds has done**: it went past some tokens, the leaves of its trees are
positions of those in their order, and the kinds of its nodes are as asked. -/
structure Cursor.Reaches (P : NodeKind → Prop) (c : Cursor κ) (trees : List ParseTree)
    (next : Cursor κ) (used : List (Nat × κ)) : Prop where
  rest : c.rest = used ++ next.rest
  offset : next.offset = c.offset + used.length
  leaves : (leavesAll trees).Sublist (used.map (·.1))
  kinds : ∀ k ∈ kindsAll trees, P k

namespace Cursor.Reaches

/-- A run that takes nothing. -/
theorem refl (P : NodeKind → Prop) (c : Cursor κ) : c.Reaches P [] c [] :=
  ⟨rfl, rfl, List.Sublist.refl _, by simp [kindsAll]⟩

/-- One run after the other. -/
theorem trans {c d e : Cursor κ} {ts us : List ParseTree} {x y : List (Nat × κ)}
    (h : c.Reaches P ts d x) (h' : d.Reaches P us e y) : c.Reaches P (ts ++ us) e (x ++ y) := by
  refine ⟨?_, ?_, ?_, ?_⟩
  · rw [h.rest, h'.rest, List.append_assoc]
  · rw [h'.offset, h.offset, List.length_append, Nat.add_assoc]
  · simpa using h.leaves.append h'.leaves
  · intro k hk
    rcases List.mem_append.mp (by simpa using hk) with hk | hk
    · exact h.kinds k hk
    · exact h'.kinds k hk

/-- Trees may be dropped from a run, and tokens be skipped by it. -/
theorem drop {c d : Cursor κ} {ts : List ParseTree} {x : List (Nat × κ)}
    (h : c.Reaches P ts d x) : c.Reaches P [] d x :=
  ⟨h.rest, h.offset, List.nil_sublist _, by simp [kindsAll]⟩

end Cursor.Reaches

/-- A way to run whose successes read what they go past. -/
def Runner.Reads (P : NodeKind → Prop) (a : Runner κ) : Prop :=
  ∀ {c recovered trees next beyond}, a c = .ok recovered trees next beyond →
    ∃ used, c.Reaches P trees next used

namespace Runner

variable {a b : Runner κ} {c next : Cursor κ} {trees : List ParseTree}

theorem Reads.reaches (ha : Reads P a) (h : a.Succeeds c trees next) :
    ∃ used, c.Reaches P trees next used := by
  obtain ⟨recovered, beyond, h⟩ := h
  exact ha h

theorem reads_iff : Reads P a ↔
    ∀ c trees next, a.Succeeds c trees next → ∃ used, c.Reaches P trees next used :=
  ⟨fun ha _ _ _ => ha.reaches, fun h _ _ _ _ _ heq => h _ _ _ ⟨_, _, heq⟩⟩

theorem reads_token (expected : List (Option κ)) (p : κ → Bool) :
    Reads P (token expected p) := by
  refine reads_iff.mpr fun c trees next h => ?_
  obtain ⟨i, k, hrest, hoffset, rfl, -⟩ := h.of_token
  exact ⟨[(i, k)], hrest, hoffset, by simp [leavesAll, leaves], by simp [kindsAll, kinds]⟩

theorem Reads.map {f : List ParseTree → List ParseTree} (ha : Reads P a)
    (hl : ∀ ts, leavesAll (f ts) = leavesAll ts)
    (hk : ∀ ts, (∀ k ∈ kindsAll ts, P k) → ∀ k ∈ kindsAll (f ts), P k) : Reads P (map f a) := by
  refine reads_iff.mpr fun c trees next h => ?_
  obtain ⟨ts, rfl, hts⟩ := h.of_map
  obtain ⟨used, hu⟩ := ha.reaches hts
  exact ⟨used, hu.rest, hu.offset, by rw [hl]; exact hu.leaves, hk _ hu.kinds⟩

/-- What holds of each turn holds of all of them together. -/
theorem reaches_turns {R : Cursor κ → List ParseTree → Cursor κ → Prop}
    (hR : ∀ c ts mid, R c ts mid → ∃ used, c.Reaches P ts mid used) (h : Turns R c trees next) :
    ∃ used, c.Reaches P trees next used := by
  induction h with
  | nil c => exact ⟨[], .refl P c⟩
  | cons h _ ih =>
    obtain ⟨x, hx⟩ := hR _ _ _ h
    obtain ⟨y, hy⟩ := ih
    exact ⟨x ++ y, hx.trans hy⟩

section Choice

variable [DecidableEq κ]

theorem Reads.seq (ha : Reads P a) (hb : Reads P b) : Reads P (seq a b) := by
  refine reads_iff.mpr fun c trees next h => ?_
  obtain ⟨ts, mid, us, hts, hus, rfl⟩ := h.of_seq
  obtain ⟨x, hx⟩ := ha.reaches hts
  obtain ⟨y, hy⟩ := hb.reaches hus
  exact ⟨x ++ y, hx.trans hy⟩

theorem Reads.alt (ha : Reads P a) (hb : Reads P b) : Reads P (alt a b) :=
  reads_iff.mpr fun _ _ _ h => h.of_alt.elim ha.reaches hb.reaches

omit [DecidableEq κ] in
theorem Reads.opt (ha : Reads P a) : Reads P (opt a) := by
  refine reads_iff.mpr fun c trees next h => ?_
  rcases h.of_opt with h | ⟨rfl, rfl⟩
  · exact ha.reaches h
  · exact ⟨[], .refl P _⟩

theorem Reads.many (ha : Reads P a) (least : Nat) : Reads P (many least a) :=
  reads_iff.mpr fun _ _ _ h => reaches_turns (fun _ _ _ => ha.reaches) h.of_many

/-- The separators are gone past, and no trees are kept of them. -/
theorem Reads.sepBy {separator : Runner κ} (hs : Reads P separator) (ha : Reads P a)
    (least : Nat) : Reads P (sepBy least separator a) := by
  refine reads_iff.mpr fun c trees next h => ?_
  rcases h.of_sepBy with ⟨rfl, rfl⟩ | ⟨ts, mid, us, hts, hus, rfl⟩
  · exact ⟨[], .refl P _⟩
  · obtain ⟨x, hx⟩ := ha.reaches hts
    obtain ⟨y, hy⟩ := reaches_turns (fun c ts next ⟨_, _, hsep, hitem⟩ => by
      obtain ⟨x, hx⟩ := hs.reaches hsep
      obtain ⟨y, hy⟩ := ha.reaches hitem
      exact ⟨x ++ y, hx.drop.trans hy⟩) hus
    exact ⟨x ++ y, hx.trans hy⟩

/-! ### Going on after a fault -/

theorem Reads.unlessAt (ha : Reads P a) (stops : List κ) : Reads P (unlessAt stops a) :=
  reads_iff.mpr fun _ _ _ h => ha.reaches h.of_unlessAt

/-- The tokens that are skipped are gone past. -/
theorem Reads.retry (ha : Reads P a) (stops : List κ) : Reads P (retry stops a) := by
  refine reads_iff.mpr fun c trees next h => ?_
  obtain ⟨skipped, d, hrest, hoffset, h⟩ := h.of_retry
  obtain ⟨used, hu⟩ := ha.reaches h
  refine ⟨skipped ++ used, ?_, ?_, ?_, hu.kinds⟩
  · rw [hrest, hu.rest, List.append_assoc]
  · rw [hu.offset, hoffset, List.length_append, Nat.add_assoc]
  · rw [List.map_append]
    exact hu.leaves.trans (List.sublist_append_right _ _)

omit [DecidableEq κ] in
theorem leaves_skipped (kind : NodeKind) (taken : List (Nat × κ)) :
    ((skipped kind taken).leaves).Sublist (taken.map (·.1)) := by
  match taken with
  | [] => simp [skipped, leaves, leavesAll]
  | [t] => simp [skipped, leaves, leavesAll]
  | t :: u :: more =>
    obtain ⟨last, hlast⟩ : ∃ last, (u :: more).getLast? = some last :=
      ⟨_, List.getLast?_eq_some_getLast (by simp)⟩
    have hmem : last.1 ∈ (u :: more).map (·.1) :=
      List.mem_map.mpr ⟨last, List.mem_of_getLast? hlast, rfl⟩
    simp only [skipped, leaves, leavesAll, hlast, Option.map_some, Option.getD_some,
      List.map_cons, List.cons_append, List.nil_append]
    exact .cons_cons _ (List.singleton_sublist.mpr (by simpa using hmem))

omit [DecidableEq κ] in
theorem kinds_skipped (kind : NodeKind) (taken : List (Nat × κ)) :
    (skipped kind taken).kinds = [kind] := by
  match taken with
  | [] => rfl
  | [_] => rfl
  | _ :: _ :: _ => rfl

theorem Reads.skipTo (ha : Reads P a) (stops : List κ) {kind : NodeKind} (hk : P kind) :
    Reads P (skipTo stops kind a) := by
  refine reads_iff.mpr fun c trees next h => ?_
  rcases h.of_skipTo with h | ⟨taken, -, hrest, hoffset, rfl⟩
  · exact ha.reaches h
  · refine ⟨taken, hrest, hoffset, ?_, ?_⟩
    · simpa [leavesAll] using leaves_skipped kind taken
    · simpa [kindsAll, kinds_skipped] using hk

end Choice

end Runner

/-! ### Grammars -/

namespace Grammar

/-- A grammar that names only kinds as asked, and applies to trees only functions that leave their
leaves alone and add only kinds as asked. -/
def Orderly (P : NodeKind → Prop) : Grammar κ ν → Prop
  | empty | token _ | tokenIn _ | ref _ => True
  | seq a b | alt a b | sepBy _ a b => a.Orderly P ∧ b.Orderly P
  | opt a | many _ a | unlessAt _ a | retry _ a => a.Orderly P
  | node kind a | skipTo _ kind a => P kind ∧ a.Orderly P
  | map f a => (∀ ts, leavesAll (f ts) = leavesAll ts) ∧
      (∀ ts, (∀ k ∈ kindsAll ts, P k) → ∀ k ∈ kindsAll (f ts), P k) ∧ a.Orderly P

section Orderly

variable {as : List (Grammar κ ν)} {a b : Grammar κ ν} {kind : NodeKind} {least : Nat}
  {stops : List κ} {x : ν}

@[simp] theorem orderly_token (k : κ) : (token k : Grammar κ ν).Orderly P := trivial

@[simp] theorem orderly_tokenIn (p : κ → Bool) : (tokenIn p : Grammar κ ν).Orderly P := trivial

@[simp] theorem orderly_ref : (ref x : Grammar κ ν).Orderly P := trivial

@[simp] theorem orderly_seq : (seq a b).Orderly P ↔ a.Orderly P ∧ b.Orderly P := Iff.rfl

@[simp] theorem orderly_alt : (alt a b).Orderly P ↔ a.Orderly P ∧ b.Orderly P := Iff.rfl

@[simp] theorem orderly_sepBy : (sepBy least a b).Orderly P ↔ a.Orderly P ∧ b.Orderly P := Iff.rfl

@[simp] theorem orderly_opt : (opt a).Orderly P ↔ a.Orderly P := Iff.rfl

@[simp] theorem orderly_many : (many least a).Orderly P ↔ a.Orderly P := Iff.rfl

@[simp] theorem orderly_node : (node kind a).Orderly P ↔ P kind ∧ a.Orderly P := Iff.rfl

theorem orderly_map {f : List ParseTree → List ParseTree} : (map f a).Orderly P ↔
    (∀ ts, leavesAll (f ts) = leavesAll ts) ∧
      (∀ ts, (∀ k ∈ kindsAll ts, P k) → ∀ k ∈ kindsAll (f ts), P k) ∧ a.Orderly P := Iff.rfl

@[simp] theorem orderly_unlessAt : (unlessAt stops a).Orderly P ↔ a.Orderly P := Iff.rfl

@[simp] theorem orderly_retry : (retry stops a).Orderly P ↔ a.Orderly P := Iff.rfl

@[simp] theorem orderly_skipTo : (skipTo stops kind a).Orderly P ↔ P kind ∧ a.Orderly P := Iff.rfl

@[simp] theorem orderly_all : (as : List (Grammar κ ν)) →
    ((all as).Orderly P ↔ ∀ a ∈ as, a.Orderly P)
  | [] => iff_of_true trivial (by simp)
  | [a] => by simp [all]
  | a :: b :: as => by
    rw [all, orderly_seq, orderly_all (b :: as), List.forall_mem_cons (a := a)]
    simp

@[simp] theorem orderly_choice : (as : List (Grammar κ ν)) →
    ((choice as).Orderly P ↔ ∀ a ∈ as, a.Orderly P)
  | [] => iff_of_true trivial (by simp)
  | [a] => by simp [choice]
  | a :: b :: as => by
    rw [choice, orderly_alt, orderly_choice (b :: as), List.forall_mem_cons (a := a)]
    simp

@[simp] theorem orderly_oneOf [DecidableEq κ] (ks : List κ) :
    (oneOf ks : Grammar κ ν).Orderly P := trivial

@[simp] theorem orderly_rule : (rule kind as).Orderly P ↔ P kind ∧ ∀ a ∈ as, a.Orderly P := by
  rw [rule, orderly_node, orderly_all]

end Orderly

variable [DecidableEq κ]

/-- **An orderly grammar reads what it goes past**, if the grammars it refers to do. -/
theorem reads_run {callee : ν → Runner κ} (hc : ∀ x, (callee x).Reads P) :
    {g : Grammar κ ν} → g.Orderly P → (g.run callee).Reads P := by
  intro g hg
  induction g with
  | empty =>
    refine Runner.reads_iff.mpr fun c trees next h => ?_
    obtain ⟨rfl, rfl⟩ := succeeds_empty h
    exact ⟨[], .refl P _⟩
  | token k => exact Runner.reads_token _ _
  | tokenIn p => exact Runner.reads_token _ _
  | seq a b iha ihb => exact Runner.Reads.seq (iha hg.1) (ihb hg.2)
  | alt a b iha ihb => exact Runner.Reads.alt (iha hg.1) (ihb hg.2)
  | opt a ih => exact Runner.Reads.opt (ih hg)
  | many least a ih => exact Runner.Reads.many (ih hg) least
  | sepBy least s a ihs iha => exact Runner.Reads.sepBy (ihs hg.1) (iha hg.2) least
  | node kind a ih =>
    refine Runner.Reads.map (ih hg.2) (fun ts => by simp [leavesAll, leaves]) fun ts hts k hk => ?_
    rcases List.mem_cons.mp (by simpa [kindsAll, kinds] using hk) with rfl | hk
    · exact hg.1
    · exact hts k hk
  | map f a ih => exact Runner.Reads.map (ih hg.2.2) hg.1 hg.2.1
  | ref x => exact hc x
  | unlessAt stops a ih => exact Runner.Reads.unlessAt (ih hg) stops
  | retry stops a ih => exact Runner.Reads.retry (ih hg) stops
  | skipTo stops kind a ih => exact Runner.Reads.skipTo (ih hg.2) stops hg.1

/-- References may be nested: a grammar that is looked up reads what it goes past. -/
theorem reads_runRef {rules : ν → Grammar κ ν} (hr : ∀ x, (rules x).Orderly P) (fuel : Nat) :
    ∀ x, (runRef rules fuel x).Reads P := by
  induction fuel with
  | zero =>
    intro x _ _ _ _ _ h
    simp [runRef] at h
  | succ fuel ih =>
    intro x c _ _ _ _ h
    exact reads_run ih (hr x) h

/-- What a production yields is one node. -/
theorem eq_node_of_parse {rules : ν → Grammar κ ν} {kind : NodeKind} {g : Grammar κ ν}
    {tokens : List (Nat × κ)} {trees : List ParseTree}
    (h : (parse rules (node kind g) tokens).1 = some trees) :
    ∃ ts, trees = [.node kind ts] := by
  obtain ⟨next, hrun, -⟩ := succeeds_of_parse h
  obtain ⟨ts, rfl, -⟩ := Runner.Succeeds.of_map hrun
  exact ⟨ts, rfl⟩

/-- **The trees of a whole list of tokens** have leaves among its positions, in their order. -/
theorem sublist_of_parse {rules : ν → Grammar κ ν} {g : Grammar κ ν} (hr : ∀ x, (rules x).Orderly P)
    (hg : g.Orderly P) {tokens : List (Nat × κ)} {trees : List ParseTree}
    (h : (parse rules g tokens).1 = some trees) :
    (leavesAll trees).Sublist (tokens.map (·.1)) ∧ ∀ k ∈ kindsAll trees, P k := by
  obtain ⟨next, hrun, -⟩ := succeeds_of_parse h
  obtain ⟨used, hu⟩ := Runner.Reads.reaches (reads_run (reads_runRef hr _) hg) hrun
  refine ⟨hu.leaves.trans ?_, hu.kinds⟩
  have hrest : tokens = used ++ next.rest := hu.rest
  rw [hrest, List.map_append]
  exact List.sublist_append_left _ _

end Grammar

end Verilog
