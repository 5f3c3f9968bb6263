import Verilog.Proofs.Node.Valid
import Verilog.Proofs.Source.Opening
import Verilog.Proofs.Syntax.Growth

/-!
# The ranges of nodes lie within each other

A production ranges from its first token to its last one, and what is put below it lies in between:
tokens that the grammar does not see are put below the innermost production that is open, so behind
its first token and before its last one. A production without tokens takes the place of the next
token that the grammar sees. That this one still belongs to the production around it is known from
the grammar: a production with tokens ends with a part that has some (`ParseTree.Settled`).

A closing mark may stand anywhere behind the production it is put below. All other nodes lie within
their parents (`Growth.Nested`).
-/

namespace Verilog

open ParseTree

/-- Is there room for a token in the range of a node? -/
structure Node.Holds (n : Node) (t : SourceToken) : Prop where
  begins : NoLater (n.line, n.column) t.begins
  ends : NoLater t.ends (n.endLine, n.endColumn)

/-- Does the range of a node lie within that of another? -/
structure Node.LiesIn (n p : Node) : Prop where
  begins : NoLater (p.line, p.column) (n.line, n.column)
  ends : NoLater (n.endLine, n.endColumn) (p.endLine, p.endColumn)

namespace MarkedText

variable {m : MarkedText} {text : PreprocessedText} {i j : Nat} {t u : SourceToken}
  (h : ofText text = .ok m) (hi : m.tokens[i]? = some t) (hj : m.tokens[j]? = some u) (hij : i ≤ j)

include h hi hj hij

/-- The tokens of a marked text end one behind the other. -/
theorem noLater_ends : NoLater t.ends u.ends := by
  obtain ⟨-, ht, -⟩ := ofText_eq h
  rw [ht, List.getElem?_toArray] at hi hj
  exact Lexicon.noLater_ends hij hi hj

theorem noLater_begins_ends : NoLater t.begins u.ends := by
  obtain ⟨-, ht, -⟩ := ofText_eq h
  rw [ht, List.getElem?_toArray] at hi hj
  exact Lexicon.noLater_tokens hij hi hj

end MarkedText

namespace Growth

variable {s : GrowthSource} {g g' g'' : Growth} {p : NodeId} {n : Node} {ts : List ParseTree}
  {leaves leaves' : List Nat}

/-- **Every node ends no earlier than it starts, and lies within its parent** unless it is a closing
mark. -/
structure Nested (g : Growth) : Prop where
  spans : ∀ n ∈ g.nodes, n.Spans
  within : ∀ n ∈ g.nodes, n.parent ≠ 0 → n.kind ≠ .slPreprocEnd →
    ∃ p, g.nodes[n.parent - 1]? = some p ∧ n.LiesIn p

/-- What growing does to nodes: they stay, and new ones lie within their parents. -/
structure Nests (g g' : Growth) : Prop where
  nodes : ∀ (i : Nat) (n : Node), g.nodes[i]? = some n → g'.nodes[i]? = some n
  nested : g.Nested → g'.Nested

namespace Nests

theorem refl (g : Growth) : Nests g g := ⟨fun _ _ => id, id⟩

theorem trans (h : Nests g g') (h' : Nests g' g'') : Nests g g'' :=
  ⟨fun i n hn => h'.nodes i n (h.nodes i n hn), fun hg => h'.nested (h.nested hg)⟩

/-- A step that leaves the nodes alone. -/
theorem of_eq (hn : g'.nodes = g.nodes) : Nests g g' :=
  ⟨fun _ _ => by rw [hn]; exact id, fun h => ⟨hn ▸ h.spans, hn ▸ h.within⟩⟩

/-- A step that adds a node. -/
theorem of_push (hn : g'.nodes = g.nodes.push n) (hs : n.Spans)
    (hp : n.parent ≠ 0 → n.kind ≠ .slPreprocEnd →
      ∃ p, g.nodes[n.parent - 1]? = some p ∧ n.LiesIn p) : Nests g g' := by
  have hkept (i : Nat) (m : Node) (hm : g.nodes[i]? = some m) : g'.nodes[i]? = some m := by
    have hlt := (Array.getElem?_eq_some_iff.mp hm).1
    rwa [hn, Array.getElem?_push, if_neg (Nat.ne_of_lt hlt)]
  refine ⟨hkept, fun h => ⟨fun m hm => ?_, fun m hm h0 hk => ?_⟩⟩ <;>
    rw [hn] at hm <;> rcases Array.mem_push.mp hm with hm | rfl
  · exact h.spans m hm
  · exact hs
  · obtain ⟨q, hq, hin⟩ := h.within m hm h0 hk
    exact ⟨q, hkept _ q hq, hin⟩
  · obtain ⟨q, hq, hin⟩ := hp h0 hk
    exact ⟨q, hkept _ q hq, hin⟩

end Nests

/-! ### Tokens that the grammar does not see -/

/-- A node that takes the place of a token lies where there is room for the token. -/
theorem nests_tokenNode {token : SourceToken} {q : Node} (hq : g.nodes[p - 1]? = some q)
    (hhold : q.Holds token) (hspan : NoLater token.begins token.ends) {kind : NodeKind}
    {name : Option String} {definition : NodeId} (hn : g'.nodes = g.nodes.push
      { tokenNode s kind token p with name, definition }) : Nests g g' :=
  .of_push hn hspan fun _ _ => ⟨q, hq, hhold.begins, hhold.ends⟩

/-- The node of a token that the grammar does not see lies within the node that is open, if there is
room for the token. -/
theorem nests_addHidden {q : Node} (hq : g.nodes[p - 1]? = some q)
    (hhold : ∀ token, s.marked.tokens[g.next]? = some token →
      q.Holds token ∧ NoLater token.begins token.ends) :
    Nests g (g.addHidden s p) ∧ (g.addHidden s p).next = g.next + 1 := by
  unfold addHidden
  simp only
  split
  · exact ⟨.of_eq rfl, rfl⟩
  · rename_i token ht
    obtain ⟨hroom, hspan⟩ := hhold token ht
    split
    case h_1 | h_2 =>
      split
      · exact ⟨nests_tokenNode hq hroom hspan rfl, rfl⟩
      · exact ⟨.of_eq rfl, rfl⟩
    case h_3 | h_4 => exact ⟨nests_tokenNode hq hroom hspan rfl, rfl⟩
    case h_5 =>
      split
      · exact ⟨.of_eq rfl, rfl⟩
      · exact ⟨nests_tokenNode hq hroom hspan rfl, rfl⟩
    case h_6 =>
      split
      · exact ⟨.of_eq rfl, rfl⟩
      · exact ⟨.of_push rfl hspan fun _ hk => absurd rfl hk, rfl⟩
    case h_7 => exact ⟨.of_eq rfl, rfl⟩

/-- **The tokens before a position** are put below a node that has room for all of them. -/
theorem nests_advance {q : Node} (hq : g.nodes[p - 1]? = some q) (stop : Nat)
    (hhold : ∀ j token, g.next ≤ j → j < stop → s.marked.tokens[j]? = some token →
      q.Holds token ∧ NoLater token.begins token.ends) :
    Nests g (g.advance s stop p) ∧
      (g.advance s stop p).next = max g.next (min stop s.marked.tokens.size) := by
  have many : ∀ (k : Nat) (g : Growth), g.nodes[p - 1]? = some q →
      (∀ j token, g.next ≤ j → j < g.next + k → s.marked.tokens[j]? = some token →
        q.Holds token ∧ NoLater token.begins token.ends) →
      Nests g (g.addHiddens s k p) ∧ (g.addHiddens s k p).next = g.next + k := by
    intro k
    induction k with
    | zero => exact fun g _ _ => ⟨.refl g, rfl⟩
    | succ k ih =>
      intro g hq hhold
      obtain ⟨hnests, hnext⟩ := ih g hq fun j token hj hlt => hhold j token hj (by omega)
      rw [addHiddens_succ]
      obtain ⟨hlast, hnext'⟩ := nests_addHidden (s := s) (hnests.nodes _ _ hq) (p := p)
        fun token ht => hhold _ token (by omega) (by omega) ht
      exact ⟨hnests.trans hlast, by rw [hnext', hnext, Nat.add_assoc]⟩
  obtain ⟨hnests, hnext⟩ := many (min stop s.marked.tokens.size - g.next) g hq
    fun j token hj hlt => hhold j token hj (by omega)
  exact ⟨hnests.trans (.of_eq rfl), hnext.trans (by omega)⟩

/-! ### Room below a node -/

/-- **What going through trees does**: new nodes lie within their parents, and no token is dealt
with that stands behind the leaves of the trees. -/
structure Laid (g g' : Growth) (leaves : List Nat) : Prop extends Nests g g' where
  next_le : g.next ≤ g'.next
  next : ∀ j, (∀ i ∈ leaves, i < j) → g.next ≤ j → g'.next ≤ j

theorem Laid.refl (g : Growth) (leaves : List Nat) : Laid g g leaves :=
  ⟨.refl g, Nat.le_refl _, fun _ _ hj => hj⟩

theorem Laid.trans (h : Laid g g' leaves) (h' : Laid g' g'' leaves') :
    Laid g g'' (leaves ++ leaves') := by
  refine ⟨h.toNests.trans h'.toNests, h.next_le.trans h'.next_le,
    fun j hj hn => h'.next j (fun i hi => ?_) (h.next j (fun i hi => ?_) hn)⟩
  · exact hj i (List.mem_append_right _ hi)
  · exact hj i (List.mem_append_left _ hi)

theorem Laid.mono (h : Laid g g' leaves) (hl : leaves ⊆ leaves') : Laid g g' leaves' :=
  ⟨h.toNests, h.next_le, fun j hj => h.next j fun i hi => hj i (hl hi)⟩

/-- Trees without leaves take no token. -/
theorem Laid.next_eq (h : Laid g g' []) : g'.next = g.next :=
  Nat.le_antisymm (h.next g.next (fun _ hi => nomatch hi) (Nat.le_refl _)) h.next_le

/-- **Is there room below a node** for trees? For all tokens up to their last leaf, and if they have
none, for the place that trees without leaves are put at. -/
structure Room (s : GrowthSource) (g : Growth) (n : Node) (ts : List ParseTree) : Prop where
  holds : ∀ i ∈ leavesAll ts, ∀ j token, g.next ≤ j → j ≤ i →
    s.marked.tokens[j]? = some token → n.Holds token
  place : leavesAll ts = [] → ts ≠ [] → NoLater (n.line, n.column) (g.emptyPlace s) ∧
    NoLater (g.emptyPlace s) (n.endLine, n.endColumn)

/-- The next token that the grammar sees stands no later than a leaf that is ahead. -/
theorem exists_emptyPlace {i : Nat} (hn : g.next ≤ i) {token : SourceToken}
    (ht : s.marked.tokens[i]? = some token) (hv : token.kind.isHidden = false) :
    ∃ j u, g.next ≤ j ∧ j ≤ i ∧ s.marked.tokens[j]? = some u ∧ g.emptyPlace s = u.begins := by
  rw [emptyPlace_eq]
  cases hfind : visibleFrom s g.next with
  | none =>
    refine absurd hv ?_
    have hnone := List.find?_eq_none.mp hfind token ?_
    · simpa using hnone
    · refine List.mem_of_getElem? (i := i - g.next) ?_
      rw [List.getElem?_drop, show g.next + (i - g.next) = i by omega]
      simpa using ht
  | some u =>
    obtain ⟨j, hj, hu, -, hall⟩ := find?_drop hfind
    refine ⟨j, u, hj, ?_, by simpa using hu, rfl⟩
    by_contra hlt
    exact hall i hn (by omega) token (by simpa using ht) (by simp [hv])

/-- Where there is room for a production there is room for its parts. -/
theorem Room.inside {kind : NodeKind} (h : Room s g n [.node kind ts]) : Room s g n ts := by
  have hleaves : leavesAll [ParseTree.node kind ts] = leavesAll ts := by
    rw [leavesAll, leavesAll, leaves, List.append_nil]
  exact ⟨fun i hi => h.holds i (hleaves ▸ hi),
    fun hl _ => h.place (hleaves.trans hl) (List.cons_ne_nil _ _)⟩

/-- There is room for trees still when tokens before them have been dealt with. -/
theorem Room.later (h : Room s g n ts) (hlaid : Laid g g' (leavesAll ts)) : Room s g' n ts := by
  refine ⟨fun i hi j token hj => h.holds i hi j token (hlaid.next_le.trans hj), fun hl hne => ?_⟩
  rw [hl] at hlaid
  rw [emptyPlace_eq, hlaid.next_eq, ← emptyPlace_eq]
  exact h.place hl hne

/-- Behind the first of some trees there is room for the others, if they are settled: where these
have no leaves, neither has the first. -/
theorem Room.tail {t : ParseTree} (h : Room s g n (t :: ts)) (hsettled : Settled (t :: ts))
    (hlaid : Laid g g' t.leaves) : Room s g' n ts := by
  refine ⟨fun i hi j token hj => ?_, fun hl hne => ?_⟩
  · exact h.holds i (List.mem_append_right _ hi) j token (hlaid.next_le.trans hj)
  · have ht : t.leaves = [] := by
      by_contra ht
      exact (hsettled.capped_of_leaf ht).leavesAll_ne hne hl
    rw [ht] at hlaid
    rw [emptyPlace_eq, hlaid.next_eq, ← emptyPlace_eq]
    exact h.place (by rw [leavesAll, ht, hl, List.append_nil]) (List.cons_ne_nil _ _)

variable {text : PreprocessedText}

section Marked

variable (hm : MarkedText.ofText text = .ok s.marked)

include hm

/-- Where there is room for trees there is room for the place ahead. -/
theorem Room.place_of_fits (h : Room s g n ts) (hne : ts ≠ [])
    (hfit : Fits s g.next (leavesAll ts)) : NoLater (n.line, n.column) (g.emptyPlace s) ∧
      NoLater (g.emptyPlace s) (n.endLine, n.endColumn) := by
  cases hl : leavesAll ts with
  | nil => exact h.place hl hne
  | cons i more =>
    have hi : i ∈ leavesAll ts := hl ▸ List.mem_cons_self
    obtain ⟨token, ht, hv⟩ := hfit.seen i hi
    obtain ⟨j, u, hj, hji, hu, hplace⟩ := exists_emptyPlace (hfit.ahead i hi) ht hv
    have hhold := h.holds i hi j u hj hji hu
    rw [hplace]
    exact ⟨hhold.begins, (MarkedText.noLater_begins_ends hm hu hu (Nat.le_refl j)).trans hhold.ends⟩

theorem Room.head {t : ParseTree} (h : Room s g n (t :: ts))
    (hfit : Fits s g.next (leavesAll (t :: ts))) : Room s g n [t] := by
  refine ⟨fun i hi => h.holds i ?_, fun _ _ => h.place_of_fits hm (List.cons_ne_nil _ _) hfit⟩
  rw [leavesAll, leavesAll, List.append_nil] at hi
  exact List.mem_append_left _ hi

/-! ### Leaves and productions -/

/-- **A leaf of a tree** lies where there is room for it. -/
theorem laid_addLeaf {i : Nat} (hn : g.nodes[p - 1]? = some n) (hfit : Fits s g.next [i])
    (hroom : Room s g n [.leaf i]) (production : ParseTree) :
    Laid g (g.addLeaf s p production i) [i] := by
  obtain ⟨token, ht, -⟩ := hfit.seen i List.mem_cons_self
  have hle := hfit.ahead i List.mem_cons_self
  have hlt := (Array.getElem?_eq_some_iff.mp ht).1
  have hhold (j : Nat) (u : SourceToken) (hj : g.next ≤ j) (hji : j ≤ i)
      (hu : s.marked.tokens[j]? = some u) : n.Holds u ∧ NoLater u.begins u.ends :=
    ⟨hroom.holds i (by simp [leavesAll, leaves]) j u hj hji hu,
      MarkedText.noLater_begins_ends hm hu hu (Nat.le_refl j)⟩
  obtain ⟨hnests, hnext⟩ := nests_advance (s := s) hn _ fun j u hj hlt => hhold j u hj hlt.le
  rw [show max g.next (min i s.marked.tokens.size) = i by omega] at hnext
  have hafter {g' : Growth} (hg' : Nests (g.advance s i p) g') (hx : g'.next = i + 1) :
      Laid g g' [i] :=
    ⟨hnests.trans hg', by omega, fun j hj _ => by
      have := hj i List.mem_cons_self
      omega⟩
  have hmax : max (g.advance s i p).next (i + 1) = i + 1 := by omega
  unfold addLeaf
  simp only [hmax]
  split
  · exact hafter (.of_eq rfl) rfl
  · cases hl : leafNode? s p production i with
    | none => exact hafter (.of_eq rfl) rfl
    | some node =>
      simp only [leafNode?, bind, Option.bind_eq_some_iff, Option.some.injEq, pure] at hl
      obtain ⟨token, ht, k, -, kind, -, rfl⟩ := hl
      obtain ⟨hin, hspan⟩ := hhold i token hle (Nat.le_refl i) ht
      exact hafter (nests_tokenNode (hnests.nodes _ _ hn) hin hspan rfl) rfl

/-- **The way to a production**: the tokens before it lie where there is room for its own. -/
theorem laid_reach {t : ParseTree} (hn : g.nodes[p - 1]? = some n)
    (hfit : Fits s g.next t.leaves) (hroom : Room s g n [t]) :
    Laid g (g.reach s p t) t.leaves ∧ Fits s (g.reach s p t).next t.leaves ∧
      ∀ i ∈ t.leaves.head?, (g.reach s p t).next = i := by
  rw [reach, t.first?_eq]
  cases hl : t.leaves with
  | nil =>
    rw [hl] at hfit
    exact ⟨.refl g _, hfit, by simp⟩
  | cons i more =>
    have hi : i ∈ t.leaves := hl ▸ List.mem_cons_self
    obtain ⟨token, ht, -⟩ := hfit.seen i hi
    have hle := hfit.ahead i hi
    have hlt := (Array.getElem?_eq_some_iff.mp ht).1
    obtain ⟨hnests, hnext⟩ := nests_advance (s := s) hn i fun j u hj hji hu =>
      ⟨hroom.holds i (by simpa [leavesAll] using hi) j u hj hji.le hu,
        MarkedText.noLater_begins_ends hm hu hu (Nat.le_refl j)⟩
    rw [show max g.next (min i s.marked.tokens.size) = i by omega] at hnext
    simp only [List.head?_cons]
    refine ⟨⟨hnests, hnext.symm ▸ hle, fun j hj _ => ?_⟩, ?_,
      fun j hj => hnext.trans (Option.some.inj hj)⟩
    · have := hj i List.mem_cons_self
      omega
    rw [hnext]
    refine ⟨hl ▸ hfit.sorted, hl ▸ hfit.seen, fun j hj => ?_⟩
    have hsorted := hfit.sorted
    rw [hl] at hsorted
    rcases List.mem_cons.mp hj with rfl | hj
    · exact Nat.le_refl _
    · exact ((List.pairwise_cons.mp hsorted).1 j hj).le

/-- **The node of a production** lies where there is room for it, and has room for its parts. -/
theorem nests_addProduction {kind : NodeKind} {around : Surroundings}
    (hn : g.nodes[around.parent - 1]? = some n) (hfit : Fits s g.next (leavesAll ts))
    (hfirst : ∀ i ∈ (leavesAll ts).head?, g.next = i)
    (hroom : Room s g n [.node kind ts]) :
    let r := g.addProduction s (.node kind ts) kind around
    Nests g r.2 ∧ r.2.next = g.next ∧
      ∃ q, r.2.nodes[r.1.parent - 1]? = some q ∧ Room s r.2 q ts := by
  obtain ⟨hpar, hnodes, hnext, -, -⟩ := addProduction_spec s (.node kind ts) kind around g
  generalize g.addProduction s (.node kind ts) kind around = r at *
  simp only [ParseTree.first?, ParseTree.last?, firstAll?_eq, lastAll?_eq] at hnodes
  have hplace : r.2.emptyPlace s = g.emptyPlace s := by rw [emptyPlace_eq, hnext, ← emptyPlace_eq]
  generalize hq : g.productionNode s kind _ _ around.parent = q at hnodes
  have hself : r.2.nodes[r.1.parent - 1]? = some q := by
    rw [hnodes, hpar, Nat.add_sub_cancel, Array.getElem?_push_size]
  have hleaves : leavesAll [ParseTree.node kind ts] = leavesAll ts := by
    rw [leavesAll, leavesAll, leaves, List.append_nil]
  cases hl : leavesAll ts with
  | nil =>
    -- the production stands at the next token that the grammar sees, and so do its parts
    rw [hl] at hq
    subst hq
    have hin := hroom.place (hleaves.trans hl) (List.cons_ne_nil _ _)
    refine ⟨.of_push hnodes (.refl _) fun _ _ => ⟨n, hn, hin.1, hin.2⟩, hnext, _, hself,
      fun i hi => ?_, fun _ _ => hplace ▸ ⟨.refl _, .refl _⟩⟩
    exact absurd (hl ▸ hi) List.not_mem_nil
  | cons i more =>
    obtain ⟨j, hj⟩ : ∃ j, (leavesAll ts).getLast? = some j :=
      ⟨_, List.getLast?_eq_some_getLast (by simp [hl])⟩
    have hi : i ∈ leavesAll ts := hl ▸ List.mem_cons_self
    have hjmem := List.mem_of_getLast? hj
    obtain ⟨first, hfirstTok, -⟩ := hfit.seen i hi
    obtain ⟨last, hlastTok, -⟩ := hfit.seen j hjmem
    have hlast (k : Nat) (hk : k ∈ leavesAll ts) : k ≤ j := by
      obtain ⟨front, hfront⟩ := List.getLast?_eq_some_iff.mp hj
      have hsorted := hfit.sorted
      rw [hfront] at hk hsorted
      rcases List.mem_append.mp hk with hk | hk
      · exact ((List.pairwise_append.mp hsorted).2.2 k hk j (List.mem_singleton_self j)).le
      · exact (List.mem_singleton.mp hk).le
    have hgi : g.next = i := hfirst i (by rw [hl]; rfl)
    rw [hj, hl, List.head?_cons, Option.bind_some, Option.bind_some, hfirstTok, hlastTok] at hq
    subst hq
    have hspan := MarkedText.noLater_begins_ends hm hfirstTok hlastTok (hlast i hi)
    have hholds (k : Nat) (hk : k ∈ leavesAll ts) := hroom.holds k (hleaves ▸ hk)
    refine ⟨.of_push hnodes hspan fun _ _ => ⟨n, hn, ?_, ?_⟩, hnext, _, hself,
      fun k hk l token hl hlk ht => ⟨?_, ?_⟩, fun he => ?_⟩
    · exact (hholds i hi i first hgi.le (Nat.le_refl i) hfirstTok).begins
    · exact (hholds j hjmem j last (hfit.ahead j hjmem) (Nat.le_refl j) hlastTok).ends
    · exact MarkedText.noLater_tokens hm hfirstTok ht (by omega)
    · exact MarkedText.noLater_ends hm ht hlastTok (hlk.trans (hlast k hk))
    · rw [hl] at he
      cases he

end Marked

theorem leave_fields (s : GrowthSource) {kind : NodeKind} (h : g.leave s kind = .ok g') :
    g'.nodes = g.nodes ∧ g'.next = g.next := by
  unfold leave at h
  split at h
  · split at h
    · cases h
    · cases h
      exact ⟨rfl, rfl⟩
  · cases h
    exact ⟨rfl, rfl⟩

mutual

/-- **Going through a tree** lays what it makes within the node it is put below. -/
theorem laid_addTree (hm : MarkedText.ofText text = .ok s.marked) (around : Surroundings)
    (production : ParseTree) : (t : ParseTree) → ∀ {g g' : Growth} {n : Node},
      addTree s around production t g = .ok g' → t.Every (fun _ ts => Settled ts) →
      g.nodes[around.parent - 1]? = some n → Fits s g.next t.leaves → Room s g n [t] →
      Laid g g' t.leaves
  | .leaf i, g, g', n, h, _, hn, hfit, hroom => by
    rw [addTree] at h
    cases h
    exact laid_addLeaf hm hn hfit hroom production
  | .node kind ts, g, g', n, h, hsettled, hn, hfit, hroom => by
    obtain ⟨hreach, hfit₁, hfirst⟩ := laid_reach hm hn hfit hroom
    have hn₁ := hreach.nodes _ _ hn
    have hroom₁ : Room s (g.reach s around.parent (.node kind ts)) n [.node kind ts] := by
      refine hroom.later ?_
      rwa [leavesAll, leavesAll, List.append_nil]
    refine (hreach.trans ?_).mono (List.append_subset.mpr ⟨List.Subset.refl _, List.Subset.refl _⟩)
    obtain ⟨-, h⟩ | ⟨-, g₂, hts, h⟩ := cases_of_addTree h
    · exact laid_addTrees hm around (.node kind ts) ts h hsettled.2 hsettled.1 hn₁ hfit₁
        hroom₁.inside
    · obtain ⟨hnests, hnext, q, hq, hroom₂⟩ := nests_addProduction hm hn₁ hfit₁ hfirst hroom₁
      have hlaid := laid_addTrees hm _ _ ts hts hsettled.2 hsettled.1 hq (hnext ▸ hfit₁) hroom₂
      obtain ⟨hnodes, hnext'⟩ := leave_fields s h
      exact ⟨hnests.trans (hlaid.toNests.trans (.of_eq hnodes)), by
        rw [hnext', ← hnext]; exact hlaid.next_le, by
        rw [hnext', ← hnext]; exact hlaid.next⟩

/-- **Going through trees** lays what it makes within the node it is put below. -/
theorem laid_addTrees (hm : MarkedText.ofText text = .ok s.marked) (around : Surroundings)
    (production : ParseTree) : (ts : List ParseTree) → ∀ {g g' : Growth} {n : Node},
      addTrees s around production ts g = .ok g' → EveryOf (fun _ ts => Settled ts) ts →
      Settled ts → g.nodes[around.parent - 1]? = some n → Fits s g.next (leavesAll ts) →
      Room s g n ts → Laid g g' (leavesAll ts)
  | [], g, g', n, h, _, _, _, _, _ => by
    rw [addTrees] at h
    cases h
    exact .refl g _
  | t :: ts, g, g', n, h, hevery, hsettled, hn, hfit, hroom => by
    rw [addTrees] at h
    obtain ⟨g₁, ht, hts⟩ := exists_of_bind h
    have hlaid := laid_addTree hm around production t ht hevery.1 hn hfit.left
      (hroom.head hm hfit)
    refine hlaid.trans (laid_addTrees hm around production ts hts hevery.2 hsettled.tail
      (hlaid.nodes _ _ hn) (hfit.right hlaid.next) (hroom.tail hsettled hlaid))

end

/-! ### Whole trees -/

/-- In the range of the root there is room for all tokens and all places. -/
theorem rootNode_holds (hm : MarkedText.ofText text = .ok s.marked) (kind : NodeKind) :
    (rootNode s kind).Spans ∧
      (∀ (j : Nat) token, s.marked.tokens[j]? = some token → (rootNode s kind).Holds token) ∧
      ∀ g : Growth, g.next = 0 →
        NoLater ((rootNode s kind).line, (rootNode s kind).column) (g.emptyPlace s) ∧
        NoLater (g.emptyPlace s) ((rootNode s kind).endLine, (rootNode s kind).endColumn) := by
  rw [rootNode]
  cases h0 : s.marked.tokens[0]? with
  | none =>
    have hempty : s.marked.tokens.size = 0 := by simpa using h0
    refine ⟨.refl _, fun j token ht => ?_, fun g hg => ?_⟩
    · have := (Array.getElem?_eq_some_iff.mp ht).1
      omega
    · have hplace : g.emptyPlace s = ({} : Growth).emptyPlace s := by
        rw [emptyPlace_eq, hg, emptyPlace_eq]
      exact hplace ▸ ⟨.refl _, .refl _⟩
  | some first =>
    have hpos := (Array.getElem?_eq_some_iff.mp h0).1
    have hback : s.marked.tokens.back? = s.marked.tokens[s.marked.tokens.size - 1]? :=
      Array.back?_eq_getElem?
    rw [Array.getElem?_eq_getElem (by omega)] at hback
    rw [hback]
    have hlast : s.marked.tokens[s.marked.tokens.size - 1]? = some _ :=
      Array.getElem?_eq_getElem (by omega)
    have hle {j : Nat} {token : SourceToken} (ht : s.marked.tokens[j]? = some token) :
        j ≤ s.marked.tokens.size - 1 := by
      have := (Array.getElem?_eq_some_iff.mp ht).1
      omega
    refine ⟨MarkedText.noLater_begins_ends hm h0 hlast (Nat.zero_le _), fun j token ht => ⟨?_, ?_⟩,
      fun g _ => ⟨noLater_emptyPlace hm h0 g, ?_⟩⟩
    · exact MarkedText.noLater_tokens hm h0 ht (Nat.zero_le j)
    · exact MarkedText.noLater_ends hm ht hlast (hle ht)
    · obtain ⟨j, u, hu, hplace⟩ := exists_token_emptyPlace h0 g
      rw [hplace]
      exact MarkedText.noLater_begins_ends hm hu hlast (hle hu)

/-- **The nodes of a whole tree lie within their parents**, if the tree is settled. -/
theorem nested_ofTree (hm : MarkedText.ofText text = .ok s.marked) {kind : NodeKind}
    (hfit : Fits s 0 (ParseTree.node kind ts).leaves)
    (hsettled : (ParseTree.node kind ts).Every fun _ ts => Settled ts)
    (h : ofTree s (.node kind ts) = .ok g) : g.Nested := by
  obtain ⟨g₁, hts, rfl⟩ := exists_of_ofTree h
  obtain ⟨hnodes, hnext, -, -⟩ := addElement_spec s (.node kind ts) rootId none
    (({} : Growth).add (rootNode s kind)).2
  obtain ⟨hspan, hhold, hplace⟩ := rootNode_holds hm kind
  generalize addElement s (.node kind ts) rootId none (({} : Growth).add (rootNode s kind)).2 = r
    at *
  have hself : r.2.nodes[rootId - 1]? = some (rootNode s kind) := by rw [hnodes]; rfl
  have hroot : Nests {} r.2 := by
    refine .of_push hnodes hspan fun h0 => absurd ?_ h0
    rw [rootNode]
    split <;> rfl
  have hlaid := laid_addTrees hm ⟨rootId, r.1⟩ (.node kind ts) ts hts hsettled.2 hsettled.1 hself
    (hnext ▸ hfit) ⟨fun _ _ j token _ _ => hhold j token, fun _ _ => hplace r.2 hnext⟩
  have hleft : Nests g₁ (g₁.relink .leave) := .of_eq rfl
  have hlast := (nests_advance (s := s) (g := g₁.relink .leave) (hlaid.nodes _ _ hself)
    s.marked.tokens.size fun j token _ _ ht =>
      ⟨hhold j token ht, MarkedText.noLater_begins_ends hm ht ht (Nat.le_refl j)⟩).1
  exact (hroot.trans (hlaid.toNests.trans (hleft.trans hlast))).nested ⟨by simp, by simp⟩

end Growth

end Verilog
