import Verilog.Proofs.Syntax.Elements

/-!
# Productions without hidden tokens

A hidden token becomes a node below the production that is open when it is dealt with. The tokens
before a production are dealt with before it is opened, so a production that is a single token, or
another production of a single token, has no comment, blank or mark below it, whatever stands around
it: all its children give the tree its shape (`NodeTable.children_of_spared`).

The proof follows the growing of the tree. In the middle of it no hidden token has gone below a
production of the kind in question, and since a closing mark goes where its opening mark went, none
of the marks that are open stands below one either (`Growth.Spares`).
-/

namespace Verilog

/-- Is a tree a single token, with nothing but productions around it? -/
inductive ParseTree.OfToken (i : Nat) : ParseTree → Prop
  | leaf : OfToken i (.leaf i)
  | node {kind : NodeKind} {t : ParseTree} (hkind : kind.isTrivia = false) (h : OfToken i t) :
      OfToken i (.node kind [t])

/-- Is a production of a kind a single token? -/
def OfOneToken (k : NodeKind) (kind : NodeKind) (ts : List ParseTree) : Prop :=
  kind = k → ∃ i t, ts = [t] ∧ t.OfToken i

theorem ParseTree.OfToken.first?_eq {i : Nat} {t : ParseTree} (h : t.OfToken i) :
    t.first? = some i := by
  induction h with
  | leaf => rfl
  | node _ _ ih => rw [first?, firstAll?, ih]

namespace Growth

variable {s : GrowthSource} {g g' : Growth} {k kind : NodeKind} {p : NodeId}

/-! ### Dealing with tokens twice -/

theorem next_addHidden (s : GrowthSource) (p : NodeId) (g : Growth) :
    (g.addHidden s p).next = g.next + 1 := by
  unfold addHidden
  simp only
  split
  · rfl
  · split
    case h_1 | h_2 => split <;> rfl
    case h_3 | h_4 => rfl
    case h_5 | h_6 => split <;> rfl
    case h_7 => rfl

theorem next_advance (s : GrowthSource) (stop : Nat) (p : NodeId) (g : Growth) :
    (g.advance s stop p).next = max g.next (min stop s.marked.tokens.size) := by
  have many (n : Nat) : (g.addHiddens s n p).next = g.next + n := by
    induction n with
    | zero => rfl
    | succ n ih => rw [addHiddens_succ, next_addHidden, ih, Nat.add_assoc]
  rw [advance, next_relink, many]
  omega

/-- Nothing is left to be done before a position that has been reached. -/
theorem advance_of_le {stop : Nat} (h : min stop s.marked.tokens.size ≤ g.next) (p : NodeId) :
    g.advance s stop p = g := by
  have hnone : g.madeSince g.nodes.size = [] := by simp [madeSince]
  rw [advance, Nat.sub_eq_zero_of_le h]
  change g.relink (·.drain p (g.madeSince g.nodes.size)) = g
  rw [hnone]
  rfl

/-! ### Where hidden tokens go -/

/-- Is there a node with a number, and of another kind? -/
def IsOther (k : NodeKind) (g : Growth) (p : NodeId) : Prop :=
  ∃ i n, p = i + 1 ∧ g.nodes[i]? = some n ∧ n.kind ≠ k

theorem IsOther.mono (h : IsOther k g p)
    (hn : ∀ (i : Nat) (n : Node), g.nodes[i]? = some n → g'.nodes[i]? = some n) :
    IsOther k g' p := by
  obtain ⟨i, n, hp, hi, hk⟩ := h
  exact ⟨i, n, hp, hn i n hi, hk⟩

/-- **Productions of a kind are spared**: no hidden token has gone below one, and no mark that is
open stands below one. -/
structure Spares (k : NodeKind) (g : Growth) : Prop where
  nodes : ∀ n ∈ g.nodes, n.kind.isTrivia = true → IsOther k g n.parent
  marks : ∀ mark ∈ g.openMarks, IsOther k g mark.parent

namespace Spares

/-- The invariant speaks of nodes and marks alone. -/
theorem of_eq (h : Spares k g) (hn : g'.nodes = g.nodes) (hm : g'.openMarks = g.openMarks) :
    Spares k g' := by
  cases g
  cases g'
  cases hn
  cases hm
  exact ⟨h.nodes, h.marks⟩

/-- A node more. Of the marks that were open some may be closed, and one may be opened. -/
theorem push (h : Spares k g) {n : Node} (hn : g'.nodes = g.nodes.push n)
    (hp : n.kind.isTrivia = true → IsOther k g n.parent)
    (hm : ∀ mark ∈ g'.openMarks, IsOther k g mark.parent) : Spares k g' := by
  have hother {q : NodeId} (hq : IsOther k g q) : IsOther k g' q := by
    refine hq.mono fun i m hi => ?_
    have hlt := (Array.getElem?_eq_some_iff.mp hi).1
    rwa [hn, Array.getElem?_push, if_neg (Nat.ne_of_lt hlt)]
  refine ⟨fun m hmem hk => ?_, fun mark hmark => hother (hm mark hmark)⟩
  rw [hn] at hmem
  rcases Array.mem_push.mp hmem with hmem | rfl
  · exact hother (h.nodes m hmem hk)
  · exact hother (hp hk)

end Spares

theorem spares_addHidden (h : Spares k g) (hp : IsOther k g p) : Spares k (g.addHidden s p) := by
  have hg : Spares k { g with next := g.next + 1 } := h.of_eq rfl rfl
  unfold addHidden
  simp only
  split
  · exact hg
  · split
    case h_1 | h_2 =>
      split
      · exact h.push rfl (fun _ => hp) h.marks
      · exact hg
    case h_3 | h_4 => exact h.push rfl (fun _ => hp) h.marks
    case h_5 =>
      split
      · exact hg
      · exact h.push rfl (fun _ => hp) (List.forall_mem_cons.mpr ⟨hp, h.marks⟩)
    case h_6 =>
      split
      · exact hg
      · rename_i mark marks hmarks
        -- a closing mark goes where the mark that it closes stands
        have hall := h.marks
        rw [hmarks, List.forall_mem_cons] at hall
        exact h.push rfl (fun _ => hall.1) hall.2
    case h_7 => exact hg

theorem spares_advance (h : Spares k g) (hp : IsOther k g p) (stop : Nat) :
    Spares k (g.advance s stop p) := by
  have hall : Spares k (g.addHiddens s (min stop s.marked.tokens.size - g.next) p) := by
    rw [addHiddens]
    generalize List.range _ = js
    induction js generalizing g with
    | nil => exact h
    | cons _ js ih => exact ih (spares_addHidden h hp) (hp.mono (adds_addHidden s p g).nodes)
  exact hall.of_eq rfl rfl

/-- A leaf is no hidden token, so it may go anywhere. -/
theorem spares_addLeaf {i : Nat} (h : Spares k (g.advance s i p)) (production : ParseTree) :
    Spares k (g.addLeaf s p production i) := by
  unfold addLeaf
  generalize g.advance s i p = g₁ at h
  simp only
  split
  · exact h.of_eq rfl rfl
  · split
    · rename_i n hn
      refine h.push rfl (fun hk => ?_) h.marks
      rw [(leafNode?_eq_some hn).1] at hk
      cases hk
    · exact h.of_eq rfl rfl

theorem spares_leave (h : Spares k g) (hg : g.leave s kind = .ok g') : Spares k g' := by
  unfold leave at hg
  split at hg
  · split at hg
    · cases hg
    · cases hg
      exact h.of_eq rfl rfl
  · cases hg
    exact h.of_eq rfl rfl

/-- A production is opened below a node of another kind. -/
theorem spares_addProduction (h : Spares k g) (t : ParseTree) (kind : NodeKind)
    {around : Surroundings}
    (hp : IsOther k g around.parent) : Spares k (g.addProduction s t kind around).2 := by
  obtain ⟨-, hnodes, -, hmarks, -⟩ := addProduction_spec s t kind around g
  refine h.push hnodes (fun _ => ?_) (hmarks ▸ h.marks)
  have hparent (first last : Option SourceToken) :
      (g.productionNode s kind first last around.parent).parent = around.parent := by
    unfold productionNode
    split <;> rfl
  rw [hparent]
  exact hp

/-- What stands in a production of another kind stands below a node of another kind. -/
theorem isOther_addProduction (g : Growth) (t : ParseTree) (hk : kind ≠ k) (around : Surroundings) :
    IsOther k (g.addProduction s t kind around).2 (g.addProduction s t kind around).1.parent := by
  obtain ⟨hpar, hnodes, -⟩ := addProduction_spec s t kind around g
  refine ⟨g.nodes.size, _, hpar, by rw [hnodes, Array.getElem?_push_size], ?_⟩
  unfold productionNode
  split <;> exact hk

/-- Below a single token nothing hidden is met any more, once all before it has been dealt with. -/
theorem spares_addTree_ofToken {i : Nat} {t : ParseTree} (ht : t.OfToken i) :
    ∀ (around : Surroundings) (production : ParseTree) {g g' : Growth}, Spares k g →
      min i s.marked.tokens.size ≤ g.next → addTree s around production t g = .ok g' →
      Spares k g' := by
  induction ht with
  | leaf =>
    intro around production g g' h hnext hg
    rw [addTree] at hg
    cases hg
    refine spares_addLeaf ?_ production
    rwa [advance_of_le hnext]
  | @node kind t hkind ht ih =>
    intro around production g g' h hnext hg
    have hreach : g.reach s around.parent (.node kind [t]) = g := by
      rw [reach, (ParseTree.OfToken.node hkind ht).first?_eq]
      exact advance_of_le hnext around.parent
    obtain ⟨-, hg⟩ | ⟨-, g₂, hg₂, hg⟩ := cases_of_addTree hg
    · rw [hreach, addTrees] at hg
      obtain ⟨g₁, ht, hg⟩ := exists_of_bind hg
      rw [addTrees] at hg
      cases hg
      exact ih _ _ h hnext ht
    · rw [hreach] at hg₂
      obtain ⟨-, hnodes, hnext', hmarks, -⟩ := addProduction_spec s (.node kind [t]) kind around g
      have hr : Spares k (g.addProduction s (.node kind [t]) kind around).2 := by
        refine h.push hnodes (fun htrivia => ?_) (hmarks ▸ h.marks)
        have hkind' (first last : Option SourceToken) :
            (g.productionNode s kind first last around.parent).kind = kind := by
          unfold productionNode
          split <;> rfl
        rw [hkind', hkind] at htrivia
        cases htrivia
      rw [addTrees] at hg₂
      obtain ⟨g₁, ht, hg₂⟩ := exists_of_bind hg₂
      rw [addTrees] at hg₂
      cases hg₂
      exact spares_leave (ih _ _ hr (hnext' ▸ hnext) ht) hg

mutual

/-- **Going through a tree** spares the productions of a kind that are single tokens. -/
theorem spares_addTree (around : Surroundings) (production : ParseTree) :
    (t : ParseTree) → t.Every (OfOneToken k) → ∀ {g g' : Growth}, Spares k g →
      IsOther k g around.parent → addTree s around production t g = .ok g' → Spares k g'
  | .leaf i, _, g, g', h, hp, hg => by
    rw [addTree] at hg
    cases hg
    exact spares_addLeaf (spares_advance h hp i) production
  | .node kind ts, hts, g, g', h, hp, hg => by
    have hg := cases_of_addTree hg
    have hreach : Spares k (g.reach s around.parent (.node kind ts)) ∧
        IsOther k (g.reach s around.parent (.node kind ts)) around.parent := by
      rw [reach]
      split
      · exact ⟨spares_advance h hp _, hp.mono (adds_advance s _ _ g).nodes⟩
      · exact ⟨h, hp⟩
    -- on the way to a production everything before its first token is dealt with
    have hnext : ∀ i t, ts = [t] → t.OfToken i →
        min i s.marked.tokens.size ≤ (g.reach s around.parent (.node kind ts)).next := by
      rintro i t rfl ht
      have hfirst : (ParseTree.node kind [t]).first? = some i := by
        rw [ParseTree.first?, ParseTree.firstAll?, ht.first?_eq]
      rw [reach, hfirst]
      exact Nat.le_trans (Nat.le_max_right _ _) (Nat.le_of_eq
        (next_advance s i around.parent g).symm)
    generalize g.reach s around.parent (.node kind ts) = g₁ at hg hreach hnext
    obtain ⟨h₁, hp₁⟩ := hreach
    obtain ⟨-, hg⟩ | ⟨-, g₂, hg₂, hg⟩ := hg
    · exact spares_addTrees around _ ts hts.2 h₁ hp₁ hg
    · have hr := spares_addProduction h₁ (.node kind ts) kind hp₁ (s := s)
      have hnext₁ := (addProduction_spec s (.node kind ts) kind around g₁).2.2.1
      have hother (hk : kind ≠ k) := isOther_addProduction g₁ (.node kind ts) hk around (s := s)
      generalize g₁.addProduction s (.node kind ts) kind around = r at hg₂ hr hnext₁ hother
      refine spares_leave ?_ hg
      by_cases hk : kind = k
      · -- The tokens before the only leaf have been dealt with on the way here.
        obtain ⟨i, t, rfl, ht⟩ := hts.1 hk
        rw [addTrees] at hg₂
        obtain ⟨g₃, hg₃, hg₂⟩ := exists_of_bind hg₂
        rw [addTrees] at hg₂
        cases hg₂
        exact spares_addTree_ofToken ht _ _ hr (hnext₁ ▸ hnext i t rfl ht) hg₃
      · exact spares_addTrees r.1 _ ts hts.2 hr (hother hk) hg₂

theorem spares_addTrees (around : Surroundings) (production : ParseTree) :
    (ts : List ParseTree) → ParseTree.EveryOf (OfOneToken k) ts → ∀ {g g' : Growth}, Spares k g →
      IsOther k g around.parent → addTrees s around production ts g = .ok g' → Spares k g'
  | [], _, g, g', h, _, hg => by
    rw [addTrees] at hg
    cases hg
    exact h
  | t :: ts, hts, g, g', h, hp, hg => by
    rw [addTrees] at hg
    obtain ⟨g₁, ht, hg⟩ := exists_of_bind hg
    have hhead := spares_addTree around production t hts.1 h hp ht
    exact spares_addTrees around production ts hts.2 hhead
      (hp.mono (adds_addTree s around production t ht).nodes) hg

end

/-- The productions of a kind are spared when all nodes are there. -/
theorem spares_ofTree {ts : List ParseTree} (hkind : kind ≠ k) (htrivia : kind.isTrivia = false)
    (hts : ParseTree.EveryOf (OfOneToken k) ts) (h : ofTree s (.node kind ts) = .ok g) :
    Spares k g := by
  obtain ⟨g₁, hg₁, rfl⟩ := exists_of_ofTree h
  obtain ⟨hnodes, -, hmarks, -⟩ := addElement_spec s (.node kind ts) rootId none
    (({} : Growth).add (rootNode s kind)).2
  have hrk : (rootNode s kind).kind = kind := by
    rw [rootNode]
    split <;> rfl
  generalize addElement s (.node kind ts) rootId none _ = r at hg₁ hnodes hmarks
  have hroot : IsOther k r.2 rootId :=
    ⟨0, rootNode s kind, rfl, by rw [hnodes]; rfl, by rwa [hrk]⟩
  have hr : Spares k r.2 := by
    refine ⟨fun n hn hk => ?_, fun mark hmark => ?_⟩
    · rw [hnodes] at hn
      obtain rfl : n = rootNode s kind := by simpa [add] using hn
      rw [hrk, htrivia] at hk
      cases hk
    · rw [hmarks] at hmark
      cases hmark
  have hleft : Spares k (g₁.relink .leave) :=
    (spares_addTrees ⟨rootId, r.1⟩ _ ts hts hr hroot hg₁).of_eq rfl rfl
  refine spares_advance hleft ?_ _
  exact hroot.mono (adds_addTrees s ⟨rootId, r.1⟩ _ ts hg₁).nodes

end Growth

/-! ### The finished table -/

namespace NodeTable

variable {s : GrowthSource} {m : LocationMapper} {k : NodeKind}

/-- A syntax tree is a finished table. -/
theorem finished_syntaxTree {tree : ParseTree} {t : NodeTable} {g : Growth}
    {rows : List (Nat × Nat)} (h : syntaxTree s m tree = .ok t) (he : Growth.ofTree s tree = .ok g)
    (hg : g.Going s rows) (ha : g.Arranged s) : Finished m s.marked.text.nodes (g.table s) t := by
  rw [syntaxTree, he] at h
  obtain rfl := Except.ok.inj h
  exact (places_linked hg ha m).finished s.marked.text.nodes

section Finished

variable {g : Growth} {rows : List (Nat × Nat)} {directives v : NodeTable}
  (h : Finished m directives (g.table s) v) (hg : g.Going s rows)

include h hg

/-- What gives a finished table its shape was made for the text. -/
theorem Finished.contains_of_below {q : NodeId} (hq : v.Below v.root q) :
    (g.table s).contains q ∧ ((g.table s).kind q).isTrivia = false := by
  rw [h.root_eq hg] at hq
  induction hq with
  | root => exact hg.root
  | child _ hr ih =>
    rw [h.shape_eq hg ih.1 ih.2] at hr
    obtain ⟨hmem, hk⟩ := List.mem_filter.mp hr
    exact ⟨mem_ids.mp hmem, by simpa using (Bool.and_eq_true_iff.mp hk).2⟩

end Finished

/-- **All children of a production that is a single token give the tree its shape**, if all
productions of its kind are single tokens. -/
theorem children_of_spared {text : PreprocessedText} {tree : ParseTree} {t : NodeTable}
    (hm : MarkedText.ofText text = .ok s.marked)
    (hparse : (SourceGrammar.parse s.marked.tokens.toList).1 = some tree)
    (h : syntaxTree s m tree = .ok t) (hk : k ≠ .paTopLevelRule)
    (hevery : tree.Every (OfOneToken k))
    {id : NodeId} (hid : t.Below t.root id) (hkind : t.kind id = k) : t.children id =
    t.shape id := by
  obtain ⟨ts, g, rows, rfl, he, hg, ha, -, -⟩ := Growth.ofTree_of_parse hm hparse
  have hspares := Growth.spares_ofTree hk.symm rfl hevery.2 he
  have hf := finished_syntaxTree h he hg ha
  obtain ⟨hc, htrivia⟩ := hf.contains_of_below hg hid
  have hne : (g.table s).kind id ≠ .slPreprocBegin := fun hbegin => by
    rw [hbegin] at htrivia
    cases htrivia
  refine (List.filter_eq_self.mpr fun q hq => ?_).symm
  rw [hf.children id hc hne] at hq
  obtain ⟨hcq, hpar⟩ := mem_sortedFamily.mp hq
  rw [(hf.fields hcq).1, Bool.not_eq_true']
  by_contra hq
  obtain ⟨hq0, hqs⟩ := contains_iff.mp hcq
  obtain ⟨j, rfl⟩ := Nat.exists_eq_succ_of_ne_zero (Nat.pos_iff_ne_zero.mp hq0)
  have hnode : (g.table s).node (j + 1) = g.nodes[j] := node_succ hqs
  -- A hidden token below this node would stand below a node of another kind.
  obtain ⟨i, n, hi, hn, hother⟩ := hspares.nodes g.nodes[j] (Array.getElem_mem hqs)
    (by rwa [Bool.not_eq_false, NodeTable.kind, hnode] at hq)
  obtain rfl : id = i + 1 := by rw [← hi, ← hnode]; exact hpar.symm
  obtain ⟨hlt, rfl⟩ := Array.getElem?_eq_some_iff.mp hn
  exact hother (by rw [← hkind, (hf.fields hc).1, NodeTable.kind, node_succ hlt]; rfl)

end NodeTable

end Verilog
