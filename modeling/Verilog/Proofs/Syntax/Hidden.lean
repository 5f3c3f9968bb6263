import Verilog.Proofs.Node.Graft
import Verilog.Proofs.Node.Sorting
import Verilog.Proofs.Syntax.MarkedText
import Verilog.Syntax.Growth

/-!
# Tokens that the grammar does not see

While nodes are made, the tokens that the grammar does not see are dealt with in the order of the
text, some before each leaf and each production. What is known in the middle of this is the
invariant `Growth.Going`: the comments, blanks and marks made so far are those of the tokens before
the next one, in their order, the marks that are open are those that the tokens leave open, and
every closing mark has been put beside its opening one.

The invariant says of the other nodes only what their order needs: each starts no earlier than
those before it, and none starts after the next token that the grammar sees.
-/

namespace Verilog

/-- The kind of node for a token that the grammar does not see, if there is to be one. -/
def triviaKind? (keepBlanks : Bool) : SourceKind → Option NodeKind
  | .whitespace | .newline => if keepBlanks then some .paWhiteSpace else none
  | .oneLineComment => some .paOneLineComment
  | .blockComment => some .paBlockComment
  | .preprocBegin => some .slPreprocBegin
  | .preprocEnd => some .slPreprocEnd
  | _ => none

theorem isTrivia_of_triviaKind? {keepBlanks : Bool} {k : SourceKind} {kind : NodeKind}
    (h : triviaKind? keepBlanks k = some kind) : kind.isTrivia = true := by
  unfold triviaKind? at h
  split at h
  case h_1 => split at h <;> cases h; rfl
  case h_2 => split at h <;> cases h; rfl
  all_goals cases h <;> rfl

namespace GrowthSource

variable (s : GrowthSource)

/-- Is there to be a node for the token at a position, though the grammar does not see it? -/
def keeps (i : Nat) : Bool :=
  ((s.marked.tokens[i]?).bind fun token => triviaKind? s.keepBlanks token.kind).isSome

/-- The positions before one at which there is a token to be kept. -/
def keptBefore (n : Nat) : List Nat := (List.range n).filter s.keeps

theorem keptBefore_succ (n : Nat) :
    s.keptBefore (n + 1) = s.keptBefore n ++ if s.keeps n then [n] else [] := by
  rw [keptBefore, List.range_succ, List.filter_append, List.filter_singleton]
  cases s.keeps n <;> rfl

/-- The node for the token at a position. A mark is named by the directive or use it belongs to,
and defined by it. -/
def hiddenNode (i : Nat) (token : SourceToken) (kind : NodeKind) (parent : NodeId) : Node :=
  let node := Growth.tokenNode s kind token parent
  if token.kind.isMark then
    { node with name := (s.marked.mark? i).bind s.marked.text.nodes.name
                definition := (s.marked.mark? i).getD 0 }
  else node

/-- Does a node of a table stand for the token at a position? -/
def Shows (t : NodeTable) (i id : Nat) : Prop :=
  ∃ token kind, s.marked.tokens[i]? = some token ∧ triviaKind? s.keepBlanks token.kind = some kind ∧
    t.node id = s.hiddenNode i token kind (t.parent id)

end GrowthSource

namespace NodeTable

variable {t : NodeTable} {n : Node}

/-- The comments, blanks and marks, in the order of their numbers. -/
def triviaIds (t : NodeTable) : List Nat := t.ids.filter fun id => (t.kind id).isTrivia

/-- The nodes that give a tree its shape, each with those of them that name it as their parent. -/
def shapeForest (t : NodeTable) : Forest (NodeKind × Option String) where
  size := t.size
  label id := (t.kind id, t.name id)
  below p := t.ids.filter fun id => t.parent id = p && !(t.kind id).isTrivia

theorem ids_add (t : NodeTable) (n : Node) : (t.add n).2.ids = t.ids ++ [t.size + 1] := by
  simp [ids, add, size, List.range_succ]

theorem node_add_of_contains {q : Nat} (hq : t.contains q) : (t.add n).2.node q = t.node q := by
  have := (contains_iff.mp hq).2
  rw [node_add, if_neg (by omega)]

theorem node_add_self : (t.add n).2.node (t.size + 1) = n := by rw [node_add, if_pos rfl]

/-- Filtering the numbers of the nodes by something said of nodes. -/
theorem filter_ids_add (f : Node → Bool) : ((t.add n).2.ids.filter fun id =>
    f ((t.add n).2.node id))
    = (t.ids.filter fun id => f (t.node id)) ++ if f n then [t.size + 1] else [] := by
  rw [ids_add, List.filter_append]
  congr 1
  · refine List.filter_congr fun q hq => ?_
    rw [node_add_of_contains (mem_ids.mp hq)]
  · rw [List.filter_singleton, node_add_self]
    cases f n <;> rfl

theorem triviaIds_add (t : NodeTable) (n : Node) : (t.add n).2.triviaIds =
    t.triviaIds ++ if n.kind.isTrivia then [t.size + 1] else [] :=
  filter_ids_add fun n => n.kind.isTrivia

theorem below_add (t : NodeTable) (n : Node) (p : Nat) : (t.add n).2.shapeForest.below p =
    t.shapeForest.below p ++ if n.parent = p ∧ n.kind.isTrivia =
    false then [t.size + 1] else [] := by
  have h := filter_ids_add (t := t) (n := n) fun n => n.parent = p && !n.kind.isTrivia
  simp only [Bool.and_eq_true, decide_eq_true_eq, Bool.not_eq_true'] at h
  exact h

/-- A comment, a blank or a mark adds nothing to the shape. -/
theorem keeps_add_trivia (h : n.kind.isTrivia = true) :
    t.shapeForest.Keeps (t.add n).2.shapeForest := by
  refine ⟨by simp [shapeForest, add, size], fun q hq0 hq => ?_, fun q => ?_⟩
  · simp only [shapeForest, kind, name]
    rw [node_add_of_contains (contains_iff.mpr ⟨hq0, hq⟩)]
  · simp [below_add, h]

end NodeTable

open NodeTable

namespace Growth

variable {s : GrowthSource} {g : Growth} {rows : List (Nat × Nat)} {n : Node} {p : Nat}

/-- The nodes that have been made. -/
def table (s : GrowthSource) (g : Growth) : NodeTable :=
  { file := s.marked.text.file, library := s.library, nodes := g.nodes, elements := g.elements }

section Relink

variable (g : Growth) (f : Linking → Linking)

@[simp] theorem nodes_relink : (g.relink f).nodes = g.nodes := rfl

@[simp] theorem elements_relink : (g.relink f).elements = g.elements := rfl

@[simp] theorem next_relink : (g.relink f).next = g.next := rfl

@[simp] theorem openMarks_relink : (g.relink f).openMarks = g.openMarks := rfl

@[simp] theorem pauses_relink : (g.relink f).pauses = g.pauses := rfl

theorem addHiddens_succ (s : GrowthSource) (k : Nat) (p : NodeId) (g : Growth) :
    g.addHiddens s (k + 1) p = (g.addHiddens s k p).addHidden s p := by
  rw [addHiddens, List.range_succ, List.foldl_append]
  rfl

/-- What every token does that is dealt with, several of them do. -/
theorem addHiddens_rel {R : Growth → Growth → Prop} (hrefl : ∀ g, R g g)
    (htrans : ∀ {g g' g''}, R g g' → R g' g'' → R g g'') {s : GrowthSource} {p : NodeId}
    (hstep : ∀ g, R g (g.addHidden s p)) (k : Nat) (g : Growth) : R g (g.addHiddens s k p) := by
  induction k with
  | zero => exact hrefl g
  | succ k ih => exact addHiddens_succ s k p g ▸ htrans ih (hstep _)

end Relink

/-- A node that others may be put below: one that gives the tree its shape. -/
structure Hosts (s : GrowthSource) (g : Growth) (p : Nat) : Prop where
  pos : 0 < p
  le : Nat.le p g.nodes.size
  shape : ((g.table s).kind p).isTrivia = false

/-- **The invariant of growth.** Each row is the position of a token that the grammar does not see
and the number of its node. -/
structure Going (s : GrowthSource) (g : Growth) (rows : List (Nat × Nat)) : Prop where
  next_le : g.next ≤ s.marked.tokens.size
  root : (g.table s).contains 1 ∧ ((g.table s).kind 1).isTrivia = false
  parent_lt : ∀ q : Nat, (g.table s).contains q → Nat.lt ((g.table s).parent q) q
  parent_pos : ∀ q : Nat, (g.table s).contains q → q ≠ 1 → (g.table s).parent q ≠ 0
  parent_shape : ∀ q : Nat, (g.table s).contains q →
    ((g.table s).kind ((g.table s).parent q)).isTrivia = false
  sorted : ∀ q r : Nat, (g.table s).contains q → (g.table s).contains r → q ≤ r →
    ((g.table s).kind q).isTrivia = false → ((g.table s).kind r).isTrivia = false →
    NoLater ((g.table s).begins q) ((g.table s).begins r)
  begins_le : ∀ q : Nat, (g.table s).contains q → ((g.table s).kind q).isTrivia = false →
    NoLater ((g.table s).begins q) (g.emptyPlace s)
  kept : rows.map (·.1) = s.keptBefore g.next
  trivia : rows.map (·.2) = (g.table s).triviaIds
  shows : ∀ row ∈ rows, s.Shows (g.table s) row.1 row.2
  opens : List.Forall₂ (fun (mark : OpenMark) i => ∃ id, (i, id) ∈ rows ∧
    (g.table s).parent id = mark.parent ∧ s.marked.mark? i = some mark.directive)
    g.openMarks (s.marked.opened g.next)
  ends : ∀ row ∈ rows, ∀ token, s.marked.tokens[row.1]? = some token →
    token.kind = .preprocEnd → ∃ i more id, s.marked.opened row.1 = i :: more ∧ (i, id) ∈ rows ∧
      (g.table s).parent id = (g.table s).parent row.2

/-! ### The next token that the grammar sees -/

/-- The first member of a list from a position on that is as asked. -/
theorem find?_drop {α : Type} {f : α → Bool} {l : List α} {i : Nat} {a : α}
    (h : (l.drop i).find? f = some a) :
    ∃ k, i ≤ k ∧ l[k]? = some a ∧ f a = true ∧ ∀ j, i ≤ j → j < k → ∀ b, l[j]? = some b → ¬f b := by
  obtain ⟨ha, k, hk, he, hall⟩ := List.find?_eq_some_iff_getElem.mp h
  refine ⟨i + k, by omega, ?_, ha, fun j hij hjk b hb => ?_⟩
  · rw [← List.getElem?_drop, List.getElem?_eq_getElem hk, he]
  · have hj := hall (j - i) (by omega)
    obtain ⟨hjl, rfl⟩ := List.getElem?_eq_some_iff.mp hb
    simpa [List.getElem_drop, show i + (j - i) = j by omega] using hj

/-- The place that is shown for a token that may be missing. -/
def placeOr (token : Option SourceToken) : Nat × Nat := (token.map Token.begins).getD (1, 1)

/-- The next token from a position on that the grammar sees. -/
def visibleFrom (s : GrowthSource) (i : Nat) : Option SourceToken :=
  (s.marked.tokens.toList.drop i).find? fun t => !t.kind.isHidden

theorem emptyPlace_eq (s : GrowthSource) (g : Growth) :
    g.emptyPlace s = placeOr (visibleFrom s g.next <|> s.marked.tokens.back?) := by
  rw [emptyPlace]
  simp only [visibleFrom]
  cases (s.marked.tokens.toList.drop g.next).find? fun t => !t.kind.isHidden with
  | none => cases s.marked.tokens.back? <;> rfl
  | some t => rfl

theorem emptyPlace_of_visible {token : SourceToken} (ht : s.marked.tokens[g.next]? = some token)
    (hv : token.kind.isHidden = false) : g.emptyPlace s = token.begins := by
  have hd : s.marked.tokens.toList.drop g.next =
      token :: s.marked.tokens.toList.drop (g.next + 1) := by
    obtain ⟨hi, rfl⟩ := Array.getElem?_eq_some_iff.mp ht
    rw [List.drop_eq_getElem_cons (by simpa using hi)]
    rfl
  rw [emptyPlace_eq, visibleFrom, hd, List.find?_cons_of_pos (by simp [hv])]
  rfl

/-- The place of the next token that the grammar sees only moves forward. -/
theorem emptyPlace_mono {text : PreprocessedText} (hm : MarkedText.ofText text = .ok s.marked)
    {g g' : Growth} (h : g.next ≤ g'.next) : NoLater (g.emptyPlace s) (g'.emptyPlace s) := by
  have hlast : ∀ (i : Nat) (token : SourceToken), s.marked.tokens[i]? = some token →
      NoLater token.begins (placeOr s.marked.tokens.back?) := by
    intro i token hi
    have hlt := (Array.getElem?_eq_some_iff.mp hi).1
    have hb : s.marked.tokens.back? = some s.marked.tokens[s.marked.tokens.size - 1] := by
      rw [Array.back?_eq_getElem?, Array.getElem?_eq_getElem (by omega)]
    rw [hb]
    exact MarkedText.noLater_tokens hm hi (Array.getElem?_eq_getElem (by omega)) (by omega)
  rw [emptyPlace_eq, emptyPlace_eq]
  cases hv' : visibleFrom s g'.next with
  | none =>
    cases hv : visibleFrom s g.next with
    | none => exact .refl _
    | some t =>
      obtain ⟨k, -, hk, -⟩ := find?_drop hv
      exact hlast k t (by simpa using hk)
  | some t' =>
    obtain ⟨k', hk', ht', hf', -⟩ := find?_drop hv'
    cases hv : visibleFrom s g.next with
    | none =>
      refine absurd hf' (List.find?_eq_none.mp hv t' ?_)
      refine List.mem_of_getElem? (i := k' - g.next) ?_
      rwa [List.getElem?_drop, show g.next + (k' - g.next) = k' by omega]
    | some t =>
      obtain ⟨k, hk, ht, -, hall⟩ := find?_drop hv
      have hkk : k ≤ k' := by
        by_contra hlt
        exact hall k' (by omega) (by omega) t' ht' hf'
      exact MarkedText.noLater_tokens hm (by simpa using ht) (by simpa using ht') hkk

/-! ### One node more -/

/-- What is known of a node that is there stays so when one is added. -/
theorem shows_add {t : NodeTable} {i id : Nat} (hc : t.contains id) (h : s.Shows t i id) :
    s.Shows (t.add n).2 i id := by
  obtain ⟨token, kind, ht, hk, hn⟩ := h
  refine ⟨token, kind, ht, hk, ?_⟩
  rw [NodeTable.parent, node_add_of_contains hc]
  exact hn

theorem parent_add {t : NodeTable} {id : Nat} (hc : t.contains id) :
    (t.add n).2.parent id = t.parent id := by
  rw [NodeTable.parent, node_add_of_contains hc]
  rfl

namespace Going

/-- The invariant speaks of nodes, tokens and marks alone. -/
theorem of_eq {g' : Growth} (h : Going s g rows) (hn : g'.nodes = g.nodes) (hx : g'.next = g.next)
    (ho : g'.openMarks = g.openMarks) : Going s g' rows := by
  cases g
  cases g'
  cases hn
  cases hx
  cases ho
  exact ⟨h.next_le, h.root, h.parent_lt, h.parent_pos, h.parent_shape, h.sorted, h.begins_le,
    h.kept, h.trivia, h.shows, h.opens, h.ends⟩

theorem contains_row (h : Going s g rows) {row : Nat × Nat} (hr : row ∈ rows) :
    (g.table s).contains row.2 := by
  have hmem : row.2 ∈ (g.table s).triviaIds := by
    rw [← h.trivia]
    exact List.mem_map_of_mem hr
  exact mem_ids.mp (List.mem_filter.mp hmem).1

theorem ne_one_of_row (h : Going s g rows) {row : Nat × Nat} (hr : row ∈ rows) : row.2 ≠ 1 := by
  have hmem : row.2 ∈ (g.table s).triviaIds := by
    rw [← h.trivia]
    exact List.mem_map_of_mem hr
  intro he
  have hk := (List.mem_filter.mp hmem).2
  rw [he, h.root.2] at hk
  contradiction

theorem root_add {t : NodeTable} (h : t.contains 1 ∧ (t.kind 1).isTrivia = false) :
    (t.add n).2.contains 1 ∧ ((t.add n).2.kind 1).isTrivia = false := by
  rw [NodeTable.kind, node_add_of_contains h.1]
  exact ⟨(contains_add n 1).mpr (.inr h.1), h.2⟩

/-- The parts of the invariant that speak of parents, for one node more. -/
theorem parents_add (h : Going s g rows) (hp : Hosts s g n.parent) :
    (∀ q : Nat, ((g.table s).add n).2.contains q →
      Nat.lt (((g.table s).add n).2.parent q) q) ∧
    (∀ q : Nat, ((g.table s).add n).2.contains q → q ≠ 1 →
      ((g.table s).add n).2.parent q ≠ 0) ∧
    ∀ q : Nat, ((g.table s).add n).2.contains q →
      (((g.table s).add n).2.kind (((g.table s).add n).2.parent q)).isTrivia = false := by
  have hself : ((g.table s).add n).2.parent ((g.table s).size + 1) = n.parent :=
    congrArg Node.parent node_add_self
  have hkind : ∀ q : Nat, q ≤ g.nodes.size → ((g.table s).add n).2.kind q = (g.table s).kind q := by
    intro q hq
    rw [NodeTable.kind, node_add, if_neg fun he => Nat.not_succ_le_self _ (he ▸ hq)]
    rfl
  refine ⟨fun q hq => ?_, fun q hq h1 => ?_, fun q hq => ?_⟩ <;>
    rcases (contains_add n q).mp hq with rfl | hq
  · exact hself ▸ Nat.lt_succ_of_le hp.le
  · rw [parent_add hq]
    exact h.parent_lt q hq
  · exact hself ▸ Nat.pos_iff_ne_zero.mp hp.pos
  · rw [parent_add hq]
    exact h.parent_pos q hq h1
  · rw [hself, hkind _ hp.le]
    exact hp.shape
  · rw [parent_add hq, hkind _ (Nat.le_of_lt (Nat.lt_of_lt_of_le (h.parent_lt q hq)
      (contains_iff.mp hq).2))]
    exact h.parent_shape q hq

/-- The parts of the invariant that speak of the order of nodes, for one node more. -/
theorem order_add {t : NodeTable} {here : Nat × Nat}
    (hs : ∀ q r : Nat, t.contains q → t.contains r → q ≤ r → (t.kind q).isTrivia = false →
      (t.kind r).isTrivia = false → NoLater (t.begins q) (t.begins r))
    (hb : ∀ q : Nat, t.contains q → (t.kind q).isTrivia = false → NoLater (t.begins q) here)
    (hn : n.kind.isTrivia = false → (n.line, n.column) = here) :
    (∀ q r : Nat, (t.add n).2.contains q → (t.add n).2.contains r → q ≤ r →
      ((t.add n).2.kind q).isTrivia = false → ((t.add n).2.kind r).isTrivia = false →
      NoLater ((t.add n).2.begins q) ((t.add n).2.begins r)) ∧
    ∀ q : Nat, (t.add n).2.contains q → ((t.add n).2.kind q).isTrivia = false →
      NoLater ((t.add n).2.begins q) here := by
  have hself : (t.add n).2.begins (t.size + 1) = (n.line, n.column) := by
    rw [NodeTable.begins, node_add_self]
  have hold : ∀ q, t.contains q → (t.add n).2.begins q = t.begins q := by
    intro q hq
    rw [NodeTable.begins, node_add_of_contains hq]
    rfl
  have hkind : ∀ q, t.contains q → (t.add n).2.kind q = t.kind q := by
    intro q hq
    rw [NodeTable.kind, node_add_of_contains hq]
    rfl
  have hkself : (t.add n).2.kind (t.size + 1) = n.kind := by rw [NodeTable.kind, node_add_self]
  have hhere : ∀ q : Nat, (t.add n).2.contains q → ((t.add n).2.kind q).isTrivia = false →
      NoLater ((t.add n).2.begins q) here := by
    intro q hq hk
    rcases (contains_add n q).mp hq with rfl | hq
    · rw [hkself] at hk
      rw [hself, hn hk]
      exact .refl _
    · rw [hkind q hq] at hk
      rw [hold q hq]
      exact hb q hq hk
  refine ⟨fun q r hq hr hqr hkq hkr => ?_, hhere⟩
  rcases (contains_add n r).mp hr with rfl | hr
  · rw [hkself] at hkr
    rw [hself, hn hkr]
    exact hhere q hq hkq
  · rcases (contains_add n q).mp hq with rfl | hq
    · have := (contains_iff.mp hr).2
      omega
    · rw [hkind q hq] at hkq
      rw [hkind r hr] at hkr
      rw [hold q hq, hold r hr]
      exact hs q r hq hr hqr hkq hkr

/-- **A node that gives the tree its shape** is made where the next visible token stands. -/
theorem add_shape (h : Going s g rows) (hk : n.kind.isTrivia = false) (hp : Hosts s g n.parent)
    (hn : (n.line, n.column) = g.emptyPlace s) :
    Going s (g.add n).2 rows := by
  obtain ⟨hlt, hpos, hshape⟩ := h.parents_add hp
  obtain ⟨hsorted, hbegins⟩ := order_add h.sorted h.begins_le fun _ => hn
  refine ⟨h.next_le, root_add h.root, hlt, hpos, hshape, hsorted, hbegins, h.kept, ?_, ?_, ?_,
    ?_⟩
  · have ht := triviaIds_add (g.table s) n
    rw [if_neg (by simp [hk]), List.append_nil] at ht
    exact h.trivia.trans ht.symm
  · exact fun row hr => shows_add (h.contains_row hr) (h.shows row hr)
  · refine h.opens.imp fun mark i hmark => ?_
    obtain ⟨id, hid, hpar, hm⟩ := hmark
    exact ⟨id, hid, (parent_add (h.contains_row hid)).trans hpar, hm⟩
  · intro row hr token ht hke
    obtain ⟨i, more, id, ho, hid, hpar⟩ := h.ends row hr token ht hke
    refine ⟨i, more, id, ho, hid, ?_⟩
    exact (parent_add (h.contains_row hid)).trans
      (hpar.trans (parent_add (h.contains_row hr)).symm)

variable {text : PreprocessedText} (hm : MarkedText.ofText text = .ok s.marked)
  {token : SourceToken} (ht : s.marked.tokens[g.next]? = some token)

include hm ht

/-- **A token is passed over** that is no mark and not to be kept. -/
theorem pass (h : Going s g rows) (hk : s.keeps g.next = false)
    (hmark : token.kind.isMark = false) : Going s { g with next := g.next + 1 } rows := by
  have hlt := (Array.getElem?_eq_some_iff.mp ht).1
  refine ⟨hlt, h.root, h.parent_lt, h.parent_pos, h.parent_shape, h.sorted, fun q hq hkq => ?_, ?_,
    h.trivia, h.shows, ?_, h.ends⟩
  · exact (h.begins_le q hq hkq).trans (emptyPlace_mono hm (Nat.le_succ _))
  · rw [s.keptBefore_succ, hk]
    simpa using h.kept
  · have ho := MarkedText.opened_succ ht
    rw [stepOpened_of_not_mark (t := (token, g.next)) hmark] at ho
    exact ho ▸ h.opens

/-- **A token gets its node**: `n` is the node for the token, and `marks` are the marks that are
open behind it. -/
theorem add_hidden (h : Going s g rows) {kind : NodeKind}
    (hk : triviaKind? s.keepBlanks token.kind = some kind)
    (hn : n = s.hiddenNode g.next token kind n.parent) (hp : Hosts s g n.parent)
    {marks : List OpenMark}
    (ho : List.Forall₂ (fun (mark : OpenMark) i => ∃ id, (i, id) ∈ rows ++
    [(g.next, g.nodes.size + 1)] ∧
      ((g.table s).add n).2.parent id = mark.parent ∧ s.marked.mark? i = some mark.directive)
      marks (s.marked.opened (g.next + 1)))
    (he : token.kind = .preprocEnd → ∃ i more id, s.marked.opened g.next = i :: more ∧
      (i, id) ∈ rows ∧ (g.table s).parent id = n.parent) :
    Going s { g with nodes := g.nodes.push n, next := g.next + 1, openMarks := marks }
      (rows ++ [(g.next, g.nodes.size + 1)]) := by
  have hlt := (Array.getElem?_eq_some_iff.mp ht).1
  have hnk : n.kind.isTrivia = true := by
    rw [hn]
    refine Eq.trans (congrArg NodeKind.isTrivia ?_) (isTrivia_of_triviaKind? hk)
    simp only [GrowthSource.hiddenNode]
    split <;> rfl
  have hkeep : s.keeps g.next = true := by simp [GrowthSource.keeps, ht, hk]
  obtain ⟨hplt, hpos, hshape⟩ := h.parents_add hp
  obtain ⟨hsorted, hbegins⟩ := order_add (n := n) h.sorted h.begins_le fun hf => by
    rw [hnk] at hf
    contradiction
  -- only the rows of hidden tokens have something new to show; a row that is there keeps its node
  refine ⟨hlt, root_add h.root, hplt, hpos, hshape, hsorted, fun q hq hkq => ?_, ?_, ?_, ?_, ho, ?_⟩
  · exact (hbegins q hq hkq).trans (emptyPlace_mono hm (Nat.le_succ _))
  · rw [s.keptBefore_succ, if_pos hkeep, List.map_append, h.kept]
    rfl
  · have ht := triviaIds_add (g.table s) n
    rw [if_pos hnk, ← h.trivia] at ht
    refine Eq.trans ?_ ht.symm
    simp [Growth.table, size]
  · intro row hr
    rcases List.mem_append.mp hr with hr | hr
    · exact shows_add (h.contains_row hr) (h.shows row hr)
    · obtain rfl := List.mem_singleton.mp hr
      have hself : ((g.table s).add n).2.node (g.nodes.size + 1) = n := node_add_self
      have hpar : ((g.table s).add n).2.parent (g.nodes.size + 1) = n.parent :=
        congrArg Node.parent hself
      refine ⟨token, kind, ht, hk, hself.trans (hn.trans ?_)⟩
      exact congrArg _ hpar.symm
  · intro row hr token' ht' hke
    rcases List.mem_append.mp hr with hr | hr
    · obtain ⟨i, more, id, ho, hid, hpar⟩ := h.ends row hr token' ht' hke
      refine ⟨i, more, id, ho, List.mem_append_left _ hid, ?_⟩
      exact (parent_add (h.contains_row hid)).trans
        (hpar.trans (parent_add (h.contains_row hr)).symm)
    · obtain rfl := List.mem_singleton.mp hr
      obtain rfl : token = token' := Option.some.inj (ht.symm.trans ht')
      obtain ⟨i, more, id, ho, hid, hpar⟩ := he hke
      refine ⟨i, more, id, ho, List.mem_append_left _ hid, ?_⟩
      have hself : ((g.table s).add n).2.node (g.nodes.size + 1) = n := node_add_self
      exact (parent_add (h.contains_row hid)).trans
        (hpar.trans (congrArg Node.parent hself).symm)

end Going

/-! ### Tokens one after the other -/

/-- What is done with hidden tokens changes no shape and no pause. -/
structure Drains (s : GrowthSource) (g g' : Growth) (next : Nat) : Prop where
  going : ∃ rows, Going s g' rows
  keeps : (g.table s).shapeForest.Keeps (g'.table s).shapeForest
  pauses : g'.pauses = g.pauses
  next : g'.next = next

/-- Others may be put below a node as long as it keeps its kind. -/
theorem Hosts.mono {g' : Growth} (h : Hosts s g p)
    (hs : (g.table s).shapeForest.size ≤ (g'.table s).shapeForest.size)
    (hl : ∀ q, 0 < q → q ≤ (g.table s).shapeForest.size →
      (g'.table s).shapeForest.label q = (g.table s).shapeForest.label q) : Hosts s g' p := by
  refine ⟨h.pos, Nat.le_trans h.le hs, ?_⟩
  rw [show (g'.table s).kind p = (g.table s).kind p from congrArg Prod.fst (hl p h.pos h.le)]
  exact h.shape

/-- The marks that are open are known as before when a node is added. -/
theorem opens_add (h : Going s g rows) (n : Node) (row : Nat × Nat) :
    List.Forall₂ (fun (mark : OpenMark) i => ∃ id, (i, id) ∈ rows ++ [row] ∧
      ((g.table s).add n).2.parent id = mark.parent ∧ s.marked.mark? i = some mark.directive)
      g.openMarks (s.marked.opened g.next) := by
  refine h.opens.imp fun mark i hmark => ?_
  obtain ⟨id, hid, hpar, hi⟩ := hmark
  exact ⟨id, List.mem_append_left _ hid, (parent_add (h.contains_row hid)).trans hpar, hi⟩

variable {text : PreprocessedText} (hm : MarkedText.ofText text = .ok s.marked)

include hm

section Token

variable {token : SourceToken} (ht : s.marked.tokens[g.next]? = some token)
  (h : Going s g rows)

include ht h

theorem drains_pass (hk : triviaKind? s.keepBlanks token.kind = none)
    (hmark : token.kind.isMark = false) : Drains s g { g with next := g.next + 1 } (g.next + 1) :=
  ⟨⟨rows, h.pass hm ht (by simp [GrowthSource.keeps, ht, hk]) hmark⟩,
    .refl _, rfl, rfl⟩

theorem drains_plain (hp : Hosts s g p) {kind : NodeKind}
    (hk : triviaKind? s.keepBlanks token.kind = some kind) (hmark : token.kind.isMark = false) :
    Drains s g (({ g with next := g.next + 1 } : Growth).add (tokenNode s kind token p)).2
      (g.next + 1) := by
  refine ⟨⟨_, h.add_hidden hm ht hk ?_ hp ?_ fun he => ?_⟩,
    keeps_add_trivia (t := g.table s) (isTrivia_of_triviaKind? hk), rfl, rfl⟩
  · simp [GrowthSource.hiddenNode, hmark, tokenNode]
  · rw [MarkedText.opened_succ ht, stepOpened_of_not_mark (t := (token, g.next)) hmark]
    exact opens_add h _ _
  · rw [he] at hmark
    contradiction

theorem drains_begin (hp : Hosts s g p) (hk : token.kind = .preprocBegin)
    {id : NodeId} (hid : s.marked.mark? g.next = some id) :
    Drains s g { (({ g with next := g.next + 1 } : Growth).add
      { tokenNode s .slPreprocBegin token p with
        name := s.marked.text.nodes.name id, definition := id }).2 with
      openMarks := ⟨p, id⟩ :: g.openMarks } (g.next + 1) := by
  have hkind : triviaKind? s.keepBlanks token.kind = some .slPreprocBegin := by rw [hk]; rfl
  refine ⟨⟨_, h.add_hidden (n := { tokenNode s .slPreprocBegin token p with
    name := s.marked.text.nodes.name id, definition := id }) hm ht hkind ?_ hp ?_ fun he => ?_⟩,
    keeps_add_trivia (t := g.table s) rfl, rfl, rfl⟩
  · simp [GrowthSource.hiddenNode, hk, SourceKind.isMark, hid, tokenNode]
  · have ho := MarkedText.opened_succ ht
    rw [stepOpened, hk] at ho
    rw [ho]
    refine .cons ⟨g.nodes.size + 1, by simp, ?_, hid⟩ (opens_add h _ _)
    exact congrArg Node.parent node_add_self
  · rw [hk] at he
    contradiction

theorem drains_end (hk : token.kind = .preprocEnd) {mark : OpenMark} {marks : List OpenMark}
    (hmarks : g.openMarks = mark :: marks) :
    Drains s g { (({ g with next := g.next + 1 } : Growth).add
      { tokenNode s .slPreprocEnd token mark.parent with
        name := s.marked.text.nodes.name mark.directive
        definition := (s.marked.mark? g.next).getD mark.directive }).2 with
      openMarks := marks } (g.next + 1) := by
  obtain ⟨i, more, node, ho, -, hi, hj⟩ := MarkedText.opened_of_end hm ht hk
  have hopens := h.opens
  rw [hmarks, ho] at hopens
  obtain ⟨⟨id, hid, hpar, hdir⟩, -⟩ := List.forall₂_cons.mp hopens
  obtain rfl : node = mark.directive := Option.some.inj (hi.symm.trans hdir)
  have hkind : triviaKind? s.keepBlanks token.kind = some .slPreprocEnd := by rw [hk]; rfl
  have hcon := h.contains_row hid
  refine ⟨⟨_, h.add_hidden (n := { tokenNode s .slPreprocEnd token mark.parent with
    name := s.marked.text.nodes.name mark.directive
    definition := (s.marked.mark? g.next).getD mark.directive }) hm ht hkind ?_ ?_ ?_ fun _ => ?_⟩,
    keeps_add_trivia (t := g.table s) rfl, rfl, rfl⟩
  · simp [GrowthSource.hiddenNode, hk, SourceKind.isMark, hj, tokenNode]
  · exact hpar ▸ ⟨Nat.pos_of_ne_zero (h.parent_pos id hcon (h.ne_one_of_row hid)),
      Nat.le_of_lt (Nat.lt_of_lt_of_le (h.parent_lt id hcon) (contains_iff.mp hcon).2),
      h.parent_shape id hcon⟩
  · have hstep := MarkedText.opened_succ ht
    rw [stepOpened, hk, ho] at hstep
    have hadd := opens_add h { tokenNode s .slPreprocEnd token mark.parent with
      name := s.marked.text.nodes.name mark.directive
      definition := (s.marked.mark? g.next).getD mark.directive } (g.next, g.nodes.size + 1)
    rw [hmarks, ho] at hadd
    rw [hstep]
    exact (List.forall₂_cons.mp hadd).2
  · exact ⟨i, more, id, ho, hid, hpar⟩

end Token

/-- **One token more is dealt with.** -/
theorem drains_addHidden (h : Going s g rows) (hp : Hosts s g p)
    (hlt : g.next < s.marked.tokens.size) : Drains s g (g.addHidden s p) (g.next + 1) := by
  have ht := Array.getElem?_eq_getElem hlt
  rw [addHidden]
  simp only [ht]
  split
  case h_1 hk | h_2 hk =>
    have hmark : s.marked.tokens[g.next].kind.isMark = false := by rw [hk]; rfl
    split
    · rename_i hkeep
      exact drains_plain hm ht h hp (by rw [hk, triviaKind?, if_pos hkeep]) hmark
    · rename_i hkeep
      exact drains_pass hm ht h (by rw [hk, triviaKind?, if_neg hkeep]) hmark
  case h_3 hk | h_4 hk =>
    exact drains_plain hm ht h hp (by rw [hk]; rfl) (by rw [hk]; rfl)
  case h_5 hk =>
    obtain ⟨id, hid⟩ := MarkedText.mark?_of_begin hm ht hk
    rw [hid]
    exact drains_begin hm ht h hp hk hid
  case h_6 hk =>
    split
    · rename_i hmarks
      obtain ⟨i, more, node, ho, -⟩ := MarkedText.opened_of_end hm ht hk
      have hopens := h.opens
      rw [hmarks, ho] at hopens
      cases hopens
    · rename_i mark marks hmarks
      exact drains_end hm ht h hk hmarks
  case h_7 hw hn ho hb hpb hpe =>
    refine drains_pass hm ht h ?_ (SourceKind.isMark_eq_false hpb hpe)
    unfold triviaKind?
    split <;> first | rfl | contradiction

/-- **All tokens before a position are dealt with**, if they have not been before. -/
theorem drains_advance (h : Going s g rows) (hp : Hosts s g p) (stop : Nat) :
    Drains s g (g.advance s stop p) (max g.next (min stop s.marked.tokens.size)) := by
  have many : ∀ (k : Nat) (g : Growth) (rows : List (Nat × Nat)), Going s g rows →
      Hosts s g p → g.next + k ≤ s.marked.tokens.size →
      Drains s g (g.addHiddens s k p) (g.next + k) := by
    intro k
    induction k with
    | zero =>
      exact fun g rows h _ _ => ⟨⟨rows, h⟩, .refl _, rfl, rfl⟩
    | succ k ih =>
      intro g rows h hp hk
      have hd := ih g rows h hp (by omega)
      rw [addHiddens_succ]
      generalize g.addHiddens s k p = g' at hd
      obtain ⟨rows', h'⟩ := hd.going
      have hnext := hd.next
      have hd' := drains_addHidden hm h' (hp.mono hd.keeps.size_le hd.keeps.label_eq) (by omega)
      exact ⟨hd'.going, hd.keeps.trans hd'.keeps, hd'.pauses.trans hd.pauses,
        hd'.next.trans (by omega)⟩
  have hn : g.next + (min stop s.marked.tokens.size - g.next) =
      max g.next (min stop s.marked.tokens.size) := by omega
  have hfit : g.next + (min stop s.marked.tokens.size - g.next) ≤ s.marked.tokens.size := by
    have := h.next_le
    omega
  obtain ⟨⟨rows', hgoing⟩, hkeeps, hpauses, hnext⟩ := many _ g rows h hp hfit
  exact ⟨⟨rows', hgoing.of_eq rfl rfl rfl⟩, hkeeps, hpauses, hnext.trans hn⟩

end Growth

end Verilog
