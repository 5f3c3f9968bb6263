import Verilog.Expr.Read
import Verilog.Proofs.Ir.Added
import Verilog.Proofs.Node.Links

/-!
# The places of expressions that are read

Only a node that is there has a kind of which an expression is read, so every expression that is
read has a place, and so has every expression in it. Nothing is asked of how the nodes are linked.
-/

namespace Verilog

namespace NodeTable

variable {t : NodeTable} {id : NodeId}

theorem contains_of_kind {k : NodeKind} (h : t.kind id = k) (hk : k ≠ .slNoType) :
    t.contains id := by
  by_contra hc
  rw [kind, node_of_not_contains hc] at h
  exact hk h.symm

theorem isSome_range? {last : NodeId} (h : t.contains id) : (t.range? id last).isSome := by
  simp [range?, h]

variable {read : NodeId → Option Expr}

/-- Is everything that is read located? -/
def ReadsLocated (read : NodeId → Option Expr) : Prop := ∀ id e, read id = some e → e.Located

theorem locatedPart_bind (hr : ReadsLocated read) (id? : Option NodeId) :
    Expr.LocatedPart (id?.bind read) :=
  Expr.locatedPart_iff.mpr fun e he => by
    obtain ⟨id, -, he⟩ := Option.bind_eq_some_iff.mp he
    exact hr id e he

theorem locatedAll_filterMap (hr : ReadsLocated read) (ids : List NodeId) :
    Expr.LocatedAll (ids.filterMap read) :=
  Expr.locatedAll_iff.mpr fun e he => by
    obtain ⟨id, -, he⟩ := List.mem_filterMap.mp he
    exact hr id e he

theorem located_readReference (hr : ReadsLocated read) (hid : t.contains id) (ids : List NodeId) :
    (t.readReference read id ids).Located := by
  have hrange : (t.range? id id).isSome := isSome_range? hid
  unfold readReference
  split
  · exact hrange
  · rename_i select _
    split
    · exact ⟨hrange, locatedPart_bind hr _, locatedPart_bind hr _⟩
    · exact ⟨hrange, locatedPart_bind hr (some (t.child select))⟩

theorem located_readOperation (hr : ReadsLocated read) (hid : t.contains id) {e : Expr}
    (h : t.readOperation read id = some e) : e.Located := by
  have hrange : (t.range? id id).isSome := isSome_range? hid
  unfold readOperation at h
  simp only at h
  split at h
  · exact hr _ e h
  · obtain ⟨_, -, rfl⟩ := Option.map_eq_some_iff.mp h
    exact ⟨hrange, locatedAll_filterMap hr _⟩
  · obtain rfl := Option.some.inj h
    exact ⟨hrange, locatedAll_filterMap hr _⟩
  · split at h
    · obtain rfl := Option.some.inj h
      exact ⟨hrange, locatedAll_filterMap hr _⟩
    · cases h
  · cases h

theorem located_readStep (hr : ReadsLocated read) (hid : t.contains id) {e : Expr}
    (h : t.readStep read id = some e) : e.Located := by
  have hstep (op : Operator) (v : NodeId) : Expr.Located
      (.operation (some op) ([v].filterMap read) (t.range? id id)) :=
    ⟨isSome_range? hid, locatedAll_filterMap hr _⟩
  unfold readStep at h
  simp only at h
  split at h
  · rename_i a b _
    rcases ite_eq_iff.mp h with ⟨-, h⟩ | ⟨-, h⟩
    · exact Option.some.inj h ▸ hstep .postInc a
    rcases ite_eq_iff.mp h with ⟨-, h⟩ | ⟨-, h⟩
    · exact Option.some.inj h ▸ hstep .postDec a
    rcases ite_eq_iff.mp h with ⟨-, h⟩ | ⟨-, h⟩
    · exact Option.some.inj h ▸ hstep .preInc b
    rcases ite_eq_iff.mp h with ⟨-, h⟩ | ⟨-, h⟩
    · exact Option.some.inj h ▸ hstep .preDec b
    · cases h
  · cases h

theorem located_readCall (hr : ReadsLocated read) (hid : t.contains id) (system : Bool)
    (name : String) : (t.readCall read id system name).Located := by
  have hrange : (t.range? id id).isSome := isSome_range? hid
  unfold readCall
  simp only
  split
  · exact hrange
  · exact ⟨hrange, locatedAll_filterMap hr _⟩

theorem located_readNode (hr : ReadsLocated read) {e : Expr} (h : t.readNode read id = some e) :
    e.Located := by
  -- a node that is not there has a kind that is read as nothing
  have hid : t.contains id := by
    by_contra hc
    rw [readNode, kind, node_of_not_contains hc] at h
    cases h
  have hrange : (t.range? id id).isSome := isSome_range? hid
  unfold readNode at h
  split at h
  case h_1 | h_2 => exact located_readOperation hr hid h
  case h_3 | h_4 | h_5 | h_6 =>
    split at h
    · cases h
    · split at h
      · exact Option.some.inj h ▸ located_readReference hr hid _
      · exact Option.some.inj h ▸ located_readReference hr hid _
      · exact hr _ e h
  case h_7 => exact Option.some.inj h ▸ located_readReference hr hid _
  case h_8 | h_9 => exact hr _ e h
  case h_10 | h_11 | h_12 => exact Option.some.inj h ▸ hrange
  case h_13 | h_14 => exact Option.some.inj h ▸ ⟨hrange, locatedAll_filterMap hr _⟩
  case h_15 | h_16 => exact Option.some.inj h ▸ located_readCall hr hid _ _
  case h_17 | h_18 | h_19 => exact located_readStep hr hid h
  case h_20 => cases h

/-- **Every expression that is read has a place**, and each expression in it. -/
theorem readsLocated_exprWithin (t : NodeTable) (depth : Nat) :
    ReadsLocated (t.exprWithin depth) := by
  induction depth with
  | zero => exact fun id e h => by cases h
  | succ depth ih =>
    intro id e h
    rw [exprWithin] at h
    split at h
    · cases h
    · exact located_readNode ih h

theorem readsLocated_expr? (t : NodeTable) : ReadsLocated t.expr? :=
  fun id => readsLocated_exprWithin t (t.size + 1) id

/-! ### Depth -/

/-- A node that is there is read, and there is depth enough for what is below it. -/
theorem exists_depth {kind : NodeKind} {depth : Nat} (hk : t.kind id = kind) (hn : kind ≠ .slNoType)
    (hd : t.size < depth + id) : ∃ d, t.exprWithin depth id = t.readNode (t.exprWithin d) id ∧
      ∀ q, Nat.lt id q → t.size < d + q := by
  obtain ⟨h0, hs⟩ := contains_iff.mp (contains_of_kind hk hn)
  obtain ⟨d, rfl⟩ : ∃ d, depth = d + 1 := Nat.exists_eq_succ_of_ne_zero fun h => by
    rw [h, Nat.zero_add] at hd
    exact Nat.not_lt.mpr hs hd
  refine ⟨d, by rw [exprWithin, if_neg (Nat.pos_iff_ne_zero.mp h0)], fun q hq => ?_⟩
  rw [Nat.add_assoc, Nat.add_comm 1] at hd
  exact Nat.lt_of_lt_of_le hd (Nat.add_le_add_left hq d)

end NodeTable

end Verilog
