import Mathlib.Data.List.Forall2
import Verilog.Proofs.Formula.Basic
import Verilog.Proofs.Grammar.Takes
import Verilog.Source.Grammar.Text

/-!
# The trees of formulas

The words of a formula are read as one expression that is the formula (`Formula.Reads`), whatever
tokens stand behind them, as long as they do not go on with it (`Follows`).

The grammar has a level for each rank of binary operators, and a level reads what the next tighter
one reads, so what is read at the level of its own rank is read at all looser ones
(`takes_level_mono`). At the level of its own rank an operation is the end of a chain: the
operations of the same rank on its left are not read by themselves, but as the first links of the
chain, and only then grouped to the left. So the induction carries along what the words of a formula
are as a chain (`Chains`).
-/

namespace Verilog

open Grammar

/-! ### Trees -/

/-- Is a tree that of a formula? `stands` says which words stand at which positions. -/
inductive Formula.Reads (stands : Nat → FormulaWord → Prop) : ParseTree → Formula → Prop
  | name {i : Nat} {x : PlainName} (h : stands i (.name x)) :
    Reads stands (.node .paPrimary [.leaf i]) (.name x)
  | number {i : Nat} {n : UInt64} (h : stands i (.number n)) :
    Reads stands (.node .paPrimary [.node .paPrimaryLiteral [.leaf i]]) (.number n)
  | group {i j : Nat} {t : ParseTree} {f : Formula} (hi : stands i .leftParen)
    (hj : stands j .rightParen) (h : Reads stands t f) :
    Reads stands (.node .paPrimary [.leaf i, t, .leaf j]) f
  | parens {t : ParseTree} {f : Formula} (h : Reads stands t f) : Reads stands t (.parens f)
  | operand {ts : List ParseTree} {f : Formula} (h : Reads stands (.node .paPrimary ts) f) :
    Reads stands (.node .paExpression [.node .paPrimary ts]) f
  | unary {i : Nat} {op : UnaryOperator} {t : ParseTree} {f : Formula}
    (hi : stands i (.unary op)) (h : Reads stands t f) :
    Reads stands (.node .paExpression [.leaf i, t]) (.unary op f)
  | binary {i : Nat} {op : BinaryOperator} {l r : ParseTree} {f g : Formula}
    (hl : Reads stands l f) (hi : stands i (.binary op)) (hr : Reads stands r g) :
    Reads stands (.node .paExpression [l, .leaf i, r]) (.binary op f g)
  | choose {i j : Nat} {c y n : ParseTree} {f g h : Formula} (hc : Reads stands c f)
    (hi : stands i .question) (hy : Reads stands y g) (hj : stands j .colon)
    (hn : Reads stands n h) :
    Reads stands (.node .paExpression [c, .leaf i, y, .leaf j, n]) (.choose f g h)

open Formula

/-- Are tokens the words of a list, by their kinds and by what stands at their positions? -/
def Spells (stands : Nat → FormulaWord → Prop) : List (Nat × SourceKind) → List FormulaWord →
    Prop :=
  List.Forall₂ fun v w => v.2 = w.kind ∧ stands v.1 w

theorem Spells.cons {stands : Nat → FormulaWord → Prop} {vs : List (Nat × SourceKind)}
    {w : FormulaWord} {ws : List FormulaWord} (h : Spells stands vs (w :: ws)) :
    ∃ i us, vs = (i, w.kind) :: us ∧ stands i w ∧ Spells stands us ws := by
  obtain ⟨⟨i, kind⟩, us, ⟨rfl, hi⟩, hus, rfl⟩ := List.forall₂_cons_right_iff.mp h
  exact ⟨i, us, rfl, hi, hus⟩

theorem Spells.append {stands : Nat → FormulaWord → Prop} {vs : List (Nat × SourceKind)}
    {ws ws' : List FormulaWord} (h : Spells stands vs (ws ++ ws')) :
    ∃ us us', vs = us ++ us' ∧ Spells stands us ws ∧ Spells stands us' ws' :=
  ⟨_, _, (List.take_append_drop ws.length vs).symm, List.forall₂_take_append vs ws ws' h,
    List.forall₂_drop_append vs ws ws' h⟩

/-- The tokens that go on with a name. -/
def nameJoins : List SourceKind := [.leftParen, .leftBracket, .dot, .colonColon]

/-- Do tokens not go on with a formula in a place that takes ranks up to a limit? -/
def Follows (limit : Nat) (s : List (Nat × SourceKind)) : Prop :=
  ∀ v ∈ s.head?, v.2 ∉ nameJoins ∧ (∀ ops ∈ SourceGrammar.binaryLevels.take limit, v.2 ∉ ops) ∧
    (conditionalRank ≤ limit → v.2 ≠ .question)

theorem Follows.mono {k limit : Nat} {s : List (Nat × SourceKind)} (h : Follows limit s)
    (hk : k ≤ limit) : Follows k s := by
  intro v hv
  obtain ⟨hjoins, hlevels, hquestion⟩ := h v hv
  refine ⟨hjoins, fun ops hops => hlevels ops ?_, fun hle => hquestion (hle.trans hk)⟩
  exact (List.take_prefix_take_left hk).subset hops

namespace SourceGrammar

open Runner

/-- The runs of a grammar with references nested so deep. -/
abbrev runs (fuel : Nat) (g : SourceGrammar) : Runner SourceKind := g.run (runRef rules fuel)

/-- The level of a rank. -/
def level (rank : Nat) : SourceGrammar := (binaryLevels.take rank).foldl (binaryLevel false)
    (operand false)

theorem level_succ {k : Nat} {ops : List SourceKind} (h : binaryLevels[k]? = some ops) :
    level (k + 1) = binaryLevel false (level k) ops := by
  simp [level, List.take_add_one, h]

/-- What a unary operator stands before. -/
def unaryOperand : SourceGrammar := alt (ref (.unary false)) (primary false)

variable {stands : Nat → FormulaWord → Prop} {fuel k limit : Nat}
  {s vs rest : List (Nat × SourceKind)} {f g h : Formula} {t : ParseTree}

/-! ### What stands behind -/

theorem follows_cons {i : Nat} {kind : SourceKind} (s : List (Nat × SourceKind))
    (h : kind ∉ nameJoins ∧ (∀ ops ∈ binaryLevels.take limit, kind ∉ ops) ∧
      (conditionalRank ≤ limit → kind ≠ .question)) : Follows limit ((i, kind) :: s) := by
  intro v hv
  obtain rfl := Option.some.inj hv
  exact h

/-- Behind a closing parenthesis, a colon or a semicolon nothing goes on. -/
theorem follows_close {i : Nat} {kind : SourceKind} (s : List (Nat × SourceKind))
    (h : kind = .rightParen ∨ kind = .colon ∨ kind = .semi) :
    Follows conditionalRank ((i, kind) :: s) := by
  refine follows_cons s ?_
  rcases h with rfl | rfl | rfl <;> decide

theorem follows_question (i : Nat) (s : List (Nat × SourceKind)) :
    Follows 11 ((i, .question) :: s) :=
  follows_cons s (by decide)

/-- **The level of an operator**: it is among the operators of the level of its rank, and on no
tighter one. -/
theorem exists_level (op : BinaryOperator) : ∃ k ops, op.rank = k + 1 ∧ k < 11 ∧
    binaryLevels[k]? = some ops ∧ op.kind ∈ ops ∧ op.kind ∉ nameJoins ∧
    ∀ ops' ∈ binaryLevels.take k, op.kind ∉ ops' := by
  cases op
  case bitXnor b => cases b <;> exact ⟨_, _, rfl, by decide, rfl, by decide, by decide, by decide⟩
  all_goals exact ⟨_, _, rfl, by decide, rfl, by decide, by decide, by decide⟩

/-! ### Operands -/

/-- What begins with a token of a kind is taken off. -/
theorem takes_kind (fuel i : Nat) (kind : SourceKind) (s : List (Nat × SourceKind)) :
    (runs fuel (token kind)).Takes ((i, kind) :: s) s [.leaf i] :=
  takes_token i s (beq_self_eq_true kind)

/-- What no part of a grammar begins with is refused. -/
theorem refuses_front (fuel : Nat) {i : Nat} {kind : SourceKind} (g : SourceGrammar)
    (h : g.Refuses (some kind) = true) : (runs fuel g).Refuses ((i, kind) :: s) :=
  refuses_run _ rfl g h

/-- A token that goes on with a name is not there. -/
theorem refuses_join (h : Follows limit rest) {kind : SourceKind} (hk : kind ∈ nameJoins) :
    (runs fuel (token kind)).Refuses rest := by
  refine refuses_token fun v hv => beq_eq_false_iff_ne.mpr ?_
  rintro rfl
  exact (h v hv).1 hk

theorem refuses_ref_unary {i : Nat} {kind : SourceKind}
    (h : (unary false).Refuses (some kind) = true) :
    (runs fuel (ref (.unary false))).Refuses ((i, kind) :: s) := by
  cases fuel with
  | zero => exact fun n => ⟨_, rfl⟩
  | succ fuel => exact refuses_front fuel (unary false) h

theorem takes_name (i : Nat) (s : List (Nat × SourceKind)) :
    (runs fuel identifier).Takes ((i, .identifier) :: s) s [.leaf i] := takes_token i s rfl

/-- A reference that is a name alone. -/
theorem takes_reference (fuel : Nat) (h : Follows limit rest) (i : Nat) :
    (runs fuel (reference false)).Takes ((i, .identifier) :: rest) rest [.leaf i] := by
  have hscope : (runs fuel scope).Refuses ((i, .identifier) :: rest) :=
    (((takes_name i rest).map _).seqRefuses (refuses_join h (by decide))).map _
  have hdot : (runs fuel (seq (token .dot) identifier)).Refuses rest :=
    (refuses_join h (by decide)).seq _
  have hselect : (runs fuel (select false)).Takes rest rest [] :=
    ((((refuses_join h (by decide)).seq _).many 0).map _).opt
  exact hscope.opt.seq ((takes_name i rest).seq (((Steps.nil rest).many hdot).seq hselect))

theorem takes_primary_name (h : Follows limit rest) (i : Nat) :
    (runs fuel (primary false)).Takes ((i, .identifier) :: rest) rest
      [.node .paPrimary [.leaf i]] := by
  have hcall : (runs fuel (rule .paComplexFuncCall [identifier, callArguments false])).Refuses
      ((i, .identifier) :: rest) :=
    ((takes_name i rest).seqRefuses ((refuses_join h (by decide)).seq _)).map _
  have hreference := (takes_reference fuel h i).alt (runs fuel
    (choice [literal, parens [expression false]]))
  have hfront (g : SourceGrammar) (hg : g.Refuses (some .identifier) = true) :
      (runs fuel g).Refuses ((i, .identifier) :: rest) := refuses_front fuel g hg
  exact ((hfront (multipleConcatenation false) rfl).altTakes
    ((hfront (concatenation false) rfl).altTakes
      ((hfront (systemCall false) rfl).altTakes (hcall.altTakes hreference)))).map _

theorem takes_primary_number (i : Nat) (rest : List (Nat × SourceKind)) :
    (runs fuel (primary false)).Takes ((i, .intConst) :: rest) rest
      [.node .paPrimary [.node .paPrimaryLiteral [.leaf i]]] := by
  have hliteral : (runs fuel literal).Takes ((i, .intConst) :: rest) rest
      [.node .paPrimaryLiteral [.leaf i]] := ((takes_token i rest rfl).alt _).map _
  exact (takes_choice _ rfl 5 rfl rfl hliteral).map _

/-- A formula in parentheses is an operand. -/
theorem takes_primary_group {j : Nat} (i : Nat)
    (h : (runs fuel (expression false)).Takes s ((j, .rightParen) :: rest) [t]) :
    (runs fuel (primary false)).Takes ((i, .leftParen) :: s) rest
      [.node .paPrimary [.leaf i, t, .leaf j]] := by
  have hparens : (runs fuel (parens [expression false])).Takes ((i, .leftParen) :: s) rest
      [.leaf i, t, .leaf j] := (takes_kind _ i .leftParen s).seq
      (h.seq (takes_kind _ j .rightParen rest))
  exact (takes_choice _ rfl 6 rfl rfl hparens).map _

theorem takes_operand {i : Nat} {kind : SourceKind} {xs : List ParseTree}
    (h : (runs fuel (primary false)).Takes ((i, kind) :: s) rest xs)
    (hk : (unary false).Refuses (some kind) = true) :
    (runs fuel (level 0)).Takes ((i, kind) :: s) rest [.node .paExpression xs] :=
  (refuses_front _ (unary false) hk).altTakes (h.map _)

theorem takes_unaryOperand {i : Nat} {kind : SourceKind} {xs : List ParseTree}
    (h : (runs fuel (primary false)).Takes ((i, kind) :: s) rest xs)
    (hk : (unary false).Refuses (some kind) = true) :
    (runs fuel unaryOperand).Takes ((i, kind) :: s) rest xs :=
  (refuses_ref_unary hk).altTakes h

theorem takes_unary (op : UnaryOperator) (i : Nat)
    (h : (runs fuel unaryOperand).Takes s rest [t]) :
    (runs fuel (unary false)).Takes ((i, op.kind) :: s) rest
    [.node .paExpression [.leaf i, t]] := by
  have hk : op.kind ∈ unaryOperators := by
    cases op
    case reduceXnor b => cases b <;> decide
    all_goals decide
  exact ((takes_token i s (by simpa using hk)).seq h).map _

/-! ### Levels -/

/-- **What is read at a level is read at the next looser one**, if no operator of that follows. -/
theorem takes_level_succ (h : (runs fuel (level k)).Takes s rest [t]) (hk : k < 11)
    (hf : Follows (k + 1) rest) : (runs fuel (level (k + 1))).Takes s rest [t] := by
  obtain ⟨ops, hops⟩ : ∃ ops, binaryLevels[k]? = some ops :=
    ⟨_, List.getElem?_eq_getElem (show k < binaryLevels.length from hk)⟩
  have hstop : (runs fuel (seq (oneOf ops) (level k))).Refuses rest := by
    refine (refuses_token fun v hv => ?_).seq _
    have hmem : ops ∈ binaryLevels.take (k + 1) := by simp [List.take_add_one, hops]
    simpa using (hf v hv).2.1 ops hmem
  -- no operator of the level follows, so the chain has a single link, which is left as it is
  rw [level_succ hops]
  have hone := (h.seq ((Steps.nil rest).many hstop)).map (groupLeft .paExpression)
  rwa [List.append_nil, groupLeft.eq_2 _ _ (by simp)] at hone

theorem takes_level_mono {j : Nat} (h : (runs fuel (level j)).Takes s rest [t]) (hjk : j ≤ k)
    (hk : k ≤ 11) (hf : Follows k rest) : (runs fuel (level k)).Takes s rest [t] := by
  induction k, hjk using Nat.le_induction with
  | base => exact h
  | succ k hjk ih =>
    exact takes_level_succ (ih (Nat.le_of_succ_le hk) (hf.mono (Nat.le_succ k))) hk hf

/-- Are tokens the operands of a level with operators between that, grouped to the left, make a
tree? -/
def Chains (fuel k : Nat) (ops : List SourceKind) (s rest : List (Nat × SourceKind))
    (t : ParseTree) : Prop :=
  ∃ mid xs ys, (runs fuel (level k)).Takes s mid xs ∧
    Steps (runs fuel (seq (oneOf ops) (level k))) mid rest ys ∧
    ∀ more, groupLeft .paExpression (xs ++ (ys ++ more)) = groupLeft .paExpression (t :: more)

variable {ops : List SourceKind}

theorem Chains.of_level (h : (runs fuel (level k)).Takes s rest [t]) :
    Chains fuel k ops s rest t :=
  ⟨rest, [t], [], h, .nil rest, fun _ => rfl⟩

/-- **A link more**: an operator of the level and an operand. -/
theorem Chains.link {i : Nat} {kind : SourceKind} {u : List (Nat × SourceKind)} {r : ParseTree}
    (h : Chains fuel k ops s ((i, kind) :: (u ++ rest)) t) (hkind : kind ∈ ops)
    (hr : (runs fuel (level k)).Takes (u ++ rest) rest [r]) :
    Chains fuel k ops s rest (.node .paExpression [t, .leaf i, r]) := by
  obtain ⟨mid, xs, ys, hfirst, hsteps, hgroup⟩ := h
  have hlink : (runs fuel (seq (oneOf ops) (level k))).Takes ((i, kind) :: (u ++ rest)) rest
      ([.leaf i] ++ [r]) := (takes_token i _ (by simpa using hkind)).seq hr
  refine ⟨mid, xs, ys ++ ([.leaf i, r] ++ []), hfirst,
    hsteps.trans (.cons hlink (by rw [List.length_cons, List.length_append]; omega) (.nil rest)),
    fun more => ?_⟩
  rw [List.append_nil, List.append_assoc, hgroup, List.cons_append, List.cons_append,
    List.nil_append, groupLeft]

theorem Chains.takes_level (h : Chains fuel k ops s rest t) (hops : binaryLevels[k]? = some ops)
    (hf : Follows (k + 1) rest) : (runs fuel (level (k + 1))).Takes s rest [t] := by
  obtain ⟨mid, xs, ys, hfirst, hsteps, hgroup⟩ := h
  have hstop : (runs fuel (seq (oneOf ops) (level k))).Refuses rest := by
    refine (refuses_token fun v hv => ?_).seq _
    have hmem : ops ∈ binaryLevels.take (k + 1) := by simp [List.take_add_one, hops]
    simpa using (hf v hv).2.1 ops hmem
  rw [level_succ hops]
  have hall := (hfirst.seq (hsteps.many hstop)).map (groupLeft .paExpression)
  have hone := hgroup []
  rw [List.append_nil, groupLeft.eq_2 _ [t] (by simp)] at hone
  rwa [hone] at hall

/-! ### Formulas -/

/-- Are tokens taken that are the words of a list, as a tree of a formula, in a place that takes
ranks up to a limit? References nest no deeper than there are words, or so many less. -/
def TakesWords (stands : Nat → FormulaWord → Prop) (g : SourceGrammar) (limit less : Nat)
    (f : Formula) (ws : List FormulaWord) : Prop :=
  ∀ fuel vs rest, Spells stands vs ws → Follows limit rest → vs.length + less ≤ fuel →
    ∃ t, (runs fuel g).Takes (vs ++ rest) rest [t] ∧ f.Reads stands t

/-- `TakesWords` for a chain of operands of a level. -/
def ChainsWords (stands : Nat → FormulaWord → Prop) (k : Nat) (ops : List SourceKind) (f : Formula)
    (ws : List FormulaWord) : Prop :=
  ∀ fuel vs rest, Spells stands vs ws → Follows k rest → vs.length ≤ fuel →
    ∃ t, Chains fuel k ops (vs ++ rest) rest t ∧ f.Reads stands t

/-- **What the words of a formula are read as**: behind a unary operator, at every level, as the
first links of a chain, and by themselves. -/
structure IsRead (stands : Nat → FormulaWord → Prop) (f : Formula) : Prop where
  behind : TakesWords stands unaryOperand 0 1 f (placed 0 f.rank f.words)
  atLevel : ∀ k ≤ 11, TakesWords stands (level k) k 0 f (placed k f.rank f.words)
  chain : ∀ k ops, binaryLevels[k]? = some ops →
    ChainsWords stands k ops f (placed (k + 1) f.rank f.words)
  whole : TakesWords stands (conditional false) conditionalRank 0 f f.words

/-- The words of a formula in parentheses are an operand. -/
theorem takes_group (h : TakesWords stands (conditional false) conditionalRank 0 f f.words)
    (hs : Spells stands vs (.leftParen :: (f.words ++ [.rightParen]))) (hfuel : vs.length ≤ fuel)
    (rest : List (Nat × SourceKind)) :
    ∃ i s ts, vs ++ rest = (i, .leftParen) :: s ∧
      (runs fuel (primary false)).Takes ((i, .leftParen) :: s) rest [.node .paPrimary ts] ∧
      f.Reads stands (.node .paPrimary ts) := by
  obtain ⟨i, inside, rfl, hi, hinside⟩ := hs.cons
  obtain ⟨us, close, rfl, hus, hclose⟩ := hinside.append
  obtain ⟨j, more, rfl, hj, hmore⟩ := hclose.cons
  obtain rfl := List.forall₂_nil_right_iff.mp hmore
  obtain ⟨fuel, rfl⟩ : ∃ n, fuel = n + 1 := ⟨fuel - 1, by simp at hfuel; omega⟩
  have hlen : us.length + 0 ≤ fuel := by
    simp at hfuel
    omega
  obtain ⟨t, ht, hr⟩ := h fuel us ((j, .rightParen) :: rest) hus (follows_close rest (by simp)) hlen
  refine ⟨i, us ++ ((j, .rightParen) :: rest), [.leaf i, t, .leaf j], ?_, ?_, .group hi hj hr⟩
  · simp [FormulaWord.kind]
  · exact takes_primary_group i ht

theorem placed_of_le {rank : Nat} {ws : List FormulaWord} (h : rank ≤ limit) :
    placed limit rank ws = ws := if_pos h

theorem placed_of_lt {rank : Nat} {ws : List FormulaWord} (h : limit < rank) :
    placed limit rank ws = .leftParen :: (ws ++ [.rightParen]) := if_neg (Nat.not_le.mpr h)

/-- **A formula is read in every place**, in parentheses or not, if its own words are read as a
whole, at the level of its rank and as a chain that ends in it. -/
theorem IsRead.of_words (hwhole : TakesWords stands (conditional false) conditionalRank 0 f f.words)
    (hunary : f.rank = 0 → TakesWords stands unaryOperand 0 1 f f.words)
    (hlevel : f.rank ≤ 11 → TakesWords stands (level f.rank) f.rank 0 f f.words)
    (hchain : ∀ k ops, f.rank = k + 1 → binaryLevels[k]? = some ops →
      ChainsWords stands k ops f f.words) : IsRead stands f := by
  have hnot : (unary false).Refuses (some .leftParen) = true := rfl
  have hlevels (k : Nat) (hk : k ≤ 11) :
      TakesWords stands (level k) k 0 f (placed k f.rank f.words) := by
    intro fuel vs rest hs hf hfuel
    -- in a place for tighter ranks the words stand in parentheses, elsewhere by themselves
    rcases Nat.lt_or_ge k f.rank with hlt | hle
    · rw [placed_of_lt hlt] at hs
      obtain ⟨i, s, ts, heq, hp, hr⟩ := takes_group hwhole hs hfuel rest
      rw [heq]
      exact ⟨_, takes_level_mono (takes_operand hp hnot) (Nat.zero_le k) hk hf, hr.operand⟩
    · rw [placed_of_le hle] at hs
      obtain ⟨t, ht, hr⟩ := hlevel (hle.trans hk) fuel vs rest hs (hf.mono hle) hfuel
      exact ⟨t, takes_level_mono ht hle hk hf, hr⟩
  refine ⟨?_, hlevels, ?_, hwhole⟩
  · intro fuel vs rest hs hf hfuel
    rcases Nat.eq_zero_or_pos f.rank with h0 | hpos
    · rw [placed_of_le (Nat.le_of_eq h0)] at hs
      exact hunary h0 fuel vs rest hs hf hfuel
    · rw [placed_of_lt hpos] at hs
      obtain ⟨i, s, ts, heq, hp, hr⟩ := takes_group hwhole hs (Nat.le_of_succ_le hfuel) rest
      rw [heq]
      exact ⟨_, takes_unaryOperand hp hnot, hr⟩
  · intro k ops hops fuel vs rest hs hf hfuel
    by_cases heq : f.rank = k + 1
    · rw [placed_of_le (Nat.le_of_eq heq)] at hs
      exact hchain k ops heq hops fuel vs rest hs hf hfuel
    · -- what is not of the rank of the level is the first link by itself
      have hk : k < 11 := (List.getElem?_eq_some_iff.mp hops).1
      have hsame : placed (k + 1) f.rank f.words = placed k f.rank f.words := by
        rw [placed, placed]
        congr 1
        exact propext ⟨fun h => by omega, fun h => by omega⟩
      rw [hsame] at hs
      obtain ⟨t, ht, hr⟩ := hlevels k hk.le fuel vs rest hs hf hfuel
      exact ⟨t, .of_level ht, hr⟩

/-- What is read at the level of its rank is read as a whole. -/
theorem whole_of_level (hrank : f.rank ≤ 11)
    (h : TakesWords stands (level f.rank) f.rank 0 f f.words) :
    TakesWords stands (conditional false) conditionalRank 0 f f.words := by
  intro fuel vs rest hs hf hfuel
  obtain ⟨t, ht, hr⟩ := h fuel vs rest hs (hf.mono (hrank.trans (by decide))) hfuel
  have hbinary := takes_level_mono ht hrank (Nat.le_refl 11) (hf.mono (by decide))
  have hstop : (runs fuel (token .question)).Refuses rest :=
    refuses_token fun v hv => beq_eq_false_iff_ne.mpr ((hf v hv).2.2 (Nat.le_refl _))
  refine ⟨t, ?_, hr⟩
  exact (hbinary.seq (hstop.seq _).opt).map (wrapConditional .paExpression)

/-- A formula of the tightest rank. -/
theorem IsRead.of_operand (hrank : f.rank = 0) (hunary : TakesWords stands unaryOperand 0 1 f
    f.words)
    (hlevel : TakesWords stands (level 0) 0 0 f f.words) : IsRead stands f := by
  have hlevel : TakesWords stands (level f.rank) f.rank 0 f f.words := hrank ▸ hlevel
  exact .of_words (whole_of_level (by omega) hlevel) (fun _ => hunary) (fun _ => hlevel)
    fun k ops hk => by omega

/-- A formula whose words are an operand without unary operators. -/
theorem IsRead.of_primary (hrank : f.rank = 0)
    (h : ∀ fuel vs rest, Spells stands vs f.words → Follows 0 rest → vs.length ≤ fuel →
      ∃ i kind s ts, vs ++ rest = (i, kind) :: s ∧ (unary false).Refuses (some kind) = true ∧
        (runs fuel (primary false)).Takes ((i, kind) :: s) rest [.node .paPrimary ts] ∧
        f.Reads stands (.node .paPrimary ts)) : IsRead stands f := by
  refine .of_operand hrank (fun fuel vs rest hs hf hfuel => ?_) fun fuel vs rest hs hf hfuel => ?_
  · obtain ⟨i, kind, s, ts, heq, hk, hp, hr⟩ := h fuel vs rest hs hf (Nat.le_of_succ_le hfuel)
    rw [heq]
    exact ⟨_, takes_unaryOperand hp hk, hr⟩
  · obtain ⟨i, kind, s, ts, heq, hk, hp, hr⟩ := h fuel vs rest hs hf hfuel
    rw [heq]
    exact ⟨_, takes_operand hp hk, hr.operand⟩

theorem IsRead.unary (op : UnaryOperator) (h : IsRead stands f) : IsRead stands (.unary op f) := by
  have htakes (fuel : Nat) (vs rest : List (Nat × SourceKind))
      (hs : Spells stands vs (Formula.unary op f).words) (hf : Follows 0 rest)
      (hfuel : vs.length ≤ fuel) :
      ∃ t, (runs fuel (SourceGrammar.unary false)).Takes (vs ++ rest) rest [t] ∧
        (Formula.unary op f).Reads stands t := by
    obtain ⟨i, us, rfl, hi, hus⟩ := hs.cons
    obtain ⟨t, ht, hr⟩ := h.behind fuel us rest hus hf hfuel
    exact ⟨_, takes_unary op i ht, .unary hi hr⟩
  refine .of_operand rfl (fun fuel vs rest hs hf hfuel => ?_) fun fuel vs rest hs hf hfuel => ?_
  · -- behind a unary operator another one is a reference, which takes a step of the depth
    obtain ⟨fuel, rfl⟩ : ∃ n, fuel = n + 1 := ⟨fuel - 1, by omega⟩
    obtain ⟨t, ht, hr⟩ := htakes fuel vs rest hs hf (Nat.le_of_succ_le_succ hfuel)
    exact ⟨t, Takes.alt ht _, hr⟩
  · obtain ⟨t, ht, hr⟩ := htakes fuel vs rest hs hf hfuel
    exact ⟨t, Takes.alt ht _, hr⟩

/-- **A binary operation ends a chain**: its left operand is the chain up to the last operator, its
right operand is the last link. -/
theorem chains_binary {op : BinaryOperator} (hrank : op.rank = k + 1) (hk : k < 11)
    (hops : binaryLevels[k]? = some ops) (hmem : op.kind ∈ ops) (hjoin : op.kind ∉ nameJoins)
    (hfree : ∀ ops' ∈ binaryLevels.take k, op.kind ∉ ops') (hl : IsRead stands f)
    (hr : IsRead stands g) :
    ChainsWords stands k ops (.binary op f g) (Formula.binary op f g).words := by
  intro fuel vs rest hs hf hfuel
  rw [Formula.words, hrank, Nat.add_sub_cancel] at hs
  obtain ⟨us, us', rfl, hleft, hus'⟩ := hs.append
  obtain ⟨i, right, rfl, hi, hright⟩ := hus'.cons
  rw [List.length_append, List.length_cons] at hfuel
  have hbehind : Follows k ((i, op.kind) :: (right ++ rest)) :=
    follows_cons _ ⟨hjoin, hfree, fun hle => absurd (hle.trans hk.le) (by decide)⟩
  -- the left operand may be of the rank itself, the right one has to be tighter
  obtain ⟨l, hl, hlr⟩ := hl.chain k ops hops fuel us _ hleft hbehind (by omega)
  obtain ⟨r, hr, hrr⟩ := hr.atLevel k hk.le fuel right rest hright hf (by omega)
  rw [List.append_assoc]
  exact ⟨_, Chains.link hl hmem hr, .binary hlr hi hrr⟩

theorem IsRead.binary (op : BinaryOperator) (hl : IsRead stands f) (hr : IsRead stands g) :
    IsRead stands (.binary op f g) := by
  obtain ⟨k, ops, hrank, hk, hops, hmem, hjoin, hfree⟩ := exists_level op
  have hchain := chains_binary hrank hk hops hmem hjoin hfree hl hr
  have hlevel : TakesWords stands (level op.rank) op.rank 0 (.binary op f g)
      (Formula.binary op f g).words := by
    intro fuel vs rest hs hf hfuel
    rw [hrank] at hf ⊢
    obtain ⟨t, ht, hr⟩ := hchain fuel vs rest hs (hf.mono (Nat.le_succ k)) hfuel
    exact ⟨t, ht.takes_level hops hf, hr⟩
  have hle : (Formula.binary op f g).rank ≤ 11 := by
    rw [rank, hrank]
    exact hk
  refine .of_words (whole_of_level hle hlevel) (fun h0 => ?_) (fun _ => hlevel)
    fun k' ops' hk' hops' => ?_
  · rw [rank, hrank] at h0
    cases h0
  · rw [rank, hrank] at hk'
    obtain rfl := Nat.succ.inj hk'
    obtain rfl := Option.some.inj (hops.symm.trans hops')
    exact hchain

/-- A choice is looser than every level, so it is read as a whole only. -/
theorem IsRead.choose (hc : IsRead stands f) (hy : IsRead stands g) (hn : IsRead stands h) :
    IsRead stands (.choose f g h) := by
  refine .of_words (fun fuel vs rest hs hf hfuel => ?_) (fun h0 => by cases h0)
    (fun hle => absurd (show conditionalRank ≤ 11 from hle) (by decide)) fun k ops hk hops => ?_
  · obtain ⟨us, us', rfl, hus, hus'⟩ := hs.append
    obtain ⟨i, more, rfl, hi, hmore⟩ := hus'.cons
    obtain ⟨ys, more, rfl, hys, hmore⟩ := hmore.append
    obtain ⟨j, ns, rfl, hj, hns⟩ := hmore.cons
    simp only [List.length_append, List.length_cons] at hfuel
    obtain ⟨fuel, rfl⟩ : ∃ n, fuel = n + 1 := ⟨fuel - 1, by omega⟩
    have hquestion := follows_question i (ys ++ ((j, .colon) :: (ns ++ rest)))
    have hcolon : Follows conditionalRank ((j, .colon) :: (ns ++ rest)) :=
      follows_close _ (by simp)
    obtain ⟨c', hct, hcr⟩ := hc.atLevel 11 (Nat.le_refl _) (fuel + 1) us _ hus hquestion
      (by omega)
    obtain ⟨y', hyt, hyr⟩ := hy.whole fuel ys _ hys hcolon (by omega)
    obtain ⟨n', hnt, hnr⟩ := hn.whole fuel ns rest hns hf (by omega)
    refine ⟨.node .paExpression [c', .leaf i, y', .leaf j, n'], ?_, .choose hcr hi hyr hj hnr⟩
    have hno := (takes_kind (fuel + 1) j .colon (ns ++ rest)).seq hnt
    have hbranches := (takes_kind (fuel + 1) i .question _).seq (hyt.seq hno)
    have hall := (hct.seq hbranches.opt).map (wrapConditional .paExpression)
    have hwords : us ++ (i, .question) :: (ys ++ (j, .colon) :: ns) ++ rest =
        us ++ (i, .question) :: (ys ++ (j, .colon) :: (ns ++ rest)) := by simp
    exact hwords ▸ hall
  · obtain rfl : k = 11 := by
      rw [rank, conditionalRank] at hk
      omega
    cases hops

/-- **Every formula is read as what it is.** -/
theorem isRead (stands : Nat → FormulaWord → Prop) (f : Formula) : IsRead stands f := by
  induction f with
  | name x =>
    refine .of_primary rfl fun fuel vs rest hs hf _ => ?_
    obtain ⟨i, us, rfl, hi, hus⟩ := hs.cons
    obtain rfl := List.forall₂_nil_right_iff.mp hus
    exact ⟨i, .identifier, rest, _, rfl, rfl, takes_primary_name hf i, .name hi⟩
  | number n =>
    refine .of_primary rfl fun fuel vs rest hs hf _ => ?_
    obtain ⟨i, us, rfl, hi, hus⟩ := hs.cons
    obtain rfl := List.forall₂_nil_right_iff.mp hus
    exact ⟨i, .intConst, rest, _, rfl, rfl, takes_primary_number i rest, .number hi⟩
  | parens f ih =>
    refine .of_primary rfl fun fuel vs rest hs _ hfuel => ?_
    obtain ⟨i, s, ts, heq, hp, hr⟩ := takes_group ih.whole hs hfuel rest
    exact ⟨i, _, s, ts, heq, rfl, hp, hr.parens⟩
  | unary op f ih => exact ih.unary op
  | binary op f g ihf ihg => exact ihf.binary op ihg
  | choose c f g ihc ihf ihg => exact ihc.choose ihf ihg

end SourceGrammar

end Verilog
