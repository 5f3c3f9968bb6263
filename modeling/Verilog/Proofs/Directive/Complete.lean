import Mathlib.Data.List.Forall2
import Verilog.Proofs.Directive.Pieces

/-!
# Every token is in the tree

The grammar of directives gives up no text: it has a tree for every list of tokens, and it finds no
fault with any (`DirectiveGrammar.parse_faultless`). Nor does it drop a token. What is left out can
be told from the tree, since it is a comma wherever two arguments stand side by side and nothing
else. So a tree is written out as a row of spots (`ParseTree.spots`), one for each leaf and one
without a leaf between neighbouring arguments, and the row goes with the tokens one by one
(`DirectiveGrammar.spots_parse`).

Of grammars put together it is asked that arguments never meet but in a list of them, where there is
a comma between (`DirectiveGrammar.Fills`); one induction over the grammar proves the rest of it
(`DirectiveGrammar.fills_run`).
-/

namespace Verilog

open ParseTree

/-! ### Runs without faults -/

section Faultless

variable {κ ν : Type}

/-- What a run ends with that has recovered from no fault. -/
inductive Reply.Clean : Reply κ → Prop
  | ok (trees : List ParseTree) (next : Cursor κ) (beyond : Option (Fault κ)) :
    Clean (.ok [] trees next beyond)
  | fail (fault : Fault κ) : Clean (.fail [] fault)

/-- A way to run that recovers from no fault: it succeeds without any, or stops at the first. -/
def Runner.Strict (a : Runner κ) : Prop := ∀ c, (a c).Clean

namespace Runner

variable {a b : Runner κ}

theorem strict_token (expected : List (Option κ)) (p : κ → Bool) :
    (token expected p).Strict := by
  rintro ⟨offset, _ | ⟨⟨i, k⟩, rest⟩⟩
  · exact .fail _
  · rw [token]
    split
    · exact .ok _ _ _
    · exact .fail _

theorem Strict.map (ha : a.Strict) (f : List ParseTree → List ParseTree) : (map f a).Strict := by
  intro c
  have h := ha c
  rw [Runner.map]
  generalize a c = r at h ⊢
  cases h with
  | ok => exact .ok _ _ _
  | fail => exact .fail _

theorem Strict.opt (ha : a.Strict) : (opt a).Strict := by
  intro c
  have h := ha c
  rw [Runner.opt]
  generalize a c = r at h ⊢
  cases h <;> exact .ok _ _ _

variable [DecidableEq κ]

theorem Strict.seq (ha : a.Strict) (hb : b.Strict) : (seq a b).Strict := by
  intro c
  have h := ha c
  rw [Runner.seq]
  generalize a c = r at h ⊢
  cases h with
  | fail => exact .fail _
  | ok trees next beyond =>
    have h' := hb next
    dsimp only
    generalize b next = r at h' ⊢
    cases h' with
    | ok => exact .ok _ _ _
    | fail => exact .fail _

theorem Strict.alt (ha : a.Strict) (hb : b.Strict) : (alt a b).Strict := by
  intro c
  have h := ha c
  have h' := hb c
  rw [Runner.alt]
  generalize a c = r at h ⊢
  cases h with
  | ok => exact .ok _ _ _
  | fail =>
    dsimp only
    generalize b c = r at h' ⊢
    cases h' with
    | ok => exact .ok _ _ _
    | fail => exact .fail _

theorem Strict.manyFrom (ha : a.Strict) (fuel : Nat) : ∀ {pending trees beyond c},
    (manyFrom a fuel pending [] trees beyond c).Clean := by
  induction fuel with
  | zero => exact .ok _ _ _
  | succ fuel ih =>
    intro pending trees beyond c
    have h := ha c
    rw [Runner.manyFrom]
    generalize a c = r at h ⊢
    cases h with
    | ok => exact ih
    | fail =>
      dsimp only
      split
      · exact .ok _ _ _
      · exact .fail _

theorem Strict.many (ha : a.Strict) (least : Nat) : (many least a).Strict :=
  fun _ => manyFrom ha _

theorem Strict.sepByFrom {separator : Runner κ} (hs : separator.Strict) (ha : a.Strict)
    (fuel : Nat) : ∀ {pending trees beyond c},
      (sepByFrom separator a fuel pending [] trees beyond c).Clean := by
  induction fuel with
  | zero => exact .ok _ _ _
  | succ fuel ih =>
    intro pending trees beyond c
    -- the list ends here if there is no separator, or no item behind it
    have hstop (beyond' : Option (Fault κ)) (fault : Fault κ) :
        Reply.Clean (if pending = 0 then .ok [] trees.reverse c beyond' else .fail [] fault) := by
      split
      · exact .ok _ _ _
      · exact .fail _
    have h := hs c
    rw [Runner.sepByFrom]
    generalize separator c = r at h ⊢
    cases h with
    | fail => exact hstop _ _
    | ok _ next _ =>
      have h' := ha next
      dsimp only
      generalize a next = r at h' ⊢
      cases h' with
      | ok => exact ih
      | fail => exact hstop _ _

theorem Strict.sepBy {separator : Runner κ} (hs : separator.Strict) (ha : a.Strict)
    (least : Nat) : (sepBy least separator a).Strict := by
  intro c
  have h := ha c
  rw [Runner.sepBy]
  generalize a c = r at h ⊢
  cases h with
  | ok => exact sepByFrom hs ha _
  | fail =>
    dsimp only
    split
    · exact .ok _ _ _
    · exact .fail _

theorem Strict.unlessAt (ha : a.Strict) (stops : List κ) : (unlessAt stops a).Strict := by
  intro c
  rw [Runner.unlessAt]
  split
  · exact .fail _
  · split
    · exact .fail _
    · exact ha c

end Runner

namespace Grammar

variable [DecidableEq κ] {sep : κ → Bool}

/-- **A grammar that goes on after no fault recovers from none.** -/
theorem strict_run {callee : ν → Runner κ} (hc : ∀ x, (callee x).Strict) {g : Grammar κ ν}
    (hg : g.keeps sep = true) : (g.run callee).Strict := by
  induction g with
  | empty => exact fun _ => .ok _ _ _
  | token k => exact Runner.strict_token _ _
  | tokenIn p => exact Runner.strict_token _ _
  | seq a b iha ihb =>
    obtain ⟨ha, hb⟩ := Bool.and_eq_true_iff.mp hg
    exact Runner.Strict.seq (iha ha) (ihb hb)
  | alt a b iha ihb =>
    obtain ⟨ha, hb⟩ := Bool.and_eq_true_iff.mp hg
    exact Runner.Strict.alt (iha ha) (ihb hb)
  | opt a ih => exact Runner.Strict.opt (ih hg)
  | many least a ih => exact Runner.Strict.many (ih hg) least
  | sepBy least s a _ iha =>
    cases s with
    | token k =>
      obtain ⟨-, ha⟩ := Bool.and_eq_true_iff.mp hg
      exact Runner.Strict.sepBy (Runner.strict_token _ _) (iha ha) least
    | _ => exact absurd hg Bool.false_ne_true
  | node kind a ih | map f a ih => exact Runner.Strict.map (ih hg) _
  | ref x => exact hc x
  | unlessAt stops a ih => exact Runner.Strict.unlessAt (ih hg) stops
  | retry | skipTo => exact absurd hg Bool.false_ne_true

theorem strict_runRef {rules : ν → Grammar κ ν} (hr : ∀ x, (rules x).keeps sep = true)
    (fuel : Nat) : ∀ x, (runRef rules fuel x).Strict := by
  induction fuel with
  | zero => exact fun _ _ => .fail _
  | succ fuel ih => exact fun x c => strict_run ih (hr x) c

end Grammar

end Faultless

/-! ### Spots -/

/-- Is the kind that of the arguments in a list of them, of a macro or of a use of one? -/
def NodeKind.isArgument (k : NodeKind) : Bool := k == .ppMacroArg || k == .ppFormalArg

namespace ParseTree

/-- Is a tree an argument in a list of them? -/
def isArgument (t : ParseTree) : Bool := t.kind?.any NodeKind.isArgument

@[simp] theorem isArgument_node (kind : NodeKind) (ts : List ParseTree) :
    (node kind ts).isArgument = kind.isArgument := rfl

/-- The spot between a tree and those behind it: there is one between two arguments. -/
def between (t : ParseTree) : List ParseTree → List (Option Nat)
  | [] => []
  | u :: _ => if t.isArgument && u.isArgument then [none] else []

mutual

/-- **A tree as a row of spots**: its leaves, and a spot without a leaf between any two arguments
that stand side by side. -/
def spots : ParseTree → List (Option Nat)
  | leaf i => [some i]
  | node _ ts => spotsAll ts

/-- The spots of a list of trees. -/
def spotsAll : List ParseTree → List (Option Nat)
  | [] => []
  | t :: ts => t.spots ++ t.between ts ++ spotsAll ts

end

/-- None of the trees is an argument. -/
def NoArguments (ts : List ParseTree) : Prop := ∀ t ∈ ts, t.isArgument = false

variable {ts us : List ParseTree}

theorem between_of_noArguments (t : ParseTree) (h : NoArguments us) : t.between us = [] := by
  cases us with
  | nil => rfl
  | cons u us => simp [between, h u List.mem_cons_self]

theorem between_of_not_argument {t : ParseTree} (h : t.isArgument = false)
    (us : List ParseTree) : t.between us = [] := by
  cases us with
  | nil => rfl
  | cons u us => simp [between, h]

theorem spotsAll_append (h : NoArguments ts ∨ NoArguments us) :
    spotsAll (ts ++ us) = spotsAll ts ++ spotsAll us := by
  induction ts with
  | nil => rfl
  | cons t ts ih =>
    have hspot : t.between (ts ++ us) = t.between ts := by
      cases ts with
      | cons u ts => rfl
      | nil =>
        rcases h with h | h
        · exact between_of_not_argument (h t List.mem_cons_self) _
        · exact between_of_noArguments t h
    rw [List.cons_append, spotsAll, spotsAll, hspot,
      ih (h.imp_left fun h u hu => h u (List.mem_cons_of_mem t hu))]
    simp

mutual

/-- The leaves of a tree are its spots that have one. -/
theorem filterMap_spots : (t : ParseTree) → t.spots.filterMap id = t.leaves
  | leaf _ => rfl
  | node _ ts => by rw [spots, leaves, filterMap_spotsAll ts]

theorem filterMap_spotsAll : (ts : List ParseTree) → (spotsAll ts).filterMap id = leavesAll ts
  | [] => rfl
  | t :: ts => by
    have hnone : (t.between ts).filterMap id = [] := by
      cases ts with
      | nil => rfl
      | cons u ts =>
        rw [between]
        split <;> rfl
    rw [spotsAll, leavesAll, List.filterMap_append, List.filterMap_append, hnone,
      filterMap_spots t, filterMap_spotsAll ts, List.append_nil]

end

end ParseTree

/-! ### Runs and their spots -/

/-- What goes into a spot: a leaf's own token, or a comma. -/
def Fits (t : Nat × DirectiveKind) (spot : Option Nat) : Prop :=
  spot = some t.1 ∨ spot = none ∧ t.2 = .comma

/-- **What a run has done whose trees have a spot for each token**: it went past just these tokens.
If `plain`, none of the trees is an argument. -/
structure Cursor.Fills (plain : Bool) (c : Cursor DirectiveKind) (trees : List ParseTree)
    (next : Cursor DirectiveKind) (used : List (Nat × DirectiveKind)) : Prop where
  rest : c.rest = used ++ next.rest
  spots : List.Forall₂ Fits used (spotsAll trees)
  plain : plain = true → NoArguments trees

namespace Cursor.Fills

variable {c d e : Cursor DirectiveKind} {ts us : List ParseTree}
  {x y : List (Nat × DirectiveKind)} {plain plain' : Bool}

theorem refl (plain : Bool) (c : Cursor DirectiveKind) : c.Fills plain [] c [] :=
  ⟨rfl, .nil, fun _ _ h => nomatch h⟩

theorem mono (h : c.Fills plain ts d x) (hp : plain' = true → plain = true) :
    c.Fills plain' ts d x :=
  ⟨h.rest, h.spots, fun h' => h.plain (hp h')⟩

/-- One run after the other, if no argument of the one meets an argument of the other. -/
theorem trans (h : c.Fills plain ts d x) (h' : d.Fills plain' us e y)
    (hp : plain = true ∨ plain' = true) : c.Fills (plain && plain') (ts ++ us) e (x ++ y) := by
  refine ⟨by rw [h.rest, h'.rest, List.append_assoc], ?_, fun hplain => ?_⟩
  · rw [spotsAll_append (hp.imp h.plain h'.plain)]
    exact List.rel_append h.spots h'.spots
  · obtain ⟨h₁, h₂⟩ := Bool.and_eq_true_iff.mp hplain
    exact List.forall_mem_append.mpr ⟨h.plain h₁, h'.plain h₂⟩

end Cursor.Fills

/-- A way to run whose trees have a spot for each token. -/
def Runner.Fills (plain : Bool) (a : Runner DirectiveKind) : Prop :=
  ∀ ⦃c trees next⦄, a.Succeeds c trees next → ∃ used, c.Fills plain trees next used

namespace Runner

variable {a b : Runner DirectiveKind} {plain plain' : Bool}

theorem fills_token (expected : List (Option DirectiveKind)) (p : DirectiveKind → Bool) :
    Fills true (token expected p) := by
  intro c trees next h
  obtain ⟨i, k, hrest, -, rfl, -⟩ := h.of_token
  refine ⟨[(i, k)], hrest, .cons (.inl rfl) .nil, fun _ t ht => ?_⟩
  rw [List.mem_singleton.mp ht]
  rfl

theorem Fills.map {f : List ParseTree → List ParseTree} (ha : Fills plain a)
    (hspots : ∀ ts, spotsAll (f ts) = spotsAll ts) (hplain : plain' = true → ∀ ts,
      NoArguments (f ts)) : Fills plain' (map f a) := by
  intro c trees next h
  obtain ⟨ts, rfl, hts⟩ := h.of_map
  obtain ⟨used, hu⟩ := ha hts
  exact ⟨used, hu.rest, by rw [hspots]; exact hu.spots, fun h => hplain h ts⟩

theorem Fills.seq (ha : Fills plain a) (hb : Fills plain' b)
    (hp : plain = true ∨ plain' = true) : Fills (plain && plain') (seq a b) := by
  intro c trees next h
  obtain ⟨ts, mid, us, hts, hus, rfl⟩ := h.of_seq
  obtain ⟨x, hx⟩ := ha hts
  obtain ⟨y, hy⟩ := hb hus
  exact ⟨x ++ y, hx.trans hy hp⟩

theorem Fills.alt (ha : Fills plain a) (hb : Fills plain' b) :
    Fills (plain && plain') (alt a b) := by
  intro c trees next h
  rcases h.of_alt with h | h
  · obtain ⟨used, hu⟩ := ha h
    exact ⟨used, hu.mono fun h => (Bool.and_eq_true_iff.mp h).1⟩
  · obtain ⟨used, hu⟩ := hb h
    exact ⟨used, hu.mono fun h => (Bool.and_eq_true_iff.mp h).2⟩

theorem Fills.opt (ha : Fills plain a) : Fills plain (opt a) := by
  intro c trees next h
  rcases h.of_opt with h | ⟨rfl, rfl⟩
  · exact ha h
  · exact ⟨[], .refl _ _⟩

theorem Fills.many (ha : Fills true a) (least : Nat) : Fills true (many least a) := by
  intro c trees next h
  have hturns := h.of_many
  clear h
  induction hturns with
  | nil c => exact ⟨[], .refl _ c⟩
  | cons h _ ih =>
    obtain ⟨x, hx⟩ := ha h
    obtain ⟨y, hy⟩ := ih
    exact ⟨x ++ y, hx.trans hy (.inl rfl)⟩

section SepBy

variable {c next : Cursor DirectiveKind} {expected : List (Option DirectiveKind)}
  {us : List ParseTree}

/-- A way to run that gives one argument whenever it succeeds. -/
def GivesArgument (a : Runner DirectiveKind) : Prop :=
  ∀ ⦃c trees next⦄, a.Succeeds c trees next → ∃ t, trees = [t] ∧ t.isArgument = true

/-- Further arguments of a list go behind any argument, each with a comma in front. -/
theorem exists_fits_of_turns (ha : Fills plain a) (hone : GivesArgument a)
    (h : Turns (Separated (token expected (· == .comma)) a) c us next) :
    ∃ used, c.rest = used ++ next.rest ∧ ∀ t : ParseTree, t.isArgument = true →
      List.Forall₂ Fits used (t.between us ++ spotsAll us) := by
  induction h with
  | nil c => exact ⟨[], rfl, fun _ _ => .nil⟩
  | cons h _ ih =>
    obtain ⟨_, mid, hcomma, hitem⟩ := h
    obtain ⟨i, k, hrest, -, -, hk⟩ := hcomma.of_token
    obtain ⟨u, rfl, hu⟩ := hone hitem
    obtain ⟨x, hx⟩ := ha hitem
    obtain ⟨y, hy, hfits⟩ := ih
    have hspots : List.Forall₂ Fits x u.spots := by simpa [spotsAll, between] using hx.spots
    refine ⟨(i, k) :: (x ++ y), by rw [hrest, hx.rest, hy]; simp, fun t ht => ?_⟩
    rw [List.singleton_append, between, ht, hu, spotsAll, List.append_assoc]
    exact .cons (.inr ⟨rfl, beq_iff_eq.mp hk⟩) (List.rel_append hspots (hfits u hu))

/-- **The commas of a list of arguments go where the arguments meet.** -/
theorem Fills.sepBy (ha : Fills plain a) (hone : GivesArgument a) (least : Nat) :
    Fills false (sepBy least (token expected (· == .comma)) a) := by
  intro c trees next h
  rcases h.of_sepBy with ⟨rfl, rfl⟩ | ⟨_, mid, us, hitem, hus, rfl⟩
  · exact ⟨[], .refl _ _⟩
  · obtain ⟨t, rfl, ht⟩ := hone hitem
    obtain ⟨x, hx⟩ := ha hitem
    obtain ⟨y, hy, hfits⟩ := exists_fits_of_turns ha hone hus
    have hspots : List.Forall₂ Fits x t.spots := by simpa [spotsAll, between] using hx.spots
    refine ⟨x ++ y, by rw [hx.rest, hy, List.append_assoc], ?_, fun h => nomatch h⟩
    rw [List.singleton_append, spotsAll, List.append_assoc]
    exact List.rel_append hspots (hfits t ht)

end SepBy

end Runner

namespace DirectiveGrammar

open Grammar

/-- Is no tree of a grammar an argument? -/
def plain : DirectiveGrammar → Bool
  | .empty | .token _ | .tokenIn _ | .ref _ | .map _ _ => true
  | .seq a b | .alt a b => plain a && plain b
  | .opt a | .many _ a | .unlessAt _ a => plain a
  | .node kind _ => !kind.isArgument
  | .sepBy _ _ _ | .retry _ _ | .skipTo _ _ _ => false

/-- **A grammar whose trees have a spot for each token**: its lists are of arguments with commas
between, arguments meet in such lists only, and regrouping does not touch spots. -/
def Fills : DirectiveGrammar → Prop
  | .empty | .token _ | .tokenIn _ | .ref _ => True
  | .seq a b => Fills a ∧ Fills b ∧ (plain a = true ∨ plain b = true)
  | .alt a b => Fills a ∧ Fills b
  | .opt a | .unlessAt _ a | .node _ a => Fills a
  | .many _ a => Fills a ∧ plain a = true
  | .sepBy _ s a =>
    s = .token .comma ∧ (∃ kind b, a = .node kind b ∧ kind.isArgument = true) ∧ Fills a
  | .map f a => (∀ ts, spotsAll (f ts) = spotsAll ts) ∧ (∀ ts, NoArguments (f ts)) ∧ Fills a
  | .retry _ _ | .skipTo _ _ _ => False

theorem fills_run {callee : DirectiveRule → Runner DirectiveKind}
    (hc : ∀ x, (callee x).Fills true) {g : DirectiveGrammar} (hg : Fills g) :
    (g.run callee).Fills (plain g) := by
  induction g with
  | empty =>
    intro c trees next h
    obtain ⟨rfl, rfl⟩ := succeeds_empty h
    exact ⟨[], .refl _ _⟩
  | token k | tokenIn p => exact Runner.fills_token _ _
  | seq a b iha ihb => exact Runner.Fills.seq (iha hg.1) (ihb hg.2.1) hg.2.2
  | alt a b iha ihb => exact Runner.Fills.alt (iha hg.1) (ihb hg.2)
  | opt a ih => exact Runner.Fills.opt (ih hg)
  | many least a ih =>
    have ha := ih hg.1
    have hplain : plain (.many least a) = true := hg.2
    rw [hg.2] at ha
    rw [hplain]
    exact Runner.Fills.many ha least
  | sepBy least s a _ iha =>
    obtain ⟨rfl, ⟨kind, b, rfl, hkind⟩, ha⟩ := hg
    refine Runner.Fills.sepBy (iha ha) (fun c trees next h => ?_) least
    obtain ⟨ts, rfl, -⟩ := Runner.Succeeds.of_map h
    exact ⟨_, rfl, hkind⟩
  | node kind a ih =>
    refine Runner.Fills.map (ih hg) (fun ts => by simp [spotsAll, spots, between]) ?_
    intro h ts t ht
    rw [List.mem_singleton.mp ht, isArgument_node]
    simpa [plain] using h
  | map f a ih => exact Runner.Fills.map (ih hg.2.2) hg.1 fun _ => hg.2.1
  | ref x => exact hc x
  | unlessAt stops a ih => exact fun _ _ _ h => ih hg h.of_unlessAt
  | retry | skipTo => exact hg.elim

theorem fills_balanced : Fills balanced := by
  simp [balanced, groupsAnd, choice, all, Fills, plain]

theorem fills_runRef (fuel : Nat) : ∀ x, (runRef rules fuel x).Fills true := by
  induction fuel with
  | zero =>
    intro x c trees next h
    obtain ⟨_, _, h⟩ := h
    cases h
  | succ fuel ih =>
    intro x c trees next h
    cases x
    exact fills_run ih fills_balanced h

theorem noArguments_definition (ts : List ParseTree) :
    NoArguments [.node (definitionKind ts) ts] := by
  intro t ht
  rw [List.mem_singleton.mp ht, isArgument_node, definitionKind]
  split <;> rfl

theorem fills_macroDefinition : Fills macroDefinition := by
  refine ⟨fun ts => by simp [spotsAll, spots, between], noArguments_definition, ?_⟩
  simp [Fills, plain, spaces, macroName, formalArguments, groupsAnd, macroBody, all, rule,
    NodeKind.isArgument]

theorem fills_macroUse : Fills macroUse := by
  simp [Fills, plain, macroUse, spaces, actualArguments, groupsAnd, all, rule,
    NodeKind.isArgument]

theorem fills_piece : Fills piece := by
  simp [Fills, piece, choice, fills_macroDefinition, fills_macroUse, named, fileInclusion,
    lineNumbering, spaces, macroName, all, rule, plain, NodeKind.isArgument]

/-! ### Whole texts -/

/-- **Every list of tokens has a tree**, and no faults. -/
theorem parse_faultless (tokens : List DirectiveToken) :
    Grammar.parse rules text (numbered 0 tokens) = (some [parse tokens], []) := by
  obtain ⟨recovered, ts, next, beyond, hmany, -, hparse⟩ := run_eq tokens
  have hrules (x : DirectiveRule) : (rules x).keeps isComma = true := by
    cases x
    rfl
  have hkeeps : piece.keeps isComma = true := rfl
  have hpiece := strict_run (strict_runRef hrules (tokens.length + 1)) hkeeps
  have hclean := hpiece.many 0 ⟨0, numbered 0 tokens⟩
  rw [hmany] at hclean
  obtain rfl : recovered = [] := by
    cases hclean
    rfl
  rw [hparse, parse_of_run hparse]

/-- **The spots of a tree go with the tokens one by one.** -/
theorem spots_parse (tokens : List DirectiveToken) :
    List.Forall₂ Fits (numbered 0 tokens) (parse tokens).spots := by
  obtain ⟨recovered, ts, next, beyond, hmany, hrest, hparse⟩ := run_eq tokens
  have hpiece := fills_run (fills_runRef (tokens.length + 1)) fills_piece
  obtain ⟨used, hused⟩ := Runner.Fills.many hpiece 0 ⟨_, _, hmany⟩
  have hall : numbered 0 tokens = used := by simpa [hrest] using hused.rest
  rw [parse_of_run hparse, hall]
  exact hused.spots

/-- Leaves in spots that go with tokens are among the positions of these, in their order. -/
theorem sublist_of_fits {used : List (Nat × DirectiveKind)} {spots : List (Option Nat)}
    (h : List.Forall₂ Fits used spots) : (spots.filterMap id).Sublist (used.map (·.1)) := by
  induction h with
  | nil => exact .slnil
  | cons hfit _ ih =>
    rcases hfit with rfl | ⟨rfl, -⟩
    · exact .cons_cons _ ih
    · exact .cons _ ih

/-- **What it means that the tree of a text is complete**: it is read without a fault, its leaves
are positions of tokens in their order, and every other token is a comma between two arguments that
stand side by side. -/
structure Complete (tokens : List DirectiveToken) : Prop where
  parses : Grammar.parse rules text (tokens.zipIdx.map fun t => (t.2, t.1.kind)) =
    (some [parse tokens], [])
  ordered : (parse tokens).leaves.Pairwise (· < ·)
  /-- There is a spot for each token. -/
  length_spots : (parse tokens).spots.length = tokens.length
  /-- A leaf is the spot of its token. -/
  leaf : ∀ i ∈ (parse tokens).leaves, (parse tokens).spots[i]? = some (some i)
  leftOut : ∀ (i : Nat) (hi : i < tokens.length), i ∉ (parse tokens).leaves →
    (parse tokens).spots[i]? = some none ∧ tokens[i].kind = .comma

/-- **The tree of every text is complete.** -/
theorem complete_parse (tokens : List DirectiveToken) : Complete tokens := by
  have hspots := spots_parse tokens
  have hlength : (parse tokens).spots.length = tokens.length := by
    rw [← hspots.length_eq]
    simp [numbered]
  have hfit (i : Nat) (hi : i < tokens.length) : (parse tokens).spots[i]? = some (some i) ∨
      (parse tokens).spots[i]? = some none ∧ tokens[i].kind = .comma := by
    have := hspots.get (i := i) (by simpa [numbered] using hi) (hlength ▸ hi)
    simpa [numbered, Fits, hlength, hi] using this
  have hmem {i : Nat} : i ∈ (parse tokens).leaves ↔ some i ∈ (parse tokens).spots := by
    rw [← filterMap_spots, List.mem_filterMap]
    simp
  refine ⟨parse_faultless tokens, ?_, hlength, fun i hi => ?_, fun i hi hnot => ?_⟩
  · have hsub := sublist_of_fits hspots
    rw [filterMap_spots, map_fst_numbered] at hsub
    exact .sublist hsub List.pairwise_lt_range'
  · obtain ⟨j, hj, hspot⟩ := List.getElem_of_mem (hmem.mp hi)
    have hat : (parse tokens).spots[j]? = some (some i) :=
      (List.getElem?_eq_getElem hj).trans (congrArg some hspot)
    rcases hfit j (hlength ▸ hj) with h | ⟨h, -⟩
    · obtain rfl : i = j := by simpa using hat.symm.trans h
      exact h
    · simp [hat] at h
  · refine (hfit i hi).resolve_left fun h => hnot (hmem.mpr ?_)
    exact List.mem_of_getElem? h

end DirectiveGrammar

end Verilog
