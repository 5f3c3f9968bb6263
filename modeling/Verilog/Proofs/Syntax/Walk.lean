import Verilog.Proofs.Syntax.Steps

/-!
# Walking a parse tree

A parse tree is gone through from outside in and from left to right: a production is entered, its
parts are met, and it is left. Taken one after the other these are the steps of a walk
(`ParseTree.steps`), and what is kept between them are the nodes made so far and the productions
that are open (`Walk`). In a pause a production is entered without a node, and what stands in it
belongs to the innermost one that has a node.

The number of pauses is that of the open opaque bodies which have a node, and there is no more than
one, since within the first no further production gets a node (`Walk.Sound`). Every step keeps this
and none fails, whatever the tree. So going through a parse tree, which is what its walk does
(`run_steps`), never finds fewer pauses than it needs, and ends without one.

That no mark is left open either is owed to the marks of the text, which could be paired: once all
tokens are dealt with, the open marks are those that pairing left open.
-/

namespace Verilog

/-! ### Walks -/

/-- A step of a walk over a parse tree. -/
inductive WalkStep where
  /-- A production is entered. -/
  | enter (production : ParseTree) (kind : NodeKind)
  /-- A token of a production is met. -/
  | visit (production : ParseTree) (token : Nat)
  /-- The innermost production that is open is left. -/
  | leave

namespace ParseTree

mutual

/-- The steps that lead through a tree that stands in a production. -/
def stepsIn (production : ParseTree) : ParseTree → List WalkStep
  | .leaf i => [.visit production i]
  | .node kind ts => .enter (.node kind ts) kind :: (stepsOfAll (.node kind ts) ts ++ [.leave])

/-- The steps that lead through the parts of a production. -/
def stepsOfAll (production : ParseTree) : List ParseTree → List WalkStep
  | [] => []
  | t :: ts => stepsIn production t ++ stepsOfAll production ts

end

/-- The steps of a walk over a whole tree. -/
def steps (t : ParseTree) : List WalkStep := stepsIn t t

end ParseTree

/-- What a walk knows between two steps. -/
structure Walk where
  growth : Growth := {}
  /-- The productions that are open, the innermost one first, with their kinds and what is around
  their parts; nothing of those that were entered in a pause. -/
  frames : List (Option (NodeKind × Surroundings)) := []

namespace Walk

open Growth

/-- What is around the next part: the innermost open production that has a node. -/
def around (frames : List (Option (NodeKind × Surroundings))) : Surroundings :=
  match frames.findSome? id with
  | some (_, within) => within
  | none => ⟨rootId, none⟩

/-- Enters the root, which covers all tokens. -/
def enterRoot (s : GrowthSource) (t : ParseTree) (kind : NodeKind) (g : Growth) : Walk :=
  let (_, g) := g.add (rootNode s kind)
  let g := if kind = .paOpaqueBody then { g with pauses := g.pauses + 1 } else g
  let (element, g) := g.addElement s t rootId none
  ⟨g, [some (kind, ⟨rootId, element⟩)]⟩

/-- Enters a production within the root. -/
def enter (s : GrowthSource) (t : ParseTree) (kind : NodeKind) (w : Walk) : Walk :=
  let g := w.growth.reach s (around w.frames).parent t
  if g.pauses > 0 then ⟨g, none :: w.frames⟩
  else
    let (within, g) := g.addProduction s t kind (around w.frames)
    ⟨g, some (kind, within) :: w.frames⟩

/-- Goes one step on. -/
def step (s : GrowthSource) (w : Walk) : WalkStep → Except Failure Walk
  | .enter t kind =>
    if w.frames.isEmpty && w.growth.nodes.isEmpty then .ok (enterRoot s t kind w.growth)
    else .ok (w.enter s t kind)
  | .visit production i =>
    .ok { w with growth := w.growth.addLeaf s (around w.frames).parent production i }
  | .leave =>
    match w.frames with
    | [] => .ok w
    | none :: frames => .ok { w with frames }
    | some (kind, _) :: frames => do return ⟨← w.growth.leave s kind, frames⟩

/-- Goes a row of steps. -/
def run (s : GrowthSource) (w : Walk) (steps : List WalkStep) : Except Failure Walk :=
  steps.foldlM (step s) w

variable {s : GrowthSource} {w : Walk} {g : Growth}
  {frames : List (Option (NodeKind × Surroundings))}

theorem around_none (frames : List (Option (NodeKind × Surroundings))) :
    around (none :: frames) = around frames := rfl

theorem around_some (kind : NodeKind) (within : Surroundings)
    (frames : List (Option (NodeKind × Surroundings))) :
    around (some (kind, within) :: frames) = within := rfl

theorem run_append (s : GrowthSource) (w : Walk) (front back : List WalkStep) :
    w.run s (front ++ back) = w.run s front >>= fun mid => mid.run s back :=
  List.foldlM_append

/-! ### Pauses -/

theorem pauses_addHidden (s : GrowthSource) (p : NodeId) (g : Growth) :
    (g.addHidden s p).pauses = g.pauses := by
  unfold addHidden
  dsimp only
  repeat' split
  all_goals rfl

theorem pauses_advance (s : GrowthSource) (stop : Nat) (p : NodeId) (g : Growth) :
    (g.advance s stop p).pauses = g.pauses :=
  addHiddens_rel (R := fun g g' => g'.pauses = g.pauses) (fun _ => rfl) (fun h h' => h'.trans h)
    (pauses_addHidden s p) _ g

theorem pauses_reach (s : GrowthSource) (p : NodeId) (t : ParseTree) (g : Growth) :
    (g.reach s p t).pauses = g.pauses := by
  rw [reach]
  split
  · exact pauses_advance s _ p g
  · rfl

theorem pauses_addLeaf (s : GrowthSource) (p : NodeId) (production : ParseTree) (i : Nat)
    (g : Growth) : (g.addLeaf s p production i).pauses = g.pauses := by
  rw [← pauses_advance s i p g, addLeaf]
  dsimp only
  split
  · rfl
  · split <;> rfl

/-- Is a production that is open an opaque body with a node? -/
def isOpaque (frame : Option (NodeKind × Surroundings)) : Bool :=
  frame.any fun f => f.1 == .paOpaqueBody

/-- **What holds between any two steps**: as many pauses as there are opaque bodies with nodes
around, and at most one. -/
structure Sound (w : Walk) : Prop where
  counted : w.growth.pauses = w.frames.countP isOpaque
  atMost : w.frames.countP isOpaque ≤ 1

theorem sound_start : ({} : Walk).Sound := ⟨rfl, Nat.zero_le 1⟩

/-- A production that gets a node is the only opaque body, if it is one. -/
theorem Sound.open {kind : NodeKind} {within : Surroundings} {g' : Growth} (h : Sound ⟨g, frames⟩)
    (hnone : ¬0 < g.pauses)
    (hpauses : g'.pauses = g.pauses + if kind = .paOpaqueBody then 1 else 0) :
    Sound ⟨g', some (kind, within) :: frames⟩ := by
  obtain ⟨hcounted, -⟩ := h
  simp only at hcounted
  have hzero : frames.countP isOpaque = 0 := by omega
  have hcount : (some (kind, within) :: frames).countP isOpaque =
      if kind = .paOpaqueBody then 1 else 0 := by
    rw [List.countP_cons, hzero, Nat.zero_add]
    simp [isOpaque]
  refine ⟨?_, ?_⟩
  · simp only
    rw [hpauses, hcounted, hzero, hcount]
    split <;> rfl
  · simp only
    rw [hcount]
    split <;> decide

theorem pauses_enterRoot (s : GrowthSource) (t : ParseTree) (kind : NodeKind) (g : Growth) :
    (enterRoot s t kind g).growth.pauses = g.pauses + if kind = .paOpaqueBody then 1 else 0 := by
  refine (addElement_spec s t rootId none _).2.2.2.trans ?_
  split
  · rfl
  · exact (Int.add_zero _).symm

/-- **Every step can be gone**, and what holds before it holds behind it. -/
theorem Sound.step (h : w.Sound) (s : GrowthSource) (x : WalkStep) :
    ∃ w', w.step s x = .ok w' ∧ w'.Sound := by
  obtain ⟨g, frames⟩ := w
  have hcounted := h.counted
  simp only at hcounted
  cases x with
  | enter t kind =>
    rw [Walk.step]
    split
    · -- the root is entered, and nothing is open around it
      rename_i hroot
      obtain rfl : frames = [] := by
        simpa using (Bool.and_eq_true_iff.mp hroot).1
      have hnone : ¬0 < g.pauses := by rw [hcounted]; decide
      exact ⟨_, rfl, h.open hnone (pauses_enterRoot s t kind g)⟩
    · refine ⟨_, rfl, ?_⟩
      have hpauses := pauses_reach s (around frames).parent t g
      rw [enter]
      dsimp only
      split
      · exact ⟨hpauses.trans hcounted, h.atMost⟩
      · rename_i hnone
        have hreached : Sound ⟨g.reach s (around frames).parent t, frames⟩ :=
          ⟨hpauses.trans hcounted, h.atMost⟩
        exact hreached.open hnone (addProduction_spec s t kind (around frames) _).2.2.2.2
  | visit production i =>
    exact ⟨_, rfl, (pauses_addLeaf s _ production i g).trans hcounted, h.atMost⟩
  | leave =>
    rw [Walk.step]
    match frames, h with
    | [], h => exact ⟨_, rfl, h⟩
    | none :: frames, h => exact ⟨_, rfl, h.counted, h.atMost⟩
    | some (kind, within) :: frames, h =>
      have hcount : (some (kind, within) :: frames).countP isOpaque =
          frames.countP isOpaque + if kind = .paOpaqueBody then 1 else 0 := by
        rw [List.countP_cons]
        simp [isOpaque]
      have hpauses : g.pauses = (frames.countP isOpaque : Nat) +
          if kind = .paOpaqueBody then (1 : Int) else 0 := by
        rw [h.counted]
        simp only
        rw [hcount]
        split <;> rfl
      obtain ⟨g', hleave, -, -, -, hleft⟩ := leave_spec s kind hpauses (Int.natCast_nonneg _)
      refine ⟨⟨g', frames⟩, by simp only; rw [hleave]; rfl, hleft, ?_⟩
      have hmost := h.atMost
      simp only at hmost ⊢
      omega

/-- **A whole row of steps can be gone.** -/
theorem Sound.run (h : w.Sound) (s : GrowthSource) (steps : List WalkStep) :
    ∃ w', w.run s steps = .ok w' ∧ w'.Sound := by
  induction steps generalizing w with
  | nil => exact ⟨w, rfl, h⟩
  | cons x steps ih =>
    obtain ⟨mid, hstep, hmid⟩ := h.step s x
    obtain ⟨w', hrun, hw'⟩ := ih hmid
    refine ⟨w', ?_, hw'⟩
    rw [Walk.run, List.foldlM_cons, hstep]
    exact hrun

/-! ### Walks and recursion -/

mutual

/-- **The steps through a tree** do what going through it does, and leave open what was open. -/
theorem run_stepsIn (s : GrowthSource) (production : ParseTree) :
    (t : ParseTree) → (frames : List (Option (NodeKind × Surroundings))) → frames ≠ [] →
      (g : Growth) → run s ⟨g, frames⟩ (production.stepsIn t) =
        (addTree s (around frames) production t g).map fun g => ⟨g, frames⟩
  | .leaf i, frames, _, g => by
    rw [ParseTree.stepsIn, addTree]
    rfl
  | .node kind ts, frames, hf, g => by
    have hroot : (frames.isEmpty && g.nodes.isEmpty) = false := by
      rw [List.isEmpty_eq_false_iff.mpr hf, Bool.false_and]
    have hparts (frame : Option (NodeKind × Surroundings)) :=
      run_stepsOfAll s (.node kind ts) ts (frame :: frames) (List.cons_ne_nil _ _)
    rw [ParseTree.stepsIn, addTree_node, run, List.foldlM_cons, step, hroot]
    simp only [Bool.false_eq_true, if_false]
    change run s (Walk.enter s (.node kind ts) kind ⟨g, frames⟩) _ = _
    rw [run_append, enter]
    dsimp only
    split
    · -- in a pause the parts belong to what is around the production
      rw [hparts none, around_none]
      cases addTrees s (around frames) (.node kind ts) ts _ with
      | error e => rfl
      | ok g' => rfl
    · rw [hparts (some (kind, _)), around_some]
      cases addTrees s _ (.node kind ts) ts _ with
      | error e => rfl
      | ok g' =>
        change (g'.leave s kind >>= fun g => pure ⟨g, frames⟩ : Except Failure Walk) >>= pure =
          (g'.leave s kind).map fun g => ⟨g, frames⟩
        cases g'.leave s kind <;> rfl

theorem run_stepsOfAll (s : GrowthSource) (production : ParseTree) :
    (ts : List ParseTree) → (frames : List (Option (NodeKind × Surroundings))) → frames ≠ [] →
      (g : Growth) → run s ⟨g, frames⟩ (production.stepsOfAll ts) =
        (addTrees s (around frames) production ts g).map fun g => ⟨g, frames⟩
  | [], frames, _, g => by
    rw [ParseTree.stepsOfAll, addTrees]
    rfl
  | t :: ts, frames, hf, g => by
    rw [ParseTree.stepsOfAll, run_append, run_stepsIn s production t frames hf g, addTrees]
    cases addTree s (around frames) production t g with
    | error e => rfl
    | ok g' => exact run_stepsOfAll s production ts frames hf g'

end

/-- **The walk over a whole tree**, with the tokens left at its end, does what going through the
tree does. -/
theorem run_steps {kind : NodeKind} {ts : List ParseTree} (hk : kind ≠ .paOpaqueBody)
    (h : ofTree s (.node kind ts) = .ok g) :
    ∃ last : Growth, run s {} (ParseTree.node kind ts).steps = .ok ⟨last, []⟩ ∧
      g = last.advance s s.marked.tokens.size rootId := by
  obtain ⟨last, hparts, hg⟩ := exists_of_ofTree h
  refine ⟨last.relink .leave, ?_, hg⟩
  have hstart : enterRoot s (.node kind ts) kind {} =
      let added := (({} : Growth).add (rootNode s kind)).2.addElement s (.node kind ts) rootId none
      ⟨added.2, [some (kind, ⟨rootId, added.1⟩)]⟩ := by
    rw [enterRoot]
    simp only [hk, if_false]
  rw [ParseTree.steps, ParseTree.stepsIn, run, List.foldlM_cons]
  change run s (enterRoot s (.node kind ts) kind {}) _ = _
  rw [hstart, run_append, run_stepsOfAll s _ ts _ (List.cons_ne_nil _ _), around_some, hparts]
  change (last.leave s kind >>= fun g => pure ⟨g, []⟩ : Except Failure Walk) >>= pure = _
  rw [leave, if_neg hk]
  rfl

/-- A tree is gone through without a fault only if no mark is left open. -/
theorem openMarks_of_ofTree {kind : NodeKind} {ts : List ParseTree}
    (h : ofTree s (.node kind ts) = .ok g) : g.openMarks = [] := by
  rw [ofTree_node] at h
  obtain ⟨g₁, -, h⟩ := exists_of_bind h
  dsimp only at h
  split at h
  · rename_i hempty
    obtain rfl := Except.ok.inj h
    exact List.isEmpty_iff.mp hempty
  · cases h

end Walk

open Session Step Walk

/-- **Nothing is left to be found wrong with the marks of a text once they are paired.** Reading the
text gives a file, or stops at the first error where it is to. The walk over its parse tree, if it
has one, goes to its end and makes what going through the tree makes: no production is open then, no
pause and no mark, and between any two steps there were no pauses or one. -/
theorem walks_soundly {p : PreprocessedText} {m : MarkedText} (hm : MarkedText.ofText p = .ok m) :
    (∀ s : Session, match SourceFile.ofPreprocessed p s with
      | .ok _ _ => True
      | .error e _ => s.config.failFast = true ∧ ∃ d, e = .firstError d) ∧
    ∀ library keepBlanks tree, (SourceGrammar.parse m.tokens.toList).1 = some tree →
      let s : GrowthSource := ⟨m, library, keepBlanks⟩
      (∃ last g, run s {} tree.steps = .ok ⟨last, []⟩ ∧ Growth.ofTree s tree = .ok g ∧
        g = last.advance s m.tokens.size Growth.rootId ∧ g.openMarks = [] ∧ g.pauses = 0) ∧
      ∀ front, front <+: tree.steps →
        ∃ mid, run s {} front = .ok mid ∧ (mid.growth.pauses = 0 ∨ mid.growth.pauses = 1) := by
  refine ⟨fun s => ?_, fun library keepBlanks tree ht => ?_⟩
  · have hreports := (composed_ofPreprocessed hm).reports alike_upToStopping
    split
    · trivial
    · rename_i e s' hrun
      exact (hreports.failure UpToStopping.refl hrun).resolve_right id
  · intro s
    obtain ⟨ts, g, -, rfl, hgrown, -⟩ := Growth.ofTree_of_parse (s := s) hm ht
    obtain ⟨last, hrun, hg⟩ := run_steps (by decide) hgrown
    obtain ⟨w, hrun', hsound⟩ := sound_start.run s (ParseTree.node .paTopLevelRule ts).steps
    obtain rfl : w = ⟨last, []⟩ := Except.ok.inj (hrun'.symm.trans hrun)
    refine ⟨⟨last, g, hrun, hgrown, hg, openMarks_of_ofTree hgrown, ?_⟩, fun front _ => ?_⟩
    · rw [hg, pauses_advance]
      exact hsound.counted
    · obtain ⟨mid, hmid, hcounted, hmost⟩ := sound_start.run s front
      exact ⟨mid, hmid, by omega⟩

/-- A text with a pair of marks in a body that is passed over. -/
def markedBody : PreprocessedText :=
  { markedSemicolon with text := "class c; \x01PPB\x01int x;\x01PPE1\x01 endclass" }

theorem walks_soundly_markedBody :
    ∃ m tree, MarkedText.ofText markedBody = .ok m ∧
      (SourceGrammar.parse m.tokens.toList).1 = some tree ∧ .paOpaqueBody ∈ tree.kinds ∧
      let s : GrowthSource := ⟨m, "work", false⟩
      (∃ last g, run s {} tree.steps = .ok ⟨last, []⟩ ∧ Growth.ofTree s tree = .ok g ∧
        g = last.advance s m.tokens.size Growth.rootId ∧ g.openMarks = [] ∧ g.pauses = 0) ∧
      ∃ mid, run s {} (tree.steps.take 4) = .ok mid ∧
        (mid.growth.pauses = 0 ∨ mid.growth.pauses = 1) := by
  have htest : passesMarked markedBody (fun m =>
      (SourceGrammar.parse m.tokens.toList).1.any fun tree =>
        decide (.paOpaqueBody ∈ tree.kinds)) = true := by decide +kernel
  obtain ⟨m, hm, hany⟩ := exists_of_passesMarked htest
  obtain ⟨tree, ht, hkind⟩ := Option.any_eq_true _ _ |>.mp hany
  obtain ⟨hlast, hfront⟩ := (walks_soundly hm).2 "work" false tree ht
  exact ⟨m, tree, hm, ht, of_decide_eq_true hkind, hlast, hfront _ (List.take_prefix 4 _)⟩

end Verilog
