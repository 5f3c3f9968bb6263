import Mathlib.Algebra.GroupWithZero.Nat
import Verilog.Proofs.Grammar.Leaves

/-!
# What a run leaves out

A grammar that does not go on after faults leaves out nothing but the separators of its lists: every
other token it goes past is a leaf, in its place (`Thinned`). Where a list is always followed by a
token, what the grammar goes past ends with a leaf, so that the leaves of a tree say where the text
of the tree ends. Which grammars are of this sort is computed (`Grammar.keeps`, `Grammar.ends`,
`Grammar.takes`), and one induction over the grammar proves it of their runs
(`Grammar.covers_run`).
-/

namespace Verilog

open ParseTree

variable {κ ν : Type} {sep : κ → Bool}

/-- A list of positions is that of a list of tokens with some separators left out. -/
inductive Thinned (sep : κ → Bool) : List (Nat × κ) → List Nat → Prop
  | nil : Thinned sep [] []
  | keep {i k ts is} (h : Thinned sep ts is) : Thinned sep ((i, k) :: ts) (i :: is)
  | drop {i k ts is} (hk : sep k = true) (h : Thinned sep ts is) : Thinned sep ((i, k) :: ts) is

namespace Thinned

variable {ts us : List (Nat × κ)} {is js : List Nat}

theorem append (h : Thinned sep ts is) (h' : Thinned sep us js) :
    Thinned sep (ts ++ us) (is ++ js) := by
  induction h with
  | nil => exact h'
  | keep _ ih => exact .keep ih
  | drop hk _ ih => exact .drop hk ih

theorem sublist (h : Thinned sep ts is) : is.Sublist (ts.map (·.1)) := by
  induction h with
  | nil => exact .slnil
  | keep _ ih => exact .cons_cons _ ih
  | drop _ _ ih => exact .cons _ ih

/-- What separators do not count for is counted on the leaves. -/
theorem sum_map (h : Thinned sep ts is) (f : Nat → Nat)
    (hf : ∀ t ∈ ts, sep t.2 = true → f t.1 = 0) : (is.map f).sum = (ts.map fun t => f t.1).sum := by
  induction h with
  | nil => rfl
  | keep _ ih =>
    rw [List.forall_mem_cons] at hf
    simp [ih hf.2]
  | drop hk _ ih =>
    rw [List.forall_mem_cons] at hf
    simp [ih hf.2, hf.1 hk]

end Thinned

/-- **What a run that goes on after no fault has done**: only separators are left out. If `ends`,
the last token that it went past is the last leaf; if `takes`, it went past some token. -/
structure Cursor.Covers (sep : κ → Bool) (ends takes : Bool) (c : Cursor κ)
    (trees : List ParseTree) (next : Cursor κ) (used : List (Nat × κ)) : Prop where
  rest : c.rest = used ++ next.rest
  leaves : Thinned sep used (leavesAll trees)
  last : ends = true → (leavesAll trees).getLast? = (used.map (·.1)).getLast?
  some : takes = true → used ≠ []

namespace Cursor.Covers

variable {c d e : Cursor κ} {ts us : List ParseTree} {x y : List (Nat × κ)}
  {ends takes ends' takes' : Bool}

theorem refl (c : Cursor κ) : c.Covers sep true false [] c [] :=
  ⟨rfl, .nil, fun _ => rfl, fun h => nomatch h⟩

theorem mono (h : c.Covers sep ends takes ts d x) (he : ends' = true → ends = true)
    (ht : takes' = true → takes = true) : c.Covers sep ends' takes' ts d x :=
  ⟨h.rest, h.leaves, fun h' => h.last (he h'), fun h' => h.some (ht h')⟩

/-- One run after the other: the last leaf is that of the second, unless that went past nothing. -/
theorem trans (h : c.Covers sep ends takes ts d x) (h' : d.Covers sep ends' takes' us e y) :
    c.Covers sep (ends' && (ends || takes')) (takes || takes') (ts ++ us) e (x ++ y) := by
  refine ⟨?_, ?_, fun hlast => ?_, fun hsome => ?_⟩
  · rw [h.rest, h'.rest, List.append_assoc]
  · simpa using h.leaves.append h'.leaves
  · obtain ⟨he', hor⟩ := Bool.and_eq_true_iff.mp hlast
    rw [leavesAll_append, List.map_append, List.getLast?_append, List.getLast?_append,
      h'.last he']
    rcases Bool.or_eq_true_iff.mp hor with he | ht'
    · rw [h.last he]
    · obtain ⟨last, hy⟩ : ∃ last, (y.map (·.1)).getLast? = Option.some last :=
        ⟨_, List.getLast?_eq_some_getLast (by simpa using h'.some ht')⟩
      rw [hy, Option.some_or, Option.some_or]
  · rcases Bool.or_eq_true_iff.mp hsome with ht | ht'
    · simp [h.some ht]
    · simp [h'.some ht']

end Cursor.Covers

/-- A way to run whose successes leave out only separators. -/
def Runner.Covers (sep : κ → Bool) (ends takes : Bool) (a : Runner κ) : Prop :=
  ∀ {c recovered trees next beyond}, a c = .ok recovered trees next beyond →
    ∃ used, c.Covers sep ends takes trees next used

namespace Runner

variable {a b : Runner κ} {ends takes ends' takes' : Bool} {c next : Cursor κ}
  {trees : List ParseTree}

theorem Covers.covered (ha : Covers sep ends takes a) (h : a.Succeeds c trees next) :
    ∃ used, c.Covers sep ends takes trees next used := by
  obtain ⟨recovered, beyond, h⟩ := h
  exact ha h

theorem covers_iff : Covers sep ends takes a ↔ ∀ c trees next, a.Succeeds c trees next →
    ∃ used, c.Covers sep ends takes trees next used :=
  ⟨fun ha _ _ _ => ha.covered, fun h _ _ _ _ _ heq => h _ _ _ ⟨_, _, heq⟩⟩

theorem covers_token (expected : List (Option κ)) (p : κ → Bool) :
    Covers sep true true (token expected p) := by
  refine covers_iff.mpr fun c trees next h => ?_
  obtain ⟨i, k, hrest, -, rfl, -⟩ := h.of_token
  exact ⟨[(i, k)], hrest, .keep .nil, fun _ => rfl, fun _ => by simp⟩

theorem Covers.map {f : List ParseTree → List ParseTree} (ha : Covers sep ends takes a)
    (hf : ∀ ts, leavesAll (f ts) = leavesAll ts) : Covers sep ends takes (map f a) := by
  refine covers_iff.mpr fun c trees next h => ?_
  obtain ⟨ts, rfl, hts⟩ := h.of_map
  obtain ⟨used, hu⟩ := ha.covered hts
  exact ⟨used, hu.rest, by rw [hf]; exact hu.leaves, by rw [hf]; exact hu.last, hu.some⟩

section Choice

variable [DecidableEq κ]

theorem Covers.seq (ha : Covers sep ends takes a) (hb : Covers sep ends' takes' b) :
    Covers sep (ends' && (ends || takes')) (takes || takes') (seq a b) := by
  refine covers_iff.mpr fun c trees next h => ?_
  obtain ⟨ts, mid, us, hts, hus, rfl⟩ := h.of_seq
  obtain ⟨x, hx⟩ := ha.covered hts
  obtain ⟨y, hy⟩ := hb.covered hus
  exact ⟨x ++ y, hx.trans hy⟩

theorem Covers.alt (ha : Covers sep ends takes a) (hb : Covers sep ends' takes' b) :
    Covers sep (ends && ends') (takes && takes') (alt a b) := by
  refine covers_iff.mpr fun c trees next h => ?_
  rcases h.of_alt with h | h
  · obtain ⟨used, hu⟩ := ha.covered h
    exact ⟨used, hu.mono (fun h => (Bool.and_eq_true_iff.mp h).1)
      fun h => (Bool.and_eq_true_iff.mp h).1⟩
  · obtain ⟨used, hu⟩ := hb.covered h
    exact ⟨used, hu.mono (fun h => (Bool.and_eq_true_iff.mp h).2)
      fun h => (Bool.and_eq_true_iff.mp h).2⟩

omit [DecidableEq κ] in
theorem Covers.opt (ha : Covers sep ends takes a) : Covers sep ends false (opt a) := by
  refine covers_iff.mpr fun c trees next h => ?_
  rcases h.of_opt with h | ⟨rfl, rfl⟩
  · obtain ⟨used, hu⟩ := ha.covered h
    exact ⟨used, hu.mono id fun h => absurd h Bool.false_ne_true⟩
  · exact ⟨[], (Cursor.Covers.refl _).mono (fun _ => rfl) id⟩

theorem Covers.unlessAt (ha : Covers sep ends takes a) (stops : List κ) :
    Covers sep ends takes (unlessAt stops a) :=
  covers_iff.mpr fun _ _ _ h => ha.covered h.of_unlessAt

theorem Covers.many (ha : Covers sep ends takes a) (least : Nat) :
    Covers sep ends false (many least a) := by
  refine covers_iff.mpr fun c trees next h => ?_
  have hturns := h.of_many
  clear h
  induction hturns with
  | nil c => exact ⟨[], (Cursor.Covers.refl c).mono (fun _ => rfl) id⟩
  | cons h _ ih =>
    obtain ⟨x, hx⟩ := ha.covered h
    obtain ⟨y, hy⟩ := ih
    exact ⟨x ++ y, (hx.trans hy).mono (fun he => by simp [he]) fun h => nomatch h⟩

theorem rest_of_manyFrom (ha : Covers sep ends true a)
    (hall : ∀ c, c.rest ≠ [] → ∃ recovered trees next beyond, a c = .ok recovered trees next beyond)
    (fuel : Nat) : ∀ {pending recovered trees beyond c recovered' trees' next beyond'},
      c.rest.length < fuel →
      manyFrom a fuel pending recovered trees beyond c = .ok recovered' trees' next beyond' →
      next.rest = [] := by
  induction fuel with
  | zero => exact fun hlt => absurd hlt (Nat.not_lt_zero _)
  | succ fuel ih =>
    intro _ _ _ _ c _ _ _ _ hlt h
    rw [Runner.manyFrom] at h
    cases heq : a c with
    | ok _ _ mid _ =>
      rw [heq] at h
      obtain ⟨used, hused⟩ := ha heq
      have hlen := congrArg List.length hused.rest
      rw [List.length_append] at hlen
      have := List.length_pos_iff.mpr (hused.some rfl)
      exact ih (by omega) h
    | fail _ _ =>
      rw [heq] at h
      dsimp only at h
      split at h
      · simp only [Reply.ok.injEq] at h
        obtain ⟨-, -, rfl, -⟩ := h
        by_contra hne
        obtain ⟨_, _, _, _, hok⟩ := hall c hne
        rw [heq] at hok
        cases hok
      · cases h

/-- **A repetition of what takes some token wherever there is one** takes all tokens. -/
theorem rest_of_many (ha : Covers sep ends true a)
    (hall : ∀ c, c.rest ≠ [] → ∃ recovered trees next beyond, a c = .ok recovered trees next beyond)
    {least : Nat} {c recovered trees next beyond}
    (h : many least a c = .ok recovered trees next beyond) : next.rest = [] :=
  rest_of_manyFrom ha hall _ (Nat.lt_succ_self _) h

theorem manyFrom_eq_ok (a : Runner κ) (fuel : Nat) : ∀ recovered trees beyond c,
    ∃ recovered' trees' next beyond',
      manyFrom a fuel 0 recovered trees beyond c = .ok recovered' trees' next beyond' := by
  induction fuel with
  | zero => exact fun _ _ _ _ => ⟨_, _, _, _, rfl⟩
  | succ fuel ih =>
    intro recovered trees beyond c
    rw [Runner.manyFrom]
    split
    · exact ih _ _ _ _
    · exact ⟨_, _, _, _, rfl⟩

/-- A repetition that may be empty does not fail. -/
theorem many_eq_ok (a : Runner κ) (c : Cursor κ) : ∃ recovered trees next beyond,
    many 0 a c = .ok recovered trees next beyond := manyFrom_eq_ok a _ _ _ _ c

/-- The separators of a list are what is left out. -/
theorem covers_sepBy {separator : Runner κ}
    (hs : ∀ c ts next, separator.Succeeds c ts next →
      ∃ i k, c.rest = (i, k) :: next.rest ∧ sep k = true)
    (ha : Covers sep ends takes a) (least : Nat) :
    Covers sep false false (sepBy least separator a) := by
  refine covers_iff.mpr fun c trees next h => ?_
  rcases h.of_sepBy with ⟨rfl, rfl⟩ | ⟨ts, mid, us, hts, hus, rfl⟩
  · exact ⟨[], (Cursor.Covers.refl _).mono (fun h => nomatch h) (fun h => nomatch h)⟩
  · have hturns : ∃ used, mid.Covers sep false false us next used := by
      clear h hts
      induction hus with
      | nil c => exact ⟨[], (Cursor.Covers.refl c).mono (fun h => nomatch h) id⟩
      | @cons c e d us vs hturn _ ih =>
        obtain ⟨ss, f, hsep, hitem⟩ := hturn
        obtain ⟨i, k, hrest, hk⟩ := hs _ _ _ hsep
        obtain ⟨x, hx⟩ := ha.covered hitem
        obtain ⟨y, hy⟩ := ih
        refine ⟨(i, k) :: (x ++ y), ?_, .drop hk ?_, (fun h => nomatch h), fun h => nomatch h⟩
        · rw [hrest, hx.rest, hy.rest, List.cons_append, List.append_assoc]
        · rw [leavesAll_append]
          exact hx.leaves.append hy.leaves
    obtain ⟨x, hx⟩ := ha.covered hts
    obtain ⟨y, hy⟩ := hturns
    exact ⟨x ++ y, (hx.trans hy).mono (fun h => nomatch h) fun h => nomatch h⟩

end Choice

end Runner

/-! ### Grammars -/

namespace Grammar

/-- Does a grammar go on after no fault, and separate its lists by these tokens only? -/
def keeps (sep : κ → Bool) : Grammar κ ν → Bool
  | empty | token _ | tokenIn _ | ref _ => true
  | seq a b | alt a b => a.keeps sep && b.keeps sep
  | opt a | many _ a | node _ a | map _ a | unlessAt _ a => a.keeps sep
  | sepBy _ (token k) a => sep k && a.keeps sep
  | sepBy _ _ _ | retry _ _ | skipTo _ _ _ => false

/-- Does a grammar go past some token whenever it succeeds? -/
def takes : Grammar κ ν → Bool
  | token _ | tokenIn _ => true
  | seq a b => a.takes || b.takes
  | alt a b => a.takes && b.takes
  | node _ a | map _ a | unlessAt _ a => a.takes
  | _ => false

/-- Does what a grammar goes past end with a leaf? -/
def ends : Grammar κ ν → Bool
  | empty | token _ | tokenIn _ | ref _ => true
  | seq a b => b.ends && (a.ends || b.takes)
  | alt a b => a.ends && b.ends
  | opt a | many _ a | node _ a | map _ a | unlessAt _ a => a.ends
  | sepBy _ _ _ | retry _ _ | skipTo _ _ _ => false

variable [DecidableEq κ] {P : NodeKind → Prop}

/-- **A grammar that goes on after no fault leaves out only separators**, if the grammars it refers
to do and end with leaves. -/
theorem covers_run {callee : ν → Runner κ} (hc : ∀ x, (callee x).Covers sep true false)
    {g : Grammar κ ν} (hg : g.Orderly P) (hk : g.keeps sep = true) :
    (g.run callee).Covers sep g.ends g.takes := by
  induction g with
  | empty =>
    refine Runner.covers_iff.mpr fun c trees next h => ?_
    obtain ⟨rfl, rfl⟩ := succeeds_empty h
    exact ⟨[], .refl _⟩
  | token k => exact Runner.covers_token _ _
  | tokenIn p => exact Runner.covers_token _ _
  | seq a b iha ihb =>
    obtain ⟨ha, hb⟩ := Bool.and_eq_true_iff.mp hk
    exact Runner.Covers.seq (iha hg.1 ha) (ihb hg.2 hb)
  | alt a b iha ihb =>
    obtain ⟨ha, hb⟩ := Bool.and_eq_true_iff.mp hk
    exact Runner.Covers.alt (iha hg.1 ha) (ihb hg.2 hb)
  | opt a ih => exact Runner.Covers.opt (ih hg hk)
  | many least a ih => exact Runner.Covers.many (ih hg hk) least
  | sepBy least s a _ iha =>
    cases s with
    | token k =>
      obtain ⟨hsep, ha⟩ := Bool.and_eq_true_iff.mp hk
      refine Runner.covers_sepBy (fun c ts next h => ?_) (iha hg.2 ha) least
      obtain ⟨i, k', hrest, -, -, hk'⟩ := Runner.Succeeds.of_token h
      obtain rfl : k' = k := by simpa using hk'
      exact ⟨i, k', hrest, hsep⟩
    | _ => exact absurd hk Bool.false_ne_true
  | node kind a ih => exact Runner.Covers.map (ih hg.2 hk) fun ts => by simp [leavesAll, leaves]
  | map f a ih => exact Runner.Covers.map (ih hg.2.2 hk) hg.1
  | ref x => exact hc x
  | unlessAt stops a ih => exact Runner.Covers.unlessAt (ih hg hk) stops
  | retry stops a ih => exact absurd hk Bool.false_ne_true
  | skipTo stops kind a ih => exact absurd hk Bool.false_ne_true

theorem covers_runRef {rules : ν → Grammar κ ν} (hr : ∀ x, (rules x).Orderly P)
    (hk : ∀ x, (rules x).keeps sep = true) (he : ∀ x, (rules x).ends = true) (fuel : Nat) :
    ∀ x, (runRef rules fuel x).Covers sep true false := by
  induction fuel with
  | zero =>
    intro x _ _ _ _ _ h
    simp [runRef] at h
  | succ fuel ih =>
    intro x c _ _ _ _ h
    obtain ⟨used, hu⟩ := covers_run ih (hr x) (hk x) h
    exact ⟨used, hu.mono (fun _ => he x) fun h => absurd h Bool.false_ne_true⟩

/-- A choice succeeds where one of its grammars does. -/
theorem choice_ok {callee : ν → Runner κ} {g : Grammar κ ν} {c : Cursor κ}
    (hg : ∃ recovered trees next beyond, g.run callee c = .ok recovered trees next beyond) :
    {gs : List (Grammar κ ν)} → g ∈ gs →
      ∃ recovered trees next beyond, (choice gs).run callee c = .ok recovered trees next beyond
  | [a], h => List.mem_singleton.mp h ▸ hg
  | a :: b :: gs, h => by
    have hchoice : choice (a :: b :: gs) = alt a (choice (b :: gs)) := rfl
    rw [hchoice, run, Runner.alt]
    rcases List.mem_cons.mp h with rfl | h
    · obtain ⟨recovered, trees, next, beyond, heq⟩ := hg
      rw [heq]
      exact ⟨_, _, _, _, rfl⟩
    · obtain ⟨recovered, trees, next, beyond, heq⟩ := choice_ok hg h
      rw [heq]
      cases a.run callee c <;> exact ⟨_, _, _, _, rfl⟩

end Grammar

end Verilog
