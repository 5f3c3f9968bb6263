import Mathlib.Data.List.Basic
import Verilog.Proofs.Grammar.Success

/-!
# What a grammar can make

Whatever a run does on the way, its trees are those that the grammar describes: a production wraps
trees of what it is made of, a repetition joins those of its turns, and so on. `Grammar.Yields` says
this without cursors and choices, of a list of tokens that the leaves are taken from; every run
yields its trees (`Grammar.yields_parse`).

A property of all nodes of a tree then needs a look at the productions alone, of which a grammar has
finitely many (`Grammar.productions`), and at the functions that regroup trees
(`Grammar.Yields.every`).

What stands directly below a node is a row of productions and of tokens, of which some become leaves
and some do not. The kinds that such a row can have are read off the grammar of the production alone
(`Grammar.Parts`), without what is further below: a production stands there with its kind, a token
with the kind of its leaf, and of a grammar that is referred to it is known from elsewhere what it
shows. Whatever the grammar makes of tokens has one of these rows (`Grammar.Yields.parts`).
-/

namespace Verilog

namespace ParseTree

mutual

/-- Has every node of a tree a property, which speaks of its kind and what is directly below it? -/
def Every (W : NodeKind → List ParseTree → Prop) : ParseTree → Prop
  | leaf _ => True
  | node k ts => W k ts ∧ EveryOf W ts

/-- `Every` for each tree of a list. -/
def EveryOf (W : NodeKind → List ParseTree → Prop) : List ParseTree → Prop
  | [] => True
  | t :: ts => t.Every W ∧ EveryOf W ts

end

variable {V W : NodeKind → List ParseTree → Prop} {ts us : List ParseTree}

mutual

theorem Every.imp (h : ∀ k ts, V k ts → W k ts) : {t : ParseTree} → t.Every V → t.Every W
  | leaf _, _ => trivial
  | node k ts, ht => ⟨h k ts ht.1, EveryOf.imp h ht.2⟩

theorem EveryOf.imp (h : ∀ k ts, V k ts → W k ts) :
    {ts : List ParseTree} → EveryOf V ts → EveryOf W ts
  | [], _ => trivial
  | _ :: _, ht => ⟨Every.imp h ht.1, EveryOf.imp h ht.2⟩

end

theorem everyOf_iff : EveryOf W ts ↔ ∀ t ∈ ts, t.Every W := by
  induction ts with
  | nil => simp [EveryOf]
  | cons t ts ih => simp [EveryOf, ih]

@[simp] theorem everyOf_append : EveryOf W (ts ++ us) ↔ EveryOf W ts ∧ EveryOf W us := by
  simp [everyOf_iff, or_imp, forall_and]

theorem everyOf_leaves (is : List Nat) : EveryOf W (is.map leaf) := by
  rw [everyOf_iff]
  intro t ht
  obtain ⟨i, -, rfl⟩ := List.mem_map.mp ht
  trivial

end ParseTree

open ParseTree

variable {κ ν : Type}

namespace Grammar

/-- **What a grammar can make** of tokens. -/
inductive Yields (rules : ν → Grammar κ ν) (tokens : List (Nat × κ)) :
    Grammar κ ν → List ParseTree → Prop where
  | empty : Yields rules tokens empty []
  | token {k : κ} {i : Nat} : (i, k) ∈ tokens → Yields rules tokens (token k) [.leaf i]
  | tokenIn {p : κ → Bool} {k : κ} {i : Nat} : (i, k) ∈ tokens → p k →
      Yields rules tokens (tokenIn p) [.leaf i]
  | seq {a b : Grammar κ ν} {ts us : List ParseTree} : Yields rules tokens a ts →
      Yields rules tokens b us → Yields rules tokens (seq a b) (ts ++ us)
  | left {a b : Grammar κ ν} {ts : List ParseTree} : Yields rules tokens a ts →
      Yields rules tokens (alt a b) ts
  | right {a b : Grammar κ ν} {ts : List ParseTree} : Yields rules tokens b ts →
      Yields rules tokens (alt a b) ts
  | absent {a : Grammar κ ν} : Yields rules tokens (opt a) []
  | present {a : Grammar κ ν} {ts : List ParseTree} : Yields rules tokens a ts →
      Yields rules tokens (opt a) ts
  | manyNil {least : Nat} {a : Grammar κ ν} : Yields rules tokens (many least a) []
  | manyCons {least : Nat} {a : Grammar κ ν} {ts us : List ParseTree} :
      Yields rules tokens a ts → Yields rules tokens (many least a) us →
      Yields rules tokens (many least a) (ts ++ us)
  | sepNil {least : Nat} {s a : Grammar κ ν} : Yields rules tokens (sepBy least s a) []
  | sepCons {least : Nat} {s a : Grammar κ ν} {ts us : List ParseTree} :
      Yields rules tokens a ts → Yields rules tokens (sepBy least s a) us →
      Yields rules tokens (sepBy least s a) (ts ++ us)
  | node {kind : NodeKind} {a : Grammar κ ν} {ts : List ParseTree} : Yields rules tokens a ts →
      Yields rules tokens (node kind a) [.node kind ts]
  | map {f : List ParseTree → List ParseTree} {a : Grammar κ ν} {ts : List ParseTree} :
      Yields rules tokens a ts → Yields rules tokens (map f a) (f ts)
  | ref {x : ν} {ts : List ParseTree} : Yields rules tokens (rules x) ts →
      Yields rules tokens (ref x) ts
  | unlessAt {stops : List κ} {a : Grammar κ ν} {ts : List ParseTree} : Yields rules tokens a ts →
      Yields rules tokens (unlessAt stops a) ts
  | retry {stops : List κ} {a : Grammar κ ν} {ts : List ParseTree} : Yields rules tokens a ts →
      Yields rules tokens (retry stops a) ts
  | found {stops : List κ} {kind : NodeKind} {a : Grammar κ ν} {ts : List ParseTree} :
      Yields rules tokens a ts → Yields rules tokens (skipTo stops kind a) ts
  | skipped {stops : List κ} {kind : NodeKind} {a : Grammar κ ν} (is : List Nat) :
      Yields rules tokens (skipTo stops kind a) [.node kind (is.map .leaf)]

end Grammar

/-! ### Runs -/

/-- What the successes of a way to run give, wherever the tokens left are the last of a list. -/
def Runner.Gives (tokens : List (Nat × κ)) (Y : List ParseTree → Prop) (a : Runner κ) : Prop :=
  ∀ ⦃c recovered trees next beyond⦄, a c = .ok recovered trees next beyond →
    c.rest <:+ tokens → Y trees ∧ next.rest <:+ tokens

namespace Runner

variable {tokens : List (Nat × κ)} {Y Z S : List ParseTree → Prop} {a b separator : Runner κ}
  {c next : Cursor κ} {trees : List ParseTree}

theorem Gives.given (ha : Gives tokens Y a) (h : a.Succeeds c trees next) (hc : c.rest <:+ tokens) :
    Y trees ∧ next.rest <:+ tokens := by
  obtain ⟨recovered, beyond, h⟩ := h
  exact ha h hc

theorem gives_iff : Gives tokens Y a ↔ ∀ c trees next, a.Succeeds c trees next →
    c.rest <:+ tokens → Y trees ∧ next.rest <:+ tokens :=
  ⟨fun ha _ _ _ => ha.given, fun h _ _ _ _ _ heq => h _ _ _ ⟨_, _, heq⟩⟩

theorem Gives.mono (ha : Gives tokens Y a) (h : ∀ ts, Y ts → Z ts) : Gives tokens Z a :=
  gives_iff.mpr fun _ _ _ hrun hc => (ha.given hrun hc).imp_left (h _)

theorem gives_token (expected : List (Option κ)) {p : κ → Bool}
    (h : ∀ i k, (i, k) ∈ tokens → p k → Y [.leaf i]) : Gives tokens Y (token expected p) := by
  refine gives_iff.mpr fun c trees next hrun hc => ?_
  obtain ⟨i, k, hrest, -, rfl, hk⟩ := hrun.of_token
  rw [hrest] at hc
  exact ⟨h i k (hc.mem List.mem_cons_self) hk, (List.suffix_cons _ _).trans hc⟩

theorem Gives.map {f : List ParseTree → List ParseTree} (ha : Gives tokens Y a)
    (h : ∀ ts, Y ts → Z (f ts)) : Gives tokens Z (map f a) := by
  refine gives_iff.mpr fun c trees next hrun hc => ?_
  obtain ⟨ts, rfl, hts⟩ := hrun.of_map
  exact (ha.given hts hc).imp_left (h ts)

variable [DecidableEq κ]

theorem Gives.seq (ha : Gives tokens Y a) (hb : Gives tokens Z b) :
    Gives tokens (fun ts => ∃ us vs, Y us ∧ Z vs ∧ ts = us ++ vs) (seq a b) := by
  refine gives_iff.mpr fun c trees next hrun hc => ?_
  obtain ⟨us, mid, vs, hus, hvs, rfl⟩ := hrun.of_seq
  obtain ⟨hy, hmid⟩ := ha.given hus hc
  obtain ⟨hz, hnext⟩ := hb.given hvs hmid
  exact ⟨⟨us, vs, hy, hz, rfl⟩, hnext⟩

theorem Gives.alt (ha : Gives tokens Y a) (hb : Gives tokens Z b) :
    Gives tokens (fun ts => Y ts ∨ Z ts) (alt a b) := by
  refine gives_iff.mpr fun c trees next hrun hc => ?_
  rcases hrun.of_alt with h | h
  · exact (ha.given h hc).imp_left .inl
  · exact (hb.given h hc).imp_left .inr

omit [DecidableEq κ] in
theorem Gives.opt (ha : Gives tokens Y a) : Gives tokens (fun ts => ts = [] ∨ Y ts) (opt a) := by
  refine gives_iff.mpr fun c trees next hrun hc => ?_
  rcases hrun.of_opt with h | ⟨rfl, rfl⟩
  · exact (ha.given h hc).imp_left .inr
  · exact ⟨.inl rfl, hc⟩

section Repetition

variable (hnil : Z []) (hcons : ∀ ts us, Y ts → Z us → Z (ts ++ us))

include hnil hcons

omit [DecidableEq κ] in
theorem given_turns {R : Cursor κ → List ParseTree → Cursor κ → Prop}
    (hR : ∀ c ts mid, R c ts mid → c.rest <:+ tokens → Y ts ∧ mid.rest <:+ tokens)
    (h : Turns R c trees next) (hc : c.rest <:+ tokens) : Z trees ∧ next.rest <:+ tokens := by
  induction h with
  | nil c => exact ⟨hnil, hc⟩
  | cons h _ ih =>
    obtain ⟨hy, hmid⟩ := hR _ _ _ h hc
    exact (ih hmid).imp_left (hcons _ _ hy)

theorem Gives.many (ha : Gives tokens Y a) (least : Nat) : Gives tokens Z (many least a) :=
  gives_iff.mpr fun _ _ _ hrun => given_turns hnil hcons (fun _ _ _ => ha.given) hrun.of_many

theorem Gives.sepBy (hs : Gives tokens S separator) (ha : Gives tokens Y a) (least : Nat) :
    Gives tokens Z (sepBy least separator a) := by
  refine gives_iff.mpr fun c trees next hrun hc => ?_
  rcases hrun.of_sepBy with ⟨rfl, rfl⟩ | ⟨ts, mid, us, hts, hus, rfl⟩
  · exact ⟨hnil, hc⟩
  · obtain ⟨hy, hmid⟩ := ha.given hts hc
    have hturn : ∀ c ts next, Separated separator a c ts next → c.rest <:+ tokens →
        Y ts ∧ next.rest <:+ tokens :=
      fun c ts next ⟨_, _, hsep, hitem⟩ hc => ha.given hitem (hs.given hsep hc).2
    exact (given_turns hnil hcons hturn hus hmid).imp_left (hcons _ _ hy)

end Repetition

theorem Gives.unlessAt (ha : Gives tokens Y a) (stops : List κ) :
    Gives tokens Y (unlessAt stops a) :=
  gives_iff.mpr fun _ _ _ hrun => ha.given hrun.of_unlessAt

theorem Gives.retry (ha : Gives tokens Y a) (stops : List κ) :
    Gives tokens Y (retry stops a) := by
  refine gives_iff.mpr fun c trees next hrun hc => ?_
  obtain ⟨skipped, d, hrest, -, hd⟩ := hrun.of_retry
  rw [hrest] at hc
  exact ha.given hd ((List.suffix_append _ _).trans hc)

omit [DecidableEq κ] in
theorem skipped_eq (kind : NodeKind) (taken : List (Nat × κ)) :
    ∃ is : List Nat, skipped kind taken = .node kind (is.map .leaf) := by
  match taken with
  | [] => exact ⟨[], rfl⟩
  | [(i, _)] => exact ⟨[i], rfl⟩
  | (i, _) :: t :: more => exact ⟨[i, _], rfl⟩

theorem Gives.skipTo (ha : Gives tokens Y a) (stops : List κ) (kind : NodeKind) :
    Gives tokens (fun ts => Y ts ∨ ∃ taken rest, CutOff stops taken rest ∧
      taken ++ rest <:+ tokens ∧ ts = [skipped kind taken]) (skipTo stops kind a) := by
  refine gives_iff.mpr fun c trees next hrun hc => ?_
  rcases hrun.of_skipTo with h | ⟨taken, hcut, hrest, -, rfl⟩
  · exact (ha.given h hc).imp_left .inl
  · rw [hrest] at hc
    exact ⟨.inr ⟨taken, next.rest, hcut, hc, rfl⟩, (List.suffix_append _ _).trans hc⟩

end Runner

namespace Grammar

variable {rules : ν → Grammar κ ν} {tokens : List (Nat × κ)} {g : Grammar κ ν}
  {trees : List ParseTree}

section Runs

variable [DecidableEq κ]

/-- **A run yields its trees**, if the grammars it refers to do. -/
theorem yields_run {callee : ν → Runner κ}
    (hc : ∀ x, (callee x).Gives tokens (Yields rules tokens (rules x))) (g : Grammar κ ν) :
    (g.run callee).Gives tokens (Yields rules tokens g) := by
  induction g with
  | empty =>
    refine Runner.gives_iff.mpr fun c trees next hrun hc => ?_
    obtain ⟨rfl, rfl⟩ := succeeds_empty hrun
    exact ⟨.empty, hc⟩
  | token k => exact Runner.gives_token _ fun i j hmem hj => .token (beq_iff_eq.mp hj ▸ hmem)
  | tokenIn p => exact Runner.gives_token _ fun i k hmem hk => .tokenIn hmem hk
  | seq a b iha ihb =>
    refine (iha.seq ihb).mono ?_
    rintro _ ⟨us, vs, hus, hvs, rfl⟩
    exact .seq hus hvs
  | alt a b iha ihb => exact (iha.alt ihb).mono fun ts h => h.elim .left .right
  | opt a ih =>
    refine ih.opt.mono ?_
    rintro ts (rfl | h)
    · exact .absent
    · exact .present h
  | many least a ih => exact Runner.Gives.many .manyNil (fun _ _ => .manyCons) ih least
  | sepBy least s a ihs iha => exact Runner.Gives.sepBy .sepNil (fun _ _ => .sepCons) ihs iha least
  | node kind a ih => exact Runner.Gives.map ih fun _ => .node
  | map f a ih => exact Runner.Gives.map ih fun _ => .map
  | ref x => exact (hc x).mono fun _ => .ref
  | unlessAt stops a ih => exact (ih.unlessAt stops).mono fun _ => .unlessAt
  | retry stops a ih => exact (ih.retry stops).mono fun _ => .retry
  | skipTo stops kind a ih =>
    refine (ih.skipTo stops kind).mono ?_
    rintro ts (h | ⟨taken, rest, -, -, rfl⟩)
    · exact .found h
    · obtain ⟨is, his⟩ := Runner.skipped_eq kind taken
      rw [his]
      exact .skipped is

theorem yields_runRef (fuel : Nat) :
    ∀ x, (runRef rules fuel x).Gives tokens (Yields rules tokens (rules x)) := by
  induction fuel with
  | zero =>
    intro x _ _ _ _ _ h
    simp [runRef] at h
  | succ fuel ih => exact fun x => yields_run ih (rules x)

/-- **The trees of a whole list of tokens** are some that the grammar can make. -/
theorem yields_parse (h : (parse rules g tokens).1 = some trees) : Yields rules tokens g trees := by
  obtain ⟨next, hrun, -⟩ := succeeds_of_parse h
  exact ((yields_run (yields_runRef _) g).given hrun (List.suffix_refl _)).1

end Runs

/-! ### All nodes of a tree -/

/-- The productions in a grammar: their kinds and what they are made of. -/
def productions : Grammar κ ν → List (NodeKind × Grammar κ ν)
  | empty | token _ | tokenIn _ | ref _ => []
  | seq a b | alt a b => a.productions ++ b.productions
  | opt a | many _ a | sepBy _ _ a | map _ a | unlessAt _ a | retry _ a | skipTo _ _ a =>
    a.productions
  | node kind a => (kind, a) :: a.productions

/-- The functions in a grammar that regroup trees. -/
def regroupings : Grammar κ ν → List (List ParseTree → List ParseTree)
  | empty | token _ | tokenIn _ | ref _ => []
  | seq a b | alt a b => a.regroupings ++ b.regroupings
  | opt a | many _ a | sepBy _ _ a | unlessAt _ a | retry _ a | node _ a | skipTo _ _ a =>
    a.regroupings
  | map f a => f :: a.regroupings

/-- The kinds in a grammar that stand for tokens that were skipped. -/
def skips : Grammar κ ν → List NodeKind
  | empty | token _ | tokenIn _ | ref _ => []
  | seq a b | alt a b => a.skips ++ b.skips
  | opt a | many _ a | sepBy _ _ a | unlessAt _ a | retry _ a | node _ a | map _ a => a.skips
  | skipTo _ kind a => kind :: a.skips

/-- The functions in a grammar that regroup trees, each with the grammar whose trees it is given. -/
def regrouped : Grammar κ ν → List ((List ParseTree → List ParseTree) × Grammar κ ν)
  | empty | token _ | tokenIn _ | ref _ => []
  | seq a b | alt a b => a.regrouped ++ b.regrouped
  | opt a | many _ a | sepBy _ _ a | unlessAt _ a | retry _ a | node _ a | skipTo _ _ a =>
    a.regrouped
  | map f a => (f, a) :: a.regrouped

/-- **A grammar all of whose nodes have a property**: the productions give it to their nodes, and
regrouping and skipping do no harm. -/
structure Upholds (rules : ν → Grammar κ ν) (tokens : List (Nat × κ))
    (W : NodeKind → List ParseTree → Prop) (g : Grammar κ ν) : Prop where
  production : ∀ r ∈ g.productions, ∀ ts, Yields rules tokens r.2 ts → W r.1 ts
  regrouping : ∀ r ∈ g.regrouped, ∀ ts, Yields rules tokens r.2 ts → EveryOf W ts →
    EveryOf W (r.1 ts)
  skip : ∀ kind ∈ g.skips, ∀ is : List Nat, W kind (is.map .leaf)

/-- `Upholds`, where regrouping does no harm to any trees. -/
structure Ensures (rules : ν → Grammar κ ν) (tokens : List (Nat × κ))
    (W : NodeKind → List ParseTree → Prop) (g : Grammar κ ν) : Prop where
  production : ∀ r ∈ g.productions, ∀ ts, Yields rules tokens r.2 ts → W r.1 ts
  regrouping : ∀ f ∈ g.regroupings, ∀ ts, EveryOf W ts → EveryOf W (f ts)
  skip : ∀ kind ∈ g.skips, ∀ is : List Nat, W kind (is.map .leaf)

variable {W : NodeKind → List ParseTree → Prop}

theorem map_regrouped (g : Grammar κ ν) : g.regrouped.map (·.1) = g.regroupings := by
  induction g with
  | empty | token | tokenIn | ref => rfl
  | seq a b iha ihb | alt a b iha ihb => rw [regrouped, regroupings, List.map_append, iha, ihb]
  | opt a ih | many _ a ih | unlessAt _ a ih | retry _ a ih | node _ a ih | skipTo _ _ a ih =>
    exact ih
  | sepBy _ s a _ ih => exact ih
  | map f a ih => rw [regrouped, regroupings, List.map_cons, ih]

theorem Ensures.upholds (h : Ensures rules tokens W g) : Upholds rules tokens W g where
  production := h.production
  regrouping r hr ts _ :=
    h.regrouping r.1 (by rw [← map_regrouped]; exact List.mem_map_of_mem hr) ts
  skip := h.skip

/-- A part of a grammar that upholds a property does so too. -/
theorem Upholds.mono {a : Grammar κ ν} (h : Upholds rules tokens W g)
    (hp : a.productions ⊆ g.productions) (hr : a.regrouped ⊆ g.regrouped)
    (hs : a.skips ⊆ g.skips) : Upholds rules tokens W a :=
  ⟨fun r hmem => h.production r (hp hmem), fun f hmem => h.regrouping f (hr hmem),
    fun kind hmem => h.skip kind (hs hmem)⟩

/-- **Every node of the trees of a grammar has a property** that the grammar upholds. -/
theorem Yields.every_of_upholds (hrules : ∀ x, Upholds rules tokens W (rules x))
    (h : Yields rules tokens g trees) (hg : Upholds rules tokens W g) : EveryOf W trees := by
  induction h with
  | empty | token | tokenIn | absent | manyNil | sepNil => simp [EveryOf, Every]
  | seq _ _ iha ihb =>
    exact everyOf_append.mpr
      ⟨iha (hg.mono (List.subset_append_left _ _) (List.subset_append_left _ _)
          (List.subset_append_left _ _)),
        ihb (hg.mono (List.subset_append_right _ _) (List.subset_append_right _ _)
          (List.subset_append_right _ _))⟩
  | left _ ih =>
    exact ih (hg.mono (List.subset_append_left _ _) (List.subset_append_left _ _)
      (List.subset_append_left _ _))
  | right _ ih =>
    exact ih (hg.mono (List.subset_append_right _ _) (List.subset_append_right _ _)
      (List.subset_append_right _ _))
  | present _ ih | unlessAt _ ih | retry _ ih => exact ih ⟨hg.1, hg.2, hg.3⟩
  | manyCons _ _ iha ihb => exact everyOf_append.mpr ⟨iha ⟨hg.1, hg.2, hg.3⟩, ihb hg⟩
  | sepCons _ _ iha ihb => exact everyOf_append.mpr ⟨iha ⟨hg.1, hg.2, hg.3⟩, ihb hg⟩
  | node ha ih =>
    have hbelow := ih (hg.mono (List.subset_cons_self _ _) (List.Subset.refl _)
      (List.Subset.refl _))
    exact ⟨⟨hg.production _ List.mem_cons_self _ ha, hbelow⟩, trivial⟩
  | map ha ih =>
    exact hg.regrouping _ List.mem_cons_self _ ha
      (ih (hg.mono (List.Subset.refl _) (List.subset_cons_self _ _) (List.Subset.refl _)))
  | ref _ ih => exact ih (hrules _)
  | found _ ih =>
    exact ih (hg.mono (List.Subset.refl _) (List.Subset.refl _) (List.subset_cons_self _ _))
  | skipped is => exact ⟨⟨hg.skip _ List.mem_cons_self is, everyOf_leaves is⟩, trivial⟩

theorem Yields.every (hrules : ∀ x, Ensures rules tokens W (rules x))
    (h : Yields rules tokens g trees) (hg : Ensures rules tokens W g) : EveryOf W trees :=
  h.every_of_upholds (fun x => (hrules x).upholds) hg.upholds

end Grammar

/-! ### The kinds of the parts of a production -/

namespace Grammar

/-- **The rows of kinds that a grammar can show**, where tokens of some kinds are leaves and where
what names show is given. -/
def Parts (leaf : κ → Option NodeKind) (named : ν → List NodeKind → Prop) :
    Grammar κ ν → List NodeKind → Prop
  | empty => fun ks => ks = []
  | token k => fun ks => ks = (leaf k).toList
  | tokenIn p => fun ks => ∃ k, p k ∧ ks = (leaf k).toList
  | seq a b => fun ks => ∃ us vs, Parts leaf named a us ∧ Parts leaf named b vs ∧ ks = us ++ vs
  | alt a b => fun ks => Parts leaf named a ks ∨ Parts leaf named b ks
  | opt a => fun ks => ks = [] ∨ Parts leaf named a ks
  | many _ a | sepBy _ _ a => fun ks => ∃ turns : List (List NodeKind),
    (∀ us ∈ turns, Parts leaf named a us) ∧ ks = turns.flatten
  | node kind _ => fun ks => ks = [kind]
  | map _ _ => fun _ => True
  | ref x => named x
  | unlessAt _ a | retry _ a => Parts leaf named a
  | skipTo _ kind a => fun ks => Parts leaf named a ks ∨ ks = [kind]

end Grammar

namespace ParseTree

/-- The kind that a part of a production shows, if it is no token without a leaf. -/
def partKind? (leafAt : Nat → Option NodeKind) : ParseTree → Option NodeKind
  | leaf i => leafAt i
  | node k _ => some k

end ParseTree

namespace Grammar

open ParseTree

variable {rules : ν → Grammar κ ν} {tokens : List (Nat × κ)} {g : Grammar κ ν}
  {trees : List ParseTree} {leaf : κ → Option NodeKind} {named : ν → List NodeKind → Prop}
  {leafAt : Nat → Option NodeKind}

theorem Parts.turn {a : Grammar κ ν} {us vs : List NodeKind} (h : Parts leaf named a us)
    (hs : ∃ turns : List (List NodeKind), (∀ ws ∈ turns, Parts leaf named a ws) ∧
      vs = turns.flatten) :
    ∃ turns : List (List NodeKind), (∀ ws ∈ turns, Parts leaf named a ws) ∧
      us ++ vs = turns.flatten := by
  obtain ⟨turns, hturns, rfl⟩ := hs
  exact ⟨us :: turns, List.forall_mem_cons.mpr ⟨h, hturns⟩, rfl⟩

/-- **What a grammar makes of tokens** shows one of its rows of kinds. -/
theorem Yields.parts (hleaf : ∀ i k, (i, k) ∈ tokens → leafAt i = leaf k)
    (hnamed : ∀ x ts, Yields rules tokens (rules x) ts → named x (ts.filterMap (partKind? leafAt)))
    (h : Yields rules tokens g trees) :
    Parts leaf named g (trees.filterMap (partKind? leafAt)) := by
  have hone {i : Nat} {k : κ} (hmem : (i, k) ∈ tokens) :
      [ParseTree.leaf i].filterMap (partKind? leafAt) = (leaf k).toList := by
    rw [← hleaf i k hmem]
    cases hi : leafAt i <;> simp [partKind?, hi]
  induction h with
  | empty => rfl
  | token hmem => exact hone hmem
  | tokenIn hmem hp => exact ⟨_, hp, hone hmem⟩
  | seq _ _ iha ihb => exact ⟨_, _, iha, ihb, List.filterMap_append⟩
  | left _ ih | found _ ih => exact .inl ih
  | right _ ih | present _ ih => exact .inr ih
  | absent => exact .inl rfl
  | manyNil | sepNil => exact ⟨[], by simp, rfl⟩
  | manyCons _ _ iha ihb | sepCons _ _ iha ihb =>
    rw [List.filterMap_append]
    exact Parts.turn iha ihb
  | node => rfl
  | map => trivial
  | ref h => exact hnamed _ _ h
  | unlessAt _ ih | retry _ ih => exact ih
  | skipped => exact .inr rfl

end Grammar

end Verilog
