import Mathlib.Data.List.Pairwise
import Verilog.Proofs.Source.Opening

/-!
# How far a faulty item is skipped

Where no item can be read, the tokens up to the next word that closes a list of items or opens a
description are kept as an opaque body. Opaque bodies are used for other things too, such as classes
and tables, which go up to a closing word of their own and may well hold such words. So it has to be
told which body is which: those that stand directly in a list of items are those of faulty items.

What stands directly in a production is read off the grammar (`SourceGrammar.confines`), except that
items are referred to by name; one induction over the grammar proves of its runs that the bodies in
lists of items end in time (`SourceGrammar.told_run`). A run goes on from the last tokens of the
whole list only, so that what it skips is known together with all that comes behind it, and the
first token behind it is where it stopped (`ParseTree.boundedBy_skipped`).
-/

namespace Verilog

/-- Do items stand directly below nodes of a kind? -/
def NodeKind.holdsItems : NodeKind → Bool
  | .paSourceText | .paModuleDeclaration | .paInterfaceDeclaration | .paProgramDeclaration
  | .paUdpDeclaration | .paPackageDeclaration | .paGenerateRegion | .paGenerateBlock
  | .paGenerateBeginEndBlock => true
  | _ => false

/-! ### Stretches of tokens -/

namespace ParseTree

variable {κ : Type} {tokens taken rest : List (Nat × κ)} {stops : List κ} {kind : NodeKind}

/-- **Does a tree end in time?** It covers a range of positions, no token in it is of one of these
kinds, and the first token behind it is, if there is one. -/
def BoundedBy (tokens : List (Nat × κ)) (stops : List κ) (t : ParseTree) : Prop :=
  ∃ first past, t.tokenRange? = some (first, past) ∧
    (∀ x ∈ tokens, first ≤ x.1 → x.1 < past → x.2 ∉ stops) ∧
    ∀ x ∈ tokens.find? (past ≤ ·.1), x.2 ∈ stops

theorem tokenRange?_skipped (h : taken ≠ []) : (Runner.skipped kind taken).tokenRange? =
    some ((taken.head h).1, (taken.getLast h).1 + 1) := by
  match taken with
  | [(i, _)] => rfl
  | (i, _) :: t :: more =>
    simp [Runner.skipped, tokenRange?, first?, firstAll?, last?, lastAll?,
      List.getLast?_eq_some_getLast (List.cons_ne_nil t more)]

/-- The first token that a test holds of, where it holds of those from some place on. -/
theorem find?_append_of_forall {p : Nat × κ → Bool} (hfront : ∀ x ∈ taken, p x = false)
    (hrest : ∀ x ∈ rest, p x = true) : (taken ++ rest).find? p = rest.head? := by
  rw [List.find?_append, List.find?_eq_none.mpr fun x hx => by simp [hfront x hx], Option.none_or]
  cases rest with
  | nil => rfl
  | cons x rest => rw [List.find?_cons_of_pos (hrest x List.mem_cons_self), List.head?_cons]

/-- Tokens that were skipped end in time. -/
theorem boundedBy_skipped (hsorted : (tokens.map (·.1)).Pairwise (· < ·))
    (hcut : Runner.CutOff stops taken rest) (hsuffix : taken ++ rest <:+ tokens) :
    (Runner.skipped kind taken).BoundedBy tokens stops := by
  obtain ⟨before, rfl⟩ := hsuffix
  rw [List.pairwise_map, List.pairwise_append, List.pairwise_append] at hsorted
  obtain ⟨-, ⟨htaken, -, hrest⟩, hbefore⟩ := hsorted
  have hlast := List.getLast_mem hcut.ne_nil
  have hbefore : ∀ x ∈ before, x.1 < (taken.head hcut.ne_nil).1 ∧
      x.1 < (taken.getLast hcut.ne_nil).1 := fun x hx =>
    ⟨hbefore x hx _ (List.mem_append_left _ (List.head_mem _)),
      hbefore x hx _ (List.mem_append_left _ hlast)⟩
  have hrest := hrest _ hlast
  refine ⟨_, _, tokenRange?_skipped hcut.ne_nil, fun x hx hle hlt => ?_, ?_⟩
  · rcases List.mem_append.mp hx with hx | hx
    · exact absurd (hbefore x hx).1 (Nat.not_lt.mpr hle)
    · rcases List.mem_append.mp hx with hx | hx
      · exact hcut.taken x hx
      · exact absurd (hrest x hx) (Nat.not_lt.mpr (Nat.le_of_lt_succ hlt))
  · have hupto : ∀ x ∈ taken, x.1 ≤ (taken.getLast hcut.ne_nil).1 := fun x hx =>
      (htaken.imp Nat.le_of_lt).rel_getLast_of_rel_getLast_getLast hx (Nat.le_refl _)
    rw [← List.append_assoc, find?_append_of_forall (fun x hx => ?_) fun x hx => ?_]
    · exact hcut.rest
    · refine decide_eq_false (Nat.not_le_of_lt (Nat.lt_succ_of_le ?_))
      rcases List.mem_append.mp hx with hx | hx
      · exact Nat.le_of_lt (hbefore x hx).2
      · exact hupto x hx
    · exact decide_eq_true (hrest x hx)

end ParseTree

open ParseTree

namespace SourceGrammar

open Grammar

variable {tokens : List (Nat × SourceKind)} {g a b : SourceGrammar} {kind : NodeKind}
  {ts us : List ParseTree}

/-! ### What a grammar shows -/

/-- Is a tree, if it is an opaque body, one that ends in time? -/
def Confined (tokens : List (Nat × SourceKind)) (t : ParseTree) : Prop :=
  t.isNode .paOpaqueBody = true → t.BoundedBy tokens itemStops

/-- **Do the opaque bodies directly below a node end in time**, if it holds items? -/
def Confines (tokens : List (Nat × SourceKind)) (kind : NodeKind) (ts : List ParseTree) : Prop :=
  kind.holdsItems = true → ∀ t ∈ ts, Confined tokens t

/-- Does a grammar show no opaque bodies but those of faulty items? -/
def confines : SourceGrammar → Bool
  | .empty | .token _ | .tokenIn _ => true
  | .ref x => x == .item
  | .seq a b | .alt a b => confines a && confines b
  | .opt a | .many _ a | .sepBy _ _ a | .unlessAt _ a | .retry _ a => confines a
  | .node kind _ => kind != .paOpaqueBody
  | .map _ _ => false
  | .skipTo stops _ a => stops == itemStops && confines a

/-- **A grammar whose productions hold no other opaque bodies among items.** -/
structure ConfinesItems (g : SourceGrammar) : Prop where
  production : ∀ r ∈ g.productions, r.1.holdsItems = true → confines r.2 = true
  regrouping : ∀ f ∈ g.regroupings, ∀ tokens ts, EveryOf (Confines tokens) ts →
    EveryOf (Confines tokens) (f ts)
  skip : ∀ kind ∈ g.skips, kind.holdsItems = false

theorem ConfinesItems.mono (h : ConfinesItems g) (hp : a.productions ⊆ g.productions)
    (hr : a.regroupings ⊆ g.regroupings) (hs : a.skips ⊆ g.skips) : ConfinesItems a :=
  ⟨fun r hmem => h.production r (hp hmem), fun f hmem => h.regrouping f (hr hmem),
    fun kind hmem => h.skip kind (hs hmem)⟩

theorem ConfinesItems.both (h : ConfinesItems (seq a b)) : ConfinesItems a ∧ ConfinesItems b :=
  ⟨h.mono (List.subset_append_left _ _) (List.subset_append_left _ _)
      (List.subset_append_left _ _),
    h.mono (List.subset_append_right _ _) (List.subset_append_right _ _)
      (List.subset_append_right _ _)⟩

theorem confines_of_not_holdsItems (h : kind.holdsItems = false) (ts : List ParseTree) :
    Confines tokens kind ts := fun hk => by
  rw [h] at hk
  cases hk

/-! ### Runs -/

/-- **What is known of the trees of a grammar**: their nodes that hold items, and themselves, if the
grammar is to show no opaque bodies but those of faulty items. -/
structure Told (tokens : List (Nat × SourceKind)) (g : SourceGrammar) (ts : List ParseTree) :
    Prop where
  every : EveryOf (Confines tokens) ts
  direct : confines g = true → ∀ t ∈ ts, Confined tokens t

theorem told_nil (g : SourceGrammar) : Told tokens g [] :=
  ⟨trivial, fun _ _ h => nomatch h⟩

theorem told_leaf {i : Nat} (g : SourceGrammar) : Told tokens g [.leaf i] :=
  ⟨⟨trivial, trivial⟩, fun _ t ht => by
    rw [List.mem_singleton.mp ht]
    exact fun h => nomatch h⟩

theorem Told.of_confines (h : Told tokens a ts) (hg : confines g = true → confines a = true) :
    Told tokens g ts :=
  ⟨h.every, fun hc => h.direct (hg hc)⟩

theorem Told.append (ha : Told tokens a ts) (hb : Told tokens b us)
    (hg : confines g = true → confines a = true ∧ confines b = true) :
    Told tokens g (ts ++ us) :=
  ⟨everyOf_append.mpr ⟨ha.every, hb.every⟩,
    fun hc => List.forall_mem_append.mpr ⟨ha.direct (hg hc).1, hb.direct (hg hc).2⟩⟩

theorem Told.node (h : Told tokens a ts) (hk : kind.holdsItems = true → confines a = true) :
    Told tokens (node kind a) [.node kind ts] := by
  refine ⟨⟨⟨fun hholds => h.direct (hk hholds), h.every⟩, trivial⟩, fun hc t ht hopaque => ?_⟩
  rw [List.mem_singleton.mp ht, isNode, beq_iff_eq, kind?, Option.some.injEq] at hopaque
  exact absurd hopaque (bne_iff_ne.mp hc)

/-- What is kept of a faulty item ends in time. -/
theorem told_skipped (hsorted : (tokens.map (·.1)).Pairwise (· < ·)) {stops : List SourceKind}
    {taken rest : List (Nat × SourceKind)} (hcut : Runner.CutOff stops taken rest)
    (hsuffix : taken ++ rest <:+ tokens) (hk : kind.holdsItems = false) :
    Told tokens (skipTo stops kind a) [Runner.skipped kind taken] := by
  refine ⟨?_, fun hc t ht _ => ?_⟩
  · obtain ⟨is, his⟩ := Runner.skipped_eq kind taken
    rw [his]
    exact ⟨⟨confines_of_not_holdsItems hk _, everyOf_leaves is⟩, trivial⟩
  · obtain rfl : stops = itemStops := beq_iff_eq.mp (Bool.and_eq_true_iff.mp hc).1
    rw [List.mem_singleton.mp ht]
    exact boundedBy_skipped hsorted hcut hsuffix

/-- **What is read off a grammar holds of its runs**, if it holds of those it refers to. -/
theorem told_run (hsorted : (tokens.map (·.1)).Pairwise (· < ·))
    {callee : SourceRule → Runner SourceKind}
    (hyields : ∀ x, (callee x).Gives tokens (Yields rules tokens (rules x)))
    (hc : ∀ x, (callee x).Gives tokens (Told tokens (.ref x))) {g : SourceGrammar}
    (hg : ConfinesItems g) : (g.run callee).Gives tokens (Told tokens g) := by
  have hself {a : SourceGrammar} (hc : confines a = true) :
      confines a = true ∧ confines a = true := ⟨hc, hc⟩
  induction g with
  | empty =>
    refine Runner.gives_iff.mpr fun c trees next hrun hrest => ?_
    obtain ⟨rfl, rfl⟩ := succeeds_empty hrun
    exact ⟨told_nil _, hrest⟩
  | token k | tokenIn p => exact Runner.gives_token _ fun _ _ _ _ => told_leaf _
  | seq a b iha ihb =>
    obtain ⟨ha, hb⟩ := hg.both
    refine ((iha ha).seq (ihb hb)).mono ?_
    rintro _ ⟨us, vs, hus, hvs, rfl⟩
    exact hus.append hvs Bool.and_eq_true_iff.mp
  | alt a b iha ihb =>
    obtain ⟨ha, hb⟩ := ConfinesItems.both ⟨hg.1, hg.2, hg.3⟩
    refine ((iha ha).alt (ihb hb)).mono fun ts h => ?_
    rcases h with h | h
    · exact h.of_confines fun hc => (Bool.and_eq_true_iff.mp hc).1
    · exact h.of_confines fun hc => (Bool.and_eq_true_iff.mp hc).2
  | opt a ih =>
    refine (ih ⟨hg.1, hg.2, hg.3⟩).opt.mono ?_
    rintro ts (rfl | h)
    · exact told_nil _
    · exact h.of_confines id
  | many least a ih =>
    exact Runner.Gives.many (told_nil _) (fun _ _ hts hus => hts.append hus hself)
      (ih ⟨hg.1, hg.2, hg.3⟩) least
  | sepBy least s a _ ih =>
    -- No tree of a separator is kept; all that matters is that it goes on in the same list.
    exact Runner.Gives.sepBy (told_nil _) (fun _ _ hts hus => hts.append hus hself)
      (yields_run hyields s) (ih ⟨hg.1, hg.2, hg.3⟩) least
  | node kind a ih =>
    have ha := ih (hg.mono (List.subset_cons_self _ _) (List.Subset.refl _) (List.Subset.refl _))
    exact ha.map fun _ h => h.node (hg.production _ List.mem_cons_self)
  | map f a ih =>
    have ha := ih (hg.mono (List.Subset.refl _) (List.subset_cons_self _ _) (List.Subset.refl _))
    -- What regrouping shows is not looked at: no production that holds items regroups them.
    refine ha.map fun ts h => ⟨hg.regrouping f List.mem_cons_self _ _ h.every, fun hc => ?_⟩
    exact absurd hc Bool.false_ne_true
  | ref x => exact hc x
  | unlessAt stops a ih =>
    exact ((ih ⟨hg.1, hg.2, hg.3⟩).unlessAt stops).mono fun _ h => h.of_confines id
  | retry stops a ih =>
    exact ((ih ⟨hg.1, hg.2, hg.3⟩).retry stops).mono fun _ h => h.of_confines id
  | skipTo stops kind a ih =>
    have ha := ih (hg.mono (List.Subset.refl _) (List.Subset.refl _) (List.subset_cons_self _ _))
    refine (ha.skipTo stops kind).mono ?_
    rintro ts (h | ⟨taken, rest, hcut, hsuffix, rfl⟩)
    · exact h.of_confines fun hc => (Bool.and_eq_true_iff.mp hc).2
    · exact told_skipped hsorted hcut hsuffix (hg.skip kind List.mem_cons_self)

theorem told_runRef (hsorted : (tokens.map (·.1)).Pairwise (· < ·))
    (hrules : ∀ x, ConfinesItems (rules x)) (hitem : confines (rules .item) = true) (fuel : Nat) :
    ∀ x, (runRef rules fuel x).Gives tokens (Told tokens (.ref x)) := by
  induction fuel with
  | zero =>
    intro x _ _ _ _ _ h
    simp [runRef] at h
  | succ fuel ih =>
    intro x
    refine (told_run hsorted (yields_runRef fuel) ih (hrules x)).mono fun ts h =>
      h.of_confines fun hx => ?_
    obtain rfl : x = .item := beq_iff_eq.mp hx
    exact hitem

/-! ### The productions -/

theorem confinesItems_of_regroupings
    (hp : (g.productions.all fun r => !r.1.holdsItems || confines r.2) = true)
    (hr : ∀ f ∈ g.regroupings, ∀ tokens ts, EveryOf (Confines tokens) ts →
      EveryOf (Confines tokens) (f ts))
    (hs : (g.skips.all fun kind => !kind.holdsItems) = true) : ConfinesItems g where
  production r hmem hholds := by
    have h := List.all_eq_true.mp hp r hmem
    rwa [hholds, Bool.not_true, Bool.false_or] at h
  regrouping := hr
  skip kind hmem := by simpa using List.all_eq_true.mp hs kind hmem

/-- A grammar without functions that regroup. -/
theorem confinesItems_of_nil
    (hp : (g.productions.all fun r => !r.1.holdsItems || confines r.2) = true)
    (hr : g.regroupings = []) (hs : (g.skips.all fun kind => !kind.holdsItems) = true) :
    ConfinesItems g :=
  confinesItems_of_regroupings hp (by simp [hr]) hs

/-- A grammar that regroups only the entries of modports. -/
theorem confinesItems_of_entries
    (hp : (g.productions.all fun r => !r.1.holdsItems || confines r.2) = true)
    (hr : g.regroupings = [groupModportEntries])
    (hs : (g.skips.all fun kind => !kind.holdsItems) = true) : ConfinesItems g := by
  refine confinesItems_of_regroupings hp (hr ▸ List.forall_mem_singleton.mpr fun tokens ts => ?_) hs
  exact everyOf_groupModportEntries (fun _ _ _ => confines_of_not_holdsItems rfl _)
    (fun _ => confines_of_not_holdsItems rfl _) (fun _ => confines_of_not_holdsItems rfl _)

theorem holdsItems_expressionKind (constant : Bool) :
    (expressionKind constant).holdsItems = false := by
  cases constant <;> rfl

/-- The levels of an expression only wrap operands into expressions, which hold no items. -/
theorem confinesItems_binaryLevel {constant : Bool} {operators : List SourceKind}
    (h : ConfinesItems g) : ConfinesItems (binaryLevel constant g operators) := by
  refine ⟨fun r hmem => h.production r ?_, fun f hmem => ?_, fun kind hmem => h.skip kind ?_⟩
  · simpa [binaryLevel, productions, oneOf] using hmem
  · rcases mem_regroupings_binaryLevel hmem with rfl | hmem
    · exact fun _ _ => everyOf_groupLeft
        fun _ => confines_of_not_holdsItems (holdsItems_expressionKind constant) _
    · exact h.regrouping f hmem
  · simpa [binaryLevel, skips, oneOf] using hmem

theorem confinesItems_conditional (constant : Bool) : ConfinesItems (conditional constant) := by
  have h : ConfinesItems (binary constant) :=
    binary_induction
      (by cases constant <;> exact confinesItems_of_nil (by with_unfolding_all rfl) rfl rfl)
      fun _ _ => confinesItems_binaryLevel
  refine ⟨fun r hmem => h.production r ?_, fun f hmem => ?_, fun kind hmem => h.skip kind ?_⟩
  · simpa [conditional, productions, all, expression] using hmem
  · rcases mem_regroupings_conditional hmem with rfl | hmem
    · exact fun _ _ => everyOf_wrapConditional
        fun _ => confines_of_not_holdsItems (holdsItems_expressionKind constant) _
    · exact h.regrouping f hmem
  · simpa [conditional, skips, all, expression] using hmem

theorem confinesItems_text : ConfinesItems text :=
  confinesItems_of_entries (by decide +kernel) (by with_unfolding_all rfl)
    (by with_unfolding_all rfl)

theorem confinesItems_rules : ∀ x, ConfinesItems (rules x)
  | .expression true => confinesItems_conditional true
  | .expression false => confinesItems_conditional false
  | .unary true | .unary false | .braces => confinesItems_of_nil (by with_unfolding_all rfl) rfl rfl
  | .statement => confinesItems_of_nil (by with_unfolding_all rfl) (by with_unfolding_all rfl)
      (by with_unfolding_all rfl)
  | .item => confinesItems_of_entries (by decide +kernel) (by with_unfolding_all rfl)
      (by with_unfolding_all rfl)

/-- **No faulty item is skipped past the end of its list**: in a tree of source text the opaque
bodies that stand among items hold no word that closes a list of items or opens a description, and
end before one or with the text. -/
theorem confined_parse {tokens : List SourceToken} {tree : ParseTree}
    (h : (parse tokens).1 = some tree) : tree.Every (Confines (visible tokens)) := by
  obtain ⟨trees, htrees, hhead⟩ := Option.bind_eq_some_iff.mp h
  obtain ⟨next, hrun, -⟩ := succeeds_of_parse htrees
  have hsorted := pairwise_visible tokens
  have htold (fuel : Nat) : (text.run (runRef rules fuel)).Gives _ (Told (visible tokens) text) :=
    told_run hsorted (yields_runRef fuel)
      (told_runRef hsorted confinesItems_rules (by with_unfolding_all rfl) fuel) confinesItems_text
  exact everyOf_iff.mp ((htold _).given hrun (List.suffix_refl _)).1.every tree
    (List.mem_of_head? hhead)

/-- An item without its semicolon, before the end of its module and another module. -/
def unfinishedItem : List SourceToken :=
  SourceToken.ofText "module a; wire w endmodule module b; endmodule"

theorem confined_parse_unfinishedItem : ∃ tree, (parse unfinishedItem).1 = some tree ∧
    tree.nodesOf .paOpaqueBody = [.node .paOpaqueBody [.leaf 5, .leaf 7]] ∧
    tree.Every (Confines (visible unfinishedItem)) := by
  have htest : ((parse unfinishedItem).1.any fun tree =>
      tree.nodesOf .paOpaqueBody == [.node .paOpaqueBody [.leaf 5, .leaf 7]]) = true := by
    decide +kernel
  obtain ⟨tree, htree, hbodies⟩ := Option.any_eq_true _ _ |>.mp htest
  exact ⟨tree, htree, eq_of_beq hbodies, confined_parse htree⟩

end SourceGrammar

end Verilog
