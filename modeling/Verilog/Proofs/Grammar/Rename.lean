import Verilog.Proofs.Grammar.Yields

/-!
# What a run does not look at

A grammar looks at the kinds of tokens and at nothing else: their positions it only puts into the
leaves of its trees. So a list of tokens with other positions is read in the same way, with the same
faults at the same places, and to the same trees but for the positions at the leaves
(`Grammar.parse_rename`).

All it needs is that the functions that regroup trees do not look at the leaves either
(`Grammar.Natural`). Of a separator no trees are kept, but how far it goes must not hang on
positions; for simplicity, separators are asked to regroup nothing.
-/

namespace Verilog

namespace ParseTree

mutual

/-- A tree with other positions at its leaves. -/
def rename (ρ : Nat → Nat) : ParseTree → ParseTree
  | leaf i => leaf (ρ i)
  | node k ts => node k (renameAll ρ ts)

/-- Trees with other positions at their leaves. -/
def renameAll (ρ : Nat → Nat) : List ParseTree → List ParseTree
  | [] => []
  | t :: ts => t.rename ρ :: renameAll ρ ts

end

variable {ρ : Nat → Nat}

@[simp] theorem renameAll_nil : renameAll ρ [] = [] := rfl

theorem renameAll_eq (ts : List ParseTree) : renameAll ρ ts = ts.map (rename ρ) := by
  induction ts with
  | nil => rfl
  | cons t ts ih => rw [renameAll, ih, List.map_cons]

@[simp] theorem renameAll_append (ts us : List ParseTree) :
    renameAll ρ (ts ++ us) = renameAll ρ ts ++ renameAll ρ us := by
  simp [renameAll_eq]

@[simp] theorem reverse_renameAll (ts : List ParseTree) :
    (renameAll ρ ts).reverse = renameAll ρ ts.reverse := by
  simp [renameAll_eq]

@[simp] theorem reverseAux_renameAll (ts us : List ParseTree) :
    (renameAll ρ ts).reverseAux (renameAll ρ us) = renameAll ρ (ts.reverseAux us) := by
  simp [renameAll_eq, List.reverseAux_eq]

@[simp] theorem kind?_rename (t : ParseTree) : (t.rename ρ).kind? = t.kind? := by
  cases t <;> rfl

theorem children_rename (t : ParseTree) : (t.rename ρ).children = t.children.map (rename ρ) := by
  cases t with
  | leaf i => rfl
  | node k ts => exact renameAll_eq ts

mutual

theorem leaves_rename : (t : ParseTree) → (t.rename ρ).leaves = t.leaves.map ρ
  | leaf _ => rfl
  | node _ ts => leavesAll_renameAll ts

theorem leavesAll_renameAll : (ts : List ParseTree) →
    leavesAll (renameAll ρ ts) = (leavesAll ts).map ρ
  | [] => rfl
  | t :: ts => by
    rw [renameAll, leavesAll, leavesAll, List.map_append, leaves_rename t, leavesAll_renameAll ts]

end

mutual

theorem rename_of_fixed (h : ∀ i, ρ i = i) : (t : ParseTree) → t.rename ρ = t
  | leaf i => congrArg leaf (h i)
  | node k ts => congrArg (node k) (renameAll_of_fixed h ts)

theorem renameAll_of_fixed (h : ∀ i, ρ i = i) : (ts : List ParseTree) → renameAll ρ ts = ts
  | [] => rfl
  | t :: ts => by rw [renameAll, rename_of_fixed h t, renameAll_of_fixed h ts]

end

theorem leaves_subset_of_mem {t : ParseTree} {ts : List ParseTree} (h : t ∈ ts) :
    t.leaves ⊆ leavesAll ts := by
  induction ts with
  | nil => cases h
  | cons u ts ih =>
    rw [leavesAll]
    obtain rfl | h := List.mem_cons.mp h
    · exact List.subset_append_left _ _
    · exact List.Subset.trans (ih h) (List.subset_append_right _ _)

end ParseTree

open ParseTree

variable {κ ν : Type} {ρ : Nat → Nat}

/-- Tokens at other positions. -/
def renameTokens (ρ : Nat → Nat) (tokens : List (Nat × κ)) : List (Nat × κ) :=
  tokens.map fun t => (ρ t.1, t.2)

@[simp] theorem renameTokens_nil : renameTokens ρ ([] : List (Nat × κ)) = [] := rfl

@[simp] theorem renameTokens_cons (t : Nat × κ) (tokens : List (Nat × κ)) :
    renameTokens ρ (t :: tokens) = (ρ t.1, t.2) :: renameTokens ρ tokens := rfl

@[simp] theorem length_renameTokens (tokens : List (Nat × κ)) :
    (renameTokens ρ tokens).length = tokens.length :=
  List.length_map _

/-- A cursor in tokens at other positions. -/
def Cursor.rename (ρ : Nat → Nat) (c : Cursor κ) : Cursor κ :=
  ⟨c.offset, renameTokens ρ c.rest⟩

/-- What a run on tokens at other positions ends with. -/
def Reply.rename (ρ : Nat → Nat) : Reply κ → Reply κ
  | .ok recovered trees next beyond => .ok recovered (renameAll ρ trees) (next.rename ρ) beyond
  | .fail recovered fault => .fail recovered fault

@[simp] theorem Reply.rename_ok (recovered : List (Fault κ)) (trees : List ParseTree)
    (next : Cursor κ) (beyond : Option (Fault κ)) :
    (Reply.ok recovered trees next beyond).rename ρ =
      .ok recovered (renameAll ρ trees) (next.rename ρ) beyond := rfl

@[simp] theorem Reply.rename_fail (recovered : List (Fault κ)) (fault : Fault κ) :
    (Reply.fail recovered fault).rename ρ = .fail recovered fault := rfl

/-- A way to run that does not look at positions. -/
def Runner.Uniform (ρ : Nat → Nat) (a : Runner κ) : Prop := ∀ c, a (c.rename ρ) = (a c).rename ρ

namespace Runner

variable {a b separator : Runner κ}

theorem uniform_token (expected : List (Option κ)) (p : κ → Bool) :
    (token expected p).Uniform ρ := by
  rintro ⟨offset, _ | ⟨⟨i, k⟩, rest⟩⟩
  · rfl
  · by_cases hk : p k <;> simp [token, Cursor.rename, hk, renameAll, ParseTree.rename]

theorem Uniform.map {f : List ParseTree → List ParseTree} (ha : a.Uniform ρ)
    (hf : ∀ ts, f (renameAll ρ ts) = renameAll ρ (f ts)) : (map f a).Uniform ρ := by
  intro c
  rw [Runner.map, Runner.map, ha c]
  cases a c <;> simp [hf]

theorem Uniform.opt (ha : a.Uniform ρ) : (opt a).Uniform ρ := by
  intro c
  rw [Runner.opt, Runner.opt, ha c]
  cases a c <;> rfl

variable [DecidableEq κ]

theorem Uniform.seq (ha : a.Uniform ρ) (hb : b.Uniform ρ) : (seq a b).Uniform ρ := by
  intro c
  rw [Runner.seq, Runner.seq, ha c]
  cases a c with
  | fail recovered fault => rfl
  | ok recovered trees next beyond =>
    simp only [Reply.rename_ok, hb next]
    cases b next <;> simp

theorem Uniform.alt (ha : a.Uniform ρ) (hb : b.Uniform ρ) : (alt a b).Uniform ρ := by
  intro c
  rw [Runner.alt, Runner.alt, ha c, hb c]
  cases a c with
  | ok recovered trees next beyond => rfl
  | fail recovered fault => cases b c <;> rfl

/-! ### Repetition -/

theorem Uniform.manyFrom (ha : a.Uniform ρ) (fuel pending : Nat) (recovered : List (Fault κ))
    (trees : List ParseTree) (beyond : Option (Fault κ)) (c : Cursor κ) :
    manyFrom a fuel pending recovered (renameAll ρ trees) beyond (c.rename ρ) =
      (manyFrom a fuel pending recovered trees beyond c).rename ρ := by
  induction fuel generalizing pending recovered trees beyond c with
  | zero => simp [Runner.manyFrom]
  | succ fuel ih =>
    rw [Runner.manyFrom, Runner.manyFrom, ha c]
    cases a c with
    | ok recovered' trees' next beyond' => simp only [Reply.rename_ok, reverseAux_renameAll, ih]
    | fail recovered' fault => by_cases hp : pending = 0 <;> simp [hp]

theorem Uniform.many (ha : a.Uniform ρ) (least : Nat) : (many least a).Uniform ρ := by
  intro c
  have hlen : (c.rename ρ).rest.length = c.rest.length := length_renameTokens _
  rw [Runner.many, Runner.many, hlen]
  exact ha.manyFrom _ _ _ [] _ _

theorem Uniform.sepByFrom (hs : separator.Uniform ρ) (ha : a.Uniform ρ) (fuel pending : Nat)
    (recovered : List (Fault κ)) (trees : List ParseTree) (beyond : Option (Fault κ))
    (c : Cursor κ) :
    sepByFrom separator a fuel pending recovered (renameAll ρ trees) beyond (c.rename ρ) =
      (sepByFrom separator a fuel pending recovered trees beyond c).rename ρ := by
  induction fuel generalizing pending recovered trees beyond c with
  | zero => simp [Runner.sepByFrom]
  | succ fuel ih =>
    rw [Runner.sepByFrom, Runner.sepByFrom, hs c]
    cases separator c with
    | fail recovered' fault => by_cases hp : pending = 0 <;> simp [hp]
    | ok recovered' trees' next beyond' =>
      simp only [Reply.rename_ok, ha next]
      cases a next with
      | fail recovered'' fault => by_cases hp : pending = 0 <;> simp [hp]
      | ok recovered'' trees'' next' beyond'' =>
        simp only [Reply.rename_ok, reverseAux_renameAll, ih]

theorem Uniform.sepBy (hs : separator.Uniform ρ) (ha : a.Uniform ρ) (least : Nat) :
    (sepBy least separator a).Uniform ρ := by
  intro c
  rw [Runner.sepBy, Runner.sepBy, ha c]
  cases a c with
  | fail recovered fault => by_cases h : least = 0 <;> simp [h]
  | ok recovered trees next beyond =>
    have hlen : (next.rename ρ).rest.length = next.rest.length := length_renameTokens _
    simp only [Reply.rename_ok, reverse_renameAll, hlen]
    exact hs.sepByFrom ha _ _ _ _ _ _

/-! ### Going on after a fault -/

theorem Uniform.unlessAt (ha : a.Uniform ρ) (stops : List κ) : (unlessAt stops a).Uniform ρ := by
  intro c
  have h := ha c
  obtain ⟨offset, _ | ⟨⟨i, k⟩, rest⟩⟩ := c
  · rfl
  · simp only [Runner.unlessAt, Cursor.rename, renameTokens_cons] at h ⊢
    split
    · rfl
    · exact h

theorem Uniform.retryFrom (ha : a.Uniform ρ) (stops : List κ) (recovered : List (Fault κ))
    (fault : Fault κ) (offset : Nat) (rest : List (Nat × κ)) :
    retryFrom stops a recovered fault offset (renameTokens ρ rest) =
      (retryFrom stops a recovered fault offset rest).rename ρ := by
  induction rest generalizing offset with
  | nil =>
    have h : a ⟨offset, []⟩ = (a ⟨offset, []⟩).rename ρ := ha ⟨offset, []⟩
    rw [renameTokens_nil, Runner.retryFrom]
    cases hr : a ⟨offset, []⟩ with
    | ok recovered' trees next beyond => simpa [hr] using h
    | fail recovered' fault' => rfl
  | cons t rest ih =>
    have h : a ⟨offset, (ρ t.1, t.2) :: renameTokens ρ rest⟩ = (a ⟨offset, t :: rest⟩).rename ρ :=
      ha ⟨offset, t :: rest⟩
    rw [renameTokens_cons, Runner.retryFrom, Runner.retryFrom, h]
    cases a ⟨offset, t :: rest⟩ with
    | ok recovered' trees next beyond => rfl
    | fail recovered' fault' =>
      simp only [Reply.rename_fail, ih]
      split <;> rfl

theorem Uniform.retry (ha : a.Uniform ρ) (stops : List κ) : (retry stops a).Uniform ρ := by
  intro c
  have h := ha c
  obtain ⟨offset, rest⟩ := c
  rw [Runner.retry, Runner.retry, h]
  cases a ⟨offset, rest⟩ with
  | ok recovered trees next beyond => rfl
  | fail recovered fault =>
    cases rest with
    | nil => exact ha.retryFrom stops recovered fault offset []
    | cons t rest => exact ha.retryFrom stops recovered fault (offset + 1) rest

omit [DecidableEq κ] in
theorem skipped_renameTokens (kind : NodeKind) (taken : List (Nat × κ)) :
    skipped kind (renameTokens ρ taken) = (skipped kind taken).rename ρ := by
  match taken with
  | [] => rfl
  | [_] => rfl
  | t :: u :: more =>
    obtain ⟨last, hlast⟩ : ∃ last, (u :: more).getLast? = some last :=
      ⟨_, List.getLast?_eq_some_getLast (by simp)⟩
    have hlast' : (renameTokens ρ (u :: more)).getLast? = some (ρ last.1, last.2) := by
      rw [renameTokens, List.getLast?_map, hlast]
      rfl
    simp only [renameTokens_cons] at hlast' ⊢
    simp only [skipped, hlast, hlast']
    rfl

theorem Uniform.skipTo (ha : a.Uniform ρ) (stops : List κ) (kind : NodeKind) :
    (skipTo stops kind a).Uniform ρ := by
  intro c
  have htaken : (c.rename ρ).rest.takeWhile (fun t => !stops.contains t.2) =
      renameTokens ρ (c.rest.takeWhile fun t => !stops.contains t.2) :=
    List.takeWhile_map ..
  rw [Runner.skipTo, Runner.skipTo, ha c]
  cases a c with
  | ok recovered trees next beyond => rfl
  | fail recovered fault =>
    simp only [Reply.rename_fail, htaken]
    cases c.rest.takeWhile fun t => !stops.contains t.2 with
    | nil => rfl
    | cons t taken =>
      have hdrop : (c.rename ρ).rest.drop (t :: taken).length =
          renameTokens ρ (c.rest.drop (t :: taken).length) :=
        List.map_drop.symm
      have hskipped := skipped_renameTokens (ρ := ρ) kind (t :: taken)
      rw [renameTokens_cons] at hskipped ⊢
      simp only [hskipped, Reply.rename_ok, List.length_cons, length_renameTokens] at hdrop ⊢
      rw [hdrop]
      rfl

end Runner

/-! ### Grammars -/

namespace Grammar

/-- Do the separators in a grammar regroup nothing? -/
def plainSeparators : Grammar κ ν → Bool
  | empty | token _ | tokenIn _ | ref _ => true
  | seq a b | alt a b => a.plainSeparators && b.plainSeparators
  | sepBy _ s a => s.regroupings.isEmpty && s.plainSeparators && a.plainSeparators
  | opt a | many _ a | node _ a | map _ a | unlessAt _ a | retry _ a | skipTo _ _ a =>
    a.plainSeparators

/-- A grammar that regroups trees without a look at the positions in them. -/
structure Natural (ρ : Nat → Nat) (g : Grammar κ ν) : Prop where
  regrouping : ∀ f ∈ g.regroupings, ∀ ts, f (renameAll ρ ts) = renameAll ρ (f ts)
  separators : g.plainSeparators = true

variable [DecidableEq κ] {rules : ν → Grammar κ ν} {g : Grammar κ ν}

/-- **A natural grammar does not look at positions**, if those it refers to do not. -/
theorem uniform_run {callee : ν → Runner κ} (hc : ∀ x, (callee x).Uniform ρ) (hg : g.Natural ρ) :
    (g.run callee).Uniform ρ := by
  induction g with
  | empty => exact fun c => rfl
  | token k => exact Runner.uniform_token _ _
  | tokenIn p => exact Runner.uniform_token _ _
  | seq a b iha ihb =>
    obtain ⟨hf, hs⟩ := hg
    rw [plainSeparators, Bool.and_eq_true] at hs
    exact (iha ⟨fun f hmem => hf f (List.mem_append_left _ hmem), hs.1⟩).seq
      (ihb ⟨fun f hmem => hf f (List.mem_append_right _ hmem), hs.2⟩)
  | alt a b iha ihb =>
    obtain ⟨hf, hs⟩ := hg
    rw [plainSeparators, Bool.and_eq_true] at hs
    exact (iha ⟨fun f hmem => hf f (List.mem_append_left _ hmem), hs.1⟩).alt
      (ihb ⟨fun f hmem => hf f (List.mem_append_right _ hmem), hs.2⟩)
  | opt a ih => exact (ih ⟨hg.1, hg.2⟩).opt
  | many least a ih => exact (ih ⟨hg.1, hg.2⟩).many least
  | sepBy least s a ihs iha =>
    obtain ⟨hf, hs⟩ := hg
    simp only [plainSeparators, Bool.and_eq_true, List.isEmpty_iff] at hs
    exact (ihs ⟨by simp [hs.1.1], hs.1.2⟩).sepBy (iha ⟨hf, hs.2⟩) least
  | node kind a ih => exact (ih ⟨hg.1, hg.2⟩).map fun _ => rfl
  | map f a ih =>
    exact (ih ⟨fun f hmem => hg.1 f (List.mem_cons_of_mem _ hmem), hg.2⟩).map
      (hg.1 f List.mem_cons_self)
  | ref x => exact hc x
  | unlessAt stops a ih => exact (ih ⟨hg.1, hg.2⟩).unlessAt stops
  | retry stops a ih => exact (ih ⟨hg.1, hg.2⟩).retry stops
  | skipTo stops kind a ih => exact (ih ⟨hg.1, hg.2⟩).skipTo stops kind

theorem uniform_runRef (hr : ∀ x, (rules x).Natural ρ) (fuel : Nat) :
    ∀ x, (runRef rules fuel x).Uniform ρ := by
  induction fuel with
  | zero => exact fun _ _ => rfl
  | succ fuel ih => exact fun x => uniform_run ih (hr x)

/-- **Tokens at other positions are read in the same way**: to the same trees but for the positions,
and with the same faults. -/
theorem parse_rename (hr : ∀ x, (rules x).Natural ρ) (hg : g.Natural ρ) (tokens : List (Nat × κ)) :
    parse rules g (renameTokens ρ tokens) =
      ((parse rules g tokens).1.map (renameAll ρ), (parse rules g tokens).2) := by
  have hrun : g.run (runRef rules (tokens.length + 1)) ⟨0, renameTokens ρ tokens⟩ =
      (g.run (runRef rules (tokens.length + 1)) ⟨0, tokens⟩).rename ρ :=
    uniform_run (uniform_runRef hr _) hg ⟨0, tokens⟩
  rw [parse, parse, length_renameTokens, hrun]
  cases g.run (runRef rules (tokens.length + 1)) ⟨0, tokens⟩ with
  | fail recovered fault => rfl
  | ok recovered trees next beyond =>
    obtain ⟨offset, _ | ⟨t, rest⟩⟩ := next <;> rfl

end Grammar

end Verilog
