import Verilog.Proofs.Grammar.Cover
import Verilog.Proofs.Grammar.Rename
import Verilog.Proofs.Grammar.Takes

/-!
# Room for references

A reference costs a unit of fuel, and a list of tokens is read with one unit more than there are
tokens. That is enough: where every reference stands behind a token, references nest no deeper than
there are tokens, so that more fuel changes nothing (`Grammar.alike_runRef`). Nor does it matter how
many tokens have been read before. So the tokens at the end of a list are read as they would be by
themselves (`Runner.Turns.steps`).

Faults are left out of account, since the places they name do count the tokens before. A run hangs
on faults only where it goes on after them, so that is excluded.
-/

namespace Verilog

variable {κ ν : Type}

/-- **Are two replies to some tokens alike?** Both are the same trees with the same tokens left
over, fewer than before if some have to be taken, or both are faults. -/
inductive Reply.Alike (takes : Bool) (s : List (Nat × κ)) : Reply κ → Reply κ → Prop
  | ok {recovered recovered' : List (Fault κ)} {ts : List ParseTree} {rest : List (Nat × κ)}
    {m n : Nat} {beyond beyond' : Option (Fault κ)} (h : rest.length + takes.toNat ≤ s.length) :
    Alike takes s (.ok recovered ts ⟨m, rest⟩ beyond) (.ok recovered' ts ⟨n, rest⟩ beyond')
  | fail {recovered recovered' : List (Fault κ)} {fault fault' : Fault κ} :
    Alike takes s (.fail recovered fault) (.fail recovered' fault')

/-- What is left over of fewer tokens is left over of more. -/
theorem Reply.Alike.mono {takes takes' : Bool} {s s' : List (Nat × κ)} {r r' : Reply κ}
    (h : r.Alike takes s r') (hle : s.length + takes'.toNat ≤ s'.length + takes.toNat) :
    r.Alike takes' s' r' := by
  cases h with
  | ok h => exact .ok (by omega)
  | fail => exact .fail

namespace Runner

/-- **Do two runs come to the same** of less than so many tokens, wherever these stand? -/
def Alike (room : Nat) (takes : Bool) (a b : Runner κ) : Prop :=
  ∀ s, s.length < room → ∀ m n, (a ⟨m, s⟩).Alike takes s (b ⟨n, s⟩)

section

variable {a b a' b' separator separator' : Runner κ} {room room' : Nat} {takes takes' : Bool}

theorem Alike.mono (h : Alike room takes a a') (hle : room' ≤ room) : Alike room' takes a a' :=
  fun s hs => h s (by omega)

theorem alike_token (expected : List (Option κ)) (p : κ → Bool) :
    Alike room true (token expected p) (token expected p) := by
  rintro (_ | ⟨⟨i, k⟩, s⟩) - m n
  · exact .fail
  · rw [token, token]
    split
    · exact .ok (Nat.le_refl _)
    · exact .fail

theorem Alike.map (ha : Alike room takes a a') (f : List ParseTree → List ParseTree) :
    Alike room takes (map f a) (map f a') := by
  intro s hs m n
  have h := ha s hs m n
  rw [Runner.map, Runner.map]
  generalize a ⟨m, s⟩ = r, a' ⟨n, s⟩ = r' at h ⊢
  cases h with
  | ok h => exact .ok h
  | fail => exact .fail

theorem Alike.opt (ha : Alike room takes a a') : Alike room false (opt a) (opt a') := by
  intro s hs m n
  have h := ha s hs m n
  rw [Runner.opt, Runner.opt]
  generalize a ⟨m, s⟩ = r, a' ⟨n, s⟩ = r' at h ⊢
  cases h with
  | ok h => exact .ok (Nat.le_trans (Nat.le_add_right _ _) h)
  | fail => exact .ok (Nat.le_refl _)

variable [DecidableEq κ]

/-- Behind a token there has to be room for one token less. -/
theorem Alike.seq (ha : Alike room takes a a') (hb : Alike room' takes' b b')
    (hroom : room ≤ room' + takes.toNat) :
    Alike room (takes || takes') (seq a b) (seq a' b') := by
  intro s hs m n
  have h := ha s hs m n
  rw [Runner.seq, Runner.seq]
  generalize a ⟨m, s⟩ = r, a' ⟨n, s⟩ = r' at h ⊢
  cases h with
  | fail => exact .fail
  | @ok _ _ ts rest m n _ _ hrest =>
    have h := hb rest (by omega) m n
    dsimp only
    generalize b ⟨m, rest⟩ = r, b' ⟨n, rest⟩ = r' at h ⊢
    have htakes : (takes || takes').toNat ≤ takes.toNat + takes'.toNat := by
      cases takes <;> cases takes' <;> decide
    cases h with
    | ok hlast => exact .ok (by omega)
    | fail => exact .fail

theorem Alike.alt (ha : Alike room takes a a') (hb : Alike room takes' b b') :
    Alike room (takes && takes') (alt a b) (alt a' b') := by
  have hle (x y : Bool) : (x && y).toNat ≤ x.toNat ∧ (x && y).toNat ≤ y.toNat := by
    cases x <;> cases y <;> decide
  have htakes := hle takes takes'
  intro s hs m n
  have h := ha s hs m n
  rw [Runner.alt, Runner.alt]
  generalize a ⟨m, s⟩ = r, a' ⟨n, s⟩ = r' at h ⊢
  cases h with
  | ok h => exact .ok (by omega)
  | fail =>
    have h := hb s hs m n
    dsimp only
    generalize b ⟨m, s⟩ = r, b' ⟨n, s⟩ = r' at h ⊢
    cases h with
    | ok h => exact .ok (by omega)
    | fail => exact .fail

/-! ### Repetition -/

theorem Alike.manyFrom (ha : Alike room takes a a') (fuel : Nat) :
    ∀ {pending recovered recovered' trees beyond beyond'} {s : List (Nat × κ)}, s.length < room →
      ∀ m n, (manyFrom a fuel pending recovered trees beyond ⟨m, s⟩).Alike false s
        (manyFrom a' fuel pending recovered' trees beyond' ⟨n, s⟩) := by
  induction fuel with
  | zero => exact fun _ _ _ => .ok (Nat.le_refl _)
  | succ fuel ih =>
    intro pending _ _ _ _ _ s hs m n
    have h := ha s hs m n
    rw [Runner.manyFrom, Runner.manyFrom]
    generalize a ⟨m, s⟩ = r, a' ⟨n, s⟩ = r' at h ⊢
    cases h with
    | ok hrest => exact (ih (by omega) _ _).mono (by simp only [Bool.toNat_false]; omega)
    | fail =>
      dsimp only
      split
      · exact .ok (Nat.le_refl _)
      · exact .fail

theorem Alike.many (ha : Alike room takes a a') (least : Nat) :
    Alike room false (many least a) (many least a') :=
  fun _ hs m n => ha.manyFrom _ hs m n

theorem Alike.sepByFrom (hs : Alike room takes' separator separator') (ha : Alike room takes a a')
    (fuel : Nat) : ∀ {pending recovered recovered' trees beyond beyond'} {s : List (Nat × κ)},
      s.length < room →
      ∀ m n, (sepByFrom separator a fuel pending recovered trees beyond ⟨m, s⟩).Alike false s
        (sepByFrom separator' a' fuel pending recovered' trees beyond' ⟨n, s⟩) := by
  induction fuel with
  | zero => exact fun _ _ _ => .ok (Nat.le_refl _)
  | succ fuel ih =>
    intro pending _ _ _ _ _ s hroom m n
    have h := hs s hroom m n
    rw [Runner.sepByFrom, Runner.sepByFrom]
    generalize separator ⟨m, s⟩ = r, separator' ⟨n, s⟩ = r' at h ⊢
    cases h with
    | fail =>
      dsimp only
      split
      · exact .ok (Nat.le_refl _)
      · exact .fail
    | @ok _ _ ts rest m' n' _ _ hrest =>
      have h := ha rest (by omega) m' n'
      dsimp only
      generalize a ⟨m', rest⟩ = r, a' ⟨n', rest⟩ = r' at h ⊢
      cases h with
      | fail =>
        dsimp only
        split
        · exact .ok (Nat.le_refl _)
        · exact .fail
      | ok hlast => exact (ih (by omega) _ _).mono (by simp only [Bool.toNat_false]; omega)

theorem Alike.sepBy (hs : Alike room takes' separator separator') (ha : Alike room takes a a')
    (least : Nat) : Alike room false (sepBy least separator a) (sepBy least separator' a') := by
  intro s hroom m n
  have h := ha s hroom m n
  rw [Runner.sepBy, Runner.sepBy]
  generalize a ⟨m, s⟩ = r, a' ⟨n, s⟩ = r' at h ⊢
  cases h with
  | ok hrest =>
    exact (hs.sepByFrom ha _ (by omega) _ _).mono (by simp only [Bool.toNat_false]; omega)
  | fail =>
    dsimp only
    split
    · exact .ok (Nat.le_refl _)
    · exact .fail

theorem Alike.unlessAt (ha : Alike room takes a a') (stops : List κ) :
    Alike room takes (unlessAt stops a) (unlessAt stops a') := by
  rintro (_ | ⟨⟨i, k⟩, s⟩) hs m n
  · exact .fail
  · rw [Runner.unlessAt, Runner.unlessAt]
    dsimp only
    split
    · exact .fail
    · exact ha _ hs m n

end

/-! ### What is taken of the same tokens elsewhere -/

section

variable {a b : Runner κ} {s t : List (Nat × κ)} {xs : List ParseTree} {ρ : Nat → Nat}

theorem Takes.rename (h : a.Takes s t xs) (ha : a.Uniform ρ) :
    a.Takes (renameTokens ρ s) (renameTokens ρ t) (ParseTree.renameAll ρ xs) := by
  intro n
  obtain ⟨n', beyond, h⟩ := h n
  have hrun := ha ⟨n, s⟩
  rw [h] at hrun
  exact ⟨n', beyond, hrun⟩

theorem Steps.rename (h : a.Steps s t xs) (ha : a.Uniform ρ) :
    a.Steps (renameTokens ρ s) (renameTokens ρ t) (ParseTree.renameAll ρ xs) := by
  induction h with
  | nil => exact .nil _
  | cons h hlt _ ih =>
    rw [ParseTree.renameAll_append]
    exact .cons (h.rename ha) (by simpa using hlt) ih

/-- **Turns of one run** are steps of another one that comes to the same, and goes on after no
fault. -/
theorem Turns.steps {room : Nat} {c next : Cursor κ} {takes : Bool} (htakes : takes = true)
    (hab : Alike room takes a b)
    (hb : ∀ c recovered ts next beyond, b c = .ok recovered ts next beyond → recovered = [])
    (h : Turns a.Succeeds c xs next) (hc : c.rest.length < room) : b.Steps c.rest next.rest xs := by
  subst htakes
  induction h with
  | nil => exact .nil _
  | @cons c mid next ts us h _ ih =>
    obtain ⟨recovered, beyond, h⟩ := h
    obtain ⟨m, s⟩ := c
    have hreply (n : Nat) : ∃ n' beyond', b ⟨n, s⟩ = .ok [] ts ⟨n', mid.rest⟩ beyond' ∧
        mid.rest.length < s.length := by
      have hall := hab s hc m n
      rw [h] at hall
      generalize hr : b ⟨n, s⟩ = r at hall
      cases hall with
      | ok hlt =>
        obtain rfl := hb _ _ _ _ _ hr
        exact ⟨_, _, rfl, hlt⟩
    have hlt : mid.rest.length < s.length := (hreply 0).elim fun _ h => h.elim fun _ h => h.2
    refine .cons (fun n => ?_) hlt (ih (Nat.lt_trans hlt hc))
    obtain ⟨n', beyond', hr, -⟩ := hreply n
    exact ⟨n', beyond', hr⟩

end

end Runner

/-! ### Grammars -/

namespace Grammar

/-- Does every reference in a grammar stand behind a token? -/
def guarded : Grammar κ ν → Bool
  | empty | token _ | tokenIn _ => true
  | ref _ => false
  | seq a b => a.guarded && (a.takes || b.guarded)
  | alt a b => a.guarded && b.guarded
  | sepBy _ s a => s.guarded && a.guarded
  | opt a | many _ a | node _ a | map _ a | unlessAt _ a | retry _ a | skipTo _ _ a => a.guarded

variable [DecidableEq κ] {sep : κ → Bool} {room : Nat}

/-- **What a grammar makes of some tokens** hangs on the runs it refers to only so far: on what they
make of as many tokens, or of one less if every reference stands behind a token. -/
theorem alike_run {callee callee' : ν → Runner κ}
    (hc : ∀ x, (callee x).Alike room false (callee' x)) {g : Grammar κ ν}
    (hk : g.keeps sep = true) :
    (g.run callee).Alike (room + g.guarded.toNat) g.takes (g.run callee') := by
  have hle (x y : Bool) : (x && y).toNat ≤ x.toNat ∧ (x && y).toNat ≤ y.toNat := by
    cases x <;> cases y <;> decide
  induction g with
  | empty => exact fun s _ m n => .ok (Nat.le_refl _)
  | token k | tokenIn p => exact Runner.alike_token _ _
  | seq a b iha ihb =>
    obtain ⟨ha, hb⟩ := Bool.and_eq_true_iff.mp hk
    have hroom (x y z : Bool) : (x && (y || z)).toNat ≤ z.toNat + y.toNat := by
      cases x <;> cases y <;> cases z <;> decide
    have hroom := hroom a.guarded a.takes b.guarded
    have hfirst := (hle a.guarded (a.takes || b.guarded)).1
    refine Runner.Alike.seq ((iha ha).mono ?_) (ihb hb) ?_ <;> rw [guarded] <;> omega
  | alt a b iha ihb =>
    obtain ⟨ha, hb⟩ := Bool.and_eq_true_iff.mp hk
    have hroom := hle a.guarded b.guarded
    refine Runner.Alike.alt ((iha ha).mono ?_) ((ihb hb).mono ?_) <;> rw [guarded] <;> omega
  | opt a ih => exact Runner.Alike.opt (ih hk)
  | many least a ih => exact Runner.Alike.many (ih hk) least
  | sepBy least s a _ iha =>
    cases s with
    | token k =>
      obtain ⟨-, ha⟩ := Bool.and_eq_true_iff.mp hk
      exact Runner.Alike.sepBy (Runner.alike_token _ _)
        (by simpa only [guarded, Bool.true_and] using iha ha) least
    | _ => exact absurd hk Bool.false_ne_true
  | node kind a ih | map f a ih => exact Runner.Alike.map (ih hk) _
  | ref x => exact hc x
  | unlessAt stops a ih => exact Runner.Alike.unlessAt (ih hk) stops
  | retry | skipTo => exact absurd hk Bool.false_ne_true

/-- **More fuel changes nothing**, where it is enough for one reference a token. -/
theorem alike_runRef {rules : ν → Grammar κ ν} (hk : ∀ x, (rules x).keeps sep = true)
    (hg : ∀ x, (rules x).guarded = true) {fuel fuel' : Nat} (h : room ≤ fuel) (h' : room ≤ fuel') :
    ∀ x, (runRef rules fuel x).Alike room false (runRef rules fuel' x) := by
  induction room generalizing fuel fuel' with
  | zero => exact fun _ _ hs => absurd hs (Nat.not_lt_zero _)
  | succ room ih =>
    intro x s hs m n
    obtain ⟨fuel, rfl⟩ : ∃ k, fuel = k + 1 := ⟨fuel - 1, by omega⟩
    obtain ⟨fuel', rfl⟩ : ∃ k, fuel' = k + 1 := ⟨fuel' - 1, by omega⟩
    have hrun := alike_run (ih (Nat.le_of_succ_le_succ h) (Nat.le_of_succ_le_succ h')) (hk x)
    rw [hg x] at hrun
    exact (hrun s hs m n).mono (Nat.add_le_add_left (Nat.zero_le _) _)

end Grammar

end Verilog
