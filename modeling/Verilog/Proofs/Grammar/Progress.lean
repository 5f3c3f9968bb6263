import Verilog.Proofs.Grammar.Leaves

/-!
# Where repetitions stop

A run that goes past some token whenever it succeeds can be repeated only so often, and a repetition
of it has fuel enough: it stops where the run fails (`Runner.exists_turns_of_many`), and nowhere
else. That a grammar is of this kind is read off its parts (`Grammar.progresses_run`), also where it
goes on after faults.

A run that may skip tokens after a fault fails where it can start from none of the places further on
(`Runner.fails_retry`). As what a run gives is settled by where it starts, turns that do without
such skipping are the first turns of those that may skip (`Runner.Turns.split`).
-/

namespace Verilog

/-- **Is a place further on than another**, or the same? -/
def Cursor.Precedes {κ : Type} (c d : Cursor κ) : Prop :=
  ∃ skipped, c.rest = skipped ++ d.rest ∧ d.offset = c.offset + skipped.length

theorem Cursor.precedes_nil {κ : Type} {offset : Nat} {d : Cursor κ} :
    Precedes ⟨offset, []⟩ d ↔ d = ⟨offset, []⟩ := by
  constructor
  · rintro ⟨skipped, hrest, hoffset⟩
    obtain ⟨rfl, hd⟩ := List.nil_eq_append_iff.mp hrest
    obtain ⟨_, _⟩ := d
    obtain rfl : _ = [] := hd
    obtain rfl : _ = offset := hoffset
    rfl
  · rintro rfl
    exact ⟨[], rfl, rfl⟩

/-- A place further on is the place itself, or one behind the next token. -/
theorem Cursor.precedes_cons {κ : Type} {offset : Nat} {t : Nat × κ} {rest : List (Nat × κ)}
    {d : Cursor κ} : Precedes ⟨offset, t :: rest⟩ d ↔
      d = ⟨offset, t :: rest⟩ ∨ Precedes ⟨offset + 1, rest⟩ d := by
  constructor
  · rintro ⟨skipped, hrest, hoffset⟩
    cases skipped with
    | nil =>
      obtain ⟨_, _⟩ := d
      obtain rfl : t :: rest = _ := hrest
      obtain rfl : _ = offset := hoffset
      exact .inl rfl
    | cons u skipped =>
      obtain ⟨rfl, hmore⟩ := List.cons.inj hrest
      exact .inr ⟨skipped, hmore, by rw [hoffset, List.length_cons, Nat.add_assoc, Nat.add_comm 1]⟩
  · rintro (rfl | ⟨skipped, hrest, hoffset⟩)
    · exact ⟨[], rfl, rfl⟩
    · refine ⟨t :: skipped, congrArg (t :: ·) hrest, ?_⟩
      rw [hoffset, List.length_cons, Nat.add_assoc, Nat.add_comm 1]

namespace Runner

variable {κ : Type} {a : Runner κ} {c mid next : Cursor κ} {ts us : List ParseTree}

/-- Does a run fail? -/
def Fails (a : Runner κ) (c : Cursor κ) : Prop := ∃ recovered fault, a c = .fail recovered fault

/-- Does a run go past some token whenever it succeeds? -/
def Progresses (a : Runner κ) : Prop :=
  ∀ c trees next, a.Succeeds c trees next → next.rest.length < c.rest.length

theorem Succeeds.not_fails (h : a.Succeeds c ts next) : ¬a.Fails c := by
  obtain ⟨recovered, beyond, h⟩ := h
  rintro ⟨recovered', fault, h'⟩
  rw [h] at h'
  cases h'

/-- What a run gives is settled by where it starts. -/
theorem Succeeds.unique (h : a.Succeeds c ts mid) (h' : a.Succeeds c us next) :
    us = ts ∧ next = mid := by
  obtain ⟨recovered, beyond, h⟩ := h
  obtain ⟨recovered', beyond', h'⟩ := h'
  rw [h] at h'
  simp only [Reply.ok.injEq] at h'
  exact ⟨h'.2.1.symm, h'.2.2.1.symm⟩

/-! ### Turns -/

theorem Turns.mono {R S : Cursor κ → List ParseTree → Cursor κ → Prop}
    (hRS : ∀ c ts next, R c ts next → S c ts next) (h : Turns R c ts next) : Turns S c ts next := by
  induction h with
  | nil c => exact .nil c
  | cons h _ ih => exact .cons (hRS _ _ _ h) ih

/-- **Turns up to where no more succeeds** begin with all turns that can be made from the same
place. -/
theorem Turns.split (h : Turns a.Succeeds c ts mid) (h' : Turns a.Succeeds c us next)
    (hnext : a.Fails next) : ∃ more, us = ts ++ more ∧ Turns a.Succeeds mid more next := by
  induction h generalizing us with
  | nil c => exact ⟨us, rfl, h'⟩
  | cons hone _ ih =>
    cases h' with
    | nil => exact absurd hnext hone.not_fails
    | cons hone' hmore =>
      obtain ⟨rfl, rfl⟩ := hone.unique hone'
      obtain ⟨more, rfl, hturns⟩ := ih hmore
      exact ⟨more, (List.append_assoc _ _ _).symm, hturns⟩

/-- Where the turns lead up to where no more succeeds is settled by where they start. -/
theorem Turns.unique (h : Turns a.Succeeds c ts mid) (hmid : a.Fails mid)
    (h' : Turns a.Succeeds c us next) (hnext : a.Fails next) : next = mid := by
  obtain ⟨more, -, hturns⟩ := h.split h' hnext
  cases hturns with
  | nil => rfl
  | cons hone _ => exact absurd hmid hone.not_fails

variable [DecidableEq κ]

theorem exists_turns_of_manyFrom (ha : a.Progresses) (fuel : Nat) :
    ∀ recovered gathered beyond, ∀ {c}, c.rest.length < fuel →
      ∃ recovered' trees next beyond',
        manyFrom a fuel 0 recovered gathered beyond c =
          .ok recovered' (gathered.reverse ++ trees) next beyond' ∧
        Turns a.Succeeds c trees next ∧ a.Fails next := by
  induction fuel with
  | zero => exact fun _ _ _ _ hlt => absurd hlt (Nat.not_lt_zero _)
  | succ fuel ih =>
    intro recovered gathered beyond c hlt
    rw [manyFrom]
    cases heq : a c with
    | ok recovered₁ trees₁ mid beyond₁ =>
      have hone : a.Succeeds c trees₁ mid := ⟨recovered₁, beyond₁, heq⟩
      have hless := ha _ _ _ hone
      obtain ⟨recovered', trees, next, beyond', hrun, hturns, hfails⟩ := ih
        (recovered ++ recovered₁) (trees₁.reverseAux gathered) (Fault.join? beyond beyond₁)
        (Nat.lt_of_lt_of_le hless (Nat.le_of_lt_succ hlt))
      refine ⟨recovered', trees₁ ++ trees, next, beyond', ?_, .cons hone hturns, hfails⟩
      simpa using hrun
    | fail recovered₁ fault =>
      exact ⟨recovered, [], c, _, by rw [List.append_nil]; rfl, .nil c, recovered₁, fault, heq⟩

/-- **A repetition ends**, with the trees of its turns, and it ends where the run fails. -/
theorem exists_turns_of_many (ha : a.Progresses) (c : Cursor κ) :
    ∃ recovered trees next beyond, many 0 a c = .ok recovered trees next beyond ∧
      Turns a.Succeeds c trees next ∧ a.Fails next := by
  simpa [many] using
    exists_turns_of_manyFrom ha (c.rest.length + 1) [] [] none (Nat.lt_succ_self _)

/-! ### Going on after faults -/

theorem fails_retryFrom {recovered : List (Fault κ)} {fault : Fault κ} (rest : List (Nat × κ))
    (offset : Nat) : (∃ recovered' fault', retryFrom [] a recovered fault offset rest =
        .fail recovered' fault') ↔ ∀ d, Cursor.Precedes ⟨offset, rest⟩ d → a.Fails d := by
  induction rest generalizing offset with
  | nil =>
    simp only [Cursor.precedes_nil, forall_eq]
    rw [retryFrom, Fails]
    cases a ⟨offset, []⟩ <;> simp
  | cons t rest ih =>
    simp only [Cursor.precedes_cons, forall_eq_or_imp, ← ih]
    rw [retryFrom, Fails]
    cases a ⟨offset, t :: rest⟩ <;> simp

/-- **A run that may skip any tokens fails** where the run itself fails from every place further
on. -/
theorem fails_retry : (retry [] a).Fails c ↔ ∀ d, c.Precedes d → a.Fails d := by
  obtain ⟨offset, rest⟩ := c
  rw [Fails, retry]
  cases rest with
  | nil =>
    cases heq : a ⟨offset, []⟩ with
    | ok _ _ _ _ => simp [Cursor.precedes_nil, Fails, heq]
    | fail recovered fault => exact fails_retryFrom [] offset
  | cons t rest =>
    cases heq : a ⟨offset, t :: rest⟩ with
    | ok _ _ _ _ => simp [Cursor.precedes_cons, Fails, heq]
    | fail recovered fault =>
      dsimp only
      rw [fails_retryFrom]
      simp [Cursor.precedes_cons, Fails, heq]

/-- A run that succeeds succeeds without skipping. -/
theorem Succeeds.retry (h : a.Succeeds c ts next) (stops : List κ) :
    (retry stops a).Succeeds c ts next := by
  obtain ⟨recovered, beyond, h⟩ := h
  exact ⟨recovered, beyond, by rw [Runner.retry, h]⟩

/-- What stands for skipped tokens stands for one at least. -/
theorem lt_of_skipTo {stops : List κ} {kind : NodeKind}
    (h : (skipTo stops kind a).Succeeds c ts next) :
    a.Succeeds c ts next ∨ next.rest.length < c.rest.length := by
  rcases h.of_skipTo with h | ⟨taken, hcut, hrest, -, -⟩
  · exact .inl h
  · have htaken := List.length_pos_iff.mpr hcut.ne_nil
    right
    rw [hrest, List.length_append]
    omega

end Runner

namespace Grammar

variable {κ ν : Type}

/-- Does a grammar go past some token whenever it succeeds, to judge by its parts? -/
def progresses : Grammar κ ν → Bool
  | token _ | tokenIn _ => true
  | seq a b => a.progresses || b.progresses
  | alt a b => a.progresses && b.progresses
  | node _ a | map _ a | unlessAt _ a | retry _ a | skipTo _ _ a => a.progresses
  | empty | opt _ | many _ _ | sepBy _ _ _ | ref _ => false

variable [DecidableEq κ] {P : NodeKind → Prop} {callee : ν → Runner κ}

/-- **A grammar goes past some token whenever it succeeds**, if its parts say so. -/
theorem progresses_run (hc : ∀ x, (callee x).Reads P) {g : Grammar κ ν} (hg : g.Orderly P)
    (hp : g.progresses = true) : (g.run callee).Progresses := by
  induction g with
  | token k | tokenIn p =>
    intro c trees next h
    obtain ⟨i, k, hrest, -⟩ := Runner.Succeeds.of_token h
    rw [hrest]
    exact Nat.lt_succ_self _
  | seq a b iha ihb =>
    intro c trees next h
    obtain ⟨ts, mid, us, ha, hb, -⟩ := Runner.Succeeds.of_seq h
    have hle {g : Grammar κ ν} (hg : g.Orderly P) {c d : Cursor κ} {ts : List ParseTree}
        (h : (g.run callee).Succeeds c ts d) : d.rest.length ≤ c.rest.length := by
      obtain ⟨used, hused⟩ := Runner.Reads.reaches (reads_run hc hg) h
      rw [hused.rest, List.length_append]
      exact Nat.le_add_left _ _
    have hfirst := hle hg.1 ha
    have hsecond := hle hg.2 hb
    rcases Bool.or_eq_true_iff.mp hp with hp | hp
    · have := iha hg.1 hp c ts mid ha
      omega
    · have := ihb hg.2 hp mid us next hb
      omega
  | alt a b iha ihb =>
    intro c trees next h
    obtain ⟨ha, hb⟩ := Bool.and_eq_true_iff.mp hp
    rcases Runner.Succeeds.of_alt h with h | h
    · exact iha hg.1 ha c trees next h
    · exact ihb hg.2 hb c trees next h
  | node kind a ih =>
    intro c trees next h
    obtain ⟨ts, -, h⟩ := Runner.Succeeds.of_map h
    exact ih hg.2 hp c ts next h
  | map f a ih =>
    intro c trees next h
    obtain ⟨ts, -, h⟩ := Runner.Succeeds.of_map h
    exact ih hg.2.2 hp c ts next h
  | unlessAt stops a ih =>
    intro c trees next h
    exact ih hg hp c trees next (Runner.Succeeds.of_unlessAt h)
  | retry stops a ih =>
    intro c trees next h
    obtain ⟨skipped, d, hrest, -, h⟩ := Runner.Succeeds.of_retry h
    have := ih hg hp d trees next h
    rw [hrest, List.length_append]
    omega
  | skipTo stops kind a ih =>
    intro c trees next h
    exact (Runner.lt_of_skipTo h).elim (ih hg.2 hp c trees next) id
  | empty | opt _ | many _ _ | sepBy _ _ _ | ref _ => exact absurd hp Bool.false_ne_true

end Grammar

end Verilog
