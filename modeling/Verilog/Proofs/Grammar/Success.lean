import Verilog.Grammar.Run

/-!
# How runs succeed

What a run that succeeds has done is said here once for each way to put runs together: which of its
parts have succeeded, from where to where, and what their trees have to do with those of the whole.
Faults play no part in it. A repetition has made turns one after the other (`Runner.Turns`), and a
turn of a separated list begins with a separator.

Whatever holds of all successes of a grammar follows from this by induction over the grammar, and
over the turns of its repetitions.
-/

namespace Verilog

namespace Runner

variable {κ : Type}

/-- **Does a run succeed**, from one place to another, with some trees? -/
def Succeeds (a : Runner κ) (c : Cursor κ) (trees : List ParseTree) (next : Cursor κ) : Prop :=
  ∃ recovered beyond, a c = .ok recovered trees next beyond

/-- Turns one after the other, with the trees of all of them. -/
inductive Turns (R : Cursor κ → List ParseTree → Cursor κ → Prop) :
    Cursor κ → List ParseTree → Cursor κ → Prop
  | nil (c : Cursor κ) : Turns R c [] c
  | cons {c mid next : Cursor κ} {ts us : List ParseTree} (h : R c ts mid)
    (hs : Turns R mid us next) : Turns R c (ts ++ us) next

/-- A turn of a separated list: a separator, and an item behind it. -/
def Separated (separator a : Runner κ) (c : Cursor κ) (trees : List ParseTree)
    (next : Cursor κ) : Prop :=
  ∃ ts mid, separator.Succeeds c ts mid ∧ a.Succeeds mid trees next

/-- **What is skipped up to some kinds of tokens**: a token at least, none of them of these kinds,
and one of these kinds stands behind them if any token does. -/
structure CutOff (stops : List κ) (taken rest : List (Nat × κ)) : Prop where
  ne_nil : taken ≠ []
  taken : ∀ t ∈ taken, t.2 ∉ stops
  rest : ∀ t ∈ rest.head?, t.2 ∈ stops

variable {a b separator : Runner κ} {c next : Cursor κ} {trees : List ParseTree}

/-! ### Single tokens and changed trees -/

theorem Succeeds.of_token {expected : List (Option κ)} {p : κ → Bool}
    (h : (token expected p).Succeeds c trees next) :
    ∃ i k, c.rest = (i, k) :: next.rest ∧ next.offset = c.offset + 1 ∧ trees = [.leaf i] ∧
      p k = true := by
  obtain ⟨recovered, beyond, h⟩ := h
  obtain ⟨offset, rest⟩ := c
  cases rest with
  | nil => simp [token] at h
  | cons t rest =>
    obtain ⟨i, k⟩ := t
    rw [token] at h
    split at h
    · simp only [Reply.ok.injEq] at h
      obtain ⟨-, rfl, rfl, -⟩ := h
      exact ⟨i, k, rfl, rfl, rfl, by assumption⟩
    · simp at h

theorem Succeeds.of_map {f : List ParseTree → List ParseTree}
    (h : (map f a).Succeeds c trees next) : ∃ ts, trees = f ts ∧ a.Succeeds c ts next := by
  obtain ⟨recovered, beyond, h⟩ := h
  rw [map] at h
  split at h
  · rename_i heq
    simp only [Reply.ok.injEq] at h
    obtain ⟨-, rfl, rfl, -⟩ := h
    exact ⟨_, rfl, _, _, heq⟩
  · simp at h

/-! ### Sequences and alternatives -/

theorem Succeeds.of_opt (h : (opt a).Succeeds c trees next) :
    a.Succeeds c trees next ∨ trees = [] ∧ next = c := by
  obtain ⟨recovered, beyond, h⟩ := h
  rw [opt] at h
  split at h
  · rename_i heq
    exact .inl ⟨_, _, heq.trans h⟩
  · simp only [Reply.ok.injEq] at h
    obtain ⟨-, rfl, rfl, -⟩ := h
    exact .inr ⟨rfl, rfl⟩

variable [DecidableEq κ]

theorem Succeeds.of_seq (h : (seq a b).Succeeds c trees next) :
    ∃ ts mid us, a.Succeeds c ts mid ∧ b.Succeeds mid us next ∧ trees = ts ++ us := by
  obtain ⟨recovered, beyond, h⟩ := h
  rw [seq] at h
  split at h
  · simp at h
  · rename_i heq
    split at h
    · simp at h
    · rename_i heq'
      simp only [Reply.ok.injEq] at h
      obtain ⟨-, rfl, rfl, -⟩ := h
      exact ⟨_, _, _, ⟨_, _, heq⟩, ⟨_, _, heq'⟩, rfl⟩

/-- What an alternative gives is what one of its sides gives. -/
theorem Succeeds.of_alt (h : (alt a b).Succeeds c trees next) :
    a.Succeeds c trees next ∨ b.Succeeds c trees next := by
  obtain ⟨recovered, beyond, h⟩ := h
  rw [alt] at h
  split at h
  · rename_i heq
    exact .inl ⟨_, _, heq.trans h⟩
  · split at h
    · rename_i heq
      exact .inr ⟨_, _, heq.trans h⟩
    · simp at h

/-! ### Repetitions -/

/-- What a repetition has gathered stays in front of what its further turns give. -/
theorem turns_of_manyFrom (fuel : Nat) :
    ∀ {pending recovered gathered beyond c recovered' trees next beyond'},
      manyFrom a fuel pending recovered gathered beyond c = .ok recovered' trees next beyond' →
      ∃ more, trees = gathered.reverse ++ more ∧ Turns a.Succeeds c more next := by
  induction fuel with
  | zero =>
    intro _ _ _ _ c _ _ _ _ h
    simp only [manyFrom, Reply.ok.injEq] at h
    obtain ⟨-, rfl, rfl, -⟩ := h
    exact ⟨[], by simp, .nil c⟩
  | succ fuel ih =>
    intro _ _ _ _ c _ _ _ _ h
    rw [manyFrom] at h
    split at h
    · rename_i heq
      obtain ⟨more, rfl, hmore⟩ := ih h
      exact ⟨_, by simp, .cons ⟨_, _, heq⟩ hmore⟩
    · split at h
      · simp only [Reply.ok.injEq] at h
        obtain ⟨-, rfl, rfl, -⟩ := h
        exact ⟨[], by simp, .nil c⟩
      · simp at h

theorem Succeeds.of_many {least : Nat} (h : (many least a).Succeeds c trees next) :
    Turns a.Succeeds c trees next := by
  obtain ⟨recovered, beyond, h⟩ := h
  obtain ⟨more, rfl, hmore⟩ := turns_of_manyFrom _ h
  simpa using hmore

/-- A repetition that may not be empty has made a first turn. -/
theorem Succeeds.first_of_many {least : Nat} (h : (many least a).Succeeds c trees next)
    (hl : least ≠ 0) : ∃ ts mid us, a.Succeeds c ts mid ∧ trees = ts ++ us := by
  obtain ⟨recovered, beyond, h⟩ := h
  rw [many, manyFrom] at h
  split at h
  · rename_i heq
    obtain ⟨more, rfl, -⟩ := turns_of_manyFrom _ h
    exact ⟨_, _, more, ⟨_, _, heq⟩, by simp⟩
  · rw [if_neg hl] at h
    cases h

theorem turns_of_sepByFrom (fuel : Nat) :
    ∀ {pending recovered gathered beyond c recovered' trees next beyond'},
      sepByFrom separator a fuel pending recovered gathered beyond c =
        .ok recovered' trees next beyond' →
      ∃ more, trees = gathered.reverse ++ more ∧ Turns (Separated separator a) c more next := by
  induction fuel with
  | zero =>
    intro _ _ _ _ c _ _ _ _ h
    simp only [sepByFrom, Reply.ok.injEq] at h
    obtain ⟨-, rfl, rfl, -⟩ := h
    exact ⟨[], by simp, .nil c⟩
  | succ fuel ih =>
    intro pending _ gathered _ c recovered' trees next beyond' h
    -- the list ends here if there is no separator, or no item behind it
    have hstop {recovered'' beyond'' fault}
        (h : (if pending = 0 then Reply.ok recovered'' gathered.reverse c beyond''
          else Reply.fail recovered'' fault) = .ok recovered' trees next beyond') :
        ∃ more, trees = gathered.reverse ++ more ∧
          Turns (Separated separator a) c more next := by
      split at h
      · simp only [Reply.ok.injEq] at h
        obtain ⟨-, rfl, rfl, -⟩ := h
        exact ⟨[], by simp, .nil c⟩
      · simp at h
    rw [sepByFrom] at h
    split at h
    · exact hstop h
    · rename_i heq
      split at h
      · exact hstop h
      · rename_i heq'
        obtain ⟨more, rfl, hmore⟩ := ih h
        exact ⟨_, by simp, .cons ⟨_, _, ⟨_, _, heq⟩, ⟨_, _, heq'⟩⟩ hmore⟩

theorem Succeeds.of_sepBy {least : Nat} (h : (sepBy least separator a).Succeeds c trees next) :
    trees = [] ∧ next = c ∨
      ∃ ts mid us, a.Succeeds c ts mid ∧ Turns (Separated separator a) mid us next ∧
        trees = ts ++ us := by
  obtain ⟨recovered, beyond, h⟩ := h
  rw [sepBy] at h
  split at h
  · split at h
    · simp only [Reply.ok.injEq] at h
      obtain ⟨-, rfl, rfl, -⟩ := h
      exact .inl ⟨rfl, rfl⟩
    · simp at h
  · rename_i heq
    obtain ⟨more, rfl, hmore⟩ := turns_of_sepByFrom _ h
    exact .inr ⟨_, _, more, ⟨_, _, heq⟩, hmore, by simp⟩

/-- A list that may not be empty has a first item. -/
theorem Succeeds.first_of_sepBy {least : Nat} (h : (sepBy least separator a).Succeeds c trees next)
    (hl : least ≠ 0) : ∃ ts mid us, a.Succeeds c ts mid ∧ trees = ts ++ us := by
  obtain ⟨recovered, beyond, h⟩ := h
  rw [sepBy] at h
  split at h
  · rw [if_neg hl] at h
    cases h
  · rename_i heq
    obtain ⟨more, rfl, -⟩ := turns_of_sepByFrom _ h
    exact ⟨_, _, more, ⟨_, _, heq⟩, by simp⟩

/-! ### Going on after a fault -/

theorem Succeeds.of_unlessAt {stops : List κ} (h : (unlessAt stops a).Succeeds c trees next) :
    a.Succeeds c trees next := by
  obtain ⟨recovered, beyond, h⟩ := h
  rw [unlessAt] at h
  split at h
  · simp at h
  · split at h
    · simp at h
    · exact ⟨_, _, h⟩

theorem succeeds_of_retryFrom {stops : List κ} {recovered : List (Fault κ)} {fault : Fault κ}
    (rest : List (Nat × κ)) : ∀ {offset recovered' trees next beyond},
      retryFrom stops a recovered fault offset rest = .ok recovered' trees next beyond →
      ∃ skipped d, rest = skipped ++ d.rest ∧ d.offset = offset + skipped.length ∧
        a.Succeeds d trees next := by
  induction rest with
  | nil =>
    intro offset _ _ _ _ h
    rw [retryFrom] at h
    split at h
    · rename_i heq
      simp only [Reply.ok.injEq] at h
      obtain ⟨-, rfl, rfl, -⟩ := h
      exact ⟨[], _, rfl, rfl, _, _, heq⟩
    · simp at h
  | cons t rest ih =>
    intro offset _ _ _ _ h
    rw [retryFrom] at h
    split at h
    · rename_i heq
      simp only [Reply.ok.injEq] at h
      obtain ⟨-, rfl, rfl, -⟩ := h
      exact ⟨[], _, rfl, rfl, _, _, heq⟩
    · split at h
      · simp at h
      · obtain ⟨skipped, d, rfl, hoffset, hd⟩ := ih h
        exact ⟨t :: skipped, d, rfl, by rw [hoffset, List.length_cons]; omega, hd⟩

/-- What gives its trees at last starts behind the tokens that were skipped. -/
theorem Succeeds.of_retry {stops : List κ} (h : (retry stops a).Succeeds c trees next) :
    ∃ skipped d, c.rest = skipped ++ d.rest ∧ d.offset = c.offset + skipped.length ∧
      a.Succeeds d trees next := by
  obtain ⟨recovered, beyond, h⟩ := h
  obtain ⟨offset, rest⟩ := c
  rw [retry] at h
  split at h
  · rename_i heq
    exact ⟨[], _, rfl, rfl, _, _, heq.trans h⟩
  · cases rest with
    | nil => exact succeeds_of_retryFrom _ h
    | cons t rest =>
      obtain ⟨skipped, d, rfl, hoffset, hd⟩ := succeeds_of_retryFrom _ h
      exact ⟨t :: skipped, d, rfl, by rw [hoffset, List.length_cons]; omega, hd⟩

theorem Succeeds.of_skipTo {stops : List κ} {kind : NodeKind}
    (h : (skipTo stops kind a).Succeeds c trees next) : a.Succeeds c trees next ∨
      ∃ taken, CutOff stops taken next.rest ∧ c.rest = taken ++ next.rest ∧
        next.offset = c.offset + taken.length ∧ trees = [skipped kind taken] := by
  obtain ⟨recovered, beyond, h⟩ := h
  rw [skipTo] at h
  split at h
  · rename_i heq
    exact .inl ⟨_, _, heq.trans h⟩
  · split at h
    · simp at h
    · rename_i hne
      simp only [Reply.ok.injEq] at h
      obtain ⟨-, rfl, rfl, -⟩ := h
      have hstart : (c.rest.takeWhile fun t => !stops.contains t.2) <+: c.rest :=
        List.takeWhile_prefix _
      have hcut := List.prefix_iff_eq_append.mp hstart
      refine .inr ⟨_, ⟨hne, fun t ht => ?_, fun t ht => ?_⟩, hcut.symm, rfl, rfl⟩
      · simpa using List.all_eq_true.mp List.all_takeWhile t ht
      · rw [List.append_cancel_left (hcut.trans List.takeWhile_append_dropWhile.symm)] at ht
        have hstop := List.head?_dropWhile_not (fun t : Nat × κ => !stops.contains t.2) c.rest
        rw [Option.mem_def.mp ht] at hstop
        simpa using hstop

end Runner

namespace Grammar

variable {κ ν : Type} [DecidableEq κ] {callee : ν → Runner κ} {c next : Cursor κ}
  {trees : List ParseTree}

theorem succeeds_empty (h : ((empty : Grammar κ ν).run callee).Succeeds c trees next) :
    trees = [] ∧ next = c := by
  obtain ⟨recovered, beyond, h⟩ := h
  simp only [run, Reply.ok.injEq] at h
  exact ⟨h.2.1.symm, h.2.2.1.symm⟩

/-- A list of tokens that has trees is run through to its end. -/
theorem succeeds_of_parse {rules : ν → Grammar κ ν} {g : Grammar κ ν} {tokens : List (Nat × κ)}
    (h : (parse rules g tokens).1 = some trees) :
    ∃ next, (g.run (runRef rules (tokens.length + 1))).Succeeds ⟨0, tokens⟩ trees next ∧
      next.rest = [] := by
  rw [parse] at h
  split at h
  · simp at h
  · rename_i heq
    split at h
    · rename_i hend
      obtain rfl := Option.some.inj h
      exact ⟨_, ⟨_, _, heq⟩, List.isEmpty_iff.mp hend⟩
    · simp at h

/-- What a choice gives is what one of its grammars gives. -/
theorem exists_of_choice : {as : List (Grammar κ ν)} →
    ((choice as).run callee).Succeeds c trees next →
      ∃ a ∈ as, (a.run callee).Succeeds c trees next
  | [], h => by
    obtain ⟨_, _, _, _, _, hk⟩ := Runner.Succeeds.of_token h
    exact absurd hk Bool.false_ne_true
  | [a], h => ⟨a, List.mem_singleton_self a, h⟩
  | a :: b :: as, h => by
    rcases Runner.Succeeds.of_alt h with h | h
    · exact ⟨a, List.mem_cons_self, h⟩
    · obtain ⟨x, hx, h⟩ := exists_of_choice h
      exact ⟨x, List.mem_cons_of_mem _ hx, h⟩

end Grammar

end Verilog
