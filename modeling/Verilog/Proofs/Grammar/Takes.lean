import Verilog.Grammar.Run

/-!
# What a run takes

Of tokens that are known to be well formed it can be shown forward what a grammar makes of them: it
takes some of them off the front, gives trees and recovers from no fault (`Runner.Takes`), or it
refuses them (`Runner.Refuses`). How many tokens have been taken before plays no part in either.

An ordered choice asks for both: the alternatives before the one that takes the tokens refuse them.
A repetition takes what its steps take, up to where the next step refuses (`Runner.Steps`).
-/

namespace Verilog

namespace Runner

variable {κ : Type} {a b separator : Runner κ} {s t u : List (Nat × κ)} {xs ys : List ParseTree}

/-- Does a run that starts before some tokens end before some others, with trees and no faults? -/
def Takes (a : Runner κ) (s t : List (Nat × κ)) (xs : List ParseTree) : Prop :=
  ∀ n, ∃ n' beyond, a ⟨n, s⟩ = .ok [] xs ⟨n', t⟩ beyond

/-- Does a run that starts before some tokens fail, without having recovered from another fault? -/
def Refuses (a : Runner κ) (s : List (Nat × κ)) : Prop := ∀ n, ∃ fault, a ⟨n, s⟩ = .fail [] fault

/-! ### Single tokens -/

theorem takes_token {expected : List (Option κ)} {p : κ → Bool} {k : κ} (i : Nat)
    (s : List (Nat × κ)) (hk : p k = true) :
    (token expected p).Takes ((i, k) :: s) s [.leaf i] :=
  fun n => ⟨n + 1, none, by rw [token, if_pos hk]⟩

theorem refuses_token {expected : List (Option κ)} {p : κ → Bool}
    (h : ∀ v ∈ s.head?, p v.2 = false) : (token expected p).Refuses s := by
  intro n
  cases s with
  | nil => exact ⟨_, rfl⟩
  | cons v s =>
    refine ⟨⟨n, expected⟩, ?_⟩
    rw [token, if_neg (by simp [h v rfl])]

/-! ### Options and changed trees -/

theorem Takes.opt (ha : a.Takes s t xs) : (opt a).Takes s t xs := by
  intro n
  obtain ⟨m, beyond, ha⟩ := ha n
  exact ⟨m, beyond, by simp only [Runner.opt, ha]⟩

theorem Refuses.opt (ha : a.Refuses s) : (opt a).Takes s s [] := by
  intro n
  obtain ⟨fault, ha⟩ := ha n
  exact ⟨n, some fault, by simp only [Runner.opt, ha]⟩

theorem Takes.map (ha : a.Takes s t xs) (f : List ParseTree → List ParseTree) :
    (map f a).Takes s t (f xs) := by
  intro n
  obtain ⟨m, beyond, ha⟩ := ha n
  exact ⟨m, beyond, by simp only [Runner.map, ha]⟩

theorem Refuses.map (ha : a.Refuses s) (f : List ParseTree → List ParseTree) :
    (map f a).Refuses s := by
  intro n
  obtain ⟨fault, ha⟩ := ha n
  exact ⟨fault, by simp only [Runner.map, ha]⟩

/-! ### Sequences and alternatives -/

variable [DecidableEq κ]

theorem Takes.seq (ha : a.Takes s t xs) (hb : b.Takes t u ys) : (seq a b).Takes s u (xs ++ ys) := by
  intro n
  obtain ⟨m, beyond, ha⟩ := ha n
  obtain ⟨k, beyond', hb⟩ := hb m
  exact ⟨k, Fault.join? beyond beyond', by simp only [Runner.seq, ha, hb, List.append_nil]⟩

theorem Refuses.seq (ha : a.Refuses s) (b : Runner κ) : (seq a b).Refuses s := by
  intro n
  obtain ⟨fault, ha⟩ := ha n
  exact ⟨fault, by simp only [Runner.seq, ha]⟩

theorem Takes.seqRefuses (ha : a.Takes s t xs) (hb : b.Refuses t) : (Runner.seq a b).Refuses s := by
  intro n
  obtain ⟨m, beyond, ha⟩ := ha n
  obtain ⟨fault, hb⟩ := hb m
  exact ⟨fault.joinWith beyond, by simp only [Runner.seq, ha, hb, List.append_nil]⟩

theorem Takes.alt (ha : a.Takes s t xs) (b : Runner κ) : (alt a b).Takes s t xs := by
  intro n
  obtain ⟨m, beyond, ha⟩ := ha n
  exact ⟨m, beyond, by simp only [Runner.alt, ha]⟩

theorem Refuses.altTakes (ha : a.Refuses s) (hb : b.Takes s t xs) :
    (Runner.alt a b).Takes s t xs := by
  intro n
  obtain ⟨fault, ha⟩ := ha n
  obtain ⟨m, beyond, hb⟩ := hb n
  exact ⟨m, beyond, by simp only [Runner.alt, ha, hb]⟩

theorem Refuses.alt (ha : a.Refuses s) (hb : b.Refuses s) : (alt a b).Refuses s := by
  intro n
  obtain ⟨fault, ha⟩ := ha n
  obtain ⟨fault', hb⟩ := hb n
  exact ⟨fault.join fault', by simp only [Runner.alt, ha, hb]⟩

/-! ### Going on after faults -/

theorem Takes.unlessAt {stops : List κ} (ha : a.Takes s t xs) (hne : s ≠ [])
    (h : ∀ v ∈ s.head?, v.2 ∉ stops) : (unlessAt stops a).Takes s t xs := by
  intro n
  obtain ⟨m, beyond, ha⟩ := ha n
  cases s with
  | nil => exact absurd rfl hne
  | cons v s =>
    exact ⟨m, beyond, by simp only [Runner.unlessAt, List.contains_iff_mem, if_neg (h v rfl), ha]⟩

theorem Refuses.unlessAt (ha : a.Refuses s) (stops : List κ) : (unlessAt stops a).Refuses s := by
  intro n
  obtain ⟨fault, ha⟩ := ha n
  cases s with
  | nil => exact ⟨_, rfl⟩
  | cons v s =>
    by_cases hv : v.2 ∈ stops
    · exact ⟨_, by simp only [Runner.unlessAt, List.contains_iff_mem, if_pos hv]; rfl⟩
    · exact ⟨fault, by simp only [Runner.unlessAt, List.contains_iff_mem, if_neg hv, ha]⟩

theorem refuses_unlessAt {stops : List κ} (a : Runner κ) (h : ∀ v ∈ s.head?, v.2 ∈ stops) :
    (unlessAt stops a).Refuses s := by
  intro n
  cases s with
  | nil => exact ⟨_, rfl⟩
  | cons v s =>
    exact ⟨_, by simp only [Runner.unlessAt, List.contains_iff_mem, if_pos (h v rfl)]; rfl⟩

theorem Takes.retry (ha : a.Takes s t xs) (stops : List κ) : (retry stops a).Takes s t xs := by
  intro n
  obtain ⟨m, beyond, ha⟩ := ha n
  exact ⟨m, beyond, by simp only [Runner.retry, ha]⟩

/-- At the end of the tokens there is nothing to skip. -/
theorem Refuses.retry (ha : a.Refuses []) (stops : List κ) : (retry stops a).Refuses [] := by
  intro n
  obtain ⟨fault, ha⟩ := ha n
  exact ⟨fault, by simp only [Runner.retry, retryFrom, ha]⟩

theorem Takes.skipTo (ha : a.Takes s t xs) (stops : List κ) (kind : NodeKind) :
    (skipTo stops kind a).Takes s t xs := by
  intro n
  obtain ⟨m, beyond, ha⟩ := ha n
  exact ⟨m, beyond, by simp only [Runner.skipTo, ha]⟩

/-! ### Repetitions -/

/-- Runs one after the other, each of which takes at least one token. -/
inductive Steps (a : Runner κ) : List (Nat × κ) → List (Nat × κ) → List ParseTree → Prop
  | nil (s : List (Nat × κ)) : Steps a s s []
  | cons {s t u : List (Nat × κ)} {xs ys : List ParseTree} (h : a.Takes s t xs)
    (hlt : t.length < s.length) (hs : Steps a t u ys) :
    Steps a s u (xs ++ ys)

omit [DecidableEq κ] in
theorem Steps.trans (h : a.Steps s t xs) (h' : a.Steps t u ys) : a.Steps s u (xs ++ ys) := by
  induction h with
  | nil => exact h'
  | cons h hlt _ ih =>
    rw [List.append_assoc]
    exact .cons h hlt (ih h')

theorem Steps.manyFrom (h : a.Steps s t xs) (ht : a.Refuses t) {fuel : Nat}
    (hfuel : s.length < fuel) (acc : List ParseTree) (beyond : Option (Fault κ)) (n : Nat) :
    ∃ n' beyond', manyFrom a fuel 0 [] acc beyond ⟨n, s⟩ =
      .ok [] (acc.reverse ++ xs) ⟨n', t⟩ beyond' := by
  induction h generalizing fuel acc beyond n with
  | nil s =>
    obtain ⟨fault, ht⟩ := ht n
    obtain ⟨fuel, rfl⟩ : ∃ k, fuel = k + 1 := ⟨fuel - 1, by omega⟩
    refine ⟨n, Fault.join? beyond (some fault), ?_⟩
    simp only [Runner.manyFrom, ht, if_true, List.append_nil]
    rfl
  | @cons s t u xs ys h hlt _ ih =>
    obtain ⟨m, beyond₁, h⟩ := h n
    obtain ⟨fuel, rfl⟩ : ∃ k, fuel = k + 1 := ⟨fuel - 1, by omega⟩
    obtain ⟨n', beyond', hrest⟩ := ih ht (Nat.lt_of_lt_of_le hlt (Nat.le_of_lt_succ hfuel))
      (xs.reverseAux acc) (Fault.join? beyond beyond₁) m
    refine ⟨n', beyond', ?_⟩
    have hacc : (xs.reverseAux acc).reverse = acc.reverse ++ xs := by simp
    rw [hacc, List.append_assoc] at hrest
    simp only [Runner.manyFrom, h, List.nil_append, Nat.zero_sub]
    exact hrest

/-- **A repetition** takes what its steps take, up to where the next one refuses. -/
theorem Steps.many (h : a.Steps s t xs) (ht : a.Refuses t) : (many 0 a).Takes s t xs :=
  fun n => h.manyFrom ht (Nat.lt_succ_self _) [] none n

theorem Refuses.many (ha : a.Refuses s) (least : Nat) : (many (least + 1) a).Refuses s := by
  intro n
  obtain ⟨fault, ha⟩ := ha n
  exact ⟨fault, by simp [Runner.many, Runner.manyFrom, ha]⟩

theorem Refuses.sepBy (ha : a.Refuses s) (separator : Runner κ) {least : Nat} (hleast : least ≠ 0) :
    (sepBy least separator a).Refuses s := by
  intro n
  obtain ⟨fault, ha⟩ := ha n
  exact ⟨fault, by simp only [Runner.sepBy, ha, if_neg hleast]⟩

/-- A separated list of one. -/
theorem Takes.sepBy (ha : a.Takes s t xs) (hs : separator.Refuses t) {least : Nat}
    (hleast : least ≤ 1) : (sepBy least separator a).Takes s t xs := by
  intro n
  obtain ⟨m, beyond, ha⟩ := ha n
  obtain ⟨fault, hs⟩ := hs m
  refine ⟨m, Fault.join? beyond (some fault), ?_⟩
  simp only [Runner.sepBy, ha, Runner.sepByFrom, hs, Nat.sub_eq_zero_of_le hleast, if_true,
    List.append_nil, List.reverse_reverse]

end Runner

namespace Grammar

open Runner

variable {κ ν : Type} [DecidableEq κ] {k : Option κ}

/-! ### The first token -/

mutual

/-- Does a grammar read nothing that begins with a token of a certain kind, or nothing at the end,
to judge by its parts? -/
def Refuses (k : Option κ) : Grammar κ ν → Bool
  | token k' => k != some k'
  | tokenIn p => !k.any p
  | seq a b => a.Refuses k || a.Idles k && b.Refuses k
  | alt a b => a.Refuses k && b.Refuses k
  | many least a | sepBy least _ a => least != 0 && a.Refuses k
  | node _ a | map _ a => a.Refuses k
  | unlessAt stops a => k.all stops.contains || a.Refuses k
  | empty | opt _ | ref _ | retry _ _ | skipTo _ _ _ => false

/-- Does a grammar leave such tokens as they are, but without fail? -/
def Idles (k : Option κ) : Grammar κ ν → Bool
  | empty => true
  | seq a b => a.Idles k && b.Idles k
  | opt a => a.Refuses k
  | many least a => least == 0 && a.Refuses k
  | node _ a | map _ a => a.Idles k
  | token _ | tokenIn _ | alt _ _ | sepBy _ _ _ | ref _ | unlessAt _ _ | retry _ _
  | skipTo _ _ _ => false

end

variable (callee : ν → Runner κ) {s : List (Nat × κ)}

omit [DecidableEq κ] in
theorem eq_head (hs : s.head?.map (·.2) = k) {v : Nat × κ} (hv : v ∈ s.head?) : k = some v.2 := by
  rw [← hs, Option.mem_def.mp hv]
  rfl

mutual

theorem refuses_run (hs : s.head?.map (·.2) = k) :
    (g : Grammar κ ν) → g.Refuses k = true → (g.run callee).Refuses s
  | empty, h | opt _, h | ref _, h | retry _ _, h | skipTo _ _ _, h => by
    simp [Refuses] at h
  | token k', h => refuses_token fun v hv => by simpa [Refuses, eq_head hs hv] using h
  | tokenIn p, h => refuses_token fun v hv => by simpa [Refuses, eq_head hs hv] using h
  | seq a b, h => by
    rw [Refuses, Bool.or_eq_true, Bool.and_eq_true] at h
    rcases h with h | ⟨hidle, h⟩
    · exact (refuses_run hs a h).seq _
    · obtain ⟨xs, ha⟩ := idles_run hs a hidle
      exact ha.seqRefuses (refuses_run hs b h)
  | alt a b, h => by
    rw [Refuses, Bool.and_eq_true] at h
    exact (refuses_run hs a h.1).alt (refuses_run hs b h.2)
  | many least a, h => by
    rw [Refuses, Bool.and_eq_true, bne_iff_ne] at h
    obtain ⟨least, rfl⟩ := Nat.exists_eq_succ_of_ne_zero h.1
    exact (refuses_run hs a h.2).many least
  | sepBy least separator a, h => by
    rw [Refuses, Bool.and_eq_true, bne_iff_ne] at h
    exact (refuses_run hs a h.2).sepBy _ h.1
  | node _ a, h | map _ a, h => (refuses_run hs a (by simpa [Refuses] using h)).map _
  | unlessAt stops a, h => by
    rw [Refuses, Bool.or_eq_true] at h
    rcases h with h | h
    · refine refuses_unlessAt _ fun v hv => ?_
      simpa [eq_head hs hv] using h
    · exact (refuses_run hs a h).unlessAt stops

theorem idles_run (hs : s.head?.map (·.2) = k) :
    (g : Grammar κ ν) → g.Idles k = true → ∃ xs, (g.run callee).Takes s s xs
  | token _, h | tokenIn _, h | alt _ _, h | sepBy _ _ _, h | ref _, h | unlessAt _ _, h
  | retry _ _, h | skipTo _ _ _, h => by
    simp [Idles] at h
  | empty, _ => ⟨[], fun n => ⟨n, none, rfl⟩⟩
  | seq a b, h => by
    rw [Idles, Bool.and_eq_true] at h
    obtain ⟨xs, ha⟩ := idles_run hs a h.1
    obtain ⟨ys, hb⟩ := idles_run hs b h.2
    exact ⟨xs ++ ys, ha.seq hb⟩
  | opt a, h => ⟨[], (refuses_run hs a (by simpa [Idles] using h)).opt⟩
  | many least a, h => by
    rw [Idles, Bool.and_eq_true, beq_iff_eq] at h
    obtain ⟨rfl, h⟩ := h
    exact ⟨[], (Steps.nil _).many (refuses_run hs a h)⟩
  | node _ a, h | map _ a, h => by
    obtain ⟨xs, ha⟩ := idles_run hs a (by simpa [Idles] using h)
    exact ⟨_, ha.map _⟩

end

/-- **An alternative is taken**, if those before it refuse the first token. -/
theorem takes_choice {gs : List (Grammar κ ν)} {g : Grammar κ ν} {t : List (Nat × κ)}
    {xs : List ParseTree} (hs : s.head?.map (·.2) = k) (n : Nat) (hn : gs[n]? = some g)
    (hfront : (gs.take n).all (Refuses k) = true) (hg : (g.run callee).Takes s t xs) :
    ((choice gs).run callee).Takes s t xs := by
  induction gs generalizing n with
  | nil => cases hn
  | cons a gs ih =>
    cases n with
    | zero =>
      obtain rfl := Option.some.inj hn
      cases gs with
      | nil => exact hg
      | cons b gs => exact hg.alt _
    | succ n =>
      rw [List.take_succ_cons, List.all_cons, Bool.and_eq_true] at hfront
      cases gs with
      | nil => cases hn
      | cons b gs => exact (refuses_run callee hs a hfront.1).altTakes (ih n hn hfront.2)

/-- **A whole list that is taken** is read as the trees it is taken as, without a fault. -/
theorem parse_of_takes {rules : ν → Grammar κ ν} {g : Grammar κ ν} {tokens : List (Nat × κ)}
    {xs : List ParseTree} (h : (g.run (runRef rules (tokens.length + 1))).Takes tokens [] xs) :
    parse rules g tokens = (some xs, []) := by
  obtain ⟨n, beyond, h⟩ := h 0
  simp [parse, h]

end Grammar

end Verilog
