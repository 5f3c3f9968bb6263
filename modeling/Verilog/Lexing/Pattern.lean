/-!
# Lexical patterns

What a token may look like is written down as data: a `Pattern` is an expression over characters
with ordered choice and greedy repetition, and `Pattern.split` cuts the text it matches off the
front of an input. A repetition never gives a character back, so a pattern matches an input in at
most one way.

The one law every use rests on is `Pattern.split_eq_append`: nothing is lost in the cut.
-/

namespace Verilog

/-- An expression for the texts a token may have. -/
inductive Pattern where
  /-- Exactly this text. -/
  | text (s : List Char)
  /-- One character of a class. -/
  | one (p : Char → Bool)
  /-- As many characters of a class as there are. -/
  | run (p : Char → Bool)
  /-- One pattern after the other. -/
  | seq (a b : Pattern)
  /-- The first pattern that matches. -/
  | alt (a b : Pattern)
  /-- The pattern, or nothing where it does not match. -/
  | opt (a : Pattern)
  /-- The pattern as often as it matches. -/
  | many (a : Pattern)
  /-- Everything up to and with the first occurrence of a text. -/
  | through (close : List Char)
  /-- Nothing, where the next character (`none` at the end) is as asked. -/
  | ahead (p : Option Char → Bool)

namespace Pattern

/-- The rest of the input after a text, if the input begins with it. -/
def stripFront : List Char → List Char → Option (List Char)
  | [], s => some s
  | _ :: _, [] => none
  | c :: cs, d :: s => if c = d then stripFront cs s else none

/-- What stands up to the end of the first occurrence of `close`, and the rest. -/
def splitThrough (close : List Char) : List Char → Option (List Char × List Char)
  | [] => if close.isEmpty then some ([], []) else none
  | c :: s =>
    match stripFront close (c :: s) with
    | some rest => some (close, rest)
    | none => (splitThrough close s).map fun r => (c :: r.1, r.2)

/-- Repeats a cut, at most `fuel` times, while it takes something. -/
def repeatSplit (f : List Char → Option (List Char × List Char)) :
    Nat → List Char → List Char × List Char
  | 0, s => ([], s)
  | fuel + 1, s =>
    match f s with
    | some (c :: cs, rest) =>
      let r := repeatSplit f fuel rest
      (c :: cs ++ r.1, r.2)
    | _ => ([], s)

/-- The text at the front of the input that the pattern matches, and the rest. -/
def split : Pattern → List Char → Option (List Char × List Char)
  | text t, s => (stripFront t s).map fun rest => (t, rest)
  | one p, s =>
    match s with
    | c :: rest => if p c then some ([c], rest) else none
    | [] => none
  | run p, s => some (s.takeWhile p, s.dropWhile p)
  | seq a b, s =>
    match a.split s with
    | some (x, rest) => (b.split rest).map fun r => (x ++ r.1, r.2)
    | none => none
  | alt a b, s =>
    match a.split s with
    | some r => some r
    | none => b.split s
  | opt a, s => some ((a.split s).getD ([], s))
  | many a, s => some (repeatSplit a.split s.length s)
  | through close, s => splitThrough close s
  | ahead p, s => if p s.head? then some ([], s) else none

/-- One or more characters of a class. -/
def run1 (p : Char → Bool) : Pattern := seq (one p) (run p)

/-- One character of a given list. -/
def among (cs : List Char) : Pattern := one cs.contains

/-! ### Nothing is lost -/

theorem stripFront_eq_some {t s rest : List Char} (h : stripFront t s = some rest) :
    s = t ++ rest := by
  induction t generalizing s with
  | nil => simpa [stripFront] using h
  | cons c cs ih =>
    cases s with
    | nil => simp [stripFront] at h
    | cons d s =>
      by_cases hcd : c = d
      · subst hcd
        simp only [stripFront, if_true] at h
        simp [ih h]
      · simp [stripFront, hcd] at h

theorem splitThrough_eq_append {close s x rest : List Char}
    (h : splitThrough close s = some (x, rest)) : s = x ++ rest := by
  induction s generalizing x rest with
  | nil =>
    by_cases hc : close.isEmpty <;> simp_all [splitThrough]
  | cons c s ih =>
    rw [splitThrough] at h
    cases hs : stripFront close (c :: s) with
    | some r =>
      simp only [hs, Option.some.injEq, Prod.mk.injEq] at h
      obtain ⟨rfl, rfl⟩ := h
      exact stripFront_eq_some hs
    | none =>
      simp only [hs, Option.map_eq_some_iff, Prod.mk.injEq] at h
      obtain ⟨⟨y, r⟩, hy, rfl, rfl⟩ := h
      simp [ih hy]

theorem repeatSplit_eq_append {f : List Char → Option (List Char × List Char)}
    (hf : ∀ s x rest, f s = some (x, rest) → s = x ++ rest) (fuel : Nat) (s : List Char) :
    s = (repeatSplit f fuel s).1 ++ (repeatSplit f fuel s).2 := by
  induction fuel generalizing s with
  | zero => rfl
  | succ fuel ih =>
    rw [repeatSplit]
    split
    · rename_i c cs rest h
      have := ih rest
      rw [hf _ _ _ h]
      simp only [List.cons_append, List.append_assoc, List.cons.injEq, true_and]
      rw [← this]
    · rfl

/-- **A match and what follows it make up the input.** -/
theorem split_eq_append {a : Pattern} {s x rest : List Char} (h : a.split s = some (x, rest)) :
    s = x ++ rest := by
  induction a generalizing s x rest with
  | text t =>
    simp only [split, Option.map_eq_some_iff, Prod.mk.injEq] at h
    obtain ⟨r, hr, rfl, rfl⟩ := h
    exact stripFront_eq_some hr
  | one p =>
    cases s with
    | nil => simp [split] at h
    | cons c s =>
      by_cases hp : p c
      · simp only [split, hp, if_true, Option.some.injEq, Prod.mk.injEq] at h
        obtain ⟨rfl, rfl⟩ := h
        rfl
      · simp [split, hp] at h
  | run p =>
    simp only [split, Option.some.injEq, Prod.mk.injEq] at h
    obtain ⟨rfl, rfl⟩ := h
    exact List.takeWhile_append_dropWhile.symm
  | seq a b iha ihb =>
    rw [split] at h
    cases ha : a.split s with
    | none => simp [ha] at h
    | some r =>
      simp only [ha, Option.map_eq_some_iff, Prod.mk.injEq] at h
      obtain ⟨⟨y, z⟩, hb, rfl, rfl⟩ := h
      rw [iha ha, ihb hb, List.append_assoc]
  | alt a b iha ihb =>
    rw [split] at h
    cases ha : a.split s with
    | none => exact ihb (by simpa [ha] using h)
    | some r => exact iha (by rw [ha]; simpa [ha] using h)
  | opt a ih =>
    rw [split] at h
    cases ha : a.split s with
    | none => simp_all
    | some r => exact ih (by rw [ha]; simpa [ha] using h)
  | many a ih =>
    simp only [split, Option.some.injEq] at h
    have := repeatSplit_eq_append (fun _ _ _ hs => ih hs) s.length s
    rw [h] at this
    exact this
  | through close => exact splitThrough_eq_append (by simpa [split] using h)
  | ahead p =>
    rw [split] at h
    by_cases hp : p s.head? <;> simp_all

/-- What stands behind a run is not of its class. -/
theorem head_of_split_run {p : Char → Bool} {s x rest : List Char}
    (h : (run p).split s = some (x, rest)) : ∀ c ∈ rest.head?, p c = false := by
  simp only [split, Option.some.injEq, Prod.mk.injEq] at h
  rw [← h.2]
  intro c hc
  have := List.head?_dropWhile_not p s
  rw [Option.mem_def.mp hc] at this
  simpa using this

end Pattern

end Verilog
