import Verilog.Proofs.Lexing.Cut

/-!
# Reading up to a character

To many patterns a certain character is no other than the end of the input: they take as much of a
text before the character as they would take of that text by itself (`Pattern.EndsAt`, judged by the
parts of a pattern). A repetition that does take the character goes past it, or ends before it with
the same match as without it (`Pattern.Borders`).

So a text is cut before the character just as it is cut by itself, unless some token goes past the
character (`Lexicon.firstMatch_border`).
-/

namespace Verilog

namespace Pattern

variable {c : Char} {a b : Pattern} {s x rest : List Char}

/-! ### Patterns that stop at a character -/

/-- Is a character to a pattern as the end of the input, to judge by the parts of the pattern? -/
def EndsAt (c : Char) : Pattern → Bool
  | text s => !s.contains c
  | one p | run p => !p c
  | seq a b | alt a b => a.EndsAt c && b.EndsAt c
  | opt a => a.EndsAt c
  | many _ | through _ => false
  | ahead p => p none == p (some c)

theorem stripFront_append_cons {t : List Char} (ht : c ∉ t) (u rest : List Char) :
    stripFront t (u ++ c :: rest) = (stripFront t u).map (· ++ c :: rest) := by
  induction t generalizing u with
  | nil => rfl
  | cons d t ih =>
    rw [List.mem_cons, not_or] at ht
    cases u with
    | nil => simp [stripFront, Ne.symm ht.1]
    | cons e u =>
      by_cases hde : d = e
      · simp [stripFront, hde, ih ht.2]
      · simp [stripFront, hde]

/-- A match of a text, with more text behind what is left. -/
def behind (more : List Char) (m : List Char × List Char) : List Char × List Char :=
  (m.1, m.2 ++ more)

/-- **A pattern that stops at a character** takes of a text before it what it takes of the text by
itself. -/
theorem split_of_endsAt (ha : a.EndsAt c = true) (u rest : List Char) :
    a.split (u ++ c :: rest) = (a.split u).map (behind (c :: rest)) := by
  induction a generalizing u with
  | text t =>
    have ht : c ∉ t := by simpa [EndsAt] using ha
    simp [split, stripFront_append_cons ht, Option.map_map, Function.comp_def, behind]
  | one p =>
    have hp : p c = false := by simpa [EndsAt] using ha
    cases u with
    | nil => simp [split, hp]
    | cons d u => by_cases hd : p d <;> simp [split, hd, behind]
  | run p =>
    have hp : p c = false := by simpa [EndsAt] using ha
    have htake : (u ++ c :: rest).takeWhile p = u.takeWhile p := by
      induction u <;> simp_all [List.takeWhile_cons]
    have hdrop : (u ++ c :: rest).dropWhile p = u.dropWhile p ++ c :: rest := by
      induction u with
      | nil => simp [hp]
      | cons d u ih => by_cases hd : p d <;> simp_all
    simp [split, htake, hdrop, behind]
  | seq a b iha ihb =>
    rw [EndsAt, Bool.and_eq_true] at ha
    rw [split, split, iha ha.1]
    cases a.split u with
    | none => rfl
    | some m => simp [behind, ihb ha.2, Option.map_map, Function.comp_def]
  | alt a b iha ihb =>
    rw [EndsAt, Bool.and_eq_true] at ha
    rw [split, split, iha ha.1]
    cases a.split u with
    | none => simp [ihb ha.2]
    | some m => rfl
  | opt a ih =>
    rw [split, split, ih ha]
    cases a.split u <;> simp [behind]
  | many a => simp [EndsAt] at ha
  | through close => simp [EndsAt] at ha
  | ahead p =>
    have hp : p none = p (some c) := by simpa [EndsAt] using ha
    cases u with
    | nil => by_cases h : p (some c) <;> simp [split, hp, h, behind]
    | cons d u => by_cases h : p (some d) <;> simp [split, h, behind]

/-! ### Patterns that stop at a character or go past it -/

/-- In a text with a character behind some front, a pattern goes past the character, or takes of the
front what it takes of it by itself. -/
def BordersAt (c : Char) (u rest : List Char) (a : Pattern) : Prop :=
  (∃ x r, a.split (u ++ c :: rest) = some (x, r) ∧ c ∈ x) ∨
    a.split (u ++ c :: rest) = (a.split u).map (behind (c :: rest))

/-- A pattern goes past a character, or takes of the text before it what it takes of that text by
itself. -/
def Borders (c : Char) (a : Pattern) : Prop := ∀ u rest, c ∉ u → a.BordersAt c u rest

theorem borders_of_endsAt (ha : a.EndsAt c = true) : a.Borders c :=
  fun u rest _ => .inr (split_of_endsAt ha u rest)

theorem borders_run (p : Char → Bool) : (run p).Borders c := by
  intro u rest hu
  by_cases hall : p c = true ∧ ∀ d ∈ u, p d = true
  · refine .inl ⟨_, _, rfl, ?_⟩
    rw [List.takeWhile_append_of_pos hall.2, List.takeWhile_cons_of_pos hall.1]
    simp
  · -- the run ends before the character, or the character is not in its class
    refine .inr ?_
    induction u with
    | nil => simp_all [split, behind]
    | cons d u ih =>
      by_cases hd : p d
      · have := ih (fun h => hu (List.mem_cons_of_mem _ h)) (by simpa [hd] using hall)
        simpa [split, behind, hd] using this
      · simp [split, behind, hd]

theorem borders_one (p : Char → Bool) : (one p).Borders c := by
  intro u rest hu
  cases u with
  | nil =>
    by_cases hc : p c
    · exact .inl ⟨[c], rest, by simp [split, hc], by simp⟩
    · exact .inr (by simp [split, hc])
  | cons d u => exact .inr (by by_cases hd : p d <;> simp [split, hd, behind])

/-- Where the first of two patterns stays before the character, the second decides. -/
theorem bordersAt_seq {u rest : List Char} (hu : c ∉ u)
    (ha : a.split (u ++ c :: rest) = (a.split u).map (behind (c :: rest))) (hb : b.Borders c) :
    (seq a b).BordersAt c u rest := by
  rw [BordersAt, split, split, ha]
  cases hx : a.split u with
  | none => exact .inr rfl
  | some m =>
    obtain ⟨x, u'⟩ := m
    have hu' : c ∉ u' := fun h => hu (by rw [split_eq_append hx]; simp [h])
    rcases hb u' rest hu' with ⟨y, r, hy, hc⟩ | hy
    · exact .inl ⟨x ++ y, r, by simp [behind, hy], by simp [hc]⟩
    · exact .inr (by simp [behind, hy, Option.map_map, Function.comp_def])

/-- A pattern that stops at the character may stand before one that goes past it. -/
theorem Borders.seq_of_endsAt (ha : a.EndsAt c = true) (hb : b.Borders c) : (seq a b).Borders c :=
  fun u rest hu => bordersAt_seq hu (split_of_endsAt ha u rest) hb

/-- Behind any pattern there may be a run, which always matches. -/
theorem Borders.seq_run (ha : a.Borders c) (p : Char → Bool) : (seq a (run p)).Borders c := by
  intro u rest hu
  rcases ha u rest hu with ⟨x, r, hx, hc⟩ | hx
  · exact .inl ⟨_, _, by rw [split, hx]; rfl, by simp [hc]⟩
  · exact bordersAt_seq hu hx (borders_run p)

theorem borders_run1 (p : Char → Bool) : (run1 p).Borders c := (borders_one p).seq_run p

theorem borders_through {close : List Char} (hne : close ≠ []) (hc : c ∉ close) :
    (through close).Borders c := by
  intro u rest hu
  obtain ⟨d, close, rfl⟩ := List.exists_cons_of_ne_nil hne
  have hd : d ≠ c := fun h => hc (by simp [h])
  have hlast : splitThrough (d :: close) [] = none := by simp [splitThrough]
  rw [BordersAt, split, split]
  induction u with
  | nil =>
    rw [hlast, List.nil_append, splitThrough, stripFront, if_neg hd]
    cases splitThrough (d :: close) rest with
    | none => exact .inr rfl
    | some m => exact .inl ⟨c :: m.1, m.2, rfl, by simp⟩
  | cons e u ih =>
    rw [List.cons_append, splitThrough, splitThrough, ← List.cons_append,
      stripFront_append_cons hc]
    cases stripFront (d :: close) (e :: u) with
    | some r => exact .inr rfl
    | none =>
      rcases ih (fun h => hu (List.mem_cons_of_mem _ h)) with ⟨x, r, hx, hcx⟩ | hx
      · exact .inl ⟨e :: x, r, by simp [hx], by simp [hcx]⟩
      · exact .inr (by simp [hx, Option.map_map, Function.comp_def, behind])

/-! ### Repetition -/

section Repetition

variable {f : List Char → Option (List Char × List Char)}
  (hf : ∀ s x rest, f s = some (x, rest) → s = x ++ rest)

include hf

theorem repeatSplit_nil (fuel : Nat) : repeatSplit f fuel [] = ([], []) := by
  cases fuel with
  | zero => rfl
  | succ fuel =>
    rw [repeatSplit]
    split
    · rename_i h
      cases hf _ _ _ h
    · rfl

/-- It does not matter how often a cut may be repeated, if it is once for each character. -/
theorem repeatSplit_congr {fuel fuel' : Nat} (h : s.length ≤ fuel) (h' : s.length ≤ fuel') :
    repeatSplit f fuel s = repeatSplit f fuel' s := by
  induction fuel generalizing fuel' s with
  | zero =>
    obtain rfl : s = [] := List.length_eq_zero_iff.mp (Nat.le_zero.mp h)
    rw [repeatSplit_nil hf, repeatSplit_nil hf]
  | succ fuel ih =>
    cases fuel' with
    | zero =>
      obtain rfl : s = [] := List.length_eq_zero_iff.mp (Nat.le_zero.mp h')
      rw [repeatSplit_nil hf, repeatSplit_nil hf]
    | succ fuel' =>
      rw [repeatSplit, repeatSplit]
      split
      · rename_i d x rest hs
        have hlen := congrArg List.length (hf _ _ _ hs)
        simp only [List.cons_append, List.length_cons, List.length_append] at hlen
        rw [ih (by omega : rest.length ≤ fuel) (by omega : rest.length ≤ fuel')]
      · rfl

end Repetition

/-- A repetition takes what its pattern takes, and goes on behind it. -/
theorem split_many_of_split {d : Char} (h : a.split s = some (d :: x, rest)) :
    (many a).split s = ((many a).split rest).map fun m => (d :: x ++ m.1, m.2) := by
  have hlen : s.length = x.length + rest.length + 1 := by
    simp [split_eq_append h]
  have hrest : repeatSplit a.split (x.length + rest.length) rest =
      repeatSplit a.split rest.length rest :=
    repeatSplit_congr (fun _ _ _ => split_eq_append) (Nat.le_add_left _ _) (Nat.le_refl _)
  simp only [split, hlen, repeatSplit, h, hrest, Option.map_some]

/-- A repetition takes nothing where its pattern does not match. -/
theorem split_many_of_none (h : a.split s = none) : (many a).split s = some ([], s) := by
  rw [split]
  cases s with
  | nil => rfl
  | cons d s => rw [List.length_cons, repeatSplit, h]

theorem split_many_seq_of_split {d : Char} (h : a.split s = some (d :: x, rest)) :
    (seq (many a) b).split s =
      ((seq (many a) b).split rest).map fun m => (d :: x ++ m.1, m.2) := by
  rw [split, split, split_many_of_split h]
  cases (many a).split rest with
  | none => rfl
  | some m => simp [Option.map_map, Function.comp_def]

theorem split_many_seq_of_none (h : a.split s = none) :
    (seq (many a) b).split s = b.split s := by
  rw [split, split_many_of_none h]
  simp

section Turns

variable {u u' : List Char} {d : Char}

/-- A repetition may go past the character in one turn, if without the character nothing matches. -/
theorem bordersAt_many_seq_of_past {r : List Char}
    (h : a.split (u ++ c :: rest) = some (d :: x, r)) (hc : c ∈ d :: x)
    (hnone : (seq (many a) b).split u = none) : (seq (many a) b).BordersAt c u rest := by
  rw [BordersAt, split_many_seq_of_split h, hnone]
  cases (seq (many a) b).split r with
  | none => exact .inr rfl
  | some m => exact .inl ⟨_, _, rfl, List.mem_append_left _ hc⟩

/-- A turn may as well stay before the character, and then the turns behind it decide. -/
theorem bordersAt_many_seq_of_step
    (h : a.split (u ++ c :: rest) = some (d :: x, u' ++ c :: rest))
    (h' : a.split u = some (d :: x, u')) (hu' : (seq (many a) b).BordersAt c u' rest) :
    (seq (many a) b).BordersAt c u rest := by
  rw [BordersAt, split_many_seq_of_split h, split_many_seq_of_split h']
  rcases hu' with ⟨y, r, hy, hc⟩ | hy
  · exact .inl ⟨_, r, by rw [hy]; rfl, List.mem_append_right _ hc⟩
  · exact .inr (by simp [hy, Option.map_map, Function.comp_def, behind])

/-- Behind the last turn the pattern behind the repetition decides. -/
theorem bordersAt_many_seq_of_none (h : a.split (u ++ c :: rest) = none) (h' : a.split u = none)
    (hb : b.BordersAt c u rest) : (seq (many a) b).BordersAt c u rest := by
  rwa [BordersAt, split_many_seq_of_none h, split_many_seq_of_none h']

end Turns

end Pattern

namespace Lexicon

open Pattern

variable {κ : Type} {lexicon : Lexicon κ} {c : Char}

/-- A character that no class takes is cut off by itself. -/
theorem pieces_cons_of_none {s : List Char} (h : firstMatch lexicon.classes (c :: s) = none) :
    lexicon.pieces (c :: s).length (c :: s) =
      (lexicon.other, [c]) :: lexicon.pieces s.length s := by
  rw [List.length_cons, pieces, h]

/-- **The first token of a text before a character** goes past the character, or is the first token
of the text by itself. -/
theorem firstMatch_border {classes : List (Pattern × (List Char → κ))} {u : List Char}
    (rest : List Char)
    (h : ∀ cls ∈ classes, cls.1.BordersAt c u rest) :
    (∃ kind x r, firstMatch classes (u ++ c :: rest) = some (kind, x, r) ∧ c ∈ x) ∨
      firstMatch classes (u ++ c :: rest) =
        (firstMatch classes u).map fun m => (m.1, m.2.1, m.2.2 ++ c :: rest) := by
  induction classes with
  | nil => exact .inr rfl
  | cons cls classes ih =>
    obtain ⟨pattern, kind⟩ := cls
    obtain ⟨hcls, hclasses⟩ := List.forall_mem_cons.mp h
    rw [firstMatch, firstMatch]
    rcases hcls with ⟨x, r, hx, hc⟩ | hx
    · obtain ⟨d, x, rfl⟩ := List.exists_cons_of_ne_nil (List.ne_nil_of_mem hc)
      exact .inl ⟨kind (d :: x), d :: x, r, by simp only [hx], hc⟩
    · simp only [hx]
      rcases pattern.split u with _ | ⟨_ | ⟨_, _⟩, _⟩
      · exact ih hclasses
      · exact ih hclasses
      · exact .inr rfl

end Lexicon

end Verilog
