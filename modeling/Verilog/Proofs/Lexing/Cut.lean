import Mathlib.Data.List.TakeWhile
import Verilog.Lexing.Lexicon

/-!
# How a text is cut into tokens

The pieces a lexicon cuts off a text make up the text, whatever the lexicon. What a piece may hold
is read off the pattern that matched it: a pattern that names a character nowhere takes no text with
that character in it (`Pattern.Excludes`). Only `Pattern.through`, which takes whatever stands
before a closing text, can never be said to exclude a character.
-/

namespace Verilog

namespace Pattern

theorem stripFront_append (t s : List Char) : stripFront t (t ++ s) = some s := by
  induction t with
  | nil => rfl
  | cons c t ih => simpa [stripFront] using ih

/-! ### Characters a pattern cannot take -/

/-- Does a pattern take no text with a certain character in it, to judge by its parts? -/
def Excludes (c : Char) : Pattern → Bool
  | text s => !s.contains c
  | one p | run p => !p c
  | seq a b | alt a b => a.Excludes c && b.Excludes c
  | opt a | many a => a.Excludes c
  | through _ => false
  | ahead _ => true

variable {c : Char}

theorem not_mem_repeatSplit {f : List Char → Option (List Char × List Char)}
    (hf : ∀ s x rest, f s = some (x, rest) → c ∉ x) (fuel : Nat) (s : List Char) :
    c ∉ (repeatSplit f fuel s).1 := by
  induction fuel generalizing s with
  | zero => exact List.not_mem_nil
  | succ fuel ih =>
    rw [repeatSplit]
    split
    · rename_i d ds rest h
      intro hc
      rcases List.mem_append.mp hc with hc | hc
      · exact hf _ _ _ h hc
      · exact ih rest hc
    · exact List.not_mem_nil

/-- **A pattern that excludes a character does not take it.** -/
theorem not_mem_of_excludes {a : Pattern} (ha : a.Excludes c) {s x rest : List Char}
    (h : a.split s = some (x, rest)) : c ∉ x := by
  induction a generalizing s x rest with
  | text t =>
    simp only [split, Option.map_eq_some_iff, Prod.mk.injEq] at h
    obtain ⟨-, -, rfl, -⟩ := h
    simpa [Excludes] using ha
  | one p =>
    cases s with
    | nil => simp [split] at h
    | cons d s =>
      by_cases hp : p d
      · simp only [split, hp, if_true, Option.some.injEq, Prod.mk.injEq] at h
        obtain ⟨rfl, -⟩ := h
        intro hc
        obtain rfl : c = d := by simpa using hc
        simp [Excludes, hp] at ha
      · simp [split, hp] at h
  | run p =>
    simp only [split, Option.some.injEq, Prod.mk.injEq] at h
    obtain ⟨rfl, -⟩ := h
    intro hc
    have hp : p c := List.mem_takeWhile_imp hc
    simp [Excludes, hp] at ha
  | seq a b iha ihb =>
    obtain ⟨ha, hb⟩ : a.Excludes c = true ∧ b.Excludes c = true := by
      simpa [Excludes] using ha
    rw [split] at h
    split at h
    · rename_i hx
      simp only [Option.map_eq_some_iff, Prod.mk.injEq] at h
      obtain ⟨y, hy, rfl, -⟩ := h
      rw [List.mem_append, not_or]
      exact ⟨iha ha hx, ihb hb hy⟩
    · simp at h
  | alt a b iha ihb =>
    obtain ⟨ha, hb⟩ : a.Excludes c = true ∧ b.Excludes c = true := by
      simpa [Excludes] using ha
    rw [split] at h
    split at h
    · rename_i hx
      exact iha ha (hx.trans h)
    · exact ihb hb h
  | opt a ih =>
    rw [split] at h
    cases hx : a.split s with
    | none =>
      simp only [hx, Option.getD_none, Option.some.injEq, Prod.mk.injEq] at h
      simp [← h.1]
    | some y =>
      simp only [hx, Option.getD_some] at h
      exact ih ha (hx.trans h)
  | many a ih =>
    simp only [split, Option.some.injEq] at h
    have := not_mem_repeatSplit (c := c) (f := a.split) (fun _ _ _ hs => ih ha hs) s.length s
    rwa [h] at this
  | through close => simp [Excludes] at ha
  | ahead p =>
    rw [split] at h
    split at h
    · simp only [Option.some.injEq, Prod.mk.injEq] at h
      simp [← h.1]
    · simp at h

/-! ### What a match looks like -/

section

variable {a b : Pattern} {p : Char → Bool} {s x rest : List Char}

theorem eq_of_split_text {t : List Char} (h : (text t).split s = some (x, rest)) : x = t := by
  simp only [split, Option.map_eq_some_iff, Prod.mk.injEq] at h
  obtain ⟨-, -, rfl, -⟩ := h
  rfl

theorem exists_of_split_one (h : (one p).split s = some (x, rest)) : ∃ c, x = [c] ∧ p c = true := by
  cases s with
  | nil => cases h
  | cons c s =>
    simp only [split, Option.ite_none_right_eq_some, Option.some.injEq, Prod.mk.injEq] at h
    exact ⟨c, h.2.1.symm, h.1⟩

theorem forall_of_split_run (h : (run p).split s = some (x, rest)) : ∀ c ∈ x, p c = true := by
  simp only [split, Option.some.injEq, Prod.mk.injEq] at h
  exact h.1 ▸ fun _ => List.mem_takeWhile_imp

theorem exists_of_split_seq (h : (seq a b).split s = some (x, rest)) :
    ∃ y z mid, a.split s = some (y, mid) ∧ b.split mid = some (z, rest) ∧ x = y ++ z := by
  rw [split] at h
  cases ha : a.split s with
  | none => simp [ha] at h
  | some r =>
    simp only [ha, Option.map_eq_some_iff, Prod.mk.injEq] at h
    obtain ⟨⟨z, _⟩, hz, rfl, rfl⟩ := h
    exact ⟨_, z, _, rfl, hz, rfl⟩

/-- A run takes characters of its class, and some. -/
theorem forall_of_split_run1 (h : (run1 p).split s = some (x, rest)) :
    x ≠ [] ∧ ∀ c ∈ x, p c = true := by
  obtain ⟨y, z, mid, hone, hrun, rfl⟩ := exists_of_split_seq h
  obtain ⟨c, rfl, hc⟩ := exists_of_split_one hone
  exact ⟨List.cons_ne_nil _ _, List.forall_mem_cons.mpr ⟨hc, forall_of_split_run hrun⟩⟩

theorem eq_nil_or_of_split_opt (h : (opt a).split s = some (x, rest)) :
    x = [] ∨ a.split s = some (x, rest) := by
  rw [split, Option.some.injEq] at h
  cases ha : a.split s with
  | none =>
    rw [ha] at h
    exact .inl (Prod.mk.inj h).1.symm
  | some r =>
    rw [ha] at h
    exact .inr (congrArg some h)

end

end Pattern

namespace Lexicon

variable {κ : Type} {classes : List (Pattern × (List Char → κ))} {kind : κ}
  {s lexeme rest : List Char}

/-! ### The pieces of a text -/

/-- **The first match**: it takes at least one character off the front, and one of the classes says
of what kind that is. -/
theorem firstMatch_spec (h : firstMatch classes s = some (kind, lexeme, rest)) :
    s = lexeme ++ rest ∧ lexeme ≠ [] ∧
      ∃ cls ∈ classes, cls.1.split s = some (lexeme, rest) ∧ cls.2 lexeme = kind := by
  induction classes with
  | nil => simp [firstMatch] at h
  | cons cls classes ih =>
    obtain ⟨pattern, kindOf⟩ := cls
    rw [firstMatch] at h
    split at h
    · rename_i c lexeme' rest' hx
      simp only [Option.some.injEq, Prod.mk.injEq] at h
      obtain ⟨rfl, rfl, rfl⟩ := h
      exact ⟨Pattern.split_eq_append hx, by simp, _, List.mem_cons_self, hx, rfl⟩
    · obtain ⟨hs, hne, cls, hcls, hx⟩ := ih h
      exact ⟨hs, hne, cls, List.mem_cons_of_mem _ hcls, hx⟩

/-- What a piece is: text that a class takes, or a character that none takes. -/
theorem class_of_mem_pieces {lexicon : Lexicon κ} {fuel : Nat} {x : κ × List Char}
    (hx : x ∈ lexicon.pieces fuel s) :
    (x.1 = lexicon.other ∧ ∃ c, x.2 = [c]) ∨
      ∃ cls ∈ lexicon.classes, ∃ input rest, cls.1.split input = some (x.2, rest) ∧
        cls.2 x.2 = x.1 ∧ x.2 ≠ [] := by
  induction fuel generalizing s with
  | zero => simp [pieces] at hx
  | succ fuel ih =>
    cases s with
    | nil => simp [pieces] at hx
    | cons c s =>
      rw [pieces] at hx
      split at hx
      · rename_i kind lexeme rest h
        rcases List.mem_cons.mp hx with rfl | hx
        · obtain ⟨-, hne, cls, hcls, hsplit, hkind⟩ := firstMatch_spec h
          exact .inr ⟨cls, hcls, _, _, hsplit, hkind, hne⟩
        · exact ih hx
      · rcases List.mem_cons.mp hx with rfl | hx
        · exact .inl ⟨rfl, c, rfl⟩
        · exact ih hx

/-- **The pieces make up the text.** -/
theorem flatMap_pieces (lexicon : Lexicon κ) {fuel : Nat} (hs : s.length ≤ fuel) :
    (lexicon.pieces fuel s).flatMap (·.2) = s := by
  induction fuel generalizing s with
  | zero =>
    obtain rfl : s = [] := List.length_eq_zero_iff.mp (Nat.le_zero.mp hs)
    rfl
  | succ fuel ih =>
    cases s with
    | nil => rfl
    | cons c s =>
      rw [pieces]
      split
      · rename_i kind lexeme rest h
        obtain ⟨heq, hne, -⟩ := firstMatch_spec h
        have hlen : rest.length ≤ fuel := by
          have := congrArg List.length heq
          have := List.length_pos_iff.mpr hne
          simp only [List.length_cons, List.length_append] at *
          omega
        rw [List.flatMap_cons, ih hlen, heq]
      · have hlen : s.length ≤ fuel := by simpa using hs
        rw [List.flatMap_cons, ih hlen, List.singleton_append]

end Lexicon

namespace Token

variable {κ : Type}

theorem map_placeAll {β : Type} (f : κ → String → β) (p : Position)
    (pieces : List (κ × List Char)) :
    (placeAll p pieces).map (fun t => f t.kind t.text) =
      pieces.map fun x => f x.1 (String.ofList x.2) := by
  induction pieces generalizing p with
  | nil => rfl
  | cons x pieces ih => rw [placeAll, List.map_cons, List.map_cons, ih]; rfl

end Token

namespace Lexicon

variable {κ : Type}

/-- The kinds and texts of the tokens of a text are those of its pieces. -/
theorem map_tokens {β : Type} (lexicon : Lexicon κ) (f : κ → String → β) (s : String) :
    (lexicon.tokens s).map (fun t => f t.kind t.text) =
      (lexicon.pieces s.toList.length s.toList).map fun x => f x.1 (String.ofList x.2) :=
  Token.map_placeAll f _ _

/-- What a token is: text that a class takes, or a character that none takes. -/
theorem class_of_mem_tokens {lexicon : Lexicon κ} {s : String} {t : Token κ}
    (ht : t ∈ lexicon.tokens s) :
    (t.kind = lexicon.other ∧ ∃ c, t.text.toList = [c]) ∨
      ∃ cls ∈ lexicon.classes, ∃ input rest, cls.1.split input = some (t.text.toList, rest) ∧
        cls.2 t.text.toList = t.kind ∧ t.text.toList ≠ [] := by
  have hmap := lexicon.map_tokens (fun kind text => (kind, text.toList)) s
  have hmem : (t.kind, t.text.toList) ∈ lexicon.pieces s.toList.length s.toList := by
    have := List.mem_map_of_mem (f := fun t : Token κ => (t.kind, t.text.toList)) ht
    rw [hmap] at this
    simpa using this
  exact class_of_mem_pieces hmem

/-- **The texts of the tokens make up the text.** -/
theorem flatMap_tokens (lexicon : Lexicon κ) (s : String) :
    (lexicon.tokens s).flatMap (fun t => t.text.toList) = s.toList := by
  have := lexicon.map_tokens (fun _ text => text.toList) s
  rw [List.flatMap, this]
  simpa [List.flatMap] using lexicon.flatMap_pieces (s := s.toList) (Nat.le_refl _)

end Lexicon

/-!
## Cutting a text at its front

A text whose first token is known is cut there, and the rest by itself (`Lexicon.pieces_cons`), so
the tokens of a text can be computed from the left while its end is unknown.

Most classes of a lexicon are ruled out by the first character alone: a pattern refuses a character
if nothing it takes begins with it (`Pattern.Refuses`).
-/

namespace Pattern

/-! ### The first character -/

mutual

/-- Does a pattern match no text that begins with a certain character, to judge by its parts? -/
def Refuses (c : Char) : Pattern → Bool
  | text (d :: _) => d != c
  | one p => !p c
  | seq a b => a.Refuses c || a.Idles c && b.Refuses c
  | alt a b => a.Refuses c && b.Refuses c
  | text [] | run _ | opt _ | many _ | through _ | ahead _ => false

/-- Does a pattern match nothing of such a text, but without fail? -/
def Idles (c : Char) : Pattern → Bool
  | run p => !p c
  | opt a => a.Refuses c
  | seq a b => a.Idles c && b.Idles c
  | text _ | one _ | alt _ _ | many _ | through _ | ahead _ => false

end

variable {c : Char}

mutual

theorem split_of_refuses (s : List Char) : (a : Pattern) → a.Refuses c = true → a.split (c :: s) =
    none
  | text [], h | run _, h | opt _, h | many _, h | through _, h | ahead _, h => by
    simp [Refuses] at h
  | text (d :: t), h => by
    have hd : d ≠ c := by simpa [Refuses] using h
    simp [split, stripFront, hd]
  | one p, h => by
    have hp : p c = false := by simpa [Refuses] using h
    simp [split, hp]
  | seq a b, h => by
    rw [Refuses, Bool.or_eq_true, Bool.and_eq_true] at h
    rcases h with h | ⟨hidle, h⟩
    · rw [split, split_of_refuses s a h]
    · rw [split, split_of_idles s a hidle]
      simp [split_of_refuses s b h]
  | alt a b, h => by
    rw [Refuses, Bool.and_eq_true] at h
    rw [split, split_of_refuses s a h.1, split_of_refuses s b h.2]

theorem split_of_idles (s : List Char) :
    (a : Pattern) → a.Idles c = true → a.split (c :: s) = some ([], c :: s)
  | text _, h | one _, h | alt _ _, h | many _, h | through _, h | ahead _, h => by
    simp [Idles] at h
  | run p, h => by
    have hp : p c = false := by simpa [Idles] using h
    simp [split, hp]
  | opt a, h => by
    rw [split, split_of_refuses s a (by simpa [Idles] using h)]
    rfl
  | seq a b, h => by
    rw [Idles, Bool.and_eq_true] at h
    rw [split, split_of_idles s a h.1]
    simp [split_of_idles s b h.2]

end

/-- Characters of a class, and nothing of the class behind them. -/
theorem split_run {p : Char → Bool} {x rest : List Char} (hx : ∀ c ∈ x, p c = true)
    (hrest : ∀ c ∈ rest.head?, p c = false) : (run p).split (x ++ rest) = some (x, rest) := by
  have hnone : rest.takeWhile p = [] ∧ rest.dropWhile p = rest := by
    cases rest with
    | nil => exact ⟨rfl, rfl⟩
    | cons c rest => simp [hrest c rfl]
  rw [split, List.takeWhile_append_of_pos hx, List.dropWhile_append_of_pos hx, hnone.1, hnone.2,
    List.append_nil]

/-- A character, and then a pattern. -/
theorem split_one_seq {p : Char → Bool} {a : Pattern} {s x rest : List Char} (hc : p c = true)
    (ha : a.split s = some (x, rest)) :
    (seq (one p) a).split (c :: s) = some (c :: x, rest) := by
  simp [split, hc, ha]

end Pattern

namespace Lexicon

variable {κ : Type} {classes front : List (Pattern × (List Char → κ))} {kind : κ} {c : Char}
  {s lexeme rest : List Char}

/-- A class that matches decides, if those before it refuse the first character. -/
theorem firstMatch_of_refuses (hfront : ∀ cls ∈ front, cls.1.Refuses c = true) :
    firstMatch (front ++ classes) (c :: s) = firstMatch classes (c :: s) := by
  induction front with
  | nil => rfl
  | cons cls front ih =>
    obtain ⟨hcls, hfront⟩ := List.forall_mem_cons.mp hfront
    rw [List.cons_append, firstMatch, Pattern.split_of_refuses s cls.1 hcls]
    exact ih hfront

theorem firstMatch_cons_of_none {cls : Pattern × (List Char → κ)} (h : cls.1.split s = none) :
    firstMatch (cls :: classes) s = firstMatch classes s := by
  rw [firstMatch, h]

theorem firstMatch_cons {pattern : Pattern} {kindOf : List Char → κ}
    (h : pattern.split s = some (c :: lexeme, rest)) :
    firstMatch ((pattern, kindOf) :: classes) s = some (kindOf (c :: lexeme), c :: lexeme,
    rest) := by
  rw [firstMatch, h]

/-! ### The pieces of a text from the left -/

variable {lexicon : Lexicon κ}

/-- What is left behind the first match is shorter. -/
theorem length_rest_lt (h : firstMatch classes s = some (kind, lexeme, rest)) :
    rest.length < s.length := by
  obtain ⟨rfl, hne, -⟩ := firstMatch_spec h
  have := List.length_pos_iff.mpr hne
  rw [List.length_append]
  omega

/-- It does not matter how many pieces may be cut off, if it is one for each character. -/
theorem pieces_congr {fuel fuel' : Nat} (h : s.length ≤ fuel) (h' : s.length ≤ fuel') :
    lexicon.pieces fuel s = lexicon.pieces fuel' s := by
  induction fuel generalizing fuel' s with
  | zero =>
    obtain rfl : s = [] := List.length_eq_zero_iff.mp (Nat.le_zero.mp h)
    cases fuel' <;> rfl
  | succ fuel ih =>
    cases s with
    | nil => cases fuel' <;> rfl
    | cons c s =>
      cases fuel' with
      | zero => cases h'
      | succ fuel' =>
        have hs : s.length ≤ fuel := Nat.le_of_succ_le_succ h
        have hs' : s.length ≤ fuel' := Nat.le_of_succ_le_succ h'
        rw [pieces, pieces]
        cases hm : firstMatch lexicon.classes (c :: s) with
        | none => simp only [ih hs hs']
        | some m =>
          have hlen := Nat.le_of_lt_succ (length_rest_lt hm)
          simp only [ih (hlen.trans hs) (hlen.trans hs')]

/-- **The first token is cut off**, and the rest by itself. -/
theorem pieces_cons (h : firstMatch lexicon.classes s = some (kind, lexeme, rest)) :
    lexicon.pieces s.length s = (kind, lexeme) :: lexicon.pieces rest.length rest := by
  have hlen := length_rest_lt h
  cases s with
  | nil => cases hlen
  | cons c s =>
    rw [List.length_cons, pieces, h]
    simp only [pieces_congr (Nat.le_of_lt_succ hlen) (Nat.le_refl _)]

end Lexicon

end Verilog
