import Mathlib.Data.Nat.Basic
import Mathlib.Order.Basic
import Verilog.Lexing.Lexicon

/-!
# The places of tokens

Tokens stand one behind the other: a token begins no earlier than those before it. Columns past the
last one that is shown are all shown alike, so it may begin at the same place as the one before.
-/

namespace Verilog

/-- Is a place, by line and column, no later than another? -/
def NoLater (a b : Nat × Nat) : Prop := a.1 < b.1 ∨ a.1 = b.1 ∧ a.2 ≤ b.2

namespace NoLater

variable {a b c : Nat × Nat}

theorem refl (a : Nat × Nat) : NoLater a a := .inr ⟨rfl, Nat.le_refl _⟩

theorem trans (h : NoLater a b) (h' : NoLater b c) : NoLater a c := by
  unfold NoLater at *
  omega

theorem total (a b : Nat × Nat) : NoLater a b ∨ NoLater b a := by
  unfold NoLater
  omega

end NoLater

/-- A position as it is shown. -/
def Position.shown (p : Position) : Nat × Nat := (p.line, clampColumn p.column)

namespace Position

theorem noLater_advance (p : Position) (c : Char) : NoLater p.shown (p.advance c).shown := by
  rw [advance]
  split
  · exact .inl (Nat.lt_succ_self _)
  · refine .inr ⟨rfl, ?_⟩
    simp only [shown, clampColumn]
    omega

theorem noLater_advanceBy (p : Position) (s : List Char) :
    NoLater p.shown (p.advanceBy s).shown := by
  induction s generalizing p with
  | nil => exact .refl _
  | cons c s ih => exact (noLater_advance p c).trans (ih _)

theorem line_advanceBy (p : Position) (s : List Char) :
    (p.advanceBy s).line = p.line + newlines s := by
  induction s generalizing p with
  | nil => rfl
  | cons c s ih =>
    rw [advanceBy_cons, ih, advance]
    by_cases hc : c = '\n'
    · rw [if_pos hc, newlines, newlines, hc, List.count_cons_self]
      exact Nat.add_right_comm _ _ _
    · rw [if_neg hc, newlines, newlines, List.count_cons_of_ne hc]

end Position

namespace Token

variable {κ : Type}

/-- Where a token begins. -/
def begins (t : Token κ) : Nat × Nat := (t.line, t.column)

/-- Where a token ends. -/
def ends (t : Token κ) : Nat × Nat := (t.endLine, t.endColumn)

theorem noLater_placeAll (p : Position) (pieces : List (κ × List Char)) :
    ∀ t ∈ placeAll p pieces, NoLater p.shown t.begins := by
  induction pieces generalizing p with
  | nil => simp [placeAll]
  | cons piece pieces ih =>
    intro t ht
    rcases List.mem_cons.mp ht with rfl | ht
    · exact .refl _
    · exact (p.noLater_advanceBy _).trans (ih _ t ht)

/-- **Tokens stand one behind the other.** -/
theorem pairwise_placeAll (p : Position) (pieces : List (κ × List Char)) :
    (placeAll p pieces).Pairwise fun t u => NoLater t.begins u.begins := by
  induction pieces generalizing p with
  | nil => exact .nil
  | cons piece pieces ih =>
    refine .cons (fun t ht => ?_) (ih _)
    exact (p.noLater_advanceBy _).trans (noLater_placeAll _ _ t ht)

/-- A token ends where the next one begins, so no later than any behind it. -/
theorem pairwise_ends_placeAll (p : Position) (pieces : List (κ × List Char)) :
    (placeAll p pieces).Pairwise fun t u => NoLater t.ends u.begins := by
  induction pieces generalizing p with
  | nil => exact .nil
  | cons piece pieces ih => exact .cons (noLater_placeAll (p.advanceBy piece.2) pieces) (ih _)

/-- The text of consecutive tokens. -/
def textOf (ts : List (Token κ)) : List Char := ts.flatMap fun t => t.text.toList

@[simp] theorem textOf_nil : textOf ([] : List (Token κ)) = [] := rfl

@[simp] theorem textOf_append (ts us : List (Token κ)) :
    textOf (ts ++ us) = textOf ts ++ textOf us := by
  simp [textOf]

@[simp] theorem textOf_cons (t : Token κ) (ts : List (Token κ)) :
    textOf (t :: ts) = t.text.toList ++ textOf ts := rfl

/-- **A token stands where the text before it ends.** -/
theorem eq_placed {p : Position} {pieces : List (κ × List Char)} {before after : List (Token κ)}
    {t : Token κ} (h : placeAll p pieces = before ++ t :: after) :
    t = placed (p.advanceBy (textOf before)) t.kind t.text.toList := by
  induction before generalizing p pieces with
  | nil =>
    cases pieces with
    | nil => simp [placeAll] at h
    | cons piece pieces =>
      rw [placeAll, List.nil_append] at h
      obtain ⟨rfl, -⟩ := List.cons.inj h
      simp [placed]
  | cons b before ih =>
    cases pieces with
    | nil => simp [placeAll] at h
    | cons piece pieces =>
      rw [placeAll, List.cons_append] at h
      obtain ⟨rfl, hrest⟩ := List.cons.inj h
      have htext : (placed p piece.1 piece.2).text.toList = piece.2 := String.toList_ofList
      rw [textOf_cons, Position.advanceBy_append, htext]
      exact ih hrest

end Token

theorem Lexicon.eq_placed {κ : Type} {lexicon : Lexicon κ} {s : String}
    {before after : List (Token κ)} {t : Token κ} (h : lexicon.tokens s = before ++ t :: after) :
    t = .placed (Position.start.advanceBy (Token.textOf before)) t.kind t.text.toList :=
  Token.eq_placed h

theorem Lexicon.pairwise_tokens {κ : Type} (lexicon : Lexicon κ) (s : String) :
    (lexicon.tokens s).Pairwise fun t u => NoLater t.begins u.begins :=
  Token.pairwise_placeAll _ _

/-- **No token begins later than another ends** that is not in front of it. -/
theorem Lexicon.noLater_tokens {κ : Type} {lexicon : Lexicon κ} {s : String} {i j : Nat}
    {t u : Token κ} (hij : i ≤ j) (ht : (lexicon.tokens s)[i]? = some t)
    (hu : (lexicon.tokens s)[j]? = some u) : NoLater t.begins u.ends := by
  obtain ⟨hi, rfl⟩ := List.getElem?_eq_some_iff.mp ht
  obtain ⟨hj, rfl⟩ := List.getElem?_eq_some_iff.mp hu
  have hbegins : NoLater (lexicon.tokens s)[i].begins (lexicon.tokens s)[j].begins := by
    rcases Nat.eq_or_lt_of_le hij with rfl | hlt
    · exact .refl _
    · exact List.pairwise_iff_getElem.mp (lexicon.pairwise_tokens s) i j hi hj hlt
  refine hbegins.trans ?_
  obtain ⟨before, after, hsplit⟩ := List.append_of_mem (List.getElem_mem hj)
  rw [eq_placed hsplit]
  exact Position.noLater_advanceBy _ _

/-- **No token ends later than another** that is not in front of it. -/
theorem Lexicon.noLater_ends {κ : Type} {lexicon : Lexicon κ} {s : String} {i j : Nat}
    {t u : Token κ} (hij : i ≤ j) (ht : (lexicon.tokens s)[i]? = some t)
    (hu : (lexicon.tokens s)[j]? = some u) : NoLater t.ends u.ends := by
  rcases Nat.eq_or_lt_of_le hij with rfl | hlt
  · obtain rfl : t = u := Option.some.inj (ht.symm.trans hu)
    exact .refl _
  · obtain ⟨hi, rfl⟩ := List.getElem?_eq_some_iff.mp ht
    obtain ⟨hj, rfl⟩ := List.getElem?_eq_some_iff.mp hu
    have hpair := Token.pairwise_ends_placeAll .start (lexicon.pieces s.toList.length s.toList)
    refine (List.pairwise_iff_getElem.mp hpair i j hi hj hlt).trans ?_
    exact noLater_tokens (Nat.le_refl j) hu hu

end Verilog
