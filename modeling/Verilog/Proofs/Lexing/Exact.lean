import Mathlib.Data.List.Induction
import Verilog.Directive.Lexicon
import Verilog.Proofs.Lexing.Cut
import Verilog.Proofs.Lexing.Place

/-!
# Nothing of a text is skipped

The classes of a lexicon are an ordered choice: the first that matches decides, and any character is
taken where none does. Tokens read in this way, one after the other, might be of no characters, and
there would be no end of them; or the choice might fail with a rest of the text left, and the text
could only be kept as one token that nobody looks into.

Neither happens with the two lexicons there are. A pattern that must take a character somewhere
among its parts (`Pattern.Consumes`) never matches the empty text, and every class of theirs is such
a pattern. So the choice reads a text to its end (`Lexicon.reads_iff`), the tokens are what it
reads, and each stands where the text before it ends (`Lexicon.Exact`).
-/

namespace Verilog

/-! ### Patterns that take something -/

namespace Pattern

/-- Does a pattern take a character wherever it matches, to judge by its parts? -/
def Consumes : Pattern → Bool
  | text s | through s => !s.isEmpty
  | one _ => true
  | seq a b => a.Consumes || b.Consumes
  | alt a b => a.Consumes && b.Consumes
  | run _ | opt _ | many _ | ahead _ => false

variable {s x rest : List Char}

theorem ne_nil_of_splitThrough {close : List Char} (hclose : close ≠ [])
    (h : splitThrough close s = some (x, rest)) : x ≠ [] := by
  cases s with
  | nil => simp [splitThrough, hclose] at h
  | cons c s =>
    rw [splitThrough] at h
    cases hfront : stripFront close (c :: s) with
    | some r =>
      simp only [hfront, Option.some.injEq, Prod.mk.injEq] at h
      exact h.1 ▸ hclose
    | none =>
      simp only [hfront, Option.map_eq_some_iff, Prod.mk.injEq] at h
      obtain ⟨-, -, rfl, -⟩ := h
      exact List.cons_ne_nil _ _

/-- **A pattern that consumes never matches the empty text.** -/
theorem ne_nil_of_consumes {a : Pattern} (ha : a.Consumes = true)
    (h : a.split s = some (x, rest)) : x ≠ [] := by
  induction a generalizing s x rest with
  | run p | opt a | many a | ahead p => cases ha
  | text t =>
    simp only [split, Option.map_eq_some_iff, Prod.mk.injEq] at h
    obtain ⟨-, -, rfl, -⟩ := h
    simpa [Consumes] using ha
  | one p =>
    cases s with
    | nil => cases h
    | cons c s =>
      simp only [split, Option.ite_none_right_eq_some, Option.some.injEq, Prod.mk.injEq] at h
      exact h.2.1 ▸ List.cons_ne_nil _ _
  | seq a b iha ihb =>
    rw [split] at h
    cases hs : a.split s with
    | none => simp [hs] at h
    | some r =>
      simp only [hs, Option.map_eq_some_iff, Prod.mk.injEq] at h
      obtain ⟨u, hu, rfl, -⟩ := h
      rw [Consumes, Bool.or_eq_true] at ha
      rcases ha with ha | hb
      · exact List.append_ne_nil_of_left_ne_nil (iha ha hs) _
      · exact List.append_ne_nil_of_right_ne_nil _ (ihb hb hu)
  | alt a b iha ihb =>
    rw [Consumes, Bool.and_eq_true] at ha
    rw [split] at h
    cases hs : a.split s with
    | none => exact ihb ha.2 (by simpa [hs] using h)
    | some r => exact iha ha.1 (by rw [hs]; simpa [hs] using h)
  | through close =>
    exact ne_nil_of_splitThrough (by simpa [Consumes] using ha) (by simpa [split] using h)

end Pattern

namespace Lexicon

variable {κ : Type} {lexicon : Lexicon κ} {s : List Char}

/-! ### Reading by ordered choice -/

/-- What the first class that matches takes, be it nothing. -/
def choose (classes : List (Pattern × (List Char → κ))) (s : List Char) :
    Option (κ × List Char × List Char) :=
  classes.findSome? fun cls => (cls.1.split s).map fun r => (cls.2 r.1, r.1, r.2)

/-- The next token by ordered choice, and the rest: any character where no class matches. -/
def token? (lexicon : Lexicon κ) (s : List Char) : Option (κ × List Char × List Char) :=
  choose lexicon.classes s <|> s.head?.map fun c => (lexicon.other, [c], s.tail)

/-- **What the choice reads off a text** when it is repeated until it fails, and what it leaves. -/
inductive Reads (lexicon : Lexicon κ) :
    List Char → List (κ × List Char) → List Char → Prop where
  | stop {s : List Char} : lexicon.token? s = none → Reads lexicon s [] s
  | more {s lexeme rest left : List Char} {kind : κ} {pieces : List (κ × List Char)} :
    lexicon.token? s = some (kind, lexeme, rest) → Reads lexicon rest pieces left →
    Reads lexicon s ((kind, lexeme) :: pieces) left

theorem Reads.unique {pieces pieces' : List (κ × List Char)} {left left' : List Char}
    (h : lexicon.Reads s pieces left) (h' : lexicon.Reads s pieces' left') :
    pieces = pieces' ∧ left = left' := by
  induction h generalizing pieces' left' with
  | stop hnone =>
    cases h' with
    | stop => exact ⟨rfl, rfl⟩
    | more hsome _ => simp [hnone] at hsome
  | more hsome _ ih =>
    cases h' with
    | stop hnone => simp [hsome] at hnone
    | more hsome' hrest =>
      obtain ⟨rfl, rfl, rfl⟩ : _ = _ ∧ _ = _ ∧ _ = _ := by
        simpa using Option.some.inj (hsome.symm.trans hsome')
      obtain ⟨rfl, rfl⟩ := ih hrest
      exact ⟨rfl, rfl⟩

/-! ### Lexicons whose classes consume -/

/-- Does every class of a lexicon take something wherever it matches? -/
def Consuming (lexicon : Lexicon κ) : Prop := ∀ cls ∈ lexicon.classes, cls.1.Consumes = true

instance : Decidable lexicon.Consuming :=
  inferInstanceAs (Decidable (∀ cls ∈ lexicon.classes, cls.1.Consumes = true))

theorem choose_eq_firstMatch {classes : List (Pattern × (List Char → κ))}
    (hclasses : ∀ cls ∈ classes, cls.1.Consumes = true) (s : List Char) :
    choose classes s = firstMatch classes s := by
  induction classes with
  | nil => rfl
  | cons cls classes ih =>
    obtain ⟨hcls, hclasses⟩ := List.forall_mem_cons.mp hclasses
    rw [choose, List.findSome?_cons, firstMatch]
    cases hs : cls.1.split s with
    | none => exact ih hclasses
    | some r =>
      obtain ⟨lexeme, rest⟩ := r
      cases lexeme with
      | nil => exact absurd rfl (Pattern.ne_nil_of_consumes hcls hs)
      | cons c lexeme => rfl

theorem firstMatch_nil (classes : List (Pattern × (List Char → κ))) :
    firstMatch classes [] = none := by
  cases h : firstMatch classes [] with
  | none => rfl
  | some m => exact absurd (length_rest_lt h) (Nat.not_lt_zero _)

/-- **The choice reads a text to its end**, and what it reads are the pieces of the text. -/
theorem reads_pieces (hl : lexicon.Consuming) {fuel : Nat} (hs : s.length ≤ fuel) :
    lexicon.Reads s (lexicon.pieces fuel s) [] := by
  have htoken (s : List Char) : lexicon.token? s =
      (firstMatch lexicon.classes s <|> s.head?.map fun c => (lexicon.other, [c], s.tail)) := by
    rw [token?, choose_eq_firstMatch hl]
  have hend : lexicon.Reads [] [] [] := .stop (by rw [htoken, firstMatch_nil]; rfl)
  induction fuel generalizing s with
  | zero =>
    obtain rfl : s = [] := List.length_eq_zero_iff.mp (Nat.le_zero.mp hs)
    exact hend
  | succ fuel ih =>
    cases s with
    | nil => exact hend
    | cons c s =>
      rw [pieces]
      cases hm : firstMatch lexicon.classes (c :: s) with
      | none => exact .more (by rw [htoken, hm]; rfl) (ih (Nat.le_of_succ_le_succ hs))
      | some m =>
        obtain ⟨kind, lexeme, rest⟩ := m
        have hlt := length_rest_lt hm
        exact .more (by rw [htoken, hm]; rfl) (ih (Nat.le_of_lt_succ (hlt.trans_le hs)))

theorem reads_iff (hl : lexicon.Consuming) {pieces : List (κ × List Char)} {left : List Char} :
    lexicon.Reads s pieces left ↔ pieces = lexicon.pieces s.length s ∧ left = [] := by
  have hreads := reads_pieces hl (Nat.le_refl s.length)
  constructor
  · exact fun h => h.unique hreads
  · rintro ⟨rfl, rfl⟩
    exact hreads

end Lexicon

/-! ### Places -/

/-- The place behind a text, as it is shown: a line feed starts a line and any other character takes
a column, but no column is shown past the last. -/
def placeBehind (s : List Char) : Nat × Nat :=
  (s.count '\n' + 1, min ((s.reverse.takeWhile (· != '\n')).length + 1) 65535)

theorem Position.column_advanceBy_start (s : List Char) :
    (start.advanceBy s).column = (s.reverse.takeWhile (· != '\n')).length + 1 := by
  induction s using List.reverseRecOn with
  | nil => rfl
  | append_singleton s c ih =>
    rw [advanceBy_append, advanceBy_cons, advanceBy_nil, advance, List.reverse_append]
    by_cases hc : c = '\n'
    · rw [if_pos hc, hc]
      rfl
    · rw [if_neg hc, ih]
      simp [hc]

theorem Position.shown_advanceBy_start (s : List Char) :
    (start.advanceBy s).shown = placeBehind s := by
  rw [shown, line_advanceBy, column_advanceBy_start, newlines, Nat.add_comm]
  rfl

namespace Lexicon

variable {κ : Type}

/-- **What it means that the tokens of a text are exact.** -/
structure Exact (lexicon : Lexicon κ) (s : String) : Prop where
  /-- The choice reads the tokens, and it leaves nothing. -/
  reads : ∀ pieces left, lexicon.Reads s.toList pieces left ↔
    pieces = (lexicon.tokens s).map (fun t => (t.kind, t.text.toList)) ∧ left = []
  nonempty : ∀ t ∈ lexicon.tokens s, t.text ≠ ""
  joined : String.join ((lexicon.tokens s).map (·.text)) = s
  begins : ∀ before t after, lexicon.tokens s = before ++ t :: after →
    t.begins = placeBehind (Token.textOf before)
  ends : ∀ before t after, lexicon.tokens s = before ++ t :: after →
    t.ends = placeBehind (Token.textOf before ++ t.text.toList)
  /-- A token ends where the next one begins. -/
  meets : ∀ before t u after, lexicon.tokens s = before ++ t :: u :: after → t.ends = u.begins

variable {lexicon : Lexicon κ}

theorem begins_of_tokens {s : String} {before after : List (Token κ)} {t : Token κ}
    (h : lexicon.tokens s = before ++ t :: after) :
    t.begins = placeBehind (Token.textOf before) := by
  rw [← Position.shown_advanceBy_start]
  exact congrArg Token.begins (eq_placed h)

theorem ends_of_tokens {s : String} {before after : List (Token κ)} {t : Token κ}
    (h : lexicon.tokens s = before ++ t :: after) :
    t.ends = placeBehind (Token.textOf before ++ t.text.toList) := by
  rw [← Position.shown_advanceBy_start, Position.advanceBy_append]
  exact congrArg Token.ends (eq_placed h)

/-- **Tokens are exact** if every class takes something wherever it matches. -/
theorem exact_of_consuming (hl : lexicon.Consuming) (s : String) : lexicon.Exact s where
  reads pieces left := by
    rw [reads_iff hl, lexicon.map_tokens fun kind text => (kind, text.toList)]
    simp
  nonempty t ht hempty := by
    rcases class_of_mem_tokens ht with ⟨-, c, hc⟩ | ⟨-, -, -, -, -, -, hne⟩
    · simp [hempty] at hc
    · exact hne (by rw [hempty]; rfl)
  joined := by
    rw [← String.toList_inj, String.toList_join, List.flatMap_map]
    exact lexicon.flatMap_tokens s
  begins _ _ _ := begins_of_tokens
  ends _ _ _ := ends_of_tokens
  meets before t u after h := by
    have hnext : lexicon.tokens s = (before ++ [t]) ++ u :: after := by simpa using h
    rw [ends_of_tokens h, begins_of_tokens hnext]
    simp

end Lexicon

theorem DirectiveKind.consuming_lexicon : lexicon.Consuming := by decide

theorem SourceKind.consuming_lexicon : lexicon.Consuming := by decide

/-- **Both lexicons lose nothing and misplace nothing**, whatever the text. -/
theorem lexes_exactly (s : String) : DirectiveKind.lexicon.Exact s ∧ SourceKind.lexicon.Exact s :=
  ⟨Lexicon.exact_of_consuming DirectiveKind.consuming_lexicon s,
    Lexicon.exact_of_consuming SourceKind.consuming_lexicon s⟩

end Verilog
