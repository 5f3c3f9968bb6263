import Verilog.Proofs.Directive.Pieces
import Verilog.Proofs.Lexing.Exact
import Verilog.Proofs.Source.Parts

/-!
# Tokens of texts with carriage returns

A line may end in a line feed, or in a carriage return and a line feed. A text of which some lines
end in the one way and some in the other is compared with the text without carriage returns
(`WithReturns`), and where a pattern cuts the one with where it cuts the other.

To most patterns the two ends of a line are the same: they stop before either, or take the whole of
it, and cut both texts at the same place (`Pattern.cuts_of_isSteady`). A run of blanks takes the
carriage return and leaves the line feed, and so does a comment up to the end of its line. Then the
places are on the two sides of a carriage return (`Meets`), and the same lines are left in both.

A string is cut off in both texts if it stays on its line (`Pattern.rel_quoted`). A backslash takes
a line feed, so that the string goes on behind it. But before a carriage return it takes just that,
and the line feed ends the string where no quote is (`Pattern.split_quotedRest_addReturns`).
-/

namespace Verilog

open Lexicon Pattern

/-! ### Related results -/

section Rel

variable {α β γ δ : Type} {R S : α → β → Prop} {T : γ → δ → Prop} {a? : Option α} {b? : Option β}

/-- Results that are related are also related by what follows of that. -/
theorem rel_imp (h : Option.Rel R a? b?) (hS : ∀ a ∈ a?, ∀ b, R a b → S a b) :
    Option.Rel S a? b? := by
  cases h with
  | none => exact .none
  | some h => exact .some (hS _ rfl _ h)

theorem rel_map (h : Option.Rel R a? b?) {f : α → γ} {g : β → δ}
    (hT : ∀ a b, R a b → T (f a) (g b)) : Option.Rel T (a?.map f) (b?.map g) := by
  cases h with
  | none => exact .none
  | some h => exact .some (hT _ _ h)

end Rel

/-! ### Texts with carriage returns -/

/-- The text with a carriage return before each line feed. -/
def addReturns (s : List Char) : List Char :=
  s.flatMap fun c => if c = '\n' then ['\r', '\n'] else [c]

/-- **Is a text the same as another without carriage returns**, but for those that it has before
some line feeds? -/
inductive WithReturns : List Char → List Char → Prop
  | nil : WithReturns [] []
  | char {c s t} (hc : c ≠ '\r') (h : WithReturns s t) : WithReturns (c :: s) (c :: t)
  | feed {s t} (h : WithReturns s t) : WithReturns ('\n' :: s) ('\r' :: '\n' :: t)

namespace WithReturns

variable {s t x y : List Char} {c : Char}

theorem refl (hs : '\r' ∉ s) : WithReturns s s := by
  induction s with
  | nil => exact .nil
  | cons c s ih =>
    rw [List.mem_cons, not_or] at hs
    exact .char (Ne.symm hs.1) (ih hs.2)

theorem addReturns (hs : '\r' ∉ s) : WithReturns s (addReturns s) := by
  induction s with
  | nil => exact .nil
  | cons c s ih =>
    rw [List.mem_cons, not_or] at hs
    rw [Verilog.addReturns, List.flatMap_cons]
    split
    · subst c
      exact .feed (ih hs.2)
    · exact .char (Ne.symm hs.1) (ih hs.2)

theorem append (h : WithReturns s t) (h' : WithReturns x y) : WithReturns (s ++ x) (t ++ y) := by
  induction h with
  | nil => exact h'
  | char hc _ ih => exact .char hc ih
  | feed _ ih => exact .feed ih

/-- Without line feeds the texts are the same. -/
theorem eq_of_not_mem (h : WithReturns s t) (hs : '\n' ∉ s) : t = s := by
  induction h with
  | nil => rfl
  | char _ _ ih => rw [ih (List.not_mem_of_not_mem_cons hs)]
  | feed => exact absurd List.mem_cons_self hs

/-- There is one text without carriage returns. -/
theorem unique (h : WithReturns s t) (h' : WithReturns x t) : s = x := by
  induction h generalizing x with
  | nil =>
    cases h'
    rfl
  | char hc _ ih =>
    cases h' with
    | char _ h' => rw [ih h']
    | feed => exact absurd rfl hc
  | feed _ ih =>
    cases h' with
    | char hc => exact absurd rfl hc
    | feed h' => rw [ih h']

end WithReturns

theorem addReturns_cons (c : Char) (s : List Char) :
    addReturns (c :: s) = (if c = '\n' then ['\r', '\n'] else [c]) ++ addReturns s := rfl

/-- **The rest of a text with carriage returns** is a rest of the text with carriage returns again,
unless the cut is behind one: then just that is missing. -/
theorem eq_of_suffix_addReturns {s r r' : List Char} (hs : '\r' ∉ s) (hr : r' <:+ addReturns s)
    (h : WithReturns r r') :
    r' = addReturns r ∨ ∃ u, r = '\n' :: u ∧ r' = '\n' :: addReturns u := by
  induction s with
  | nil =>
    obtain rfl : r' = [] := by simpa [addReturns] using hr
    cases h
    exact .inl rfl
  | cons c s ih =>
    have hwhole := WithReturns.addReturns hs
    have htail := WithReturns.addReturns (List.not_mem_of_not_mem_cons hs)
    rw [addReturns_cons] at hr hwhole
    split at hr
    · subst c
      rw [List.cons_append, List.suffix_cons_iff, List.singleton_append, List.suffix_cons_iff] at hr
      rcases hr with rfl | rfl | hr
      · obtain rfl := h.unique hwhole
        exact .inl rfl
      · obtain rfl := h.unique (.char (by decide) htail)
        exact .inr ⟨s, rfl, rfl⟩
      · exact ih (List.not_mem_of_not_mem_cons hs) hr
    · rename_i hc
      rw [if_neg hc] at hwhole
      rw [List.singleton_append, List.suffix_cons_iff] at hr
      rcases hr with rfl | hr
      · obtain rfl := h.unique hwhole
        rw [addReturns_cons, if_neg hc]
        exact .inl rfl
      · exact ih (List.not_mem_of_not_mem_cons hs) hr

/-! ### What patterns take -/

/-- Two cuts, of a text and of the text with carriage returns, are at the same place. -/
structure Parallel (m m' : List Char × List Char) : Prop where
  lexeme : WithReturns m.1 m'.1
  rest : WithReturns m.2 m'.2

/-- **Two cuts meet** if they are at the same place, or on the two sides of a carriage return. -/
inductive Meets : List Char × List Char → List Char × List Char → Prop
  | parallel {m m'} (h : Parallel m m') : Meets m m'
  | astride {x y s t} (hx : WithReturns x y) (h : WithReturns s t) :
    Meets (x, '\n' :: s) (y ++ ['\r'], '\n' :: t)

section Cuts

variable {m m' : List Char × List Char} {x y : List Char}

theorem Meets.rest (h : Meets m m') : WithReturns m.2 m'.2 := by
  cases h with
  | parallel h => exact h.rest
  | astride _ h => exact .char (by decide) h

theorem Parallel.prepend (hx : WithReturns x y) (h : Parallel m m') :
    Parallel (x ++ m.1, m.2) (y ++ m'.1, m'.2) := ⟨hx.append h.lexeme, h.rest⟩

theorem Meets.prepend (hx : WithReturns x y) (h : Meets m m') :
    Meets (x ++ m.1, m.2) (y ++ m'.1, m'.2) := by
  cases h with
  | parallel h => exact .parallel (h.prepend hx)
  | astride hm h => exact List.append_assoc y _ _ ▸ .astride (hx.append hm) h

end Cuts

namespace Pattern

variable {a b : Pattern} {s t x : List Char}
  {R : List Char × List Char → List Char × List Char → Prop}

/-- Are the cuts that a pattern makes in a text and in the text with carriage returns related? -/
def Cuts (R : List Char × List Char → List Char × List Char → Prop) (a : Pattern) : Prop :=
  ∀ {s t}, WithReturns s t → Option.Rel R (a.split s) (a.split t)

/-- Behind a pattern that cuts at the same place the next one decides. -/
theorem rel_seq (hR : ∀ {x y m m'}, WithReturns x y → R m m' → R (x ++ m.1, m.2) (y ++ m'.1, m'.2))
    (ha : Option.Rel Parallel (a.split s) (a.split t)) (hb : b.Cuts R) :
    Option.Rel R ((seq a b).split s) ((seq a b).split t) := by
  rw [split, split]
  generalize a.split s = m, a.split t = m' at ha
  cases ha with
  | none => exact .none
  | some hm => exact rel_map (hb hm.rest) fun _ _ hr => hR hm.lexeme hr

/-! ### Patterns to which a line feed is as a carriage return -/

/-- Does a pattern treat a line feed as it treats a carriage return, to judge by its parts? -/
def IsSteady : Pattern → Bool
  | text s | through s => !s.contains '\n' && !s.contains '\r'
  | one p => !p '\n' && !p '\r'
  | run p => p '\n' == p '\r'
  | seq a b | alt a b => a.IsSteady && b.IsSteady
  | opt a => a.IsSteady
  | many _ => false
  | ahead p => p (some '\n') == p (some '\r')

theorem stripFront_withReturns {front : List Char} (hn : '\n' ∉ front) (hr : '\r' ∉ front)
    (h : WithReturns s t) : Option.Rel WithReturns (stripFront front s) (stripFront front t) := by
  induction front generalizing s t with
  | nil => exact .some h
  | cons c front ih =>
    rw [List.mem_cons, not_or] at hn hr
    cases h with
    | nil => exact .none
    | char _ h =>
      rw [stripFront, stripFront]
      split
      · exact ih hn.2 hr.2 h
      · exact .none
    | feed h =>
      rw [stripFront, stripFront, if_neg (Ne.symm hn.1), if_neg (Ne.symm hr.1)]
      exact .none

theorem splitThrough_withReturns {close : List Char} (hn : '\n' ∉ close) (hr : '\r' ∉ close)
    (h : WithReturns s t) : Option.Rel Parallel (splitThrough close s) (splitThrough close t) := by
  have hclose : WithReturns close close := .refl hr
  induction h with
  | nil =>
    rw [splitThrough]
    split
    · exact .some ⟨.nil, .nil⟩
    · exact .none
  | @char c s t hc h ih =>
    have hfront := stripFront_withReturns hn hr (.char hc h)
    rw [splitThrough, splitThrough]
    generalize stripFront close (c :: s) = m, stripFront close (c :: t) = m' at hfront
    cases hfront with
    | none => exact rel_map ih fun _ _ hm => ⟨.char hc hm.lexeme, hm.rest⟩
    | some h => exact .some ⟨hclose, h⟩
  | @feed s t h ih =>
    cases close with
    | nil => exact .some ⟨.nil, .feed h⟩
    | cons d close =>
      rw [List.mem_cons, not_or] at hn hr
      have hnone (u : List Char) : stripFront (d :: close) ('\n' :: u) = none ∧
          stripFront (d :: close) ('\r' :: u) = none :=
        ⟨by rw [stripFront, if_neg (Ne.symm hn.1)], by rw [stripFront, if_neg (Ne.symm hr.1)]⟩
      simp only [splitThrough, hnone, Option.map_map]
      exact rel_map ih fun _ _ hm => ⟨.feed hm.lexeme, hm.rest⟩

/-- **A steady pattern** cuts a text and the text with carriage returns at the same place. -/
theorem cuts_of_isSteady (ha : a.IsSteady = true) : a.Cuts Parallel := by
  induction a with
  | many => cases ha
  | text front =>
    intro s t h
    rw [IsSteady, Bool.and_eq_true] at ha
    have hr : '\r' ∉ front := by simpa using ha.2
    exact rel_map (stripFront_withReturns (by simpa using ha.1) hr h) fun _ _ hm => ⟨.refl hr, hm⟩
  | one p =>
    intro s t h
    rw [IsSteady, Bool.and_eq_true, Bool.not_eq_true', Bool.not_eq_true'] at ha
    cases h with
    | nil => exact .none
    | char hc h =>
      rw [split, split]
      split
      · exact .some ⟨.char hc .nil, h⟩
      · exact .none
    | feed h =>
      rw [split, split, if_neg (by simp [ha]), if_neg (by simp [ha])]
      exact .none
  | run p =>
    intro s t h
    have hp : p '\n' = p '\r' := by simpa [IsSteady] using ha
    rw [split, split]
    refine .some ?_
    induction h with
    | nil => exact ⟨.nil, .nil⟩
    | @char c s t hc h ih =>
      rw [List.takeWhile_cons, List.takeWhile_cons, List.dropWhile_cons, List.dropWhile_cons]
      split
      · exact ⟨.char hc ih.lexeme, ih.rest⟩
      · exact ⟨.nil, .char hc h⟩
    | @feed s t h ih =>
      simp only [List.takeWhile_cons, List.dropWhile_cons, hp]
      split
      · exact ⟨.feed ih.lexeme, ih.rest⟩
      · exact ⟨.nil, .feed h⟩
  | seq a b iha ihb =>
    rw [IsSteady, Bool.and_eq_true] at ha
    exact fun h => rel_seq Parallel.prepend (iha ha.1 h) (ihb ha.2)
  | alt a b iha ihb =>
    intro s t h
    rw [IsSteady, Bool.and_eq_true] at ha
    have hm := iha ha.1 h
    rw [split, split]
    generalize a.split s = m, a.split t = m' at hm
    cases hm with
    | none => exact ihb ha.2 h
    | some hm => exact .some hm
  | opt a ih =>
    intro s t h
    have hm := ih ha h
    rw [split, split]
    generalize a.split s = m, a.split t = m' at hm
    cases hm with
    | none => exact .some ⟨.nil, h⟩
    | some hm => exact .some hm
  | through close =>
    rw [IsSteady, Bool.and_eq_true] at ha
    exact splitThrough_withReturns (by simpa using ha.1) (by simpa using ha.2)
  | ahead p =>
    intro s t h
    have hp : p (some '\n') = p (some '\r') := by simpa [IsSteady] using ha
    have hhead : p s.head? = p t.head? := by
      cases h with
      | nil | char => rfl
      | feed => exact hp
    rw [split, split, hhead]
    split
    · exact .some ⟨.nil, h⟩
    · exact .none

/-! ### Patterns that take a carriage return and leave the line feed -/

/-- A run goes up to the line feed, and so past the carriage return. -/
theorem cuts_run {p : Char → Bool} (hn : p '\n' = false) (hr : p '\r' = true) :
    (run p).Cuts Meets := by
  intro s t h
  rw [split, split]
  refine .some ?_
  induction h with
  | nil => exact .parallel ⟨.nil, .nil⟩
  | @char c s t hc h ih =>
    rw [List.takeWhile_cons, List.takeWhile_cons, List.dropWhile_cons, List.dropWhile_cons]
    split
    · exact ih.prepend (.char hc .nil)
    · exact .parallel ⟨.nil, .char hc h⟩
  | feed h =>
    simp only [List.takeWhile_cons, List.dropWhile_cons, hn, hr, if_true, Bool.false_eq_true,
      if_false]
    exact .astride .nil h

/-- Blanks that begin with the same one. -/
theorem rel_run1 {p : Char → Bool} {c : Char} (hn : p '\n' = false) (hr : p '\r' = true)
    (hc : c ≠ '\r') (h : WithReturns s t) :
    Option.Rel Meets ((run1 p).split (c :: s)) ((run1 p).split (c :: t)) := by
  refine rel_seq Meets.prepend ?_ (cuts_run hn hr)
  rw [split, split]
  split
  · exact .some ⟨.char hc .nil, h⟩
  · exact .none

/-- What may stand in a comment that ends with its line: any character, but no backslash that ends
the line. -/
def commentCharacter : Pattern :=
  alt (one fun c => c != '\n' && c != '\\') <|
    seq (text ['\\']) (ahead fun next => next.any fun c => c != '\n' && c != '\r')

theorem split_commentCharacter {c : Char} (hc : c ≠ '\n' ∧ c ≠ '\\') (s : List Char) :
    commentCharacter.split (c :: s) = some ([c], s) := by
  simp [commentCharacter, split, hc]

theorem split_commentCharacter_backslash (s : List Char) : commentCharacter.split ('\\' :: s) =
    if s.head?.any (fun c => c != '\n' && c != '\r') then some (['\\'], s) else none := by
  simp only [commentCharacter, split, stripFront]
  split <;> simp_all

/-- A character is taken in both texts, or in neither: a backslash unless it ends the line. -/
theorem split_commentCharacter_cases (c : Char) (h : WithReturns s t) :
    commentCharacter.split (c :: s) = none ∧ commentCharacter.split (c :: t) = none ∨
      commentCharacter.split (c :: s) = some ([c], s) ∧
        commentCharacter.split (c :: t) = some ([c], t) := by
  by_cases hn : c = '\n'
  · subst hn
    exact .inl ⟨rfl, rfl⟩
  by_cases hslash : c = '\\'
  · subst hslash
    have hhead : s.head?.any (fun c => c != '\n' && c != '\r') =
        t.head?.any (fun c => c != '\n' && c != '\r') := by
      cases h <;> rfl
    rw [split_commentCharacter_backslash, split_commentCharacter_backslash, hhead]
    split
    · exact .inr ⟨rfl, rfl⟩
    · exact .inl ⟨rfl, rfl⟩
  · exact .inr ⟨split_commentCharacter ⟨hn, hslash⟩ s, split_commentCharacter ⟨hn, hslash⟩ t⟩

/-- A comment goes up to the line feed too, or ends before a backslash that ends the line. -/
theorem cuts_commentRest : (many commentCharacter).Cuts Meets := by
  intro s t h
  induction h with
  | nil => exact .some (.parallel ⟨.nil, .nil⟩)
  | @char c s t hc h ih =>
    rcases split_commentCharacter_cases c h with ⟨hs, ht⟩ | ⟨hs, ht⟩
    · rw [split_many_of_none hs, split_many_of_none ht]
      exact .some (.parallel ⟨.nil, .char hc h⟩)
    · rw [split_many_of_split hs, split_many_of_split ht]
      exact rel_map ih fun _ _ hm => hm.prepend (.char hc .nil)
  | @feed s t h =>
    rw [split_many_of_none (s := '\n' :: s) rfl,
      split_many_of_split (s := '\r' :: '\n' :: t) (split_commentCharacter (by decide) _),
      split_many_of_none (s := '\n' :: t) rfl]
    exact .some (.astride .nil h)

theorem cuts_slashComment : DirectiveKind.slashComment.Cuts Meets :=
  fun h => rel_seq Meets.prepend (cuts_of_isSteady (by decide) h) cuts_commentRest

/-- A line is continued before a line feed with or without a carriage return. -/
theorem cuts_continuation : DirectiveKind.continuationPattern.Cuts Parallel := by
  refine fun h => rel_seq Parallel.prepend (cuts_of_isSteady (by decide) h) fun {s t} h => ?_
  cases h with
  | nil => exact .none
  | @char c s t hc h =>
    have hplain (u : List Char) : (seq (opt (text ['\r'])) (text ['\n'])).split (c :: u) =
        (text ['\n']).split (c :: u) := by
      simp [split, stripFront, Ne.symm hc]
    rw [hplain, hplain]
    by_cases hn : c = '\n'
    · subst hn
      exact .some ⟨.char (by decide) .nil, h⟩
    · rw [split_of_refuses s _ (by simpa [Refuses] using Ne.symm hn),
        split_of_refuses t _ (by simpa [Refuses] using Ne.symm hn)]
      exact .none
  | feed h => exact .some ⟨.feed .nil, h⟩

/-! ### Strings -/

/-- What stands in a string behind the quote, up to its end. -/
def quotedRest : Pattern := seq (many quotedCharacter) (text ['"'])

theorem split_quotedRest_of_split {c : Char} (h : quotedCharacter.split s = some (c :: x, t)) :
    quotedRest.split s = (quotedRest.split t).map fun m => (c :: x ++ m.1, m.2) :=
  split_many_seq_of_split h

/-- A string does not go on behind a line feed that no backslash takes. -/
theorem split_quotedRest_newline (s : List Char) : quotedRest.split ('\n' :: s) = none :=
  split_many_seq_of_none (split_quotedCharacter_of_end (.inr rfl) s)

theorem split_quotedRest_return (s : List Char) : quotedRest.split ('\r' :: '\n' :: s) = none := by
  rw [split_quotedRest_of_split (split_quotedCharacter (by decide) _), split_quotedRest_newline]
  rfl

/-- A backslash takes a carriage return, but not the line feed behind it. -/
theorem split_quotedRest_escaped (s : List Char) :
    quotedRest.split ('\\' :: '\r' :: '\n' :: s) = none := by
  rw [split_quotedRest_of_split (split_quotedCharacter_escaped _ _), split_quotedRest_newline]
  rfl

/-- Both texts with a turn taken. -/
theorem rel_turn {c : Char} {s' t' : List Char} (hx : '\r' ∉ c :: x)
    (hs : quotedCharacter.split s = some (c :: x, s'))
    (ht : quotedCharacter.split t = some (c :: x, t'))
    (h : (∀ m, quotedRest.split s' = some m → '\n' ∉ m.1) →
      Option.Rel Parallel (quotedRest.split s') (quotedRest.split t'))
    (hquoted : ∀ m, quotedRest.split s = some m → '\n' ∉ m.1) :
    Option.Rel Parallel (quotedRest.split s) (quotedRest.split t) := by
  rw [split_quotedRest_of_split hs] at hquoted ⊢
  rw [split_quotedRest_of_split ht]
  exact rel_map (h fun m hm hn => hquoted _ (by rw [hm]; rfl) (List.mem_append_right _ hn))
    fun _ _ hm => hm.prepend (.refl hx)

/-- **A string that stays on its line** is cut off in both texts, or in neither. -/
theorem rel_quotedRest (h : WithReturns s t)
    (hs : ∀ m, quotedRest.split s = some m → '\n' ∉ m.1) :
    Option.Rel Parallel (quotedRest.split s) (quotedRest.split t) := by
  induction hlen : s.length using Nat.strong_induction_on generalizing s t with
  | _ n ih =>
    cases h with
    | nil => exact .none
    | feed h =>
      rw [split_quotedRest_newline, split_quotedRest_return]
      exact .none
    | @char c s t hc h =>
      by_cases hend : c = '"' ∨ c = '\n'
      · have hsplit (u : List Char) : quotedRest.split (c :: u) = (text ['"']).split (c :: u) :=
          split_many_seq_of_none (split_quotedCharacter_of_end hend u)
        rw [hsplit, hsplit]
        exact cuts_of_isSteady (by decide) (.char hc h)
      rw [not_or] at hend
      have hless : s.length < n := by simp [← hlen]
      by_cases hslash : c = '\\'
      · subst hslash
        cases h with
        | nil => exact .none
        | @char d s t hd h =>
          exact rel_turn (by simpa using Ne.symm hd) (split_quotedCharacter_escaped d s)
            (split_quotedCharacter_escaped d t)
            (fun hs => ih s.length ((Nat.lt_succ_self _).trans hless) h hs rfl) hs
        | @feed s t h =>
          -- here the string goes on in the next line, if it ends there
          rw [split_quotedRest_escaped]
          rw [split_quotedRest_of_split (split_quotedCharacter_escaped _ _)] at hs ⊢
          cases hrest : quotedRest.split s with
          | none => exact .none
          | some m => exact absurd (by simp) (hs _ (congrArg (Option.map _) hrest))
      · have hplain (u : List Char) := split_quotedCharacter ⟨hend.1, hslash, hend.2⟩ u
        exact rel_turn (x := []) (by simpa using Ne.symm hc) (hplain s) (hplain t)
          (fun hs => ih s.length hless h hs rfl) hs

/-- What has a line feed behind a turn has it with the turn. -/
theorem none_of_turn {c : Char} {s' t' : List Char} {m : List Char × List Char} (hx : '\n' ∉ c :: x)
    (hs : quotedCharacter.split s = some (c :: x, s'))
    (ht : quotedCharacter.split t = some (c :: x, t'))
    (h : ∀ m, quotedRest.split s' = some m → '\n' ∈ m.1 → quotedRest.split t' = none)
    (hm : quotedRest.split s = some m) (hn : '\n' ∈ m.1) : quotedRest.split t = none := by
  rw [split_quotedRest_of_split hs] at hm
  obtain ⟨m', hm', rfl⟩ := Option.map_eq_some_iff.mp hm
  rw [split_quotedRest_of_split ht, h m' hm' ((List.mem_append.mp hn).resolve_left hx)]
  rfl

/-- **A string that goes on in a next line** does so no longer with carriage returns. -/
theorem split_quotedRest_addReturns {m : List Char × List Char} (h : quotedRest.split s = some m)
    (hn : '\n' ∈ m.1) : quotedRest.split (addReturns s) = none := by
  induction hlen : s.length using Nat.strong_induction_on generalizing s m with
  | _ n ih =>
    cases s with
    | nil => cases h
    | cons c s =>
      have hless : s.length < n := by simp [← hlen]
      by_cases hend : c = '"' ∨ c = '\n'
      · have hsplit : quotedRest.split (c :: s) = (text ['"']).split (c :: s) :=
          split_many_seq_of_none (split_quotedCharacter_of_end hend s)
        rw [hsplit] at h
        exact absurd hn (not_mem_of_excludes (by decide) h)
      rw [not_or] at hend
      by_cases hslash : c = '\\'
      · subst hslash
        cases s with
        | nil => cases h
        | cons d s =>
          by_cases hd : d = '\n'
          · subst hd
            exact split_quotedRest_escaped (addReturns s)
          have hreturns : addReturns ('\\' :: d :: s) = '\\' :: d :: addReturns s := by
            rw [addReturns_cons, if_neg (by decide), addReturns_cons, if_neg hd]
            rfl
          rw [hreturns]
          exact none_of_turn (by simpa using Ne.symm hd) (split_quotedCharacter_escaped d s)
            (split_quotedCharacter_escaped d _)
            (fun m hm hn => ih s.length ((Nat.lt_succ_self _).trans hless) hm hn rfl) h hn
      · have hplain (u : List Char) := split_quotedCharacter ⟨hend.1, hslash, hend.2⟩ u
        rw [addReturns_cons, if_neg hend.2]
        exact none_of_turn (x := []) (by simpa using Ne.symm hend.2) (hplain s) (hplain _)
          (fun m hm hn => ih s.length hless hm hn rfl) h hn

theorem split_quoted (s : List Char) :
    quoted.split ('"' :: s) = (quotedRest.split s).map fun m => ('"' :: m.1, m.2) := rfl

theorem split_quoted_of_ne {c : Char} (hc : c ≠ '"') (s : List Char) :
    quoted.split (c :: s) = none :=
  split_of_refuses s _ (by simp [quoted, Refuses, Ne.symm hc])

theorem rel_quoted (h : WithReturns s t) (hs : ∀ m, quoted.split s = some m → '\n' ∉ m.1) :
    Option.Rel Parallel (quoted.split s) (quoted.split t) := by
  cases h with
  | nil => exact .none
  | feed h =>
    rw [split_quoted_of_ne (by decide), split_quoted_of_ne (by decide)]
    exact .none
  | @char c s t hc h =>
    by_cases hquote : c = '"'
    · subst hquote
      rw [split_quoted] at hs ⊢
      have hrest := rel_quotedRest h fun m hm hn =>
        hs _ (congrArg (Option.map _) hm) (List.mem_cons_of_mem _ hn)
      rw [split_quoted]
      exact rel_map hrest fun _ _ hm => ⟨.char hc hm.lexeme, hm.rest⟩
    · rw [split_quoted_of_ne hquote, split_quoted_of_ne hquote]
      exact .none

end Pattern

/-! ### The first token -/

namespace Lexicon

variable {κ : Type} {s t : List Char}
  {R : κ × List Char × List Char → κ × List Char × List Char → Prop}

/-- What the first matches of two texts are is related, if it is for each class by itself. -/
theorem firstMatch_rel {classes : List (Pattern × (List Char → κ))}
    (hconsumes : ∀ cls ∈ classes, cls.1.Consumes = true)
    (hclasses : ∀ cls ∈ classes, Option.Rel (fun m m' => R (cls.2 m.1, m) (cls.2 m'.1, m'))
      (cls.1.split s) (cls.1.split t)) :
    Option.Rel R (firstMatch classes s) (firstMatch classes t) := by
  rw [← choose_eq_firstMatch hconsumes, ← choose_eq_firstMatch hconsumes]
  induction classes with
  | nil => exact .none
  | cons cls classes ih =>
    obtain ⟨-, hconsumes⟩ := List.forall_mem_cons.mp hconsumes
    obtain ⟨hcls, hclasses⟩ := List.forall_mem_cons.mp hclasses
    rw [choose, choose, List.findSome?_cons, List.findSome?_cons]
    generalize cls.1.split s = m, cls.1.split t = m' at hcls
    cases hcls with
    | none => exact ih hconsumes hclasses
    | some hm => exact .some hm

/-- **Do the strings of a text stay on their lines?** The kind of token that they are is given. -/
def KeepsLines (lexicon : Lexicon κ) (string : κ) (s : List Char) : Prop :=
  ∀ x ∈ lexicon.pieces s.length s, x.1 = string → '\n' ∉ x.2

variable {lexicon : Lexicon κ} {string : κ}

theorem KeepsLines.rest {x : κ × List Char} {r : List Char} (hs : lexicon.KeepsLines string s)
    (h : lexicon.pieces s.length s = x :: lexicon.pieces r.length r) :
    lexicon.KeepsLines string r :=
  fun y hy => hs y (h ▸ List.mem_cons_of_mem _ hy)

theorem KeepsLines.cons {x : κ × List Char} {r : List Char}
    (h : lexicon.pieces s.length s = x :: lexicon.pieces r.length r)
    (hx : x.1 = string → '\n' ∉ x.2) (hr : lexicon.KeepsLines string r) :
    lexicon.KeepsLines string s := by
  rw [KeepsLines, h, List.forall_mem_cons]
  exact ⟨hx, hr⟩

theorem KeepsLines.quoted (hs : lexicon.KeepsLines string s)
    (hquoted : ∀ {x r}, quoted.split s = some (x, r) →
      firstMatch lexicon.classes s = some (string, x, r)) :
    ∀ m, quoted.split s = some m → '\n' ∉ m.1 :=
  fun m hm => hs (string, m.1) (pieces_cons (hquoted hm) ▸ List.mem_cons_self) rfl

theorem keepsLines_iff {text : String} : lexicon.KeepsLines string text.toList ↔
    ∀ t ∈ lexicon.tokens text, t.kind = string → '\n' ∉ t.text.toList := by
  have hmap := lexicon.map_tokens (fun kind text => (kind, text.toList)) text
  simp only [String.toList_ofList, List.map_id'] at hmap
  rw [KeepsLines, ← hmap, List.forall_mem_map]

end Lexicon

end Verilog
