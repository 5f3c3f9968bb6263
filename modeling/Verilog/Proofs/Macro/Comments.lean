import Verilog.Proofs.Lexing.Comments
import Verilog.Preprocess.Use

/-!
# Comments in the arguments of a macro

The text of a macro use is put on one line, with the comments that its arguments had. If all of them
are still comments there, and if no token goes over the border of an argument, then the grammar sees
what it would see without them (`MacroDefinition.seen_without_comments`). The two conditions are one
(`MacroDefinition.ReadByParts`): the text on one line is read as the body and the arguments are read
by themselves.

A comment up to the end of its line breaks them. On one line it takes in whatever stands behind the
argument (`MacroDefinition.seen_ne_commentedArgument`).
-/

namespace Verilog

open Lexicon Pattern SourceKind DirectiveText

/-! ### Arguments without comments -/

/-- The blanks at the ends of a text are trimmed away. -/
theorem exists_trim (s : List Char) : ∃ a b, s = a ++ (trim s ++ b) ∧
    (∀ c ∈ a, isBlank c = true) ∧ ∀ c ∈ b, isBlank c = true := by
  refine ⟨s.takeWhile isBlank, ((trimLeft s).reverse.takeWhile isBlank).reverse, ?_,
    fun c hc => List.mem_takeWhile_imp hc,
    fun c hc => List.mem_takeWhile_imp (List.mem_reverse.mp hc)⟩
  have hright : trim s ++ ((trimLeft s).reverse.takeWhile isBlank).reverse = trimLeft s := by
    rw [trim, trimRight, ← List.reverse_append, List.takeWhile_append_dropWhile,
      List.reverse_reverse]
  rw [hright, trimLeft, List.takeWhile_append_dropWhile]

theorem visiblePieces_trim {s : List Char} (hs : ∀ c ∈ s, isBlank c = true → isSpace c = true) :
    visiblePieces (trim s) = visiblePieces s := by
  obtain ⟨a, b, hab, ha, hb⟩ := exists_trim s
  have hfront : ∀ c ∈ a, isSpace c = true ∨ c = '\n' := fun c hc =>
    .inl (hs c (hab ▸ List.mem_append_left _ hc) (ha c hc))
  have hback : ∀ c ∈ b, isSpace c = true := fun c hc =>
    hs c (hab ▸ List.mem_append_right _ (List.mem_append_right _ hc)) (hb c hc)
  calc visiblePieces (trim s) = visiblePieces (trim s ++ b) :=
        (visiblePieces_append_blanks hback _).symm
    _ = visiblePieces (a ++ (trim s ++ b)) := (visiblePieces_blanks hfront _).symm
    _ = visiblePieces s := by rw [← hab]

/-- What the grammar sees of a text that is put on one line. -/
def seenOnLine (text : String) : List (SourceKind × List Char) :=
  visiblePieces (flatten text.toList)

/-- **Is an argument another one without some of its comments?** On one line blanks are put for the
comments, and then the blanks at its ends are gone. No number may come to be of this. -/
def WithoutComments (a a' : String) : Prop :=
  ∃ t, Uncommented (flatten a.toList) t ∧ flatten a'.toList = trim t ∧
    (∀ c ∈ t, isBlank c = true → isSpace c = true) ∧
    ∀ z ∈ visiblePieces t, z.1 = .basedNumber → ' ' ∉ z.2

theorem WithoutComments.seenOnLine_eq {a a' : String} (h : WithoutComments a a') :
    seenOnLine a' = seenOnLine a := by
  obtain ⟨t, huncommented, htrim, hblank, hspared⟩ := h
  rw [seenOnLine, htrim, visiblePieces_trim hblank, huncommented.visiblePieces_eq hspared]
  rfl

theorem map_seenOnLine {as as' : List String} (h : List.Forall₂ WithoutComments as as') :
    as'.map seenOnLine = as.map seenOnLine := by
  induction h with
  | nil => rfl
  | cons ha _ ih => rw [List.map_cons, List.map_cons, ha.seenOnLine_eq, ih]

/-! ### Uses -/

namespace MacroDefinition

/-- **Is the text of a use read part by part?** On one line the grammar sees of it what it sees of
the tokens of the body by themselves, with the arguments put in, and of the text behind. -/
def ReadByParts (m : MacroDefinition) (actuals : List String) (behind : String) : Prop :=
  seenOnLine (m.substitute actuals ++ behind) =
    m.body.flatMap (fun t => seenOnLine (substituteToken (m.formals.getD []) actuals t)) ++
      seenOnLine behind

instance (m : MacroDefinition) (actuals : List String) (behind : String) :
    Decidable (m.ReadByParts actuals behind) :=
  inferInstanceAs (Decidable (_ = _))

/-- What an actual argument is seen as is all that counts. -/
theorem seenOnLine_actualFor {as as' : List String} (h : as'.map seenOnLine = as.map seenOnLine)
    (formals : List FormalArgument) (name : String) :
    (actualFor as' formals name).map seenOnLine = (actualFor as formals name).map seenOnLine := by
  induction formals generalizing as as' with
  | nil => rfl
  | cons f formals ih =>
    have htail : as'.tail.map seenOnLine = as.tail.map seenOnLine := by
      rw [List.map_tail, List.map_tail, h]
    rw [actualFor, actualFor]
    split
    · cases as with
      | nil =>
        obtain rfl := List.map_eq_nil_iff.mp h
        rfl
      | cons a as =>
        obtain ⟨a', as', rfl, ha, -⟩ := List.map_eq_cons_iff.mp h
        exact congrArg some ha
    · exact ih htail

theorem seenOnLine_substituteToken {as as' : List String}
    (h : as'.map seenOnLine = as.map seenOnLine) (formals : List FormalArgument) (t : BodyToken) :
    seenOnLine (substituteToken formals as' t) = seenOnLine (substituteToken formals as t) := by
  rw [substituteToken, substituteToken]
  split
  · have hactual := seenOnLine_actualFor h formals t.text
    cases hs : actualFor as formals t.text with
    | none =>
      rw [hs, Option.map_none, Option.map_eq_none_iff] at hactual
      rw [hactual]
    | some a =>
      rw [hs, Option.map_some, Option.map_eq_some_iff] at hactual
      obtain ⟨a', ha', heq⟩ := hactual
      rw [ha']
      exact heq
  all_goals rfl

/-- **Comments in the arguments of a macro are not seen**, where the uses with and without them are
read part by part. The same holds of the text in parentheses behind a macro without arguments. -/
theorem seen_without_comments {m : MacroDefinition} {as as' : List String} {behind behind' : String}
    (has : List.Forall₂ WithoutComments as as') (hbehind : WithoutComments behind behind')
    (h : m.ReadByParts as behind) (h' : m.ReadByParts as' behind') :
    seenOnLine (m.substitute as' ++ behind') = seenOnLine (m.substitute as ++ behind) := by
  have hbody := seenOnLine_substituteToken (map_seenOnLine has) (m.formals.getD [])
  calc seenOnLine (m.substitute as' ++ behind') = _ := h'
    _ = m.body.flatMap (fun t => seenOnLine (substituteToken (m.formals.getD []) as t)) ++
          seenOnLine behind := by simp only [hbody, hbehind.seenOnLine_eq]
    _ = seenOnLine (m.substitute as ++ behind) := h.symm

/-- The macro that adds two arguments. -/
def pair : MacroDefinition :=
  { ofText "PAIR" "x + y" with formals := some [⟨"x", none⟩, ⟨"y", none⟩] }

theorem seen_without_comments_pair :
    WithoutComments "b /* c */" "b" ∧ WithoutComments "d" "d" ∧ WithoutComments "" "" ∧
      pair.ReadByParts ["b /* c */", "d"] "" ∧ pair.ReadByParts ["b", "d"] "" ∧
      pair.substitute ["b /* c */", "d"] = "b /* c */ + d" ∧
      seenOnLine (pair.substitute ["b", "d"] ++ "") =
        seenOnLine (pair.substitute ["b /* c */", "d"] ++ "") := by
  have htoken (w : List Char) (k : SourceKind) (s : List Char)
      (h : firstMatch lexicon.classes (w ++ s) = some (k, w, s)) :
      lexicon.CutsOff (w ++ s) [(k, w)] s := .found h (.nil s)
  have hflat : flatten "b /* c */".toList = ['b', ' ', '/', '*', ' ', 'c', ' ', '*', '/'] := by
    decide +kernel
  have hcomment : Uncommented ['b', ' ', '/', '*', ' ', 'c', ' ', '*', '/'] ['b', ' ', ' '] :=
    .token (htoken ['b'] .identifier [' ', '/', '*', ' ', 'c', ' ', '*', '/'] (by decide +kernel))
      <|
      .token (htoken [' '] .whitespace ['/', '*', ' ', 'c', ' ', '*', '/'] (by decide +kernel)) <|
        .comment (b := []) (htoken ['/', '*', ' ', 'c', ' ', '*', '/'] .blockComment []
          (by decide +kernel)) (.inl rfl) (by simp) (by decide) .nil
  have hb : WithoutComments "b /* c */" "b" :=
    ⟨['b', ' ', ' '], hflat ▸ hcomment, by decide +kernel, by simp [isBlank, isSpace],
      by decide +kernel⟩
  have hflat : flatten "d".toList = ['d'] := by decide +kernel
  have hd : WithoutComments "d" "d" :=
    ⟨['d'], hflat ▸ .token (htoken ['d'] .identifier [] (by decide +kernel)) .nil,
      by decide +kernel, by simp [isBlank], by decide +kernel⟩
  have hnone : WithoutComments "" "" := ⟨[], .nil, by decide, by simp, by decide +kernel⟩
  have h : pair.ReadByParts ["b /* c */", "d"] "" := by decide +kernel
  have h' : pair.ReadByParts ["b", "d"] "" := by decide +kernel
  exact ⟨hb, hd, hnone, h, h', by decide +kernel,
    seen_without_comments (.cons hb (.cons hd .nil)) hnone h h'⟩

/-- **A comment up to the end of its line** takes in the rest of the use. -/
theorem seen_ne_commentedArgument :
    pair.substitute ["b // c", "d"] = "b // c + d" ∧ ¬ pair.ReadByParts ["b // c", "d"] "" ∧
      seenOnLine (pair.substitute ["b // c", "d"]) = [(.identifier, ['b'])] ∧
      seenOnLine (pair.substitute ["b", "d"]) =
        [(.identifier, ['b']), (.plus, ['+']), (.identifier, ['d'])] := by
  decide +kernel

end MacroDefinition

end Verilog
