import Verilog.Proofs.Directive.Complete
import Verilog.Proofs.Formula.Read
import Verilog.Proofs.Grammar.Room
import Verilog.Proofs.Lexing.Border
import Verilog.Proofs.Preprocess.Passage
import Verilog.Proofs.Preprocess.Plain

/-!
# A line that defines a macro

A line before a text is read by itself, and the text behind it as it would be without the line
(`Lexicon.pieces_append_cons`, `DirectiveGrammar.children_parse_append`). Here this is done for the
line that defines a macro as a text on one line. The macro it defines cannot be told apart from the
one that stands for the text (`alike_definitionOf`), although the blanks before the text belong to
its body.

What stands behind the line is a line further on. That shows only in a text that tells its lines,
and a text without the word for that does not (`DirectiveGrammar.tellsNoLine_parse`).
-/

namespace Verilog

open Pattern

/-! ### Texts on one line -/

/-- **Can a text stand behind a name**, with nothing beginning in it that goes past the end of the
line, and no comment? -/
structure OnLine (s : List Char) : Prop where
  newline : '\n' ∉ s
  backslash : '\\' ∉ s
  quote : '"' ∉ s
  slashes : ¬ ['/', '/'] <:+: s
  star : ¬ ['/', '*'] <:+: s

theorem OnLine.of_suffix {s u : List Char} (h : OnLine s) (hu : u <:+ s) : OnLine u where
  newline hc := h.newline (hu.subset hc)
  backslash hc := h.backslash (hu.subset hc)
  quote hc := h.quote (hu.subset hc)
  slashes hc := h.slashes (hc.trans hu.isInfix)
  star hc := h.star (hc.trans hu.isInfix)

/-- A blank may be put before. -/
theorem OnLine.blank {s : List Char} (h : OnLine s) : OnLine (' ' :: s) where
  newline := by simpa using h.newline
  backslash := by simpa using h.backslash
  quote := by simpa using h.quote
  slashes := by simpa [List.infix_cons_iff] using h.slashes
  star := by simpa [List.infix_cons_iff] using h.star

namespace Lexicon

variable {κ : Type} {lexicon : Lexicon κ} {c : Char} {s : List Char}

/-- If no class tells a character behind a text from its end, the first token is one of the text. -/
theorem firstMatch_append_cons {classes : List (Pattern × (List Char → κ))} {u : List Char}
    (rest : List Char)
    (h : ∀ cls ∈ classes, cls.1.split (u ++ c :: rest) = (cls.1.split u).map (behind (c :: rest))) :
    firstMatch classes (u ++ c :: rest) =
      (firstMatch classes u).map fun m => (m.1, m.2.1, m.2.2 ++ c :: rest) := by
  induction classes with
  | nil => rfl
  | cons cls classes ih =>
    obtain ⟨hcls, hclasses⟩ := List.forall_mem_cons.mp h
    rw [firstMatch, firstMatch, hcls]
    rcases cls.1.split u with _ | ⟨_ | ⟨_, _⟩, _⟩
    · exact ih hclasses
    · exact ih hclasses
    · rfl

/-- **A text before a character is cut by itself**, if to no class the character is other than the
end of the text. -/
theorem pieces_append_cons (rest : List Char)
    (h : ∀ u, u <:+ s → u ≠ [] → ∀ cls ∈ lexicon.classes,
      cls.1.split (u ++ c :: rest) = (cls.1.split u).map (behind (c :: rest))) :
    lexicon.pieces (s ++ c :: rest).length (s ++ c :: rest) =
      lexicon.pieces s.length s ++ lexicon.pieces (c :: rest).length (c :: rest) := by
  induction hn : s.length using Nat.strong_induction_on generalizing s with
  | _ n ih =>
    subst hn
    cases s with
    | nil => rfl
    | cons d s =>
      have hfirst := firstMatch_append_cons rest (h _ (List.suffix_refl _) (List.cons_ne_nil d s))
      cases hm : firstMatch lexicon.classes (d :: s) with
      | none =>
        rw [hm] at hfirst
        rw [List.cons_append] at hfirst ⊢
        rw [pieces_cons_of_none hfirst, pieces_cons_of_none hm, List.cons_append,
          ih s.length (Nat.lt_succ_self _) (fun u hu => h u (hu.trans (List.suffix_cons d s))) rfl]
      | some m =>
        obtain ⟨kind, x, r⟩ := m
        rw [hm] at hfirst
        have hlt := length_rest_lt hm
        obtain ⟨hx, -, -⟩ := firstMatch_spec hm
        rw [pieces_cons hfirst, pieces_cons hm, List.cons_append,
          ih r.length hlt (fun u hu => h u (hu.trans ⟨x, hx.symm⟩)) rfl]

end Lexicon

namespace DirectiveKind

open Lexicon

/-- To no class the end of a line is other than the end of a text on the line. -/
theorem split_append_newline {u : List Char} (hu : OnLine u) (hne : u ≠ []) (rest : List Char) :
    ∀ cls ∈ lexicon.classes,
      cls.1.split (u ++ '\n' :: rest) = (cls.1.split u).map (behind ('\n' :: rest)) := by
  obtain ⟨d, s, rfl⟩ := List.exists_cons_of_ne_nil hne
  have hnewline : '\n' ≠ d := fun h => hu.newline (h ▸ List.mem_cons_self)
  have hbackslash : '\\' ≠ d := fun h => hu.backslash (h ▸ List.mem_cons_self)
  have hquote : '"' ≠ d := fun h => hu.quote (h ▸ List.mem_cons_self)
  have hrefused {a : Pattern} (ha : a.Refuses d = true) :
      a.split (d :: s ++ '\n' :: rest) = (a.split (d :: s)).map (behind ('\n' :: rest)) := by
    rw [List.cons_append, split_of_refuses _ a ha, split_of_refuses _ a ha]
    rfl
  have hcomment {opener : List Char} (a : Pattern) (hopener : ¬ opener <:+: d :: s)
      (hfree : '\n' ∉ opener) : (seq (text opener) a).split (d :: s ++ '\n' :: rest) =
        ((seq (text opener) a).split (d :: s)).map (behind ('\n' :: rest)) := by
    have hnone : stripFront opener (d :: s) = none := by
      cases h : stripFront opener (d :: s) with
      | none => rfl
      | some r => exact absurd ⟨[], r, by simpa using (stripFront_eq_some h).symm⟩ hopener
    rw [split, split, split, split, stripFront_append_cons hfree, hnone]
    rfl
  intro cls hcls
  simp only [lexicon, List.mem_cons, List.not_mem_nil, or_false] at hcls
  rcases hcls with h | h | h | h | h | h | h | h | h | h | h | h | h | h | h | h | h | h | h | h |
    h | h <;> subst h
  case inr.inr.inr.inl => exact hrefused (by simp [Refuses, hbackslash])
  case inr.inr.inr.inr.inr.inl => exact hcomment _ hu.slashes (by decide)
  case inr.inr.inr.inr.inr.inr.inl => exact hcomment _ hu.star (by decide)
  case inr.inr.inr.inr.inr.inr.inr.inl => exact hrefused (by simp [quoted, Refuses, hquote])
  case inr.inr.inr.inr.inr.inr.inr.inr.inr.inr.inr.inl =>
    exact hrefused (by simp [Refuses, hnewline])
  all_goals exact split_of_endsAt (by decide) _ _

/-! ### The tokens of the line -/

theorem firstMatch_define (rest : List Char) : firstMatch lexicon.classes
    ("`define".toList ++ ' ' :: rest) = some (.define, "`define".toList, ' ' :: rest) := by
  rfl

theorem firstMatch_newline (rest : List Char) :
    firstMatch lexicon.classes ('\n' :: rest) = some (.newline, ['\n'], rest) := by
  rfl

/-- Blanks are one token. -/
theorem firstMatch_blanks {c : Char} (hc : isSpace c = true) (rest : List Char) :
    firstMatch lexicon.classes (c :: rest) =
      some (.spaces, c :: rest.takeWhile isSpace, rest.dropWhile isSpace) := by
  have hfront : ∀ cls ∈ lexicon.classes.take 10, cls.1.Refuses c = true := by
    have hcases : c = ' ' ∨ c = '\t' ∨ c = '\r' ∨ c = '\x0c' := by
      simpa [isSpace, or_assoc] using hc
    rcases hcases with rfl | rfl | rfl | rfl <;> decide
  exact (firstMatch_of_refuses hfront).trans (firstMatch_cons (split_one_seq hc rfl))

/-- A word that stands before a blank is one token. -/
theorem firstMatch_word_blank {w : List Char} (hw : isWord w = true) (rest : List Char) :
    firstMatch lexicon.classes (w ++ ' ' :: rest) = some (.identifier, w, ' ' :: rest) := by
  cases w with
  | nil => cases hw
  | cons c w =>
    obtain ⟨hc, hw⟩ : isNameStart c = true ∧ ∀ d ∈ w, isNameRest d = true := by
      simpa [isWord] using hw
    have hmatch : word.split (c :: (w ++ ' ' :: rest)) = some (c :: w, ' ' :: rest) :=
      split_one_seq hc (split_run hw (by simp; rfl))
    have hne {d : Char} (hd : isNameStart d = false) : d ≠ c := ne_of_class hc hd
    have hfront : ∀ cls ∈ lexicon.classes.take 8, cls.1.Refuses c = true := by
      simp [lexicon, Refuses, starComment, slashComment, quoted, escapedName, hne (d := '/') rfl,
        hne (d := '"') rfl, hne (d := '\\') rfl, hne (d := backquote) rfl]
    exact (firstMatch_of_refuses hfront).trans (firstMatch_cons hmatch)

end DirectiveKind

/-- The line that defines a macro as a text. -/
def definitionLine (name value : String) : String := "`define " ++ name ++ " " ++ value ++ "\n"

section

open Lexicon DirectiveKind

theorem signs_eq (text : String) : signs text =
    (lexicon.pieces text.toList.length text.toList).map fun x => (x.1, String.ofList x.2) :=
  lexicon.map_tokens (fun kind text => (kind, text)) text

variable {name value : String}

/-- **The line is cut by itself**: into its first words, the text with the blank before it, and the
line feed. -/
theorem signs_definitionLine_append (hname : isWord name.toList = true)
    (hvalue : OnLine value.toList) (text : String) :
    signs (definitionLine name value ++ text) =
      (.define, "`define") :: (.spaces, " ") :: (.identifier, name) ::
        (signs (" " ++ value) ++ (.newline, "\n") :: signs text) := by
  have htext : (definitionLine name value ++ text).toList = "`define".toList ++
      ' ' :: (name.toList ++ ' ' :: (value.toList ++ '\n' :: text.toList)) := by
    simp [definitionLine]
  have hblank : firstMatch lexicon.classes
      (' ' :: (name.toList ++ ' ' :: (value.toList ++ '\n' :: text.toList))) = some (.spaces, [' '],
        name.toList ++ ' ' :: (value.toList ++ '\n' :: text.toList)) := by
    refine (firstMatch_blanks rfl _).trans ?_
    cases hn : name.toList with
    | nil => rw [hn] at hname; cases hname
    | cons c w =>
      rw [hn, isWord, Bool.and_eq_true] at hname
      simp [isSpace_of_class hname.1 (by decide)]
  have hline := pieces_append_cons (s := ' ' :: value.toList) text.toList fun u hu hne =>
    split_append_newline (hvalue.blank.of_suffix hu) hne text.toList
  rw [List.cons_append] at hline
  simp only [signs_eq, htext, pieces_cons (firstMatch_define _), pieces_cons hblank,
    pieces_cons (firstMatch_word_blank hname _), hline, pieces_cons (firstMatch_newline _)]
  simp

/-- **A blank before a text** is a token with the blanks that the text begins with. -/
theorem exists_signs_blank (value : String) : ∃ blank more,
    (∀ c ∈ String.toList blank, isBlank c = true) ∧
    signs (" " ++ value) = (.spaces, " " ++ blank) :: more ∧
    (signs value = (.spaces, blank) :: more ∨ blank = "" ∧ signs value = more) := by
  have hblanks : ∀ c ∈ value.toList.takeWhile isSpace, isBlank c = true := fun c hc => by
    have hcases : c = ' ' ∨ c = '\t' ∨ c = '\r' ∨ c = '\x0c' := by
      simpa [isSpace, or_assoc] using List.mem_takeWhile_imp hc
    rcases hcases with rfl | rfl | rfl | rfl <;> decide
  have hmore : signs (String.ofList (value.toList.dropWhile isSpace)) = (lexicon.pieces
      (value.toList.dropWhile isSpace).length (value.toList.dropWhile isSpace)).map
        fun x => (x.1, String.ofList x.2) := by
    rw [signs_eq, String.toList_ofList]
  refine ⟨String.ofList (value.toList.takeWhile isSpace),
    signs (String.ofList (value.toList.dropWhile isSpace)), by simpa using hblanks, ?_, ?_⟩
  · rw [hmore, signs_eq, String.toList_append]
    change List.map _ (lexicon.pieces (' ' :: value.toList).length (' ' :: value.toList)) = _
    rw [pieces_cons (firstMatch_blanks rfl _), List.map_cons, String.ofList_cons]
    rfl
  · rw [hmore, signs_eq]
    cases hv : value.toList with
    | nil => exact .inr ⟨rfl, rfl⟩
    | cons c rest =>
      by_cases hc : isSpace c = true
      · rw [pieces_cons (firstMatch_blanks hc _), List.map_cons, List.takeWhile_cons_of_pos hc,
          List.dropWhile_cons_of_pos hc]
        exact .inl rfl
      · rw [List.takeWhile_cons_of_neg hc, List.dropWhile_cons_of_neg hc]
        exact .inr ⟨rfl, rfl⟩

end

/-! ### The macro that is defined -/

/-- Blanks before a text are trimmed away. -/
theorem trimText_append {blank : String} (h : ∀ c ∈ blank.toList, isBlank c = true)
    (text : String) : trimText (blank ++ text) = trimText text := by
  rw [trimText, trimText, String.toList_append, trim, trim, trimLeft, trimLeft,
    List.dropWhile_append_of_pos h]

namespace MacroDefinition

/-- The body that a text makes. -/
def bodyOf (text : String) : List BodyToken := (signs text).map fun sign => ⟨sign.1, sign.2⟩

theorem body_ofText (name value : String) : (ofText name value).body = bodyOf value := by
  simp [ofText, bodyOf, signs]

/-- **A blank before a body** is seen by nothing that trims what it makes of the body and leaves
blanks as they are. -/
theorem trimText_bodyOf_blank (value : String) {f : BodyToken → String}
    (hf : ∀ text, f ⟨.spaces, text⟩ = text) :
    trimText (String.join ((bodyOf (" " ++ value)).map f)) =
      trimText (String.join ((bodyOf value).map f)) := by
  obtain ⟨blank, more, hblank, hsigns, hvalue⟩ := exists_signs_blank value
  have hboth : ∀ c ∈ (" " ++ blank).toList, isBlank c = true := by
    simpa using ⟨by decide, hblank⟩
  rw [bodyOf, bodyOf, hsigns, List.map_cons, List.map_cons, hf, String.join_cons,
    trimText_append hboth]
  rcases hvalue with h | ⟨-, h⟩
  · rw [h, List.map_cons, List.map_cons, hf, String.join_cons, trimText_append hblank]
  · rw [h]

/-- **A macro whose body begins with a blank** cannot be told apart from the one without it. -/
theorem alike_ofText {m : MacroDefinition} {name value : String} (hname : m.name = name)
    (hformals : m.formals = none) (hbody : m.body = bodyOf (" " ++ value)) :
    Alike (ofText name value) m where
  name := hname.symm
  formals := hformals.symm
  bodyText := by
    rw [bodyText, bodyText, body_ofText, hbody]
    exact (trimText_bodyOf_blank value fun _ => rfl).symm
  substitute actuals := by
    rw [substitute, substitute, body_ofText, hbody, hformals]
    exact (trimText_bodyOf_blank value fun _ => rfl).symm

end MacroDefinition

/-! ### What tells of lines -/

namespace DirectiveKind

/-- A backquoted word is a directive or predefined text by its name. -/
theorem ofWord_mem (word : List Char) :
    ofWord word = .macroIdentifier ∨ (String.ofList word, ofWord word) ∈ keywords := by
  rw [ofWord]
  cases h : keywords.lookup (String.ofList word) with
  | none => exact .inl rfl
  | some kind =>
    obtain ⟨before, after, heq, -⟩ := List.lookup_eq_some_iff.mp h
    exact .inr (by rw [heq]; simp)

theorem ofWord_line (word : List Char) : ofWord word ≠ .newline ∧
    (ofWord word = .currentLine → word = "__LINE__".toList) := by
  have hall : ∀ w ∈ keywords, w.2 ≠ .newline ∧ (w.2 = .currentLine → w.1 = "__LINE__") := by
    decide
  rcases ofWord_mem word with h | h
  · rw [h]
    exact ⟨by decide, nofun⟩
  · obtain ⟨hnewline, hword⟩ := hall _ h
    exact ⟨hnewline, fun hline => by rw [← hword hline, String.toList_ofList]⟩

/-- One class gives the ends of lines, and one the backquoted words. -/
theorem classes_line : ∀ cls ∈ lexicon.classes, cls = (text ['\n'], fun _ => .newline) ∨
    cls = (seq (text [backquote]) word, fun s => ofWord s.tail) ∨
      ∀ s, cls.2 s ≠ .newline ∧ cls.2 s ≠ .currentLine := by
  intro cls hcls
  simp only [lexicon, List.mem_cons, List.not_mem_nil, or_false] at hcls
  rcases hcls with h | h | h | h | h | h | h | h | h | h | h | h | h | h | h | h | h | h | h | h |
    h | h <;> subst h
  case inr.inr.inl => exact .inr (.inl rfl)
  any_goals exact .inl rfl
  all_goals exact .inr (.inr fun _ => by simp)

end DirectiveKind

/-- The end of a line and the word for its number are tokens with just these texts. -/
theorem DirectiveToken.text_of_line {s : String} {t : DirectiveToken} (ht : t ∈ ofText s) :
    (t.kind = .newline → t.text.toList = ['\n']) ∧
      (t.kind = .currentLine → t.text.toList = "`__LINE__".toList) := by
  rcases Lexicon.class_of_mem_tokens ht with ⟨h, -⟩ | ⟨cls, hcls, input, rest, hsplit, hkind, -⟩
  · rw [h]
    exact ⟨nofun, nofun⟩
  · rcases DirectiveKind.classes_line cls hcls with rfl | rfl | h
    · simp only [split, Option.map_eq_some_iff, Prod.mk.injEq] at hsplit
      obtain ⟨-, -, h, -⟩ := hsplit
      exact ⟨fun _ => h.symm, fun hline => nomatch hkind.trans hline⟩
    · obtain ⟨w, hw⟩ : ∃ w, t.text.toList = backquote :: w := by
        rw [split, split] at hsplit
        cases hs : stripFront [backquote] input with
        | none =>
          rw [hs] at hsplit
          cases hsplit
        | some input =>
          simp only [hs, Option.map_some, Option.map_eq_some_iff, Prod.mk.injEq] at hsplit
          obtain ⟨r, -, h, -⟩ := hsplit
          exact ⟨r.1, h.symm⟩
      rw [hw] at hkind ⊢
      obtain ⟨hnewline, hline⟩ := DirectiveKind.ofWord_line w
      refine ⟨fun h => absurd (hkind.trans h) hnewline, fun h => ?_⟩
      rw [hline (hkind.trans h)]
      rfl
    · exact ⟨fun hk => absurd (hkind.trans hk) (h _).1, fun hk => absurd (hkind.trans hk) (h _).2⟩

/-- What the text of a token contains, the text contains. -/
theorem Lexicon.infix_of_mem_tokens {κ : Type} {lexicon : Lexicon κ} {s : String} {t : Token κ}
    (ht : t ∈ lexicon.tokens s) : t.text.toList <:+: s.toList := by
  obtain ⟨before, after, htokens⟩ := List.append_of_mem ht
  rw [← lexicon.flatMap_tokens s, htokens, List.flatMap_append, List.flatMap_cons]
  exact ⟨_, _, List.append_assoc _ _ _⟩

/-- In a text that does not contain the word for the number of its line, no token is the word. -/
theorem DirectiveToken.kind_ne_currentLine {s : String} (h : ¬ "`__LINE__".toList <:+: s.toList) :
    ∀ t ∈ ofText s, t.kind ≠ .currentLine := fun t ht hk => by
  have hcontained := Lexicon.infix_of_mem_tokens ht
  rw [(text_of_line ht).2 hk] at hcontained
  exact h hcontained

/-- A text on one line has no token that goes past the line. -/
theorem OnLine.kind_of_mem {s : String} {t : DirectiveToken} (hs : OnLine s.toList)
    (ht : t ∈ DirectiveToken.ofText s) : t.kind ≠ .newline ∧ t.kind ≠ .lineContinuation := by
  have hsub := (Lexicon.infix_of_mem_tokens ht).subset
  refine ⟨fun hk => hs.newline (hsub ?_), fun hk => hs.backslash (hsub ?_)⟩
  · rw [(DirectiveToken.text_of_line ht).1 hk]
    exact List.mem_cons_self
  · rcases DirectiveToken.text_of_continuation ht hk with h | h <;> rw [h] <;>
      exact List.mem_cons_self

namespace DirectiveGrammar

open Grammar

/-- A piece that tells its line begins with the word for it. -/
theorem currentLine_of_piece {callee : DirectiveRule → Runner DirectiveKind} {c next trees}
    (h : (piece.run callee).Succeeds c trees next)
    (ht : ∃ t ∈ trees, t.kind? = some .ppSvLineDirective) : ∃ i, (i, .currentLine) ∈ c.rest := by
  have hnode {kind : NodeKind} {g : DirectiveGrammar} (hk : kind ≠ .ppSvLineDirective)
      (h : ((node kind g).run callee).Succeeds c trees next) : ∃ i, (i, .currentLine) ∈ c.rest := by
    obtain ⟨ts, rfl, -⟩ := Runner.Succeeds.of_map h
    simp [ParseTree.kind?, hk] at ht
  obtain ⟨g, hg, h⟩ := exists_of_choice h
  simp only [List.mem_cons, List.not_mem_nil, or_false] at hg
  rcases hg with rfl | rfl | rfl | rfl | rfl | rfl | rfl | rfl | rfl | rfl | rfl | rfl | rfl |
    rfl | rfl | rfl | rfl | rfl | rfl | rfl
  case inl =>
    obtain ⟨ts, rfl, -⟩ := Runner.Succeeds.of_map h
    simp only [List.mem_singleton, exists_eq_left, ParseTree.kind?, definitionKind] at ht
    split at ht <;> cases ht
  case inr.inr.inr.inr.inr.inr.inr.inr.inr.inr.inr.inr.inr.inr.inr.inr.inl =>
    obtain ⟨ts, rfl, htoken⟩ := Runner.Succeeds.of_map h
    obtain ⟨i, k, hrest, -, -, hk⟩ := Runner.Succeeds.of_token htoken
    obtain rfl : k = .currentLine := by simpa using hk
    exact ⟨i, hrest ▸ List.mem_cons_self⟩
  case inr.inr.inr.inr.inr.inr.inr.inr.inr.inr.inr.inr.inr.inr.inr.inr.inr.inl =>
    rcases Runner.Succeeds.of_alt h with h | h
    · exact hnode (by decide) h
    · exact hnode (by decide) h
  case inr.inr.inr.inr.inr.inr.inr.inr.inr.inr.inr.inr.inr.inr.inr.inr.inr.inr.inr =>
    obtain ⟨i, k, -, -, rfl, -⟩ := Runner.Succeeds.of_token h
    simp [ParseTree.kind?] at ht
  all_goals exact hnode (by decide) h

/-- **Nothing tells its line** in a text without the word for it. -/
theorem tellsNoLine_parse {tokens : List DirectiveToken}
    (h : ∀ t ∈ tokens, t.kind ≠ .currentLine) :
    ∀ t ∈ (parse tokens).children, t.kind? ≠ some .ppSvLineDirective := by
  obtain ⟨recovered, ts, next, beyond, hmany, -, hparse⟩ := run_eq tokens
  rw [parse_of_run hparse]
  have hturns {c ts next}
      (hts : Runner.Turns (piece.run (runRef rules (tokens.length + 1))).Succeeds c ts next)
      (ht : ∃ t ∈ ts, t.kind? = some .ppSvLineDirective) :
      ∃ i, (i, .currentLine) ∈ c.rest := by
    induction hts with
    | nil c => simp at ht
    | cons hpiece _ ih =>
      obtain ⟨used, hused⟩ := Runner.Covers.covered (covers_piece _) hpiece
      obtain ⟨t, hmem, hkind⟩ := ht
      rcases List.mem_append.mp hmem with hmem | hmem
      · exact currentLine_of_piece hpiece ⟨t, hmem, hkind⟩
      · obtain ⟨i, hi⟩ := ih ⟨t, hmem, hkind⟩
        exact ⟨i, hused.rest ▸ List.mem_append_right _ hi⟩
  intro t ht hkind
  obtain ⟨i, hi⟩ := hturns (Runner.Succeeds.of_many ⟨_, _, hmany⟩) ⟨t, ht, hkind⟩
  obtain ⟨u, hu, heq⟩ := List.mem_map.mp hi
  exact h u.1 (List.fst_mem_of_mem_zipIdx hu) (congrArg Prod.snd heq)

end DirectiveGrammar

/-! ### The pieces of the line -/

namespace DirectiveGrammar

open Grammar Runner ParseTree

/-- The piece that defines a macro, by the positions of its tokens. -/
def definitionPiece (i j k : Nat) (body : List Nat) : ParseTree :=
  .node .ppSimpleNoArgsMacroDefinition [.leaf i, .leaf j, .node .ppPsIdentifier [.leaf k],
    .node .ppSimpleMacroDefinitionBody (body.map .leaf)]

variable (callee : DirectiveRule → Runner DirectiveKind)

/-- Tokens of a class up to one that is not of it. -/
theorem takes_many_tokenIn {p : DirectiveKind → Bool} {vs rest : List (Nat × DirectiveKind)}
    (hvs : ∀ v ∈ vs, p v.2 = true) (hrest : ∀ v ∈ rest.head?, p v.2 = false) :
    ((many 0 (tokenIn p) : DirectiveGrammar).run callee).Takes (vs ++ rest) rest
      (vs.map (.leaf ·.1)) := by
  refine Steps.many ?_ (refuses_token hrest)
  induction vs with
  | nil => exact .nil rest
  | cons v vs ih =>
    obtain ⟨hv, hvs⟩ := List.forall_mem_cons.mp hvs
    exact .cons (takes_token v.1 _ hv) (Nat.lt_succ_self _) (ih hvs)

/-- **The line of a definition** is a piece up to its end, if a blank stands behind the name. -/
theorem takes_macroDefinition {i j k m n : Nat} {body rest : List (Nat × DirectiveKind)}
    (hbody : ∀ v ∈ body, v.2 ≠ .newline ∧ v.2 ≠ .lineContinuation) :
    (macroDefinition.run callee).Takes
      ((i, .define) :: (j, .spaces) :: (k, .identifier) :: (m, .spaces) :: (body ++
        (n, .newline) :: rest)) ((n, .newline) :: rest)
      [definitionPiece i j k (m :: body.map (·.1))] := by
  have hdefine : ((Grammar.token .define : DirectiveGrammar).run callee).Takes
      ((i, .define) :: (j, .spaces) :: (k, .identifier) :: (m, .spaces) :: (body ++
        (n, .newline) :: rest)) _ [.leaf i] := takes_token i _ rfl
  have hspaces : (spaces.run callee).Takes
      ((j, .spaces) :: (k, .identifier) :: (m, .spaces) :: (body ++ (n, .newline) :: rest))
      ((k, .identifier) :: (m, .spaces) :: (body ++ (n, .newline) :: rest)) [.leaf j] :=
    Steps.many (.cons (takes_token j _ rfl) (Nat.lt_succ_self _) (.nil _))
      (refuses_token (by simp))
  have hname : (macroName.run callee).Takes
      ((k, .identifier) :: (m, .spaces) :: (body ++ (n, .newline) :: rest))
      ((m, .spaces) :: (body ++ (n, .newline) :: rest)) [.node .ppPsIdentifier [.leaf k]] :=
    ((takes_token k _ rfl).map _).alt _
  have hformals : ((opt formalArguments).run callee).Takes
      ((m, .spaces) :: (body ++ (n, .newline) :: rest))
      ((m, .spaces) :: (body ++ (n, .newline) :: rest)) [] :=
    (refuses_run callee rfl formalArguments rfl).opt
  -- what is on the line does not go on on the next one, so the body is not one of several lines
  have hline {p : DirectiveKind → Bool}
      (hp : ∀ k, k ≠ .newline ∧ k ≠ .lineContinuation → p k = true)
      (hnewline : p .newline = false) :
      ((many 0 (tokenIn p) : DirectiveGrammar).run callee).Takes
        ((m, .spaces) :: (body ++ (n, .newline) :: rest)) ((n, .newline) :: rest)
        (((m, .spaces) :: body).map (.leaf ·.1)) := by
    have hall : ∀ v ∈ (m, DirectiveKind.spaces) :: body, p v.2 = true :=
      List.forall_mem_cons.mpr ⟨hp _ ⟨nofun, nofun⟩, fun v hv => hp _ (hbody v hv)⟩
    exact takes_many_tokenIn callee hall (by simpa using hnewline)
  have hmacroBody : (macroBody.run callee).Takes
      ((m, .spaces) :: (body ++ (n, .newline) :: rest)) ((n, .newline) :: rest)
      [.node .ppSimpleMacroDefinitionBody (((m, .spaces) :: body).map (.leaf ·.1))] := by
    refine Refuses.altTakes (Refuses.map ?_ _) (Takes.map (hline ?_ rfl) _)
    · exact (hline (fun k hk => by simp [hk.1, hk.2]) rfl).seqRefuses
        ((refuses_token (by simp)).seq _)
    · exact fun k hk => by simp [hk.1]
  have hall := (hdefine.seq (hspaces.seq (hname.seq (hformals.seq hmacroBody)))).map
    fun parts => [.node (definitionKind parts) parts]
  have hkind : definitionKind ([.leaf i] ++ ([.leaf j] ++ ([.node .ppPsIdentifier [.leaf k]] ++
      ([] ++ [.node .ppSimpleMacroDefinitionBody (((m, .spaces) :: body).map (.leaf ·.1))])))) =
        .ppSimpleNoArgsMacroDefinition := rfl
  have hbodyMap : body.map (fun v => leaf v.1) = (body.map (·.1)).map leaf := by
    rw [List.map_map]
    rfl
  rw [hkind, List.map_cons, hbodyMap] at hall
  exact hall

/-! ### Texts behind a line -/

theorem definitionKind_renameAll (ρ : Nat → Nat) (ts : List ParseTree) :
    definitionKind (renameAll ρ ts) = definitionKind ts := by
  have hany (k : NodeKind) : (renameAll ρ ts).any (·.isNode k) = ts.any (·.isNode k) := by
    simp [renameAll_eq, isNode, Function.comp_def]
  rw [definitionKind, definitionKind, hany, hany]

theorem natural_piece (ρ : Nat → Nat) : piece.Natural ρ := by
  have hregroupings : piece.regroupings = [fun parts => [.node (definitionKind parts) parts]] := rfl
  refine ⟨fun f hf ts => ?_, rfl⟩
  rw [hregroupings] at hf
  obtain rfl := List.mem_singleton.mp hf
  dsimp only
  rw [definitionKind_renameAll]
  rfl

theorem renameTokens_numbered (n m : Nat) (ts : List DirectiveToken) :
    renameTokens (n + ·) (numbered m ts) = numbered (n + m) ts := by
  induction ts generalizing m with
  | nil => rfl
  | cons t ts ih => rw [numbered_cons, numbered_cons, renameTokens_cons, ih]; rfl

/-- **What stands behind some pieces is read by itself.** -/
theorem children_parse_append {front tokens : List DirectiveToken} {ts : List ParseTree}
    (h : ∀ callee, (piece.run callee).Steps (numbered 0 (front ++ tokens))
      (numbered front.length tokens) ts) : (parse (front ++ tokens)).children =
        ts ++ (parse tokens).children.map (·.rename (front.length + ·)) := by
  set few := runRef rules (tokens.length + 1)
  set many := runRef rules ((front ++ tokens).length + 1)
  obtain ⟨recovered, us, next, beyond, hmany, hend, hparse⟩ := run_eq tokens
  have hkeeps (x : DirectiveRule) : (rules x).keeps isComma = true := by cases x; rfl
  have hpiece : piece.keeps isComma = true := rfl
  have hguarded (x : DirectiveRule) : (rules x).guarded = true := by cases x; rfl
  have hfuel : tokens.length + 1 ≤ (front ++ tokens).length + 1 := by simp
  have halike : (piece.run few).Alike (tokens.length + 1) true (piece.run many) :=
    (alike_run (alike_runRef hkeeps hguarded (Nat.le_refl _) hfuel) hpiece).mono
      (Nat.le_add_right _ _)
  have hstrict (c recovered ts next beyond)
      (hrun : piece.run many c = .ok recovered ts next beyond) : recovered = [] := by
    have hclean : (piece.run many c).Clean := strict_run (strict_runRef hkeeps _) hpiece c
    rw [hrun] at hclean
    cases hclean
    rfl
  have hlength : (numbered 0 tokens).length < tokens.length + 1 := by simp [numbered]
  have hsteps : (piece.run many).Steps (numbered 0 tokens) [] us := by
    rw [← hend]
    exact Turns.steps rfl halike hstrict (Succeeds.of_many ⟨_, _, hmany⟩) hlength
  have huniform : (piece.run many).Uniform (front.length + ·) :=
    uniform_run (uniform_runRef (fun x => by
      cases x
      exact ⟨fun _ hf => absurd hf List.not_mem_nil, rfl⟩) _) (natural_piece _)
  have hbehind := hsteps.rename huniform
  rw [renameTokens_numbered, Nat.add_zero] at hbehind
  have htext : (text.run many).Takes (numbered 0 (front ++ tokens)) []
      [.node .ppTopLevelRule (ts ++ renameAll (front.length + ·) us)] :=
    (((h many).trans hbehind).many (refuses_run many rfl piece rfl)).map _
  have hwhole : Grammar.parse rules text (numbered 0 (front ++ tokens)) =
      (some [.node .ppTopLevelRule (ts ++ renameAll (front.length + ·) us)], []) :=
    parse_of_takes (by simpa [numbered, many] using htext)
  rw [parse_of_run hwhole, parse_of_run hparse, renameAll_eq]
  rfl

/-- The tree of tokens hangs on their kinds. -/
theorem parse_congr {ts us : List DirectiveToken} (h : ts.map (·.kind) = us.map (·.kind)) :
    parse ts = parse us := by
  have hnumbered (ts : List DirectiveToken) : ts.zipIdx.map (fun t => (t.2, t.1.kind)) =
      (ts.map (·.kind)).zipIdx.map fun k => (k.2, k.1) := by
    rw [List.zipIdx_map, List.map_map]
    rfl
  rw [parse, parse, hnumbered, hnumbered, h]

theorem numbered_append (n : Nat) (ts us : List DirectiveToken) :
    numbered n (ts ++ us) = numbered n ts ++ numbered (n + ts.length) us := by
  rw [numbered, List.zipIdx_append, List.map_append]
  rfl

/-- **The line of a definition** is two pieces: the definition, and the end of the line. -/
theorem steps_definitionLine (tokens : List DirectiveToken) {t₀ t₁ t₂ t₃ last : DirectiveToken}
    {body : List DirectiveToken}
    (h₀ : t₀.kind = .define) (h₁ : t₁.kind = .spaces) (h₂ : t₂.kind = .identifier)
    (h₃ : t₃.kind = .spaces) (hlast : last.kind = .newline)
    (hbody : ∀ t ∈ body, t.kind ≠ .newline ∧ t.kind ≠ .lineContinuation) :
    (piece.run callee).Steps (numbered 0 (t₀ :: t₁ :: t₂ :: t₃ :: (body ++ last :: tokens)))
      (numbered (body.length + 5) tokens)
      [definitionPiece 0 1 2 (List.range' 3 (body.length + 1)), .leaf (body.length + 4)] := by
  have hnumbered : numbered 0 (t₀ :: t₁ :: t₂ :: t₃ :: (body ++ last :: tokens)) =
      (0, .define) :: (1, .spaces) :: (2, .identifier) :: (3, .spaces) :: (numbered 4 body ++
        (body.length + 4, .newline) :: numbered (body.length + 5) tokens) := by
    simp only [numbered_cons, numbered_append, h₀, h₁, h₂, h₃, hlast, Nat.zero_add, Nat.reduceAdd]
    rw [Nat.add_comm 4]
  have hkinds : ∀ v ∈ numbered 4 body, v.2 ≠ .newline ∧ v.2 ≠ .lineContinuation := fun v hv => by
    obtain ⟨t, ht, rfl⟩ := List.mem_map.mp hv
    exact hbody t.1 (List.fst_mem_of_mem_zipIdx ht)
  have hpositions : 3 :: (numbered 4 body).map (·.1) = List.range' 3 (body.length + 1) := by
    rw [map_fst_numbered, List.range'_succ]
  rw [hnumbered, ← hpositions]
  have hdefinition : (piece.run callee).Takes
      ((0, .define) :: (1, .spaces) :: (2, .identifier) :: (3, .spaces) :: (numbered 4 body ++
        (body.length + 4, .newline) :: numbered (body.length + 5) tokens))
      ((body.length + 4, .newline) :: numbered (body.length + 5) tokens)
      [definitionPiece 0 1 2 (3 :: (numbered 4 body).map (·.1))] :=
    takes_choice callee rfl 0 rfl rfl (takes_macroDefinition callee hkinds)
  exact .cons hdefinition (by simp; omega)
    (.cons (takes_ordinary callee (_, .newline) _ rfl) (Nat.lt_succ_self _) (.nil _))

end DirectiveGrammar

/-! ### Texts that begin with the line -/

section

variable {name value : String}

/-- The number of tokens of the body of a macro that is defined as a text, but for the first. -/
def moreInBody (value : String) : Nat := (signs (" " ++ value)).length - 1

theorem length_signs_blank (value : String) :
    (signs (" " ++ value)).length = moreInBody value + 1 := by
  obtain ⟨blank, more, -, hsigns, -⟩ := exists_signs_blank value
  rw [moreInBody, hsigns, List.length_cons, Nat.add_sub_cancel]

/-- The piece that defines the macro, in a text that begins with the line. -/
def firstDefinition (value : String) : ParseTree :=
  DirectiveGrammar.definitionPiece 0 1 2 (List.range' 3 (moreInBody value + 1))

/-- **The pieces of a text behind the line of a definition** are its own, only further on. -/
theorem piecesOf_definitionLine_append (hname : isWord name.toList = true)
    (hvalue : OnLine value.toList) (text : String) :
    piecesOf (definitionLine name value ++ text) = firstDefinition value ::
      .leaf (moreInBody value + 4) ::
        (piecesOf text).map (·.rename (moreInBody value + 5 + ·)) := by
  have hsigns := signs_definitionLine_append hname hvalue text
  obtain ⟨blank, more, -, hblank, -⟩ := exists_signs_blank value
  have hmore : moreInBody value = more.length := by
    rw [moreInBody, hblank, List.length_cons, Nat.add_sub_cancel]
  have hline (sign : DirectiveKind × String) (hsign : sign ∈ more) :
      sign.1 ≠ .newline ∧ sign.1 ≠ .lineContinuation := by
    have hmem : sign ∈ signs (" " ++ value) := hblank ▸ List.mem_cons_of_mem _ hsign
    obtain ⟨t, ht, rfl⟩ := List.mem_map.mp hmem
    exact OnLine.kind_of_mem (by simpa using hvalue.blank) ht
  rw [hblank, List.cons_append, signs] at hsigns
  -- the tokens of the whole text one by one
  obtain ⟨t₀, _, htokens, h₀, hsigns⟩ := List.map_eq_cons_iff.mp hsigns
  obtain ⟨t₁, _, rfl, h₁, hsigns⟩ := List.map_eq_cons_iff.mp hsigns
  obtain ⟨t₂, _, rfl, h₂, hsigns⟩ := List.map_eq_cons_iff.mp hsigns
  obtain ⟨t₃, _, rfl, h₃, hsigns⟩ := List.map_eq_cons_iff.mp hsigns
  obtain ⟨body, _, rfl, rfl, hbehind⟩ := List.map_eq_append_iff.mp hsigns
  obtain ⟨last, tokens, rfl, hlast, htext⟩ := List.map_eq_cons_iff.mp hbehind
  have hsteps (callee : DirectiveRule → Runner DirectiveKind) :=
    DirectiveGrammar.steps_definitionLine callee tokens (congrArg Prod.fst h₀)
      (congrArg Prod.fst h₁) (congrArg Prod.fst h₂) (congrArg Prod.fst h₃)
      (congrArg Prod.fst hlast) fun t ht => hline _ (List.mem_map_of_mem ht)
  have hfront : t₀ :: t₁ :: t₂ :: t₃ :: (body ++ last :: tokens) =
      t₀ :: t₁ :: t₂ :: t₃ :: (body ++ [last]) ++ tokens := by simp
  have hlength : (t₀ :: t₁ :: t₂ :: t₃ :: (body ++ [last])).length = body.length + 5 := by simp
  have hkinds : tokens.map (·.kind) = (DirectiveToken.ofText text).map (·.kind) := by
    simpa [signs, Function.comp_def] using congrArg (List.map Prod.fst) htext
  rw [hfront, ← hlength] at hsteps
  rw [piecesOf, htokens, hfront, DirectiveGrammar.children_parse_append hsteps, hlength,
    DirectiveGrammar.parse_congr hkinds, firstDefinition, hmore, List.length_map]
  rfl

theorem holds_definitionLine_append (hname : isWord name.toList = true)
    (hvalue : OnLine value.toList) (text : String) :
    Holds (definitionLine name value ++ text) (moreInBody value + 5) text := by
  intro i hi
  have hsplit : (DirectiveKind.define, "`define") :: (.spaces, " ") :: (.identifier, name) ::
      (signs (" " ++ value) ++ (.newline, "\n") :: signs text) =
        ((DirectiveKind.define, "`define") :: (.spaces, " ") :: (.identifier, name) ::
          (signs (" " ++ value) ++ [(.newline, "\n")])) ++ signs text := by simp
  rw [signs_definitionLine_append hname hvalue, hsplit, List.getElem?_append_right (by
    simp [length_signs_blank])]
  congr 1
  simp [length_signs_blank]

section

open DirectiveText

variable {d : DirectiveText}

/-- The tokens of a tree, by what is said of them wherever they stand. -/
theorem map_tokensOf_of_signs {t : ParseTree} (ss : List (DirectiveKind × String))
    (h : t.leaves.map d.sign? = ss.map some) :
    (d.tokensOf t).map (fun token => (token.kind, token.text)) = ss := by
  rw [map_tokensOf, h]
  change (ss.map some).filterMap id = ss
  simp [List.filterMap_map]

variable {text : String} (hd : ∀ i, d.sign? i = (signs (definitionLine name value ++ text))[i]?)
  (hname : isWord name.toList = true) (hvalue : OnLine value.toList)

include hd hname hvalue

/-- The tokens of the line up to its end. -/
theorem map_sign?_firstDefinition : (firstDefinition value).leaves.map d.sign? =
    ((DirectiveKind.define, "`define") :: (.spaces, " ") :: (.identifier, name) ::
      signs (" " ++ value)).map some := by
  have hleaves (is : List Nat) : ParseTree.leavesAll (is.map .leaf) = is := by
    induction is with
    | nil => rfl
    | cons i is ih => rw [List.map_cons, ParseTree.leavesAll, ih]; rfl
  have hbody : (List.range' 3 (moreInBody value + 1)).map d.sign? =
      (signs (" " ++ value)).map some := by
    refine List.ext_getElem? fun i => ?_
    rw [← length_signs_blank]
    by_cases hi : i < (signs (" " ++ value)).length
    · simp [hi, hd, signs_definitionLine_append hname hvalue, Nat.add_comm 3,
        List.getElem?_append_left]
    · simp [hi]
  have hfront : [0, 1, 2].map d.sign? =
      [some (.define, "`define"), some (.spaces, " "), some (.identifier, name)] := by
    simp [hd, signs_definitionLine_append hname hvalue]
  simp only [List.map_cons, List.map_nil, List.cons.injEq, and_true] at hfront
  simp [firstDefinition, DirectiveGrammar.definitionPiece, ParseTree.leaves, ParseTree.leavesAll,
    hleaves, hbody, hfront]

/-- The line names the macro. -/
theorem macroNameOf_firstDefinition : d.macroNameOf (firstDefinition value) = some name := by
  have hleaf : d.sign? 2 = some (.identifier, name) := by
    rw [hd, signs_definitionLine_append hname hvalue]
    rfl
  have htokens := map_tokensOf_of_signs (d := d) (t := .node .ppPsIdentifier [.leaf 2])
    [(.identifier, name)] (by simp [ParseTree.leaves, ParseTree.leavesAll, hleaf])
  have htexts : (d.tokensOf (.node .ppPsIdentifier [.leaf 2])).map (·.text) = [name] := by
    simpa [Function.comp_def] using congrArg (List.map Prod.snd) htokens
  have hword : d.trimmedTextOf (.node .ppPsIdentifier [.leaf 2]) = name := by
    rw [trimmedTextOf, textOf, htexts]
    simpa using trimText_word (isNameRest_of_isWord hname)
  exact congrArg some hword

/-- The line goes past no line feed but the one at its end. -/
theorem newlinesIn_firstDefinition : d.newlinesIn (firstDefinition value) = 0 := by
  have htokens := map_tokensOf_of_signs _ (map_sign?_firstDefinition hd hname hvalue)
  have hfree : ∀ sign ∈ (DirectiveKind.define, "`define") :: (.spaces, " ") ::
      (.identifier, name) :: signs (" " ++ value), '\n' ∉ sign.2.toList := by
    simp only [List.forall_mem_cons]
    refine ⟨by decide, by decide, fun hc => ?_, fun sign hsign hc => ?_⟩
    · exact absurd (isNameRest_of_isWord hname _ hc) (by decide)
    · obtain ⟨u, hu, rfl⟩ := List.mem_map.mp hsign
      have hline : OnLine (" " ++ value).toList := by simpa using hvalue.blank
      exact hline.newline ((Lexicon.infix_of_mem_tokens hu).subset hc)
  rw [← htokens, List.forall_mem_map] at hfree
  have hnone : ∀ token ∈ d.tokensOf (firstDefinition value), token.newlineCount = 0 :=
    fun token htoken => List.count_eq_zero.mpr (hfree token htoken)
  rw [newlinesIn]
  generalize d.tokensOf _ = tokens at hnone
  induction tokens with
  | nil => rfl
  | cons token tokens ih =>
    obtain ⟨htoken, hrest⟩ := List.forall_mem_cons.mp hnone
    rw [List.foldl_cons, htoken]
    exact ih hrest

/-- **The macro that the line defines** cannot be told apart from the one that stands for the
text. -/
theorem alike_definitionOf (node : NodeId) : (MacroDefinition.ofText name value).Alike
    (d.definitionOf name node (firstDefinition value)) := by
  set body := (List.range' 3 (moreInBody value + 1)).map ParseTree.leaf with hbody
  set t := firstDefinition value with ht
  have hsigns : (ParseTree.node .ppSimpleMacroDefinitionBody body).leaves.map d.sign? =
      (signs (" " ++ value)).map some := by
    have hall := congrArg (List.drop 3) (map_sign?_firstDefinition hd hname hvalue)
    simpa [firstDefinition, DirectiveGrammar.definitionPiece, ParseTree.leaves, ParseTree.leavesAll,
      hbody] using hall
  have hfind : t.children.find? (fun c => c.isNode .ppSimpleMacroDefinitionBody ||
      c.isNode .ppEscapedMacroDefinitionBody) =
        some (.node .ppSimpleMacroDefinitionBody body) := rfl
  have hformals : d.formalsOf t = none := rfl
  have htokens := congrArg (List.map fun sign => (⟨sign.1, sign.2⟩ : BodyToken))
    (map_tokensOf_of_signs _ hsigns)
  rw [List.map_map] at htokens
  refine MacroDefinition.alike_ofText rfl hformals ?_
  rw [definitionOf]
  dsimp only
  rw [hfind, Option.map_some, Option.getD_some]
  exact htokens

end

end

end Verilog
