import Verilog.Proofs.Lexing.LineEnds
import Verilog.Proofs.Preprocess.Plain
import Verilog.Proofs.Source.Feeds
import Verilog.Proofs.Syntax.Transparent

/-!
# Line feeds and carriage returns

The grammar does not see the ends of lines, so it should not matter how lines end. Nor does it, to
the lexicon of source text, as long as strings stay on their lines; and a string that goes on in a
next line is none with carriage returns (`seenTokens_withReturns_iff`).

A text is preprocessed before, and copied if neither a directive nor a macro use stands in it. Some
of the lines in the copy have lost their carriage returns, those behind which a backslash continues
the line. All others end as they did, if strings stay on their lines to the preprocessor too, so
that the grammar sees the same in both copies (`ignores_returns`).
-/

namespace Verilog

open Lexicon Pattern

/-! ### Source text -/

namespace SourceKind

/-- Two first tokens look the same to the grammar, and what follows is the same but for carriage
returns. -/
structure SeenAlike (m m' : SourceKind × List Char × List Char) : Prop where
  kind : m'.1 = m.1
  lexeme : m.1.isHidden = true ∨ m'.2.1 = m.2.1
  rest : WithReturns m.2.2 m'.2.2

variable {s t : List Char} {c : Char}

/-- **The first tokens** of two texts that begin with the same character, but a line feed. -/
theorem firstMatch_seenAlike (hn : c ≠ '\n') (hr : c ≠ '\r') (h : WithReturns s t)
    (hquoted : ∀ m, quoted.split (c :: s) = some m → '\n' ∉ m.1) :
    Option.Rel SeenAlike (firstMatch lexicon.classes (c :: s))
      (firstMatch lexicon.classes (c :: t)) := by
  have hcons : WithReturns (c :: s) (c :: t) := .char hr h
  have hsteady {a : Pattern} {kindOf : List Char → SourceKind} (ha : a.IsSteady = true)
      (hline : a.Excludes '\n' = true) :
      Option.Rel (fun m m' => SeenAlike (kindOf m.1, m) (kindOf m'.1, m'))
        (a.split (c :: s)) (a.split (c :: t)) := by
    refine rel_imp (cuts_of_isSteady ha hcons) fun m hm m' h => ?_
    have hlexeme : m'.1 = m.1 := h.lexeme.eq_of_not_mem (not_mem_of_excludes hline hm)
    exact ⟨congrArg kindOf hlexeme, .inr hlexeme, h.rest⟩
  have hhidden {a : Pattern} {kind : SourceKind} (hk : kind.isHidden = true)
      (hm : Option.Rel Meets (a.split (c :: s)) (a.split (c :: t))) :
      Option.Rel (fun m m' => SeenAlike (kind, m) (kind, m'))
        (a.split (c :: s)) (a.split (c :: t)) :=
    rel_imp hm fun _ _ _ h => ⟨rfl, .inl hk, h.rest⟩
  refine firstMatch_rel consuming_lexicon fun cls hcls => ?_
  rcases List.mem_append.mp hcls with hcls | hcls
  · simp only [List.mem_cons, List.not_mem_nil, or_false] at hcls
    rcases hcls with h | h | h | h | h | h | h | h | h | h | h | h | h | h <;> subst h
    case inr.inr.inl => exact hhidden rfl (rel_run1 (by decide) (by decide) hr h)
    case inr.inr.inr.inl =>
      rw [split_of_refuses s _ (by simpa [Refuses] using Ne.symm hn),
        split_of_refuses t _ (by simpa [Refuses] using Ne.symm hn)]
      exact .none
    case inr.inr.inr.inr.inl =>
      exact hhidden rfl (rel_seq Meets.prepend (cuts_of_isSteady (by decide) hcons)
        (cuts_run (by decide) (by decide)))
    case inr.inr.inr.inr.inr.inl =>
      exact hhidden rfl (rel_imp (cuts_of_isSteady (a := starComment) (by decide) hcons)
        fun _ _ _ => .parallel)
    case inr.inr.inr.inr.inr.inr.inl =>
      refine rel_imp (rel_quoted hcons hquoted) fun m hm m' h => ?_
      exact ⟨rfl, .inr (h.lexeme.eq_of_not_mem (hquoted m hm)), h.rest⟩
    all_goals exact hsteady (by decide) (by decide)
  · obtain ⟨op, hop, rfl⟩ := List.mem_map.mp hcls
    have hall : ∀ op ∈ operators,
        (text op.1).IsSteady = true ∧ (text op.1).Excludes '\n' = true := by decide
    exact hsteady (hall op hop).1 (hall op hop).2

/-- **What is cut off first** of a text and of the text with carriage returns: tokens of one kind,
which are the same if they are seen. -/
structure FirstAlike (s t : List Char) (kind : SourceKind) (x x' r r' : List Char) : Prop where
  pieces : sourcePieces s = (kind, x) :: sourcePieces r
  piecesReturned : sourcePieces t = (kind, x') :: sourcePieces r'
  append : s = x ++ r
  appendReturned : t = x' ++ r'
  length_lt : r.length < s.length
  lexeme : kind.isHidden = true ∨ x' = x
  keeps : kind = .stringLiteral → '\n' ∉ x
  rest : WithReturns r r'

theorem exists_firstAlike (hn : c ≠ '\n') (hr : c ≠ '\r') (h : WithReturns s t)
    (hquoted : ∀ m, quoted.split (c :: s) = some m → '\n' ∉ m.1) :
    ∃ kind x x' r r', FirstAlike (c :: s) (c :: t) kind x x' r r' := by
  have hm := firstMatch_seenAlike hn hr h hquoted
  generalize hms : firstMatch lexicon.classes (c :: s) = m,
    hmt : firstMatch lexicon.classes (c :: t) = m' at hm
  cases hm with
  | none =>
    exact ⟨.unknown, [c], [c], s, t, pieces_cons_of_none hms, pieces_cons_of_none hmt, rfl, rfl,
      Nat.lt_succ_self _, .inr rfl, nofun, h⟩
  | @some m m' hm =>
    obtain ⟨kind, x, r⟩ := m
    obtain ⟨kind', x', r'⟩ := m'
    obtain ⟨hkind, hlexeme, hrest⟩ := hm
    dsimp only at hkind hlexeme hrest
    subst kind'
    refine ⟨kind, x, x', r, r', pieces_cons hms, pieces_cons hmt, (firstMatch_spec hms).1,
      (firstMatch_spec hmt).1, length_rest_lt hms, hlexeme, fun hk hline => ?_, hrest⟩
    rcases split_of_feed hn hms hline with hcomment | hstring
    · rw [firstMatch_of_starComment hcomment, hk] at hms
      cases hms
    · exact hquoted _ hstring hline

/-- The grammar sees the same in both if it sees the same behind the first tokens. -/
theorem FirstAlike.visiblePieces_iff {kind : SourceKind} {x x' r r' : List Char}
    (h : FirstAlike s t kind x x' r r') :
    visiblePieces t = visiblePieces s ↔ visiblePieces r' = visiblePieces r := by
  have hs := h.pieces
  have ht := h.piecesReturned
  rcases h.lexeme with hhidden | rfl
  · rw [visiblePieces_of_hidden hs hhidden, visiblePieces_of_hidden ht hhidden]
  · refine ⟨fun heq => ?_, visiblePieces_congr ht hs⟩
    rw [visiblePieces, visiblePieces, hs, ht, List.filter_cons, List.filter_cons] at heq
    split at heq
    · exact (List.cons.inj heq).2
    · exact heq

theorem sourcePieces_newline (s : List Char) :
    sourcePieces ('\n' :: s) = (.newline, ['\n']) :: sourcePieces s := pieces_cons rfl

/-- The end of a line is not seen, whichever it is. -/
theorem visiblePieces_newline (s : List Char) : visiblePieces ('\n' :: s) = visiblePieces s :=
  visiblePieces_of_hidden (sourcePieces_newline s) rfl

theorem visiblePieces_return (s : List Char) :
    visiblePieces ('\r' :: '\n' :: s) = visiblePieces s :=
  (visiblePieces_of_hidden (pieces_cons rfl) rfl).trans (visiblePieces_newline s)

/-- **The grammar sees the same** in a text with carriage returns, if no string goes on in a next
line. -/
theorem visiblePieces_of_withReturns (h : WithReturns s t)
    (hs : lexicon.KeepsLines .stringLiteral s) : visiblePieces t = visiblePieces s := by
  induction hlen : s.length using Nat.strong_induction_on generalizing s t with
  | _ n ih =>
    cases h with
    | nil => rfl
    | @feed s t h =>
      rw [visiblePieces_newline, visiblePieces_return]
      exact ih s.length (by simp [← hlen]) h (hs.rest (sourcePieces_newline s)) rfl
    | @char c s t hc h =>
      by_cases hn : c = '\n'
      · subst hn
        rw [visiblePieces_newline, visiblePieces_newline]
        exact ih s.length (by simp [← hlen]) h (hs.rest (sourcePieces_newline s)) rfl
      obtain ⟨_, _, _, r, r', hfirst⟩ :=
        exists_firstAlike hn hc h (hs.quoted firstMatch_of_quoted)
      exact hfirst.visiblePieces_iff.mpr
        (ih r.length (hlen ▸ hfirst.length_lt) hfirst.rest (hs.rest hfirst.pieces) rfl)

/-- Where no string is cut off, a quote is a token by itself. -/
theorem firstMatch_quote (h : quoted.split ('"' :: s) = none) :
    firstMatch lexicon.classes ('"' :: s) = none := by
  have hfront : ∀ cls ∈ lexicon.classes.take 6, cls.1.Refuses '"' = true := by decide
  have hback : ∀ cls ∈ lexicon.classes.drop 7, cls.1.Refuses '"' = true := by decide
  have hclasses : lexicon.classes = lexicon.classes.take 6 ++
      (quoted, fun _ => .stringLiteral) :: (lexicon.classes.drop 7 ++ []) := rfl
  rw [hclasses, firstMatch_of_refuses hfront, firstMatch_cons_of_none h,
    firstMatch_of_refuses hback]
  rfl

/-- With carriage returns, a string that goes on in a next line is no string to the grammar. -/
theorem keeps_of_visiblePieces (h : visiblePieces (c :: addReturns s) = visiblePieces (c :: s)) :
    ∀ m, quoted.split (c :: s) = some m → '\n' ∉ m.1 := by
  intro m hm hline
  by_cases hc : c = '"'
  · subst hc
    have hpieces : sourcePieces ('"' :: s) = (.stringLiteral, m.1) :: sourcePieces m.2 :=
      pieces_cons (firstMatch_of_quoted hm)
    obtain ⟨m, hrest, rfl⟩ := Option.map_eq_some_iff.mp (split_quoted s ▸ hm)
    have hnone : quoted.split ('"' :: addReturns s) = none := by
      rw [split_quoted, split_quotedRest_addReturns hrest (by simpa using hline)]
      rfl
    have hpieces' : sourcePieces ('"' :: addReturns s) =
        (.unknown, ['"']) :: sourcePieces (addReturns s) :=
      pieces_cons_of_none (firstMatch_quote hnone)
    rw [visiblePieces, visiblePieces, hpieces, hpieces'] at h
    cases (List.cons.inj h).1
  · rw [split_quoted_of_ne hc] at hm
    cases hm

/-- **The grammar sees another text** if some string goes on in a next line. -/
theorem keepsLines_of_visiblePieces (hs : '\r' ∉ s)
    (h : visiblePieces (addReturns s) = visiblePieces s) :
    lexicon.KeepsLines .stringLiteral s := by
  induction hlen : s.length using Nat.strong_induction_on generalizing s with
  | _ n ih =>
    have hline {u : List Char} (hlt : u.length < n) (hu : '\r' ∉ u)
        (h : visiblePieces (addReturns u) = visiblePieces u) :
        lexicon.KeepsLines .stringLiteral ('\n' :: u) :=
      .cons (sourcePieces_newline u) nofun (ih u.length hlt hu h rfl)
    cases s with
    | nil => exact fun x hx => by cases hx
    | cons c s =>
      have hs' := List.not_mem_of_not_mem_cons hs
      by_cases hn : c = '\n'
      · subst hn
        rw [addReturns_cons, if_pos rfl, List.cons_append, List.singleton_append,
          visiblePieces_newline, visiblePieces_return] at h
        exact hline (by simp [← hlen]) hs' h
      have hreturns : addReturns (c :: s) = c :: addReturns s := by
        rw [addReturns_cons, if_neg hn, List.singleton_append]
      rw [hreturns] at h
      have hr : c ≠ '\r' := fun hc => hs (hc ▸ List.mem_cons_self)
      obtain ⟨_, _, x', r, r', hfirst⟩ :=
        exists_firstAlike hn hr (.addReturns hs') (keeps_of_visiblePieces h)
      have hseen := hfirst.visiblePieces_iff.mp h
      have hlt := hlen ▸ hfirst.length_lt
      have hrest : '\r' ∉ r := fun hmem => hs (hfirst.append ▸ List.mem_append_right _ hmem)
      have hsuffix : r' <:+ addReturns (c :: s) := hreturns ▸ ⟨x', hfirst.appendReturned.symm⟩
      refine .cons hfirst.pieces hfirst.keeps ?_
      -- what is left may begin behind the carriage return of a line
      rcases eq_of_suffix_addReturns hs hsuffix hfirst.rest with rfl | ⟨u, rfl, rfl⟩
      · exact ih r.length hlt hrest hseen rfl
      · rw [visiblePieces_newline, visiblePieces_newline] at hseen
        exact hline (Nat.lt_of_succ_lt hlt) (List.not_mem_of_not_mem_cons hrest) hseen

end SourceKind

/-! ### Text with directives -/

namespace DirectiveKind

/-- The pieces of a text with directives. -/
def directivePieces (s : List Char) : List (DirectiveKind × List Char) :=
  lexicon.pieces s.length s

/-- What is written for a piece that is copied. -/
def copied (x : DirectiveKind × List Char) : List Char :=
  if x.1 = .lineContinuation then ['\n'] else x.2

/-- Two first tokens are written alike, and what follows is the same but for carriage returns. -/
def WrittenAlike (m m' : DirectiveKind × List Char × List Char) : Prop :=
  Meets (copied (m.1, m.2.1), m.2.2) (copied (m'.1, m'.2.1), m'.2.2)

variable {s t : List Char} {c : Char}

/-- **The first tokens** of two texts that begin with the same character, but a line feed. -/
theorem firstMatch_writtenAlike (hn : c ≠ '\n') (hr : c ≠ '\r') (h : WithReturns s t)
    (hquoted : ∀ m, quoted.split (c :: s) = some m → '\n' ∉ m.1) :
    Option.Rel WrittenAlike (firstMatch lexicon.classes (c :: s))
      (firstMatch lexicon.classes (c :: t)) := by
  have hcons : WithReturns (c :: s) (c :: t) := .char hr h
  have hsteady {a : Pattern} {kindOf : List Char → DirectiveKind} (ha : a.IsSteady = true)
      (hline : a.Excludes '\n' = true) :
      Option.Rel (fun m m' => WrittenAlike (kindOf m.1, m) (kindOf m'.1, m'))
        (a.split (c :: s)) (a.split (c :: t)) := by
    refine rel_imp (cuts_of_isSteady ha hcons) fun m hm m' h => ?_
    have hlexeme : m'.1 = m.1 := h.lexeme.eq_of_not_mem (not_mem_of_excludes hline hm)
    refine .parallel ⟨?_, h.rest⟩
    rw [copied, copied, hlexeme]
    split
    · exact .char (by decide) .nil
    · exact hlexeme ▸ h.lexeme
  have hkind {a : Pattern} {kind : DirectiveKind} (hk : kind ≠ .lineContinuation)
      (hm : Option.Rel Meets (a.split (c :: s)) (a.split (c :: t))) :
      Option.Rel (fun m m' => WrittenAlike (kind, m) (kind, m'))
        (a.split (c :: s)) (a.split (c :: t)) := by
    refine rel_imp hm fun m _ m' h => ?_
    rw [WrittenAlike, copied, copied, if_neg hk, if_neg hk]
    exact h
  refine firstMatch_rel consuming_lexicon fun cls hcls => ?_
  simp only [lexicon, List.mem_cons, List.not_mem_nil, or_false] at hcls
  rcases hcls with h | h | h | h | h | h | h | h | h | h | h | h | h | h | h | h | h | h | h | h |
    h | h <;> subst h
  case inr.inr.inr.inl =>
    exact rel_imp (cuts_continuation hcons) fun _ _ _ h => 
      .parallel ⟨.char (by decide) .nil, h.rest⟩
  case inr.inr.inr.inr.inr.inl => exact hkind (by decide) (cuts_slashComment hcons)
  case inr.inr.inr.inr.inr.inr.inl =>
    exact hkind (by decide) (rel_imp (cuts_of_isSteady (a := starComment) (by decide) hcons)
      fun _ _ _ => .parallel)
  case inr.inr.inr.inr.inr.inr.inr.inl =>
    exact hkind (by decide) (rel_imp (rel_quoted hcons hquoted) fun _ _ _ => .parallel)
  case inr.inr.inr.inr.inr.inr.inr.inr.inr.inr.inl =>
    exact hkind (by decide) (rel_run1 (by decide) (by decide) hr h)
  case inr.inr.inr.inr.inr.inr.inr.inr.inr.inr.inr.inl =>
    rw [split_of_refuses s _ (by simpa [Refuses] using Ne.symm hn),
      split_of_refuses t _ (by simpa [Refuses] using Ne.symm hn)]
    exact .none
  all_goals exact hsteady (by decide) (by decide)

/-- Where a string is cut off, it is the first token. -/
theorem firstMatch_of_quoted {s x r : List Char} (h : quoted.split s = some (x, r)) :
    firstMatch lexicon.classes s = some (.string, x, r) := by
  have hs := split_eq_append h
  obtain ⟨x, rfl⟩ : ∃ y, x = '"' :: y := by
    cases s with
    | nil => cases h
    | cons c s =>
      by_cases hc : c = '"'
      · subst hc
        obtain ⟨m, -, heq⟩ := Option.map_eq_some_iff.mp (split_quoted s ▸ h)
        exact ⟨m.1, (Prod.mk.inj heq).1.symm⟩
      · rw [split_quoted_of_ne hc] at h
        cases h
  subst hs
  have hfront (k : List (Pattern × (List Char → DirectiveKind))) :
      firstMatch ((quoted, fun _ => .string) :: k) ('"' :: x ++ r) =
        some (.string, '"' :: x, r) := firstMatch_cons h
  exact hfront _

theorem directivePieces_newline (s : List Char) :
    directivePieces ('\n' :: s) = (.newline, ['\n']) :: directivePieces s := pieces_cons rfl

theorem directivePieces_return (s : List Char) : directivePieces ('\r' :: '\n' :: s) =
    (.spaces, ['\r']) :: (.newline, ['\n']) :: directivePieces s :=
  (pieces_cons rfl).trans (congrArg _ (directivePieces_newline s))

/-- **What is copied** of a text with carriage returns is the same but for carriage returns, if no
string goes on in a next line. -/
theorem withReturns_copied (h : WithReturns s t) (hs : lexicon.KeepsLines .string s) :
    WithReturns ((directivePieces s).flatMap copied) ((directivePieces t).flatMap copied) := by
  induction hlen : s.length using Nat.strong_induction_on generalizing s t with
  | _ n ih =>
    cases h with
    | nil => exact .nil
    | @feed s t h =>
      rw [directivePieces_newline, directivePieces_return]
      exact .feed (ih s.length (by simp [← hlen]) h (hs.rest (directivePieces_newline s)) rfl)
    | @char c s t hc h =>
      by_cases hn : c = '\n'
      · subst hn
        rw [directivePieces_newline, directivePieces_newline]
        exact .char hc (ih s.length (by simp [← hlen]) h (hs.rest (directivePieces_newline s)) rfl)
      have hm := firstMatch_writtenAlike hn hc h (hs.quoted firstMatch_of_quoted)
      generalize hms : firstMatch lexicon.classes (c :: s) = m,
        hmt : firstMatch lexicon.classes (c :: t) = m' at hm
      cases hm with
      | none =>
        have hspieces : directivePieces (c :: s) = (.other, [c]) :: directivePieces s :=
          pieces_cons_of_none hms
        have htpieces : directivePieces (c :: t) = (.other, [c]) :: directivePieces t :=
          pieces_cons_of_none hmt
        rw [hspieces, htpieces]
        exact .char hc (ih s.length (by simp [← hlen]) h (hs.rest hspieces) rfl)
      | @some m m' hm =>
        obtain ⟨k, x, r⟩ := m
        obtain ⟨k', x', r'⟩ := m'
        have hspieces : directivePieces (c :: s) = (k, x) :: directivePieces r := pieces_cons hms
        have htpieces : directivePieces (c :: t) = (k', x') :: directivePieces r' := pieces_cons hmt
        have hr := hs.rest hspieces
        have hlt : r.length < n := hlen ▸ length_rest_lt hms
        rw [hspieces, htpieces, List.flatMap_cons, List.flatMap_cons]
        rw [WrittenAlike] at hm
        dsimp only at hm
        generalize copied (k, x) = y, copied (k', x') = y' at hm
        cases hm with
        | parallel hm => exact hm.lexeme.append (ih r.length hlt hm.rest hr rfl)
        | @astride _ _ u u' hx h =>
          -- the carriage return is written with the token before the line feed
          have hu := ih u.length (Nat.lt_of_succ_lt hlt) h (hr.rest (directivePieces_newline u)) rfl
          rw [directivePieces_newline, directivePieces_newline, List.append_assoc]
          exact hx.append (.feed hu)

end DirectiveKind

open DirectiveKind in
theorem DirectiveText.copyOf_eq_flatMap (text : String) :
    copyOf text = (directivePieces text.toList).flatMap copied := by
  have hmap := lexicon.map_tokens
    (fun kind text => (if kind = .lineContinuation then "\n" else text).toList) text
  rw [copyOf, List.flatMap]
  refine congrArg List.flatten (hmap.trans (List.map_congr_left fun x _ => ?_))
  rw [copied]
  split
  · rfl
  · exact String.toList_ofList

/-! ### The text and the text with carriage returns -/

/-- A text with a carriage return before each line feed. -/
def withReturns (text : String) : String := String.ofList (addReturns text.toList)

/-- **Line ends do not matter to the lexicon of source text** as long as strings stay on their
lines, and only as long as they do. -/
theorem seenTokens_withReturns_iff {text : String} (h : '\r' ∉ text.toList) :
    seenTokens (withReturns text) = seenTokens text ↔
      ∀ t ∈ SourceToken.ofText text, t.kind = .stringLiteral → '\n' ∉ t.text.toList := by
  rw [seenTokens_eq, seenTokens_eq, withReturns, String.toList_ofList]
  refine Iff.trans ?_ keepsLines_iff
  exact ⟨SourceKind.keepsLines_of_visiblePieces h,
    SourceKind.visiblePieces_of_withReturns (.addReturns h)⟩

/-- A text without directives and macro uses is preprocessed to its copy. -/
theorem preprocessText_of_ordinary (path text : String) (s : Session)
    (h : DirectiveKind.IsOrdinary text) : ∃ p, preprocessText path text s = .ok p s ∧
      p.text = String.ofList (DirectiveText.copyOf text) := by
  rw [preprocessText_eq, scanFile, DirectiveText.scan_ordinary _ _ h]
  exact ⟨_, rfl, by simp [PreprocessState.start]⟩

/-- Does a line of a text go on in the next one, to the lexer of directives? -/
def IsContinued (text : String) : Prop :=
  ∃ t ∈ DirectiveToken.ofText text, t.kind = .lineContinuation

/-- **Line ends and preprocessing.** A text without directives and macro uses is preprocessed
without a report, and so is the text with carriage returns, if that has none either. If strings stay
on their lines, both where the text is looked at for directives and where it is read afterwards, the
grammar sees the same tokens. If no line is continued, it does so only if strings stay on their
lines. -/
theorem ignores_returns (path text : String) (s : Session) (hreturn : '\r' ∉ text.toList)
    (hordinary : DirectiveKind.IsOrdinary text)
    (hordinary' : DirectiveKind.IsOrdinary (withReturns text)) :
    ∃ p p', preprocessText path text s = .ok p s ∧
      preprocessText path (withReturns text) s = .ok p' s ∧
      ((∀ t ∈ DirectiveToken.ofText text, t.kind = .string → '\n' ∉ t.text.toList) →
        (∀ t ∈ SourceToken.ofText p.text, t.kind = .stringLiteral → '\n' ∉ t.text.toList) →
        seenTokens p'.text = seenTokens p.text) ∧
      (¬IsContinued text → ¬IsContinued (withReturns text) →
        (seenTokens p'.text = seenTokens p.text ↔
          ∀ t ∈ SourceToken.ofText p.text, t.kind = .stringLiteral → '\n' ∉ t.text.toList)) := by
  obtain ⟨p, hp, htext⟩ := preprocessText_of_ordinary path text s hordinary
  obtain ⟨p', hp', htext'⟩ := preprocessText_of_ordinary path (withReturns text) s hordinary'
  have hcopy (text : String) (h : ¬IsContinued text) :
      String.ofList (DirectiveText.copyOf text) = text := by
    rw [DirectiveText.copyOf_eq fun t ht hk => h ⟨t, ht, hk⟩, String.ofList_toList]
  refine ⟨p, p', hp, hp', fun hstrings hliterals => ?_, fun hnone hnone' => ?_⟩
  swap
  · rw [htext, htext', hcopy _ hnone, hcopy _ hnone']
    exact seenTokens_withReturns_iff hreturn
  have hcopied := DirectiveKind.withReturns_copied (.addReturns hreturn)
    (keepsLines_iff.mpr hstrings)
  rw [← DirectiveText.copyOf_eq_flatMap] at hcopied
  have hkeeps := keepsLines_iff.mpr hliterals
  rw [htext, String.toList_ofList] at hkeeps
  have hcopy : DirectiveText.copyOf (withReturns text) =
      (DirectiveKind.directivePieces (addReturns text.toList)).flatMap DirectiveKind.copied := by
    rw [DirectiveText.copyOf_eq_flatMap, withReturns, String.toList_ofList]
  rw [seenTokens_eq, seenTokens_eq, htext, htext', String.toList_ofList, String.toList_ofList,
    hcopy]
  exact SourceKind.visiblePieces_of_withReturns hcopied hkeeps

/-- A module on three lines, with a backquote in a comment. -/
def threeLines : String := "module m; // no `WIDTH\n  assign y = \"ab\";\nendmodule\n"

theorem ignores_returns_threeLines : ∃ p p',
    preprocessText "m.sv" threeLines bareSession = .ok p bareSession ∧
      preprocessText "m.sv" (withReturns threeLines) bareSession = .ok p' bareSession ∧
      seenTokens p'.text = seenTokens p.text := by
  have hordinary : DirectiveKind.IsOrdinary threeLines := by decide +kernel
  obtain ⟨p, p', hp, hp', h, -⟩ :=
    ignores_returns "m.sv" threeLines bareSession (by decide) hordinary (by decide +kernel)
  obtain ⟨q, hq, htext⟩ := preprocessText_of_ordinary "m.sv" threeLines bareSession hordinary
  obtain rfl : p = q := by
    rw [hp] at hq
    cases hq
    rfl
  exact ⟨p, p', hp, hp', h (by decide +kernel) (by rw [htext]; decide +kernel)⟩

/-- A string on two lines. -/
def continuedString : String := "\"ab\\\ncd\""

/-- With carriage returns, the two lines are no string. -/
theorem returns_matter_continuedString : ∃ p p',
    preprocessText "m.sv" continuedString bareSession = .ok p bareSession ∧
      preprocessText "m.sv" (withReturns continuedString) bareSession = .ok p' bareSession ∧
      '\r' ∉ continuedString.toList ∧
      (seenTokens p.text).map (·.1) = [.stringLiteral] ∧
      (seenTokens p'.text).map (·.1) = [.unknown, .identifier, .identifier, .unknown] := by
  obtain ⟨p, hp, htext⟩ :=
    preprocessText_of_ordinary "m.sv" continuedString bareSession (by decide +kernel)
  obtain ⟨p', hp', htext'⟩ :=
    preprocessText_of_ordinary "m.sv" (withReturns continuedString) bareSession (by decide +kernel)
  refine ⟨p, p', hp, hp', by decide, ?_, ?_⟩
  · rw [htext]
    decide +kernel
  · rw [htext']
    decide +kernel

end Verilog
