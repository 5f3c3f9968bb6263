import Verilog.Preprocess.Text
import Verilog.Proofs.Grammar.Cover
import Verilog.Proofs.Lexing.Cut
import Verilog.Proofs.Lexing.Place

/-!
# The pieces of a text with directives

The trees directly below the tree of a text are its pieces: they stand one behind the other, and
each has the leaves of the tokens it takes but for commas (`DirectiveGrammar.tiles_parse`). So the
lines and columns of a text can be followed piece by piece, although a tree says no more than where
its first leaf begins and its last leaf ends. A piece that is neither a directive nor the use of a
macro is a single token.
-/

namespace Verilog

open ParseTree

/-! ### Commas and continuations -/

namespace DirectiveKind

open Pattern

/-- The class of line continuations. -/
def continuationPattern : Pattern := seq (text ['\\']) (seq (opt (text ['\r'])) (text ['\n']))

theorem ofWord_ne (word : List Char) : ofWord word ≠ .comma ∧ ofWord word ≠ .lineContinuation := by
  have hall : ∀ w ∈ keywords, w.2 ≠ .comma ∧ w.2 ≠ .lineContinuation := by decide
  rw [ofWord]
  cases h : keywords.lookup (String.ofList word) with
  | none => decide
  | some kind =>
    obtain ⟨before, after, heq, -⟩ := List.lookup_eq_some_iff.mp h
    have hmem : (String.ofList word, kind) ∈ keywords := by rw [heq]; simp
    exact hall _ hmem

/-- One class gives commas, and one line continuations. -/
theorem classes_cases : ∀ cls ∈ lexicon.classes,
    cls = (text [','], fun _ => .comma) ∨ cls = (continuationPattern, fun _ => .lineContinuation) ∨
      ∀ s, cls.2 s ≠ .comma ∧ cls.2 s ≠ .lineContinuation := by
  intro cls hcls
  simp only [lexicon, List.mem_cons, List.not_mem_nil, or_false] at hcls
  rcases hcls with h | h | h | h | h | h | h | h | h | h | h | h | h | h | h | h | h | h | h | h |
    h | h <;> subst h
  case inr.inr.inl => exact .inr (.inr fun s => ofWord_ne s.tail)
  case inr.inr.inr.inl => exact .inr (.inl rfl)
  any_goals exact .inl rfl
  all_goals exact .inr (.inr fun _ => by simp)

end DirectiveKind

namespace DirectiveToken

variable {s : String} {t : DirectiveToken}

/-- A token that is a comma is just that. -/
theorem text_of_comma (ht : t ∈ ofText s) (hk : t.kind = .comma) : t.text.toList = [','] := by
  rcases Lexicon.class_of_mem_tokens ht with ⟨h, -⟩ | ⟨cls, hcls, input, rest, hsplit, hkind, -⟩
  · exact absurd (h.symm.trans hk) (by decide)
  · rcases DirectiveKind.classes_cases cls hcls with rfl | rfl | h
    · simp only [Pattern.split, Option.map_eq_some_iff, Prod.mk.injEq] at hsplit
      obtain ⟨-, -, h, -⟩ := hsplit
      exact h.symm
    · exact absurd (hkind.trans hk) (by simp)
    · exact absurd (hkind.trans hk) (h _).1

/-- A line continuation is a backslash before the end of a line. -/
theorem text_of_continuation (ht : t ∈ ofText s) (hk : t.kind = .lineContinuation) :
    t.text.toList = ['\\', '\n'] ∨ t.text.toList = ['\\', '\r', '\n'] := by
  rcases Lexicon.class_of_mem_tokens ht with ⟨h, -⟩ | ⟨cls, hcls, input, rest, hsplit, hkind, -⟩
  · exact absurd (h.symm.trans hk) (by decide)
  · rcases DirectiveKind.classes_cases cls hcls with rfl | rfl | h
    · exact absurd (hkind.trans hk) (by simp)
    · simp only [DirectiveKind.continuationPattern, Pattern.split] at hsplit
      revert hsplit
      cases h : Pattern.stripFront ['\\'] input with
      | none => simp
      | some input =>
        cases h' : Pattern.stripFront ['\r'] input with
        | none => simp +contextual [h']
        | some input => simp +contextual [h']
    · exact absurd (hkind.trans hk) (h _).2

end DirectiveToken

/-! ### The grammar -/

namespace DirectiveGrammar

open Grammar

/-- Is a token left out of the trees? -/
def isComma (k : DirectiveKind) : Bool := k == .comma

theorem orderly_rules (x : DirectiveRule) : (rules x).Orderly fun _ => True := by
  cases x
  simp [rules, balanced, groupsAnd]

theorem orderly_macroDefinition : macroDefinition.Orderly fun _ => True := by
  rw [macroDefinition, orderly_map]
  refine ⟨fun ts => by simp [leavesAll, leaves], fun _ _ _ _ => trivial, ?_⟩
  simp [spaces, macroName, formalArguments, groupsAnd, macroBody]

theorem orderly_macroUse : macroUse.Orderly fun _ => True := by
  simp [macroUse, spaces, actualArguments, groupsAnd]

theorem orderly_piece : piece.Orderly fun _ => True := by
  simp [piece, orderly_macroDefinition, orderly_macroUse, named, fileInclusion, lineNumbering,
    spaces, macroName]

theorem covers_piece (fuel : Nat) :
    (piece.run (runRef rules fuel)).Covers isComma true true := by
  refine covers_run (g := piece) (P := fun _ => True) ?_ orderly_piece rfl
  exact covers_runRef orderly_rules (fun x => by cases x; rfl) (fun x => by cases x; rfl) fuel

/-- Is a tree the one token between two cursors, a directive or the use of a macro? -/
def Shaped (c next : Cursor DirectiveKind) (t : ParseTree) : Prop :=
  (∃ i k, t = .leaf i ∧ c.rest = (i, k) :: next.rest) ∨
    ∃ kind ts, t = .node kind ts ∧ (kind.isDirective = true ∨ kind.isMacroUse = true ∨
      ∃ i k, ts = [.leaf i] ∧ c.rest = (i, k) :: next.rest)

/-- **What a piece of a text is**: one token, a directive or the use of a macro. -/
theorem exists_shaped {callee : DirectiveRule → Runner DirectiveKind} {c next trees}
    (h : (piece.run callee).Succeeds c trees next) : ∃ t, trees = [t] ∧ Shaped c next t := by
  have hnode {kind : NodeKind} {g : DirectiveGrammar}
      (hk : kind.isDirective = true ∨ kind.isMacroUse = true)
      (h : ((node kind g).run callee).Succeeds c trees next) :
      ∃ t, trees = [t] ∧ Shaped c next t := by
    obtain ⟨ts, rfl, -⟩ := Runner.Succeeds.of_map h
    exact ⟨_, rfl, .inr ⟨kind, ts, rfl, hk.imp_right .inl⟩⟩
  obtain ⟨g, hg, h⟩ := exists_of_choice h
  simp only [List.mem_cons, List.not_mem_nil, or_false] at hg
  rcases hg with rfl | rfl | rfl | rfl | rfl | rfl | rfl | rfl | rfl | rfl | rfl | rfl | rfl |
    rfl | rfl | rfl | rfl | rfl | rfl | rfl
  case inl =>
    obtain ⟨ts, rfl, -⟩ := Runner.Succeeds.of_map h
    refine ⟨_, rfl, .inr ⟨definitionKind ts, ts, rfl, .inl ?_⟩⟩
    rw [definitionKind]
    split <;> rfl
  case inr.inr.inr.inr.inr.inr.inr.inr.inr.inr.inr.inr.inr.inr.inr.inr.inr.inl =>
    rcases Runner.Succeeds.of_alt h with h | h
    · exact hnode (.inr rfl) h
    · exact hnode (.inr rfl) h
  case inr.inr.inr.inr.inr.inr.inr.inr.inr.inr.inr.inr.inr.inr.inr.inr.inr.inr.inl =>
    obtain ⟨ts, rfl, htoken⟩ := Runner.Succeeds.of_map h
    obtain ⟨i, k, hrest, -, rfl, -⟩ := Runner.Succeeds.of_token htoken
    exact ⟨_, rfl, .inr ⟨_, _, rfl, .inr (.inr ⟨i, k, rfl, hrest⟩)⟩⟩
  case inr.inr.inr.inr.inr.inr.inr.inr.inr.inr.inr.inr.inr.inr.inr.inr.inr.inr.inr =>
    obtain ⟨i, k, hrest, -, rfl, -⟩ := Runner.Succeeds.of_token h
    exact ⟨_, rfl, .inl ⟨i, k, rfl, hrest⟩⟩
  all_goals exact hnode (.inl rfl) h

/-! ### Pieces -/

/-- The positions and kinds of tokens that stand behind so many others. -/
def numbered (n : Nat) (ts : List DirectiveToken) : List (Nat × DirectiveKind) :=
  (ts.zipIdx n).map fun t => (t.2, t.1.kind)

theorem numbered_cons (n : Nat) (t : DirectiveToken) (ts : List DirectiveToken) :
    numbered n (t :: ts) = (n, t.kind) :: numbered (n + 1) ts := rfl

theorem numbered_eq_append {n : Nat} {ts : List DirectiveToken} {u v : List (Nat × DirectiveKind)}
    (h : numbered n ts = u ++ v) :
    ∃ x y, ts = x ++ y ∧ numbered n x = u ∧ numbered (n + x.length) y = v := by
  induction u generalizing n ts with
  | nil => exact ⟨[], ts, rfl, rfl, h⟩
  | cons a u ih =>
    cases ts with
    | nil => simp [numbered] at h
    | cons t ts =>
      rw [numbered_cons, List.cons_append] at h
      obtain ⟨rfl, h'⟩ := List.cons.inj h
      obtain ⟨x, y, rfl, rfl, rfl⟩ := ih h'
      refine ⟨t :: x, y, rfl, numbered_cons _ _ _, ?_⟩
      rw [List.length_cons, Nat.add_right_comm, Nat.add_assoc]

theorem map_fst_numbered (n : Nat) (ts : List DirectiveToken) :
    (numbered n ts).map (·.1) = List.range' n ts.length := by
  rw [numbered, List.map_map, ← List.zipIdx_map_snd n ts]
  rfl

/-- **A piece of a text**, with the tokens it takes and those before it. -/
structure Piece (before taken : List DirectiveToken) (t : ParseTree) : Prop where
  nonempty : taken ≠ []
  leaves : Thinned isComma (numbered before.length taken) t.leaves
  /-- Its last token is its last leaf. -/
  last : t.last? = some (before.length + taken.length - 1)
  shape : (t = .leaf before.length ∧ taken.length = 1) ∨
    ∃ kind ts, t = .node kind ts ∧ (kind.isDirective = true ∨ kind.isMacroUse = true ∨
      ts = [.leaf before.length] ∧ taken.length = 1)

/-- Trees that are the pieces of a text from some place on, one behind the other to its end. -/
inductive Tiles : List DirectiveToken → List ParseTree → List DirectiveToken → Prop
  | nil (before) : Tiles before [] []
  | cons {before taken rest t ts} (h : Piece before taken t) (hs : Tiles (before ++ taken) ts rest)
    :
    Tiles before (t :: ts) (taken ++ rest)

/-- The leaves of a piece stand in the order of the tokens. -/
theorem Piece.sorted {before taken : List DirectiveToken} {t : ParseTree}
    (h : Piece before taken t) : t.leaves.Pairwise (· < ·) := by
  have hsub := h.leaves.sublist
  rw [map_fst_numbered] at hsub
  exact List.Pairwise.sublist hsub List.pairwise_lt_range'

theorem Tiles.sorted {before rest : List DirectiveToken} {ts : List ParseTree}
    (h : Tiles before ts rest) : ∀ t ∈ ts, t.leaves.Pairwise (· < ·) := by
  induction h with
  | nil before => simp
  | cons hpiece _ ih => exact List.forall_mem_cons.mpr ⟨hpiece.sorted, ih⟩

theorem piece_of_items {before taken : List DirectiveToken} {t : ParseTree} {c next}
    (hcover : Cursor.Covers isComma true true c [t] next (numbered before.length taken))
    (hshape : Shaped c next t) : Piece before taken t := by
  have hne : taken ≠ [] := by
    rintro rfl
    exact hcover.some rfl rfl
  have hleaves : leavesAll [t] = t.leaves := by simp [leavesAll]
  have hone {i k} (h : c.rest = (i, k) :: next.rest) : i = before.length ∧ taken.length = 1 := by
    have hused : numbered before.length taken = [(i, k)] :=
      List.append_cancel_right (hcover.rest.symm.trans (by simpa using h))
    obtain ⟨a, taken, rfl⟩ := List.exists_cons_of_ne_nil hne
    rw [numbered_cons] at hused
    obtain ⟨hi, hmore⟩ := List.cons.inj hused
    have hlen := congrArg List.length hmore
    exact ⟨(Prod.mk.inj hi).1.symm, by simpa [numbered] using hlen⟩
  refine ⟨hne, hleaves ▸ hcover.leaves, ?_, ?_⟩
  · rw [last?_eq, ← hleaves, hcover.last rfl, map_fst_numbered, List.getLast?_range']
    have := List.length_pos_iff.mpr hne
    rw [if_neg (by omega)]
  · rcases hshape with ⟨i, k, rfl, h⟩ | ⟨kind, ts, rfl, h | h | ⟨i, k, rfl, h⟩⟩
    · obtain ⟨rfl, hlen⟩ := hone h
      exact .inl ⟨rfl, hlen⟩
    · exact .inr ⟨kind, ts, rfl, .inl h⟩
    · exact .inr ⟨kind, ts, rfl, .inr (.inl h)⟩
    · obtain ⟨rfl, hlen⟩ := hone h
      exact .inr ⟨kind, _, rfl, .inr (.inr ⟨rfl, hlen⟩)⟩

/-- Wherever there is a token there is a piece. -/
theorem piece_ok (callee : DirectiveRule → Runner DirectiveKind) {c : Cursor DirectiveKind}
    (hc : c.rest ≠ []) :
    ∃ recovered trees next beyond, piece.run callee c = .ok recovered trees next beyond := by
  obtain ⟨offset, rest⟩ := c
  obtain ⟨⟨i, k⟩, rest, rfl⟩ := List.exists_cons_of_ne_nil hc
  exact choice_ok (g := tokenIn fun _ => true) ⟨_, _, _, _, rfl⟩ (by simp)

/-- **Every text has a tree**, and its pieces go on to the end of the text. -/
theorem run_eq (tokens : List DirectiveToken) : ∃ recovered ts next beyond,
    Runner.many 0 (piece.run (runRef rules (tokens.length + 1))) ⟨0, numbered 0 tokens⟩ =
      .ok recovered ts next beyond ∧ next.rest = [] ∧
    Grammar.parse rules text (numbered 0 tokens) = (some [.node .ppTopLevelRule ts],
      recovered) := by
  obtain ⟨recovered, ts, next, beyond, hmany⟩ := Runner.many_eq_ok
    (piece.run (runRef rules (tokens.length + 1))) ⟨0, numbered 0 tokens⟩
  have hrest := Runner.rest_of_many (covers_piece _) (fun _ hc => piece_ok _ hc) hmany
  refine ⟨recovered, ts, next, beyond, hmany, hrest, ?_⟩
  have hrun : text.run (runRef rules ((numbered 0 tokens).length + 1)) ⟨0, numbered 0 tokens⟩ =
      .ok recovered [.node .ppTopLevelRule ts] next beyond := by
    have hlen : (numbered 0 tokens).length = tokens.length := by simp [numbered]
    rw [hlen, text, run, run, Runner.map, hmany]
  rw [Grammar.parse, hrun]
  simp [hrest]

theorem parse_of_run {tokens : List DirectiveToken} {t : ParseTree}
    {recovered : List (Fault DirectiveKind)}
    (h : Grammar.parse rules text (numbered 0 tokens) = (some [t], recovered)) :
    parse tokens = t := by
  have hrun : Grammar.parse rules text (tokens.zipIdx.map fun t => (t.2, t.1.kind)) =
      (some [t], recovered) := h
  rw [parse, hrun]

/-- Turns that go on to the end of some tokens lay out the pieces of these. -/
theorem tiles_of_turns {fuel : Nat} {c next : Cursor DirectiveKind} {ts : List ParseTree}
    (h : Runner.Turns (piece.run (runRef rules fuel)).Succeeds c ts next) (hend : next.rest = []) :
    ∀ {before tokens : List DirectiveToken}, c.rest = numbered before.length tokens →
      Tiles before ts tokens := by
  induction h with
  | nil c =>
    intro before tokens hc
    obtain rfl : tokens = [] := by simpa [numbered] using hc.symm.trans hend
    exact .nil before
  | cons h _ ih =>
    intro before tokens hc
    obtain ⟨t, rfl, hshape⟩ := exists_shaped h
    obtain ⟨used, hu⟩ := Runner.Covers.covered (covers_piece fuel) h
    obtain ⟨taken, rest, rfl, rfl, hrest⟩ := numbered_eq_append (hc.symm.trans hu.rest)
    refine .cons (piece_of_items hu hshape) (ih hend ?_)
    rw [← hrest, List.length_append]

/-- **The tree of a text is made of its pieces.** -/
theorem tiles_parse (tokens : List DirectiveToken) : Tiles [] (parse tokens).children tokens := by
  obtain ⟨recovered, ts, next, beyond, hmany, hend, hparse⟩ := run_eq tokens
  rw [parse_of_run hparse]
  exact tiles_of_turns (Runner.Succeeds.of_many ⟨_, _, hmany⟩) hend rfl

end DirectiveGrammar

end Verilog
