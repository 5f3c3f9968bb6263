import Verilog.Proofs.Grammar.Rename
import Verilog.Proofs.Source.Opening
import Verilog.Proofs.Source.Parts
import Verilog.Proofs.Syntax.Marks

/-!
# Marks and the tree

The grammar of source text is natural: it never looks at the positions of tokens. So the tree of a
text is known from the kinds of the tokens that the grammar sees (`SourceGrammar.shape`), but for
the positions at its leaves, which are those of the tokens in their order
(`SourceGrammar.parse_eq`). Two texts in which the grammar sees the same have trees of one shape.

The grammar does not see marks, so they should make no difference to it: what it sees of a
preprocessed text should be what it sees of the text without the marks, the one that can be written
to a file.

Two things have to hold for that. The marks have to be read as marks, and then the text is read part
by part between them. And the parts have to be read as they are when they stand next to each other.
Both can fail: an escaped identifier takes in the mark behind it, and a number of which a macro
gives the digits is two tokens with a mark between, and one without.
-/

namespace Verilog

namespace SourceGrammar

open Grammar ParseTree

variable {ρ : Nat → Nat} {g : SourceGrammar}

/-! ### Functions on trees -/

theorem groupLeft_renameAll (kind : NodeKind) (ts : List ParseTree) :
    groupLeft kind (renameAll ρ ts) = renameAll ρ (groupLeft kind ts) := by
  induction ts using groupLeft.induct kind with
  | case1 left operator right more ih => simpa [groupLeft, renameAll, rename] using ih
  | case2 ts h =>
    have h' : ∀ left operator right more, renameAll ρ ts = left :: operator :: right :: more →
        False := by
      rcases ts with _ | ⟨left, _ | ⟨operator, _ | ⟨right, more⟩⟩⟩
      · simp [renameAll]
      · simp [renameAll]
      · simp [renameAll]
      · exact (h _ _ _ _ rfl).elim
    rw [groupLeft.eq_2 _ _ h, groupLeft.eq_2 _ _ h']

theorem wrapConditional_renameAll (kind : NodeKind) (ts : List ParseTree) :
    wrapConditional kind (renameAll ρ ts) = renameAll ρ (wrapConditional kind ts) := by
  match ts with
  | [] | [_] | _ :: _ :: _ => rfl

theorem takeWhile_renameAll (ts : List ParseTree) :
    (renameAll ρ ts).takeWhile (·.kind?.isSome) =
      renameAll ρ (ts.takeWhile (·.kind?.isSome)) := by
  have hkind : (fun t : ParseTree => t.kind?.isSome) ∘ rename ρ = fun t => t.kind?.isSome := by
    funext t
    simp
  rw [renameAll_eq, renameAll_eq, List.takeWhile_map, hkind]

theorem drop_renameAll (n : Nat) (ts : List ParseTree) :
    (renameAll ρ ts).drop n = renameAll ρ (ts.drop n) := by
  rw [renameAll_eq, renameAll_eq, List.map_drop]

theorem groupModportEntries_renameAll (ts : List ParseTree) :
    groupModportEntries (renameAll ρ ts) = renameAll ρ (groupModportEntries ts) := by
  have hlen (ts : List ParseTree) : (renameAll ρ ts).length = ts.length := by simp [renameAll_eq]
  induction ts using groupModportEntries.induct with
  | case1 => simp [groupModportEntries]
  | case2 k n more ih => simp [groupModportEntries, renameAll, rename, ih]
  | case3 d more h ports ih =>
    have h' : ∀ n more', renameAll ρ more = leaf n :: more' → False := by
      rcases more with _ | ⟨n | _, more⟩
      · simp [renameAll]
      · exact (h _ _ rfl).elim
      · simp [renameAll, rename]
    rw [renameAll, rename, groupModportEntries.eq_3 _ _ h, groupModportEntries.eq_3 _ _ h']
    simp only [takeWhile_renameAll, hlen, drop_renameAll, renameAll, rename]
    rw [ih]
  | case4 port more h h' ports ih =>
    cases port with
    | leaf d => exact (h' d rfl).elim
    | node k us =>
      rw [renameAll, rename, groupModportEntries.eq_4 _ _ h h',
        groupModportEntries.eq_4 _ _ (by simp) (by simp)]
      simp only [takeWhile_renameAll, hlen, drop_renameAll, renameAll, rename]
      rw [ih]

/-! ### The productions -/

theorem natural_of_nil (hr : g.regroupings = []) (hs : g.plainSeparators = true) : g.Natural ρ :=
  ⟨by simp [hr], hs⟩

theorem natural_of_entries (hr : g.regroupings = [groupModportEntries])
    (hs : g.plainSeparators = true) : g.Natural ρ :=
  ⟨by simpa [hr] using groupModportEntries_renameAll, hs⟩

theorem natural_binaryLevel {constant : Bool} {operators : List SourceKind} (h : g.Natural ρ) :
    (binaryLevel constant g operators).Natural ρ := by
  refine ⟨fun f hmem => ?_, by simpa [binaryLevel, plainSeparators, oneOf] using h.separators⟩
  rcases mem_regroupings_binaryLevel hmem with rfl | hmem
  · exact groupLeft_renameAll _
  · exact h.regrouping f hmem

theorem natural_conditional (constant : Bool) : (conditional constant).Natural ρ := by
  have h : (binary constant).Natural ρ :=
    binary_induction (by cases constant <;> exact natural_of_nil rfl rfl)
      fun _ _ => natural_binaryLevel
  refine ⟨fun f hmem => ?_, ?_⟩
  · rcases mem_regroupings_conditional hmem with rfl | hmem
    · exact wrapConditional_renameAll _
    · exact h.regrouping f hmem
  · simpa [conditional, plainSeparators, all, expression] using h.separators

theorem natural_text : text.Natural ρ :=
  natural_of_entries (by with_unfolding_all rfl) (by with_unfolding_all rfl)

theorem natural_rules : ∀ x, (rules x).Natural ρ
  | .expression true => natural_conditional true
  | .expression false => natural_conditional false
  | .unary true => natural_of_nil rfl rfl
  | .unary false => natural_of_nil rfl rfl
  | .braces => natural_of_nil rfl rfl
  | .statement => natural_of_nil (by with_unfolding_all rfl) (by with_unfolding_all rfl)
  | .item => natural_of_entries (by with_unfolding_all rfl) (by with_unfolding_all rfl)

/-! ### Trees of whole texts -/

/-- The tree of a text by the kinds of the tokens that the grammar sees, and the faults: a leaf is
the number of such tokens before its own. -/
def shape (kinds : List SourceKind) : Option ParseTree × List (Fault SourceKind) :=
  let r := Grammar.parse rules text (kinds.zipIdx.map fun t => (t.2, t.1))
  (r.1.bind List.head?, r.2)

/-- The position of a token that the grammar sees, by the number of such tokens before it. -/
def placeOf (tokens : List SourceToken) (n : Nat) : Nat :=
  ((visible tokens)[n]?.map (·.1)).getD 0

theorem visible_eq (tokens : List SourceToken) : visible tokens =
    renameTokens (placeOf tokens)
      (((visible tokens).map (·.2)).zipIdx.map fun t => (t.2, t.1)) := by
  refine List.ext_getElem? fun n => ?_
  cases h : (visible tokens)[n]? <;> simp [renameTokens, placeOf, h]

/-- **The tree of a text is its shape**, with the positions of tokens at its leaves. -/
theorem parse_eq (tokens : List SourceToken) :
    parse tokens = ((shape ((visible tokens).map (·.2))).1.map (·.rename (placeOf tokens)),
      (shape ((visible tokens).map (·.2))).2) := by
  rw [parse, visible_eq tokens, parse_rename natural_rules natural_text, ← visible_eq, shape]
  cases (Grammar.parse rules text
    (((visible tokens).map (·.2)).zipIdx.map fun t => (t.2, t.1))).1 with
  | none => rfl
  | some trees => cases trees <;> rfl

end SourceGrammar

/-! ### What the grammar sees -/

open SourceGrammar SourceToken

/-- A preprocessed text without its marks, as it is written to a file. -/
def PreprocessedText.stripped (p : PreprocessedText) : String :=
  String.ofList (withoutMarks p.text.toList)

/-- The kinds and texts of the tokens of a text that the grammar sees. -/
def seenTokens (text : String) : List (SourceKind × List Char) :=
  ((ofText text).map kindText).filter fun x => !x.1.isHidden

theorem seenTokens_eq (text : String) : seenTokens text = visiblePieces text.toList := by
  rw [seenTokens, map_kindText]
  rfl

/-- The tokens of a text that the grammar sees, with their positions among all tokens. -/
def visibleTokens (tokens : List SourceToken) : List (SourceToken × Nat) :=
  tokens.zipIdx.filter fun t => !t.1.kind.isHidden

theorem visible_eq_map (tokens : List SourceToken) :
    visible tokens = (visibleTokens tokens).map fun t => (t.2, t.1.kind) := by
  rw [visible, visibleTokens, List.filter_map]
  rfl

theorem seenTokens_eq_map (text : String) :
    seenTokens text = (visibleTokens (ofText text)).map fun t => kindText t.1 := by
  have htokens : (ofText text).map kindText =
      (ofText text).zipIdx.map fun t => kindText t.1 := by
    conv_lhs => rw [← List.zipIdx_map_fst 0 (ofText text), List.map_map]
    rfl
  rw [seenTokens, htokens, visibleTokens, List.filter_map]
  rfl

/-- A token that the grammar sees stands at its place. -/
theorem getElem?_placeOf {text : String} {n : Nat} {x : SourceKind × List Char}
    (h : (seenTokens text)[n]? = some x) :
    ((ofText text)[placeOf (ofText text) n]?).map kindText = some x := by
  rw [seenTokens_eq_map, List.getElem?_map, Option.map_eq_some_iff] at h
  obtain ⟨⟨token, i⟩, hn, rfl⟩ := h
  have hplace : placeOf (ofText text) n = i := by
    simp [placeOf, visible_eq_map, hn]
  have hmem := (List.mem_filter.mp (List.mem_of_getElem? hn)).1
  rw [hplace, List.mk_mem_zipIdx_iff_getElem?.mp hmem]
  rfl

/-! ### Trees of one shape -/

/-- The trees of two texts have one shape: there is a tree, or none, of which both are copies. At
its leaves it has numbers, and the tokens of the texts that have a number are alike. The faults on
the way to the trees are the same. -/
def SameShape (text text' : String) : Prop :=
  ∃ (tree : Option ParseTree) (faults : List (Fault SourceKind)),
    parse (ofText text) = (tree.map (·.rename (placeOf (ofText text))), faults) ∧
    parse (ofText text') = (tree.map (·.rename (placeOf (ofText text'))), faults) ∧
    ∀ n x, (seenTokens text)[n]? = some x →
      ((ofText text)[placeOf (ofText text) n]?).map kindText = some x ∧
        ((ofText text')[placeOf (ofText text') n]?).map kindText = some x

/-- **Texts in which the grammar sees the same have trees of one shape.** -/
theorem sameShape_of_seenTokens {text text' : String} (h : seenTokens text' = seenTokens text) :
    SameShape text text' := by
  have hkinds (text : String) :
      (visible (ofText text)).map (·.2) = (seenTokens text).map (·.1) := by
    rw [visible_eq_map, seenTokens_eq_map, List.map_map, List.map_map]
    rfl
  refine ⟨_, _, parse_eq _, ?_, fun n x hx => ⟨getElem?_placeOf hx, getElem?_placeOf (h ▸ hx)⟩⟩
  have := parse_eq (ofText text')
  rwa [hkinds, h, ← hkinds] at this

/-! ### Preprocessed texts -/

/-- Are all marks of a text read? (`marksRead_eq_iff`) -/
def ReadsMarks (text : String) : Prop :=
  ∀ t ∈ ofText text, t.kind.isVerbatim = true → Unmarked t.text.toList

theorem readsMarks_iff (text : String) :
    ReadsMarks text ↔ SparesMarks (sourcePieces text.toList) := by
  rw [SparesMarks, sourcePieces, ← map_kindText, List.forall_mem_map]
  rfl

instance (text : String) : Decidable (ReadsMarks text) :=
  inferInstanceAs (Decidable (∀ t ∈ ofText text, _ → _))

instance : (parts : List (List Char)) → Decidable (ReadsApart parts)
  | [] => .isTrue trivial
  | _ :: us => have := instDecidableReadsApart us; inferInstanceAs (Decidable (_ ∧ ReadsApart us))

/-- **When marks make no difference.** In a preprocessed text all of whose marks are read, the
grammar sees what stands between the marks, part by part, and each part as if it were by itself. If
the parts are read apart when they stand next to each other, then the grammar sees the same in the
text without marks. Where it does see the same, it sees no delimiters, and the trees of the two
texts have one shape. -/
theorem marks_transparent (path text : String) (s : Session) (hs : s.Unmarked)
    (hp : Unmarked path.toList) (ht : Unmarked text.toList) :
    ∀ p s', preprocessText path text s = .ok p s' →
      (ReadsMarks p.text →
        seenTokens p.text = (markParts p.text.toList).flatMap visiblePieces ∧
        (ReadsApart (markParts p.text.toList) → seenTokens p.stripped = seenTokens p.text)) ∧
      (seenTokens p.stripped = seenTokens p.text →
        (∀ x ∈ seenTokens p.text, Unmarked x.2) ∧ SameShape p.text p.stripped) := by
  intro p s' hpre
  have hspec := preprocessText_spec hs hp ht
  rw [hpre] at hspec
  obtain ⟨ws, hws, hsound⟩ := hspec
  have hmarked : MarkedBy p.text.toList _ := hws ▸ markedBy_writtenAll hsound
  have hstripped : seenTokens p.stripped = visiblePieces (withoutMarks p.text.toList) := by
    rw [seenTokens_eq, PreprocessedText.stripped, String.toList_ofList]
  refine ⟨fun hread => ?_, fun heq => ⟨?_, sameShape_of_seenTokens heq⟩⟩
  · rw [readsMarks_iff] at hread
    rw [hstripped, seenTokens_eq]
    exact ⟨visiblePieces_eq hmarked hread, visiblePieces_withoutMarks hmarked hread⟩
  · rw [hstripped, seenTokens_eq] at heq
    rw [seenTokens_eq]
    exact unmarked_visiblePieces hmarked heq

/-- Does what a text is preprocessed to pass a test? -/
def preprocesses (text : String) (test : PreprocessedText → Bool) : Bool :=
  match preprocessText "test.sv" text bareSession with
  | .ok p _ => test p
  | .error _ _ => false

theorem exists_of_preprocesses (text : String) (test : PreprocessedText → Bool)
    (h : preprocesses text test = true) :
    ∃ p s', preprocessText "test.sv" text bareSession = .ok p s' ∧ test p = true := by
  unfold preprocesses at h
  split at h
  · exact ⟨_, _, ‹_›, h⟩
  · cases h

/-- A text in which a macro gives a width. -/
def macroWidth : String := "`define W 4\nmodule m; wire [`W-1:0] a; endmodule\n"

theorem marks_transparent_macroWidth :
    bareSession.Unmarked ∧ Unmarked "test.sv".toList ∧ Unmarked macroWidth.toList ∧
      ∃ p s', preprocessText "test.sv" macroWidth bareSession = .ok p s' ∧
        ReadsMarks p.text ∧ ReadsApart (markParts p.text.toList) ∧
        seenTokens p.stripped = seenTokens p.text ∧ SameShape p.text p.stripped := by
  have ht : Unmarked macroWidth.toList := by decide
  have hp : Unmarked "test.sv".toList := by decide
  obtain ⟨p, s', hpre, htest⟩ := exists_of_preprocesses macroWidth
    (fun p => decide (ReadsMarks p.text ∧ ReadsApart (markParts p.text.toList)))
    (by decide +kernel)
  obtain ⟨hread, hapart⟩ := of_decide_eq_true htest
  obtain ⟨hseen, hshape⟩ := marks_transparent _ _ _ unmarked_bareSession hp ht p s' hpre
  have heq := (hseen hread).2 hapart
  exact ⟨unmarked_bareSession, hp, ht, p, s', hpre, hread, hapart, heq, (hshape heq).2⟩

/-- A text in which a macro gives the digits of a number. -/
def macroDigits : String := "`define D 3\nmodule m; assign x = 8'h`D; endmodule\n"

/-- **Marks do make a difference**: an escaped identifier at the end of a macro takes in a mark, and
a number of which a macro gives the digits is cut by a mark, though all marks are read there. -/
theorem seenTokens_stripped_ne :
    (Unmarked escapedBody.toList ∧
      ∃ p s', preprocessText "test.sv" escapedBody bareSession = .ok p s' ∧
        seenTokens p.stripped ≠ seenTokens p.text) ∧
    Unmarked macroDigits.toList ∧
      ∃ p s', preprocessText "test.sv" macroDigits bareSession = .ok p s' ∧ ReadsMarks p.text ∧
        seenTokens p.stripped ≠ seenTokens p.text := by
  refine ⟨⟨by decide, ?_⟩, by decide, ?_⟩
  · obtain ⟨p, s', hpre, htest⟩ := exists_of_preprocesses escapedBody
      (fun p => decide (seenTokens p.stripped ≠ seenTokens p.text)) (by decide +kernel)
    exact ⟨p, s', hpre, of_decide_eq_true htest⟩
  · obtain ⟨p, s', hpre, htest⟩ := exists_of_preprocesses macroDigits
      (fun p => decide (ReadsMarks p.text ∧ seenTokens p.stripped ≠ seenTokens p.text))
      (by decide +kernel)
    exact ⟨p, s', hpre, of_decide_eq_true htest⟩

end Verilog
