import Verilog.Proofs.Directive.Pieces
import Verilog.Proofs.Grammar.Takes
import Verilog.Proofs.Preprocess.Run

/-!
# Texts without directives

A text in which no token is a directive or a macro use is copied token by token, and of its tokens
only the line continuations do not come out as they are: a line feed is written for each
(`DirectiveText.scan_ordinary`). Directives and macro uses begin with a backquote; so preprocessing
changes nothing in a text that has neither backquotes nor backslashes (`preprocessText_of_plain`).

A substituted text without a backquote has no uses to expand and is given as it is, while a scan of
it leaves out the backslashes of its line continuations. So the two come out on one line as the same
text exactly if there is no continuation (`DirectiveText.expandText_agrees_iff`). A text with one
comes out differently as soon as a backquote stands somewhere else in it.
-/

namespace Verilog

/-- Has a text neither backquotes nor backslashes? -/
def IsPlain (s : List Char) : Prop := backquote ∉ s ∧ '\\' ∉ s

namespace DirectiveKind

open Pattern

/-- Is a token of the kind neither a directive nor a predefined text nor the use of a macro? -/
def isOrdinary (k : DirectiveKind) : Bool :=
  !(k.isDirective || [currentFile, currentLine, macroIdentifier].contains k)

theorem mem_of_split_text {c : Char} {a : Pattern} {s x rest : List Char}
    (h : (seq (text [c]) a).split s = some (x, rest)) : c ∈ x := by
  rw [split, split] at h
  cases hs : stripFront [c] s with
  | none =>
    rw [hs] at h
    cases h
  | some s' =>
    simp only [hs, Option.map_some, Option.map_eq_some_iff, Prod.mk.injEq] at h
    obtain ⟨r, -, rfl, -⟩ := h
    exact List.mem_cons_self

/-- Only one class has tokens that are not ordinary, and these begin with a backquote. -/
theorem classes_ordinary : ∀ cls ∈ lexicon.classes, (∀ s, (cls.2 s).isOrdinary = true) ∨
    ∃ a, cls.1 = seq (text [backquote]) a := by
  intro cls hcls
  simp only [lexicon, List.mem_cons, List.not_mem_nil, or_false] at hcls
  rcases hcls with h | h | h | h | h | h | h | h | h | h | h | h | h | h | h | h | h | h | h | h |
    h | h <;> subst h
  case inr.inr.inl => exact .inr ⟨_, rfl⟩
  all_goals exact .inl fun _ => rfl

/-- Does neither a directive nor the use of a macro stand in a text? -/
def IsOrdinary (s : String) : Prop := ∀ t ∈ DirectiveToken.ofText s, t.kind.isOrdinary = true

instance (s : String) : Decidable (IsOrdinary s) :=
  inferInstanceAs (Decidable (∀ t ∈ DirectiveToken.ofText s, t.kind.isOrdinary = true))

/-- **The tokens of a text without backquotes** are ordinary. -/
theorem isOrdinary_of_not_mem {s : String} (hs : backquote ∉ s.toList) : IsOrdinary s := by
  intro t ht
  have hchars : ∀ c ∈ t.text.toList, c ∈ s.toList := fun c hc => by
    rw [← lexicon.flatMap_tokens s]
    exact List.mem_flatMap.mpr ⟨t, ht, hc⟩
  rcases Lexicon.class_of_mem_tokens ht with ⟨hkind, -⟩ | ⟨cls, hcls, input, rest, hsplit, hkind, -⟩
  -- a token is text that a class takes, or a character that none takes
  · rw [hkind]
    rfl
  · rcases classes_ordinary cls hcls with h | ⟨a, hpattern⟩
    · exact hkind ▸ h _
    · exact absurd (hchars _ (mem_of_split_text (hpattern ▸ hsplit))) hs

end DirectiveKind

open DirectiveKind

namespace DirectiveGrammar

open Grammar Runner

/-- The piece of a text that an ordinary token is. -/
def ordinaryPiece (v : Nat × DirectiveKind) : ParseTree :=
  if v.2 = .escapedIdentifier then .node .ppEscapedIdentifier [.leaf v.1] else .leaf v.1

/-- An ordinary token is a piece of the text by itself. -/
theorem takes_ordinary (callee : DirectiveRule → Runner DirectiveKind)
    (v : Nat × DirectiveKind) (s : List (Nat × DirectiveKind)) (hv : v.2.isOrdinary = true) :
    (piece.run callee).Takes (v :: s) s [ordinaryPiece v] := by
  obtain ⟨i, k⟩ := v
  by_cases hk : k = .escapedIdentifier
  · subst hk
    exact takes_choice callee rfl 18 rfl rfl ((takes_token i s rfl).map _)
  · -- of the twenty kinds of pieces the last one is any token; those before it refuse this kind
    rw [ordinaryPiece, if_neg hk]
    refine takes_choice callee rfl 19 rfl ?_ (takes_token i s rfl)
    cases k <;> first | rfl | exact absurd rfl hk | cases hv

theorem steps_ordinary (callee : DirectiveRule → Runner DirectiveKind)
    (vs : List (Nat × DirectiveKind)) (hvs : ∀ v ∈ vs, v.2.isOrdinary = true) :
    Steps (piece.run callee) vs [] (vs.map ordinaryPiece) := by
  induction vs with
  | nil => exact .nil []
  | cons v vs ih =>
    obtain ⟨hv, hvs⟩ := List.forall_mem_cons.mp hvs
    exact .cons (takes_ordinary callee v vs hv) (Nat.lt_succ_self _) (ih hvs)

/-- **The tree of ordinary tokens** has a piece for each. -/
theorem parse_ordinary {tokens : List DirectiveToken}
    (h : ∀ t ∈ tokens, t.kind.isOrdinary = true) : parse tokens =
      .node .ppTopLevelRule (tokens.zipIdx.map fun t => ordinaryPiece (t.2, t.1.kind)) := by
  let vs := tokens.zipIdx.map fun t => (t.2, t.1.kind)
  have hvs : ∀ v ∈ vs, v.2.isOrdinary = true := fun v hv => by
    obtain ⟨t, ht, rfl⟩ := List.mem_map.mp hv
    exact h t.1 (List.fst_mem_of_mem_zipIdx ht)
  have hall : (text.run (runRef rules (vs.length + 1))).Takes vs []
      [.node .ppTopLevelRule (vs.map ordinaryPiece)] :=
    ((steps_ordinary _ vs hvs).many (refuses_run _ rfl piece rfl)).map _
  rw [parse, parse_of_takes hall]
  simp [vs]

end DirectiveGrammar

open DirectiveGrammar

/-- What is written for an ordinary token: itself, and a line feed for a line continuation. -/
def DirectiveToken.copied (t : DirectiveToken) : String :=
  if t.kind = .lineContinuation then "\n" else t.text

namespace DirectiveText

variable (expand : Expander) (includer : Includer)

/-- The characters that are written for a text of ordinary tokens. -/
def copyOf (text : String) : List Char :=
  (DirectiveToken.ofText text).flatMap fun t => t.copied.toList

theorem scanPiece_ordinary (d : DirectiveText) {t : DirectiveToken} {i : Nat}
    (htoken : d.tokens[i]? = some t) (ht : t.kind.isOrdinary = true) :
    d.scanPiece expand includer {} (ordinaryPiece (i, t.kind)) =
      Preprocessing.emit t.copied *> pure {} := by
  have hdirective : t.kind.isDirective = false := by
    simp only [isOrdinary, Bool.not_eq_true', Bool.or_eq_false_iff] at ht
    exact ht.1
  -- no chain is open, so the text is active
  have hcopy : d.copyToken {} i = Preprocessing.emit t.copied := by
    have hactive : Conditionals.active [] = true := rfl
    rw [copyToken, htoken, DirectiveToken.copied]
    simp only [hdirective, hactive, Bool.false_eq_true, Bool.not_true, ↓reduceIte]
    split <;> rfl
  rw [ordinaryPiece]
  split
  · rw [scanPiece, if_neg (by decide), if_neg (by decide)]
    change (d.copyToken {} i >>= fun _ => pure ()) >>= (fun _ => pure ({} : ScanScope)) = _
    rw [hcopy]
    rfl
  · rw [scanPiece, hcopy]
    rfl

/-- **Ordinary tokens** are copied one by one, and nothing else happens. -/
theorem foldlM_scanPiece_ordinary (d : DirectiveText) (ts : List (DirectiveToken × Nat))
    (hts : ∀ t ∈ ts, d.tokens[t.2]? = some t.1 ∧ t.1.kind.isOrdinary = true)
    (st : PreprocessState) :
    (ts.map fun t => ordinaryPiece (t.2, t.1.kind)).foldlM (d.scanPiece expand includer) {} st =
      .ok {} { st with
        line := st.line + newlines (ts.flatMap fun t => t.1.copied.toList)
        text := st.text ++ String.ofList (ts.flatMap fun t => t.1.copied.toList) } := by
  induction ts generalizing st with
  | nil =>
    have : st.text ++ String.ofList [] = st.text := by simp
    simp only [List.flatMap_nil, this]
    rfl
  | cons t ts ih =>
    obtain ⟨⟨htoken, hkind⟩, hts⟩ := List.forall_mem_cons.mp hts
    have hone : d.scanPiece expand includer {} (ordinaryPiece (t.2, t.1.kind)) st = .ok {} { st with
        line := st.line + newlines t.1.copied.toList, text := st.text ++ t.1.copied } := by
      rw [scanPiece_ordinary expand includer d htoken hkind]
      rfl
    rw [List.map_cons, List.foldlM_cons, Step.bind_of_ok hone]
    refine (ih hts _).trans ?_
    simp only [List.flatMap_cons, newlines_append, Nat.add_assoc, String.ofList_append,
      String.append_assoc, String.ofList_toList]

/-- **A text without directives and macro uses** is copied token by token. -/
theorem scan_ordinary {text : String} (h : IsOrdinary text) (file : Option String)
    (parent : NodeId) (recording : Bool) (st : PreprocessState) :
    (ofText text file parent recording).scan expand includer st = .ok ()
      { st with
        line := st.line + newlines (copyOf text)
        text := st.text ++ String.ofList (copyOf text) } := by
  have hchars : (DirectiveToken.ofText text).zipIdx.flatMap (fun t => t.1.copied.toList) =
      copyOf text := by
    have hfst := List.flatMap_map Prod.fst (fun t : DirectiveToken => t.copied.toList)
      (DirectiveToken.ofText text).zipIdx
    rw [List.zipIdx_map_fst] at hfst
    exact hfst.symm
  have hrun := foldlM_scanPiece_ordinary expand includer (ofText text file parent recording)
    (DirectiveToken.ofText text).zipIdx (fun t ht =>
      ⟨by simpa [ofText] using List.mk_mem_zipIdx_iff_getElem?.mp ht,
        h t.1 (List.fst_mem_of_mem_zipIdx ht)⟩) st
  rw [hchars] at hrun
  have htree : DirectiveGrammar.parse (ofText text file parent recording).tokens.toList =
      .node .ppTopLevelRule
        ((DirectiveToken.ofText text).zipIdx.map fun t => ordinaryPiece (t.2, t.1.kind)) :=
    DirectiveGrammar.parse_ordinary h
  rw [scan, htree, ParseTree.children, Step.bind_of_ok hrun]
  cases recording <;> rfl

/-- Without a line continuation a text is copied as it is. -/
theorem copyOf_eq {text : String}
    (h : ∀ t ∈ DirectiveToken.ofText text, t.kind ≠ .lineContinuation) :
    copyOf text = text.toList := by
  refine Eq.trans ?_ (lexicon.flatMap_tokens text)
  refine List.flatMap_congr fun t ht => ?_
  rw [DirectiveToken.copied, if_neg (h t ht)]

/-- **A text without directives** comes out as it is. -/
theorem scan_plain {text : String} (h : IsPlain text.toList) (file : Option String)
    (parent : NodeId) (st : PreprocessState) :
    (ofText text file parent true).scan expand includer st = .ok ()
      { st with line := st.line + newlines text.toList, text := st.text ++ text } := by
  have hcopy : copyOf text = text.toList := copyOf_eq fun t ht hkind => by
    have hslash : '\\' ∈ t.text.toList := by
      rcases DirectiveToken.text_of_continuation ht hkind with h | h <;> simp [h]
    refine h.2 ?_
    rw [← lexicon.flatMap_tokens text]
    exact List.mem_flatMap.mpr ⟨t, ht, hslash⟩
  rw [scan_ordinary expand includer (isOrdinary_of_not_mem h.1), hcopy, String.ofList_toList]

end DirectiveText

/-- What a text without directives is preprocessed to. -/
def PreprocessedText.plain (path text : String) (s : Session) : PreprocessedText :=
  let st : PreprocessState := .start path text s
  ⟨some path, text, st.nodes, st.lines, st.includes.toList, st.macros, st.states.toList⟩

theorem preprocessText_plain {text : String} (h : IsPlain text.toList) (path : String)
    (s : Session) : preprocessText path text s = .ok (.plain path text s) s := by
  rw [preprocessText_eq, scanFile, DirectiveText.scan_plain _ _ h]
  simp [PreprocessState.start, PreprocessedText.plain]

/-- **A text without directives is preprocessed to itself**, whatever macros there are, and nothing
is reported. -/
theorem preprocessText_of_plain {text : String} (h : IsPlain text.toList) (path : String)
    (s : Session) : ∃ p, preprocessText path text s = .ok p s ∧ p.text = text :=
  ⟨_, preprocessText_plain h path s, rfl⟩

/-! ### Expanding a text without macro uses -/

namespace DirectiveText

/-- Expands a text by scanning it, whether or not it has uses to expand. -/
def rescan (depth : Nat) : Expander := fun file name text =>
  Preprocessing.apart
    ((ofText text file 0 false).scan (expandWithin depth) fun _ => pure none) name

/-- A text is scanned where it has a backquote, and given as it is otherwise. -/
theorem expandWithin_succ (depth : Nat) (file : Option String) (name text : String) :
    expandWithin (depth + 1) file name text =
      if text.toList.contains backquote then rescan depth file name text else pure text := rfl

variable {text : String} {t : DirectiveToken}

theorem rescan_ordinary (h : backquote ∉ text.toList) (depth : Nat) (file : Option String)
    (name : String) (st : PreprocessState) :
    rescan depth file name text st = .ok (String.ofList (copyOf text)) st := by
  rw [rescan, Preprocessing.apart, scan_ordinary _ _ (isOrdinary_of_not_mem h)]
  simp

theorem flatten_append (s u : List Char) : flatten (s ++ u) = flatten s ++ flatten u := by
  rw [flatten, List.filter_append, List.map_append]
  rfl

theorem flatten_flatMap {α : Type} (f : α → List Char) (xs : List α) :
    flatten (xs.flatMap f) = xs.flatMap fun x => flatten (f x) := by
  induction xs with
  | nil => rfl
  | cons x xs ih => rw [List.flatMap_cons, flatten_append, ih, List.flatMap_cons]

/-- The backslash is what a line continuation leaves behind if it is not read as one. -/
theorem length_flatten_text (ht : t ∈ DirectiveToken.ofText text) :
    (flatten t.text.toList).length = (flatten t.copied.toList).length +
      if t.kind = .lineContinuation then 1 else 0 := by
  rw [DirectiveToken.copied]
  by_cases hk : t.kind = .lineContinuation
  · rw [if_pos hk, if_pos hk]
    rcases DirectiveToken.text_of_continuation ht hk with h | h <;> rw [h] <;> rfl
  · rw [if_neg hk, if_neg hk, Nat.add_zero]

/-- **A text and its copy** come out on one line as the same text exactly if no line of it is
continued. -/
theorem flatten_copyOf_iff : flatten text.toList = flatten (copyOf text) ↔
    ∀ t ∈ DirectiveToken.ofText text, t.kind ≠ .lineContinuation := by
  refine ⟨fun h => ?_, fun h => by rw [copyOf_eq h]⟩
  have hlen {ts : List DirectiveToken} (hts : ∀ t ∈ ts, t ∈ DirectiveToken.ofText text) :
      (ts.flatMap fun t => flatten t.text.toList).length =
        (ts.flatMap fun t => flatten t.copied.toList).length +
          (ts.filter (·.kind = .lineContinuation)).length := by
    induction ts with
    | nil => rfl
    | cons t ts ih =>
      obtain ⟨ht, hts⟩ := List.forall_mem_cons.mp hts
      have := length_flatten_text ht
      have := ih hts
      simp only [List.flatMap_cons, List.length_append, List.filter_cons]
      by_cases hk : t.kind = .lineContinuation <;> simp only [hk, decide_true, decide_false,
        ↓reduceIte, List.length_cons, Bool.false_eq_true] at * <;> omega
  have hall := hlen fun t ht => ht
  rw [← flatten_flatMap, ← flatten_flatMap, ← copyOf, DirectiveToken.ofText,
    DirectiveKind.lexicon.flatMap_tokens text, h, Nat.left_eq_add, List.length_eq_zero_iff,
    List.filter_eq_nil_iff] at hall
  intro t ht
  simpa using hall t ht

/-- **When the expansion agrees with a scan**: a text without backquotes is expanded to itself, a
scan of it reports nothing and changes no state, and on one line the two texts are the same exactly
if the text has no line continuation. -/
theorem expandText_agrees_iff (h : backquote ∉ text.toList) (depth : Nat) (file : Option String)
    (name : String) (st : PreprocessState) :
    expandText file name text st = .ok text st ∧
      ∃ scanned, rescan depth file name text st = .ok scanned st ∧
        (flatten text.toList = flatten scanned.toList ↔
          ∀ t ∈ DirectiveToken.ofText text, t.kind ≠ .lineContinuation) := by
  constructor
  · rw [expandText, maxExpansionDepth, expandWithin_succ, if_neg (by simpa using h)]
    rfl
  · refine ⟨_, rescan_ordinary h depth file name st, ?_⟩
    rw [String.toList_ofList]
    exact flatten_copyOf_iff

/-- A sum that goes on in the next line, as an argument of a macro may. -/
def continuedSum : String := "a + \\\n b"

theorem expandText_agrees_iff_continuedSum :
    backquote ∉ continuedSum.toList ∧
      let st := PreprocessState.start "test.sv" "" (.start {} .empty)
      expandText none "ID" continuedSum st = .ok continuedSum st ∧
        ∃ scanned, rescan 63 none "ID" continuedSum st = .ok scanned st ∧
          (flatten continuedSum.toList = flatten scanned.toList ↔
            ∀ t ∈ DirectiveToken.ofText continuedSum, t.kind ≠ .lineContinuation) :=
  have h : backquote ∉ continuedSum.toList := by decide
  ⟨h, expandText_agrees_iff h 63 none "ID" _⟩

/-- The expansion keeps the backslash of a continued sum, and a scan does not. -/
theorem rescan_continuedSum_ne :
    let st := PreprocessState.start "test.sv" "" (.start {} .empty)
    ∃ scanned, rescan 63 none "ID" continuedSum st = .ok scanned st ∧
      flatten continuedSum.toList = "a + \\  b".toList ∧
      flatten scanned.toList = "a +   b".toList := by
  refine ⟨_, rescan_ordinary (by decide) 63 none "ID" _, by decide, ?_⟩
  rw [String.toList_ofList]
  decide

end DirectiveText

end Verilog
