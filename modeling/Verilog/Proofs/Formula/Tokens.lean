import Verilog.Proofs.Formula.Parse
import Verilog.Proofs.Preprocess.Plain
import Verilog.Proofs.Source.Mark

/-!
# The text of a module that assigns a formula

The text is its own preprocessing, its tokens are the words of the formula between those of the
module, and none of them is a mark or unknown. What the grammar sees of it are tokens that spell the
formula (`Formula.visible_moduleText`), at positions where the words stand (`FormulaWord.Stands`).
-/

namespace Verilog

/-! ### Plain texts -/

theorem isNameRest_of_isWord {s : List Char} (h : isWord s = true) :
    ∀ c ∈ s, isNameRest c = true := by
  cases s with
  | nil => cases h
  | cons c s =>
    rw [isWord, Bool.and_eq_true, List.all_eq_true] at h
    refine List.forall_mem_cons.mpr ⟨?_, h.2⟩
    have hc := h.1
    simp only [isNameStart, isNameRest, Char.isAlphanum, Bool.or_eq_true] at hc ⊢
    tauto

theorem isPlain_of_class {p : Char → Bool} {s : List Char} (hs : ∀ c ∈ s, p c = true)
    (hbackquote : p backquote = false) (hbackslash : p '\\' = false) : IsPlain s :=
  ⟨fun h => ne_of_class (hs _ h) hbackquote rfl, fun h => ne_of_class (hs _ h) hbackslash rfl⟩

theorem IsPlain.append {s t : List Char} (hs : IsPlain s) (ht : IsPlain t) : IsPlain (s ++ t) :=
  ⟨by simp [hs.1, ht.1], by simp [hs.2, ht.2]⟩

instance (s : List Char) : Decidable (IsPlain s) := inferInstanceAs (Decidable (_ ∧ _))

namespace FormulaWord

theorem isPlain_text (w : FormulaWord) : IsPlain w.text.toList := by
  cases w with
  | name x => exact isPlain_of_class (isNameRest_of_isWord x.isWord) rfl rfl
  | number n => exact isPlain_of_class (isDigit_text_number n).2 rfl rfl
  | unary op =>
    cases op
    case reduceXnor b => cases b <;> decide
    all_goals decide
  | binary op =>
    cases op
    case bitXnor b => cases b <;> decide
    all_goals decide
  | question | colon | leftParen | rightParen => decide

theorem isPlain_spaced : (ws : List FormulaWord) → IsPlain (" ".intercalate (ws.map text)).toList
  | [] => by decide
  | [w] => by simpa using w.isPlain_text
  | w :: w' :: ws => by
    have hmore := isPlain_spaced (w' :: ws)
    rw [List.map_cons, List.map_cons, String.intercalate_cons_cons, String.toList_append,
      String.toList_append]
    exact (w.isPlain_text.append (by decide)).append hmore

/-! ### Pieces -/

/-- A word as a piece of a text. -/
def piece (w : FormulaWord) : SourceKind × List Char := (w.kind, w.text.toList)

/-- A blank as a piece of a text. -/
def blank : SourceKind × List Char := (.whitespace, [' '])

/-- The pieces of words with blanks between. -/
def spacedPieces : List FormulaWord → List (SourceKind × List Char)
  | [] => []
  | [w] => [w.piece]
  | w :: w' :: ws => w.piece :: blank :: spacedPieces (w' :: ws)

end FormulaWord

open FormulaWord

/-- What words with blanks between begin with: no blank, and no quote. -/
theorem exists_spaced_eq_cons (w : FormulaWord) (ws : List FormulaWord) (rest : List Char) :
    ∃ c s, (" ".intercalate ((w :: ws).map text)).toList ++ rest = c :: s ∧ isSpace c = false ∧
      c ≠ '\'' := by
  obtain ⟨c, s, hw, hc⟩ := w.exists_text_eq_cons
  cases ws with
  | nil => exact ⟨c, s ++ rest, by simp [hw], hc⟩
  | cons w' ws =>
    refine ⟨c, s ++ (" ".toList ++ ((" ".intercalate ((w' :: ws).map text)).toList ++ rest)), ?_,
      hc⟩
    simp only [List.map_cons, String.intercalate_cons_cons, String.toList_append, hw,
      List.cons_append, List.append_assoc]

/-- **Words with blanks between** are cut into the words and the blanks. -/
theorem sourcePieces_spaced {rest : List Char} (hrest : Parted rest) :
    (ws : List FormulaWord) → ws ≠ [] →
      sourcePieces ((" ".intercalate (ws.map text)).toList ++ rest) =
        spacedPieces ws ++ sourcePieces rest
  | [w], _ => by
    have hw : (" ".intercalate ([w].map text)).toList = w.text.toList := by simp
    rw [hw]
    exact Lexicon.pieces_cons (w.firstMatch_text hrest)
  | w :: w' :: ws, _ => by
    have hmore := sourcePieces_spaced hrest (w' :: ws) (by simp)
    obtain ⟨c, s, hs, hspace, hquote⟩ := exists_spaced_eq_cons w' ws rest
    have htext : (" ".intercalate ((w :: w' :: ws).map text)).toList ++ rest =
        w.text.toList ++ (' ' :: c :: s) := by
      rw [List.map_cons, List.map_cons, String.intercalate_cons_cons, ← List.map_cons, ← hs]
      simp
    rw [htext, spacedPieces, List.cons_append, List.cons_append, ← hmore, hs]
    have hword := Lexicon.pieces_cons (w.firstMatch_text (.blank s hspace hquote))
    have hblank := Lexicon.pieces_cons (SourceKind.firstMatch_blank s hspace)
    exact hword.trans (congrArg _ hblank)

/-! ### The text of the module -/

namespace Formula

theorem words_ne_nil (f : Formula) : f.words ≠ [] := by
  cases f with
  | name | number | parens => simp [words]
  | unary op f => simp [words]
  | binary op f g => simp [words]
  | choose c f g => simp [words]

theorem toList_moduleText (f : Formula) : f.moduleText.toList = "module m; assign x = ".toList ++
    ((" ".intercalate (f.words.map FormulaWord.text)).toList ++ "; endmodule".toList) := by
  have htext : f.moduleText = "module m; assign x = " ++
    " ".intercalate (f.words.map FormulaWord.text) ++ "; endmodule" := rfl
  rw [htext, String.toList_append, String.toList_append, List.append_assoc]

theorem isPlain_moduleText (f : Formula) : IsPlain f.moduleText.toList := by
  rw [toList_moduleText]
  exact IsPlain.append (by decide +kernel) ((isPlain_spaced f.words).append (by decide +kernel))

/-- The pieces of the module before the formula. -/
def frontPieces : List (SourceKind × List Char) := [
  (.kwModule, "module".toList), blank, (.identifier, ['m']), (.semi, [';']), blank,
  (.kwAssign, "assign".toList), blank, (.identifier, ['x']), blank, (.equals, ['=']), blank]

/-- The pieces of the module behind the formula. -/
def backPieces : List (SourceKind × List Char) :=
  [(.semi, [';']), blank, (.kwEndmodule, "endmodule".toList)]

/-- The text before a formula is cut into its pieces, whatever comes behind the last blank. -/
theorem sourcePieces_front {c : Char} (s : List Char) (hc : isSpace c = false) :
    sourcePieces ("module m; assign x = ".toList ++ c :: s) =
      frontPieces ++ sourcePieces (c :: s) := by
  iterate 10 refine (Lexicon.pieces_cons rfl).trans (congrArg (List.cons _) ?_)
  exact Lexicon.pieces_cons (SourceKind.firstMatch_blank s hc)

/-- **The pieces of the text of a module.** -/
theorem sourcePieces_moduleText (f : Formula) :
    sourcePieces f.moduleText.toList = frontPieces ++ (spacedPieces f.words ++ backPieces) := by
  have hback : sourcePieces "; endmodule".toList = backPieces := by decide +kernel
  have hmiddle := sourcePieces_spaced (.semicolon " endmodule".toList) f.words f.words_ne_nil
  obtain ⟨w, ws, hwords⟩ := List.exists_cons_of_ne_nil f.words_ne_nil
  obtain ⟨c, s, hs, hspace, hquote⟩ := exists_spaced_eq_cons w ws "; endmodule".toList
  rw [← hwords] at hs
  rw [toList_moduleText, hs, sourcePieces_front s hspace, ← hs, ← hback]
  exact congrArg (frontPieces ++ ·) hmiddle

end Formula

/-! ### What the grammar sees -/

/-- The positions and kinds of pieces that stand behind so many others, hidden ones left out. -/
def seenPieces (n : Nat) (ps : List (SourceKind × List Char)) : List (Nat × SourceKind) :=
  ((ps.zipIdx n).map fun p => (p.2, p.1.1)).filter fun v => !v.2.isHidden

theorem seenPieces_append (n : Nat) (ps qs : List (SourceKind × List Char)) :
    seenPieces n (ps ++ qs) = seenPieces n ps ++ seenPieces (n + ps.length) qs := by
  simp [seenPieces, List.zipIdx_append]

theorem visible_ofText (s : String) :
    SourceGrammar.visible (SourceToken.ofText s) = seenPieces 0 (sourcePieces s.toList) := by
  have hkinds : (SourceToken.ofText s).map (·.kind) = (sourcePieces s.toList).map (·.1) :=
    SourceKind.lexicon.map_tokens (fun kind _ => kind) s
  have h := congrArg (fun ks => ks.zipIdx.map fun t => (t.2, t.1)) hkinds
  simp only [List.zipIdx_map, List.map_map] at h
  exact congrArg (List.filter fun v => !v.2.isHidden) h

/-- A token stands where its piece does. -/
theorem exists_token_of_piece {s : String} {i : Nat} {p : SourceKind × List Char}
    (h : (sourcePieces s.toList)[i]? = some p) :
    ∃ token, (SourceToken.ofText s).toArray[i]? = some token ∧ token.kind = p.1 ∧
      token.text.toList = p.2 := by
  have hmap := SourceKind.lexicon.map_tokens (fun kind text => (kind, text.toList)) s
  have hi := congrArg (·[i]?) hmap
  simp only [List.getElem?_map] at hi
  change _ = ((sourcePieces s.toList)[i]?).map _ at hi
  rw [h, Option.map_some, Option.map_eq_some_iff] at hi
  obtain ⟨token, htoken, he⟩ := hi
  rw [String.toList_ofList] at he
  exact ⟨token, by simpa [SourceToken.ofText] using htoken, congrArg (·.1) he, congrArg (·.2) he⟩

/-- Does a word stand at a position of the tokens? -/
def FormulaWord.Stands (tokens : Array SourceToken) (i : Nat) (w : FormulaWord) : Prop :=
  ∃ token, tokens[i]? = some token ∧ token.kind = w.kind ∧ token.text = w.text

theorem FormulaWord.isHidden_kind (w : FormulaWord) : w.kind.isHidden = false := by
  cases w with
  | unary op => cases op <;> rfl
  | binary op => cases op <;> rfl
  | name | number | question | colon | leftParen | rightParen => rfl

theorem seenPieces_piece (n : Nat) (w : FormulaWord) (ps : List (SourceKind × List Char)) :
    seenPieces n (w.piece :: ps) = (n, w.kind) :: seenPieces (n + 1) ps := by
  simp [seenPieces, piece, w.isHidden_kind]

theorem seenPieces_blank (n : Nat) (ps : List (SourceKind × List Char)) :
    seenPieces n (blank :: ps) = seenPieces (n + 1) ps := by
  simp [seenPieces, blank, SourceKind.isHidden]

theorem stands_of_piece {s : String} {front back : List (SourceKind × List Char)} {w : FormulaWord}
    (h : sourcePieces s.toList = front ++ w.piece :: back) :
    w.Stands (SourceToken.ofText s).toArray front.length := by
  obtain ⟨token, htoken, hkind, htext⟩ := exists_token_of_piece (s := s) (i := front.length)
    (p := w.piece) (by rw [h]; simp)
  exact ⟨token, htoken, hkind, String.toList_inj.mp htext⟩

/-- **Words with blanks between** are spelled by what the grammar sees of them. -/
theorem spells_seenPieces {s : String} {back : List (SourceKind × List Char)} :
    (ws : List FormulaWord) → (front : List (SourceKind × List Char)) →
      sourcePieces s.toList = front ++ (spacedPieces ws ++ back) →
      Spells (FormulaWord.Stands (SourceToken.ofText s).toArray)
        (seenPieces front.length (spacedPieces ws)) ws
  | [], _, _ => .nil
  | [w], front, h => by
    rw [spacedPieces, seenPieces_piece]
    exact List.Forall₂.cons ⟨rfl, stands_of_piece h⟩ .nil
  | w :: w' :: ws, front, h => by
    rw [spacedPieces, seenPieces_piece, seenPieces_blank]
    refine List.Forall₂.cons ⟨rfl, stands_of_piece h⟩ ?_
    have hmore := spells_seenPieces (w' :: ws) (front ++ [w.piece, blank])
      (by simpa [spacedPieces] using h)
    rwa [List.length_append] at hmore

namespace Formula

/-- **What the grammar sees of the module**: the words of the formula between those of the module.
-/
theorem visible_moduleText (f : Formula) : ∃ vs n,
    SourceGrammar.visible (SourceToken.ofText f.moduleText) =
      (0, .kwModule) :: (2, .identifier) :: (3, .semi) :: (5, .kwAssign) :: (7, .identifier) ::
        (9, .equals) :: (vs ++ [(n, .semi), (n + 2, .kwEndmodule)]) ∧
      Spells (FormulaWord.Stands (SourceToken.ofText f.moduleText).toArray) vs f.words := by
  have hpieces := f.sourcePieces_moduleText
  refine ⟨_, 11 + (spacedPieces f.words).length, ?_, spells_seenPieces f.words frontPieces hpieces⟩
  rw [visible_ofText, hpieces, seenPieces_append, seenPieces_append]
  rfl

/-- No token of the module is a mark or unknown. -/
theorem kinds_moduleText (f : Formula) : ∀ token ∈ SourceToken.ofText f.moduleText,
    token.kind.isMark = false ∧ token.kind ≠ .unknown := by
  have hword (w : FormulaWord) : w.kind.isMark = false ∧ w.kind ≠ .unknown := by
    cases w with
    | unary op => cases op <;> exact ⟨rfl, nofun⟩
    | binary op => cases op <;> exact ⟨rfl, nofun⟩
    | name | number | question | colon | leftParen | rightParen => exact ⟨rfl, nofun⟩
  have hspaced : (ws : List FormulaWord) → ∀ p ∈ spacedPieces ws,
      p.1.isMark = false ∧ p.1 ≠ .unknown := by
    intro ws
    induction ws using spacedPieces.induct with
    | case1 => simp [spacedPieces]
    | case2 w =>
      rw [spacedPieces, List.forall_mem_singleton]
      exact hword w
    | case3 w w' ws ih =>
      rw [spacedPieces, List.forall_mem_cons, List.forall_mem_cons]
      exact ⟨hword w, ⟨rfl, nofun⟩, ih⟩
  have hall : ∀ p ∈ sourcePieces f.moduleText.toList, p.1.isMark = false ∧ p.1 ≠ .unknown := by
    rw [sourcePieces_moduleText, List.forall_mem_append, List.forall_mem_append]
    exact ⟨by decide +kernel, hspaced _, by decide +kernel⟩
  intro token htoken
  have hkinds : (SourceToken.ofText f.moduleText).map (·.kind) =
      (sourcePieces f.moduleText.toList).map (·.1) :=
    SourceKind.lexicon.map_tokens (fun kind _ => kind) f.moduleText
  obtain ⟨p, hp, he⟩ := List.mem_map.mp (hkinds ▸ List.mem_map_of_mem htoken)
  exact he ▸ hall p hp

end Formula

/-!
## The tree of a module that assigns a formula

The tokens of the module are read as one module with one continuous assignment, whose right side is
the formula (`parse_moduleText`). No fault is met: no alternative that is tried before the right one
takes the token at which it begins, and the fuel for references lasts, since each word of the
formula nests no more than one.
-/

open Grammar Runner

/-- What a module with one assignment to a name is made of. -/
def assignParts (value : ParseTree) (n : Nat) : List ParseTree := [
  .node .paModuleKeyword [.leaf 0], .leaf 2, .leaf 3,
  .node .paContinuousAssign [
    .leaf 5, .node .paNetAssignment [.node .paNetLvalue [.leaf 7], .leaf 9, value], .leaf n],
  .leaf (n + 2)]

/-- The tree of a module with one assignment to a name. -/
def assignTree (value : ParseTree) (n : Nat) : ParseTree :=
  .node .paTopLevelRule [.node .paSourceText [.node .paModuleDeclaration (assignParts value n)]]

namespace SourceGrammar

variable {stands : Nat → FormulaWord → Prop} {fuel : Nat} {vs : List (Nat × SourceKind)}
  {f : Formula}

/-- **The assignment** is read as one, with the formula as its right side. -/
theorem takes_continuousAssign (n : Nat) (rest : List (Nat × SourceKind))
    (hs : Spells stands vs f.words) (hfuel : vs.length ≤ fuel) :
    ∃ t, (runs (fuel + 1) continuousAssign).Takes
      ((5, .kwAssign) :: (7, .identifier) :: (9, .equals) :: (vs ++ (n, .semi) :: rest)) rest
      [.node .paContinuousAssign [
        .leaf 5, .node .paNetAssignment [.node .paNetLvalue [.leaf 7], .leaf 9, t], .leaf n]] ∧
      f.Reads stands t := by
  obtain ⟨t, ht, hr⟩ := (isRead stands f).whole fuel vs ((n, .semi) :: rest) hs
    (follows_close rest (by simp)) hfuel
  refine ⟨t, ?_, hr⟩
  have hbehind : Follows 0 ((9, .equals) :: (vs ++ (n, .semi) :: rest)) :=
    follows_cons _ (by decide)
  have hname := takes_reference (fuel + 1) hbehind 7
  have hlvalue := (refuses_front (fuel + 1) (concatenation false) rfl).altTakes hname
  have hleft := hlvalue.map fun ts => [.node .paNetLvalue ts]
  have hright := (takes_kind (fuel + 1) 9 .equals (vs ++ (n, .semi) :: rest)).seq ht
  have hassign := (hleft.seq hright).map fun ts => [.node .paNetAssignment ts]
  have hcomma : (runs (fuel + 1) (token .comma)).Refuses ((n, .semi) :: rest) :=
    refuses_front _ (token .comma) rfl
  have hlist := hassign.sepBy hcomma (Nat.le_refl 1)
  exact ((takes_kind _ 5 .kwAssign _).seq (hlist.seq (takes_kind _ n .semi rest))).map _

/-- The word that opens a module. -/
def moduleKeyword : SourceGrammar := node .paModuleKeyword (oneOf [.kwModule, .kwMacromodule])

/-- The head of a module without parameters and ports. -/
theorem takes_header (fuel : Nat) (rest : List (Nat × SourceKind)) :
    (runs fuel (header moduleKeyword)).Takes
      ((0, .kwModule) :: (2, .identifier) :: (3, .semi) :: rest) rest
      [.node .paModuleKeyword [.leaf 0], .leaf 2, .leaf 3] := by
  have hword : (runs fuel (oneOf [.kwModule, .kwMacromodule])).Takes
      ((0, .kwModule) :: (2, .identifier) :: (3, .semi) :: rest) _ [.leaf 0] := takes_token 0 _ rfl
  have hkeyword := hword.map fun ts => [.node .paModuleKeyword ts]
  have hlifetime : (runs fuel (oneOf lifetimes)).Refuses ((2, .identifier) :: (3, .semi) :: rest) :=
    refuses_front fuel _ rfl
  have hparameters : (runs fuel parameterPorts).Refuses ((3, .semi) :: rest) :=
    refuses_front fuel _ rfl
  have hports : (runs fuel ports).Refuses ((3, .semi) :: rest) := refuses_front fuel _ rfl
  exact hkeyword.seq (hlifetime.opt.seq ((takes_name 2 _).seq
    (hparameters.opt.seq (hports.opt.seq (takes_kind fuel 3 .semi rest)))))

/-- **The module** is read as one, with the assignment as its only item. -/
theorem takes_description (n : Nat) (hs : Spells stands vs f.words) (hfuel : vs.length ≤ fuel) :
    ∃ t, (runs (fuel + 2) description).Takes
      ((0, .kwModule) :: (2, .identifier) :: (3, .semi) :: (5, .kwAssign) :: (7, .identifier) ::
        (9, .equals) :: (vs ++ [(n, .semi), (n + 2, .kwEndmodule)])) []
      [.node .paModuleDeclaration (assignParts t n)] ∧
      f.Reads stands t := by
  obtain ⟨t, ht, hr⟩ := takes_continuousAssign n [(n + 2, .kwEndmodule)] hs hfuel
  refine ⟨t, ?_, hr⟩
  have hsound : (runs (fuel + 1) soundItem).Takes _ _ _ := takes_choice _ rfl 7 rfl rfl ht
  have hkept := (hsound.retry itemStops).skipTo itemStops .paOpaqueBody
  have hitem : (runs (fuel + 2) item).Takes _ _ _ :=
    hkept.unlessAt (List.cons_ne_nil _ _) fun v hv => Option.some.inj hv ▸ (by decide)
  have hstop : (runs (fuel + 2) item).Refuses [(n + 2, .kwEndmodule)] :=
    refuses_front (fuel + 1) itemBody rfl
  have hitems := (Steps.cons hitem (by simp) (.nil _)).many hstop
  have hlabel : (runs (fuel + 2) (rule .paEndLabel [token .colon, identifier])).Refuses [] :=
    refuses_run _ rfl _ rfl
  have hend := (takes_kind (fuel + 2) (n + 2) .kwEndmodule []).seq hlabel.opt
  have hmodule : (runs (fuel + 2) (container .paModuleDeclaration moduleKeyword .kwEndmodule)).Takes
      _ _ _ := ((takes_header (fuel + 2) _).seq (hitems.seq hend)).map _
  exact (hmodule.alt _).retry []

end SourceGrammar

namespace Formula

/-- The tokens of a module with one assignment to a name, its value left out. -/
def frame (n : Nat) : List (Nat × SourceKind) :=
  [(0, .kwModule), (2, .identifier), (3, .semi), (5, .kwAssign), (7, .identifier), (9, .equals),
    (n, .semi), (n + 2, .kwEndmodule)]

/-- **The tokens of the module are read without a fault**, as a module that assigns the formula. -/
theorem parse_moduleText (f : Formula) : ∃ t n,
    SourceGrammar.parse (SourceToken.ofText f.moduleText) = (some (assignTree t n), []) ∧
      f.Reads (FormulaWord.Stands (SourceToken.ofText f.moduleText).toArray) t ∧
      frame n ⊆ SourceGrammar.visible (SourceToken.ofText f.moduleText) := by
  obtain ⟨vs, n, hvisible, hspells⟩ := f.visible_moduleText
  have hlen : (SourceGrammar.visible (SourceToken.ofText f.moduleText)).length = vs.length + 8 := by
    simp [hvisible]
  obtain ⟨t, ht, hr⟩ := SourceGrammar.takes_description n hspells
    (Nat.le_add_right vs.length 7)
  refine ⟨t, n, ?_, hr, by simp [hvisible, frame]⟩
  have hstop : (SourceGrammar.runs (vs.length + 9) SourceGrammar.description).Refuses [] :=
    (refuses_run _ rfl (choice _) rfl).retry []
  have htext : (SourceGrammar.runs (vs.length + 9) SourceGrammar.text).Takes _ [] _ :=
    (((Steps.cons ht (by simp) (.nil [])).many hstop).map _).map _
  rw [← hvisible] at htext
  rw [SourceGrammar.parse, parse_of_takes (by rw [hlen]; exact htext)]
  rfl

end Formula

end Verilog
