import Verilog.Proofs.Preprocess.Files
import Verilog.Proofs.Preprocess.LastLine
import Verilog.Proofs.Preprocess.Layout
import Verilog.Proofs.Source.Enclosed
import Verilog.Proofs.Syntax.Transparent

/-!
# Inclusion as text

A text with a directive that includes another one, and the text with the other one in the place of
the directive, are preprocessed to the same (`includes_textually`): the same macros are in force in
the end, and the grammar sees the same tokens. The two runs are followed side by side: before the
directive they do the same; where the text is included, one of them goes into another file and comes
back (`DirectiveText.enters_inclusion`, `Inclusion.abreast_included`), with nothing but marks and
line feeds written on the way; and behind it they do the same again.

This holds of texts that stand alone, and where the file that is included does not show: a `line`
directive counts for the rest of its own text only, so that it makes a difference in whose place it
stands (`renumbers_apart_ofNumber`).
-/

namespace Verilog

open Preprocessing Step

namespace DirectiveText

variable {d : DirectiveText} {t : ParseTree} {scope : ScanScope} {expand : Expander}
  {includer : Includer} {st : PreprocessState}

/-- The visit of a piece comes behind the scan of the pieces before it. -/
theorem exists_of_visits {ts us : List ParseTree} {v : Visit}
    (h : (d.visits expand includer (ts ++ t :: us) scope st)[ts.length]? = some v) :
    ts.foldlM (d.scanPiece expand includer) scope st = .ok v.scope v.before ∧ v.piece = t ∧
      ∃ next, d.scanPiece expand includer v.scope t v.before = .ok next v.after := by
  induction ts generalizing scope st with
  | nil =>
    rw [List.nil_append, visits] at h
    split at h
    · rename_i next after hrun
      obtain rfl : _ = v := Option.some.inj h
      exact ⟨rfl, rfl, next, hrun⟩
    · cases h
  | cons u ts ih =>
    rw [List.cons_append, visits] at h
    split at h
    · rename_i next mid hrun
      obtain ⟨hfold, hpiece⟩ := ih h
      exact ⟨by rw [List.foldlM_cons, bind_of_ok hrun, hfold], hpiece⟩
    · cases h

/-! ### Line feeds -/

theorem piecesOf_newline : piecesOf "\n" = [.leaf 0] := by decide +kernel

theorem signs_newline : signs "\n" = [(.newline, "\n")] := by decide +kernel

/-- A line feed in active text, or none, is written as it is. -/
theorem foldlM_feed {s : String} (hs : s = "" ∨ s = "\n") {n : Nat}
    (hholds : ∀ i < (signs s).length, d.sign? (n + i) = (signs s)[i]?)
    (hactive : scope.conditions.active = true) (st : PreprocessState) :
    ((piecesOf s).map (·.rename (n + ·))).foldlM (d.scanPiece expand includer) scope st =
      .ok scope (written s st) := by
  obtain rfl | rfl := hs
  · have hnone : piecesOf "" = [] := by decide +kernel
    have hwritten : written "" st = st := by simp [written, newlines]
    rw [hnone, hwritten]
    rfl
  · rw [signs_newline] at hholds
    have hsign := hholds 0 Nat.zero_lt_one
    rw [sign?, Nat.add_zero] at hsign
    obtain ⟨token, htoken, heq⟩ := Option.map_eq_some_iff.mp hsign
    obtain ⟨hkind, htext⟩ := Prod.mk.inj heq
    have hpieces : (piecesOf "\n").map (·.rename (n + ·)) = [.leaf n] := by
      rw [piecesOf_newline]
      rfl
    have hcopy : d.copyToken scope n st = .ok () (written "\n" st) := by
      rw [copyToken, htoken]
      dsimp only
      rw [hkind, htext, hactive]
      rfl
    rw [hpieces, List.foldlM_cons, scanPiece, bind_eq, bind_eq, hcopy]
    rfl

end DirectiveText

/-! ### Runs that spare something, piece by piece -/

namespace DirectiveText

/-- **A run that does not lapse** goes like the scan as such up to a piece and through it. -/
theorem sparing_of_visit {α : Type} {d : DirectiveText} {spared : Sparing} {t : ParseTree}
    {ts us : List ParseTree} {scope : ScanScope} {expand expand' : Expander}
    {includer includer' : Includer} {f : ScanScope → Preprocessing α} {st : PreprocessState}
    {v : Visit} (he : ∀ file name text, Spares (expand' file name text) (expand file name text))
    (hi : ∀ request, Spares (includer' request) (includer request))
    (hnone : NoLapse ((ts ++ t :: us).foldlM (d.pieceSparing spared expand' includer') scope >>= f)
      st)
    (hv : (d.visits expand includer (ts ++ t :: us) scope st)[ts.length]? = some v) :
    ts.foldlM (d.pieceSparing spared expand' includer') scope st = .ok v.scope v.before ∧
    v.piece = t ∧ ∃ next, d.scanPiece expand includer v.scope t v.before = .ok next v.after ∧
      ((ts ++ t :: us).foldlM (d.pieceSparing spared expand' includer') scope >>= f) st =
        (us.foldlM (d.pieceSparing spared expand' includer') next >>= f) v.after := by
  obtain ⟨hfold, hpiece, next, hnext⟩ := exists_of_visits hv
  have hparts : (ts ++ t :: us).foldlM (d.pieceSparing spared expand' includer') scope >>= f =
      ts.foldlM (d.pieceSparing spared expand' includer') scope >>= fun scope =>
        d.pieceSparing spared expand' includer' scope t >>= fun next =>
          us.foldlM (d.pieceSparing spared expand' includer') next >>= f := by
    rw [List.foldlM_append, bind_assoc]
    simp only [List.foldlM_cons, bind_assoc]
  rw [hparts] at hnone ⊢
  have hspares (scope : ScanScope) (t : ParseTree) :
      Spares (d.pieceSparing spared expand' includer' scope t)
        (d.scanPiece expand includer scope t) := spares_pieceSparing he hi scope t
  have hbefore := (Spares.foldlM hspares ts scope).eq_of_noLapse hnone.first
  rw [hfold] at hbefore
  have hthrough := (hspares v.scope t).eq_of_noLapse (hnone.second hbefore).first
  rw [hnext] at hthrough
  exact ⟨hbefore, hpiece, next, hnext, by rw [bind_of_ok hbefore, bind_of_ok hthrough]⟩

end DirectiveText

/-! ### What stands in the place of an inclusion -/

/-- Do two texts that are written in the place of an inclusion end with a line, each with what
stands behind it? -/
def Closed (y y' a b : List Char) : Prop :=
  y = [] ∧ y' = [] ∨ ∃ v v' f f', y = v ++ f ∧ y' = v' ++ f' ∧ Twins v v' ∧ Filler f ∧ Filler f' ∧
    '\n' ∈ f ++ a ∧ '\n' ∈ f' ++ b

theorem Twins.closed {y y' a b : List Char} (h : Twins y y') (hy : EndsLine y' ∨ '\n' ∈ b)
    (ha : y = [] ∨ y.getLast? = some '\n' ∨ '\n' ∈ a) : Closed y y' a b := by
  have hline (hends : EndsLine y') : Closed y y' a b := by
    obtain ⟨v', r', rfl, hr'⟩ := hends
    obtain ⟨v, r, rfl, hv, hr⟩ := h.exists_part
    exact .inr ⟨v, v', '\n' :: r, '\n' :: r', rfl, rfl, hv, .feed (hr.filler hr'), .feed hr',
      by simp, by simp⟩
  rcases hy with hends | hb
  · exact hline hends
  · rcases ha with rfl | hlast | ha
    · exact .inl ⟨rfl, h.symm.eq_nil⟩
    · exact hline (.of_getLast? (h.symm.getLast?_eq_newline hlast))
    · exact .inr ⟨y, y', [], [], by simp, by simp, h, .nil, .nil, ha, hb⟩

theorem filler_missingFeed (text : String) : Filler (DirectiveText.missingFeed text).toList := by
  rw [DirectiveText.missingFeed]
  split
  · exact .nil
  · exact .feed .nil

theorem mem_missingFeed {text : String} (h : text.toList.getLast? ≠ some '\n') :
    '\n' ∈ (DirectiveText.missingFeed text).toList := by
  rw [DirectiveText.missingFeed, if_neg (mt endsWith_newline.mp h)]
  exact List.mem_cons_self

/-- **What is written in the place of an inclusion**: on the first side between the marks of the
directive. -/
def Spliced (st₁ st₂ after₁ after₂ : PreprocessState) : Prop :=
  ∃ y y' a b, after₁.text.toList = st₁.text.toList ++ (beginMark ++ '\n' :: (y ++ a)) ∧
    after₂.text.toList = st₂.text.toList ++ '\n' :: (y' ++ b) ∧ Filler a ∧ Filler b ∧
    Closed y y' a b

namespace DirectiveText

variable {d : DirectiveText} {t : ParseTree} {scope : ScanScope}
  {st₁ st₂ inner back after : PreprocessState}

/-- **The end of an inclusion** closes what the included text wrote with a line, and so does a line
feed behind the same text in the place of the directive if the text lacks it. -/
theorem spliced_ended {included : String}
    (hbegin : inner.text.toList = st₁.text.toList ++ (beginMark ++ ['\n']))
    (hadded : Added Twins inner (written "\n" st₂) back after)
    (hends : included.toList.getLast? = some '\n' → ∀ v,
      after.text.toList = (written "\n" st₂).text.toList ++ v → EndsLine v)
    (node : NodeId) (edge : Nat) (resolved : Option String) :
    Spliced st₁ st₂ (d.ended true node t (d.resumed scope t edge resolved back))
      (written (missingFeed included) after) := by
  obtain ⟨y, y', hy, hy', htwins⟩ := hadded
  refine ⟨y, y', (missingFeed back.text).toList ++ (List.replicate (d.newlinesIn t) '\n' ++
    endMark node), (missingFeed included).toList, ?_, ?_, ?_, filler_missingFeed _,
    htwins.closed ?_ ?_⟩
  · simp [ended, resumed, hy, hbegin]
  · simp [written, hy']
  · exact (filler_missingFeed _).append ((Filler.of_feeds _).append (.of_mark (.inr ⟨node, rfl⟩)))
  · by_cases hlast : included.toList.getLast? = some '\n'
    · exact .inl (hends hlast y' hy')
    · exact .inr (mem_missingFeed hlast)
  · by_cases hnone : y = []
    · exact .inl hnone
    · by_cases hlast : y.getLast? = some '\n'
      · exact .inr (.inl hlast)
      · refine .inr (.inr (List.mem_append_left _ (mem_missingFeed ?_)))
        rwa [hy, List.getLast?_append_of_ne_nil _ hnone]

end DirectiveText

/-! ### A text that includes another one -/

/-- A text that includes another one: what stands before the directive, the directive, and what
stands behind it, with the file that is included and its text. -/
structure Inclusion where
  before : String
  directive : String
  after : String
  file : String
  included : String

/-- What tells a line. -/
def tellsLine : Sparing := fun _ kind => kind == .ppSvLineDirective

namespace Inclusion

/-- The text with the directive. -/
def text (i : Inclusion) : String := i.before ++ i.directive ++ i.after

/-- The text with the included text in the place of the directive, on lines of its own. -/
def spliced (i : Inclusion) : String :=
  i.before ++ "\n" ++ i.included ++ DirectiveText.missingFeed i.included ++ i.after

/-- **Does the included text stand on its own?** Each part of both texts is read independently of
the others. The included text includes nothing and does not tell its file, and it closes the chains
that it opens and no others. If it renumbers lines, then what stands behind the directive does not
tell its file. -/
structure StandsAlone (i : Inclusion) : Prop where
  reads : Composes i.text [i.before, i.directive, i.after]
  readsSpliced : Composes i.spliced
    [i.before, "\n", i.included, DirectiveText.missingFeed i.included, i.after]
  single : (piecesOf i.directive).length = 1
  includes : ∀ t ∈ piecesOf i.included, t.kind? ≠ some .ppIncludeDirective
  tells : ∀ t ∈ piecesOf i.included, t.kind? ≠ some .ppSvFileDirective
  closes : DirectiveText.closesAll 0 (piecesOf i.included) = true
  renumbers : (∀ t ∈ piecesOf i.included, t.kind? ≠ some .ppLineDirective) ∨
    ∀ t ∈ piecesOf i.after, t.kind? ≠ some .ppSvFileDirective

/-- What the included text is not to come to, in the texts of macros either: what tells its file or
a line. -/
def sparing (i : Inclusion) : Sparing := fun file kind =>
  tellsLine file kind || file == some i.file && kind == .ppSvFileDirective

/-- **Does the directive include the text?** It is visited behind what stands before it, and asks
for the file; macros that give the name of the file change no macros. Lines are told nowhere, and
the file is not told in its text. What is written up to the end of the directive does not end in a
backslash, but for line feeds and marks. -/
structure Happens (i : Inclusion) (path : String) (s : Session) (v : Visit) (node : NodeId)
    (inner : PreprocessState) : Prop where
  visit : (mainVisits path i.text s)[(piecesOf i.before).length]? = some v
  includes : (DirectiveText.ofText i.text (some path) 1 true).inclusion? s.config.includeDirs v =
    some (.ofText i.included (some i.file) node true, inner)
  macros : inner.macros.unsited = v.before.macros.unsited
  lines : NoLapse (scanFileSparing tellsLine path i.text s) (.start path i.text s)
  file : NoLapse ((DirectiveText.ofText i.included (some i.file) node true).scanSparing i.sparing
    (expandSparing i.sparing maxExpansionDepth)
    (includeSparing i.sparing s.config.includeDirs s.files.entries.length)) inner
  escapes : escapesFeed v.after.text.toList = false

end Inclusion

namespace DirectiveText

variable {s : Session} {is₁ is₂ : List String} {d₁ : DirectiveText}
  {t : ParseTree} {scope₁ : ScanScope} {st₁ st₂ after₁ inner : PreprocessState}
  {includeDirs : List String} {text path : String} {node : NodeId}

/-- Where an included text begins and the same text stands in the including one, the states are side
by side, with one more inclusion open on the first side. -/
theorem enters_inclusion (hr : d₁.recording = true)
    (hst : FilePeers (.upToSites s is₁ is₂) st₁ st₂)
    (hinc : d₁.inclusion? includeDirs ⟨t, scope₁, st₁, after₁⟩ =
      some (.ofText text (some path) node true, inner))
    (hmacros : inner.macros.unsited = st₁.macros.unsited) :
    inner.text.toList = st₁.text.toList ++ (beginMark ++ ['\n']) ∧
    FilePeers (.upToSites s (path :: is₁) is₂) inner (written "\n" st₂) ∧
    scope₁.conditions.active = true ∧
    ∃ edge, ∀ depth,
      d₁.scanPiece expandText (includeWithin includeDirs (depth + 1)) scope₁ t st₁ =
        match (DirectiveText.ofText text (some path) node true).scan expandText
          (includeWithin includeDirs depth) inner with
        | .ok _ back => .ok scope₁ (d₁.ended true (d₁.record st₁.nodes d₁.parent t).1 t
            (d₁.resumed scope₁ t edge (some path) { back with including := is₁ }))
        | .error e back => .error e { back with including := is₁ } := by
  obtain ⟨ts, name, mid, rfl, hactive, hname, hout, hpiece⟩ := scanPiece_of_inclusion hr hinc
  have hcomposed : Composed Session.UpToStopping Quiet
      (d₁.includedName expandText (.node .ppIncludeDirective ts)) :=
    composed_includedName (expanding_expandWithin _)
  have hquiet := hcomposed.keeps_of_ok frame_quiet hname
  obtain ⟨ds, hds⟩ := (hcomposed.reports alike_upToStopping).exists_addAll
    Session.UpToStopping.refl hname
  have hmid : mid.session = st₁.session.addAll ds := hds
  have hincluding : mid.including = is₁ := hquiet.including.trans hst.including₁
  obtain ⟨text', path', htext, rfl⟩ := IncludeRequest.exists_of_outcome hout
  obtain rfl : path = path' := Option.some.inj (congrArg DirectiveText.file htext)
  obtain ⟨es, hes⟩ := hst.session₁
  refine ⟨?_, ⟨⟨⟨es ++ ds, ?_⟩, hst.session₂, False.elim, ?_, ?_, ?_, hst.including₂⟩,
    fun _ => ⟨(hst.unmarked trivial).session, (hst.unmarked trivial).macros⟩⟩, hactive,
    mid.includes.size, ?_⟩
  · simp [asking, hquiet.text, begun]
  · change mid.session = _
    rw [hmid, hes]
    exact List.foldl_append.symm
  · exact MacroTable.unsited_eq_iff.mp (hmacros.trans (MacroTable.unsited_eq_iff.mpr hst.macros))
  · exact hquiet.expanding.trans hst.expanding
  · exact congrArg (path :: ·) hincluding
  · rw [← hincluding]
    exact hpiece

end DirectiveText

namespace Inclusion

open DirectiveText

variable {s : Session} {is₁ is₂ : List String} {i : Inclusion} {path : String} {node : NodeId}
  {includeDirs : List String} {depth : Nat} {includer : Includer} {t : ParseTree}
  {scope scope₁ scope₂ next₁ : ScanScope} {st st₁ st₂ after₁ inner back : PreprocessState}

/-- **The included text** does as a file what it does in the place of the directive. -/
theorem abreast_included (includer : Includer) (h : i.StandsAlone)
    (hd : (DirectiveText.ofText i.spliced (some path) 1 true).Unmarked)
    (hscope : scope.Unmarked) (hactive : scope.conditions.active = true)
    (hst : FilePeers (.upToSites s is₁ is₂) inner st)
    (hnone : NoLapse ((DirectiveText.ofText i.included (some i.file) node true).scanSparing
      i.sparing (expandSparing i.sparing maxExpansionDepth)
      (includeSparing i.sparing includeDirs depth)) inner)
    (hscan : (DirectiveText.ofText i.included (some i.file) node true).scan expandText
      (includeWithin includeDirs depth) inner = .ok () back)
    {n : Nat} (hn : Holds i.spliced n i.included) :
    ∃ next after,
      ((piecesOf i.included).map (·.rename (n + ·))).foldlM
        ((DirectiveText.ofText i.spliced (some path) 1 true).scanPiece expandText includer) scope st
        = .ok next after ∧
      next.conditions.map Conditional.unplaced = scope.conditions.map Conditional.unplaced ∧
      next.Unmarked ∧
      ((∀ t ∈ piecesOf i.included, t.kind? ≠ some .ppLineDirective) → next.origin = scope.origin) ∧
      FilePeers (.upToSites s is₁ is₂) back after ∧ Added Twins inner st back after := by
  set d₁ := DirectiveText.ofText i.included (some i.file) node true with hd₁
  set d₂ := DirectiveText.ofText i.spliced (some path) 1 true
  have hsame : d₁.scanSparing i.sparing (expandSparing i.sparing maxExpansionDepth)
      (includeSparing i.sparing includeDirs depth) inner =
      d₁.scan expandText (includeWithin includeDirs depth) inner :=
    (spares_scanSparing (spares_expandSparing _ _) (spares_includeSparing _ _ _)).eq_of_noLapse
    hnone
  rw [hscan, scanSparing] at hsame
  obtain ⟨last, mid, hfold, hopen⟩ := exists_of_bind hsame
  have hf : FilesAbreast (.upToSites s is₁ is₂) i.sparing d₁ d₂ :=
    { recording₁ := rfl, recording₂ := rfl, unmarked := fun _ => hd
      file := .inr (by simp [sparing, d₁, DirectiveText.ofText]) }
  have hmay : ∀ t ∈ piecesOf i.included, MayShare (.upToSites s is₁ is₂) i.sparing ⟨false, false⟩
      d₁ d₂ (includeSparing i.sparing includeDirs depth) includer t := fun t ht =>
    ⟨fun hk => absurd hk (h.includes t ht), fun hk => absurd hk (h.tells t ht),
      fun _ => .inl rfl⟩
  -- the chains that are open around the directive are no matter to the included text
  have hkept : KeptAlike (.upToSites s is₁ is₂) scope.conditions ⟨false, false⟩ d₁ d₂ {} scope :=
    ⟨⟨⟨rfl, hactive⟩, by simp, by simp⟩, fun _ => hscope⟩
  have hpart := abreast_part (holds_self i.included) hn hf rfl hmay hkept (.inr h.closes) inner st
    hst
  rw [map_rename_zero, ← pieces_ofText i.included (some i.file) node true, hfold,
    pieces_ofText, PeerSetting.texts_upToSites] at hpart
  obtain ⟨next, after, hrun, ⟨hkept', hclosed, horigin⟩, hpeers, hadded⟩ := hpart.exists_ok
  have hnil : last.conditions = [] := hclosed h.closes
  have hframes := hkept'.conditions.frames
  rw [hnil] at hopen hframes
  obtain ⟨-, rfl⟩ := EStateM.Result.ok.inj hopen
  exact ⟨next, after, hrun, hframes, hkept'.unmarked trivial, horigin, hpeers, hadded⟩

/-- **The directive, and the included text in its place.** -/
theorem spliced_inclusion (h : i.StandsAlone)
    (hd : (DirectiveText.ofText i.spliced (some path) 1 true).Unmarked)
    (hst : FilePeers (.upToSites s is₁ is₂) st₁ st₂)
    (hs : KeptAlike (.upToSites s is₁ is₂) [] ⟨true, false⟩ (.ofText i.text (some path) 1 true)
      (.ofText i.spliced (some path) 1 true) scope₁ scope₂)
    (hinc : (DirectiveText.ofText i.text (some path) 1 true).inclusion? includeDirs
      ⟨t, scope₁, st₁, after₁⟩ = some (.ofText i.included (some i.file) node true, inner))
    (hmacros : inner.macros.unsited = st₁.macros.unsited)
    (hnone : NoLapse ((DirectiveText.ofText i.included (some i.file) node true).scanSparing
      i.sparing (expandSparing i.sparing maxExpansionDepth)
      (includeSparing i.sparing includeDirs depth)) inner)
    (hrun : (DirectiveText.ofText i.text (some path) 1 true).scanPiece expandText
      (includeWithin includeDirs (depth + 1)) scope₁ t st₁ = .ok next₁ after₁)
    {telling : Bool}
    (htelling : telling = true → ∀ t ∈ piecesOf i.included, t.kind? ≠ some .ppLineDirective)
    {n₀ n₁ n₂ : Nat} (h₀ : Holds i.spliced n₀ "\n") (h₁ : Holds i.spliced n₁ i.included)
    (h₂ : Holds i.spliced n₂ (missingFeed i.included))
    (hi : Including Session.UpToStopping (fun _ => Lengthens) includer) :
    ∃ next₂ after₂,
      ((piecesOf "\n").map (·.rename (n₀ + ·)) ++ ((piecesOf i.included).map (·.rename (n₁ + ·)) ++
          (piecesOf (missingFeed i.included)).map (·.rename (n₂ + ·)))).foldlM
        ((DirectiveText.ofText i.spliced (some path) 1 true).scanPiece expandText includer) scope₂
        st₂
        = .ok next₂ after₂ ∧
      KeptAlike (.upToSites s is₁ is₂) [] ⟨telling, false⟩ (.ofText i.text (some path) 1 true)
        (.ofText i.spliced (some path) 1 true) next₁ next₂ ∧
      FilePeers (.upToSites s is₁ is₂) after₁ after₂ ∧ Spliced st₁ st₂ after₁ after₂ := by
  set d₁ := DirectiveText.ofText i.text (some path) 1 true
  set d₂ := DirectiveText.ofText i.spliced (some path) 1 true
  have hholds {s : String} {n : Nat} (h : Holds i.spliced n s) (j : Nat)
      (hj : j < (signs s).length) : d₂.sign? (n + j) = (signs s)[j]? :=
    (sign?_ofText _ _ _ _ _).trans (h j hj)
  obtain ⟨hbegin, hpeers, hactive, edge, hpiece⟩ := enters_inclusion rfl hst hinc hmacros
  rw [hpiece] at hrun
  split at hrun
  · rename_i back hback
    obtain ⟨rfl, rfl⟩ := EStateM.Result.ok.inj hrun
    have hactive₂ : scope₂.conditions.active = true := hs.conditions.active_eq ▸ hactive
    obtain ⟨next₂, mid₂, hfold, hframes, hunmarked, horigin, hlast, hadded⟩ :=
      abreast_included includer h hd (hs.unmarked trivial) hactive₂ hpeers hnone hback h₁
    have hchains : ChainsWithin [] scope₁.conditions next₂.conditions :=
      ⟨hframes.trans hs.conditions.frames, rfl⟩
    have hfeed : missingFeed i.included = "" ∨ missingFeed i.included = "\n" := by
      rw [missingFeed]
      split <;> simp
    refine ⟨next₂, written (missingFeed i.included) mid₂, ?_, ⟨⟨hchains, fun htell => ?_,
      fun h => absurd h Bool.false_ne_true⟩, fun _ => hunmarked⟩, ?_, ?_⟩
    · rw [List.foldlM_append, bind_of_ok (foldlM_feed (.inr rfl) (hholds h₀) hactive₂ st₂),
        List.foldlM_append, bind_of_ok hfold,
        foldlM_feed hfeed (hholds h₂) (hchains.active_eq ▸ hactive)]
    · rw [hs.file rfl, ScanScope.sourcePlace, ScanScope.sourcePlace, horigin (htelling htell)]
    · exact ⟨⟨hlast.session₁, hlast.session₂, hlast.reports, hlast.macros, hlast.expanding, rfl,
        hlast.including₂⟩,
        fun _ => ⟨(hlast.unmarked trivial).session, (hlast.unmarked trivial).macros⟩⟩
    · have hleft : Added Twins inner (written "\n" st₂) { back with including := is₁ }
          mid₂ := hadded
      refine spliced_ended hbegin hleft (fun hends v hv => ?_) _ _ _
      obtain ⟨v', hv', hline⟩ := writesLine_part hends (hholds h₁) hi scope₂ _ _ _ hfold
      exact List.append_cancel_left (hv.symm.trans hv') ▸ hline
  · cases hrun

/-- The pieces of the text with the directive. -/
theorem StandsAlone.pieces_text (h : i.StandsAlone) : ∃ t n,
    piecesOf i.text = piecesOf i.before ++ t :: (piecesOf i.after).map (·.rename (n + ·)) ∧
    Holds i.text 0 i.before ∧ Holds i.text n i.after := by
  obtain ⟨t, ht⟩ := List.length_eq_one_iff.mp h.single
  have hbefore : Holds i.text ([].flatMap signs).length i.before := h.reads.holds
  have hafter : Holds i.text ([i.before, i.directive].flatMap signs).length i.after := h.reads.holds
  refine ⟨t.rename ((signs i.before).length + ·), _, ?_, hbefore, hafter⟩
  rw [h.reads.pieces, piecesFrom, piecesFrom, piecesFrom, piecesFrom, ht, map_rename_zero]
  simp

/-- The pieces of the text with the included text. -/
theorem StandsAlone.pieces_spliced (h : i.StandsAlone) : ∃ n₀ n₁ n₂ n,
    piecesOf i.spliced = piecesOf i.before ++
      (((piecesOf "\n").map (·.rename (n₀ + ·)) ++ ((piecesOf i.included).map (·.rename (n₁ + ·)) ++
        (piecesOf (missingFeed i.included)).map (·.rename (n₂ + ·)))) ++
      (piecesOf i.after).map (·.rename (n + ·))) ∧
    Holds i.spliced 0 i.before ∧ Holds i.spliced n₀ "\n" ∧ Holds i.spliced n₁ i.included ∧
    Holds i.spliced n₂ (missingFeed i.included) ∧ Holds i.spliced n i.after := by
  have hbefore : Holds i.spliced ([].flatMap signs).length i.before := h.readsSpliced.holds
  have hfirst : Holds i.spliced ([i.before].flatMap signs).length "\n" := h.readsSpliced.holds
  have hincluded : Holds i.spliced ([i.before, "\n"].flatMap signs).length i.included :=
    h.readsSpliced.holds
  have hlast : Holds i.spliced ([i.before, "\n", i.included].flatMap signs).length
      (missingFeed i.included) := h.readsSpliced.holds
  have hafter : Holds i.spliced ([i.before, "\n", i.included,
      missingFeed i.included].flatMap signs).length i.after := h.readsSpliced.holds
  refine ⟨_, _, _, _, ?_, hbefore, hfirst, hincluded, hlast, hafter⟩
  rw [h.readsSpliced.pieces, piecesFrom, piecesFrom, piecesFrom, piecesFrom, piecesFrom, piecesFrom,
    map_rename_zero]
  simp [Nat.add_assoc]

theorem StandsAlone.exists_telling (h : i.StandsAlone) : ∃ telling : Bool,
    (telling = true → ∀ t ∈ piecesOf i.included, t.kind? ≠ some .ppLineDirective) ∧
    ∀ t ∈ piecesOf i.after, t.kind? = some .ppSvFileDirective → telling = true := by
  rcases h.renumbers with hincluded | hafter
  · exact ⟨true, fun _ => hincluded, fun _ _ _ => rfl⟩
  · exact ⟨false, nofun, fun t ht hk => absurd hk (hafter t ht)⟩

/-- Do two texts that have been written come to the same for the grammar, with marks if these are
read, and without? -/
def ReadAlike (s t : String) : Prop :=
  (ReadsMarks s → ReadsMarks t → seenTokens s = seenTokens t) ∧
    visiblePieces (withoutMarks s.toList) = visiblePieces (withoutMarks t.toList)

/-- What is written before, in the place of and behind an inclusion comes to the same. -/
theorem readAlike_of_spliced {start₁ start₂ before₁ before₂ behind₁ behind₂ after₁ after₂ :
    PreprocessState} (hstart₁ : start₁.text = "") (hstart₂ : start₂.text = "")
    (hbefore : Added Twins start₁ start₂ before₁ before₂)
    (hspliced : Spliced before₁ before₂ behind₁ behind₂)
    (hescapes : escapesFeed behind₁.text.toList = false)
    (hafter : Added Twins behind₁ behind₂ after₁ after₂) : ReadAlike after₁.text after₂.text := by
  obtain ⟨x, x', hx, hx', hxx'⟩ := hbefore
  obtain ⟨y, y', a, b, hy, hy', ha, hb, hclosed⟩ := hspliced
  obtain ⟨z, z', hz, hz', hzz'⟩ := hafter
  rw [hstart₁, String.toList_empty, List.nil_append] at hx
  rw [hstart₂, String.toList_empty, List.nil_append] at hx'
  rw [hy, hx] at hescapes
  have hread := visiblePieces_of_twins (m := (.preprocBegin, beginMark)) hxx' hzz' (.inl rfl) ha hb
    hclosed hescapes
  have htext₁ : after₁.text.toList = x ++ (beginMark ++ '\n' :: (y ++ (a ++ z))) := by
    simp [hz, hy, hx]
  have htext₂ : after₂.text.toList = x' ++ '\n' :: (y' ++ (b ++ z')) := by simp [hz', hy', hx']
  rw [ReadAlike, readsMarks_iff, readsMarks_iff, seenTokens_eq, seenTokens_eq, htext₁, htext₂]
  exact hread

/-- **Both scans** come to the same. -/
theorem endAbreast_scanFile {s : Session} {v : Visit} (hs : s.Settled) (hu : s.Unmarked)
    (hp : Unmarked path.toList) (ht : Unmarked i.spliced.toList) (h : i.StandsAlone)
    (hv : i.Happens path s v node inner) :
    EndAbreast (PeerSetting.upToSites s [path] [path]).Fails
      (fun _ after₁ _ after₂ => after₁.macros.unsited = after₂.macros.unsited ∧
        ReadAlike after₁.text after₂.text)
      (scanFile path i.text s (.start path i.text s))
      (scanFile path i.spliced s (.start path i.spliced s)) := by
  set d₁ := DirectiveText.ofText i.text (some path) 1 true with hd₁
  set d₂ := DirectiveText.ofText i.spliced (some path) 1 true with hd₂
  have hd : d₂.Unmarked :=
    DirectiveText.unmarked_ofText 1 true ht (Unmarked.InSome.some hp).nameText
  have hmacros : MacroTable.Unmarked {} := by simp [MacroTable.Unmarked]
  have hstart : FilePeers (.upToSites s [path] [path]) (.start path i.text s)
      (.start path i.spliced s) :=
    ⟨⟨⟨[], rfl⟩, ⟨[], rfl⟩, False.elim, MacroTable.unsited_eq_iff.mp rfl, rfl, rfl, rfl⟩,
      fun _ => ⟨hu, hmacros.defineAll hu.defines⟩⟩
  obtain ⟨t, m, hpieces₁, hbefore₁, hafter₁⟩ := h.pieces_text
  obtain ⟨n₀, n₁, n₂, n, hpieces₂, hbefore₂, h₀, h₁, h₂, hafter₂⟩ := h.pieces_spliced
  obtain ⟨telling, hincluded, htells⟩ := h.exists_telling
  have hi : IncludersAbreast (.upToSites s [path] [path])
      (includeSparing tellsLine s.config.includeDirs (s.files.entries.length + 1))
      (includeWithin s.config.includeDirs (s.files.entries.length + 1)) :=
    includersAbreast (fun _ => hu.includeDirs) hs rfl _
  have hf : FilesAbreast (.upToSites s [path] [path]) tellsLine d₁ d₂ :=
    { recording₁ := rfl, recording₂ := rfl, unmarked := fun _ => hd, file := .inl rfl }
  -- the first run, up to the directive and through it
  have hnone := hv.lines
  have hvisit := hv.visit
  rw [scanFileSparing_eq_pieces, hpieces₁] at hnone
  rw [mainVisits, pieces_ofText, hpieces₁] at hvisit
  obtain ⟨hbefore, hpiece, next, hnext, hrest⟩ := sparing_of_visit (spares_expandSparing _ _)
    (spares_includeSparing _ _ _) hnone hvisit
  rw [← (spares_scanFile tellsLine path i.text s).eq_of_noLapse hv.lines,
    scanFileSparing_eq_pieces, hpieces₁, hrest]
  -- what stands before the directive
  have hpart := abreast_part hbefore₁ hbefore₂ hf rfl
    (fun _ _ => ⟨fun _ => ⟨rfl, hi⟩, fun _ => rfl, fun _ => .inl rfl⟩)
    (.start _ ⟨true, false⟩ fun _ => rfl) (.inl rfl) _ _ hstart
  rw [map_rename_zero, hbefore, PeerSetting.texts_upToSites] at hpart
  obtain ⟨scope₂, mid₂, hfold₂, ⟨hkept, -, -⟩, hpeers, hadded⟩ := hpart.exists_ok
  -- the directive, and the included text in its place
  have hincludes : Including Session.UpToStopping (fun _ => Lengthens)
      (includeWithin s.config.includeDirs (s.files.entries.length + 1)) :=
    DirectiveText.including_includeWithin allows_lengthens
      (fun _ _ _ _ _ => hangs_lengthens _ _) (by rintro _ _ ⟨_, rfl⟩; rfl) _ _
  subst hpiece
  obtain ⟨next₂, behind₂, hplace, hkept', hpeers', hspliced⟩ := spliced_inclusion h hd hpeers hkept
    hv.includes hv.macros hv.file hnext hincluded h₀ h₁ h₂ hincludes
  rw [scanFile_eq_pieces, hpieces₂, List.foldlM_append, bind_assoc, bind_of_ok hfold₂,
    List.foldlM_append,
    bind_assoc, bind_of_ok hplace]
  -- what stands behind it
  have hbehind : ∀ t ∈ piecesOf i.after, MayShare (.upToSites s [path] [path]) tellsLine
      ⟨telling, false⟩ d₁ d₂
      (includeSparing tellsLine s.config.includeDirs (s.files.entries.length + 1))
      (includeWithin s.config.includeDirs (s.files.entries.length + 1)) t := fun t ht =>
    ⟨fun _ => ⟨rfl, hi⟩, htells t ht, fun _ => .inl rfl⟩
  have hend := ((abreast_part hafter₁ hafter₂ hf rfl hbehind hkept' (.inl rfl)).bind joins_texts
    fun last₁ last₂ hlast => abreast_openChains hf hlast.1.conditions.length_eq) _ _ hpeers'
  refine hend.mono fun _ after₁ _ after₂ _ _ h => ?_
  obtain ⟨-, hlast, hwritten⟩ := h
  rw [PeerSetting.texts_upToSites] at hwritten
  refine ⟨MacroTable.unsited_eq_iff.mpr hlast.macros, ?_⟩
  exact readAlike_of_spliced rfl rfl hadded hspliced hv.escapes hwritten

end Inclusion

/-- **Do two preprocessed texts come to the same?** The same macros are in force in the end but for
the sites of their definitions, and the grammar sees the same in the texts, with marks if all of
these are read, and without. -/
structure PreprocessedText.ComesTo (p₁ p₂ : PreprocessedText) : Prop where
  macros : p₁.macros.unsited = p₂.macros.unsited
  text : ReadsMarks p₁.text → ReadsMarks p₂.text → seenTokens p₁.text = seenTokens p₂.text
  stripped : seenTokens p₁.stripped = seenTokens p₂.stripped

/-- Do two runs end in texts that come to the same, or fail both? -/
inductive PreprocessedText.EndAlike : EStateM.Result Failure Session PreprocessedText →
    EStateM.Result Failure Session PreprocessedText → Prop
  | ok {p₁ p₂ : PreprocessedText} (h : p₁.ComesTo p₂) (s₁ s₂ : Session) :
    EndAlike (.ok p₁ s₁) (.ok p₂ s₂)
  | error (e₁ e₂ : Failure) (s₁ s₂ : Session) : EndAlike (.error e₁ s₁) (.error e₂ s₂)

/-- **Inclusion is textual**: where a text stands alone and a directive includes it, the text with
the directive and the one with the included text in its place are preprocessed to the same. -/
theorem includes_textually (i : Inclusion) (path : String) (s : Session) (v : Visit) (node : NodeId)
    (inner : PreprocessState) (hs : s.Settled) (hu : s.Unmarked) (hp : Unmarked path.toList)
    (ht : Unmarked i.spliced.toList) (h : i.StandsAlone) (hv : i.Happens path s v node inner) :
    PreprocessedText.EndAlike (preprocessText path i.text s) (preprocessText path i.spliced s) := by
  have hend := Inclusion.endAbreast_scanFile hs hu hp ht h hv
  have hsame := (spares_scanFile tellsLine path i.text s).eq_of_noLapse hv.lines
  rw [preprocessText_eq, preprocessText_eq]
  cases hscan : scanFile path i.text s (.start path i.text s) <;>
    cases hscan₂ : scanFile path i.spliced s (.start path i.spliced s) <;>
      rw [hscan, hscan₂] at hend
  · obtain ⟨hmacros, hread, hstripped⟩ := hend
    refine .ok ⟨hmacros, hread, ?_⟩ _ _
    rwa [seenTokens_eq, seenTokens_eq, PreprocessedText.stripped, PreprocessedText.stripped,
      String.toList_ofList, String.toList_ofList]
  · exact hend.elim
  · obtain rfl := hend
    exact absurd (hsame.trans hscan) (hv.lines _)
  · exact .error _ _ _ _

namespace Inclusion

/-- A session whose only file is the included one. -/
def session (i : Inclusion) : Session :=
  .start {} (FileStore.empty.insert i.file i.included.toUTF8)

theorem unmarked_session {i : Inclusion} (h : Unmarked i.included.toList) :
    i.session.Unmarked where
  files := FileStore.unmarked_empty.insert _ ((unmarkedBytes_toUTF8 _).mpr h)
  log := by simp [session, Session.start, MessageLog.Unmarked]
  defines := by simp [session, Session.start]
  includeDirs := by simp [session, Session.start]

/-- Does a visit include the text, and are neither the file nor a line told in it? (`Happens`, but
for lines that are told elsewhere) -/
def happensAt (i : Inclusion) (path : String) (s : Session) (v : Visit) : Bool :=
  match (DirectiveText.ofText i.text (some path) 1 true).inclusion? s.config.includeDirs v with
  | none => false
  | some (d, inner) => decide (d = .ofText i.included (some i.file) d.parent true ∧
      inner.macros.unsited = v.before.macros.unsited ∧
      NoLapse (d.scanSparing i.sparing (expandSparing i.sparing maxExpansionDepth)
        (includeSparing i.sparing s.config.includeDirs s.files.entries.length)) inner ∧
      escapesFeed v.after.text.toList = false)

theorem exists_happens {i : Inclusion} {path : String} {s : Session}
    (h : (mainVisits path i.text s)[(piecesOf i.before).length]?.any (i.happensAt path s) = true)
    (hlines : NoLapse (scanFileSparing tellsLine path i.text s) (.start path i.text s)) :
    ∃ v node inner, i.Happens path s v node inner := by
  obtain ⟨v, hvisit, hhappens⟩ := (Option.any_eq_true _ _).mp h
  rw [happensAt] at hhappens
  split at hhappens
  · cases hhappens
  · rename_i d inner hincluded
    obtain ⟨htext, hmacros, hfile, hescapes⟩ := of_decide_eq_true hhappens
    exact ⟨v, d.parent, inner, hvisit, htext ▸ hincluded, hmacros, hlines, htext ▸ hfile, hescapes⟩

/-- A text that includes a width, unless there is one, and uses it. -/
def ofWidth : Inclusion where
  before := "// top\n"
  directive := "`include \"w.svh\""
  after := "\nwire [`W:0] v;\n"
  file := "w.svh"
  included := "`ifndef W\n`define W 4\n`endif"

end Inclusion

theorem includes_textually_ofWidth :
    let i := Inclusion.ofWidth
    i.session.Settled ∧ i.session.Unmarked ∧ Unmarked "test.sv".toList ∧
      Unmarked i.spliced.toList ∧ i.StandsAlone ∧
      ∃ v node inner, i.Happens "test.sv" i.session v node inner ∧
        PreprocessedText.EndAlike (preprocessText "test.sv" i.text i.session)
          (preprocessText "test.sv" i.spliced i.session) := by
  have hs : Inclusion.ofWidth.session.Settled := Session.settled_start _ _
  have hu : Inclusion.ofWidth.session.Unmarked := Inclusion.unmarked_session (by decide)
  have hp : Unmarked "test.sv".toList := by decide
  have ht : Unmarked Inclusion.ofWidth.spliced.toList := by decide +kernel
  have h : Inclusion.ofWidth.StandsAlone :=
    { reads := ⟨by decide +kernel, by decide +kernel⟩
      readsSpliced := ⟨by decide +kernel, by decide +kernel⟩
      single := by decide +kernel
      includes := by decide +kernel
      tells := by decide +kernel
      closes := by decide +kernel
      renumbers := by decide +kernel }
  have hhappens : ∃ v node inner,
      Inclusion.ofWidth.Happens "test.sv" Inclusion.ofWidth.session v node inner :=
    Inclusion.exists_happens (by decide +kernel) (by decide +kernel)
  obtain ⟨v, node, inner, hv⟩ := hhappens
  exact ⟨hs, hu, hp, ht, h, v, node, inner, hv,
    includes_textually _ _ _ v node inner hs hu hp ht h hv⟩

/-- A text that includes one which renumbers its own lines, and tells its file behind that. -/
def Inclusion.ofNumber : Inclusion where
  before := ""
  directive := "`include \"f.svh\""
  after := "\n`__FILE__\n"
  file := "f.svh"
  included := "`line 5 \"x\" 0\n"

/-- **Lines are renumbered in one text only**: a text that is included renumbers its own lines, and
in the place of the directive it renumbers those of the text that has included it. -/
theorem renumbers_apart_ofNumber :
    let i := Inclusion.ofNumber
    Composes i.text [i.before, i.directive, i.after] ∧
      Composes i.spliced [i.before, "\n", i.included, DirectiveText.missingFeed i.included,
        i.after] ∧
      (piecesOf i.directive).length = 1 ∧
      (∀ t ∈ piecesOf i.included, t.kind? ≠ some .ppIncludeDirective ∧
        t.kind? ≠ some .ppSvFileDirective) ∧
      DirectiveText.closesAll 0 (piecesOf i.included) = true ∧
      (∃ v node inner, i.Happens "test.sv" i.session v node inner) ∧
      ∃ p₁ s₁ p₂ s₂, preprocessText "test.sv" i.text i.session = .ok p₁ s₁ ∧
        preprocessText "test.sv" i.spliced i.session = .ok p₂ s₂ ∧
        seenTokens p₁.stripped = [(.stringLiteral, "\"test.sv\"".toList)] ∧
        seenTokens p₂.stripped = [(.stringLiteral, "\"x\"".toList)] ∧ ¬ p₁.ComesTo p₂ := by
  have hhappens : ∃ v node inner,
      Inclusion.ofNumber.Happens "test.sv" Inclusion.ofNumber.session v node inner :=
    Inclusion.exists_happens (by decide +kernel) (by decide +kernel)
  have htold : (preprocessText "test.sv" Inclusion.ofNumber.text).endsIn (fun p _ =>
      seenTokens p.stripped == [(.stringLiteral, "\"test.sv\"".toList)])
      Inclusion.ofNumber.session = true := by decide +kernel
  have htold' : (preprocessText "test.sv" Inclusion.ofNumber.spliced).endsIn (fun p _ =>
      seenTokens p.stripped == [(.stringLiteral, "\"x\"".toList)])
      Inclusion.ofNumber.session = true := by decide +kernel
  obtain ⟨p₁, s₁, hp₁, hseen₁⟩ := Step.exists_of_endsIn htold
  obtain ⟨p₂, s₂, hp₂, hseen₂⟩ := Step.exists_of_endsIn htold'
  rw [beq_iff_eq] at hseen₁ hseen₂
  refine ⟨⟨by decide +kernel, by decide +kernel⟩, ⟨by decide +kernel, by decide +kernel⟩,
    by decide +kernel, by decide +kernel, by decide +kernel, hhappens,
    p₁, s₁, p₂, s₂, hp₁, hp₂, hseen₁, hseen₂, fun h => ?_⟩
  have hsame := hseen₁.symm.trans (h.stripped.trans hseen₂)
  exact absurd hsame (by decide)

end Verilog
