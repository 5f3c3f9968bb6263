import Verilog.Proofs.Preprocess.Inclusion

/-!
# Runs that stop at what is to be spared

That something is used nowhere while a text is preprocessed, neither in the text nor in a file it
includes nor in the text of a macro, is said by a run of its own. It is put together from the same
programs, and stops before a piece of active text that is to be spared
(`DirectiveText.pieceSparing`), and before a file is included that messages are logged to. If it
does not stop so, it is the run as such (`spares_scanFile`).
-/

namespace Verilog

open Preprocessing Step

/-- Pieces to be spared, by their kinds and the files of their texts. -/
abbrev Sparing := Option String → NodeKind → Bool

/-- Does a path lead to the file that messages are logged to? -/
def Session.logsTo (s : Session) (path : String) : Bool :=
  s.log.handle.isSome && s.files.locate path == s.log.handle

namespace Preprocessing

/-- What ends a run where it comes upon what is to be spared. No other step fails so. -/
def lapse : Failure := .unreadable ""

end Preprocessing

namespace DirectiveText

/-- Scans one piece of a text, unless it is to be spared. -/
def pieceSparing (spared : Sparing) (expand : Expander) (includer : Includer) (d : DirectiveText)
    (scope : ScanScope) (t : ParseTree) : Preprocessing ScanScope :=
  if scope.conditions.active && t.kind?.any (spared d.file) then throw lapse
  else d.scanPiece expand includer scope t

/-- Scans a whole text with nothing in it that is to be spared. -/
def scanSparing (spared : Sparing) (expand : Expander) (includer : Includer) (d : DirectiveText) :
    Preprocessing Unit := do
  let scope ← d.pieces.foldlM (d.pieceSparing spared expand includer) {}
  d.reportOpenChains scope.conditions

end DirectiveText

/-- Expands texts with nothing in them that is to be spared, with so many expansions nested in one
another. -/
def expandSparing (spared : Sparing) : Nat → Expander
  | 0 => fun _ _ text => pure text
  | depth + 1 => fun file name text =>
    if text.toList.contains backquote then
      Preprocessing.apart
        ((DirectiveText.ofText text file 0 false).scanSparing spared (expandSparing spared depth)
          fun _ => pure none)
        name
    else pure text

/-- Includes files with nothing in them that is to be spared, with so many inclusions nested in one
another, and none of them the one that messages are logged to. -/
def includeSparing (spared : Sparing) (includeDirs : List String) : Nat → Includer
  | 0 => fun _ => pure none
  | depth + 1 => fun request => do
    let st ← get
    let found := resolveInclude st.session.files includeDirs request.source request.name
    if found.any st.session.logsTo then throw lapse
    else
      includeBy includeDirs (fun request path text =>
        inside path ((DirectiveText.ofText text (some path) request.node true).scanSparing spared
          (expandSparing spared maxExpansionDepth) (includeSparing spared includeDirs depth)))
        request

/-- Scans a text that counts as the content of a file, with nothing in it that is to be spared. -/
def scanFileSparing (spared : Sparing) (path text : String) (s : Session) : Preprocessing Unit :=
  (DirectiveText.ofText text (some path) 1 true).scanSparing spared
    (expandSparing spared maxExpansionDepth)
    (includeSparing spared s.config.includeDirs (s.files.entries.length + 1))

/-! ### Programs that lapse or do the same -/

namespace Preprocessing

/-- **Does a program do the same as another one**, unless it ends in a lapse? -/
def Spares {α : Type} (x y : Preprocessing α) : Prop :=
  ∀ st, (∃ after, x st = .error lapse after) ∨ x st = y st

/-- Does a program not lapse in a state? -/
def NoLapse {α : Type} (x : Preprocessing α) (st : PreprocessState) : Prop :=
  ∀ after, x st ≠ .error lapse after

instance {α : Type} (x : Preprocessing α) (st : PreprocessState) : Decidable (NoLapse x st) :=
  match h : x st with
  | .ok _ _ => isTrue fun _ hlapse => nomatch h.symm.trans hlapse
  | .error e after =>
    if he : e = lapse then isFalse fun hx => hx after (he ▸ h)
    else isTrue fun _ hlapse => he (EStateM.Result.error.inj (h.symm.trans hlapse)).1

namespace NoLapse

variable {α β : Type} {x : Preprocessing α} {f : α → Preprocessing β} {st mid : PreprocessState}
  {a : α}

/-- Where two steps do not lapse, the first one does not. -/
theorem first (h : NoLapse (x >>= f) st) : NoLapse x st := by
  intro after hx
  refine h after ?_
  rw [Step.bind_eq, hx]

/-- Nor does the second one. -/
theorem second (h : NoLapse (x >>= f) st) (hx : x st = .ok a mid) : NoLapse (f a) mid := by
  intro after hf
  refine h after ?_
  rw [Step.bind_of_ok hx, hf]

end NoLapse

namespace Spares

variable {α β : Type} {x y : Preprocessing α}

theorem eq_of_noLapse (h : Spares x y) {st : PreprocessState} (hx : NoLapse x st) : x st = y st :=
  (h st).resolve_left fun ⟨after, hlapse⟩ => hx after hlapse

theorem same : Spares x x := fun _ => .inr rfl

theorem lapses : Spares (throw lapse) y := fun st => .inl ⟨st, rfl⟩

theorem bind {f g : α → Preprocessing β} (hxy : Spares x y) (hfg : ∀ a, Spares (f a) (g a)) :
    Spares (x >>= f) (y >>= g) := by
  intro st
  rw [Step.bind_eq, Step.bind_eq]
  rcases hxy st with ⟨after, hx⟩ | hx
  · exact .inl ⟨after, by rw [hx]⟩
  · rw [hx]
    cases y st with
    | ok a mid => exact hfg a mid
    | error e mid => exact .inr rfl

theorem before {f : α → Preprocessing β} (hxy : Spares x y) : Spares (x >>= f) (y >>= f) :=
  hxy.bind fun _ => same

theorem behind {f g : α → Preprocessing β} (hfg : ∀ a, Spares (f a) (g a)) :
    Spares (x >>= f) (x >>= g) := same.bind hfg

theorem foldlM {f g : β → α → Preprocessing β} (hfg : ∀ b a, Spares (f b a) (g b a)) (xs : List α)
    (b : β) : Spares (xs.foldlM f b) (xs.foldlM g b) := by
  induction xs generalizing b with
  | nil => exact same
  | cons a xs ih =>
    rw [List.foldlM_cons, List.foldlM_cons]
    exact (hfg b a).bind fun c => ih c

/-- A check before a program may make it lapse. -/
theorem checked {c : PreprocessState → Prop} [DecidablePred c] (h : Spares x y) :
    Spares (get >>= fun st => if c st then throw lapse else x) y := by
  intro st
  change (∃ after, (if c st then throw lapse else x) st = _) ∨
    (if c st then throw lapse else x) st = _
  split
  · exact .inl ⟨st, rfl⟩
  · exact h st

/-- What goes on elsewhere for a while lapses there, or does the same. -/
theorem apart {x y : Preprocessing Unit} (h : Spares x y) (name : String) :
    Spares (Preprocessing.apart x name) (Preprocessing.apart y name) := by
  intro st
  rw [Preprocessing.apart, Preprocessing.apart]
  rcases h { st with text := "", expanding := name :: st.expanding } with ⟨after, hx⟩ | hx
  · exact .inl ⟨_, by rw [hx]⟩
  · exact .inr (by rw [hx])

theorem inside {x y : Preprocessing Unit} (h : Spares x y) (path : String) :
    Spares (Preprocessing.inside path x) (Preprocessing.inside path y) := by
  intro st
  rw [Preprocessing.inside, Preprocessing.inside]
  rcases h { st with including := path :: st.including } with ⟨after, hx⟩ | hx
  · exact .inl ⟨_, by rw [hx]⟩
  · exact .inr (by rw [hx])

end Spares

end Preprocessing

namespace DirectiveText

variable {spared : Sparing} {d : DirectiveText} {t : ParseTree} {scope : ScanScope}
  {expand expand' : Expander} {includer includer' : Includer}

section

variable (he : ∀ file name text, Spares (expand file name text) (expand' file name text))
include he

theorem spares_evaluate : Spares (d.evaluate expand t) (d.evaluate expand' t) := by
  rw [evaluate, evaluate]
  split
  · exact .same
  · refine .behind fun st => ?_
    split
    · exact .same
    · split
      · exact .same
      · split
        · exact .same
        · rw [map_eq_pure_bind, map_eq_pure_bind]
          exact (he _ _ _).before

theorem spares_includedName : Spares (d.includedName expand t) (d.includedName expand' t) := by
  unfold includedName
  dsimp only
  split
  · exact .same
  · split
    · exact (spares_evaluate he).before
    · exact .same

variable (hi : ∀ request, Spares (includer request) (includer' request))
include hi

theorem spares_includeFile (node : NodeId) :
    Spares (d.includeFile expand includer scope node t)
      (d.includeFile expand' includer' scope node t) := by
  unfold includeFile
  split
  · exact .same
  · refine (spares_includedName he).bind fun name => ?_
    cases name with
    | none => exact .same
    | some name => exact .behind fun _ => .behind fun _ => .behind fun _ => (hi _).before

theorem spares_doDirective (kind : NodeKind) (node : NodeId) :
    Spares (d.doDirective expand includer scope kind t node)
      (d.doDirective expand' includer' scope kind t node) := by
  have hact : Spares (d.act expand includer scope kind node t)
      (d.act expand' includer' scope kind node t) := by
    unfold act
    split
    case h_3 => exact (spares_includeFile he hi node).before
    all_goals exact .same
  rw [doDirective, doDirective]
  split
  · exact .same
  · split
    · exact hact
    · exact .same

/-- **One piece.** -/
theorem spares_scanPiece (scope : ScanScope) (t : ParseTree) :
    Spares (d.scanPiece expand includer scope t) (d.scanPiece expand' includer' scope t) := by
  have hbetween {α : Type} {inner inner' : NodeId → Preprocessing α} (marked : Bool)
      (h : ∀ node, Spares (inner node) (inner' node)) :
      Spares (do
          let node ← d.openMarks marked t
          let a ← inner node
          d.closeMarks marked node t
          return a)
        (do
          let node ← d.openMarks marked t
          let a ← inner' node
          d.closeMarks marked node t
          return a) := .behind fun node => (h node).before
  unfold scanPiece
  split
  · exact .same
  · split
    · rw [scanDirective_eq, scanDirective_eq]
      exact hbetween true fun node => spares_doDirective he hi _ node
    · split
      · rw [scanUse_eq, scanUse_eq]
        refine (hbetween _ fun node => ?_).before
        rw [doUse, doUse]
        split
        · exact (spares_evaluate he).before
        · exact .same
      · exact .same

theorem spares_pieceSparing (scope : ScanScope) (t : ParseTree) :
    Spares (d.pieceSparing spared expand includer scope t)
      (d.scanPiece expand' includer' scope t) := by
  rw [pieceSparing]
  split
  · exact .lapses
  · exact spares_scanPiece he hi scope t

/-- **A whole text.** -/
theorem spares_scanSparing :
    Spares (d.scanSparing spared expand includer) (d.scan expand' includer') :=
  (Spares.foldlM (spares_pieceSparing he hi) _ _).before

end

end DirectiveText

/-- **Expansions** that spare something lapse, or expand as such. -/
theorem spares_expandSparing (spared : Sparing) (depth : Nat) (file : Option String)
    (name text : String) :
    Spares (expandSparing spared depth file name text) (expandWithin depth file name text) := by
  induction depth generalizing file name text with
  | zero => exact .same
  | succ depth ih =>
    rw [expandSparing, expandWithin]
    dsimp only
    split
    · exact (DirectiveText.spares_scanSparing ih fun _ => .same).apart name
    · exact .same

/-- **Inclusions** that spare something lapse, or include as such. -/
theorem spares_includeSparing (spared : Sparing) (includeDirs : List String) (depth : Nat)
    (request : IncludeRequest) :
    Spares (includeSparing spared includeDirs depth request)
      (includeWithin includeDirs depth request) := by
  induction depth generalizing request with
  | zero => exact .same
  | succ depth ih =>
    have hscan (text path : String) (node : NodeId) :
        Spares
          ((DirectiveText.ofText text (some path) node true).scanSparing spared
            (expandSparing spared maxExpansionDepth) (includeSparing spared includeDirs depth))
          ((DirectiveText.ofText text (some path) node true).scan expandText
            (includeWithin includeDirs depth)) :=
      DirectiveText.spares_scanSparing (spares_expandSparing spared maxExpansionDepth) ih
    rw [includeSparing, includeWithin_succ]
    refine .checked ?_
    rw [includeBy, includeBy]
    refine .behind fun st => ?_
    dsimp only
    split
    · exact .same
    · split
      · exact .same
      · split
        · exact .same
        · exact .behind fun _ => ((hscan _ _ _).inside _).before

/-- **A run that comes upon nothing to be spared** is the run as such. -/
theorem spares_scanFile (spared : Sparing) (path text : String) (s : Session) :
    Spares (scanFileSparing spared path text s) (scanFile path text s) :=
  DirectiveText.spares_scanSparing (spares_expandSparing spared _)
    (spares_includeSparing spared _ _)

end Verilog
