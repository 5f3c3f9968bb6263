import Mathlib.Data.List.Perm.Subperm
import Verilog.Proofs.Files.Places
import Verilog.Proofs.Preprocess.Branch

/-!
# What is open while a text is preprocessed

A text is scanned on a level of its own: inside the expansions and inclusions that are open when its
scan begins. All that is done on a level stays on it (`Preprocessing.OnLevel.of_composed`), so what
is open changes only from one level to the next, where a macro or a file is added that is not among
those that are open already. That no level can be too deep follows: there are no more expansions
open than may be, and no more files than there are.

To say that this holds at every moment, the same programs are put together with a check before every
text and before every piece of one (`Preprocessing.checked`), and with nothing known of what is done
where the check fails or where the levels run out (`Preprocessing.Lapse`). A run with checks is the
run without them, whatever would be done at a lapse: so there is no lapse.
-/

namespace Verilog

open Preprocessing Session Step

/-! ### What may be open -/

/-- **Is what is open sound?** No macro is being expanded twice, there are no more expansions open
than may be, and no file is being preprocessed twice. -/
structure PreprocessState.OpenSoundly (st : PreprocessState) : Prop where
  expanding : st.expanding.Nodup
  depth : st.expanding.length ≤ maxExpansionDepth
  including : st.including.Pairwise fun inner outer =>
    sameFile st.session.files outer inner = false

instance (st : PreprocessState) : Decidable st.OpenSoundly :=
  decidable_of_iff (st.expanding.Nodup ∧ st.expanding.length ≤ maxExpansionDepth ∧
      st.including.Pairwise fun inner outer => sameFile st.session.files outer inner = false)
    ⟨fun h => ⟨h.1, h.2.1, h.2.2⟩, fun h => ⟨h.expanding, h.depth, h.including⟩⟩

namespace Preprocessing

/-- What would be done in the place of a text or of a piece of it where the check before it fails,
and in the place of an expansion or inclusion where no more may nest. -/
structure Lapse where
  text : DirectiveText → Preprocessing Unit
  piece : DirectiveText → ScanScope → ParseTree → Preprocessing ScanScope
  expand : Expander
  includer : Includer

/-- A step before which it is checked that what is open is sound. -/
def checked {α : Type} (lapse x : Preprocessing α) : Preprocessing α := do
  if (← get).OpenSoundly then x else lapse

end Preprocessing

namespace DirectiveText

/-- Scans a whole text, with a check before it and before each of its pieces. -/
def scanChecked (lapse : Lapse) (expand : Expander) (includer : Includer) (d : DirectiveText) :
    Preprocessing Unit :=
  checked (lapse.text d) do
    let scope ← d.pieces.foldlM (fun scope t =>
      checked (lapse.piece d scope t) (d.scanPiece expand includer scope t)) {}
    d.reportOpenChains scope.conditions

end DirectiveText

/-- Expands with checks, with so many expansions nested in one another. -/
def expandChecked (lapse : Lapse) : Nat → Expander
  | 0 => lapse.expand
  | depth + 1 => fun file name text =>
    if text.toList.contains backquote then
      Preprocessing.apart
        ((DirectiveText.ofText text file 0 false).scanChecked lapse (expandChecked lapse depth)
          fun _ => pure none)
        name
    else pure text

/-- Includes a file by a program that takes its path and its text. -/
def includeBy (includeDirs : List String)
    (inclusion : IncludeRequest → String → String → Preprocessing Unit) : Includer :=
  fun request => do
    let st ← get
    let files := st.session.files
    let place : FilePlace := ⟨nameText request.source, request.line, request.column⟩
    let refuse (fault : DirectiveFault) : Preprocessing (Option String) := do
      Preprocessing.report (fault.diagnostic place)
      return none
    match resolveInclude files includeDirs request.source request.name with
    | none => refuse (.includeNotFound request.name)
    | some path =>
      if st.including.any (sameFile files · path) then
        refuse (.includeCycle request.name path)
      else
        match files.text? path with
        | none => refuse (.includeNotText request.name path)
        | some text =>
          Preprocessing.startSection ⟨st.line, some path, 1⟩
          inclusion request path text
          return some path

theorem includeWithin_succ (includeDirs : List String) (depth : Nat) :
    includeWithin includeDirs (depth + 1) = includeBy includeDirs fun request path text =>
      inside path ((DirectiveText.ofText text (some path) request.node true).scan expandText
        (includeWithin includeDirs depth)) := rfl

/-- Includes with checks, with so many inclusions nested in one another. -/
def includeChecked (lapse : Lapse) (includeDirs : List String) : Nat → Includer
  | 0 => lapse.includer
  | depth + 1 => includeBy includeDirs fun request path text =>
    inside path ((DirectiveText.ofText text (some path) request.node true).scanChecked lapse
      (expandChecked lapse maxExpansionDepth) (includeChecked lapse includeDirs depth))

/-- Preprocesses a text with checks. -/
def preprocessChecked (lapse : Lapse) (path text : String) : Reporting PreprocessedText := fun s =>
  match (DirectiveText.ofText text (some path) 1 true).scanChecked lapse
      (expandChecked lapse maxExpansionDepth)
      (includeChecked lapse s.config.includeDirs (s.files.entries.length + 1))
      (.start path text s) with
  | .ok _ st => .ok ⟨some path, st.text, st.nodes, st.lines, st.includes.toList, st.macros,
      st.states.toList⟩ st.session
  | .error e st => .error e st.session

/-! ### Levels -/

theorem FileStore.SamePlaces.sameFile {s t : FileStore} (h : s.SamePlaces t) (a b : String) :
    Verilog.sameFile t a b = Verilog.sameFile s a b := by
  rw [Verilog.sameFile, Verilog.sameFile, h.canonical, h.canonical]

namespace Preprocessing

/-- **Is a state on the level that another is on?** The same expansions and inclusions are open, and
the files stand where they stood. -/
structure OnLevel (base st : PreprocessState) : Prop extends KeepsOpen base st where
  places : base.session.files.SamePlaces st.session.files
  settled : st.session.Settled

/-- Do two programs do the same on a level? -/
def Agree {α : Type} (base : PreprocessState) (x y : Preprocessing α) : Prop :=
  ∀ st, OnLevel base st → x st = y st

/-- Does a program stay on a level? -/
def Stays {α : Type} (base : PreprocessState) (x : Preprocessing α) : Prop :=
  ∀ st a after, OnLevel base st → x st = .ok a after → OnLevel base after

variable {base st after : PreprocessState} {α β : Type} {x y : Preprocessing α}

theorem OnLevel.refl (h : base.session.Settled) : OnLevel base base :=
  ⟨⟨rfl, rfl⟩, .refl _, h⟩

theorem OnLevel.of_eq (h : OnLevel base st) (hsession : after.session = st.session)
    (hexpanding : after.expanding = st.expanding) (hincluding : after.including = st.including) :
    OnLevel base after :=
  ⟨⟨hexpanding.trans h.expanding, hincluding.trans h.including⟩, hsession ▸ h.places,
    hsession ▸ h.settled⟩

/-- **What closes all that it opens stays on its level.** -/
theorem Stays.of_composed (hx : Composed UpToStopping KeepsOpen x) : Stays base x := by
  intro st a after h hrun
  have hopen := hx.keeps (allows_keepsOpen.frame 0) st
  rw [hrun] at hopen
  obtain ⟨ds, hds⟩ := (hx.reports alike_upToStopping).exists_addAll UpToStopping.refl hrun
  obtain ⟨hsettled, -, hgrows⟩ := h.settled.addAll ds
  have hsession : after.session = st.session.addAll ds := hds
  refine ⟨(allows_keepsOpen.frame 0).trans h.toKeepsOpen hopen, ?_, ?_⟩
  · rw [hsession]
    exact h.places.trans hgrows.toSamePlaces
  · rw [hsession]
    exact hsettled

theorem Stays.of_quiet (hx : Composed UpToStopping Quiet x) : Stays base x :=
  .of_composed (hx.mono fun _ _ => allows_keepsOpen.quiet (p := 0))

theorem frame_quiet : Frame Quiet where
  refl _ := ⟨rfl, rfl, rfl, rfl, rfl⟩
  trans h h' := ⟨h'.text.trans h.text, h'.line.trans h.line, h'.nodes.trans h.nodes,
    h'.expanding.trans h.expanding, h'.including.trans h.including⟩
  session _ _ := ⟨rfl, rfl, rfl, rfl, rfl⟩

/-- Inclusions close all that they open. -/
theorem including_keepsOpen (includeDirs : List String) (depth : Nat) :
    Including UpToStopping (fun _ => KeepsOpen) (includeWithin includeDirs depth) :=
  DirectiveText.including_includeWithin allows_keepsOpen (fun _ _ _ _ _ => hangs_keepsOpen _ _)
    (fun _ _ ⟨_, h⟩ => h ▸ rfl) includeDirs depth

namespace Agree

theorem same : Agree base x x := fun _ _ => rfl

theorem bind {f g : α → Preprocessing β} (hxy : Agree base x y) (hx : Stays base x)
    (hfg : ∀ a, Agree base (f a) (g a)) : Agree base (x >>= f) (y >>= g) := by
  intro st hst
  rw [Step.bind_eq, Step.bind_eq, ← hxy st hst]
  cases hrun : x st with
  | ok a mid => exact hfg a mid (hx st a mid hst hrun)
  | error e mid => rfl

/-- What comes behind may do as it likes, if it is the same. -/
theorem before {f : α → Preprocessing β} (hxy : Agree base x y) :
    Agree base (x >>= f) (y >>= f) := by
  intro st hst
  rw [Step.bind_eq, Step.bind_eq, hxy st hst]

theorem behind {f g : α → Preprocessing β} (hx : Stays base x)
    (hfg : ∀ a, Agree base (f a) (g a)) : Agree base (x >>= f) (x >>= g) :=
  same.bind hx hfg

theorem look {f g : PreprocessState → Preprocessing α}
    (hfg : ∀ st, OnLevel base st → Agree base (f st) (g st)) :
    Agree base (get >>= f) (get >>= g) := fun st hst => hfg st hst st hst

theorem foldlM {f g : β → α → Preprocessing β} (hfg : ∀ b a, Agree base (f b a) (g b a))
    (hf : ∀ b a, Stays base (f b a)) (xs : List α) (b : β) :
    Agree base (xs.foldlM f b) (xs.foldlM g b) := by
  induction xs generalizing b with
  | nil => exact same
  | cons a xs ih =>
    rw [List.foldlM_cons, List.foldlM_cons]
    exact (hfg b a).bind (hf b a) fun c => ih c

end Agree

/-! ### Checks -/

/-- What is sound on a level is sound everywhere on it. -/
theorem OnLevel.openSoundly (h : OnLevel base st) (hb : base.OpenSoundly) : st.OpenSoundly := by
  refine ⟨h.expanding ▸ hb.expanding, h.expanding ▸ hb.depth, ?_⟩
  rw [h.including]
  exact hb.including.imp fun hab => by rwa [h.places.sameFile]

/-- On a sound level no check fails. -/
theorem Agree.checked (hb : base.OpenSoundly) (hxy : Agree base x y) (lapse : Preprocessing α) :
    Agree base x (checked lapse y) := by
  intro st hst
  have hcheck : Preprocessing.checked lapse y st =
      (if st.OpenSoundly then y else lapse) st := rfl
  rw [hcheck, if_pos (hst.openSoundly hb), hxy st hst]

/-! ### One level -/

/-- Do two ways to expand do the same on a level, for a macro that is not being expanded there,
where one more may be? -/
def ExpandersAgree (base : PreprocessState) (expand expand' : Expander) : Prop :=
  ∀ file name text, name ∉ base.expanding → base.expanding.length < maxExpansionDepth →
    Agree base (expand file name text) (expand' file name text)

/-- Do two ways to include do the same on a level? -/
def IncludersAgree (base : PreprocessState) (includer includer' : Includer) : Prop :=
  ∀ request, Agree base (includer request) (includer' request)

end Preprocessing

namespace DirectiveText

variable {base : PreprocessState} {d : DirectiveText} {t : ParseTree} {scope : ScanScope}
  {expand expand' : Expander} {includer includer' : Includer}

theorem agree_evaluate (he : ExpandersAgree base expand expand') :
    Agree base (d.evaluate expand t) (d.evaluate expand' t) := by
  rw [evaluate, evaluate]
  split
  · exact .same
  · rename_i name _
    refine .look fun st hst => ?_
    split
    · exact .same
    · split
      · exact .same
      · rename_i hopen
        split
        · exact .same
        · -- a use is refused just where an expansion of it would be unsound
          rw [hst.expanding] at hopen
          simp only [Bool.or_eq_true, List.contains_iff_mem, decide_eq_true_eq, not_or,
            Nat.not_le] at hopen
          rw [map_eq_pure_bind, map_eq_pure_bind]
          exact (he _ name _ hopen.1 hopen.2).before

theorem agree_includedName (he : ExpandersAgree base expand expand') :
    Agree base (d.includedName expand t) (d.includedName expand' t) := by
  unfold includedName
  dsimp only
  split
  · exact .same
  · split
    · exact (agree_evaluate he).before
    · exact .same

theorem agree_includeFile (he : ExpandersAgree base expand expand')
    (hE : Expanding UpToStopping expand) (hi : IncludersAgree base includer includer')
    (node : NodeId) : Agree base (d.includeFile expand includer scope node t)
      (d.includeFile expand' includer' scope node t) := by
  unfold includeFile
  split
  · exact .same
  · refine (agree_includedName he).bind (.of_quiet (composed_includedName hE)) fun name => ?_
    cases name with
    | none => exact .same
    | some name =>
      have hwrite (s : String) : Stays base (emit s) :=
        .of_composed (composed_emit fun _ => ⟨rfl, rfl⟩)
      refine .look fun st _ => ?_
      refine .behind (.of_composed (.modify (fun _ _ => rfl) fun _ => ⟨rfl, rfl⟩)) fun _ => ?_
      exact .behind (hwrite _) fun _ => (hi _).before

theorem agree_act (he : ExpandersAgree base expand expand') (hE : Expanding UpToStopping expand)
    (hi : d.recording = true → IncludersAgree base includer includer') (kind : NodeKind)
    (node : NodeId) : Agree base (d.act expand includer scope kind node t)
      (d.act expand' includer' scope kind node t) := by
  unfold act
  split
  case h_3 =>
    cases hr : d.recording with
    | true => exact (agree_includeFile he hE (hi hr) node).before
    | false =>
      rw [includeFile, includeFile, hr]
      exact .same
  all_goals exact .same

theorem agree_doDirective (he : ExpandersAgree base expand expand')
    (hE : Expanding UpToStopping expand)
    (hi : d.recording = true → IncludersAgree base includer includer') (kind : NodeKind)
    (node : NodeId) : Agree base (d.doDirective expand includer scope kind t node)
      (d.doDirective expand' includer' scope kind t node) := by
  rw [doDirective, doDirective]
  split
  · exact .same
  · split
    · exact agree_act he hE hi kind node
    · exact .same

theorem agree_doUse (he : ExpandersAgree base expand expand') (active : Bool) (node : NodeId) :
    Agree base (d.doUse expand active t node) (d.doUse expand' active t node) := by
  rw [doUse, doUse]
  split
  · exact (agree_evaluate he).before
  · exact .same

/-- What stands between the marks of a directive or use decides. -/
theorem agree_between {α : Type} {inner inner' : NodeId → Preprocessing α} (marked : Bool)
    (h : ∀ node, Agree base (inner node) (inner' node)) :
    Agree base
      (do
        let node ← d.openMarks marked t
        let a ← inner node
        d.closeMarks marked node t
        return a)
      (do
        let node ← d.openMarks marked t
        let a ← inner' node
        d.closeMarks marked node t
        return a) := by
  refine .behind (fun st node after hst hrun => ?_) fun node => (h node).before
  obtain ⟨node', nodes, hopen⟩ := d.openMarks_spec t marked st
  obtain ⟨rfl, rfl⟩ := EStateM.Result.ok.inj (hrun.symm.trans hopen)
  exact hst.of_eq rfl rfl rfl

/-- **One piece.** -/
theorem agree_scanPiece (he : ExpandersAgree base expand expand')
    (hE : Expanding UpToStopping expand)
    (hi : d.recording = true → IncludersAgree base includer includer') (scope : ScanScope)
    (t : ParseTree) : Agree base (d.scanPiece expand includer scope t)
      (d.scanPiece expand' includer' scope t) := by
  unfold scanPiece
  split
  · exact .same
  · split
    · rw [scanDirective_eq, scanDirective_eq]
      exact agree_between true fun node => agree_doDirective he hE hi _ node
    · split
      · rw [scanUse_eq, scanUse_eq]
        exact (agree_between _ fun node => agree_doUse he _ node).before
      · exact .same

/-- **A whole text on a sound level**: no check fails. -/
theorem agree_scanChecked (hb : base.OpenSoundly) (he : ExpandersAgree base expand expand')
    (hE : Expanding UpToStopping expand)
    (hi : d.recording = true → IncludersAgree base includer includer')
    (hI : Including UpToStopping (fun _ => KeepsOpen) includer) (lapse : Lapse) :
    Agree base (d.scan expand includer) (d.scanChecked lapse expand' includer') := by
  refine Agree.checked hb ?_ _
  have hpiece (scope : ScanScope) (t : ParseTree) :
      Stays base (d.scanPiece expand includer scope t) :=
    .of_composed (composed_scanPiece allows_keepsOpen (fun _ => hangs_keepsOpen d t) hE hI scope)
  exact (Agree.foldlM (fun scope t => (agree_scanPiece he hE hi scope t).checked hb _) hpiece
    _ _).before

end DirectiveText

/-! ### One level after another -/

section

variable {base : PreprocessState}

/-- **Expansions**: as many as are still to nest there is room for, since each of them opens one
more macro. -/
theorem agree_expandChecked (lapse : Lapse) {depth : Nat} (hb : base.OpenSoundly)
    (hdepth : base.expanding.length + depth = maxExpansionDepth) :
    ExpandersAgree base (expandWithin depth) (expandChecked lapse depth) := by
  induction depth generalizing base with
  | zero => exact fun _ _ _ _ hlt => absurd hlt (by omega)
  | succ depth ih =>
    intro file name text hname hlt
    rw [expandWithin, expandChecked]
    dsimp only
    split
    · intro st hst
      have hsound := hst.openSoundly hb
      have hnew : ({ st with text := "", expanding := name :: st.expanding } :
          PreprocessState).OpenSoundly :=
        ⟨List.nodup_cons.mpr ⟨hst.expanding ▸ hname, hsound.expanding⟩,
          by rw [List.length_cons, hst.expanding]; omega, hsound.including⟩
      have hroom : (name :: st.expanding).length + depth = maxExpansionDepth := by
        rw [List.length_cons, hst.expanding]
        omega
      have hscan := DirectiveText.agree_scanChecked
        (d := .ofText text file 0 false) hnew (ih hnew hroom)
        (DirectiveText.expanding_expandWithin depth) (fun _ _ => .same)
        (fun _ => .pure none) lapse
      rw [apart, apart, hscan _ (.refl hst.settled)]
    · exact .same

/-- Files of which no two are the same are no more than there are. -/
theorem length_le_entries {files : FileStore} {paths : List String}
    (hfiles : ∀ path ∈ paths, files.isFile path = true)
    (hpaths : paths.Pairwise fun inner outer => sameFile files outer inner = false) :
    paths.length ≤ files.entries.length := by
  have hcanonical (path : String) (h : path ∈ paths) :
      ∃ loc ∈ files.entries.map (·.1), files.canonical? path = some loc := by
    obtain ⟨content, hcontent⟩ := Option.isSome_iff_exists.mp (hfiles path h)
    rw [FileStore.bytes?] at hcontent
    split at hcontent
    · rename_i content' hfind
      obtain ⟨loc, hloc, hentry⟩ := Option.bind_eq_some_iff.mp hfind
      refine ⟨loc, FileStore.mem_locations hentry, ?_⟩
      rw [FileStore.canonical?, hloc, Option.filter_some, hentry]
      rfl
    · cases hcontent
  have hnodup : (paths.map files.canonical?).Nodup := by
    refine List.pairwise_map.mpr (hpaths.imp_of_mem fun {a b} ha hb hne heq => ?_)
    obtain ⟨loc, -, hloc⟩ := hcanonical a ha
    rw [sameFile, ← heq, hloc] at hne
    exact absurd hne (by simp)
  have hsubset : paths.map files.canonical? ⊆ (files.entries.map (·.1)).map some := by
    intro found hfound
    obtain ⟨path, hpath, rfl⟩ := List.mem_map.mp hfound
    obtain ⟨loc, hmem, hloc⟩ := hcanonical path hpath
    exact List.mem_map.mpr ⟨loc, hmem, hloc.symm⟩
  simpa using (List.Nodup.subperm hnodup hsubset).length_le

/-- **Is there room for so many inclusions to nest?** All that is included is a file; only the first
text need not be one. -/
structure HasRoom (depth : Nat) (base : PreprocessState) : Prop where
  sound : base.OpenSoundly
  expanding : base.expanding = []
  begun : base.including ≠ []
  included : ∀ path ∈ base.including.dropLast, base.session.files.isFile path = true
  room : base.including.dropLast.length + depth = base.session.files.entries.length + 1

theorem HasRoom.pos {depth : Nat} (h : HasRoom depth base) : 0 < depth := by
  have hle := length_le_entries h.included
    (h.sound.including.sublist (List.dropLast_sublist _))
  have hroom := h.room
  omega

/-- **One inclusion more** leaves room for the others. -/
theorem HasRoom.inside {depth : Nat} (h : HasRoom (depth + 1) base) {st : PreprocessState}
    (hst : OnLevel base st) {path : String} (hfile : base.session.files.isFile path = true)
    (hnew : ∀ outer ∈ base.including, sameFile base.session.files outer path = false) :
    HasRoom depth { st with including := path :: st.including } where
  sound := by
    have hsound := hst.openSoundly h.sound
    refine ⟨hsound.expanding, hsound.depth, List.pairwise_cons.mpr ⟨fun outer houter => ?_,
      hsound.including⟩⟩
    rw [hst.places.sameFile]
    exact hnew outer (hst.including ▸ houter)
  expanding := hst.expanding.trans h.expanding
  begun := List.cons_ne_nil _ _
  included := by
    rw [hst.including, List.dropLast_cons_of_ne_nil h.begun]
    refine List.forall_mem_cons.mpr ⟨?_, fun path hpath => ?_⟩
    · rwa [hst.places.isFile]
    · rw [hst.places.isFile]
      exact h.included path hpath
  room := by
    have hentries := congrArg List.length hst.places.locations
    rw [List.length_map, List.length_map] at hentries
    have hroom := h.room
    rw [hst.including, List.dropLast_cons_of_ne_nil h.begun, List.length_cons]
    change _ = st.session.files.entries.length + 1
    omega

/-- Ways to include agree if they do the same inside a file that is not open already. -/
theorem agree_includeBy {includeDirs : List String}
    {inclusion inclusion' : IncludeRequest → String → String → Preprocessing Unit}
    (h : ∀ request path text, base.session.files.isFile path = true →
      (∀ outer ∈ base.including, sameFile base.session.files outer path = false) →
      Agree base (inclusion request path text) (inclusion' request path text)) :
    IncludersAgree base (includeBy includeDirs inclusion) (includeBy includeDirs inclusion') := by
  intro request
  rw [includeBy, includeBy]
  refine .look fun st hst => ?_
  dsimp only
  split
  · exact .same
  · rename_i path hpath
    split
    · exact .same
    · rename_i hnew
      split
      · exact .same
      · have hfile : base.session.files.isFile path = true := by
          rw [← hst.places.isFile]
          exact List.find?_some hpath
        have hothers (outer : String) (houter : outer ∈ base.including) :
            sameFile base.session.files outer path = false := by
          rw [← hst.places.sameFile]
          exact Bool.not_eq_true _ ▸ fun hsame =>
            hnew (List.any_eq_true.mpr ⟨outer, hst.including ▸ houter, hsame⟩)
        exact .behind (.of_quiet (composed_startSection _)) fun _ =>
          (h request path _ hfile hothers).before

/-- **Inclusions**: as many as are still to nest there is room for, since each of them opens one
more file. -/
theorem agree_includeChecked (lapse : Lapse) (includeDirs : List String) {depth : Nat}
    (h : HasRoom depth base) :
    IncludersAgree base (includeWithin includeDirs depth)
      (includeChecked lapse includeDirs depth) := by
  induction depth generalizing base with
  | zero => exact absurd h.pos (Nat.lt_irrefl 0)
  | succ depth ih =>
    rw [includeWithin_succ, includeChecked]
    refine agree_includeBy fun request path text hfile hnew st hst => ?_
    have hroom := h.inside hst hfile hnew
    have hnone : (List.length ([] : List String)) + maxExpansionDepth = maxExpansionDepth :=
      Nat.zero_add _
    have hexpand := agree_expandChecked lapse hroom.sound (hroom.expanding ▸ hnone)
    have hscan := DirectiveText.agree_scanChecked
      (d := .ofText text (some path) request.node true) hroom.sound hexpand
      (DirectiveText.expanding_expandWithin maxExpansionDepth) (fun _ => ih hroom)
      (including_keepsOpen includeDirs depth) lapse
    have hrun := hscan _ (.refl hst.settled)
    rw [Preprocessing.inside, Preprocessing.inside, ← hrun]
    rfl

end

/-! ### A whole run -/

/-- At the start only the text itself is open. -/
theorem hasRoom_start (path text : String) (s : Session) :
    HasRoom (s.files.entries.length + 1) (.start path text s) where
  sound := ⟨List.nodup_nil, Nat.zero_le _, List.pairwise_singleton _ _⟩
  expanding := rfl
  begun := List.cons_ne_nil _ _
  included := fun _ h => absurd h List.not_mem_nil
  room := Nat.zero_add _

/-- **A run with checks is the run without them.** -/
theorem preprocessChecked_eq {s : Session} (hs : s.Settled) (lapse : Lapse) (path text : String) :
    preprocessChecked lapse path text s = preprocessText path text s := by
  have hroom := hasRoom_start path text s
  have hexpand := agree_expandChecked lapse hroom.sound (Nat.zero_add maxExpansionDepth)
  have hscan := DirectiveText.agree_scanChecked
    (d := .ofText text (some path) 1 true) hroom.sound hexpand
    (DirectiveText.expanding_expandWithin maxExpansionDepth)
    (fun _ => agree_includeChecked lapse s.config.includeDirs hroom)
    (including_keepsOpen _ _) lapse
  have hrun : scanFile path text s (.start path text s) = _ := hscan _ (.refl hs)
  rw [preprocessText_eq]
  unfold preprocessChecked
  generalize scanFile path text s (.start path text s) = r at hrun ⊢
  cases r <;> simp only [← hrun]

/-- **At every moment what is open is sound, and it is closed again.** For every text, every table
of macros to start from and all files there are, nothing hangs on what would be done where a check
fails or where no more may nest: so before every text and every piece no macro is being expanded
twice, at most so many expansions are open, no file is being preprocessed twice, and the limits to
nesting are never what ends an expansion or inclusion. A macro use, however it ends, leaves what is
open as it was, and the text and the line; so does an inclusion with what is open. -/
theorem opens_soundly (config : Config) (files : FileStore) (ds : List Diagnostic)
    (path text : String) :
    (let s := (Session.start config files).addAll ds
      ∀ lapse, preprocessChecked lapse path text s = preprocessText path text s) ∧
    (∀ (depth : Nat) (d : DirectiveText) (use : ParseTree) (st : PreprocessState),
      Quiet st (Ending.state (d.evaluate (expandWithin depth) use st))) ∧
    ∀ (includeDirs : List String) (depth : Nat) (request : IncludeRequest) (st : PreprocessState),
      KeepsOpen st (Ending.state (includeWithin includeDirs depth request st)) := by
  refine ⟨fun lapse => ?_, fun depth d use st => ?_, fun includeDirs depth request st => ?_⟩
  · have hsettled := ((settled_start config files).addAll ds).1
    exact preprocessChecked_eq hsettled lapse path text
  · have hevaluate : Composed UpToStopping Quiet (d.evaluate (expandWithin depth) use) :=
      DirectiveText.composed_evaluate (DirectiveText.expanding_expandWithin depth)
    exact hevaluate.keeps frame_quiet st
  · exact (including_keepsOpen includeDirs depth request).keeps (allows_keepsOpen.frame 0) st

end Verilog
