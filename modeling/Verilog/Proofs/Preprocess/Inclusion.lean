import Verilog.Proofs.Preprocess.Lines
import Verilog.Proofs.Preprocess.Open

/-!
# How an inclusion goes

A directive or use that is scanned has its node recorded and its marks opened, does what it does,
and has its marks closed (`DirectiveText.between_eq`). An inclusion between such marks begins on a
line of its own, goes over to a scan of the included text, and ends with the lines of the including
text (`DirectiveText.includeFile_eq`, `includeWithin_eq`). So from the visit of a directive it can
be said which text is included there, and in which state its scan begins
(`DirectiveText.inclusion?`), and the visits of an included text are found from those of the text
that includes it.
-/

namespace Verilog

open Preprocessing Step

namespace DirectiveText

variable {d : DirectiveText} {t : ParseTree} {expand : Expander} {includer : Includer}
  {scope : ScanScope} {st after : PreprocessState}

/-! ### Between marks -/

/-- The state in which a directive or use is begun: its node is recorded and its mark written. -/
def begun (d : DirectiveText) (marked : Bool) (t : ParseTree) (st : PreprocessState) :
    PreprocessState :=
  { st with
    nodes := (d.record st.nodes d.parent t).2
    text := st.text ++ String.ofList (if marked then beginMark else []) }

/-- The state in which a directive or use is ended: its lines are made up for and its mark
written. -/
def ended (d : DirectiveText) (marked : Bool) (node : NodeId) (t : ParseTree)
    (st : PreprocessState) : PreprocessState :=
  { st with
    line := st.line + d.newlinesIn t
    text := st.text ++ String.ofList
      (List.replicate (d.newlinesIn t) '\n' ++ if marked then endMark node else []) }

/-- What is done between marks is done between the states in which they are begun and ended. -/
theorem between_eq {α : Type} {inner : NodeId → Preprocessing α} (hr : d.recording = true)
    (marked : Bool) (t : ParseTree) (st : PreprocessState) :
    (do
      let node ← d.openMarks marked t
      let a ← inner node
      d.closeMarks marked node t
      return a) st =
    match inner (d.record st.nodes d.parent t).1 (d.begun marked t st) with
    | .ok a mid => .ok a (d.ended marked (d.record st.nodes d.parent t).1 t mid)
    | .error e mid => .error e mid := by
  have hopen : d.openMarks marked t st = .ok _ (d.begun marked t st) := d.openMarks_eq hr marked st
  rw [bind_of_ok hopen, bind_eq]
  cases inner (d.record st.nodes d.parent t).1 (d.begun marked t st) with
  | error e mid => rfl
  | ok a mid => exact bind_of_ok (d.closeMarks_eq hr marked _ mid)

/-! ### The directive -/

/-- What a directive asks for by a name. -/
def requestFor (d : DirectiveText) (t : ParseTree) (node : NodeId) (name : String) :
    IncludeRequest :=
  { source := d.file, name, node, line := (d.rangeOf t).line, column := (d.rangeOf t).column }

/-- The state in which a file is asked for: the inclusion is noted, and begins on a line of its
own. -/
def asking (d : DirectiveText) (t : ParseTree) (node : NodeId) (name : String)
    (st : PreprocessState) : PreprocessState :=
  { st with
    includes := st.includes.push
      { source := d.file, name, resolved := none, line := (d.rangeOf t).line,
        column := (d.rangeOf t).column, node }
    line := st.line + 1
    text := st.text ++ "\n" }

/-- The line feed that is missing behind a text. -/
def missingFeed (text : String) : String := if text.endsWith "\n" then "" else "\n"

/-- The state in which an inclusion is over: the included lines are whole lines, and those of the
text go on. -/
def resumed (d : DirectiveText) (scope : ScanScope) (t : ParseTree) (edge : Nat)
    (resolved : Option String) (st : PreprocessState) : PreprocessState :=
  let line := st.line + newlines (missingFeed st.text).toList
  let place := scope.sourcePlace d.file (d.rangeOf t).endLine
  { st with
    includes := st.includes.modify edge fun e => { e with resolved }
    text := st.text ++ missingFeed st.text
    line
    lines := st.lines.push ⟨line, place.1, place.2⟩ }

/-- What an inclusion does on behalf of its directive. -/
theorem includeFile_eq (hr : d.recording = true) (scope : ScanScope) (node : NodeId)
    (t : ParseTree) (st : PreprocessState) :
    d.includeFile expand includer scope node t st =
    match d.includedName expand t st with
    | .error e mid => .error e mid
    | .ok none mid => .ok () mid
    | .ok (some name) mid =>
      match includer (d.requestFor t node name) (d.asking t node name mid) with
      | .error e back => .error e back
      | .ok resolved back => .ok () (d.resumed scope t mid.includes.size resolved back) := by
  unfold includeFile
  simp only [hr, Bool.not_true, Bool.false_eq_true, if_false]
  rw [bind_eq]
  rcases d.includedName expand t st with ⟨name | name, mid⟩ | ⟨e, mid⟩
  · rfl
  · change (includer (d.requestFor t node name) >>= fun resolved => do
      modify fun st =>
        { st with includes := st.includes.modify mid.includes.size fun e => { e with resolved } }
      let st ← get
      let place := scope.sourcePlace d.file (d.rangeOf t).endLine
      if !st.text.endsWith "\n" then emit "\n"
      let st ← get
      startSection ⟨st.line, place.1, place.2⟩) (d.asking t node name mid) = _
    rw [bind_eq]
    dsimp only
    rcases includer (d.requestFor t node name) (d.asking t node name mid) with ⟨resolved, back⟩ | _
    · change (do
        if !back.text.endsWith "\n" then emit "\n"
        let st ← get
        let place := scope.sourcePlace d.file (d.rangeOf t).endLine
        startSection ⟨st.line, place.1, place.2⟩ : Preprocessing Unit) _ =
          .ok () (d.resumed scope t mid.includes.size resolved back)
      rw [resumed, missingFeed]
      cases back.text.endsWith "\n" with
      | false => rfl
      | true =>
        simp
        rfl
    · rfl
  · rfl

end DirectiveText

/-! ### The included text -/

/-- What a request for a file comes to: a fault, or the text that is included and the state in which
its scan begins. -/
def IncludeRequest.outcome (includeDirs : List String) (r : IncludeRequest)
    (st : PreprocessState) : Except DirectiveFault (DirectiveText × PreprocessState) :=
  let files := st.session.files
  match resolveInclude files includeDirs r.source r.name with
  | none => .error (.includeNotFound r.name)
  | some path =>
    if st.including.any (sameFile files · path) then .error (.includeCycle r.name path)
    else
      match files.text? path with
      | none => .error (.includeNotText r.name path)
      | some text => .ok (DirectiveText.ofText text (some path) r.node true,
          { st with lines := st.lines.push ⟨st.line, some path, 1⟩
                    including := path :: st.including })

/-- Refuses what is asked for, and reports a fault. -/
def IncludeRequest.refuse (r : IncludeRequest) (fault : DirectiveFault) :
    Preprocessing (Option String) := do
  Preprocessing.report (fault.diagnostic ⟨nameText r.source, r.line, r.column⟩)
  return none

/-- Includes nothing; what is wrong with a request is reported. -/
def refusing (includeDirs : List String) : Includer := fun r => do
  match r.outcome includeDirs (← get) with
  | .error fault => r.refuse fault
  | .ok _ => return none

/-- **What includes files**: it refuses a request, or scans the text that is included. -/
theorem includeBy_eq (includeDirs : List String) (scan : DirectiveText → Preprocessing Unit)
    (r : IncludeRequest) (st : PreprocessState) :
    includeBy includeDirs
      (fun r path text => inside path (scan (.ofText text (some path) r.node true))) r st =
    match r.outcome includeDirs st with
    | .error fault => r.refuse fault st
    | .ok (d, inner) =>
      match scan d inner with
      | .ok _ back => .ok d.file { back with including := st.including }
      | .error e back => .error e { back with including := st.including } := by
  rw [includeBy, IncludeRequest.outcome]
  change (match resolveInclude st.session.files includeDirs r.source r.name with
    | none => r.refuse (.includeNotFound r.name)
    | some path =>
      if st.including.any (sameFile st.session.files · path) then
        r.refuse (.includeCycle r.name path)
      else match st.session.files.text? path with
        | none => r.refuse (.includeNotText r.name path)
        | some text => do
          startSection ⟨st.line, some path, 1⟩
          inside path (scan (.ofText text (some path) r.node true))
          return some path) st = _
  cases resolveInclude st.session.files includeDirs r.source r.name with
  | none => rfl
  | some path =>
    cases hcycle : st.including.any (sameFile st.session.files · path) with
    | true => simp only [hcycle, if_true]
    | false =>
      cases htext : st.session.files.text? path with
      | none => simp only [hcycle, htext, Bool.false_eq_true, if_false]
      | some text =>
        simp only [hcycle, htext, Bool.false_eq_true, if_false]
        change (inside path (scan (.ofText text (some path) r.node true)) >>=
            fun _ => return some path)
          { st with lines := st.lines.push ⟨st.line, some path, 1⟩ } = _
        rw [bind_eq, inside]
        dsimp only
        cases scan (.ofText text (some path) r.node true)
          { st with lines := st.lines.push ⟨st.line, some path, 1⟩
                    including := path :: st.including } <;> rfl

theorem includeWithin_eq (includeDirs : List String) (depth : Nat) (r : IncludeRequest)
    (st : PreprocessState) : includeWithin includeDirs (depth + 1) r st =
    match r.outcome includeDirs st with
    | .error fault => r.refuse fault st
    | .ok (d, inner) =>
      match d.scan expandText (includeWithin includeDirs depth) inner with
      | .ok _ back => .ok d.file { back with including := st.including }
      | .error e back => .error e { back with including := st.including } := by
  rw [includeWithin_succ]
  exact includeBy_eq includeDirs (·.scan expandText (includeWithin includeDirs depth)) r st

/-- Where no text is included, what includes files only refuses. -/
theorem includeWithin_of_refused {includeDirs : List String} {r : IncludeRequest}
    {st : PreprocessState} (h : ∀ x, r.outcome includeDirs st ≠ .ok x) (depth : Nat) :
    includeWithin includeDirs (depth + 1) r st = refusing includeDirs r st := by
  rw [includeWithin_eq]
  change _ = (match r.outcome includeDirs st with
    | .error fault => r.refuse fault
    | .ok _ => return none) st
  cases hout : r.outcome includeDirs st with
  | error fault => rfl
  | ok x => exact absurd hout (h x)

/-- Where the delimiter of marks is nowhere, what a request comes to is free of it. -/
theorem IncludeRequest.unmarked_outcome {includeDirs : List String} {r : IncludeRequest}
    {st : PreprocessState} (hdirs : ∀ dir ∈ includeDirs, Verilog.Unmarked dir.toList)
    (hr : r.Unmarked) (hst : st.Unmarked) : match r.outcome includeDirs st with
      | .error fault => ∀ s ∈ fault.quoted, Verilog.Unmarked s.toList
      | .ok (d, inner) => d.Unmarked ∧ d.recording = true ∧ inner.Unmarked ∧
        inner.text = st.text ∧ inner.nodes = st.nodes := by
  rw [outcome]
  cases hpath : resolveInclude st.session.files includeDirs r.source r.name with
  | none => simpa [DirectiveFault.quoted] using hr.name
  | some path =>
    have hp := unmarked_resolveInclude hdirs hr.source hr.name hpath
    dsimp only
    cases hcycle : st.including.any (sameFile st.session.files · path) with
    | true => simp [DirectiveFault.quoted, hr.name, hp]
    | false =>
      cases htext : st.session.files.text? path with
      | none => simp [DirectiveFault.quoted, hr.name, hp]
      | some text =>
        exact ⟨DirectiveText.unmarked_ofText r.node true (hst.session.files.text htext)
          (Unmarked.InSome.some hp).nameText, rfl, ⟨hst.session, hst.macros⟩, rfl, rfl⟩

/-- What only refuses writes no marks. -/
theorem includes_refusing {includeDirs : List String}
    (hdirs : ∀ dir ∈ includeDirs, Unmarked dir.toList) :
    Includes false (refusing includeDirs) := by
  intro r hr
  refine WritesFrom.get_bind fun st hst => ?_
  have hout := r.unmarked_outcome hdirs hr hst
  cases heq : r.outcome includeDirs st with
  | error fault =>
    rw [heq] at hout
    exact ((writes_report (DirectiveFault.unmarked_diagnostic hout hr.source)).bind
      fun _ _ => .pure trivial) st hst
  | ok x => exact ⟨.refl hst, trivial⟩

/-! ### Inclusions and visits -/

namespace DirectiveText

variable {d : DirectiveText} {t : ParseTree} {expand : Expander} {includer : Includer}
  {scope scope' : ScanScope} {st after : PreprocessState}

theorem eq_ok_of_toOption {ε α : Type} {x : Except ε α} {a : α} (h : x.toOption = some a) :
    x = .ok a := by
  cases x with
  | error e => cases h
  | ok b => exact congrArg Except.ok (Option.some.inj h)

/-- The text that is included by the visit of a piece, and the state in which its scan begins. -/
def inclusion? (includeDirs : List String) (d : DirectiveText) (v : Visit) :
    Option (DirectiveText × PreprocessState) :=
  if v.scope.conditions.active && v.piece.kind? == some .ppIncludeDirective then
    match d.includedName expandText v.piece (d.begun true v.piece v.before) with
    | .ok (some name) mid =>
      let node := (d.record v.before.nodes d.parent v.piece).1
      ((d.requestFor v.piece node name).outcome includeDirs
        (d.asking v.piece node name mid)).toOption
    | _ => none
  else none

/-- What scanning a directive of a file does. -/
theorem scanPiece_directive (hr : d.recording = true) {kind : NodeKind}
    (hk : kind.isDirective = true) (ts : List ParseTree) :
    d.scanPiece expand includer scope (.node kind ts) st =
    let t := ParseTree.node kind ts
    let node := (d.record st.nodes d.parent t).1
    match d.doDirective expand includer scope kind t node (d.begun true t st) with
    | .ok scope' mid => .ok scope' (d.ended true node t mid)
    | .error e mid => .error e mid := by
  rw [scanPiece]
  dsimp only
  rw [if_pos hk, scanDirective_eq, between_eq hr]
  cases d.doDirective expand includer scope kind (.node kind ts)
    (d.record st.nodes d.parent (.node kind ts)).1 (d.begun true (.node kind ts) st) <;> rfl

/-- What scanning a macro use of a file does. -/
theorem scanPiece_use (hr : d.recording = true) {kind : NodeKind} (hk : kind.isMacroUse = true)
    (ts : List ParseTree) :
    d.scanPiece expand includer scope (.node kind ts) st =
    let t := ParseTree.node kind ts
    let active := scope.conditions.active
    let node := (d.record st.nodes d.parent t).1
    match d.doUse expand active t node (d.begun active t st) with
    | .ok _ mid => .ok scope (d.ended active node t mid)
    | .error e mid => .error e mid := by
  have hdirective : kind.isDirective = false := by
    cases kind <;> first | rfl | exact absurd hk (by decide)
  rw [scanPiece]
  dsimp only
  rw [hdirective, if_neg Bool.false_ne_true, if_pos hk, bind_eq, scanUse_eq, between_eq hr]
  cases d.doUse expand scope.conditions.active (.node kind ts)
    (d.record st.nodes d.parent (.node kind ts)).1
    (d.begun scope.conditions.active (.node kind ts) st) <;> rfl

/-- An active directive that is to include a file does no more than that. -/
theorem doDirective_include (hactive : scope.conditions.active = true) (node : NodeId) :
    d.doDirective expand includer scope .ppIncludeDirective t node = (do
      d.includeFile expand includer scope node t
      return scope) := by
  rw [doDirective, if_neg (by decide), if_pos hactive]
  rfl

/-- What scanning an active directive does that is to include a file. -/
theorem scanPiece_include (hr : d.recording = true) (hactive : scope.conditions.active = true)
    (ts : List ParseTree) :
    d.scanPiece expand includer scope (.node .ppIncludeDirective ts) st =
    let t := ParseTree.node .ppIncludeDirective ts
    let node := (d.record st.nodes d.parent t).1
    match d.includedName expand t (d.begun true t st) with
    | .error e mid => .error e mid
    | .ok none mid => .ok scope (d.ended true node t mid)
    | .ok (some name) mid =>
      match includer (d.requestFor t node name) (d.asking t node name mid) with
      | .error e back => .error e back
      | .ok resolved back =>
        .ok scope (d.ended true node t (d.resumed scope t mid.includes.size resolved back)) := by
  rw [scanPiece_directive hr (by decide)]
  dsimp only
  rw [doDirective_include hactive, bind_eq, includeFile_eq hr]
  rcases d.includedName expand (.node .ppIncludeDirective ts) (d.begun true _ st) with
    ⟨name | name, mid⟩ | ⟨e, mid⟩
  · rfl
  · dsimp only
    cases includer (d.requestFor _ _ name) (d.asking _ _ name mid) <;> rfl
  · rfl

/-- Where the visit of a piece includes no text, what includes files only refuses. -/
theorem scanPiece_of_no_inclusion (hr : d.recording = true) {includeDirs : List String}
    (h : d.inclusion? includeDirs ⟨t, scope, st, after⟩ = none) (depth : Nat) :
    d.scanPiece expandText (includeWithin includeDirs (depth + 1)) scope t st =
      d.scanPiece expandText (refusing includeDirs) scope t st := by
  by_cases hk : scope.conditions.active = true ∧ t.kind? = some .ppIncludeDirective
  · obtain ⟨hactive, hk⟩ := hk
    cases t with
    | leaf i => cases hk
    | node kind ts =>
      obtain rfl : kind = .ppIncludeDirective := Option.some.inj hk
      rw [inclusion?, if_pos (by rw [hactive]; rfl)] at h
      rw [scanPiece_include hr hactive, scanPiece_include hr hactive]
      dsimp only at h ⊢
      generalize d.includedName expandText (.node .ppIncludeDirective ts) (d.begun true _ st) = r
        at h ⊢
      rcases r with ⟨name | name, mid⟩ | ⟨e, mid⟩
      · rfl
      · dsimp only at h ⊢
        rw [includeWithin_of_refused]
        intro x hx
        rw [hx] at h
        cases h
      · rfl
  · exact congrFun (scanPiece_congr _ fun hactive hkind => hk ⟨hactive, hkind⟩) st

/-- **Where the visit of a piece includes a text**, that text is scanned between the beginning and
the end of the directive. -/
theorem scanPiece_of_inclusion (hr : d.recording = true) {includeDirs : List String}
    {d' : DirectiveText} {inner : PreprocessState}
    (h : d.inclusion? includeDirs ⟨t, scope, st, after⟩ = some (d', inner)) :
    ∃ ts name mid, t = .node .ppIncludeDirective ts ∧ scope.conditions.active = true ∧
      let node := (d.record st.nodes d.parent t).1
      d.includedName expandText t (d.begun true t st) = .ok (some name) mid ∧
      (d.requestFor t node name).outcome includeDirs (d.asking t node name mid) =
        .ok (d', inner) ∧
      ∀ depth, d.scanPiece expandText (includeWithin includeDirs (depth + 1)) scope t st =
        match d'.scan expandText (includeWithin includeDirs depth) inner with
        | .ok _ back => .ok scope (d.ended true node t (d.resumed scope t mid.includes.size d'.file
            { back with including := mid.including }))
        | .error e back => .error e { back with including := mid.including } := by
  rw [inclusion?] at h
  split at h
  · rename_i hk
    simp only [Bool.and_eq_true, beq_iff_eq] at hk
    obtain ⟨hactive, hk⟩ := hk
    cases t with
    | leaf i => cases hk
    | node kind ts =>
      obtain rfl : kind = .ppIncludeDirective := Option.some.inj hk
      dsimp only at h
      split at h
      · rename_i name mid hname
        have hout := eq_ok_of_toOption h
        refine ⟨ts, name, mid, rfl, hactive, hname, hout, fun depth => ?_⟩
        rw [scanPiece_include hr hactive]
        dsimp only
        rw [hname]
        dsimp only
        rw [includeWithin_eq, hout]
        dsimp only
        cases d'.scan expandText (includeWithin includeDirs depth) inner <;> rfl
      · cases h
  · cases h

end DirectiveText

end Verilog
