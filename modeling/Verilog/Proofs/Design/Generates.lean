import Verilog.Proofs.Design.Stopping
import Verilog.Proofs.Generate.Depth
import Verilog.Proofs.Generate.Translate

/-!
# The generate constructs of files

A generate construct of a file that has been read is compiled whole: as long as nothing is nested
too deeply, new objects are added that are read back as what the source is translated into, and
everything that was there before is as it was (`lowers_generates`).

Where it is nested too deeply, everything is compiled that the levels left are enough for, and
nothing else; what they are not enough for is reported, and the levels left are the same in the end
(`limits_generates`). Levels are counted by constructs and blocks, so of constructs that are nested
in one another fewer are compiled than there are levels (`limits_nestedModule`).
-/

namespace Verilog

open Compiling

variable {f : SourceFile} {id : NodeId}

theorem SourceFile.IsRead.declares (hf : f.IsRead) : f.nodes.Declares := by
  obtain ⟨p, s, s', hrun⟩ := hf
  exact SourceFile.declares_ofPreprocessed p s f s' hrun

theorem SourceFile.IsRead.wellMade (hf : f.IsRead) : f.nodes.WellMade := by
  obtain ⟨p, s, s', hrun⟩ := hf
  exact SourceFile.wellMade_ofPreprocessed p s f s' hrun

/-- **Generate constructs are compiled completely, in order, and behind what is there.** Of a file
that has been read, a construct whose compilation reports nothing of the depth is compiled, in any
run. The design keeps all objects and lists that it had, as they were, and the new objects are read
back as what the source of the construct is translated into. -/
theorem lowers_generates (hf : f.IsRead) (hid : f.nodes.Below f.nodes.root id)
    (hk : (f.nodes.kind id).isGenerate) (component : String) {p : ObjectId} {c : Compilation}
    (hp : p < c.ir.size)
    (hdepth : (Ending.state (addConstruct component p (f.nodes.construct id) c)).depthReports ≤
      c.depthReports) :
    ∃ ids c', addConstruct component p (f.nodes.construct id) c = .ok ids c' ∧
      (∀ new ∈ ids, c.ir.size ≤ new) ∧
      (∀ i, i < c.ir.size → c'.ir.object? i = c.ir.object? i) ∧
      (∀ l, l < c.ir.lists.size → c'.ir.members l = c.ir.members l) ∧
      c'.ir.AreTrees p (f.nodes.construct id).trees ids ∧
      f.nodes.Lowers id (f.nodes.construct id).trees := by
  have hreadable := hf.declares.readable
  have hcontains : f.nodes.contains id := NodeTable.contains_of_kind rfl fun h => by
    rw [h] at hk
    cases hk
  have hlocated := NodeTable.located_construct hreadable hid hcontains
  cases hrun : addConstruct component p (f.nodes.construct id) c with
  | error e c' =>
    have hmore := onlyDeep_addConstruct component p _ (NodeTable.whole_construct hf.wellMade hid hk)
      c e c' hrun
    rw [hrun, Ending.state] at hdepth
    omega
  | ok ids c' =>
    rw [hrun, Ending.state] at hdepth
    have hadds := from_addConstruct component p _ hlocated hp c ids c' rfl hrun
    have htrees := shallowly_addConstruct component p _ hlocated hp c ids c' rfl hrun hdepth
    exact ⟨ids, c', rfl, hadds.fresh, fun i hi => hadds.grows.object i hi not_false,
      fun l hl => hadds.grows.members l hl not_false, htrees.trees c'.ir (.refl _ _),
      NodeTable.lowers_construct hf.wellMade hreadable hid hk⟩

/-- A module with a condition. -/
def choosingModule : String := "module m; if (P) assign y = a; endmodule\n"

/-- The design of a module without anything in it. -/
def bareDesign : Ir := (({} : Ir).add { kind := .moduleInstance }).2

/-- Is the sixth node of a file a construct below the root, and compiled without a report? -/
def compilesSixth (f : SourceFile) (s : Session) : Bool :=
  let c : Compilation := { session := s, ir := bareDesign, limit := Compilation.defaultLimit }
  f.nodes.root = 1 && (f.nodes.shape 1).contains 2 && (f.nodes.shape 2).contains 3 &&
    (f.nodes.shape 3).contains 6 && (f.nodes.kind 6).isGenerate &&
    (Ending.state (addConstruct "m" 0 (f.nodes.construct 6) c)).depthReports ≤ c.depthReports

theorem lowers_generates_choosingModule : ∃ f s ids c',
    SourceFile.ofText "m.sv" choosingModule bareSession = .ok f s ∧
      addConstruct "m" 0 (f.nodes.construct 6)
        { session := s, ir := bareDesign, limit := Compilation.defaultLimit } = .ok ids c' ∧
      c'.ir.AreTrees 0 (f.nodes.construct 6).trees ids ∧
      f.nodes.Lowers 6 (f.nodes.construct 6).trees := by
  have h : (match SourceFile.ofText "m.sv" choosingModule bareSession with
    | .ok f s => compilesSixth f s
    | .error _ _ => false) = true := by
    rw [SourceFile.ofText_of_plain ⟨by decide +kernel, by decide +kernel⟩]
    decide +kernel
  cases hf : SourceFile.ofText "m.sv" choosingModule bareSession with
  | error e s => simp [hf] at h
  | ok f s =>
    simp only [hf, compilesSixth, Bool.and_eq_true, decide_eq_true_eq, List.contains_iff_mem] at h
    obtain ⟨⟨⟨⟨⟨hroot, h2⟩, h3⟩, h6⟩, hk⟩, hdepth⟩ := h
    have hbelow : f.nodes.Below f.nodes.root 6 :=
      (((hroot ▸ .root : f.nodes.Below f.nodes.root 1).child h2).child h3).child h6
    have hsize : 0 < bareDesign.size := Nat.zero_lt_one
    obtain ⟨ids, c', hrun, -, -, -, htrees, hlowers⟩ :=
      lowers_generates (SourceFile.isRead_ofText hf) hbelow hk "m" hsize hdepth
    exact ⟨f, s, ids, c', rfl, hrun, htrees, hlowers⟩

/-! ### How deep constructs may be nested -/

/-- **How much of a generate construct is compiled.** Of a file that has been read, a construct is
compiled as what is left of it with the levels there are, and is read back as that. The outermost
constructs for which there are not enough levels are reported, each once and in order, and nothing
else is; the run goes on or stops as it does where these reports are made. The level and the limit
are in the end what they were. All of the construct is compiled if there are as many levels as it
takes; these are at least as many as to count all but the innermost construct twice. The whole of
the construct is what its source is translated into. -/
theorem limits_generates (hf : f.IsRead) (hid : f.nodes.Below f.nodes.root id)
    (hk : (f.nodes.kind id).isGenerate) (component : String) {p : ObjectId} {c : Compilation}
    (hp : p < c.ir.size) :
    let construct := f.nodes.construct id
    let room := c.limit - c.depth
    (match reportAll (depthFaults component (construct.beyond room)) c.session with
      | .ok _ s => ∃ ids ir,
        addConstruct component p construct c = .ok ids { c with session := s, ir } ∧
          ir.AreTrees p ((construct.within room).elim [] (·.trees)) ids
      | .error e s => ∃ ir,
        addConstruct component p construct c = .error e { c with session := s, ir }) ∧
    (construct.beyond room = [] ↔ construct.levels ≤ room) ∧
    (construct.levels ≤ room → construct.within room = some construct) ∧
    2 * construct.nesting ≤ construct.levels + 1 ∧ f.nodes.Lowers id construct.trees := by
  intro construct room
  have hcontains : f.nodes.contains id := NodeTable.contains_of_kind rfl fun h => by
    rw [h] at hk
    cases hk
  have hlocated : construct.Located :=
    NodeTable.located_construct hf.declares.readable hid hcontains
  have hwhole : construct.Whole := NodeTable.whole_construct hf.wellMade hid hk
  refine ⟨?_, construct.beyond_eq_nil_iff, construct.within_eq, construct.nesting_le,
    NodeTable.lowers_construct hf.wellMade hf.declares.readable hid hk⟩
  obtain ⟨ids, ir, hleft, hrun⟩ := cuts_addConstruct component p room construct hwhole c rfl
  cases hreports : reportAll (depthFaults component (construct.beyond room)) c.session with
  | error e s =>
    rw [hreports] at hrun
    exact hrun
  | ok _ s =>
    rw [hreports] at hrun
    refine ⟨ids, ir, hrun, ?_⟩
    have hsame : addLeft component p (construct.within room) c = .ok ids { c with ir } :=
      hleft c.session
    cases hkept : construct.within room with
    | none =>
      rw [hkept] at hsame
      obtain ⟨rfl, -⟩ := EStateM.Result.ok.inj hsame
      exact .nil
    | some kept =>
      rw [hkept] at hsame
      have htrees := shallowly_addConstruct component p kept
        (construct.located_within room hlocated hkept) hp c ids _ rfl hsame (Nat.le_refl _)
      exact htrees.trees ir (.refl _ _)

/-- A module with a condition in a condition. -/
def nestedModule : String := "module m; if (A) if (B) wire a; endmodule\n"

/-- What a construct of `nestedModule` is compiled in: a session, and a limit of two levels. -/
def twoLevels (s : Session) : Compilation := { session := s, ir := bareDesign, limit := 2 }

/-- Is the sixth node of a file a construct below the root, with one in it? -/
def nestsSixth (f : SourceFile) : Bool :=
  f.nodes.root = 1 && (f.nodes.shape 1).contains 2 && (f.nodes.shape 2).contains 3 &&
    (f.nodes.shape 3).contains 6 && (f.nodes.kind 6).isGenerate && (f.nodes.construct 6).nesting = 2

theorem exists_nestsSixth : ∃ f s, SourceFile.ofText "m.sv" nestedModule bareSession = .ok f s ∧
    nestsSixth f = true ∧ s.config.failFast = false ∧
      (f.nodes.construct 6).beyond 2 = [⟨"m.sv", 1, 18⟩] := by
  have h : (SourceFile.ofText "m.sv" nestedModule).endsIn (fun f s => nestsSixth f &&
      (!s.config.failFast && (f.nodes.construct 6).beyond 2 == [⟨"m.sv", 1, 18⟩]))
      bareSession = true := by
    rw [Step.endsIn, SourceFile.ofText_of_plain ⟨by decide +kernel, by decide +kernel⟩]
    decide +kernel
  obtain ⟨f, s, hf, h⟩ := Step.exists_of_endsIn h
  simp only [Bool.and_eq_true, Bool.not_eq_true', beq_iff_eq] at h
  exact ⟨f, s, hf, h⟩

theorem below_of_nestsSixth {f : SourceFile} (h : nestsSixth f = true) :
    f.nodes.Below f.nodes.root 6 ∧ (f.nodes.kind 6).isGenerate = true ∧
      (f.nodes.construct 6).nesting = 2 := by
  simp only [nestsSixth, Bool.and_eq_true, decide_eq_true_eq, List.contains_iff_mem] at h
  obtain ⟨⟨⟨⟨⟨hroot, h2⟩, h3⟩, h6⟩, hk⟩, hnesting⟩ := h
  exact ⟨(((hroot ▸ .root : f.nodes.Below f.nodes.root 1).child h2).child h3).child h6, hk,
    hnesting⟩

theorem limits_generates_nestedModule : ∃ f s,
    SourceFile.ofText "m.sv" nestedModule bareSession = .ok f s ∧ f.IsRead ∧
      f.nodes.Below f.nodes.root 6 ∧ (f.nodes.kind 6).isGenerate = true ∧
      0 < (twoLevels s).ir.size ∧
      let construct := f.nodes.construct 6
      let room := (twoLevels s).limit - (twoLevels s).depth
      (match reportAll (depthFaults "m" (construct.beyond room)) (twoLevels s).session with
        | .ok _ s' => ∃ ids ir, addConstruct "m" 0 construct (twoLevels s) =
            .ok ids { twoLevels s with session := s', ir } ∧
          ir.AreTrees 0 ((construct.within room).elim [] (·.trees)) ids
        | .error e s' => ∃ ir, addConstruct "m" 0 construct (twoLevels s) =
            .error e { twoLevels s with session := s', ir }) ∧
      (construct.beyond room = [] ↔ construct.levels ≤ room) ∧
      (construct.levels ≤ room → construct.within room = some construct) ∧
      2 * construct.nesting ≤ construct.levels + 1 ∧ f.nodes.Lowers 6 construct.trees := by
  obtain ⟨f, s, hf, hsixth, -⟩ := exists_nestsSixth
  obtain ⟨hbelow, hk, -⟩ := below_of_nestsSixth hsixth
  have hread := SourceFile.isRead_ofText hf
  have hsize : 0 < (twoLevels s).ir.size := Nat.zero_lt_one
  exact ⟨f, s, hf, hread, hbelow, hk, hsize, limits_generates hread hbelow hk "m" hsize⟩

/-- Two conditions in one another are not both compiled where there are two levels: the second one
is reported, since there is a block between them. -/
theorem limits_nestedModule : ∃ f s ids c',
    SourceFile.ofText "m.sv" nestedModule bareSession = .ok f s ∧
      (f.nodes.construct 6).nesting = 2 ∧ (twoLevels s).limit = 2 ∧
      addConstruct "m" 0 (f.nodes.construct 6) (twoLevels s) = .ok ids c' ∧
      c'.depthReports = (twoLevels s).depthReports + 1 := by
  obtain ⟨f, s, hf, hsixth, hlenient, hbeyond⟩ := exists_nestsSixth
  obtain ⟨hbelow, hk, hnesting⟩ := below_of_nestsSixth hsixth
  have hwhole := NodeTable.whole_construct (SourceFile.isRead_ofText hf).wellMade hbelow hk
  obtain ⟨ids, ir, -, hrun⟩ := cuts_addConstruct "m" 0 2 _ hwhole (twoLevels s) rfl
  have hstays : (twoLevels s).session.config.failFast = false := hlenient
  rw [hbeyond, reportAll_of_lenient hstays] at hrun
  refine ⟨f, s, ids, _, hf, hnesting, rfl, hrun, ?_⟩
  rw [Compilation.depthReports, Compilation.depthReports, Session.diagnostics_addAll,
    Array.toList_append, List.countP_append]
  rfl

end Verilog
