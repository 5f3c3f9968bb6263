import Verilog.Proofs.Design.Stopping

/-!
# The first definition of a name

A definition that is there already is kept when its name comes again, and the repetition is
reported. What is declared inside the repeated one is still visited, though: its classes find the
definition that was kept by its name, and take the places of the classes there that have the same
short names. Nothing else of a definition changes (`keeps_first_definitions`).
-/

namespace Verilog

open Step Session

/-! ### Repetitions -/

/-- Do elements of a kind become definitions? -/
def ElementKind.isComponent : ElementKind → Bool
  | module | interface | primitive => true
  | _ => false

namespace DesignElement

/-- What is reported of an element whose definition is there already. -/
def repetition? (t : NodeTable) (e : DesignElement) : Option Diagnostic :=
  if e.kind.isComponent then
    let name := nameText e.name
    some { kind := .duplicateDefinition name, place := some (t.place e.node)
           message := s!"{name} is already defined, keeping the first definition" }
  else none

/-- The name of the element around an element. -/
def owner? (t : NodeTable) (e : DesignElement) : Option String :=
  (e.parent.bind (t.elements[·]?)).map fun owner => nameText owner.name

/-- Is an element a class that is declared in an element of this name? -/
def isClassIn (t : NodeTable) (owner : String) (e : DesignElement) : Bool :=
  e.kind == .classType && e.owner? t == some owner

/-- The name of an element without those of the library and of the elements around it. -/
def shortName (e : DesignElement) : String := lastPart ['.', '@'] (nameText e.name)

end DesignElement

/-- The last class among some elements that is declared in an element under a short name. -/
def lastClassIn (t : NodeTable) (owner short : String) (es : List DesignElement) : Option NodeId :=
  (es.reverse.find? fun e => e.isClassIn t owner && e.shortName == short).map (·.node)

/-- The last class among some elements that has a name. -/
def lastClass (name : String) (es : List DesignElement) : Option NodeId :=
  (es.reverse.find? fun e => e.kind == .classType && nameText e.name == name).map (·.node)

/-- What is reported of a file whose definitions are all there already: a warning for each. -/
def SourceFile.repetitions (f : SourceFile) : List Diagnostic :=
  f.nodes.elements.toList.filterMap (·.repetition? f.nodes)

/-- The last one of some elements is looked at first. -/
theorem find?_reverse_cons {α : Type} (p : α → Bool) (a : α) (as : List α) :
    (a :: as).reverse.find? p = (as.reverse.find? p).or (if p a then some a else none) := by
  rw [List.reverse_cons, List.find?_append, List.find?_singleton]

theorem lastClassIn_cons (t : NodeTable) (owner short : String) (e : DesignElement)
    (es : List DesignElement) : lastClassIn t owner short (e :: es) =
      (lastClassIn t owner short es).or
        (if e.isClassIn t owner && e.shortName == short then some e.node else none) := by
  rw [lastClassIn, lastClassIn, find?_reverse_cons, Option.map_or]
  split <;> rfl

theorem lastClass_cons (name : String) (e : DesignElement) (es : List DesignElement) :
    lastClass name (e :: es) = (lastClass name es).or
      (if e.kind == .classType && nameText e.name == name then some e.node else none) := by
  rw [lastClass, lastClass, find?_reverse_cons, Option.map_or]
  split <;> rfl

/-! ### What repetitions do to a design -/

namespace Design

/-- What becomes of a design at an element whose definition is there already. -/
def revisit (t : NodeTable) (design : Design) (e : DesignElement) : Design :=
  let name := nameText e.name
  match e.kind with
  | .package => design.addPackage t name e.node
  | .program => { design with programs := design.programs.insert name (t, e.node) }
  | .classType => design.addClass t name e
  | _ => design

/-- **A design after some elements whose definitions were there already**: of a definition only
the classes may be others, and a class is the last one of its name. -/
structure Revisited (t : NodeTable) (es : List DesignElement) (before after : Design) : Prop where
  keys : after.definitions.keys = before.definitions.keys
  definition : ∀ name, ∃ classes : Definition → OrderedMap String NodeId,
    after.definitions.get? name =
      (before.definitions.get? name).map (fun d => { d with classes := classes d }) ∧
    ∀ d short, (classes d).get? short = (lastClassIn t name short es).or (d.classes.get? short)
  classes : ∀ name, after.classes.get? name =
    ((lastClass name es).map (t, ·)).or (before.classes.get? name)

variable {t : NodeTable} {design after : Design} {e : DesignElement} {es : List DesignElement}

theorem Revisited.refl (t : NodeTable) (design : Design) : Revisited t [] design design where
  keys := rfl
  definition _ := ⟨fun d => d.classes, by simp, fun _ _ => rfl⟩
  classes _ := rfl

/-- The definitions after a class was added. -/
theorem definitions_addClass (t : NodeTable) (design : Design) (name : String) (e : DesignElement) :
    (design.addClass t name e).definitions = match e.owner? t with
      | none => design.definitions
      | some owner => design.definitions.modify owner fun d =>
        { d with classes := d.classes.insert (lastPart ['.', '@'] name) e.node } := by
  rw [addClass, DesignElement.owner?]
  cases e.parent.bind (t.elements[·]?) <;> rfl

/-- Only a class changes classes. -/
theorem revisited_other (hkind : e.kind ≠ .classType) :
    Revisited t [e] design (design.revisit t e) := by
  have hclass : (e.kind == ElementKind.classType) = false := by simpa using hkind
  have hdefinitions : (design.revisit t e).definitions = design.definitions ∧
      (design.revisit t e).classes = design.classes := by
    unfold revisit
    split
    · exact ⟨rfl, rfl⟩
    · exact ⟨rfl, rfl⟩
    · exact absurd ‹_› hkind
    · exact ⟨rfl, rfl⟩
  refine ⟨by rw [hdefinitions.1], fun name => ⟨fun d => d.classes, ?_, fun d short => ?_⟩,
    fun name => ?_⟩
  · simp [hdefinitions.1]
  · simp [lastClassIn, DesignElement.isClassIn, hclass]
  · simp [hdefinitions.2, lastClass, hclass]

/-- A class takes the place of the one that has its name, and so in the definition that has the
name of the element around it. -/
theorem revisited_class (hkind : e.kind = .classType) :
    Revisited t [e] design (design.revisit t e) := by
  have hrevisit : design.revisit t e = design.addClass t (nameText e.name) e := by
    rw [revisit, hkind]
  have hclass : (e.kind == ElementKind.classType) = true := by simp [hkind]
  rw [hrevisit]
  refine ⟨?_, fun name => ⟨fun d =>
    if e.owner? t = some name then d.classes.insert e.shortName e.node else d.classes,
    ?_, fun d short => ?_⟩, fun name => ?_⟩
  · rw [definitions_addClass]
    split
    · rfl
    · exact OrderedMap.keys_modify _ _ _
  · rw [definitions_addClass]
    cases howner : e.owner? t with
    | none => simp
    | some owner =>
      simp only [OrderedMap.get?_modify, Option.some.injEq]
      by_cases hname : owner = name
      · simp [hname, DesignElement.shortName]
      · simp [hname]
  · by_cases howner : e.owner? t = some name <;> by_cases hshort : e.shortName = short <;>
      simp [lastClassIn, DesignElement.isClassIn, hclass, howner, hshort]
  · have hclasses : (design.addClass t (nameText e.name) e).classes =
        design.classes.insert (nameText e.name) (t, e.node) := by
      rw [addClass]
      split <;> rfl
    rw [hclasses, OrderedMap.get?_insert]
    by_cases hname : nameText e.name = name <;> simp [lastClass, hclass, hname]

/-- **One element more.** -/
theorem revisited_one (t : NodeTable) (design : Design) (e : DesignElement) :
    Revisited t [e] design (design.revisit t e) := by
  by_cases hkind : e.kind = .classType
  · exact revisited_class hkind
  · exact revisited_other hkind

theorem Revisited.cons {mid : Design} (h : Revisited t [e] design mid)
    (h' : Revisited t es mid after) : Revisited t (e :: es) design after := by
  refine ⟨h'.keys.trans h.keys, fun name => ?_, fun name => ?_⟩
  · obtain ⟨classes, hget, hclasses⟩ := h.definition name
    obtain ⟨classes', hget', hclasses'⟩ := h'.definition name
    refine ⟨fun d => classes' { d with classes := classes d }, ?_, fun d short => ?_⟩
    · rw [hget', hget, Option.map_map]
      rfl
    · rw [hclasses', hclasses, lastClassIn_cons, lastClassIn_cons]
      simp only [Option.or_assoc]
      rfl
  · rw [h'.classes, h.classes, lastClass_cons, lastClass_cons]
    simp only [Option.map_or, Option.or_assoc]
    rfl

theorem Revisited.contains (h : Revisited t es design after) (name : String) :
    after.definitions.contains name = design.definitions.contains name := by
  obtain ⟨classes, hget, -⟩ := h.definition name
  rw [OrderedMap.contains, OrderedMap.contains, hget, Option.isSome_map]

theorem revisited_foldl (t : NodeTable) (es : List DesignElement) (design : Design) :
    Revisited t es design (es.foldl (revisit t) design) := by
  induction es generalizing design with
  | nil => exact .refl t design
  | cons e es ih => exact (revisited_one t design e).cons (ih _)

end Design

/-! ### Compiling repetitions -/

namespace Compiling

variable {t : NodeTable} {design design' : Design} {c c' : Compilation} {e : DesignElement}
  {es : List DesignElement}

/-- Reports a diagnostic that stops no run. -/
theorem report_of_not_error {kind : DiagnosticKind} (hkind : kind.severity.isError = false)
    (place : FilePlace) (message : String) (c : Compilation) : report kind place message c =
      .ok () { c with session := c.session.add { kind, message, place := some place } } := by
  have hseverity : (Diagnostic.severity { kind, message, place := some place }).isError = false :=
    hkind
  rw [report, Step.onPart, report_eq, hseverity, Bool.and_false, if_neg Bool.false_ne_true]

/-- **An element whose definition is there already** is visited, and reported if it would be a
definition itself. -/
theorem addElement_repeated (h : e.kind.isComponent = true →
      design.definitions.contains (nameText e.name) = true) (c : Compilation) :
    addElement t design e c = .ok (design.revisit t e)
      { c with session := c.session.addAll (e.repetition? t).toList } := by
  have hcomponent (hkind : e.kind.isComponent = true) (hrevisit : design.revisit t e = design) :
      addComponent design t (nameText e.name) e.node c = .ok (design.revisit t e)
        { c with session := c.session.addAll (e.repetition? t).toList } := by
    rw [addComponent, if_pos (h hkind), hrevisit, DesignElement.repetition?, if_pos hkind]
    exact Step.bind_of_ok (report_of_not_error rfl _ _ c)
  unfold addElement
  cases hkind : e.kind with
  | module | interface | primitive =>
    exact hcomponent (by rw [hkind]; rfl) (by rw [Design.revisit, hkind])
  | _ =>
    rw [Design.revisit, DesignElement.repetition?, hkind]
    rfl

/-- **All elements of a file whose definitions are there already.** -/
theorem addElements_repeated (h : ∀ e ∈ es, e.kind.isComponent = true →
      design.definitions.contains (nameText e.name) = true) (c : Compilation) :
    addElements t es design c = .ok (es.foldl (Design.revisit t) design)
      { c with session := c.session.addAll (es.filterMap (·.repetition? t)) } := by
  induction es generalizing design c with
  | nil => rfl
  | cons e es ih =>
    obtain ⟨hhead, htail⟩ := List.forall_mem_cons.mp h
    refine (Step.bind_of_ok (addElement_repeated hhead c)).trans ?_
    rw [ih fun e' he' hkind => by
      rw [(Design.revisited_one t design e).contains]
      exact htail e' he' hkind]
    have hreported : (e :: es).filterMap (·.repetition? t) =
        (e.repetition? t).toList ++ es.filterMap (·.repetition? t) := by
      rw [List.filterMap_cons]
      cases e.repetition? t <;> rfl
    rw [hreported, Session.addAll, Session.addAll, Session.addAll, List.foldl_append]
    rfl

/-- Files are compiled one after the other. -/
theorem addFiles_append (fs gs : List SourceFile) (design : Design) :
    addFiles (fs ++ gs) design = addFiles fs design >>= addFiles gs := by
  induction fs generalizing design with
  | nil => rw [List.nil_append, addFiles, pure_bind]
  | cons f fs ih =>
    rw [List.cons_append, addFiles, addFiles, bind_assoc]
    congr 1
    funext design
    exact ih design

/-! ### Names that are defined -/

theorem contains_addGates {gates : List String} (h : addGates design gates c = .ok design' c')
    {name : String} (hname : design.definitions.contains name = true) :
    design'.definitions.contains name = true := by
  induction gates generalizing design c with
  | nil =>
    obtain ⟨rfl, -⟩ := EStateM.Result.ok.inj h
    exact hname
  | cons gate gates ih =>
    rw [addGates] at h
    split at h
    · exact ih h hname
    · obtain ⟨d, mid, -, h⟩ := Step.exists_of_bind h
      refine ih h ?_
      rw [OrderedMap.contains_insert, hname, Bool.or_true]

/-- Adding a definition keeps those that are there, and afterwards its name is defined. -/
theorem contains_addComponent {name : String} {node : NodeId}
    (h : addComponent design t name node c = .ok design' c') {other : String}
    (hother : other = name ∨ design.definitions.contains other = true) :
    design'.definitions.contains other = true := by
  rw [addComponent] at h
  split at h
  · rename_i hname
    obtain ⟨u, mid, -, h⟩ := Step.exists_of_bind h
    obtain ⟨rfl, -⟩ := EStateM.Result.ok.inj h
    exact hother.elim (· ▸ hname) id
  · obtain ⟨d, mid, -, h⟩ := Step.exists_of_bind h
    obtain ⟨design₁, mid₁, hgates, h⟩ := Step.exists_of_bind h
    obtain ⟨rfl, -⟩ := EStateM.Result.ok.inj h
    rw [OrderedMap.contains_insert]
    rcases hother with rfl | hother
    · simp
    · rw [contains_addGates hgates hother, Bool.or_true]

theorem contains_addElement (h : addElement t design e c = .ok design' c') {other : String}
    (hother : e.kind.isComponent = true ∧ other = nameText e.name ∨
      design.definitions.contains other = true) : design'.definitions.contains other = true := by
  have hcomponent (h : addComponent design t (nameText e.name) e.node c = .ok design' c') :
      design'.definitions.contains other = true := contains_addComponent h (hother.imp_left (·.2))
  -- what is no component defines nothing, and keeps what is defined
  have hrevisit (hkind : e.kind.isComponent = false) (heq : design.revisit t e = design') :
      design'.definitions.contains other = true := by
    rw [← heq, (Design.revisited_one t design e).contains]
    exact hother.resolve_left fun hown => by simp [hkind] at hown
  unfold addElement at h
  cases hkind : e.kind with
  | module | interface | primitive =>
    rw [hkind] at h
    exact hcomponent h
  | _ =>
    rw [hkind] at h
    obtain ⟨rfl, -⟩ := EStateM.Result.ok.inj h
    exact hrevisit (by rw [hkind]; rfl) (by rw [Design.revisit, hkind])

theorem contains_addElements (h : addElements t es design c = .ok design' c') {other : String}
    (hother : (∃ e ∈ es, e.kind.isComponent = true ∧ other = nameText e.name) ∨
      design.definitions.contains other = true) : design'.definitions.contains other = true := by
  induction es generalizing design c with
  | nil =>
    obtain ⟨rfl, -⟩ := EStateM.Result.ok.inj h
    exact hother.resolve_left (by simp)
  | cons e es ih =>
    obtain ⟨mid, cmid, hone, hrest⟩ := Step.exists_of_bind h
    rcases hother with ⟨e', he', hown⟩ | hother
    · rcases List.mem_cons.mp he' with rfl | he'
      · exact ih hrest (.inr (contains_addElement hone (.inl hown)))
      · exact ih hrest (.inl ⟨e', he', hown⟩)
    · exact ih hrest (.inr (contains_addElement hone (.inr hother)))

/-- Adding files defines what they declare under its own name, and what was defined stays so. -/
theorem contains_addFiles {files : List SourceFile} (h : addFiles files design c = .ok design' c')
    {other : String} (hother : (∃ f ∈ files, ∃ e ∈ f.nodes.elements,
        e.kind.isComponent = true ∧ other = nameText e.name) ∨
      design.definitions.contains other = true) : design'.definitions.contains other = true := by
  induction files generalizing design c with
  | nil =>
    obtain ⟨rfl, -⟩ := EStateM.Result.ok.inj h
    exact hother.resolve_left (by simp)
  | cons f files ih =>
    obtain ⟨mid, cmid, hone, hrest⟩ := Step.exists_of_bind h
    rcases hother with ⟨f', hf', e, he, hown⟩ | hother
    · rcases List.mem_cons.mp hf' with rfl | hf'
      · exact ih hrest (.inr (contains_addElements hone
          (.inl ⟨e, Array.mem_toList_iff.mpr he, hown⟩)))
      · exact ih hrest (.inl ⟨f', hf', e, he, hown⟩)
    · exact ih hrest (.inr (contains_addElements hone (.inr hother)))

end Compiling

/-- **Every module, interface and primitive of the files of a design is defined.** -/
theorem contains_compileDesign {files : List SourceFile} {s s' : Session}
    {design : Design} {ir : Ir}
    (h : compileDesign files s = .ok (design, ir) s') {f : SourceFile} (hf : f ∈ files)
    {e : DesignElement} (he : e ∈ f.nodes.elements) (hkind : e.kind.isComponent = true) :
    design.definitions.contains (nameText e.name) = true := by
  rw [compileDesign] at h
  split at h
  · rename_i design₁ c hfiles
    obtain ⟨⟨rfl, -⟩, -⟩ : (design₁ = design ∧ c.ir = ir) ∧ c.session = s' := by simpa using h
    exact Compiling.contains_addFiles hfiles (.inl ⟨f, hf, e, he, hkind, rfl⟩)
  · cases h

/-- **The first definitions are kept.** Where all modules, interfaces and primitives of one file
more are defined by the files before it, a design has the same definitions in the same order with
it, with the same trees, ports, signals, modports, clocking blocks and handles, and the same objects
stand for them; what is reported in addition is one warning for each repetition. The classes of a
definition are what they were as far as the file declares no class of the same short name in an
element of the name of the definition; where it does, the name stands for its last one, a node of
another file. -/
theorem keeps_first_definitions (files : List SourceFile) (f : SourceFile) (s s' : Session)
    (design : Design) (ir : Ir) (h : compileDesign files s = .ok (design, ir) s')
    (hrepeated : ∀ e ∈ f.nodes.elements, e.kind.isComponent = true →
      design.definitions.contains (nameText e.name) = true) :
    ∃ design', compileDesign (files ++ [f]) s =
        .ok (design', ir) (s'.addAll f.repetitions) ∧
      design'.definitions.keys = design.definitions.keys ∧
      (∀ name d, design.definitions.get? name = some d → ∃ classes,
        design'.definitions.get? name = some { d with classes } ∧
        ∀ short, classes.get? short =
          (lastClassIn f.nodes name short f.nodes.elements.toList).or (d.classes.get? short)) ∧
      ∀ name, design'.classes.get? name =
        ((lastClass name f.nodes.elements.toList).map (f.nodes, ·)).or
          (design.classes.get? name) := by
  rw [compileDesign] at h
  split at h
  · rename_i design₁ c hrun
    obtain ⟨⟨rfl, rfl⟩, rfl⟩ : (design₁ = design ∧ c.ir = ir) ∧ c.session = s' := by simpa using h
    have hrevisited := Design.revisited_foldl f.nodes f.nodes.elements.toList design₁
    refine ⟨_, ?_, hrevisited.keys, fun name d hd => ?_, hrevisited.classes⟩
    · have hone := Compiling.addElements_repeated (t := f.nodes)
        (fun e he => hrepeated e (Array.mem_toList_iff.mp he)) c
      have hmore : Compiling.addFiles (files ++ [f]) {}
          { session := s, limit := Compilation.defaultLimit } =
            .ok (f.nodes.elements.toList.foldl (Design.revisit f.nodes) design₁)
              { c with session := c.session.addAll f.repetitions } := by
        rw [Compiling.addFiles_append, Step.bind_of_ok hrun]
        exact Step.bind_of_ok hone
      rw [compileDesign, hmore]
    · obtain ⟨classes, hget, hclasses⟩ := hrevisited.definition name
      exact ⟨classes d, by rw [hget, hd]; rfl, hclasses d⟩
  · cases h

/-- A module with a class. -/
def classedModule : String := "module m; class C; endclass endmodule\n"

theorem keeps_first_definitions_classedModule : ∃ f s design ir s',
    SourceFile.ofText "m.sv" classedModule bareSession = .ok f s ∧
      compileDesign [f] s = .ok (design, ir) s' ∧ ∃ design',
        compileDesign ([f] ++ [f]) s = .ok (design', ir) (s'.addAll f.repetitions) ∧
          design'.definitions.keys = design.definitions.keys := by
  have h : (preprocessText "m.sv" classedModule).endsIn readable bareSession = true := by
    decide +kernel
  obtain ⟨f, s, design, ir, s', hf, -, hd⟩ := exists_of_readable h
  obtain ⟨design', hmore, hkeys, -⟩ := keeps_first_definitions [f] f s s' design ir hd
    fun _ => contains_compileDesign hd (List.mem_singleton_self f)
  exact ⟨f, s, design, ir, s', hf, hd, design', hmore, hkeys⟩

end Verilog
