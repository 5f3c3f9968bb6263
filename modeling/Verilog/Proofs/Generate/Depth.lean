import Verilog.Proofs.Generate.Whole

/-!
# Constructs that are nested too deeply

What compiles a construct goes one level down for each construct, and one more for each block whose
items it goes through. Of a construct that has to do with so many levels there is left what they are
enough for (`GenerateConstruct.within`), and the outermost constructs that they are not enough for
are each reported once (`GenerateConstruct.beyond`). A construct that lacks nothing is compiled as
what is left of it, with just these reports, and the level is in the end what it was, whether the
reports stop the run or not (`Compiling.cuts_addConstruct`).

All of a construct is left if there are as many levels as it takes (`GenerateConstruct.levels`).
Since there is a block between any two constructs that are nested in one another, these are nearly
twice as many as there are such constructs (`GenerateConstruct.nesting_le`).
-/

namespace Verilog

/-! ### What levels are enough for -/

mutual

/-- What is left of a block that has to do with so many levels. -/
def GenerateBlock.within : GenerateBlock → Nat → GenerateBlock
  | .mk label range items, room => .mk label range (GenerateItem.withinAll items (room - 1))

/-- `within` for a block that may be missing. -/
def GenerateBlock.withinBody : Option GenerateBlock → Nat → Option GenerateBlock
  | none, _ => none
  | some body, room => some (body.within room)

/-- What is left of a branch. -/
def CaseBranch.within : CaseBranch → Nat → CaseBranch
  | .mk values range body, room => .mk values range (GenerateBlock.withinBody body room)

/-- What is left of each of a list of branches. -/
def CaseBranch.withinAll : List CaseBranch → Nat → List CaseBranch
  | [], _ => []
  | branch :: branches, room => branch.within room :: CaseBranch.withinAll branches room

/-- What is left of an item; nothing if it is a construct and there is no level for it. -/
def GenerateItem.within : GenerateItem → Nat → Option GenerateItem
  | .assign a, _ => some (.assign a)
  | .instantiate i, _ => some (.instantiate i)
  | .declare d, _ => some (.declare d)
  | .splice items, room => some (.splice (GenerateItem.withinAll items (room - 1)))
  | .construct c, room => (c.within room).map .construct

/-- What is left of a list of items. -/
def GenerateItem.withinAll : List GenerateItem → Nat → List GenerateItem
  | [], _ => []
  | item :: items, room => (item.within room).toList ++ GenerateItem.withinAll items room

/-- **What is left of a construct** that has to do with so many levels. -/
def GenerateConstruct.within : GenerateConstruct → Nat → Option GenerateConstruct
  | _, 0 => none
  | .region place range body, room + 1 => some (.region place range (body.within room))
  | .ifElse place inner range condition yes no, room + 1 =>
    some (.ifElse place inner range condition (yes.within room) (no.within room))
  | .ifOnly place inner range shape condition body, room + 1 =>
    some (.ifOnly place inner range shape condition (body.within room))
  | .choice place inner range selector branches, room + 1 =>
    some (.choice place inner range selector (CaseBranch.withinAll branches room))
  | .loop place inner range start condition step body, room + 1 =>
    some (.loop place inner range start condition step (GenerateBlock.withinBody body room))
  | .unsupported place kind, _ + 1 => some (.unsupported place kind)

end

mutual

/-- The places of the outermost constructs in a block for which so many levels are not enough. -/
def GenerateBlock.beyond : GenerateBlock → Nat → List FilePlace
  | .mk _ _ items, room => GenerateItem.beyondAll items (room - 1)

/-- `beyond` for a block that may be missing. -/
def GenerateBlock.beyondBody : Option GenerateBlock → Nat → List FilePlace
  | none, _ => []
  | some body, room => body.beyond room

/-- `beyond` for a branch. -/
def CaseBranch.beyond : CaseBranch → Nat → List FilePlace
  | .mk _ _ body, room => GenerateBlock.beyondBody body room

/-- `beyond` for a list of branches. -/
def CaseBranch.beyondAll : List CaseBranch → Nat → List FilePlace
  | [], _ => []
  | branch :: branches, room => branch.beyond room ++ CaseBranch.beyondAll branches room

/-- `beyond` for an item. -/
def GenerateItem.beyond : GenerateItem → Nat → List FilePlace
  | .assign _, _ | .instantiate _, _ | .declare _, _ => []
  | .splice items, room => GenerateItem.beyondAll items (room - 1)
  | .construct c, room => c.beyond room

/-- `beyond` for a list of items. -/
def GenerateItem.beyondAll : List GenerateItem → Nat → List FilePlace
  | [], _ => []
  | item :: items, room => item.beyond room ++ GenerateItem.beyondAll items room

/-- **The places of the outermost constructs**, in a construct or itself, for which so many levels
are not enough. -/
def GenerateConstruct.beyond : GenerateConstruct → Nat → List FilePlace
  | c, 0 => [c.place]
  | .region _ _ body, room + 1 => body.beyond room
  | .ifElse _ _ _ _ yes no, room + 1 => yes.beyond room ++ no.beyond room
  | .ifOnly _ _ _ _ _ body, room + 1 => body.beyond room
  | .choice _ _ _ _ branches, room + 1 => CaseBranch.beyondAll branches room
  | .loop _ _ _ _ _ _ body, room + 1 => GenerateBlock.beyondBody body room
  | .unsupported .., _ + 1 => []

end

/-! ### How many levels a construct takes -/

/-- A level below others, if there are any. -/
def oneDeeper (levels : Nat) : Nat := if levels = 0 then 0 else levels + 1

theorem oneDeeper_le_iff {levels room : Nat} : oneDeeper levels ≤ room ↔ levels ≤ room - 1 := by
  rw [oneDeeper]
  split <;> omega

mutual

/-- The levels that the constructs in a block take, itself among them if there are any. -/
def GenerateBlock.levels : GenerateBlock → Nat
  | .mk _ _ items => oneDeeper (GenerateItem.levelsAll items)

/-- `levels` for a block that may be missing. -/
def GenerateBlock.levelsBody : Option GenerateBlock → Nat
  | none => 0
  | some body => body.levels

/-- `levels` for a branch. -/
def CaseBranch.levels : CaseBranch → Nat
  | .mk _ _ body => GenerateBlock.levelsBody body

/-- `levels` for a list of branches. -/
def CaseBranch.levelsAll : List CaseBranch → Nat
  | [] => 0
  | branch :: branches => max branch.levels (CaseBranch.levelsAll branches)

/-- `levels` for an item. -/
def GenerateItem.levels : GenerateItem → Nat
  | .assign _ | .instantiate _ | .declare _ => 0
  | .splice items => oneDeeper (GenerateItem.levelsAll items)
  | .construct c => c.levels

/-- `levels` for a list of items. -/
def GenerateItem.levelsAll : List GenerateItem → Nat
  | [] => 0
  | item :: items => max item.levels (GenerateItem.levelsAll items)

/-- **The levels that a construct takes**: those of the constructs and blocks on the longest way
down to a construct. -/
def GenerateConstruct.levels : GenerateConstruct → Nat
  | .region _ _ body => body.levels + 1
  | .ifElse _ _ _ _ yes no => max yes.levels no.levels + 1
  | .ifOnly _ _ _ _ _ body => body.levels + 1
  | .choice _ _ _ _ branches => CaseBranch.levelsAll branches + 1
  | .loop _ _ _ _ _ _ body => GenerateBlock.levelsBody body + 1
  | .unsupported .. => 1

end

mutual

theorem GenerateBlock.beyond_eq_nil_iff : (b : GenerateBlock) → ∀ {room : Nat},
    b.beyond room = [] ↔ b.levels ≤ room
  | .mk _ _ items, room => by
    rw [GenerateBlock.beyond, GenerateBlock.levels, GenerateItem.beyondAll_eq_nil_iff items,
      oneDeeper_le_iff]

theorem GenerateBlock.beyondBody_eq_nil_iff : (b : Option GenerateBlock) → ∀ {room : Nat},
    GenerateBlock.beyondBody b room = [] ↔ GenerateBlock.levelsBody b ≤ room
  | none, room => by simp [GenerateBlock.beyondBody, GenerateBlock.levelsBody]
  | some body, room => by
    rw [GenerateBlock.beyondBody, GenerateBlock.levelsBody, body.beyond_eq_nil_iff]

theorem CaseBranch.beyond_eq_nil_iff : (branch : CaseBranch) → ∀ {room : Nat},
    branch.beyond room = [] ↔ branch.levels ≤ room
  | .mk _ _ body, room => by
    rw [CaseBranch.beyond, CaseBranch.levels, GenerateBlock.beyondBody_eq_nil_iff body]

theorem CaseBranch.beyondAll_eq_nil_iff : (branches : List CaseBranch) → ∀ {room : Nat},
    CaseBranch.beyondAll branches room = [] ↔ CaseBranch.levelsAll branches ≤ room
  | [], room => by simp [CaseBranch.beyondAll, CaseBranch.levelsAll]
  | branch :: branches, room => by
    rw [CaseBranch.beyondAll, CaseBranch.levelsAll, List.append_eq_nil_iff,
      branch.beyond_eq_nil_iff,
      CaseBranch.beyondAll_eq_nil_iff branches, Nat.max_le]

theorem GenerateItem.beyond_eq_nil_iff : (item : GenerateItem) → ∀ {room : Nat},
    item.beyond room = [] ↔ item.levels ≤ room
  | .assign _, room | .instantiate _, room | .declare _, room => by
    simp [GenerateItem.beyond, GenerateItem.levels]
  | .splice items, room => by
    rw [GenerateItem.beyond, GenerateItem.levels, GenerateItem.beyondAll_eq_nil_iff items,
      oneDeeper_le_iff]
  | .construct c, room => by rw [GenerateItem.beyond, GenerateItem.levels, c.beyond_eq_nil_iff]

theorem GenerateItem.beyondAll_eq_nil_iff : (items : List GenerateItem) → ∀ {room : Nat},
    GenerateItem.beyondAll items room = [] ↔ GenerateItem.levelsAll items ≤ room
  | [], room => by simp [GenerateItem.beyondAll, GenerateItem.levelsAll]
  | item :: items, room => by
    rw [GenerateItem.beyondAll, GenerateItem.levelsAll, List.append_eq_nil_iff,
      item.beyond_eq_nil_iff,
      GenerateItem.beyondAll_eq_nil_iff items, Nat.max_le]

/-- **Nothing of a construct is too deep** just if there are as many levels as it takes. -/
theorem GenerateConstruct.beyond_eq_nil_iff : (c : GenerateConstruct) → ∀ {room : Nat},
    c.beyond room = [] ↔ c.levels ≤ room
  | c, 0 => by cases c <;> simp [GenerateConstruct.beyond, GenerateConstruct.levels]
  | .region _ _ body, room + 1 => by
    rw [GenerateConstruct.beyond, GenerateConstruct.levels, body.beyond_eq_nil_iff,
      Nat.add_le_add_iff_right]
  | .ifElse _ _ _ _ yes no, room + 1 => by
    rw [GenerateConstruct.beyond, GenerateConstruct.levels, List.append_eq_nil_iff,
      yes.beyond_eq_nil_iff, no.beyond_eq_nil_iff,
      Nat.add_le_add_iff_right, Nat.max_le]
  | .ifOnly _ _ _ _ _ body, room + 1 => by
    rw [GenerateConstruct.beyond, GenerateConstruct.levels, body.beyond_eq_nil_iff,
      Nat.add_le_add_iff_right]
  | .choice _ _ _ _ branches, room + 1 => by
    rw [GenerateConstruct.beyond, GenerateConstruct.levels,
      CaseBranch.beyondAll_eq_nil_iff branches, Nat.add_le_add_iff_right]
  | .loop _ _ _ _ _ _ body, room + 1 => by
    rw [GenerateConstruct.beyond, GenerateConstruct.levels,
      GenerateBlock.beyondBody_eq_nil_iff body, Nat.add_le_add_iff_right]
  | .unsupported .., room + 1 => by simp [GenerateConstruct.beyond, GenerateConstruct.levels]

end

mutual

theorem GenerateBlock.within_eq : (b : GenerateBlock) → ∀ {room : Nat}, b.levels ≤ room →
    b.within room = b
  | .mk _ _ items, room, h => by
    rw [GenerateBlock.levels, oneDeeper_le_iff] at h
    rw [GenerateBlock.within, GenerateItem.withinAll_eq items h]

theorem GenerateBlock.withinBody_eq : (b : Option GenerateBlock) → ∀ {room : Nat},
    GenerateBlock.levelsBody b ≤ room → GenerateBlock.withinBody b room = b
  | none, _, _ => rfl
  | some body, _, h => by rw [GenerateBlock.withinBody, body.within_eq h]

theorem CaseBranch.within_eq : (branch : CaseBranch) → ∀ {room : Nat}, branch.levels ≤ room →
    branch.within room = branch
  | .mk _ _ body, _, h => by rw [CaseBranch.within, GenerateBlock.withinBody_eq body h]

theorem CaseBranch.withinAll_eq : (branches : List CaseBranch) → ∀ {room : Nat},
    CaseBranch.levelsAll branches ≤ room → CaseBranch.withinAll branches room = branches
  | [], _, _ => rfl
  | branch :: branches, _, h => by
    rw [CaseBranch.levelsAll, Nat.max_le] at h
    rw [CaseBranch.withinAll, branch.within_eq h.1, CaseBranch.withinAll_eq branches h.2]

theorem GenerateItem.within_eq : (item : GenerateItem) → ∀ {room : Nat}, item.levels ≤ room →
    item.within room = some item
  | .assign _, _, _ | .instantiate _, _, _ | .declare _, _, _ => rfl
  | .splice items, _, h => by
    rw [GenerateItem.levels, oneDeeper_le_iff] at h
    rw [GenerateItem.within, GenerateItem.withinAll_eq items h]
  | .construct c, _, h => by rw [GenerateItem.within, c.within_eq h, Option.map_some]

theorem GenerateItem.withinAll_eq : (items : List GenerateItem) → ∀ {room : Nat},
    GenerateItem.levelsAll items ≤ room → GenerateItem.withinAll items room = items
  | [], _, _ => rfl
  | item :: items, _, h => by
    rw [GenerateItem.levelsAll, Nat.max_le] at h
    rw [GenerateItem.withinAll, item.within_eq h.1, GenerateItem.withinAll_eq items h.2]
    rfl

/-- **All of a construct is left** if there are as many levels as it takes. -/
theorem GenerateConstruct.within_eq : (c : GenerateConstruct) → ∀ {room : Nat}, c.levels ≤ room →
    c.within room = some c
  | c, 0, h => by cases c <;> simp [GenerateConstruct.levels] at h
  | .region _ _ body, room + 1, h => by
    rw [GenerateConstruct.within, body.within_eq (Nat.le_of_succ_le_succ h)]
  | .ifElse _ _ _ _ yes no, room + 1, h => by
    obtain ⟨hyes, hno⟩ := Nat.max_le.mp (Nat.le_of_succ_le_succ h)
    rw [GenerateConstruct.within, yes.within_eq hyes, no.within_eq hno]
  | .ifOnly _ _ _ _ _ body, room + 1, h => by
    rw [GenerateConstruct.within, body.within_eq (Nat.le_of_succ_le_succ h)]
  | .choice _ _ _ _ branches, room + 1, h => by
    rw [GenerateConstruct.within, CaseBranch.withinAll_eq branches (Nat.le_of_succ_le_succ h)]
  | .loop _ _ _ _ _ _ body, room + 1, h => by
    rw [GenerateConstruct.within, GenerateBlock.withinBody_eq body (Nat.le_of_succ_le_succ h)]
  | .unsupported .., room + 1, _ => rfl

end

/-! ### How many constructs are nested in one another -/

mutual

/-- How many constructs are nested in one another in a block. -/
def GenerateBlock.nesting : GenerateBlock → Nat
  | .mk _ _ items => GenerateItem.nestingAll items

/-- `nesting` for a block that may be missing. -/
def GenerateBlock.nestingBody : Option GenerateBlock → Nat
  | none => 0
  | some body => body.nesting

/-- `nesting` for a branch. -/
def CaseBranch.nesting : CaseBranch → Nat
  | .mk _ _ body => GenerateBlock.nestingBody body

/-- `nesting` for a list of branches. -/
def CaseBranch.nestingAll : List CaseBranch → Nat
  | [] => 0
  | branch :: branches => max branch.nesting (CaseBranch.nestingAll branches)

/-- `nesting` for an item. -/
def GenerateItem.nesting : GenerateItem → Nat
  | .assign _ | .instantiate _ | .declare _ => 0
  | .splice items => GenerateItem.nestingAll items
  | .construct c => c.nesting

/-- `nesting` for a list of items. -/
def GenerateItem.nestingAll : List GenerateItem → Nat
  | [] => 0
  | item :: items => max item.nesting (GenerateItem.nestingAll items)

/-- **How many constructs are nested in one another** in a construct, itself among them. -/
def GenerateConstruct.nesting : GenerateConstruct → Nat
  | .region _ _ body => body.nesting + 1
  | .ifElse _ _ _ _ yes no => max yes.nesting no.nesting + 1
  | .ifOnly _ _ _ _ _ body => body.nesting + 1
  | .choice _ _ _ _ branches => CaseBranch.nestingAll branches + 1
  | .loop _ _ _ _ _ _ body => GenerateBlock.nestingBody body + 1
  | .unsupported .. => 1

end

mutual

theorem GenerateBlock.nesting_le : (b : GenerateBlock) → 2 * b.nesting ≤ b.levels
  | .mk _ _ items => by
    have := GenerateItem.nestingAll_le items
    rw [GenerateBlock.nesting, GenerateBlock.levels, oneDeeper]
    split <;> omega

theorem GenerateBlock.nestingBody_le : (b : Option GenerateBlock) →
    2 * GenerateBlock.nestingBody b ≤ GenerateBlock.levelsBody b
  | none => Nat.le_refl 0
  | some body => body.nesting_le

theorem CaseBranch.nesting_le : (branch : CaseBranch) → 2 * branch.nesting ≤ branch.levels
  | .mk _ _ body => GenerateBlock.nestingBody_le body

theorem CaseBranch.nestingAll_le : (branches : List CaseBranch) →
    2 * CaseBranch.nestingAll branches ≤ CaseBranch.levelsAll branches
  | [] => Nat.le_refl 0
  | branch :: branches => by
    have := branch.nesting_le
    have := CaseBranch.nestingAll_le branches
    rw [CaseBranch.nestingAll, CaseBranch.levelsAll]
    omega

theorem GenerateItem.nesting_le : (item : GenerateItem) → 2 * item.nesting ≤ item.levels + 1
  | .assign _ | .instantiate _ | .declare _ => by simp [GenerateItem.nesting]
  | .splice items => by
    have := GenerateItem.nestingAll_le items
    rw [GenerateItem.nesting, GenerateItem.levels, oneDeeper]
    split <;> omega
  | .construct c => c.nesting_le

theorem GenerateItem.nestingAll_le : (items : List GenerateItem) →
    2 * GenerateItem.nestingAll items ≤ GenerateItem.levelsAll items + 1
  | [] => by simp [GenerateItem.nestingAll]
  | item :: items => by
    have := item.nesting_le
    have := GenerateItem.nestingAll_le items
    rw [GenerateItem.nestingAll, GenerateItem.levelsAll]
    omega

/-- **So many constructs in one another** take two levels each, but for the innermost one. -/
theorem GenerateConstruct.nesting_le : (c : GenerateConstruct) → 2 * c.nesting ≤ c.levels + 1
  | .region _ _ body => by
    have := body.nesting_le
    rw [GenerateConstruct.nesting, GenerateConstruct.levels]
    omega
  | .ifElse _ _ _ _ yes no => by
    have := yes.nesting_le
    have := no.nesting_le
    rw [GenerateConstruct.nesting, GenerateConstruct.levels]
    omega
  | .ifOnly _ _ _ _ _ body => by
    have := body.nesting_le
    rw [GenerateConstruct.nesting, GenerateConstruct.levels]
    omega
  | .choice _ _ _ _ branches => by
    have := CaseBranch.nestingAll_le branches
    rw [GenerateConstruct.nesting, GenerateConstruct.levels]
    omega
  | .loop _ _ _ _ _ _ body => by
    have := GenerateBlock.nestingBody_le body
    rw [GenerateConstruct.nesting, GenerateConstruct.levels]
    omega
  | .unsupported .. => Nat.le_refl 2

end

/-! ### Places of what is left -/

mutual

theorem GenerateBlock.located_within (room : Nat) : (b : GenerateBlock) → b.Located →
    (b.within room).Located
  | .mk _ _ items, hb => by
    rw [GenerateBlock.within]
    exact ⟨hb.1, GenerateItem.locatedAll_withinAll (room - 1) items hb.2⟩

theorem GenerateBlock.locatedBody_withinBody (room : Nat) : (b : Option GenerateBlock) →
    GenerateBlock.LocatedBody b → GenerateBlock.LocatedBody (GenerateBlock.withinBody b room)
  | none, _ => trivial
  | some body, hb => body.located_within room hb

theorem CaseBranch.located_within (room : Nat) : (branch : CaseBranch) → branch.Located →
    (branch.within room).Located
  | .mk _ _ body, ⟨hrange, hvalues, hbody⟩ =>
    ⟨hrange, hvalues, GenerateBlock.locatedBody_withinBody room body hbody⟩

theorem CaseBranch.locatedAll_withinAll (room : Nat) : (branches : List CaseBranch) →
    CaseBranch.LocatedAll branches → CaseBranch.LocatedAll (CaseBranch.withinAll branches room)
  | [], _ => trivial
  | branch :: branches, hb =>
    ⟨branch.located_within room hb.1, CaseBranch.locatedAll_withinAll room branches hb.2⟩

theorem GenerateItem.located_within (room : Nat) : (item : GenerateItem) → item.Located →
    ∀ {kept : GenerateItem}, item.within room = some kept → kept.Located
  | .assign _, ha, _, h | .instantiate _, ha, _, h | .declare _, ha, _, h => by
    obtain rfl := Option.some.inj h
    exact ha
  | .splice items, hi, _, h => by
    obtain rfl := Option.some.inj h
    exact GenerateItem.locatedAll_withinAll (room - 1) items hi
  | .construct c, hc, _, h => by
    obtain ⟨kept, hkept, rfl⟩ := Option.map_eq_some_iff.mp h
    exact c.located_within room hc hkept

theorem GenerateItem.locatedAll_withinAll (room : Nat) : (items : List GenerateItem) →
    GenerateItem.LocatedAll items → GenerateItem.LocatedAll (GenerateItem.withinAll items room)
  | [], _ => trivial
  | item :: items, hi => by
    have hitems := GenerateItem.locatedAll_withinAll room items hi.2
    rw [GenerateItem.withinAll]
    cases h : item.within room with
    | none => exact hitems
    | some kept => exact ⟨item.located_within room hi.1 h, hitems⟩

/-- What is left of a construct that has a place has one. -/
theorem GenerateConstruct.located_within : (room : Nat) → (c : GenerateConstruct) → c.Located →
    ∀ {kept : GenerateConstruct}, c.within room = some kept → kept.Located
  | 0, c, _, _, h => by cases c <;> cases h
  | room + 1, .region _ _ body, hc, _, h => by
    obtain rfl := Option.some.inj h
    exact ⟨hc.1, body.located_within room hc.2⟩
  | room + 1, .ifElse _ _ _ _ yes no, ⟨hrange, hcondition, hyes, hno⟩, _, h => by
    obtain rfl := Option.some.inj h
    exact ⟨hrange, hcondition, yes.located_within room hyes, no.located_within room hno⟩
  | room + 1, .ifOnly _ _ _ _ _ body, ⟨hrange, hcondition, hbody⟩, _, h => by
    obtain rfl := Option.some.inj h
    exact ⟨hrange, hcondition, body.located_within room hbody⟩
  | room + 1, .choice _ _ _ _ branches, ⟨hrange, hselector, hbranches⟩, _, h => by
    obtain rfl := Option.some.inj h
    exact ⟨hrange, hselector, CaseBranch.locatedAll_withinAll room branches hbranches⟩
  | room + 1, .loop _ _ _ _ _ _ body, ⟨hrange, hstart, hcondition, hstep, hbody⟩, _, h => by
    obtain rfl := Option.some.inj h
    exact ⟨hrange, hstart, hcondition, hstep, GenerateBlock.locatedBody_withinBody room body hbody⟩
  | room + 1, .unsupported _ _, _, _, h => by
    obtain rfl := Option.some.inj h
    trivial

end

/-! ### Programs -/

/-- What is reported of a construct that is nested too deeply. -/
def GenerateConstruct.depthFault (component : String) (place : FilePlace) : Diagnostic :=
  { kind := .loopDepth, message := s!"generate constructs of {component} nested too deeply"
    place := some place }

namespace Compiling

variable {α β : Type} {room : Nat} {ds es : List Diagnostic} {x y : Compiling α}

/-- **Does a program do, where there are so many levels left, what another one does** that reports
nothing, and report such diagnostics? Where a report stops it, only the design is left unfinished.
-/
def Cuts (room : Nat) (ds : List Diagnostic) (x y : Compiling α) : Prop :=
  ∀ c : Compilation, c.limit - c.depth = room → ∃ a ir,
    (∀ s, y { c with session := s } = .ok a { c with session := s, ir }) ∧
    match reportAll ds c.session with
    | .ok _ s => x c = .ok a { c with session := s, ir }
    | .error e s => ∃ ir', x c = .error e { c with session := s, ir := ir' }

namespace Cuts

/-- A program that only works on the design. -/
theorem silent (h : ∀ c : Compilation, ∃ a ir, ∀ s, x { c with session := s } =
    .ok a { c with session := s, ir }) : Cuts room [] x x := by
  intro c _
  obtain ⟨a, ir, hrun⟩ := h c
  exact ⟨a, ir, hrun, hrun c.session⟩

theorem pure (a : α) : Cuts room [] (pure a) (pure a) := .silent fun c => ⟨a, c.ir, fun _ => rfl⟩

theorem onIr (f : Ir → α × Ir) : Cuts room [] (onIr f) (onIr f) :=
  .silent fun c => ⟨(f c.ir).1, (f c.ir).2, fun _ => rfl⟩

theorem change (f : Ir → Ir) : Cuts room [] (change f) (change f) :=
  .silent fun c => ⟨(), f c.ir, fun _ => rfl⟩

theorem bind {f g : α → Compiling β} (hx : Cuts room ds x y) (hf : ∀ a, Cuts room es (f a) (g a)) :
    Cuts room (ds ++ es) (x >>= f) (y >>= g) := by
  intro c hc
  obtain ⟨a, ir, hy, hrun⟩ := hx c hc
  rw [reportAll_append]
  cases hds : reportAll ds c.session with
  | error e s =>
    rw [hds] at hrun
    obtain ⟨ir', hrun⟩ := hrun
    obtain ⟨b, ir₁, hg, -⟩ := hf a { c with ir } hc
    refine ⟨b, ir₁, fun s' => ?_, ir', by rw [Step.bind_eq, hrun]⟩
    rw [Step.bind_of_ok (hy s')]
    exact hg s'
  | ok _ s =>
    rw [hds] at hrun
    obtain ⟨b, ir₁, hg, hrest⟩ := hf a { c with session := s, ir } hc
    refine ⟨b, ir₁, fun s' => ?_, ?_⟩
    · rw [Step.bind_of_ok (hy s')]
      exact hg s'
    · rw [Step.bind_of_ok hrun]
      exact hrest

/-- What a silent program does first. -/
theorem andThen {z : Compiling β} {f g : β → Compiling α} (hz : Cuts room [] z z)
    (hf : ∀ b, Cuts room ds (f b) (g b)) : Cuts room ds (z >>= f) (z >>= g) := hz.bind hf

/-- What a silent program does last. -/
theorem before {f : α → Compiling β} (hx : Cuts room ds x y) (hf : ∀ a, Cuts room [] (f a) (f a)) :
    Cuts room ds (x >>= f) (y >>= f) := by
  have h := hx.bind hf
  rwa [List.append_nil] at h

theorem nested (hx : Cuts (room - 1) ds x y) : Cuts room ds (nested x) (nested y) := by
  intro c hc
  have hlevels : c.enter.limit - c.enter.depth = room - 1 := by
    change c.limit - (c.depth + 1) = _
    omega
  obtain ⟨a, ir, hy, hrun⟩ := hx c.enter hlevels
  refine ⟨a, ir, fun s => ?_, ?_⟩
  · have hy' : y { c with session := s }.enter = .ok a { c.enter with session := s, ir } := hy s
    rw [Compiling.nested, hy']
    rfl
  · change match reportAll ds c.session with
      | .ok _ s => _
      | .error e s => _
    change match reportAll ds c.session with
      | .ok _ s => _
      | .error e s => _ at hrun
    split at hrun
    · rw [Compiling.nested, hrun]
      rfl
    · obtain ⟨ir', hrun⟩ := hrun
      exact ⟨ir', by rw [Compiling.nested, hrun]; rfl⟩

/-- Where no level is left, a construct is reported. -/
theorem tooDeep (component : String) (place : FilePlace) (x : Compiling (List ObjectId)) :
    Cuts 0 [GenerateConstruct.depthFault component place] (unlessTooDeep component place x)
      (Pure.pure []) := by
  intro c hc
  have hdeep : c.enter.tooDeep = true := decide_eq_true (show c.limit < c.depth + 1 by omega)
  refine ⟨[], c.ir, fun s => rfl, ?_⟩
  have hone : reportAll [GenerateConstruct.depthFault component place] c.session =
      Verilog.report (GenerateConstruct.depthFault component place) c.session := by
    rw [reportAll_cons, report_eq]
    split <;> rfl
  have hreport : report .loopDepth place s!"generate constructs of {component} nested too deeply" =
      Step.onPart (·.session) (fun session c => { c with session })
        (Verilog.report (GenerateConstruct.depthFault component place)) := rfl
  have hsession : c.enter.session = c.session := rfl
  rw [hone, Compiling.unlessTooDeep, Compiling.nested, Step.bind_get, if_pos hdeep, Step.bind_eq,
    hreport, Step.onPart, hsession]
  generalize Verilog.report _ c.session = r
  rcases r with ⟨_, s⟩ | ⟨e, s⟩
  · rfl
  · exact ⟨c.ir, rfl⟩

/-- Where there is a level left, a construct is compiled with the others. -/
theorem unlessTooDeep {x y : Compiling (List ObjectId)} (hx : Cuts room ds x y) (component : String)
    (place : FilePlace) : Cuts (room + 1) ds (unlessTooDeep component place x)
      (unlessTooDeep component place y) := by
  have hopen {z : Compiling (List ObjectId)} {c : Compilation} (hc : c.limit - c.depth = room + 1) :
      Compiling.unlessTooDeep component place z c = Compiling.nested z c := by
    have hdeep : ¬c.enter.tooDeep = true := fun h => by
      have : c.limit < c.depth + 1 := of_decide_eq_true h
      omega
    rw [Compiling.unlessTooDeep, Compiling.nested, Compiling.nested, Step.bind_get, if_neg hdeep]
  intro c hc
  have hnested : Cuts (room + 1) ds (Compiling.nested x) (Compiling.nested y) := nested hx
  obtain ⟨a, ir, hy, hrun⟩ := hnested c hc
  refine ⟨a, ir, fun s => ?_, by rwa [hopen hc]⟩
  exact (hopen (c := { c with session := s }) hc).trans (hy s)

theorem addCondition {e : Option Expr} (he : e.isSome) (p : ObjectId) (place : FilePlace) :
    Cuts room [] (addCondition p place e) (addCondition p place e) := by
  obtain ⟨e, rfl⟩ := Option.isSome_iff_exists.mp he
  exact change _

theorem addStart (p : ObjectId) (start : Option LoopStart) :
    Cuts room [] (addStart p start) (addStart p start) := by
  cases start with
  | none => exact pure _
  | some s => exact change _

theorem addStep {step : Option LoopStep} (hs : ∀ s, step = some s → s.Whole) (p : ObjectId) :
    Cuts room [] (addStep p step) (addStep p step) := by
  cases step with
  | none => exact pure _
  | some s =>
    cases s with
    | assign operator left right range =>
      exact (onIr _).andThen fun _ => (change _).andThen fun _ => (change _).andThen fun _ =>
        change _
    | malformed operator left place => exact (hs _ rfl).elim
    | expr e => exact change _

theorem addStatement (p : ObjectId) {block block' : Compiling ObjectId}
    (hb : Cuts room ds block block') :
    Cuts room ds (addStatement p block) (addStatement p block') := hb.before fun _ => change _

theorem fillBlock (block : ObjectId) {items items' : ListId → Compiling Unit}
    (hi : ∀ l, Cuts (room - 1) ds (items l) (items' l)) :
    Cuts room ds (fillBlock block items) (fillBlock block items') :=
  (onIr _).andThen fun l => (nested (hi l)).before fun _ => change _

end Cuts

/-- Adds what is left of an item. -/
def addKept (component : String) (p : ObjectId) (l : ListId) : Option GenerateItem → Compiling Unit
  | none => pure ()
  | some item => addItem component p l item

/-- Adds what is left of a construct. -/
def addLeft (component : String) (p : ObjectId) :
    Option GenerateConstruct → Compiling (List ObjectId)
  | none => pure []
  | some c => addConstruct component p c

theorem addItems_kept (component : String) (p : ObjectId) (l : ListId) (kept : Option GenerateItem)
    (items : List GenerateItem) : addItems component p l (kept.toList ++ items) = (do
      addKept component p l kept
      addItems component p l items) := by
  cases kept with
  | none => rfl
  | some item => rw [Option.toList_some, List.singleton_append, addItems, addKept]

theorem addKept_construct (component : String) (p : ObjectId) (l : ListId)
    (left : Option GenerateConstruct) : addKept component p l (left.map .construct) = (do
      let ids ← addLeft component p left
      change fun ir => ir.pushAll l ids) := by
  cases left with
  | none => rfl
  | some c => rw [Option.map_some, addKept, addItem, addLeft]

/-- What is reported of constructs at such places. -/
def depthFaults (component : String) (places : List FilePlace) : List Diagnostic :=
  places.map (GenerateConstruct.depthFault component)

theorem depthFaults_append (component : String) (places more : List FilePlace) :
    depthFaults component (places ++ more) =
      depthFaults component places ++ depthFaults component more := List.map_append

mutual

/-- **A block** is compiled as what is left of it. -/
theorem cuts_addBlock (component : String) (p : ObjectId) (room : Nat) :
    (b : GenerateBlock) → b.Whole → Cuts room (depthFaults component (b.beyond room))
      (addBlock component p b) (addBlock component p (b.within room))
  | .mk label range items, hb => by
    rw [GenerateBlock.within, GenerateBlock.beyond, addBlock, addBlock]
    refine (Cuts.onIr _).andThen fun block => .before ?_ fun _ => .pure _
    exact .fillBlock block fun l => cuts_addItems component block l (room - 1) items hb

theorem cuts_addBody (component : String) (p : ObjectId) (room : Nat) :
    (b : Option GenerateBlock) → GenerateBlock.WholeBody b →
      Cuts room (depthFaults component (GenerateBlock.beyondBody b room))
        (addBody component p b) (addBody component p (GenerateBlock.withinBody b room))
  | none, _ => by
    rw [GenerateBlock.withinBody, addBody]
    exact .pure _
  | some body, hb => by
    rw [GenerateBlock.withinBody, addBody, addBody]
    exact .addStatement p (cuts_addBlock component p room body hb)

theorem cuts_addItems (component : String) (p : ObjectId) (l : ListId) (room : Nat) :
    (items : List GenerateItem) → GenerateItem.WholeAll items →
      Cuts room (depthFaults component (GenerateItem.beyondAll items room))
        (addItems component p l items)
        (addItems component p l (GenerateItem.withinAll items room))
  | [], _ => by
    rw [GenerateItem.withinAll, addItems]
    exact .pure _
  | item :: items, hi => by
    rw [GenerateItem.withinAll, GenerateItem.beyondAll, depthFaults_append, addItems, addItems_kept]
    exact (cuts_addItem component p l room item hi.1).bind fun _ =>
      cuts_addItems component p l room items hi.2

theorem cuts_addItem (component : String) (p : ObjectId) (l : ListId) (room : Nat) :
    (item : GenerateItem) → item.Whole →
      Cuts room (depthFaults component (item.beyond room)) (addItem component p l item)
        (addKept component p l (item.within room))
  | .assign a, _ => by
    rw [GenerateItem.within, addKept, addItem]
    exact (Cuts.onIr _).andThen fun _ => .change _
  | .instantiate i, _ => by
    rw [GenerateItem.within, addKept, addItem]
    exact (Cuts.onIr _).andThen fun _ => .change _
  | .declare d, _ => by
    rw [GenerateItem.within, addKept, addItem]
    exact (Cuts.onIr _).andThen fun _ => .change _
  | .splice items, hi => by
    rw [GenerateItem.within, addKept, addItem, addItem]
    exact (Cuts.onIr _).andThen fun inner =>
      (Cuts.nested (cuts_addItems component p inner (room - 1) items hi)).before fun _ => .change _
  | .construct c, hc => by
    rw [GenerateItem.within, addKept_construct, addItem]
    exact (cuts_addConstruct component p room c hc).before fun _ => .change _

theorem cuts_addBranches (component : String) (p : ObjectId) (l : ListId) (room : Nat) :
    (branches : List CaseBranch) → CaseBranch.WholeAll branches →
      Cuts room (depthFaults component (CaseBranch.beyondAll branches room))
        (addBranches component p l branches)
        (addBranches component p l (CaseBranch.withinAll branches room))
  | [], _ => by
    rw [CaseBranch.withinAll, addBranches]
    exact .pure _
  | branch :: branches, hb => by
    rw [CaseBranch.withinAll, CaseBranch.beyondAll, depthFaults_append, addBranches, addBranches]
    exact (cuts_addBranch component p l room branch hb.1).bind fun _ =>
      cuts_addBranches component p l room branches hb.2

theorem cuts_addBranch (component : String) (p : ObjectId) (l : ListId) (room : Nat) :
    (branch : CaseBranch) → branch.Whole →
      Cuts room (depthFaults component (branch.beyond room)) (addBranch component p l branch)
        (addBranch component p l (branch.within room))
  | .mk values range body, hb => by
    rw [CaseBranch.within, CaseBranch.beyond, addBranch, addBranch]
    refine (Cuts.onIr _).andThen fun id => (Cuts.change _).andThen fun _ => ?_
    refine (Cuts.onIr _).andThen fun inner => (Cuts.change _).andThen fun _ => ?_
    exact cuts_addBody component id room body hb

/-- **A construct that lacks nothing** is compiled as what is left of it where there are so many
levels, and for the outermost constructs that are not left just these reports are made. -/
theorem cuts_addConstruct (component : String) (p : ObjectId) : (room : Nat) →
    (c : GenerateConstruct) → c.Whole →
      Cuts room (depthFaults component (c.beyond room)) (addConstruct component p c)
        (addLeft component p (c.within room))
  | 0, c, _ => by
    have hnone : c.within 0 = none := by cases c <;> rfl
    have hplace : c.beyond 0 = [c.place] := by cases c <;> rfl
    rw [hnone, hplace]
    obtain ⟨x, hx⟩ : ∃ x, addConstruct component p c = unlessTooDeep component c.place x := by
      cases c with
      | region place range body =>
        obtain ⟨label, blockRange, items⟩ := body
        exact ⟨_, by rw [addConstruct]; rfl⟩
      | _ => exact ⟨_, by rw [addConstruct]; rfl⟩
    rw [hx]
    exact .tooDeep component c.place x
  | room + 1, .region place range (.mk label blockRange items), hitems => by
    rw [GenerateConstruct.within, GenerateConstruct.beyond, GenerateBlock.within,
      GenerateBlock.beyond, addLeft, addConstruct, addConstruct]
    refine .unlessTooDeep ((Cuts.onIr _).andThen fun id => ?_) _ _
    refine (Cuts.onIr _).andThen fun block => (Cuts.change _).andThen fun _ => ?_
    exact (Cuts.fillBlock block fun l =>
      cuts_addItems component block l (room - 1) items hitems).before fun _ => .pure _
  | room + 1, .ifElse place inner range condition yes no, ⟨hcondition, hyes, hno⟩ => by
    rw [GenerateConstruct.within, GenerateConstruct.beyond, depthFaults_append, addLeft,
      addConstruct, addConstruct]
    refine .unlessTooDeep ((Cuts.onIr _).andThen fun id => ?_) _ _
    refine (Cuts.addCondition hcondition _ _).andThen fun _ => ?_
    refine (Cuts.addStatement id (cuts_addBlock component id room yes hyes)).bind fun _ => ?_
    exact (cuts_addBlock component id room no hno).before fun _ => (Cuts.change _).andThen fun _ =>
      .pure _
  | room + 1, .ifOnly place inner range _ condition body, ⟨rfl, hcondition, hbody⟩ => by
    rw [GenerateConstruct.within, GenerateConstruct.beyond, addLeft, addConstruct, addConstruct]
    refine .unlessTooDeep ((Cuts.onIr _).andThen fun id => ?_) _ _
    refine (Cuts.addCondition hcondition _ _).andThen fun _ => ?_
    exact (Cuts.addStatement id (cuts_addBlock component id room body hbody)).before fun _ =>
      .pure _
  | room + 1, .choice place inner range selector branches, ⟨hselector, hbranches⟩ => by
    rw [GenerateConstruct.within, GenerateConstruct.beyond, addLeft, addConstruct, addConstruct]
    refine .unlessTooDeep ((Cuts.onIr _).andThen fun id => ?_) _ _
    refine (Cuts.addCondition hselector _ _).andThen fun _ => (Cuts.onIr _).andThen fun list => ?_
    refine (Cuts.change _).andThen fun _ => ?_
    exact (cuts_addBranches component id list room branches hbranches).before fun _ => .pure _
  | room + 1, .loop place inner range start condition step body, ⟨hcondition, hstep, hbody⟩ => by
    rw [GenerateConstruct.within, GenerateConstruct.beyond, addLeft, addConstruct_loop,
      addConstruct_loop]
    refine .unlessTooDeep ((Cuts.onIr _).andThen fun id => ?_) _ _
    refine (Cuts.addStart _ _).andThen fun _ => (Cuts.addCondition hcondition _ _).andThen
      fun _ => ?_
    refine (Cuts.addStep hstep _).andThen fun _ => ?_
    exact (cuts_addBody component id room body hbody).before fun _ => .pure _

end

end Compiling

end Verilog
