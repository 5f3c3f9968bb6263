import Verilog.Node.Family
import Verilog.Session
import Verilog.Syntax.MarkedText
import Verilog.Syntax.Name

/-!
# From parse trees to node tables

A parse tree becomes nodes one after the other, a production before its parts. Tokens the grammar
does not see, comments and marks, become nodes just before the next token or production that is met,
below the innermost production that is open there; a closing mark stands below the parent of the
mark it closes. The inside of an opaque body is passed over, its comments and marks excepted.

Here nodes only name their parents. How they are to be linked is noted along the way: a production
or a leaf is put below its parent as it is made, and what becomes of hidden tokens when all of those
that come together have been made. As the latter may come too late, the children of the node are
then to be sorted, which is done when the production is left, or at once if it is not open. Links
between nodes do not matter for what else is made, so all these steps are done when all nodes are
there.
-/

namespace Verilog

/-- A mark that is open: the node it stands below, and the directive it stands for. -/
structure OpenMark where
  parent : NodeId
  directive : NodeId
  deriving DecidableEq, Repr

/-- A production that is open: its node, and whether the children of the node are to be sorted when
it is left. -/
structure OpenNode where
  id : NodeId
  needsSort : Bool := false
  deriving DecidableEq, Repr

/-- How the nodes that have been made are to be linked. -/
structure Linking where
  /-- The steps so far, in order. -/
  steps : Array LinkStep := #[]
  /-- The productions that are open, the innermost one first. The root is open from the start. -/
  frames : List OpenNode := [{ id := 1 }]

namespace Linking

/-- Puts a node behind the last child of another. -/
def append (l : Linking) (parent child : NodeId) : Linking :=
  { l with steps := l.steps.push (.append parent child) }

/-- Sorts the children of a node now. -/
def sort (l : Linking) (parent : NodeId) : Linking :=
  { l with steps := l.steps.push (.sort parent) }

/-- Notes that the children of the innermost open production with this node are to be sorted. -/
def flag (parent : NodeId) : List OpenNode → List OpenNode
  | [] => []
  | f :: fs => if f.id = parent then { f with needsSort := true } :: fs else f :: flag parent fs

/-- Has the children of a node sorted: when it is left, or now if it is not open. -/
def markForSort (l : Linking) (parent : NodeId) : Linking :=
  if l.frames.any fun f => f.id == parent then { l with frames := flag parent l.frames }
  else l.sort parent

/-- Opens a production with a node below another. -/
def enter (l : Linking) (parent id : NodeId) : Linking :=
  let l := l.append parent id
  { l with frames := { id } :: l.frames }

/-- Leaves the innermost production, sorting the children of its node if they are to be. -/
def leave (l : Linking) : Linking :=
  match l.frames with
  | [] => l
  | f :: frames =>
    let l := { l with frames }
    if f.needsSort then l.sort f.id else l

/-- Links the nodes of hidden tokens that come together, each given with its parent. Those that
belong below another node than the production that is open are put there first. -/
def drain (l : Linking) (parent : NodeId) (made : List (NodeId × NodeId)) : Linking :=
  let (below, beside) := made.partition fun n => n.2 == parent
  let l := beside.foldl (fun l n => (l.append n.2 n.1).markForSort n.2) l
  if below.isEmpty then l
  else (below.foldl (fun l n => l.append parent n.1) l).markForSort parent

end Linking

/-- The nodes that have been made, and the tokens they were made from. -/
structure Growth where
  /-- The nodes, each naming its parent. -/
  nodes : Array Node := #[]
  elements : Array DesignElement := #[]
  /-- All tokens before this one have been dealt with. -/
  next : Nat := 0
  openMarks : List OpenMark := []
  /-- The number of opaque bodies that are open. -/
  pauses : Int := 0
  links : Linking := {}

/-- Where a part of a parse tree belongs: the innermost node and design element around it, the
element by its position and dotted name. -/
structure Surroundings where
  parent : NodeId
  element : Option (Nat × String) := none

/-- What a tree is made from. -/
structure GrowthSource where
  marked : MarkedText
  library : String
  keepBlanks : Bool

namespace Growth

/-- Adds a node and gives its number. -/
def add (g : Growth) (n : Node) : NodeId × Growth :=
  (g.nodes.size + 1, { g with nodes := g.nodes.push n })

/-- Changes how the nodes are to be linked. -/
def relink (g : Growth) (f : Linking → Linking) : Growth := { g with links := f g.links }

/-- The nodes behind the first so many, each by its number and with its parent. -/
def madeSince (g : Growth) (count : Nat) : List (NodeId × NodeId) :=
  ((g.nodes.extract count g.nodes.size).toList.zipIdx (count + 1)).map fun n => (n.2, n.1.parent)

/-- A node of a kind that takes the place of a token. -/
def tokenNode (s : GrowthSource) (kind : NodeKind) (token : SourceToken) (parent : NodeId) : Node :=
  { kind, parent, file := s.marked.text.file, line := token.line, column := token.column,
    endLine := token.endLine, endColumn := token.endColumn }

/-- Makes a node of the next token if the grammar does not see it; other tokens are passed over. -/
def addHidden (s : GrowthSource) (parent : NodeId) (g : Growth) : Growth :=
  let i := g.next
  let g := { g with next := i + 1 }
  let plain (kind : NodeKind) (token : SourceToken) := (g.add (tokenNode s kind token parent)).2
  let name := s.marked.text.nodes.name
  match s.marked.tokens[i]? with
  | none => g
  | some token =>
    match token.kind with
    | .whitespace | .newline => if s.keepBlanks then plain .paWhiteSpace token else g
    | .oneLineComment => plain .paOneLineComment token
    | .blockComment => plain .paBlockComment token
    | .preprocBegin =>
      match s.marked.mark? i with
      | none => g
      | some id =>
        let node := { tokenNode s .slPreprocBegin token parent with
          name := name id, definition := id }
        { (g.add node).2 with openMarks := ⟨parent, id⟩ :: g.openMarks }
    | .preprocEnd =>
      match g.openMarks with
      | [] => g
      | mark :: openMarks =>
        let node := { tokenNode s .slPreprocEnd token mark.parent with
          name := name mark.directive, definition := (s.marked.mark? i).getD mark.directive }
        { (g.add node).2 with openMarks }
    | _ => g

/-- Deals with a number of tokens. -/
def addHiddens (s : GrowthSource) (count : Nat) (parent : NodeId) (g : Growth) : Growth :=
  (List.range count).foldl (fun g _ => g.addHidden s parent) g

/-- Deals with the tokens before a position. -/
def advance (s : GrowthSource) (stop : Nat) (parent : NodeId) (g : Growth) : Growth :=
  let made := g.addHiddens s (min stop s.marked.tokens.size - g.next) parent
  made.relink (·.drain parent (made.madeSince g.nodes.size))

/-- The place of a production without tokens: the next token that the grammar sees, or the last
token there is. -/
def emptyPlace (s : GrowthSource) (g : Growth) : Nat × Nat :=
  let tokens := s.marked.tokens
  let ahead := (tokens.toList.drop g.next).find? fun t => !t.kind.isHidden
  match ahead <|> tokens.back? with
  | some token => (token.line, token.column)
  | none => (1, 1)

/-- A node for a production: from the start of its first token to the end of its last. -/
def productionNode (s : GrowthSource) (kind : NodeKind) (first last : Option SourceToken)
    (parent : NodeId) (g : Growth) : Node :=
  let blank : Node := { kind, parent, file := s.marked.text.file }
  match first, last with
  | some first, some last => { blank with
      line := first.line, column := first.column
      endLine := last.endLine, endColumn := last.endColumn }
  | _, _ =>
    let (line, column) := g.emptyPlace s
    { blank with line, column, endLine := line, endColumn := column }

/-- The node for the token at a position of a production, if it is to have one. -/
def leafNode? (s : GrowthSource) (parent : NodeId) (production : ParseTree) (token : Nat) :
    Option Node := do
  let t ← s.marked.tokens[token]?
  let kind ← leafKindIn? t.kind (← production.kind?) (production.opensWith token)
  return { tokenNode s kind t parent with name := leafName? kind t.text }

/-- Makes the node of a leaf. -/
def addLeaf (s : GrowthSource) (parent : NodeId) (production : ParseTree) (token : Nat)
    (g : Growth) : Growth :=
  let g := g.advance s token parent
  let g := { g with next := max g.next (token + 1) }
  if g.pauses > 0 then g
  else
    match leafNode? s parent production token with
    | some node =>
      let (id, g) := g.add node
      g.relink (·.append parent id)
    | none => g

/-- Records a design element if a production declares one; gives the element around its parts. -/
def addElement (s : GrowthSource) (t : ParseTree) (id : NodeId) (around : Option (Nat × String))
    (g : Growth) : Option (Nat × String) × Growth :=
  match t.kind?.bind ElementKind.ofNode?, declaredName? s.marked.tokens t with
  | some kind, some name =>
    let dotted := match around with
      | some (_, outer) => s!"{outer}.{name}"
      | none => name
    let line := ((t.first?.bind (s.marked.tokens[·]?)).map (·.line)).getD 1
    let settings := s.marked.text.stateAt line
    let element : DesignElement := {
      name := some (s.library ++ "@" ++ dotted), file := s.marked.text.file, kind, node := id
      uniqueId := g.elements.size + 1, parent := around.map (·.1)
      time := settings.time, netType := settings.netType }
    (some (g.elements.size, dotted), { g with elements := g.elements.push element })
  | _, _ => (around, g)

/-- Makes the node of a production. -/
def addProduction (s : GrowthSource) (t : ParseTree) (kind : NodeKind) (around : Surroundings)
    (g : Growth) : Surroundings × Growth :=
  let token? (i : Option Nat) := i.bind (s.marked.tokens[·]?)
  let (id, g) := g.add (g.productionNode s kind (token? t.first?) (token? t.last?) around.parent)
  let g := if kind = .paOpaqueBody then { g with pauses := g.pauses + 1 } else g
  let (element, g) := g.addElement s t id around.element
  (⟨id, element⟩, g.relink (·.enter around.parent id))

/-- Goes on behind a production. -/
def leave (s : GrowthSource) (kind : NodeKind) (g : Growth) : Except Failure Growth :=
  if kind = .paOpaqueBody then
    if g.pauses ≤ 0 then .error (.negativePauseCount (nameText s.marked.text.file))
    else .ok ({ g with pauses := g.pauses - 1 }.relink .leave)
  else .ok (g.relink .leave)

mutual

/-- Makes the nodes of a tree that stands in a production. -/
def addTree (s : GrowthSource) (around : Surroundings) (production : ParseTree) :
    ParseTree → Growth → Except Failure Growth
  | .leaf i, g => .ok (g.addLeaf s around.parent production i)
  | .node kind ts, g => do
    let t := ParseTree.node kind ts
    let g := match t.first? with
      | some start => g.advance s start around.parent
      | none => g
    if g.pauses > 0 then addTrees s around t ts g
    else
      let (within, g) := g.addProduction s t kind around
      let g ← addTrees s within t ts g
      g.leave s kind

/-- Makes the nodes of the parts of a production. -/
def addTrees (s : GrowthSource) (around : Surroundings) (production : ParseTree) :
    List ParseTree → Growth → Except Failure Growth
  | [], g => .ok g
  | t :: ts, g => do
    let g ← addTree s around production t g
    addTrees s around production ts g

end

/-- The number of the root. -/
def rootId : NodeId := 1

/-- Makes the nodes of a whole tree, whose root covers all tokens. -/
def ofTree (s : GrowthSource) : ParseTree → Except Failure Growth
  | .leaf _ => .ok {}
  | .node kind ts => do
    let t := ParseTree.node kind ts
    let tokens := s.marked.tokens
    let start : Growth := {}
    let root := match tokens[0]?, tokens.back? with
      | some first, some last => start.productionNode s kind (some first) (some last) 0
      | _, _ => start.productionNode s kind none none 0
    let (_, g) := start.add root
    let (element, g) := g.addElement s t rootId none
    let g ← addTrees s ⟨rootId, element⟩ t ts g
    let g := (g.relink .leave).advance s tokens.size rootId
    if g.openMarks.isEmpty then return g
    else throw (.unbalancedMarks (nameText s.marked.text.file) .leftOpen)

/-- The table of the nodes that have been made, linked. The children of the root are sorted last. -/
def linked (s : GrowthSource) (g : Growth) : NodeTable :=
  let t : NodeTable := { file := s.marked.text.file, library := s.library,
                         nodes := g.nodes, elements := g.elements }
  let t := t.linkBy g.links.steps.toList
  t.sortChildren t.root

end Growth

end Verilog
