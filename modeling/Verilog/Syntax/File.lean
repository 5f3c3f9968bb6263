import Verilog.Grammar.Run
import Verilog.Location.Mapper
import Verilog.Node.Extent
import Verilog.Preprocess.Run
import Verilog.Session
import Verilog.Source.Grammar.Text
import Verilog.Source.Lexicon
import Verilog.Syntax.Columns
import Verilog.Syntax.Growth

/-!
# Files that have been read

A file is preprocessed, its marks are paired, and the grammar is run on its tokens. What is wrong is
reported; as long as the grammar finds some way through, there is a tree.

What no lexical class takes in is reported where it stands. A fault of the grammar is reported at
the token it was met at, with the kinds of tokens that would have been accepted there; the faults of
a text are reported in the order of their places.
-/

namespace Verilog

/-! ### Faults -/

/-- The place in the sources of the token at a position; past the last token, the end of it. -/
def tokenPlace (m : LocationMapper) (tokens : Array SourceToken) (i : Nat) : FilePlace :=
  let (line, column) := match tokens[i]? with
    | some token => (token.line, token.column)
    | none => match tokens.back? with
      | some token => (token.endLine, token.endColumn)
      | none => (1, 1)
  let (file, line, column) := m.map line column
  ⟨nameText file, line, column⟩

/-- The diagnostic for a piece of text that is no token. -/
def unknownText (place : FilePlace) (text : String) : Diagnostic :=
  let shown := trimText text
  { message := s!"unexpected character sequence '{shown}'", kind := .lexical, place := some place }

/-- A kind of token, or the end of the text, in a message. -/
def SourceKind.describe (kind : Option SourceKind) : String :=
  match kind with
  | some kind => kind.name
  | none => "end of input"

/-- The different names of what a fault expected, in order. -/
def expectedNames (expected : List (Option SourceKind)) : List String :=
  ((expected.map SourceKind.describe).mergeSort fun a b => a ≤ b).eraseDups

/-- The position among all tokens that a fault was met at. -/
def faultToken (tokens : Array SourceToken) (visible : List (Nat × SourceKind))
    (f : Fault SourceKind) : Nat :=
  match visible[f.offset]? with
  | some (i, _) => i
  | none => tokens.size

/-- The diagnostic for a fault of the grammar. -/
def syntaxDiagnostic (place : FilePlace) (found : Option SourceToken)
    (expected : List (Option SourceKind)) : Diagnostic :=
  let found := match found with
    | some token =>
      let text := token.text
      s!"'{text}'"
    | none => SourceKind.describe none
  let names := ", ".intercalate (expectedNames expected)
  let hint (kind : SourceKind) (text : String) :=
    if expected.contains (some kind) then [text] else []
  { message := s!"Unexpected {found}" ++ (if expected.isEmpty then "" else s!", expected {names}")
    kind := .syntactic
    place := some place
    suggestions := hint .semi "Add ';' to complete the statement" ++
      hint .kwEndmodule "Add 'endmodule' to close the module" }

/-- The diagnostics for a text: first what is no token, then the faults of the grammar in the order
of their places. -/
def sourceDiagnostics (m : LocationMapper) (tokens : Array SourceToken)
    (visible : List (Nat × SourceKind)) (faults : List (Fault SourceKind)) : List Diagnostic :=
  let unknown := tokens.toList.zipIdx.filter fun t => t.1.kind == .unknown
  let lexical := unknown.map fun t => unknownText (tokenPlace m tokens t.2) t.1.text
  let located := faults.map fun f =>
    let i := faultToken tokens visible f
    (tokenPlace m tokens i, tokens[i]?, f.expected)
  let sorted := located.mergeSort fun a b =>
    a.1.line < b.1.line || (a.1.line == b.1.line && a.1.column ≤ b.1.column)
  lexical ++ sorted.map fun (place, found, expected) => syntaxDiagnostic place found expected

/-! ### The syntax tree

When all nodes of a marked text are there they are linked, their places are led back to the
sources, and below each mark that opens a stretch the directive it stands for is copied in.
-/

/-- Leads the place of a node back to the sources. A node that would end before it starts ends
where it starts. -/
def LocationMapper.mapNode (m : LocationMapper) (n : Node) : Node :=
  let (file, line, column) := m.map n.line n.column
  let (_, endLine, endColumn) := m.map n.endLine n.endColumn
  let ends := line < endLine || (line == endLine && column ≤ endColumn)
  { n with file, line, column
           endLine := if ends then endLine else line
           endColumn := if ends then endColumn else column }

namespace NodeTable

/-- Leads all places back to the sources. -/
def mapPlaces (t : NodeTable) (m : LocationMapper) : NodeTable :=
  let t := { t with nodes := t.nodes.map m.mapNode }
  { t with elements := t.elements.map fun e =>
      let n := t.node e.node
      { e with file := n.file, line := n.line, column := n.column
               endLine := n.endLine, endColumn := n.endColumn } }

/-- Copies below each mark that opens a stretch the directive it stands for. -/
def graftDirectives (t : NodeTable) (directives : NodeTable) : NodeTable :=
  (t.ids.filter fun id => t.kind id == .slPreprocBegin).foldl
    (fun u id => u.graft directives (t.node id).definition id) t

end NodeTable

/-- The syntax tree of a file, from the parse tree of its marked text. -/
def syntaxTree (s : GrowthSource) (m : LocationMapper) (tree : ParseTree) :
    Except Failure NodeTable := do
  let g ← Growth.ofTree s tree
  return ((g.linked s).mapPlaces m).graftDirectives s.marked.text.nodes

/-! ### Reading -/

/-- All that is known about a file that has been read. -/
structure SourceFile where
  file : Option String
  /-- The syntax tree; without nodes if the grammar found no way through. -/
  nodes : NodeTable
  text : PreprocessedText
  /-- Where the columns of the preprocessed text come from. -/
  offsets : OffsetMap

namespace SourceFile

/-- Leads places of the preprocessed text back to the sources. -/
def mapper (f : SourceFile) (asPreprocessed : Bool) : LocationMapper :=
  { offsets := f.offsets, lines := f.text.lines, file := f.file, asPreprocessed }

/-- Reads a preprocessed text. -/
def ofPreprocessed (text : PreprocessedText) : Reporting SourceFile := do
  let config := (← get).config
  match MarkedText.ofText text with
  | .error fault => throw (.unbalancedMarks (nameText text.file) fault)
  | .ok marked =>
    let offsets := marked.offsets
    let mapper : LocationMapper :=
      { offsets, lines := text.lines, file := text.file
        asPreprocessed := config.preprocessedPlaces }
    let tokens := marked.tokens.toList
    let (tree, faults) := SourceGrammar.parse tokens
    for d in sourceDiagnostics mapper marked.tokens (SourceGrammar.visible tokens) faults do
      report d
    match tree with
    | none =>
      return { file := text.file, text, offsets
               nodes := { file := text.file, library := config.library } }
    | some tree =>
      let source : GrowthSource :=
        { marked, library := config.library, keepBlanks := config.keepBlanks }
      match syntaxTree source mapper tree with
      | .ok nodes => return { file := text.file, nodes, text, offsets }
      | .error e => throw e

/-- Reads a text that counts as the content of a file. -/
def ofText (path text : String) : Reporting SourceFile := do
  ofPreprocessed (← preprocessText path text)

/-- Reads a file. -/
def ofFile (path : String) : Reporting SourceFile := do
  ofPreprocessed (← preprocessFile path)

end SourceFile

end Verilog
