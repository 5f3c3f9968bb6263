import Verilog.Preprocess.State
import Verilog.Source.Mark

/-!
# Marked texts

The marks in a preprocessed text nest like brackets. The closing mark of a pair carries the number
of a node of the directives, which belongs to both marks of the pair. A text whose marks do not
nest, or whose closing marks carry no number, is refused.
-/

namespace Verilog

/-- Closes the innermost of the marks that are open, and opens new ones, along a list of tokens with
their positions. Gives the nodes of the marks by the positions of their tokens. -/
def pairMarks : List (SourceToken × Nat) → (opened : List (SourceToken × Nat)) →
    Except MarkFault (List (Nat × NodeId))
  | [], [] => .ok []
  | [], (token, _) :: _ => .error (.neverClosed token.line token.column)
  | (token, i) :: rest, opened =>
    match token.kind with
    | .preprocBegin => pairMarks rest ((token, i) :: opened)
    | .preprocEnd =>
      match opened with
      | [] => .error (.endWithoutBegin token.line token.column)
      | (_, begin) :: opened =>
        match (readEndMark? token.text.toList).filter (· != 0) with
        | none => .error (.malformedEnd token.line token.column)
        | some node => do
          let pairs ← pairMarks rest opened
          return (begin, node) :: (i, node) :: pairs
    | _ => pairMarks rest opened

/-- A preprocessed text, its tokens, and for each token the node it is a mark of. -/
structure MarkedText where
  text : PreprocessedText
  tokens : Array SourceToken
  marks : Array (Option NodeId)

namespace MarkedText

/-- The node that the token at a position is a mark of. -/
def mark? (m : MarkedText) (i : Nat) : Option NodeId := (m.marks[i]?).join

/-- The marked text of a preprocessed text. -/
def ofText (text : PreprocessedText) : Except MarkFault MarkedText := do
  let tokens := SourceToken.ofText text.text
  let pairs ← pairMarks tokens.zipIdx []
  let blank := Array.replicate tokens.length none
  return { text, tokens := tokens.toArray,
           marks := pairs.foldl (fun marks p => marks.setIfInBounds p.1 (some p.2)) blank }

end MarkedText

end Verilog
