import Verilog.Directive.Grammar
import Verilog.Location.Mapper
import Verilog.Node.Extent
import Verilog.Node.Family
import Verilog.Node.Print
import Verilog.Node.Validate
import Verilog.Source.Grammar.Text
import Verilog.Text.Literal
import Verilog.Text.Path
import Verilog.Diagnostic.Log
import Verilog.Macro.Table
import Verilog.Source.Mark
import Verilog.Config.Basic
import Verilog.Diagnostic.Basic
import Verilog.Session
import Verilog.Preprocess.Cause
import Verilog.Preprocess.Conditional
import Verilog.Preprocess.State
import Verilog.Preprocess.Text
import Verilog.Preprocess.Directive
import Verilog.Syntax.File
import Verilog.Design.Precompiled
import Verilog.Names.Table
import Verilog.Ir.Json
import Verilog.Expr.Basic
import Verilog.Expr.Read
import Verilog.Collection.OrderedMap
import Verilog.Generate.Read
import Verilog.Generate.Compile
import Verilog.Design.Compile
import Verilog.Config.File
import Verilog.CommandLine.Arguments
import Verilog.CommandLine.Run
import Verilog.Main
import Verilog.Proofs.Generate.Read
import Verilog.Proofs.Preprocess.Selection
import Verilog.Proofs.Preprocess.Lines
import Verilog.Proofs.Syntax.Pairs
import Verilog.Proofs.Syntax.Valid
import Verilog.Proofs.Design.Compile
import Verilog.Proofs.Preprocess.Open
import Verilog.Proofs.Design.First
import Verilog.Proofs.Design.Stopping
import Verilog.Proofs.Directive.Complete
import Verilog.Proofs.Lexing.Exact
import Verilog.Proofs.Syntax.Descriptions
import Verilog.Proofs.Syntax.Transparent
import Verilog.Proofs.Formula.RoundTrip
import Verilog.Proofs.Diagnostic.Log
import Verilog.Proofs.Preprocess.Origin
import Verilog.Proofs.Preprocess.Passage
import Verilog.Proofs.Preprocess.Abreast
import Verilog.Proofs.Preprocess.Common
import Verilog.Proofs.Source.Enclosed
import Verilog.Proofs.Preprocess.Files
import Verilog.Proofs.Preprocess.LastLine
import Verilog.Proofs.Preprocess.Textual
import Verilog.Proofs.Preprocess.Plain
import Verilog.Proofs.Ir.ExprTree
import Verilog.Proofs.Grammar.Yields
import Verilog.Proofs.Source.Made
import Verilog.Proofs.Generate.Lower
import Verilog.Proofs.Generate.Shape
import Verilog.Proofs.Generate.Translate
import Verilog.Proofs.Generate.Whole
import Verilog.Proofs.Design.Generates
import Verilog.Proofs.Syntax.Made
import Verilog.Proofs.Expr.Total
import Verilog.Proofs.Preprocess.Expansion
import Verilog.Proofs.Preprocess.Recursion
import Verilog.Proofs.Preprocess.Settings
import Verilog.Proofs.Generate.Depth
import Verilog.Proofs.Signal.Ports
import Verilog.Proofs.Location.Mapper
import Verilog.Proofs.Preprocess.Nodes
import Verilog.Proofs.Syntax.Columns
import Verilog.Proofs.Syntax.Walk
import Verilog.Proofs.Grammar.Room
import Verilog.Proofs.Directive.Definition
import Verilog.Proofs.Preprocess.Seeded
import Verilog.Proofs.Literal.Layout
import Verilog.Proofs.Expr.Operation
import Verilog.Proofs.Generate.Expressed
import Verilog.Proofs.Design.Expressed
import Verilog.Proofs.Macro.Comments
import Verilog.Proofs.Macro.Names
import Verilog.Proofs.Preprocess.LineEnds
import Verilog.Proofs.Literal.Quoted
import Verilog.Proofs.Syntax.Mirror
import Verilog.Proofs.Source.Recovery
import Verilog.Proofs.Node.Marking
import Verilog.Proofs.Node.Extent
