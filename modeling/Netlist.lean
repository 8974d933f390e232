import Netlist.Design.Display
import Netlist.Design.Json
import Netlist.Design.Tree
import Netlist.Diagnostic.Basic
import Netlist.Diagnostic.Log
import Netlist.Diagnostic.Report
import Netlist.Json
import Netlist.Lowering.Association
import Netlist.Lowering.Basic
import Netlist.Lowering.Expression
import Netlist.Lowering.Module
import Netlist.Lowering.Number
import Netlist.Lowering.Output
import Netlist.Lowering.StringValue
import Netlist.Misuse
import Netlist.Names
import Netlist.Operator
import Netlist.Parser.Expression
import Netlist.Parser.Instantiation
import Netlist.Parser.Item
import Netlist.Parser.State
import Netlist.Parser.Unit
import Netlist.Program
import Netlist.Project.Directory
import Netlist.Project.Load
import Netlist.Project.Manifest
import Netlist.Proofs.Design.Alike
import Netlist.Proofs.Design.Displayed
import Netlist.Proofs.Design.Encoding
import Netlist.Proofs.Design.Literal
import Netlist.Proofs.Design.Readable
import Netlist.Proofs.Design.Shown
import Netlist.Proofs.Json.Reading
import Netlist.Proofs.Lowering.Associations
import Netlist.Proofs.Lowering.Atoms
import Netlist.Proofs.Lowering.Expression
import Netlist.Proofs.Lowering.Flaws
import Netlist.Proofs.Lowering.Module
import Netlist.Proofs.Lowering.Number
import Netlist.Proofs.Lowering.NumberValue
import Netlist.Proofs.Lowering.Outcome
import Netlist.Proofs.Lowering.Output
import Netlist.Proofs.Lowering.Parsed
import Netlist.Proofs.Lowering.Reals
import Netlist.Proofs.Lowering.Records
import Netlist.Proofs.Lowering.Returns
import Netlist.Proofs.Lowering.Settled
import Netlist.Proofs.Lowering.StringValue
import Netlist.Proofs.Lowering.Told
import Netlist.Proofs.Lowering.Visits
import Netlist.Proofs.Parser.Accepts
import Netlist.Proofs.Parser.Accepts.Expression
import Netlist.Proofs.Parser.Accepts.Instantiation
import Netlist.Proofs.Parser.Account
import Netlist.Proofs.Parser.Anatomy
import Netlist.Proofs.Parser.Balance
import Netlist.Proofs.Parser.Blind
import Netlist.Proofs.Parser.Blind.Expression
import Netlist.Proofs.Parser.Blind.Instantiation
import Netlist.Proofs.Parser.Blind.State
import Netlist.Proofs.Parser.Blind.Unit
import Netlist.Proofs.Parser.Cursors
import Netlist.Proofs.Parser.Embedding
import Netlist.Proofs.Parser.Ensures
import Netlist.Proofs.Parser.Ensures.Expression
import Netlist.Proofs.Parser.Ensures.Instantiation
import Netlist.Proofs.Parser.Joining
import Netlist.Proofs.Parser.Lays
import Netlist.Proofs.Parser.Lays.Expression
import Netlist.Proofs.Parser.Lays.Instantiation
import Netlist.Proofs.Parser.Mirror
import Netlist.Proofs.Parser.Mirror.Expression
import Netlist.Proofs.Parser.Mirror.Instantiation
import Netlist.Proofs.Parser.Mirror.State
import Netlist.Proofs.Parser.Mirror.Unit
import Netlist.Proofs.Parser.Reads
import Netlist.Proofs.Parser.Recursion
import Netlist.Proofs.Parser.Recursion.Expression
import Netlist.Proofs.Parser.Resynchronising
import Netlist.Proofs.Parser.Sentences
import Netlist.Proofs.Parser.Skipping
import Netlist.Proofs.Parser.Termination
import Netlist.Proofs.Run.Accounted
import Netlist.Proofs.Run.Alone
import Netlist.Proofs.Run.Atoms
import Netlist.Proofs.Run.Clean
import Netlist.Proofs.Run.Contained
import Netlist.Proofs.Run.Embedded
import Netlist.Proofs.Run.Identity
import Netlist.Proofs.Run.Interleaved
import Netlist.Proofs.Run.Joining
import Netlist.Proofs.Run.Layout
import Netlist.Proofs.Run.Nesting
import Netlist.Proofs.Run.Openings
import Netlist.Proofs.Run.Placement
import Netlist.Proofs.Run.Reals
import Netlist.Proofs.Run.Rereading
import Netlist.Proofs.Run.Safety
import Netlist.Proofs.Run.SameText
import Netlist.Proofs.Run.Sorting
import Netlist.Proofs.Run.Statements
import Netlist.Proofs.Session.Growth
import Netlist.Proofs.Session.Pairing
import Netlist.Proofs.Session.Points
import Netlist.Proofs.Session.Pool
import Netlist.Proofs.Session.Sequence
import Netlist.Proofs.Session.Stepping
import Netlist.Proofs.Source.Counting
import Netlist.Proofs.Source.Lines
import Netlist.Proofs.Source.Places
import Netlist.Proofs.Syntax.Alike
import Netlist.Proofs.Syntax.Encoding
import Netlist.Proofs.Syntax.Grouping
import Netlist.Proofs.Syntax.Layout
import Netlist.Proofs.Syntax.Leaves
import Netlist.Proofs.Syntax.Nodes
import Netlist.Proofs.Syntax.Numbers
import Netlist.Proofs.Syntax.Statement
import Netlist.Proofs.Syntax.Written
import Netlist.Proofs.Text.Bytes
import Netlist.Proofs.Text.Numerals
import Netlist.Proofs.Token.Cuts
import Netlist.Proofs.Token.Joining
import Netlist.Proofs.Token.Lexing
import Netlist.Proofs.Token.Literals
import Netlist.Proofs.Token.Numbers
import Netlist.Proofs.Token.Relexing
import Netlist.Proofs.Token.Shapes
import Netlist.Proofs.Token.Stretches
import Netlist.Proofs.Token.Strings
import Netlist.Proofs.Token.Tiling
import Netlist.Run
import Netlist.Session
import Netlist.Source.File
import Netlist.Source.Json
import Netlist.Source.Sources
import Netlist.Source.Span
import Netlist.Syntax.Json
import Netlist.Syntax.Tree
import Netlist.Text.Blank
import Netlist.Text.Bytes
import Netlist.Text.Quoted
import Netlist.Text.Shown
import Netlist.Token.Basic
import Netlist.Token.Kind
import Netlist.Token.Lexeme
import Netlist.Token.Reserved
import Netlist.Toml.Document
import Netlist.Toml.Node
import Netlist.Toml.Reader
