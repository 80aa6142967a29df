import Codegen.CommandLine.Arguments
import Codegen.CommandLine.Run
import Codegen.Config
import Codegen.Config.Reader
import Codegen.Dict
import Codegen.Error
import Codegen.Files
import Codegen.Folder
import Codegen.Ir.Basic
import Codegen.Ir.Cast
import Codegen.Ir.Flow
import Codegen.Ir.Module
import Codegen.Ir.Pass
import Codegen.Ir.Printer
import Codegen.Ir.Record
import Codegen.Json.Basic
import Codegen.Json.Decoder
import Codegen.Json.Flaw
import Codegen.Json.Number
import Codegen.Json.Reader
import Codegen.Json.Token
import Codegen.Json.Writer
import Codegen.Layout
import Codegen.Lowering.Access
import Codegen.Lowering.Assembly
import Codegen.Lowering.Blocks
import Codegen.Lowering.Control
import Codegen.Lowering.Expression
import Codegen.Lowering.Fault
import Codegen.Lowering.Function
import Codegen.Lowering.Jumps
import Codegen.Lowering.Module
import Codegen.Lowering.Names
import Codegen.Lowering.Operand
import Codegen.Lowering.Records
import Codegen.Lowering.Tree
import Codegen.Main
import Codegen.Path
import Codegen.Program
import Codegen.Program.Codec
import Codegen.Program.NodeCodec
import Codegen.Program.SymbolCodec
import Codegen.Span
import Codegen.Symbol
import Codegen.Text.Basic
import Codegen.Text.Bytes
import Codegen.Text.Digits
import Codegen.Text.Mangle
import Codegen.Text.Quoted
import Codegen.Toml.Basic
import Codegen.Toml.Reader
import Codegen.Toml.Scalar
import Codegen.Toml.Token
import Codegen.Ty
import Codegen.TypeMap
import Codegen.Proofs.CallOrder
import Codegen.Proofs.Calls
import Codegen.Proofs.Casts
import Codegen.Proofs.Code
import Codegen.Proofs.Commands
import Codegen.Proofs.Course
import Codegen.Proofs.Defined
import Codegen.Proofs.Dominance
import Codegen.Proofs.Emitted
import Codegen.Proofs.Factor
import Codegen.Proofs.Flow
import Codegen.Proofs.Fresh
import Codegen.Proofs.Initializers
import Codegen.Proofs.Instructions
import Codegen.Proofs.Json.Codec
import Codegen.Proofs.Json.Nodes
import Codegen.Proofs.Json.Reading
import Codegen.Proofs.Json.RoundTrip
import Codegen.Proofs.Json.Symbols
import Codegen.Proofs.Known
import Codegen.Proofs.LabelNames
import Codegen.Proofs.Labels
import Codegen.Proofs.Leaves
import Codegen.Proofs.Lines
import Codegen.Proofs.Lists
import Codegen.Proofs.Locations
import Codegen.Proofs.Lookup
import Codegen.Proofs.LoopJumps
import Codegen.Proofs.Machine
import Codegen.Proofs.Names.Called
import Codegen.Proofs.Names.Mangled
import Codegen.Proofs.Names.Quoted
import Codegen.Proofs.Names.Unambiguous
import Codegen.Proofs.Nesting
import Codegen.Proofs.Numerals
import Codegen.Proofs.Operands
import Codegen.Proofs.Passes
import Codegen.Proofs.Placement
import Codegen.Proofs.Reachability
import Codegen.Proofs.Records
import Codegen.Proofs.Relation
import Codegen.Proofs.Relocation
import Codegen.Proofs.Runs
import Codegen.Proofs.Scalar.Data
import Codegen.Proofs.Scalar.Evaluation
import Codegen.Proofs.Scalar.Expressions
import Codegen.Proofs.Scalar.Frames
import Codegen.Proofs.Scalar.Mirror
import Codegen.Proofs.Scalar.Preservation
import Codegen.Proofs.Scalar.Statements
import Codegen.Proofs.Scalar.Typing
import Codegen.Proofs.Simulation
import Codegen.Proofs.Sketch
import Codegen.Proofs.StackDiscipline
import Codegen.Proofs.Steps
import Codegen.Proofs.Storage.Cycles
import Codegen.Proofs.Storage.Layouts
import Codegen.Proofs.Storage.Payload
import Codegen.Proofs.Storage.Room
import Codegen.Proofs.Storage.Rules
import Codegen.Proofs.Storage.Table
import Codegen.Proofs.Storage.Words
import Codegen.Proofs.Straight
import Codegen.Proofs.Strings.Constant
import Codegen.Proofs.Strings.Literals
import Codegen.Proofs.Terminators
import Codegen.Proofs.TwoRuns.Blocks
import Codegen.Proofs.TwoRuns.Independence
import Codegen.Proofs.TwoRuns.Lines
import Codegen.Proofs.TwoRuns.Positions
import Codegen.Proofs.TwoRuns.Surroundings
import Codegen.Proofs.Types.Declared
import Codegen.Proofs.Types.Printed
import Codegen.Proofs.Types.Quoted
import Codegen.Proofs.Types.Variadic
import Codegen.Proofs.Verified
import Codegen.Proofs.Walk
import Codegen.Proofs.Watched
import Codegen.Proofs.Watching
import Codegen.Proofs.WriteOnce
