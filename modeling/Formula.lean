import Formula.Basic
import Formula.Block
import Formula.Code.Buffer
import Formula.Code.Emitter
import Formula.Code.Pool
import Formula.Command.Execute
import Formula.Command.Invocation
import Formula.Decimal.Basic
import Formula.Decimal.Layout
import Formula.Decimal.Literal
import Formula.Decimal.Shortest
import Formula.Directory
import Formula.Expr.Basic
import Formula.Expr.Parser
import Formula.FunctionTable
import Formula.Graph.Basic
import Formula.Graph.Calls
import Formula.Graph.Fold
import Formula.Graph.Reachable
import Formula.Graph.Value
import Formula.Log.Filter
import Formula.Log.Record
import Formula.Main
import Formula.Proofs.Code.Accounts
import Formula.Proofs.Code.CheckedEmission
import Formula.Proofs.Code.Convention
import Formula.Proofs.Code.Depth
import Formula.Proofs.Code.Emission
import Formula.Proofs.Code.FoldedSize
import Formula.Proofs.Code.Frame
import Formula.Proofs.Code.Hints
import Formula.Proofs.Code.History
import Formula.Proofs.Code.Needs
import Formula.Proofs.Code.Order
import Formula.Proofs.Code.Parking
import Formula.Proofs.Code.Plan
import Formula.Proofs.Code.Pool
import Formula.Proofs.Code.PoolLedger
import Formula.Proofs.Code.Recursion
import Formula.Proofs.Code.Registers
import Formula.Proofs.Code.Scheduling
import Formula.Proofs.Code.Simulation
import Formula.Proofs.Code.SpillBalance
import Formula.Proofs.Code.Unknown
import Formula.Proofs.Decimal.Nearest
import Formula.Proofs.Decimal.Shape
import Formula.Proofs.Decimal.Text
import Formula.Proofs.Double.Canonical
import Formula.Proofs.Double.Rounding
import Formula.Proofs.Expr.Blame
import Formula.Proofs.Expr.Building
import Formula.Proofs.Expr.Display
import Formula.Proofs.Expr.Grammar
import Formula.Proofs.Expr.Layout
import Formula.Proofs.Expr.Parsing
import Formula.Proofs.Expr.Postorder
import Formula.Proofs.Graph.Basic
import Formula.Proofs.Graph.CallPaths
import Formula.Proofs.Graph.Checked
import Formula.Proofs.Graph.CheckedCalls
import Formula.Proofs.Graph.Compact
import Formula.Proofs.Graph.Evaluation
import Formula.Proofs.Graph.Fold
import Formula.Proofs.Graph.FoldOrder
import Formula.Proofs.Graph.FoldShape
import Formula.Proofs.Graph.Growth
import Formula.Proofs.Graph.Reachable
import Formula.Proofs.Graph.Refold
import Formula.Proofs.Graph.Settling
import Formula.Proofs.Graph.Value
import Formula.Proofs.Loading
import Formula.Proofs.Mapping
import Formula.Proofs.Routine
import Formula.Proofs.Token.Display
import Formula.Proofs.Token.Tiling
import Formula.Proofs.Tree.Fold
import Formula.Proofs.Tree.Parts
import Formula.Proofs.Tree.Value
import Formula.Proofs.X86.Decoding
import Formula.Proofs.X86.Execution
import Formula.Proofs.X86.Liveness
import Formula.Proofs.X86.Memory
import Formula.Proofs.X86.Stream
import Formula.ReadError
import Formula.Regex.Ast
import Formula.Regex.Basic
import Formula.Regex.Bracket
import Formula.Regex.ClassSet
import Formula.Regex.Compile
import Formula.Regex.Cursor
import Formula.Regex.Escape
import Formula.Regex.Fault
import Formula.Regex.Meaning
import Formula.Regex.Parser
import Formula.Regex.Ranges
import Formula.Regex.Size
import Formula.Regex.Span
import Formula.Routine
import Formula.Switches.Basic
import Formula.Switches.Toml
import Formula.Text.Blank
import Formula.Text.CharSet
import Formula.Text.Combining
import Formula.Text.Letter
import Formula.Text.Numeral
import Formula.Text.Quoted
import Formula.Text.Unprintable
import Formula.Token.Basic
import Formula.Token.Lexer
import Formula.Tree
import Formula.X86.Decode
import Formula.X86.Instr
import Formula.X86.Machine
