import FlatCode.Ast.Basic
import FlatCode.Ast.Literal
import FlatCode.Ast.Program
import FlatCode.Ast.Walk
import FlatCode.CaseMap
import FlatCode.Cleanup
import FlatCode.Code.Instr
import FlatCode.Code.Layout
import FlatCode.Code.Printer
import FlatCode.Code.Type
import FlatCode.Command.Arguments
import FlatCode.Command.Directory
import FlatCode.Command.Run
import FlatCode.Command.UsageError
import FlatCode.Draft.Basic
import FlatCode.Draft.Complete
import FlatCode.Draft.Pending
import FlatCode.Error
import FlatCode.Fold
import FlatCode.Goto
import FlatCode.Ids
import FlatCode.Json.Decode
import FlatCode.Json.Numeral
import FlatCode.Json.Printer
import FlatCode.Json.Reader
import FlatCode.Json.Value
import FlatCode.LandingPad
import FlatCode.Lower.Call
import FlatCode.Lower.Conversion
import FlatCode.Lower.Expr
import FlatCode.Lower.Function
import FlatCode.Lower.Operator
import FlatCode.Lower.Plan
import FlatCode.Lower.Program
import FlatCode.Lower.State
import FlatCode.Lower.Stmt
import FlatCode.Lower.Unwind
import FlatCode.Main
import FlatCode.Number.Binary64
import FlatCode.Number.Decimal
import FlatCode.Operator
import FlatCode.Proofs.Accounts
import FlatCode.Proofs.Balance.Basic
import FlatCode.Proofs.Balance.Expr
import FlatCode.Proofs.Balance.Function
import FlatCode.Proofs.Balance.Stmt
import FlatCode.Proofs.Balance.Unwind
import FlatCode.Proofs.Complete
import FlatCode.Proofs.Control.Condition
import FlatCode.Proofs.Control.Flow
import FlatCode.Proofs.Control.Function
import FlatCode.Proofs.Control.Machine
import FlatCode.Proofs.Control.Source
import FlatCode.Proofs.Control.Stmt
import FlatCode.Proofs.Control.Switch
import FlatCode.Proofs.Fault
import FlatCode.Proofs.Growth.Basic
import FlatCode.Proofs.Growth.Tree
import FlatCode.Proofs.Landing
import FlatCode.Proofs.Outcome
import FlatCode.Proofs.Placement
import FlatCode.Proofs.Steps
import FlatCode.Proofs.StraightLine
import FlatCode.Storage
import FlatCode.Symbols.Kind
import FlatCode.Symbols.Table
import FlatCode.Text.ControlSequence
import FlatCode.Text.ExtendingMark
import FlatCode.Text.Ignorable
import FlatCode.Text.Paint
import FlatCode.Text.Quoted
import FlatCode.Text.Uncolored
import FlatCode.Text.Unprintable
import FlatCode.Text.Visible
import FlatCode.Width
import FlatCode.Wire.Decode
import FlatCode.Wire.Encode
import FlatCode.Proofs.Lifetime.Event
import FlatCode.Proofs.Lifetime.Source
import FlatCode.Proofs.Marks.Rules
import FlatCode.Proofs.Marks.Edit
import FlatCode.Proofs.Marks.Step
import FlatCode.Proofs.Marks.Emit
import FlatCode.Proofs.Marks.Label
import FlatCode.Proofs.Marks.Raise
import FlatCode.Proofs.Marks.Unwind
import FlatCode.Proofs.Marks.Draw
import FlatCode.Proofs.Marks.Call
import FlatCode.Proofs.Marks.Expr
import FlatCode.Proofs.Marks.Stmt
import FlatCode.Proofs.Marks.Flow
import FlatCode.Proofs.Marks.Pad
import FlatCode.Proofs.Marks.Function
import FlatCode.Proofs.Definite
import FlatCode.Proofs.Layout
import FlatCode.Proofs.Raising
import FlatCode.Proofs.Status
import FlatCode.Proofs.Lifetime.Path
import FlatCode.Proofs.Lifetime.Snapshot
import FlatCode.Proofs.Visit.Leaving
import FlatCode.Proofs.Remarks.Function
import FlatCode.Proofs.Remarks.Trace
import FlatCode.Proofs.Truth.Condition
import FlatCode.Proofs.Incoming
import FlatCode.Proofs.Convention
import FlatCode.Proofs.Json.Text
import FlatCode.Proofs.Wire.RoundTrip
import FlatCode.Proofs.Folding.Arithmetic
import FlatCode.Proofs.Folding.Truth
import FlatCode.Proofs.Folding.Sound
import FlatCode.Proofs.Scope
import FlatCode.Proofs.Cases.Map
import FlatCode.Proofs.Cases.Key
import FlatCode.Proofs.Cases.Value
import FlatCode.Proofs.Types.Finite
import FlatCode.Proofs.Storage.Function
import FlatCode.Proofs.Storage.Names
import FlatCode.Proofs.Storage.Slots
import FlatCode.Proofs.Types.Layout
import FlatCode.Proofs.Typing.Operand
import FlatCode.Proofs.Typing.Reference
import FlatCode.Proofs.Typing.Operator
import FlatCode.Proofs.Typing.Rules
import FlatCode.Proofs.Typing.Shown
import FlatCode.Proofs.Typing.Value
import FlatCode.Proofs.Throw.Return
import FlatCode.Proofs.NamedJumps
import FlatCode.Proofs.Uncolored
import FlatCode.Proofs.AggregateReturn
