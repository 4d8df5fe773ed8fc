import Terse.Failure
import Terse.Input.Session
import Terse.Input.Cycle
import Terse.Input.Stack
import Terse.Lazy.Generator
import Terse.Lazy.Pull
import Terse.Lazy.Store
import Terse.Literal.Compressed
import Terse.Literal.Diagnostic
import Terse.Literal.Evaluate
import Terse.Literal.Expr
import Terse.Literal.Grammar
import Terse.Literal.Lexeme
import Terse.Literal.Operator
import Terse.Literal.Read
import Terse.Literal.Token
import Terse.Machine.Action
import Terse.Machine.Call
import Terse.Machine.Input
import Terse.Machine.Run
import Terse.Number.Decimal
import Terse.Number.Digits
import Terse.Number.Radix
import Terse.Sequence.Basic
import Terse.Sequence.Keep
import Terse.Sequence.Mold
import Terse.Text.Blank
import Terse.Text.Grapheme
import Terse.Text.GraphemeBreak
import Terse.Text.Ring
import Terse.Text.Suffix
import Terse.Text.Template
import Terse.Value.Basic
import Terse.Value.Display
import Terse.Value.View
import Terse.Proofs.Machine.Ending
import Terse.Proofs.Machine.Log
import Terse.Proofs.Lazy.Growth
import Terse.Proofs.Lazy.Reading
import Terse.Proofs.Lazy.Reentrance
import Terse.Proofs.Lazy.Readers
import Terse.Proofs.Lazy.Stream
import Terse.Proofs.Lazy.Follows
import Terse.Proofs.Lazy.Retry
import Terse.Proofs.Literal.Derivation
import Terse.Proofs.Literal.Parsing
import Terse.Proofs.Literal.Tiling
import Terse.Proofs.Literal.Rereading
import Terse.Proofs.Literal.Spans
import Terse.Proofs.Literal.Literals
import Terse.Proofs.Literal.Nesting
import Terse.Proofs.Literal.Placement
import Terse.Proofs.Literal.Written
import Terse.Proofs.Lazy.Steady
import Terse.Proofs.Lazy.Scripts
import Terse.Proofs.Value.Equality
import Terse.Proofs.Value.Forms
import Terse.Proofs.Value.Rows
import Terse.Proofs.Value.Interchange
import Terse.Proofs.Number.Rendering
import Terse.Proofs.Input.Sources
import Terse.Proofs.Value.Molding
import Terse.Proofs.Lazy.Supply
import Terse.Proofs.Value.Supplied
import Terse.Proofs.Lazy.Zipped
import Terse.Proofs.Lazy.Demand
import Terse.Proofs.Number.Radix
import Terse.Proofs.Number.Items
import Terse.Proofs.Number.Reversal
import Terse.Proofs.Machine.Logging
import Terse.Proofs.Lazy.Routine
import Terse.Proofs.Lazy.Calls
import Terse.Proofs.Lazy.Iterates
import Terse.Proofs.Lazy.Folds
import Terse.Proofs.Lazy.Columns
import Terse.Proofs.Input.Popping
import Terse.Proofs.Text.Formatting
import Terse.Proofs.Text.Keeping
import Terse.Proofs.Literal.Cursors
import Terse.Proofs.Literal.Quoting
import Terse.Proofs.Literal.Blame
import Terse.Proofs.Literal.Pointing
import Terse.Proofs.Value.Repetition
import Terse.Proofs.Text.Filling
import Terse.Proofs.Text.Turning
import Terse.Proofs.Number.Remainder
import Terse.Literal.Stepwise
import Terse.Proofs.Literal.EndMark
import Terse.Proofs.Literal.Survival
import Terse.Proofs.Literal.Separation
import Terse.Proofs.Literal.Numbers
