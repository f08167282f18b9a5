import SmallLisp.Text.Span
import SmallLisp.Text.Blank
import SmallLisp.Text.Hidden
import SmallLisp.Text.Quoted
import SmallLisp.Text.Pieces
import SmallLisp.Number.Binary64
import SmallLisp.Number.Integer
import SmallLisp.Number.Decimal
import SmallLisp.QuoteMark
import SmallLisp.Token
import SmallLisp.Failure.Reading
import SmallLisp.Token.Lexer
import SmallLisp.Token.Balance
import SmallLisp.Builtin
import SmallLisp.Value
import SmallLisp.Value.Printer
import SmallLisp.Value.Reader
import SmallLisp.Failure.Running
import SmallLisp.Store
import SmallLisp.State
import SmallLisp.Library.Operand
import SmallLisp.Library.Arithmetic
import SmallLisp.Library.Comparison
import SmallLisp.Library.Conversion
import SmallLisp.Library.Sequence
import SmallLisp.Library.Inspection
import SmallLisp.Library
import SmallLisp.Eval.Step
import SmallLisp.Eval.SpecialForm
import SmallLisp.Eval.Function
import SmallLisp.Eval.Template
import SmallLisp.Eval.Form
import SmallLisp.Eval
import SmallLisp.Failure
import SmallLisp.Session
import SmallLisp.Text.Lines
import SmallLisp.Conversation.Gathering
import SmallLisp.Conversation
import SmallLisp.Memory
import SmallLisp.Memory.Release
import SmallLisp.Memory.Finish
import SmallLisp.Process
import SmallLisp.Process.Library
import SmallLisp.Process.Form
import SmallLisp.Process.Eval
import SmallLisp.Process.Session
import SmallLisp.Process.Conversation
import SmallLisp.CommandLine
import SmallLisp.Main
import SmallLisp.Proofs.Contents
import SmallLisp.Proofs.Completion
import SmallLisp.Proofs.Cutting
import SmallLisp.Proofs.Grammar
import SmallLisp.Proofs.LineByLine
import SmallLisp.Proofs.Parentheses
import SmallLisp.Proofs.Reading
import SmallLisp.Proofs.Direct
import SmallLisp.Proofs.Discipline
import SmallLisp.Proofs.Doubles
import SmallLisp.Proofs.Fuel
import SmallLisp.Proofs.Numerals
import SmallLisp.Proofs.Lexing
import SmallLisp.Proofs.RoundTrip
import SmallLisp.Proofs.Stores
import SmallLisp.Proofs.Reachability
import SmallLisp.Proofs.Scoping
import SmallLisp.Proofs.Sessions
import SmallLisp.Proofs.Chains
import SmallLisp.Proofs.Lockstep
import SmallLisp.Proofs.Readable
import SmallLisp.Proofs.Faultless
import SmallLisp.Proofs.LineBuffer
import SmallLisp.Proofs.Tiling
import SmallLisp.Proofs.Joining
import SmallLisp.Proofs.Holes
import SmallLisp.Proofs.Visibility
import SmallLisp.Proofs.Endings
import SmallLisp.Proofs.Abbreviations
import SmallLisp.Proofs.Wrapping
import SmallLisp.Proofs.Progressions
import SmallLisp.Proofs.Conversions
import SmallLisp.Proofs.Conditionals
import SmallLisp.Proofs.Inventory
import SmallLisp.Proofs.Separators
import SmallLisp.Proofs.Releasing
import SmallLisp.Proofs.Counting
import SmallLisp.Proofs.Teardown
import SmallLisp.Proofs.Finishing
import SmallLisp.Proofs.Unwinding
import SmallLisp.Proofs.Survivors
import SmallLisp.Proofs.Mirroring
import SmallLisp.Proofs.Following
import SmallLisp.Proofs.Handling
import SmallLisp.Proofs.Answering
import SmallLisp.Proofs.Proceeding
import SmallLisp.Proofs.Evaluating
import SmallLisp.Proofs.Performing
import SmallLisp.Proofs.Towers
import SmallLisp.Proofs.Raising
import SmallLisp.Proofs.Outgrowing
