import SmallLisp.Text.Quoted
import SmallLisp.Text.Span

/-!
# What can go wrong while reading

Reading fails in three ways: the text holds a slice that is no token, a
closing parenthesis has no partner, or the text ends inside a form. Only the
last one can be mended by more text.
-/

namespace SmallLisp

/-- Why a text could not be read, with the place. -/
inductive ReadError where
  | badSlice (slice : String) (span : Text.Span)
  | strayClosing (span : Text.Span)
  | unfinished (offset : Nat)
deriving DecidableEq, Repr

namespace ReadError

/-- The stage of reading that noticed the error. -/
inductive Stage where
  | lexer
  | parser
deriving DecidableEq, Repr

/-- The name of a stage in reports. -/
def Stage.label : Stage → String
  | lexer => "Lexer"
  | parser => "Parser"

/-- Bad slices are noticed while cutting tokens, the rest while nesting
them. -/
def stage : ReadError → Stage
  | badSlice .. => .lexer
  | strayClosing _ => .parser
  | unfinished _ => .parser

/-- The place of the error. An unfinished text is reported at the end of its
last token. -/
def span : ReadError → Text.Span
  | badSlice _ s => s
  | strayClosing s => s
  | unfinished offset => .point offset

/-- The wording of the error. -/
def message : ReadError → String
  | badSlice slice _ => "unexpected character: " ++ Text.dump slice
  | strayClosing _ => "unexpected token `)`"
  | unfinished _ => "unexpected end of input"

/-- Whether more text could mend the error. -/
def isIncomplete : ReadError → Bool
  | unfinished _ => true
  | _ => false

/-- The full line: stage, place and wording. -/
def describe (e : ReadError) : String :=
  e.stage.label ++ " error at " ++ e.span.text ++ ": " ++ e.message

end ReadError

end SmallLisp
