import SmallLisp.Number.Decimal
import SmallLisp.QuoteMark
import SmallLisp.Text.Quoted
import SmallLisp.Text.Span

/-!
# Tokens

The smallest meaningful stretches of a program: parentheses, quote marks,
literals and names. A token has two written forms, the short one that
resembles the source and a dump that shows its kind.
-/

namespace SmallLisp

/-- A token of the language. -/
inductive Token where
  | opening
  | closing
  | mark (m : QuoteMark)
  | nil
  | bool (b : Bool)
  | int (n : Int64)
  | float (x : Float)
  | str (s : String)
  | symbol (name : String)

namespace Token

/-- The short form: as in the source, with literals in their structural
spelling. -/
def text : Token → String
  | opening => "("
  | closing => ")"
  | mark m => m.sign
  | nil => "nil"
  | bool b => if b then "true" else "false"
  | int n => Integer.text n
  | float x => Binary64.text .bare x
  | str s => Text.dump s
  | symbol name => name

/-- The dump: the kind of token, with its content in parentheses. -/
def dump : Token → String
  | opening => "LParen"
  | closing => "RParen"
  | mark m => m.label
  | nil => "Nil"
  | bool b => if b then "True" else "False"
  | int n => "IntLit(" ++ Integer.text n ++ ")"
  | float x => "FloatLit(" ++ Binary64.text .bare x ++ ")"
  | str s => "StringLit(" ++ Text.dump s ++ ")"
  | symbol name => "Symbol(" ++ Text.dump name ++ ")"

/-- A token with the stretch of source it was read from. -/
structure Located where
  token : Token
  span : Text.Span

/-- The dump of a token with its place, as in `LParen @ 0..1`. -/
def Located.dump (t : Located) : String :=
  t.token.dump ++ " @ " ++ t.span.text

end Token

end SmallLisp
