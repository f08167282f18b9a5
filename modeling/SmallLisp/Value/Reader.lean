import SmallLisp.Token.Lexer
import SmallLisp.Value

/-!
# Reading values

A program is a sequence of data; a datum is an atom, a parenthesised sequence
of data, or a quote mark before a datum. The reader walks over the tokens once
and keeps the forms that are still open on a stack, innermost first, so that
deep nesting needs no recursion.
-/

namespace SmallLisp

namespace Reader

/-- A form that is still open: a list with its elements in reverse, or a mark
without its datum. -/
inductive Frame where
  | list (items : List Value)
  | mark (m : QuoteMark)

/-- The open forms, innermost first, and the finished ones, last one first. -/
structure Progress where
  frames : List Frame
  forms : List Value

/-- Hands a finished datum to the innermost open form. A datum finishes the
marks before it. -/
def deliver (v : Value) (forms : List Value) : List Frame → Progress
  | [] => ⟨[], v :: forms⟩
  | .list items :: frames => ⟨.list (v :: items) :: frames, forms⟩
  | .mark m :: frames => deliver (Value.tagged m v) forms frames

/-- Takes one token. The only token that can be out of place is a closing
parenthesis. -/
def advance (p : Progress) (t : Token.Located) : Except ReadError Progress :=
  match t.token with
  | .opening => .ok ⟨.list [] :: p.frames, p.forms⟩
  | .mark m => .ok ⟨.mark m :: p.frames, p.forms⟩
  | .closing =>
      match p.frames with
      | .list items :: frames =>
          .ok (deliver (.list items.reverse) p.forms frames)
      | _ => .error (.strayClosing t.span)
  | .nil => .ok (deliver .nil p.forms p.frames)
  | .bool b => .ok (deliver (.bool b) p.forms p.frames)
  | .int n => .ok (deliver (.int n) p.forms p.frames)
  | .float x => .ok (deliver (.float x) p.forms p.frames)
  | .str s => .ok (deliver (.str s) p.forms p.frames)
  | .symbol name => .ok (deliver (.symbol name) p.forms p.frames)

/-- Takes the remaining tokens; `last` is where the token before them ended. -/
def parseFrom (p : Progress) (last : Nat) :
    List Token.Located → Except ReadError (List Value)
  | [] =>
      if p.frames.isEmpty then .ok p.forms.reverse
      else .error (.unfinished last)
  | t :: ts =>
      match advance p t with
      | .ok p => parseFrom p t.span.stop ts
      | .error e => .error e

end Reader

namespace Value

/-- The data denoted by a sequence of tokens. -/
def parse (tokens : List Token.Located) : Except ReadError (List Value) :=
  Reader.parseFrom ⟨[], []⟩ 0 tokens

/-- Reads a source text. The whole text is cut into tokens before any of them
is nested. -/
def read (source : String) : Except ReadError (List Value) :=
  (Token.scan source).bind parse

end Value

end SmallLisp
