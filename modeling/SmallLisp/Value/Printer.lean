import SmallLisp.Number.Decimal
import SmallLisp.Text.Quoted
import SmallLisp.Value

/-!
# Written forms of values

`Value.text` is the form that is shown to the user and that the reader takes
back. `Value.raw` is the same except that a text at the top stands without its
quotes. `Value.dump` shows how a value is built.

All three append to a growing output, so that long lists need no stack.
-/

namespace SmallLisp

/-- Appends texts with a separator between neighbours. -/
def appendAll (out separator : String) : List String → String
  | [] => out
  | [s] => out ++ s
  | s :: t :: rest => appendAll (out ++ s ++ separator) separator (t :: rest)

/-- A lambda is shown by its name, if it has one, and its parameters. -/
def Lambda.text {Code : Type} (f : Lambda Code) : String :=
  let name := match f.name with
    | some name => name ++ " "
    | none => ""
  "<fn " ++ name ++ "(" ++ appendAll "" " " f.params ++ ")>"

namespace Value

mutual

/-- Appends the written form of a value. -/
def write (out : String) : Value → String
  | nil => out ++ "nil"
  | bool b => out ++ (if b then "true" else "false")
  | int n => out ++ Integer.text n
  | float x => out ++ Binary64.text .readable x
  | str s => out ++ Text.quote s
  | symbol name => out ++ name
  | list [] => out ++ "()"
  | list (v :: vs) => (writeRest (write (out ++ "(") v) vs).push ')'
  | builtin b => out ++ "<builtin " ++ b.name ++ ">"
  | lambda f => out ++ f.text

/-- Appends the written forms of values, each after a space. -/
def writeRest (out : String) : List Value → String
  | [] => out
  | v :: vs => writeRest (write (out ++ " ") v) vs

end

/-- The written form, which the reader takes back if no function is
involved. -/
def text (v : Value) : String :=
  v.write ""

/-- The written form, without quotes around a text. -/
def raw : Value → String
  | str s => s
  | v => v.text

mutual

/-- Appends the dump of a value. -/
def writeDump (out : String) : Value → String
  | nil => out ++ "Nil"
  | bool b => out ++ "Bool(" ++ (if b then "true" else "false") ++ ")"
  | int n => out ++ "Int(" ++ Integer.text n ++ ")"
  | float x => out ++ "Float(" ++ Binary64.text .bare x ++ ")"
  | str s => out ++ "Str(" ++ Text.dump s ++ ")"
  | symbol name => out ++ "Symbol(" ++ Text.dump name ++ ")"
  | list items => writeDumpItems (out ++ "List(") items ++ ")"
  | builtin b => out ++ "Callable(Builtin(" ++ Text.dump b.name ++ "))"
  | lambda ⟨_, name, params, body, _⟩ =>
      let shownName := match name with
        | some name => "Some(" ++ Text.dump name ++ ")"
        | none => "None"
      let front :=
        out ++ "Callable(Lambda(Lambda \x7b name: " ++ shownName ++
          ", params: ["
      let middle := appendAll front ", " (params.map Text.dump) ++ "], body: "
      writeDumpItems middle body ++ ", .. \x7d))"

/-- Appends the dumps of values between brackets. -/
def writeDumpItems (out : String) : List Value → String
  | [] => out ++ "[]"
  | v :: vs => (writeDumpRest (writeDump (out ++ "[") v) vs).push ']'

/-- Appends the dumps of values, each after a comma. -/
def writeDumpRest (out : String) : List Value → String
  | [] => out
  | v :: vs => writeDumpRest (writeDump (out ++ ", ") v) vs

end

/-- The dump of a value: its constructors, with literals in their structural
spelling. -/
def dump (v : Value) : String :=
  v.writeDump ""

end Value

end SmallLisp
