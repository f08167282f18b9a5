import SmallLisp.Library.Operand
import SmallLisp.Text.Blank

/-!
# Conversion

Each conversion takes one value. With several operands every one of them is
converted, and the results come back as a list.
-/

namespace SmallLisp.Conversion

/-- A float as an integer: without its fraction, at most as far from zero as 64
bits allow. -/
def ofFloat (x : Float) : Int64 :=
  match Binary64.truncate? x with
  | some n => Integer.saturate n
  | none => 0

/-- The integer that a text spells, or that the float it spells is converted
to. -/
def intOfText? (s : String) : Option Int64 :=
  let cs := Text.trimChars s.toList
  ((Integer.read? cs).bind Integer.narrow?).or ((Binary64.read? cs).map ofFloat)

/-- The float that a text spells. -/
def floatOfText? (s : String) : Option Float :=
  Binary64.read? (Text.trimChars s.toList)

/-- Converts to an integer. -/
def toInt : Value → Answer Value
  | .int n => .ok (.int n)
  | .float x => .ok (.int (ofFloat x))
  | .bool b => .ok (.int (if b then 1 else 0))
  | .str s =>
      match intOfText? s with
      | some n => .ok (.int n)
      | none => fail (.inconvertible (.str s) .int)
  | v => fail (.wrongKind .convertible v.kind)

/-- Converts to a float. -/
def toFloat : Value → Answer Value
  | .int n => .ok (.float (Binary64.ofInt n.toInt))
  | .float x => .ok (.float x)
  | .bool b => .ok (.float (if b then 1.0 else 0.0))
  | .str s =>
      match floatOfText? s with
      | some x => .ok (.float x)
      | none => fail (.inconvertible (.str s) .float)
  | v => fail (.wrongKind .convertible v.kind)

/-- Converts to a text. -/
def toStr (v : Value) : Answer Value :=
  .ok (.str v.raw)

/-- Applies a conversion to a single operand, or to each of several. -/
def each (convert : Value → Answer Value) : List Value → Answer Value
  | [v] => convert v
  | vs => (vs.mapM convert).map .list

end SmallLisp.Conversion
