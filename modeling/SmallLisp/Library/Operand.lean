import SmallLisp.Failure.Running

/-!
# Operands

Builtins take their operands as a list of values and check the kinds they
need, from left to right.
-/

namespace SmallLisp.Operand

/-- The integer that a value must be. -/
def int : Value → Answer Int64
  | .int n => .ok n
  | v => fail (.wrongKind .int v.kind)

/-- The text that a value must be. -/
def str : Value → Answer String
  | .str s => .ok s
  | v => fail (.wrongKind .str v.kind)

/-- The elements of the list that a value must be. -/
def list : Value → Answer (List Value)
  | .list items => .ok items
  | v => fail (.wrongKind .list v.kind)

/-- A number as a float, integers going to the nearest one. -/
def float? : Value → Option Float
  | .float x => some x
  | .int n => some (Binary64.ofInt n.toInt)
  | _ => none

/-- The number that a value must be, as a float. -/
def float (v : Value) : Answer Float :=
  match float? v with
  | some x => .ok x
  | none => fail (.wrongKind .number v.kind)

/-- The function that a value must be. -/
def callable (v : Value) : Answer Value :=
  if v.isCallable then .ok v else fail (.notCallable v)

/-- The integers that values must be. -/
def ints (vs : List Value) : Answer (List Int64) :=
  vs.mapM int

/-- The numbers that values must be, as floats. -/
def floats (vs : List Value) : Answer (List Float) :=
  vs.mapM float

end SmallLisp.Operand
