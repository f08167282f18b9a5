import SmallLisp.Library.Operand

/-!
# Questions about values
-/

namespace SmallLisp.Inspection

/-- Asks a yes-or-no question of a single operand. -/
def ask (question : Value → Bool) : List Value → Answer Value
  | [v] => .ok (.bool (question v))
  | _ => .error .fault

/-- Whether a value is of a given kind. -/
def isKind (kind : Kind) (v : Value) : Bool :=
  v.kind == kind

/-- Whether a value is `nil`, a list without elements or a text without
characters. -/
def isEmpty : Value → Bool
  | .nil => true
  | .list items => items.isEmpty
  | .str s => s.isEmpty
  | _ => false

/-- Raises an error with the raw form of the operand. -/
def raise : List Value → Answer Value
  | [v] => fail (.raised v.raw)
  | _ => .error .fault

/-- The name of the operand's kind. -/
def typeOf : List Value → Answer Value
  | [v] => .ok (.str v.kind.name)
  | _ => .error .fault

end SmallLisp.Inspection
