import SmallLisp.Library.Operand

/-!
# Comparison and truth

Numbers are ordered with numbers and texts with texts, texts by their
characters. A comparison of several operands holds if every neighbouring pair
does, and stops at the first pair that does not.
-/

namespace SmallLisp.Comparison

/-- The order of two floats, if they have one. -/
def floatOrder (x y : Float) : Option Ordering :=
  if x < y then some .lt
  else if y < x then some .gt
  else if x == y then some .eq
  else none

/-- The order of two texts. -/
def textOrder (s t : String) : Ordering :=
  if s < t then .lt else if s = t then .eq else .gt

/-- The order of two values, if they have one. -/
def order : Value → Value → Answer (Option Ordering)
  | .int a, .int b => .ok (some (compare a.toInt b.toInt))
  | .str s, .str t => .ok (some (textOrder s t))
  | v, w => do
      let x ← Operand.float v
      let y ← Operand.float w
      return floatOrder x y

/-- Whether every neighbouring pair is ordered in an accepted way. -/
def chain (accepts : Ordering → Bool) : List Value → Answer Value
  | v :: w :: rest => do
      match ← order v w with
      | some o =>
          if accepts o then chain accepts (w :: rest) else return .bool false
      | none => return .bool false
  | _ => .ok (.bool true)

/-- Equality that also holds between an integer and a float of the same
value. -/
def equal : Value → Value → Bool
  | .int n, .float x => Binary64.ofInt n.toInt == x
  | .float x, .int n => Binary64.ofInt n.toInt == x
  | v, w => v == w

/-- Whether all neighbouring operands are equal. -/
def allEqual : List Value → Bool
  | v :: w :: rest => equal v w && allEqual (w :: rest)
  | _ => true

/-- Whether two operands differ. -/
def notEqual : List Value → Answer Value
  | [v, w] => .ok (.bool (!equal v w))
  | _ => .error .fault

/-- Negation. -/
def not : List Value → Answer Value
  | [v] => .ok (.bool (!v.isTruthy))
  | _ => .error .fault

end SmallLisp.Comparison
