import SmallLisp.Library.Operand

/-!
# Arithmetic

Two families stand side by side. The plain operators take any numbers and
answer with floats. The integer family takes integers only and wraps around at
64 bits; all its operands are checked before any of them is used, so an
operand of the wrong kind is reported even behind a zero divisor.
-/

namespace SmallLisp.Arithmetic

/-! ## Floats -/

/-- The sum, from the left. Starting from negative zero leaves a lone negative
zero alone. -/
def add (args : List Value) : Answer Value :=
  (Operand.floats args).map fun xs => .float (xs.foldl (· + ·) (-0.0))

/-- The first number less the others, or the negative of a single one. -/
def sub (args : List Value) : Answer Value :=
  (Operand.floats args).map fun
    | [] => .float 0.0
    | [x] => .float (-x)
    | x :: xs => .float (xs.foldl (· - ·) x)

/-- The product, from the left. -/
def mul (args : List Value) : Answer Value :=
  (Operand.floats args).map fun xs => .float (xs.foldl (· * ·) 1.0)

/-- The first number divided by the others, or the reciprocal of a single
one. -/
def div (args : List Value) : Answer Value :=
  (Operand.floats args).map fun
    | [] => .float 1.0
    | [x] => .float (1.0 / x)
    | x :: xs => .float (xs.foldl (· / ·) x)

/-! ## Integers -/

/-- The sum. -/
def intAdd (args : List Value) : Answer Value :=
  (Operand.ints args).map fun ns => .int (ns.foldl (· + ·) 0)

/-- The first integer less the others, or the negative of a single one. -/
def intSub (args : List Value) : Answer Value :=
  (Operand.ints args).map fun
    | [] => .int 0
    | [n] => .int (-n)
    | n :: ns => .int (ns.foldl (· - ·) n)

/-- The product. -/
def intMul (args : List Value) : Answer Value :=
  (Operand.ints args).map fun ns => .int (ns.foldl (· * ·) 1)

/-- The quotient toward zero. Dividing by zero is a fault: callers have
checked. -/
def quotient (a b : Int64) : Answer Int64 :=
  if b = 0 then .error .fault else .ok (a / b)

/-- The remainder that goes with `quotient`. -/
def remainder (a b : Int64) : Answer Int64 :=
  if b = 0 then .error .fault else .ok (a % b)

/-- Divides by one integer after the other, up to the first zero. -/
def divideAll (a : Int64) : List Int64 → Answer Int64
  | [] => .ok a
  | b :: bs => do
      if b = 0 then fail .divisionByZero
      else divideAll (← quotient a b) bs

/-- The first integer divided by the others, or one divided by a single one. -/
def intDiv (args : List Value) : Answer Value := do
  match ← Operand.ints args with
  | [] => return .int 1
  | [n] => return .int (← divideAll 1 [n])
  | n :: ns => return .int (← divideAll n ns)

/-- The remainder of two integers. -/
def intRem : List Value → Answer Value
  | [v, w] => do
      let a ← Operand.int v
      let b ← Operand.int w
      if b = 0 then fail .divisionByZero
      else return .int (← remainder a b)
  | _ => .error .fault

/-! ## Size -/

/-- The distance from zero, of the kind of the operand. -/
def abs : List Value → Answer Value
  | [.int n] => .ok (.int (if n < 0 then -n else n))
  | [.float x] => .ok (.float x.abs)
  | [v] => fail (.wrongKind .number v.kind)
  | _ => .error .fault

/-- The first element to which no later one is preferred. -/
def best {α : Type} (prefers : α → α → Bool) : List α → Option α
  | [] => none
  | a :: as => some (as.foldl (fun a b => if prefers b a then b else a) a)

/-- Whether a value is an integer. -/
def isInt (v : Value) : Bool :=
  v.kind == .int

/-- The preferred operand: an integer if all are, and a float otherwise. -/
def extremum (prefersInt : Int64 → Int64 → Bool)
    (prefersFloat : Float → Float → Bool)
    (args : List Value) : Answer Value :=
  if args.all isInt then
    (Operand.ints args).map fun ns => ((best prefersInt ns).map .int).getD .nil
  else
    (Operand.floats args).map fun xs =>
      ((best prefersFloat xs).map .float).getD .nil

/-- The least operand. -/
def min (args : List Value) : Answer Value :=
  extremum (fun b a => b < a) (fun b a => b < a) args

/-- The greatest operand. -/
def max (args : List Value) : Answer Value :=
  extremum (fun b a => a < b) (fun b a => a < b) args

end SmallLisp.Arithmetic
