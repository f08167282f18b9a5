import SmallLisp.Value.Printer

/-!
# What can go wrong while running

Every error that a program can meet is a cause of its own, and the wording is
kept in one place. Errors fall into nine classes, which is all that a
program's user has to tell apart.

`Abort` adds the two ways to end that are no errors of the program: a fault of
the evaluator itself, which never happens, and the end of its fuel.
-/

namespace SmallLisp

/-- What an operation wanted in place of what it got. -/
inductive Expected where
  | list
  | int
  | number
  | str
  | condClause
  | convertible
deriving DecidableEq, Repr

/-- The wording of an expectation. -/
def Expected.text : Expected → String
  | list => "list"
  | int => "int"
  | number => "number"
  | str => "str"
  | condClause => "cond clause"
  | convertible => "number, bool or str"

/-- The ways in which a form that binds names can be malformed. -/
inductive BindingFlaw where
  | letNotList
  | letUnpaired
  | letName (v : Value)
  | defNameless
  | defName (v : Value)
  | setName (v : Value)
  | paramsNotList
  | paramName (v : Value)

/-- The wording of a flaw. -/
def BindingFlaw.text : BindingFlaw → String
  | letNotList => "let bindings must be a list"
  | letUnpaired => "let bindings must be name/value pairs"
  | letName v => "let name must be a symbol, got " ++ v.text
  | defNameless => "def signature needs a function name"
  | defName v => "def name must be a symbol, got " ++ v.text
  | setName v => "set! name must be a symbol, got " ++ v.text
  | paramsNotList => "parameter list must be a list"
  | paramName v => "parameter must be a symbol, got " ++ v.text

/-- An error of a running program. -/
inductive EvalError where
  | unbound (name : String)
  | arity (name : String) (arity : Arity) (got : Nat)
  | wrongKind (expected : Expected) (got : Kind)
  | clauseWithoutTest
  | spliceOutsideList
  | zeroStep
  | inconvertible (v : Value) (target : Kind)
  | notCallable (v : Value)
  | malformed (flaw : BindingFlaw)
  | raised (message : String)
  | divisionByZero
  | outOfBounds (index : Int64) (length : Nat)
  | unwritable (reason : String)

/-- The classes of errors. -/
inductive ErrorClass where
  | unboundSymbol
  | arityMismatch
  | typeMismatch
  | notCallable
  | malformedBinding
  | userRaised
  | divisionByZero
  | indexOutOfBounds
  | io
deriving DecidableEq, Repr

namespace EvalError

/-- The class of an error. -/
def errorClass : EvalError → ErrorClass
  | unbound _ => .unboundSymbol
  | arity .. => .arityMismatch
  | wrongKind .. => .typeMismatch
  | clauseWithoutTest => .typeMismatch
  | spliceOutsideList => .typeMismatch
  | zeroStep => .typeMismatch
  | inconvertible .. => .typeMismatch
  | notCallable _ => .notCallable
  | malformed _ => .malformedBinding
  | raised _ => .userRaised
  | divisionByZero => .divisionByZero
  | outOfBounds .. => .indexOutOfBounds
  | unwritable _ => .io

/-- The wording of an error. -/
def message : EvalError → String
  | unbound name => "unbound symbol: " ++ name
  | arity name (.exactly n) got =>
      name ++ " expects " ++ toString n ++ " argument(s), got " ++ toString got
  | arity name (.atLeast n) got =>
      name ++ " expects at least " ++ toString n ++ " argument(s), got " ++
        toString got
  | wrongKind expected got =>
      "type error: expected " ++ expected.text ++ ", got " ++ got.name
  | clauseWithoutTest => "cond clause must have a test"
  | spliceOutsideList => "unquote-splicing is only valid inside a list"
  | zeroStep => "range step must not be zero"
  | inconvertible v target =>
      "cannot convert " ++ v.text ++ " to " ++ target.name
  | notCallable v => "not callable: " ++ v.text ++ " (" ++ v.kind.name ++ ")"
  | malformed flaw => "malformed binding: " ++ flaw.text
  | raised message => message
  | divisionByZero => "division by zero"
  | outOfBounds index length =>
      "index " ++ Integer.text index ++ " out of bounds for length " ++
        toString length
  | unwritable reason => "IO error: " ++ reason

/-- The full line of a report. -/
def describe (e : EvalError) : String :=
  "Runtime error: " ++ e.message

end EvalError

/-- Why an evaluation ended without a value. -/
inductive Abort where
  /-- The program met an error. -/
  | failed (e : EvalError)
  /-- An operation met operands that a check before it rules out. -/
  | fault
  /-- The evaluation was cut short. -/
  | outOfFuel

/-- The result of an operation that neither prints nor looks at scopes. -/
abbrev Answer := Except Abort

/-- Ends an operation with an error of the program. -/
def fail {α : Type} (e : EvalError) : Answer α :=
  .error (.failed e)

/-- Checks a number of operands. -/
def checkArity (name : String) (arity : Arity) (got : Nat) : Answer Unit :=
  if arity.accepts got then .ok () else fail (.arity name arity got)

end SmallLisp
