import SmallLisp.Eval.SpecialForm
import SmallLisp.Eval.Step

/-!
# Making and calling functions

A lambda keeps the scope it was made in. Calling it opens a scope inside that
one, binds the parameters there and runs the body; the scope of the caller
plays no part.
-/

namespace SmallLisp.Form

/-- The name that a parameter must be. -/
def param : Value → Answer String
  | .symbol name => .ok name
  | v => fail (.malformed (.paramName v))

/-- The names of a parameter list. -/
def params : Value → Answer (List String)
  | .list items => items.mapM param
  | _ => fail (.malformed .paramsNotList)

/-- Makes a lambda from a parameter list and a body. -/
def lambda (name : Option String) (paramList : Value) (body : List Value)
    (e : ScopeId) : Eval Value := do
  let names ← Eval.ofAnswer (params paramList)
  Eval.newLambda name names body e

/-- Makes a lambda from the operands of an `fn` form. -/
def lambdaOf (name : Option String) (args : List Value) (e : ScopeId) :
    Eval Value := do
  demand .fnForm (.atLeast 2) args
  match args with
  | paramList :: body => lambda name paramList body e
  | [] => throw .fault

/-- Binds parameters to operands, one after the other. -/
def bindParams (e : ScopeId) : List String → List Value → Eval Unit
  | name :: names, v :: vs => do
      Eval.define e name v
      bindParams e names vs
  | _, _ => pure ()

/-- Opens a scope for a call of a lambda, with its parameters bound. -/
def enter (f : Lambda Value) (args : List Value) : Eval ScopeId := do
  Eval.ofAnswer (checkArity f.calledName (.exactly f.params.length) args.length)
  let e ← Eval.newScope (some f.scope)
  bindParams e f.params args
  return e

/-- Calls a function: a builtin is run, and of a lambda the last body form
remains. -/
def callStep (ev : Evaluator) (f : Value) (args : List Value) : Eval Step :=
  match f with
  | .builtin b => do
      let v ← Library.apply ev.call b args
      return .done v
  | .lambda f => do
      let e ← enter f args
      body ev e f.body
  | v => Eval.raise (.notCallable v)

end SmallLisp.Form
