import SmallLisp.Eval.Function
import SmallLisp.Eval.Template

/-!
# Forms

What each special form does, what a call does, and with them one step of the
evaluation of any expression. Every form first checks the number of its
operands, and a shape that the check has ruled out is a fault.
-/

namespace SmallLisp.Form

/-- `(quote v)` is `v`. -/
def quote (args : List Value) : Eval Step := do
  demand .quote (.exactly 1) args
  match args with
  | [v] => return .done v
  | _ => throw .fault

/-- `(if test then else)` leaves one of its branches. -/
def branch (ev : Evaluator) (args : List Value) (e : ScopeId) : Eval Step := do
  demand .branch (.exactly 3) args
  match args with
  | [test, yes, no] =>
      let v ← ev.eval test e
      return .next (if v.isTruthy then yes else no) e
  | _ => throw .fault

/-- Binds names to values in a scope; each value may refer to the names before
it. -/
def bindPairs (ev : Evaluator) (e : ScopeId) : List Value → Eval Unit
  | [] => pure ()
  | [_] => throw .fault
  | .symbol name :: x :: rest => do
      let v ← ev.eval x e
      Eval.define e name v
      bindPairs ev e rest
  | v :: _ :: _ => Eval.raise (.malformed (.letName v))

/-- `(let (name x ...) form ...)` runs its body in a scope of its own. -/
def letForm (ev : Evaluator) (args : List Value) (e : ScopeId) : Eval Step := do
  demand .letForm (.atLeast 2) args
  match args with
  | .list pairs :: forms =>
      if pairs.length % 2 ≠ 0 then Eval.raise (.malformed .letUnpaired)
      else
        let scope ← Eval.newScope (some e)
        bindPairs ev scope pairs
        body ev scope forms
  | _ :: _ => Eval.raise (.malformed .letNotList)
  | [] => throw .fault

/-- The operands of a literal `fn` form, so that a definition can name the
lambda. -/
def fnOperands? : Value → Option (List Value)
  | .list (.symbol head :: args) =>
      if head = SpecialForm.fnForm.name then some args else none
  | _ => none

/-- `(def name x)` or `(def (name param ...) form ...)` binds a name in the
current scope. -/
def defForm (ev : Evaluator) (args : List Value) (e : ScopeId) : Eval Step := do
  demand .defForm (.atLeast 2) args
  match args with
  | .symbol name :: rest =>
      demand .defForm (.exactly 2) args
      match rest with
      | [x] =>
          let v ← match fnOperands? x with
            | some fnArgs => lambdaOf (some name) fnArgs e
            | none => ev.eval x e
          Eval.define e name v
          return .done .nil
      | _ => throw .fault
  | .list [] :: _ => Eval.raise (.malformed .defNameless)
  | .list (.symbol name :: paramList) :: forms =>
      let v ← lambda (some name) (.list paramList) forms e
      Eval.define e name v
      return .done .nil
  | .list (v :: _) :: _ => Eval.raise (.malformed (.defName v))
  | v :: _ => Eval.raise (.malformed (.defName v))
  | [] => throw .fault

/-- `(set! name x)` gives a new value to the nearest binding of a name. -/
def setForm (ev : Evaluator) (args : List Value) (e : ScopeId) : Eval Step := do
  demand .setForm (.exactly 2) args
  match args with
  | [.symbol name, x] =>
      let v ← ev.eval x e
      Eval.assign e name v
      return .done .nil
  | [v, _] => Eval.raise (.malformed (.setName v))
  | _ => throw .fault

/-- `(begin form ...)` runs its forms in the current scope. -/
def begin (ev : Evaluator) (args : List Value) (e : ScopeId) : Eval Step := do
  demand .begin (.atLeast 1) args
  body ev e args

/-- `(cond (test form ...) ...)` runs the forms after the first test that
holds. -/
def cond (ev : Evaluator) (e : ScopeId) : List Value → Eval Step
  | [] => pure (.done .nil)
  | .list [] :: _ => Eval.raise .clauseWithoutTest
  | .list (test :: forms) :: clauses => do
      let v ← ev.eval test e
      if v.isTruthy then body ev e forms else cond ev e clauses
  | v :: _ => Eval.raise (.wrongKind .condClause v.kind)

/-- `(quasiquote x)` is the template `x` filled in. -/
def quasiquote (ev : Evaluator) (args : List Value) (e : ScopeId) :
    Eval Step := do
  demand .quasiquote (.exactly 1) args
  match args with
  | [x] => return .done (← template ev e 0 x)
  | _ => throw .fault

/-- `(eval x)` leaves the value of `x` as an expression. -/
def eval (ev : Evaluator) (args : List Value) (e : ScopeId) : Eval Step := do
  demand .eval (.exactly 1) args
  match args with
  | [x] => return .next (← ev.eval x e) e
  | _ => throw .fault

/-- A call: the head must be a function before the operands are evaluated. -/
def application (ev : Evaluator) (head : Value) (args : List Value)
    (e : ScopeId) : Eval Step := do
  let f ← ev.eval head e
  if f.isCallable then
    let vs ← operands ev e [] args
    callStep ev f vs
  else Eval.raise (.notCallable f)

/-- Evaluates a special form. -/
def special (ev : Evaluator) (form : SpecialForm) (args : List Value)
    (e : ScopeId) : Eval Step :=
  match form with
  | .quote => quote args
  | .branch => branch ev args e
  | .letForm => letForm ev args e
  | .defForm => defForm ev args e
  | .setForm => setForm ev args e
  | .fnForm => return .done (← lambdaOf none args e)
  | .begin => begin ev args e
  | .cond => cond ev e args
  | .quasiquote => quasiquote ev args e
  | .eval => eval ev args e

/-- Evaluates a list with at least one element. -/
def list (ev : Evaluator) (head : Value) (args : List Value) (e : ScopeId) :
    Eval Step :=
  match head with
  | .symbol name =>
      match SpecialForm.ofName? name with
      | some form => special ev form args e
      | none => application ev head args e
  | _ => application ev head args e

/-- One step: symbols are looked up, lists are forms, and all else stands for
itself. -/
def step (ev : Evaluator) (x : Value) (e : ScopeId) : Eval Step :=
  match x with
  | .symbol name => return .done (← Eval.lookup e name)
  | .list (head :: args) => list ev head args e
  | v => pure (.done v)

end SmallLisp.Form
