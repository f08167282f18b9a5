import SmallLisp.Library

/-!
# Steps

Evaluating an expression either finishes or leaves another expression to
evaluate in its place: the taken branch of a conditional, the last form of a
body, the body of a called lambda. `Step` says which.

Everything that has to be evaluated on the way goes through an `Evaluator`,
which the functions of these modules are given. A form is thus defined without
regard to how evaluations are strung together, and what is shown of a form
holds for every evaluator that has the properties it needs.
-/

namespace SmallLisp

/-- How to evaluate an expression in a scope, and how to call a function. -/
structure Evaluator where
  eval : Value → ScopeId → Eval Value
  call : Value → List Value → Eval Value

/-- The outcome of one step: a value, or an expression that remains to be
evaluated. -/
inductive Step where
  | done (v : Value)
  | next (x : Value) (e : ScopeId)

namespace Form

/-- Evaluates all forms of a body but the last, which remains. An empty body is
`nil`. -/
def body (ev : Evaluator) (e : ScopeId) : List Value → Eval Step
  | [] => pure (.done .nil)
  | [x] => pure (.next x e)
  | x :: y :: rest => do
      let _ ← ev.eval x e
      body ev e (y :: rest)

/-- Evaluates operands from the left, behind the values of `found`, which are
in reverse. -/
def operands (ev : Evaluator) (e : ScopeId) (found : List Value) :
    List Value → Eval (List Value)
  | [] => pure found.reverse
  | x :: xs => do
      let v ← ev.eval x e
      operands ev e (v :: found) xs

end Form

end SmallLisp
