import SmallLisp.Eval.Form

/-!
# Evaluation

`eval` takes steps until one of them is the last. A step that leaves an
expression is followed by the next in the same loop, so a program that only
ever continues in tail position runs without piling anything up.

Programs need not end, and the fuel bounds how deep an evaluation may go and
how many steps it may take at each depth. More fuel never changes an answer,
it only leaves fewer evaluations cut short.
-/

namespace SmallLisp

mutual

/-- Evaluates an expression in a scope. -/
def eval : (fuel : Nat) → Value → ScopeId → Eval Value
  | 0, _, _ => throw .outOfFuel
  | fuel + 1, x, e => fun st =>
      match Form.step ⟨eval fuel, call fuel⟩ x e st with
      | .ok (.done v) st => .ok v st
      | .ok (.next x e) st => eval fuel x e st
      | .error a st => .error a st

/-- Calls a function on operands. -/
def call : (fuel : Nat) → Value → List Value → Eval Value
  | 0, _, _ => throw .outOfFuel
  | fuel + 1, f, args => fun st =>
      match Form.callStep ⟨eval fuel, call fuel⟩ f args st with
      | .ok (.done v) st => .ok v st
      | .ok (.next x e) st => eval fuel x e st
      | .error a st => .error a st

end

end SmallLisp
