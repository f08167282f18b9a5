import SmallLisp.Eval
import SmallLisp.Process.Form

/-!
# Evaluation in a process

An expression is kept by whoever wants it evaluated (`eval`), or it has been
left by a step before, which has taken references to it and to its scope
(`resume`). Those are given up after the next step, so that a program that
continues in tail position holds on to one expression at a time.
-/

namespace SmallLisp.Process

mutual

/-- Evaluates an expression in a scope. -/
def eval : (fuel : Nat) → Placed → ScopeId → Run Placed
  | 0, _, _ => Run.plainly (throw .outOfFuel)
  | fuel + 1, x, e => do
      match ← step ⟨eval fuel, call fuel⟩ x e with
      | .done x => return x
      | .next x e => resume fuel x e

/-- Evaluates what a step has left. -/
def resume : (fuel : Nat) → Placed → ScopeId → Run Placed
  | 0, _, _ => Run.plainly (throw .outOfFuel)
  | fuel + 1, x, e => do
      let next ← step ⟨eval fuel, call fuel⟩ x e
      Run.drop ⟨.scope, e⟩
      Run.dropCell x.cell
      match next with
      | .done x => return x
      | .next x e => resume fuel x e

/-- Calls a function, which takes the operands over. -/
def call : (fuel : Nat) → Placed → List Placed → Run Placed
  | 0, _, _ => Run.plainly (throw .outOfFuel)
  | fuel + 1, f, args => do
      match ← callStep ⟨eval fuel, call fuel⟩ f args with
      | .done x => return x
      | .next x e => do
          let v ← eval fuel x e
          Run.drop ⟨.scope, e⟩
          Run.dropCell x.cell
          return v

end

end SmallLisp.Process
