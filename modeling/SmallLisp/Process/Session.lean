import SmallLisp.Process.Eval
import SmallLisp.Session

/-!
# Sessions in a process

A process begins with an empty memory. The root scope is held as long as the
session lasts, and the forms of a text as long as they are worked through;
the value of a form is given up when the next one has been evaluated.
-/

namespace SmallLisp.Process

/-- The process in which nothing has been done yet. -/
def blank (room : Nat) : Process :=
  ⟨Session.blank, .empty, [], room⟩

/-- Binds builtins to their names in a scope. -/
def install (e : ScopeId) : List Builtin → Run Unit
  | [] => pure ()
  | b :: bs => do
      Run.define e b.name ⟨.builtin b, .plain (.builtin b)⟩
      install e bs

/-- Opens a root scope that holds the library. -/
def newRoot : Run ScopeId := do
  let e ← Run.openScope none
  install e Builtin.all
  return e

/-- Evaluates forms in order and answers the last value, `last` if there are
none. -/
def evalFormsFrom (fuel : Nat) (e : ScopeId) (last : Placed) :
    List Placed → Run Placed
  | [] => pure last
  | x :: xs => do
      let v ← eval fuel x e
      Run.dropCell last.cell
      evalFormsFrom fuel e v xs

/-- Evaluates the forms of a text, which are kept meanwhile. -/
def evalForms (fuel : Nat) (e : ScopeId) (forms : List Value) :
    Run Placed := do
  let cells ← Run.loadFrom [] forms
  let v ← evalFormsFrom fuel e .nil (forms.zipWith Placed.mk cells)
  Run.dropAll (Cell.refs cells)
  return v

/-- Reads a text and evaluates all its forms. -/
def evalSource (fuel : Nat) (e : ScopeId) (source : String) :
    Run (Except Failure Placed) :=
  match Value.read source with
  | .error err => pure (.error (.reading err))
  | .ok forms => do
      match ← Run.attempt (evalForms fuel e forms) with
      | .ok x => return .ok x
      | .error err => return .error (.running err)

end SmallLisp.Process
