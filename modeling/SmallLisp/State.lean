import SmallLisp.Failure.Running
import SmallLisp.Store

/-!
# The state of a running program

A program changes two things: the store of scopes and what it has printed.
Computations that do so are written in the monad `Eval`, which keeps the state
also when they end without a value, since an error undoes nothing.
-/

namespace SmallLisp

/-- What a program prints to. A full console refuses every text that is not
empty. -/
structure Console where
  written : String
  full : Bool

/-- The state of a running program. -/
structure State where
  store : Store
  console : Console

/-- A computation that changes the state and may end without a value. -/
abbrev Eval := EStateM Abort State

namespace Eval

/-- An operation that does not touch the state. -/
def ofAnswer {α : Type} : Answer α → Eval α
  | .ok a => pure a
  | .error a => throw a

/-- Ends with an error of the program. -/
def raise {α : Type} (e : EvalError) : Eval α :=
  throw (.failed e)

/-- Adds a scope and answers its number. -/
def newScope (parent : Option ScopeId) : Eval ScopeId := fun st =>
  let e := st.store.scopes.size
  .ok e { st with store := st.store.addScope parent }

/-- Binds a name in a scope. -/
def define (e : ScopeId) (name : String) (v : Value) : Eval Unit :=
  modify fun st => { st with store := st.store.define e name v }

/-- The value of a name, seen from a scope. -/
def lookup (e : ScopeId) (name : String) : Eval Value := fun st =>
  match st.store.get? e name with
  | some v => .ok v st
  | none => .error (.failed (.unbound name)) st

/-- Gives a new value to the nearest binding of a name. -/
def assign (e : ScopeId) (name : String) (v : Value) : Eval Unit := fun st =>
  match st.store.assign? e name v with
  | some store => .ok () { st with store }
  | none => .error (.failed (.unbound name)) st

/-- Makes a lambda with a number of its own. -/
def newLambda (name : Option String) (params : List String) (body : List Value)
    (scope : ScopeId) : Eval Value := fun st =>
  let id := st.store.lambdas
  .ok (.lambda ⟨id, name, params, body, scope⟩)
    { st with store := { st.store with lambdas := id + 1 } }

/-- The reason that a full console gives. -/
def fullReason : String :=
  "No space left on device (os error 28)"

/-- Prints a text. -/
def print (text : String) : Eval Unit := fun st =>
  if st.console.full && !text.isEmpty then
    .error (.failed (.unwritable fullReason)) st
  else
    let written := st.console.written ++ text
    .ok () { st with console := { st.console with written } }

/-- Hands out what has been printed and forgets it. -/
def takeOutput : Eval String := fun st =>
  .ok st.console.written
    { st with console := { st.console with written := "" } }

/-- Runs a computation and hands out an error of the program as a result. -/
def attempt {α : Type} (m : Eval α) : Eval (Except EvalError α) := fun st =>
  match m st with
  | .ok a st => .ok (.ok a) st
  | .error (.failed e) st => .ok (.error e) st
  | .error a st => .error a st

end Eval

end SmallLisp
