import SmallLisp.Eval
import SmallLisp.Failure
import SmallLisp.Value.Reader

/-!
# Sessions

A session is a root scope that holds the library and everything the user has
defined since. Texts are worked through one after the other; an error ends the
text it is in and leaves all that was done before it.
-/

namespace SmallLisp.Session

/-- Binds builtins to their names in a scope. -/
def install (e : ScopeId) : List Builtin → Eval Unit
  | [] => pure ()
  | b :: bs => do
      Eval.define e b.name (.builtin b)
      install e bs

/-- Opens a root scope that holds the library. -/
def newRoot : Eval ScopeId := do
  let e ← Eval.newScope none
  install e Builtin.all
  return e

/-- The state without scopes, with nothing printed. -/
def blank : State := ⟨.empty, ⟨"", false⟩⟩

/-- The root scope of a fresh session. -/
def root : ScopeId := 0

/-- The state of a fresh session. -/
def fresh : State :=
  match newRoot blank with
  | .ok _ st => st
  | .error _ st => st

/-- Evaluates forms in order and answers the last value, `last` if there are
none. -/
def evalFormsFrom (fuel : Nat) (e : ScopeId) (last : Value) :
    List Value → Eval Value
  | [] => pure last
  | x :: xs => do
      let v ← eval fuel x e
      evalFormsFrom fuel e v xs

/-- Evaluates forms in order and answers the last value, `nil` if there are
none. -/
def evalForms (fuel : Nat) (e : ScopeId) (forms : List Value) : Eval Value :=
  evalFormsFrom fuel e .nil forms

/-- Reads a text and evaluates all its forms. A text that cannot be read
changes nothing. -/
def evalSource (fuel : Nat) (e : ScopeId) (source : String) :
    Eval (Except Failure Value) :=
  match Value.read source with
  | .error err => pure (.error (.reading err))
  | .ok forms => do
      match ← Eval.attempt (evalForms fuel e forms) with
      | .ok v => return .ok v
      | .error err => return .error (.running err)

/-- Evaluates each form for itself, going on after errors, with what each of
them printed. -/
def evalEach (fuel : Nat) (e : ScopeId) :
    List Value → Eval (List (Except EvalError Value × String))
  | [] => pure []
  | x :: xs => do
      let outcome ← Eval.attempt (eval fuel x e)
      let printed ← Eval.takeOutput
      return (outcome, printed) :: (← evalEach fuel e xs)

/-- Calls the value of one text on the data of another, which are not
evaluated. -/
def callSource (fuel : Nat) (e : ScopeId) (source operands : String) :
    Eval (Except Failure Value) := do
  match ← evalSource fuel e source with
  | .error failure => return .error failure
  | .ok f =>
      if f.isCallable then
        match Value.read operands with
        | .error err => return .error (.reading err)
        | .ok args =>
            match ← Eval.attempt (call fuel f args) with
            | .ok v => return .ok v
            | .error err => return .error (.running err)
      else return .error (.running (.notCallable f))

/-- Whether a binding is the one that the library made under that name. -/
def isLibraryBinding : String × Value → Bool
  | (name, .builtin b) => b.name == name
  | _ => false

/-- The bindings of a scope that the library did not make, by name. -/
def userBindings (s : Store) (e : ScopeId) : List (String × Value) :=
  match s.scopes[e]? with
  | some scope => scope.bindings.entries.filter (!isLibraryBinding ·)
  | none => []

end SmallLisp.Session
