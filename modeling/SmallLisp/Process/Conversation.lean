import SmallLisp.Conversation
import SmallLisp.Process.Session

/-!
# Conversations in a process

The forms of an input are kept until all of them have been worked through,
and the value of each is given up when it has been shown. What is reported is
seen at once, so it is not lost if the process is killed later on.
-/

namespace SmallLisp.Process

/-- Evaluates forms one by one, showing each value but `nil`, up to the first
error. -/
def showForms (fuel : Nat) (e : ScopeId) :
    List Placed → Run (Option EvalError)
  | [] => pure none
  | x :: xs => do
      match ← Run.attempt (eval fuel x e) with
      | .error err => return some err
      | .ok v => do
          match v.value with
          | .nil => pure ()
          | value => Run.plainly (Eval.print (value.text ++ "\n"))
          Run.dropCell v.cell
          showForms fuel e xs

/-- Works through an input. -/
def showInput (fuel : Nat) (e : ScopeId) (input : String) :
    Run (Option Failure) :=
  match Value.read input with
  | .error err => pure (some (.reading err))
  | .ok forms => do
      let cells ← Run.loadFrom [] forms
      let err ← showForms fuel e (forms.zipWith Placed.mk cells)
      Run.dropAll (Cell.refs cells)
      return err.map .running

/-- Takes a line from the user. -/
def hear (fuel : Nat) (e : ScopeId) (c : Conversation) (line : String) :
    Run Conversation :=
  match receive c.pending line with
  | .skipped => pure c
  | .command command => Run.plainly (c.obey e command)
  | .gathered (.waiting pending) => pure { c with pending }
  | .gathered (.ready input) => do
      let c : Conversation := { c with pending := "" }
      match ← showInput fuel e input with
      | some failure =>
          return c.complain (failure.report Conversation.sourceName)
      | none => return c

/-- Takes lines until the conversation is over. -/
def hearAll (fuel : Nat) (e : ScopeId) (c : Conversation) :
    List (Option String) → Run Conversation
  | [] => do
      Run.plainly (Eval.print Conversation.farewell)
      return { c with ended := true }
  | none :: _ => pure c.giveUp
  | some line :: rest => do
      let c ← Run.reporting c.reports.reverse (hear fuel e c line)
      if c.ended then return c else hearAll fuel e c rest

/-- Holds a whole conversation and answers the reports made, in order. -/
def hold (fuel : Nat) (e : ScopeId) (lines : List (Option String)) :
    Run (List String) := do
  Run.plainly (Eval.print Conversation.banner)
  let c ← hearAll fuel e Conversation.start lines
  return c.reports.reverse

end SmallLisp.Process
