import SmallLisp.Conversation.Gathering
import SmallLisp.Session

/-!
# Conversation

The user types lines and sees results. Every form that the lines make up is
evaluated in one session, and its value is shown unless it is `nil`. An error
ends the input it is in, and the conversation goes on.
-/

namespace SmallLisp

/-- A conversation: the lines that are pending, the reports made so far, last
one first, and whether it is over. -/
structure Conversation where
  pending : String
  reports : List String
  ended : Bool

namespace Conversation

/-- The greeting. -/
def banner : String :=
  "Slip REPL v0.1.0\nType :help for help, :quit to exit.\n\n"

/-- The farewell. -/
def farewell : String :=
  "Goodbye!\n"

/-- The answer to a call for help. -/
def helpText : String :=
  "Slip REPL Commands:\n" ++
  "  :help, :h, :?   Show this help\n" ++
  "  :quit, :q       Exit the REPL\n" ++
  "  :clear          Clear the screen\n" ++
  "  :env            List your top-level definitions\n" ++
  "\n" ++
  "You can enter:\n" ++
  "  - Expressions:  (+ 1 2), (if (< 1 2) \"yes\" \"no\")\n" ++
  "  - Definitions:  (def x 10), (def (square n) (* n n))\n" ++
  "  - Closures:     (def (adder n) (fn (x) (+ x n)))\n" ++
  "\n" ++
  "Forms may span several lines; input is evaluated once\n" ++
  "every opening parenthesis is closed.\n"

/-- What clears a terminal's screen. -/
def clearText : String :=
  "\x1b[2J\x1b[1;1H"

/-- The answer to a command that does not exist. -/
def unknownText (command : String) : String :=
  "Unknown command: " ++ command ++ "\nType :help for help.\n"

/-- The user's bindings, one to a line. -/
def bindingsText (bindings : List (String × Value)) : String :=
  let lines := bindings.map fun (name, v) =>
    "  " ++ name ++ " = " ++ v.text ++ "\n"
  Text.join lines ""

/-- The name that reports give to what the user types. -/
def sourceName : String := "<repl>"

/-- The complaint about a line that is no text. -/
def undecodable : String :=
  "stream did not contain valid UTF-8"

/-- A conversation in which nothing has been said. -/
def start : Conversation := ⟨"", [], false⟩

/-- Adds a report. -/
def complain (c : Conversation) (report : String) : Conversation :=
  { c with reports := report :: c.reports }

/-- Evaluates forms one by one, showing each value but `nil`, up to the first
error. -/
def showForms (fuel : Nat) (e : ScopeId) : List Value → Eval (Option EvalError)
  | [] => pure none
  | x :: xs => do
      match ← Eval.attempt (eval fuel x e) with
      | .error err => return some err
      | .ok .nil => showForms fuel e xs
      | .ok v =>
          Eval.print (v.text ++ "\n")
          showForms fuel e xs

/-- Works through an input. -/
def showInput (fuel : Nat) (e : ScopeId) (input : String) :
    Eval (Option Failure) :=
  match Value.read input with
  | .error err => pure (some (.reading err))
  | .ok forms => do
      let err ← showForms fuel e forms
      return err.map .running

/-- Carries out a command. -/
def obey (c : Conversation) (e : ScopeId) : Command → Eval Conversation
  | .quit => do
      Eval.print farewell
      return { c with ended := true }
  | .help => do
      Eval.print helpText
      return c
  | .clear => do
      Eval.print clearText
      return c
  | .bindings => do
      let st ← get
      Eval.print (bindingsText (Session.userBindings st.store e))
      return c
  | .unknown text => do
      Eval.print (unknownText text)
      return c

/-- Takes a line from the user. -/
def hear (fuel : Nat) (e : ScopeId) (c : Conversation) (line : String) :
    Eval Conversation :=
  match receive c.pending line with
  | .skipped => pure c
  | .command command => c.obey e command
  | .gathered (.waiting pending) => pure { c with pending }
  | .gathered (.ready input) => do
      let c : Conversation := { c with pending := "" }
      match ← showInput fuel e input with
      | some failure => return c.complain (failure.report sourceName)
      | none => return c

/-- Ends a conversation at a line that is no text. -/
def giveUp (c : Conversation) : Conversation :=
  { c.complain ("Error: " ++ undecodable) with ended := true }

/-- Takes lines, where `none` is one that is no text, until the conversation is
over. -/
def hearAll (fuel : Nat) (e : ScopeId) (c : Conversation) :
    List (Option String) → Eval Conversation
  | [] => do
      Eval.print farewell
      return { c with ended := true }
  | none :: _ => pure c.giveUp
  | some line :: rest => do
      let c ← hear fuel e c line
      if c.ended then return c else hearAll fuel e c rest

/-- Holds a whole conversation and answers the reports made, in order. -/
def hold (fuel : Nat) (e : ScopeId) (lines : List (Option String)) :
    Eval (List String) := do
  Eval.print banner
  let c ← hearAll fuel e start lines
  return c.reports.reverse

end Conversation

end SmallLisp
