import SmallLisp.CommandLine

/-!
# The program

Everything here is input and output: the arguments, the files and the lines
are fetched, handed to the library, and what comes back is printed. Whatever a
line makes the session print is shown before the next line is read.
-/

namespace SmallLisp.Program

/-- The bound on evaluations, beyond what any run can use up. -/
def fuel : Nat := 1000000000000000000

/-- The nodes that there is room to take down at the same time. -/
def room : Nat := 32768

/-- What the shell makes of the end of a process that was killed. -/
def abortedCode : Nat := 134

/-- Why a file could not be read, in the words of the system. -/
def reasonOf : IO.Error → String
  | .noFileOrDirectory .. => "No such file or directory (os error 2)"
  | .inappropriateType _ _ "not a directory" => "Not a directory (os error 20)"
  | .inappropriateType .. => "Is a directory (os error 21)"
  | .permissionDenied .. => "Permission denied (os error 13)"
  | err => toString err

/-- The bytes of a file. -/
def fileBytes (path : String) : IO (Except String (List UInt8)) := do
  try
    let bytes ← IO.FS.readBinFile path
    return .ok bytes.toList
  catch err => return .error (reasonOf err)

/-- Shows what a process has printed and forgets it. -/
def flush (p : Process) : IO Process := do
  let stdout ← IO.getStdout
  stdout.putStr p.state.console.written
  stdout.flush
  let console : Console := { p.state.console with written := "" }
  return { p with state := { p.state with console } }

/-- Does something in a process and shows what it printed. -/
def perform {α : Type} (m : Run α) (p : Process) :
    IO (Except Ending α × Process) := do
  match m p with
  | .ok a p => return (.ok a, ← flush p)
  | .error ending p => return (.error ending, ← flush p)

def report (reports : List String) : IO Unit := do
  for text in reports do
    IO.eprintln text

/-- The bytes of a stream up to the next newline, behind those of `found`, in
reverse. -/
partial def lineBytes (stdin : IO.FS.Stream) (found : List UInt8) :
    IO (List UInt8) := do
  match (← stdin.read 1).toList with
  | b :: _ =>
      if b = 10 then return (b :: found).reverse
      else lineBytes stdin (b :: found)
  | [] => return found.reverse

/-- The next line of a stream, with its text if it has one. -/
def nextLine (stdin : IO.FS.Stream) : IO (Option (Option String)) := do
  return (Text.lines (← lineBytes stdin [])).head?

/-- Takes lines until the conversation is over, showing reports as they are
made, and answers the process that is left, or how it came to its end. -/
partial def converse (stdin : IO.FS.Stream) (e : ScopeId) (c : Conversation)
    (p : Process) : IO (Except Ending Process) := do
  let said : Run Conversation := match ← nextLine stdin with
    | none => Process.hearAll fuel e c []
    | some none => pure c.giveUp
    | some (some line) => Process.hear fuel e c line
  match ← perform said p with
  | (.error ending, _) => return .error ending
  | (.ok c, p) =>
      report c.reports.reverse
      if c.ended then return .ok p
      else converse stdin e { c with reports := [] } p

/-- Holds a conversation in a process of its own. -/
def holdConversation : IO (Option Nat) := do
  let begun : Run ScopeId := do
    let e ← Process.newRoot
    Run.plainly (Eval.print Conversation.banner)
    return e
  match ← perform begun (.blank room) with
  | (.error _, _) => return none
  | (.ok e, p) =>
      match ← converse (← IO.getStdin) e Conversation.start p with
      | .error _ => return none
      | .ok p =>
          match ← perform (Run.drop ⟨.scope, e⟩) p with
          | (.ok _, _) => return some 0
          | (.error _, _) => return none

/-- Performs any other task. -/
def performTask (task : CommandLine.Task) : IO (Option Nat) := do
  let found ← match task with
    | .runFile path => fileBytes path
    | .showTokens path => fileBytes path
    | _ => pure (.ok [])
  let exit := CommandLine.launch fuel room ⟨fun _ => found, []⟩ task
  (← IO.getStdout).putStr exit.printed
  report exit.reports
  return exit.code

end SmallLisp.Program

open SmallLisp in
/-- Performs the task that the arguments spell. -/
def main (args : List String) : IO UInt32 := do
  match CommandLine.task? args with
  | none =>
      IO.eprintln ("usage: [repl [--no-history] | run FILE | eval EXPR | " ++
        "tokens FILE | --version]")
      return UInt32.ofNat CommandLine.usageCode
  | some task =>
      let code ← match task with
        | .converse => Program.holdConversation
        | task => Program.performTask task
      return UInt32.ofNat (code.getD Program.abortedCode)
