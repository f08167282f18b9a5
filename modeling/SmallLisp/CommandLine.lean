import SmallLisp.Process.Conversation
import SmallLisp.Text.Lines

/-!
# The command line

The program is started with a task: to hold a conversation, to run a file, to
evaluate a text, to show the tokens of a file, or to name its version. A task
ends in an exit code: zero for success, one for a failure that has been
reported, and two for arguments that spell no task.
-/

namespace SmallLisp.CommandLine

/-- What the program can be asked to do. -/
inductive Task where
  | converse
  | runFile (path : String)
  | evalText (source : String)
  | showTokens (path : String)
  | showVersion
deriving DecidableEq, Repr

/-! ## Arguments -/

/-- Whether an argument is an option: it starts with a hyphen that does not
stand alone. -/
def isOption (arg : String) : Bool :=
  match arg.toList with
  | '-' :: _ :: _ => true
  | _ => false

/-- The operands among arguments that admit no options; all that follows `--`
is an operand. -/
def operands? : List String → Option (List String)
  | [] => some []
  | arg :: rest =>
      if arg = "--" then some rest
      else if isOption arg then none
      else (operands? rest).map (arg :: ·)

/-- The single operand of a task. -/
def operand? (args : List String) : Option String :=
  match operands? args with
  | some [arg] => some arg
  | _ => none

/-- The single operand of a task, which must be the path of a file and so not
be empty. -/
def path? (args : List String) : Option String :=
  (operand? args).filter (!·.isEmpty)

/-- Whether an argument asks for the version; what is written after the letter
does not count. -/
def asksVersion (arg : String) : Bool :=
  match arg.toList with
  | '-' :: 'V' :: _ => true
  | _ => arg == "--version"

/-- The task that arguments spell. -/
def task? : List String → Option Task
  | [] => some .converse
  | ["--"] => some .converse
  | "repl" :: args =>
      let args := if args.head? = some "--no-history" then args.tail else args
      if args = [] ∨ args = ["--"] then some .converse else none
  | "run" :: args => (path? args).map .runFile
  | "eval" :: args => (operand? args).map .evalText
  | "tokens" :: args => (path? args).map .showTokens
  | arg :: _ => if asksVersion arg then some .showVersion else none

/-! ## Tasks -/

/-- What the program finds around it: the bytes of files, or why there are
none, and its standard input. -/
structure Surroundings where
  file : String → Except String (List UInt8)
  input : List UInt8

/-- The text of a file. -/
def Surroundings.source (s : Surroundings) (path : String) :
    Except Failure String :=
  match s.file path with
  | .error reason => .error (.unavailable reason)
  | .ok bytes =>
      match Text.decode? bytes with
      | some text => .ok text
      | none => .error (.unavailable Conversation.undecodable)

/-- How a task went: whether it succeeded, and the reports made. -/
structure Verdict where
  succeeded : Bool
  reports : List String

/-- The verdict on a failure in a named source. -/
def Verdict.failed (source : String) (failure : Failure) : Verdict :=
  ⟨false, [failure.report source]⟩

/-- The verdict on a success. -/
def Verdict.fine : Verdict := ⟨true, []⟩

/-- The version, as it is shown. -/
def versionText : String := "slip 0.1.0\n"

/-- The tokens of a text, one to a line. -/
def tokensText (tokens : List Token.Located) : String :=
  Text.join (tokens.map fun t => t.dump ++ "\n") ""

/-- Performs a task in a session. -/
def perform (fuel : Nat) (e : ScopeId) (s : Surroundings) : Task → Eval Verdict
  | .converse => do
      let reports ← Conversation.hold fuel e (Text.lines s.input)
      return ⟨true, reports⟩
  | .runFile path =>
      match s.source path with
      | .error failure => pure (.failed path failure)
      | .ok source => do
          match ← Session.evalSource fuel e source with
          | .ok _ => return .fine
          | .error failure => return .failed path failure
  | .evalText source => do
      match ← Session.evalSource fuel e source with
      | .ok v =>
          Eval.print (v.text ++ "\n")
          return .fine
      | .error failure => return .failed "<eval>" failure
  | .showTokens path =>
      match s.source path with
      | .error failure => pure (.failed path failure)
      | .ok source =>
          match Token.scan source with
          | .error err => pure (.failed path (.reading err))
          | .ok tokens => do
              Eval.print (tokensText tokens)
              return .fine
  | .showVersion => do
      Eval.print versionText
      return .fine

/-- The exit code of a task. -/
def Verdict.exitCode (v : Verdict) : Nat :=
  if v.succeeded then 0 else 1

/-- The exit code for arguments that spell no task. -/
def usageCode : Nat := 2

/-! ## The process of a task -/

/-- Performs a task in a process. -/
def carryOut (fuel : Nat) (e : ScopeId) (s : Surroundings) :
    Task → Run Verdict
  | .converse => do
      let reports ← Process.hold fuel e (Text.lines s.input)
      return ⟨true, reports⟩
  | .runFile path =>
      match s.source path with
      | .error failure => pure (.failed path failure)
      | .ok source => do
          match ← Process.evalSource fuel e source with
          | .ok x => do
              Run.dropCell x.cell
              return .fine
          | .error failure => return .failed path failure
  | .evalText source => do
      match ← Process.evalSource fuel e source with
      | .ok x => do
          Run.plainly (Eval.print (x.value.text ++ "\n"))
          Run.dropCell x.cell
          return .fine
      | .error failure => return .failed "<eval>" failure
  | task => Run.plainly (perform fuel e s task)

/-- Performs a task in a session of its own, of which the root scope is given
up at the end. -/
def session (fuel : Nat) (s : Surroundings) (task : Task) : Run Verdict := do
  let e ← Process.newRoot
  let verdict ← carryOut fuel e s task
  Run.reporting verdict.reports (Run.drop ⟨.scope, e⟩)
  return verdict

/-- What is seen of a process from outside: its exit code, unless it was
killed, what it has printed, and the reports. -/
structure Exit where
  code : Option Nat
  printed : String
  reports : List String

/-- Performs a task in a process of its own. -/
def launch (fuel room : Nat) (s : Surroundings) (task : Task) : Exit :=
  match session fuel s task (.blank room) with
  | .ok verdict p =>
      ⟨some verdict.exitCode, p.state.console.written, verdict.reports⟩
  | .error (.killed reports) p => ⟨none, p.state.console.written, reports⟩
  | .error (.abort _) p => ⟨none, p.state.console.written, []⟩

end SmallLisp.CommandLine
