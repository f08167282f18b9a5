import SmallLisp.Text.Blank
import SmallLisp.Token.Balance
import SmallLisp.Value.Reader

/-!
# Gathering lines

Lines are gathered until they make up whole forms: while a parenthesis is
open, or a quote mark has nothing after it, more lines are awaited. Text that
can no longer become right is handed out at once, so that its error is
reported.

Between forms, blank lines are skipped, and a line that starts with a colon is
a command.
-/

namespace SmallLisp

/-- What becomes of the lines gathered so far when one more is added. -/
inductive Gathered where
  | waiting (pending : String)
  | ready (input : String)

/-- Whether a text ends inside a form. -/
def isUnfinished (source : String) : Bool :=
  match Value.read source with
  | .ok _ => false
  | .error e => e.isIncomplete

/-- Adds a line to those that are pending. -/
def gather (pending line : String) : Gathered :=
  let text := pending ++ line ++ "\n"
  let depth := Balance.ofText text
  if 0 < depth then .waiting text
  else if depth = 0 ∧ isUnfinished text = true then .waiting text
  else .ready text

/-- What the user can ask for besides evaluation. -/
inductive Command where
  | quit
  | help
  | clear
  | bindings
  | unknown (text : String)

/-- The command that a line without outer blanks spells. -/
def Command.ofText : String → Command
  | ":quit" => .quit
  | ":q" => .quit
  | ":exit" => .quit
  | ":help" => .help
  | ":h" => .help
  | ":?" => .help
  | ":clear" => .clear
  | ":env" => .bindings
  | text => .unknown text

/-- What a line turns out to be. -/
inductive Reception where
  | skipped
  | command (c : Command)
  | gathered (g : Gathered)

/-- Receives a line, given the lines that are pending. -/
def receive (pending line : String) : Reception :=
  if pending.isEmpty then
    match Text.trimChars line.toList with
    | [] => .skipped
    | ':' :: cs => .command (.ofText (String.ofList (':' :: cs)))
    | _ => .gathered (gather pending line)
  else .gathered (gather pending line)

/-- The inputs that a sequence of lines makes up when commands are passed over,
in order, and the lines that are pending in the end. -/
def inputs (pending : String) : List String → List String × String
  | [] => ([], pending)
  | line :: rest =>
      match receive pending line with
      | .gathered (.ready input) =>
          let (more, left) := inputs "" rest
          (input :: more, left)
      | .gathered (.waiting text) => inputs text rest
      | .skipped => inputs pending rest
      | .command _ => inputs pending rest

end SmallLisp
