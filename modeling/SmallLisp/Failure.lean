import SmallLisp.Failure.Reading
import SmallLisp.Failure.Running

/-!
# Failures of a whole text

Working through a text can fail while reading it, while running it, or because
the text could not be had in the first place. A failure has a description,
which stands for itself, and a report, which is what the user sees and may
name the file.
-/

namespace SmallLisp

/-- Why a text was not worked through to its end. -/
inductive Failure where
  | reading (e : ReadError)
  | running (e : EvalError)
  | unavailable (reason : String)

namespace Failure

/-- The description of a failure. -/
def describe : Failure → String
  | reading e => e.describe
  | running e => e.describe
  | unavailable reason => "IO error: " ++ reason

/-- The heading of the report on a failure in a named source. -/
def report (source : String) : Failure → String
  | reading e => "Error: " ++ e.stage.label ++ " error"
  | running e => e.describe
  | unavailable reason => "Error: IO error: " ++ source ++ ": " ++ reason

end Failure

end SmallLisp
