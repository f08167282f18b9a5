/-!
# Open parentheses

A scan that only counts: opening minus closing parentheses, outside strings
and comments. It knows nothing of tokens and accepts any text, so that a
half-written program can be judged.
-/

namespace SmallLisp.Balance

/-- Where in a program the scan stands. -/
inductive Mode where
  | code
  | string
  | comment
deriving DecidableEq, Repr

/-- The depth after a text, starting from a depth and a mode. -/
def depthFrom (depth : Int) : Mode → List Char → Int
  | _, [] => depth
  | .code, c :: cs =>
      if c = '(' then depthFrom (depth + 1) .code cs
      else if c = ')' then depthFrom (depth - 1) .code cs
      else if c = '"' then depthFrom depth .string cs
      else if c = ';' then depthFrom depth .comment cs
      else depthFrom depth .code cs
  | .string, [_] => depth
  | .string, c :: d :: cs =>
      if c = '\\' then depthFrom depth .string cs
      else if c = '"' then depthFrom depth .code (d :: cs)
      else depthFrom depth .string (d :: cs)
  | .comment, c :: cs =>
      if c = '\n' then depthFrom depth .code cs else depthFrom depth .comment cs

/-- Opening minus closing parentheses, ignoring strings and comments. -/
def ofText (source : String) : Int :=
  depthFrom 0 .code source.toList

end SmallLisp.Balance
