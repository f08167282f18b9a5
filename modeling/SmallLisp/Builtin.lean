/-!
# The builtin functions

The library of the language is a fixed set of functions, each with the name it
is registered under and the numbers of operands it accepts. What they compute
is the business of the `Library` modules; here they are only names, so that a
value can refer to one and two of them can be told apart.
-/

namespace SmallLisp

/-- The numbers of operands that a function accepts. -/
inductive Arity where
  | exactly (n : Nat)
  | atLeast (n : Nat)
deriving DecidableEq, Repr

/-- Whether a number of operands is accepted. -/
def Arity.accepts : Arity → Nat → Bool
  | exactly n, got => got == n
  | atLeast n, got => n ≤ got

/-- A builtin function. -/
inductive Builtin where
  | add | sub | mul | div
  | intAdd | intSub | intMul | intDiv | intRem
  | abs | min | max
  | less | greater | lessEq | greaterEq | equal | notEqual
  | not | and | or
  | toInt | toFloat | toStr
  | list | cons | conj | concat | reverse
  | first | head | rest | tail | init | last
  | nth | len | range | split | join
  | apply | map | filter | reduce
  | isNil | isBool | isInt | isFloat | isNumber | isStr | isSymbol | isList
  | isAtom | isFn | isEmpty | isTrue
  | error | typeOf | print | println
deriving DecidableEq, Repr

namespace Builtin

/-- The name that a builtin is registered under. -/
def name : Builtin → String
  | add => "+" | sub => "-" | mul => "*" | div => "/"
  | intAdd => "int+" | intSub => "int-" | intMul => "int*"
  | intDiv => "int/" | intRem => "int%"
  | abs => "abs" | min => "min" | max => "max"
  | less => "<" | greater => ">" | lessEq => "<=" | greaterEq => ">="
  | equal => "=" | notEqual => "!="
  | not => "not" | and => "and" | or => "or"
  | toInt => "int" | toFloat => "float" | toStr => "str"
  | list => "list" | cons => "cons" | conj => "conj" | concat => "concat"
  | reverse => "reverse"
  | first => "first" | head => "head" | rest => "rest" | tail => "tail"
  | init => "init" | last => "last"
  | nth => "nth" | len => "len" | range => "range"
  | split => "split" | join => "join"
  | apply => "apply" | map => "map" | filter => "filter" | reduce => "reduce"
  | isNil => "nil?" | isBool => "bool?" | isInt => "int?" | isFloat => "float?"
  | isNumber => "number?" | isStr => "str?"
  | isSymbol => "symbol?" | isList => "list?"
  | isAtom => "atom?" | isFn => "fn?" | isEmpty => "empty?" | isTrue => "true?"
  | error => "error" | typeOf => "type-of"
  | print => "print" | println => "println"

/-- The numbers of operands that a builtin accepts. -/
def arity : Builtin → Arity
  | add | sub | mul | div | intAdd | intSub | intMul | intDiv => .atLeast 1
  | intRem => .exactly 2
  | abs => .exactly 1
  | min | max => .atLeast 1
  | less | greater | lessEq | greaterEq | equal => .atLeast 2
  | notEqual => .exactly 2
  | not => .exactly 1
  | and | or => .atLeast 0
  | toInt | toFloat | toStr => .atLeast 1
  | list => .atLeast 0
  | cons => .exactly 2
  | conj => .atLeast 1
  | concat => .atLeast 0
  | reverse | first | head | rest | tail | init | last => .exactly 1
  | nth => .exactly 2
  | len => .exactly 1
  | range => .atLeast 1
  | split | join | apply | map | filter => .exactly 2
  | reduce => .exactly 3
  | isNil | isBool | isInt | isFloat | isNumber | isStr | isSymbol | isList
  | isAtom | isFn | isEmpty | isTrue => .exactly 1
  | error | typeOf => .exactly 1
  | print | println => .atLeast 0

/-- Every builtin, in the order of registration. -/
def all : List Builtin :=
  [add, sub, mul, div, intAdd, intSub, intMul, intDiv, intRem, abs, min, max,
    less, greater, lessEq, greaterEq, equal, notEqual, not, and, or,
    toInt, toFloat, toStr,
    list, cons, conj, concat, reverse, first, head, rest, tail, init, last,
    nth, len, range, split, join, apply, map, filter, reduce,
    isNil, isBool, isInt, isFloat, isNumber, isStr, isSymbol, isList, isAtom,
    isFn, isEmpty, isTrue, error, typeOf, print, println]

theorem mem_all (b : Builtin) : b ∈ all := by
  cases b <;> decide

end Builtin

end SmallLisp
