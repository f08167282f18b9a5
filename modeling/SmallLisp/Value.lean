import SmallLisp.Builtin
import SmallLisp.Number.Integer
import SmallLisp.QuoteMark

/-!
# Values

Programs and data are the same thing: what the reader produces and the
evaluator computes with are values of one type. A function value is a builtin
or a lambda; a lambda refers to its defining scope by number, the scopes
themselves being kept in a store, and carries a number of its own, by which
two lambdas with the same text are told apart.
-/

namespace SmallLisp

/-- The number of a scope in the store. -/
abbrev ScopeId := Nat

/-- A function written in the language, with the scope it was made in. -/
structure Lambda (Code : Type) where
  id : Nat
  name : Option String
  params : List String
  body : List Code
  scope : ScopeId

/-- A value of the language. -/
inductive Value where
  | nil
  | bool (b : Bool)
  | int (n : Int64)
  | float (x : Float)
  | str (s : String)
  | symbol (name : String)
  | list (items : List Value)
  | builtin (b : Builtin)
  | lambda (f : Lambda Value)

instance : Inhabited Value := ⟨.nil⟩

/-- The kinds of values that programs can tell apart. -/
inductive Kind where
  | nil
  | bool
  | int
  | float
  | str
  | symbol
  | list
  | fn
deriving DecidableEq, Repr

/-- The name of a kind, as programs and messages spell it. -/
def Kind.name : Kind → String
  | nil => "nil"
  | bool => "bool"
  | int => "int"
  | float => "float"
  | str => "str"
  | symbol => "symbol"
  | list => "list"
  | fn => "fn"

namespace Lambda

/-- What messages call a lambda. -/
def calledName {Code : Type} (f : Lambda Code) : String :=
  f.name.getD "lambda"

end Lambda

namespace Value

/-- The kind of a value. -/
def kind : Value → Kind
  | nil => .nil
  | bool _ => .bool
  | int _ => .int
  | float _ => .float
  | str _ => .str
  | symbol _ => .symbol
  | list _ => .list
  | builtin _ => .fn
  | lambda _ => .fn

/-- Everything but `nil` and `false` counts as true. -/
def isTruthy : Value → Bool
  | nil => false
  | bool b => b
  | _ => true

/-- Whether a value is an integer or a float. -/
def isNumber (v : Value) : Bool :=
  v.kind == .int || v.kind == .float

/-- Whether a value can be applied. -/
def isCallable (v : Value) : Bool :=
  v.kind == .fn

/-- The number of elements of a list or characters of a text, zero for all
else. -/
def length : Value → Nat
  | list items => items.length
  | str s => s.length
  | _ => 0

/-- The two-element list that a quote mark before a value abbreviates. -/
def tagged (m : QuoteMark) (v : Value) : Value :=
  list [symbol m.name, v]

mutual

/-- Structural equality. Integers and floats are never equal here, a value
that is no number is unequal to itself, and functions are equal only to
themselves. -/
def same : Value → Value → Bool
  | nil, nil => true
  | bool a, bool b => a == b
  | int a, int b => a == b
  | float a, float b => a == b
  | str a, str b => a == b
  | symbol a, symbol b => a == b
  | list as, list bs => sameAll as bs
  | builtin a, builtin b => a == b
  | lambda f, lambda g => f.id == g.id
  | _, _ => false

/-- Equality of lists, element by element. -/
def sameAll : List Value → List Value → Bool
  | [], [] => true
  | a :: as, b :: bs => same a b && sameAll as bs
  | _, _ => false

end

instance : BEq Value := ⟨same⟩

end Value

end SmallLisp
