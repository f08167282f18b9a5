import SmallLisp.State

/-!
# Special forms by name

Ten symbols at the head of a list mark a special form. They are recognised
before anything is looked up, so binding such a name does not change what the
form does.
-/

namespace SmallLisp

/-- The special forms. -/
inductive SpecialForm where
  | quote
  | branch
  | letForm
  | defForm
  | setForm
  | fnForm
  | begin
  | cond
  | quasiquote
  | eval
deriving DecidableEq, Repr

namespace SpecialForm

/-- The symbol that marks a special form. -/
def name : SpecialForm → String
  | quote => "quote"
  | branch => "if"
  | letForm => "let"
  | defForm => "def"
  | setForm => "set!"
  | fnForm => "fn"
  | begin => "begin"
  | cond => "cond"
  | quasiquote => "quasiquote"
  | eval => "eval"

/-- Every special form. -/
def all : List SpecialForm :=
  [quote, branch, letForm, defForm, setForm, fnForm, begin, cond, quasiquote,
    eval]

/-- The special form that a symbol marks. -/
def ofName? (s : String) : Option SpecialForm :=
  all.find? (·.name == s)

@[simp] theorem ofName?_name (f : SpecialForm) : ofName? f.name = some f := by
  cases f <;> decide

end SpecialForm

namespace Form

/-- Checks the number of operands of a special form. -/
def demand (form : SpecialForm) (arity : Arity) (args : List Value) :
    Eval Unit :=
  .ofAnswer (checkArity form.name arity args.length)

end Form

end SmallLisp
