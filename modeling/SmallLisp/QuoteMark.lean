/-!
# Quote marks

A mark before a datum abbreviates a list of two elements, a symbol and the
datum. The reader expands the marks, and quasiquotation looks for the lists.
-/

namespace SmallLisp

/-- The four marks that stand in front of a datum and abbreviate a two-element
list. -/
inductive QuoteMark where
  | quote
  | quasiquote
  | unquote
  | splice
deriving DecidableEq, Repr

namespace QuoteMark

/-- The symbol at the head of the list that the mark abbreviates. -/
def name : QuoteMark → String
  | quote => "quote"
  | quasiquote => "quasiquote"
  | unquote => "unquote"
  | splice => "unquote-splicing"

/-- The mark as it is written. -/
def sign : QuoteMark → String
  | quote => "'"
  | quasiquote => "`"
  | unquote => ","
  | splice => ",@"

/-- The kind shown in a dump. -/
def label : QuoteMark → String
  | quote => "Quote"
  | quasiquote => "Quasiquote"
  | unquote => "Unquote"
  | splice => "UnquoteSplicing"

/-- The mark with a given name. -/
def ofName? (s : String) : Option QuoteMark :=
  [quote, quasiquote, unquote, splice].find? (·.name == s)

@[simp] theorem ofName?_name (m : QuoteMark) : ofName? m.name = some m := by
  cases m <;> decide

end QuoteMark

end SmallLisp
