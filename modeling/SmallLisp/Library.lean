import SmallLisp.Library.Arithmetic
import SmallLisp.Library.Comparison
import SmallLisp.Library.Conversion
import SmallLisp.Library.Inspection
import SmallLisp.Library.Sequence
import SmallLisp.State

/-!
# What the builtins do

Most builtins compute an answer from their operands alone. Two print, and four
call a function they are given; how a function is called is a parameter here,
so that the library can be understood before the evaluator.

Calls are made one after the other, from the left, and the first that ends
without a value ends the whole.
-/

namespace SmallLisp.Library

/-- How to call a function value on operands. -/
abbrev Caller := Value → List Value → Eval Value

/-- Calls `f` on the elements of a list. -/
def applyList (call : Caller) : List Value → Eval Value
  | [f, v] => do
      let f ← Eval.ofAnswer (Operand.callable f)
      let items ← Eval.ofAnswer (Operand.list v)
      call f items
  | _ => throw .fault

/-- Calls `f` on each item and collects the results behind those of `found`, in
reverse. -/
def mapItems (call : Caller) (f : Value) (found : List Value) :
    List Value → Eval (List Value)
  | [] => pure found.reverse
  | item :: items => do
      let v ← call f [item]
      mapItems call f (v :: found) items

/-- Calls `f` on each item and keeps, behind those of `found`, the items it
finds true. -/
def filterItems (call : Caller) (f : Value) (found : List Value) :
    List Value → Eval (List Value)
  | [] => pure found.reverse
  | item :: items => do
      let v ← call f [item]
      filterItems call f (if v.isTruthy then item :: found else found) items

/-- Calls `f` on what has been gathered and each item in turn. -/
def reduceItems (call : Caller) (f : Value) (gathered : Value) :
    List Value → Eval Value
  | [] => pure gathered
  | item :: items => do
      let v ← call f [gathered, item]
      reduceItems call f v items

/-- The results of `f` on the elements of a list. -/
def map (call : Caller) : List Value → Eval Value
  | [f, v] => do
      let f ← Eval.ofAnswer (Operand.callable f)
      let items ← Eval.ofAnswer (Operand.list v)
      return .list (← mapItems call f [] items)
  | _ => throw .fault

/-- The elements of a list that `f` finds true. -/
def filter (call : Caller) : List Value → Eval Value
  | [f, v] => do
      let f ← Eval.ofAnswer (Operand.callable f)
      let items ← Eval.ofAnswer (Operand.list v)
      return .list (← filterItems call f [] items)
  | _ => throw .fault

/-- The elements of a list gathered by `f`, from the left. -/
def reduce (call : Caller) : List Value → Eval Value
  | [f, v, w] => do
      let f ← Eval.ofAnswer (Operand.callable f)
      let items ← Eval.ofAnswer (Operand.list w)
      reduceItems call f v items
  | _ => throw .fault

/-- Prints the raw forms of the operands with spaces between, and `ending`
behind. -/
def printAll (ending : String) (args : List Value) : Eval Value := do
  Eval.print (Text.join (args.map Value.raw) " " ++ ending)
  return .nil

/-- Applies a builtin to operands that its arity accepts. -/
def run (call : Caller) (b : Builtin) (args : List Value) : Eval Value :=
  match b with
  | .add => .ofAnswer (Arithmetic.add args)
  | .sub => .ofAnswer (Arithmetic.sub args)
  | .mul => .ofAnswer (Arithmetic.mul args)
  | .div => .ofAnswer (Arithmetic.div args)
  | .intAdd => .ofAnswer (Arithmetic.intAdd args)
  | .intSub => .ofAnswer (Arithmetic.intSub args)
  | .intMul => .ofAnswer (Arithmetic.intMul args)
  | .intDiv => .ofAnswer (Arithmetic.intDiv args)
  | .intRem => .ofAnswer (Arithmetic.intRem args)
  | .abs => .ofAnswer (Arithmetic.abs args)
  | .min => .ofAnswer (Arithmetic.min args)
  | .max => .ofAnswer (Arithmetic.max args)
  | .less => .ofAnswer (Comparison.chain Ordering.isLT args)
  | .greater => .ofAnswer (Comparison.chain Ordering.isGT args)
  | .lessEq => .ofAnswer (Comparison.chain Ordering.isLE args)
  | .greaterEq => .ofAnswer (Comparison.chain Ordering.isGE args)
  | .equal => pure (.bool (Comparison.allEqual args))
  | .notEqual => .ofAnswer (Comparison.notEqual args)
  | .not => .ofAnswer (Comparison.not args)
  | .and => pure (.bool (args.all Value.isTruthy))
  | .or => pure (.bool (args.any Value.isTruthy))
  | .toInt => .ofAnswer (Conversion.each Conversion.toInt args)
  | .toFloat => .ofAnswer (Conversion.each Conversion.toFloat args)
  | .toStr => .ofAnswer (Conversion.each Conversion.toStr args)
  | .list => pure (.list args)
  | .cons => .ofAnswer (Sequence.cons args)
  | .conj => .ofAnswer (Sequence.conj args)
  | .concat => .ofAnswer (Sequence.concat args)
  | .reverse => .ofAnswer (Sequence.reverse args)
  | .first => .ofAnswer (Sequence.first args)
  | .head => .ofAnswer (Sequence.first args)
  | .rest => .ofAnswer (Sequence.rest args)
  | .tail => .ofAnswer (Sequence.rest args)
  | .init => .ofAnswer (Sequence.init args)
  | .last => .ofAnswer (Sequence.last args)
  | .nth => .ofAnswer (Sequence.nth args)
  | .len => .ofAnswer (Sequence.len args)
  | .range => .ofAnswer (Sequence.range args)
  | .split => .ofAnswer (Sequence.split args)
  | .join => .ofAnswer (Sequence.join args)
  | .apply => applyList call args
  | .map => map call args
  | .filter => filter call args
  | .reduce => reduce call args
  | .isNil => .ofAnswer (Inspection.ask (Inspection.isKind .nil) args)
  | .isBool => .ofAnswer (Inspection.ask (Inspection.isKind .bool) args)
  | .isInt => .ofAnswer (Inspection.ask (Inspection.isKind .int) args)
  | .isFloat => .ofAnswer (Inspection.ask (Inspection.isKind .float) args)
  | .isNumber => .ofAnswer (Inspection.ask Value.isNumber args)
  | .isStr => .ofAnswer (Inspection.ask (Inspection.isKind .str) args)
  | .isSymbol => .ofAnswer (Inspection.ask (Inspection.isKind .symbol) args)
  | .isList => .ofAnswer (Inspection.ask (Inspection.isKind .list) args)
  | .isAtom =>
      .ofAnswer (Inspection.ask (fun v => !Inspection.isKind .list v) args)
  | .isFn => .ofAnswer (Inspection.ask (Inspection.isKind .fn) args)
  | .isEmpty => .ofAnswer (Inspection.ask Inspection.isEmpty args)
  | .isTrue => .ofAnswer (Inspection.ask Value.isTruthy args)
  | .error => .ofAnswer (Inspection.raise args)
  | .typeOf => .ofAnswer (Inspection.typeOf args)
  | .print => printAll "" args
  | .println => printAll "\n" args

/-- Applies a builtin, checking the number of operands first. -/
def apply (call : Caller) (b : Builtin) (args : List Value) : Eval Value := do
  Eval.ofAnswer (checkArity b.name b.arity args.length)
  run call b args

end SmallLisp.Library
