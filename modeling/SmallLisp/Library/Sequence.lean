import SmallLisp.Library.Operand
import SmallLisp.Text.Pieces

/-!
# Lists and texts

None of these change their operands: every result is a new value.
-/

namespace SmallLisp.Sequence

/-- A list with an element in front. -/
def cons : List Value → Answer Value
  | [v, w] => (Operand.list w).map fun items => .list (v :: items)
  | _ => .error .fault

/-- A list with elements behind. -/
def conj : List Value → Answer Value
  | v :: more => (Operand.list v).map fun items => .list (items ++ more)
  | [] => .error .fault

/-- Whether a value is a text. -/
def isStr (v : Value) : Bool :=
  v.kind == .str

/-- Texts in a row as one text, or lists in a row as one list; no mixture. -/
def concat (args : List Value) : Answer Value :=
  if !args.isEmpty && args.all isStr then
    (args.mapM Operand.str).map fun texts => .str (Text.join texts "")
  else
    (args.mapM Operand.list).map fun lists => .list lists.flatten

/-- The elements in the opposite order. -/
def reverse : List Value → Answer Value
  | [v] => (Operand.list v).map fun items => .list items.reverse
  | _ => .error .fault

/-- The first element, `nil` if there is none. -/
def first : List Value → Answer Value
  | [v] => (Operand.list v).map fun items => items.head?.getD .nil
  | _ => .error .fault

/-- All elements but the first. -/
def rest : List Value → Answer Value
  | [v] => (Operand.list v).map fun items => .list items.tail
  | _ => .error .fault

/-- The elements before a position. One behind the end is a fault: callers have
checked. -/
def upTo (stop : Nat) (items : List Value) : Answer (List Value) :=
  if stop ≤ items.length then .ok (items.take stop) else .error .fault

/-- All elements but the last. -/
def init : List Value → Answer Value
  | [v] => do
      let items ← Operand.list v
      return .list (← upTo (items.length - 1) items)
  | _ => .error .fault

/-- The last element, `nil` if there is none. -/
def last : List Value → Answer Value
  | [v] => (Operand.list v).map fun items => items.getLast?.getD .nil
  | _ => .error .fault

/-- The element at a position, counted from zero. -/
def nth : List Value → Answer Value
  | [v, w] => do
      let items ← Operand.list v
      let index ← Operand.int w
      let found := if index < 0 then none else items[index.toInt.toNat]?
      match found with
      | some item => return item
      | none => fail (.outOfBounds index items.length)
  | _ => .error .fault

/-- The number of elements or characters. -/
def len : List Value → Answer Value
  | [v] => .ok (.int (Int64.ofNat v.length))
  | _ => .error .fault

/-! ## Ranges -/

/-- Whether `n` comes before `stop` in the direction of `step`. -/
def isBefore (n stop step : Int64) : Bool :=
  (0 < step && n < stop) || (step < 0 && stop < n)

/-- The sum, if it fits. -/
def addWithin? (n step : Int64) : Option Int64 :=
  Integer.narrow? (n.toInt + step.toInt)

/-- How far `n` is before `stop` in the direction of `step`. -/
def distance (n stop step : Int64) : Nat :=
  if 0 < step then (stop.toInt - n.toInt).toNat
  else (n.toInt - stop.toInt).toNat

theorem toInt_of_addWithin? {n step next : Int64}
    (h : addWithin? n step = some next) :
    next.toInt = n.toInt + step.toInt := by
  unfold addWithin? Integer.narrow? at h
  split at h
  · next hr =>
      injection h with h
      rw [← h, Int64.toInt_ofInt_of_le (by omega) (by omega)]
  · contradiction

theorem distance_lt {n stop step next : Int64}
    (hb : isBefore n stop step = true) (h : addWithin? n step = some next) :
    distance next stop step < distance n stop step := by
  have hnext := toInt_of_addWithin? h
  simp only [isBefore, Bool.or_eq_true, Bool.and_eq_true, decide_eq_true_eq,
    Int64.lt_iff_toInt_lt, Int64.toInt_zero] at hb
  simp only [distance, Int64.lt_iff_toInt_lt, Int64.toInt_zero]
  split <;> omega

/-- The integers from `n` on, `step` apart, that come before `stop`, after
those of `found`. -/
def rangeFrom (found : List Value) (n stop step : Int64) : List Value :=
  if _hb : isBefore n stop step = true then
    match _h : addWithin? n step with
    | some next => rangeFrom (.int n :: found) next stop step
    | none => (.int n :: found).reverse
  else found.reverse
termination_by distance n stop step
decreasing_by exact distance_lt _hb _h

/-- Start, stop and step: a single bound is the stop, and the step comes
last. -/
def rangeBounds? : List Int64 → Option (Int64 × Int64 × Int64)
  | [stop] => some (0, stop, 1)
  | [start, stop] => some (start, stop, 1)
  | [start, stop, step] => some (start, stop, step)
  | _ => none

/-- The integers from a start, zero if not given, up to a stop by a step, one
if not given. -/
def range (args : List Value) : Answer Value := do
  match rangeBounds? (← Operand.ints args) with
  | some (start, stop, step) =>
      if step = 0 then fail .zeroStep
      else return .list (rangeFrom [] start stop step)
  | none => fail (.arity Builtin.range.name (.exactly 3) args.length)

/-! ## Cutting and joining -/

/-- The pieces of a text between separators. -/
def split : List Value → Answer Value
  | [v, w] => do
      let text ← Operand.str v
      let sep ← Operand.str w
      return .list ((Text.split text sep).map .str)
  | _ => .error .fault

/-- The raw forms of the elements with a separator between neighbours. -/
def join : List Value → Answer Value
  | [v, w] => do
      let items ← Operand.list v
      let sep ← Operand.str w
      return .str (Text.join (items.map Value.raw) sep)
  | _ => .error .fault

end SmallLisp.Sequence
