import SmallLisp.Library
import SmallLisp.Process

/-!
# What the builtins do with the memory

A builtin leaves its operands as they are. What it answers is a new list of
values that are kept already, or one such value, or it is made anew. A
function that is called takes its operands over.
-/

namespace SmallLisp.Process

/-- How to call a function value on operands that it takes over. -/
abbrev Caller := Placed → List Placed → Run Placed

/-- Calls `f` on the elements of a list. -/
def applyList (call : Caller) : List Placed → Run Placed
  | [f, x] => do
      let _ ← Run.plainly (.ofAnswer (Operand.callable f.value))
      let items ← Run.plainly (.ofAnswer (Operand.list x.value))
      let items ← Run.parts items x.cell
      Run.copyAll (Placed.refs items)
      call f items
  | _ => Run.fault

/-- Calls `f` on each item and collects the results behind those of `found`,
in reverse. -/
def mapItems (call : Caller) (f : Placed) (found : List Placed) :
    List Placed → Run (List Placed)
  | [] => pure found.reverse
  | item :: items => do
      Run.copyCell item.cell
      let x ← call f [item]
      mapItems call f (x :: found) items

/-- Calls `f` on each item and keeps, behind those of `found`, the items it
finds true. -/
def filterItems (call : Caller) (f : Placed) (found : List Placed) :
    List Placed → Run (List Placed)
  | [] => pure found.reverse
  | item :: items => do
      Run.copyCell item.cell
      let x ← call f [item]
      Run.dropCell x.cell
      if x.value.isTruthy then
        Run.copyCell item.cell
        filterItems call f (item :: found) items
      else filterItems call f found items

/-- Calls `f` on what has been gathered and each item in turn. -/
def reduceItems (call : Caller) (f gathered : Placed) :
    List Placed → Run Placed
  | [] => pure gathered
  | item :: items => do
      Run.copyCell item.cell
      let x ← call f [gathered, item]
      reduceItems call f x items

def map (call : Caller) : List Placed → Run Placed
  | [f, x] => do
      let _ ← Run.plainly (.ofAnswer (Operand.callable f.value))
      let items ← Run.plainly (.ofAnswer (Operand.list x.value))
      let items ← Run.parts items x.cell
      Run.gather (← mapItems call f [] items)
  | _ => Run.fault

def filter (call : Caller) : List Placed → Run Placed
  | [f, x] => do
      let _ ← Run.plainly (.ofAnswer (Operand.callable f.value))
      let items ← Run.plainly (.ofAnswer (Operand.list x.value))
      let items ← Run.parts items x.cell
      Run.gather (← filterItems call f [] items)
  | _ => Run.fault

def reduce (call : Caller) : List Placed → Run Placed
  | [f, x, y] => do
      let _ ← Run.plainly (.ofAnswer (Operand.callable f.value))
      let items ← Run.plainly (.ofAnswer (Operand.list y.value))
      let items ← Run.parts items y.cell
      Run.copyCell x.cell
      reduceItems call f x items
  | _ => Run.fault

/-- Where the answer of a builtin comes from. -/
inductive Origin where
  | list (cells : List Cell)
  | cell (c : Cell)
  | new

/-- What a builtin puts its answer together from. -/
def origin (m : Memory) : Builtin → List Placed → Origin
  | .list, xs => .list (Placed.cells xs)
  | .cons, [x, y] => .list (x.cell :: m.cells y.cell)
  | .conj, x :: xs => .list (m.cells x.cell ++ Placed.cells xs)
  | .concat, xs =>
      if !xs.isEmpty && (Placed.values xs).all Sequence.isStr then .new
      else .list (xs.flatMap fun x => m.cells x.cell)
  | .reverse, [x] => .list (m.cells x.cell).reverse
  | .first, [x] => .cell ((m.cells x.cell).head?.getD (.plain .nil))
  | .head, [x] => .cell ((m.cells x.cell).head?.getD (.plain .nil))
  | .rest, [x] => .list (m.cells x.cell).tail
  | .tail, [x] => .list (m.cells x.cell).tail
  | .init, [x] =>
      .list ((m.cells x.cell).take ((m.cells x.cell).length - 1))
  | .last, [x] => .cell ((m.cells x.cell).getLast?.getD (.plain .nil))
  | .nth, [x, y] =>
      match y.value with
      | .int n =>
          .cell ((m.cells x.cell)[n.toInt.toNat]?.getD (.plain .nil))
      | _ => .new
  | _, _ => .new

/-- Keeps an answer. -/
def settle (v : Value) : Origin → Run Placed
  | .list cells => do
      Run.copyAll (Cell.refs cells)
      let id ← Run.make (.list cells)
      return ⟨v, .list id⟩
  | .cell c => do
      Run.copyCell c
      return ⟨v, c⟩
  | .new => do
      let c ← Run.load v
      return ⟨v, c⟩

/-- What a builtin would call, if it were one of those that call. -/
def noCall : Library.Caller := fun _ _ => throw .fault

/-- Applies a builtin to operands that its arity accepts. -/
def runBuiltin (call : Caller) (b : Builtin) (xs : List Placed) : Run Placed :=
  match b with
  | .apply => applyList call xs
  | .map => map call xs
  | .filter => filter call xs
  | .reduce => reduce call xs
  | b => do
      let v ← Run.plainly (Library.run noCall b (Placed.values xs))
      settle v (← Run.look fun m => origin m b xs)

/-- Applies a builtin, checking the number of operands first. -/
def applyBuiltin (call : Caller) (b : Builtin) (xs : List Placed) :
    Run Placed := do
  Run.plainly (.ofAnswer (checkArity b.name b.arity xs.length))
  runBuiltin call b xs

end SmallLisp.Process
