import SmallLisp.Eval.Step
import SmallLisp.QuoteMark

/-!
# Filling in templates

Quasiquotation copies a template, except where it is unquoted. Templates nest:
a quasiquotation inside a template takes one more unquoting to get out of.
-/

namespace SmallLisp.Form

/-- A two-element list that starts with the name of a quote mark, with its
second element. -/
def tagged? : List Value → Option (QuoteMark × Value)
  | [.symbol name, x] => (QuoteMark.ofName? name).map (·, x)
  | _ => none

/-- The operand of a splice. -/
def spliced? : Value → Option Value
  | .list items =>
      match tagged? items with
      | some (.splice, x) => some x
      | _ => none
  | _ => none

/-- The depth outside an unquotation. There is none outside depth zero, and
asking for it is a fault: callers have checked. -/
def lower : Nat → Answer Nat
  | 0 => .error .fault
  | depth + 1 => .ok depth

mutual

/-- Copies a template. At depth zero an unquoted operand is evaluated in its
place, and an unquoted operand that is to be spliced into a list puts its
elements there. Quasiquotation inside the template raises the depth of what it
holds, and unquoting lowers it again. -/
def template (ev : Evaluator) (e : ScopeId) (depth : Nat) : Value → Eval Value
  | .list items =>
      match tagged? items with
      | some (.unquote, x) =>
          if depth = 0 then ev.eval x e
          else do
            let depth ← Eval.ofAnswer (lower depth)
            return .list (← copies ev e depth [] items)
      | some (.splice, _) =>
          if depth = 0 then Eval.raise .spliceOutsideList
          else do
            let depth ← Eval.ofAnswer (lower depth)
            return .list (← copies ev e depth [] items)
      | some (.quasiquote, _) =>
          return .list (← copies ev e (depth + 1) [] items)
      | _ => return .list (← elements ev e depth [] items)
  | v => pure v

/-- Copies the elements of a tagged list, behind those of `found`, which are in
reverse. -/
def copies (ev : Evaluator) (e : ScopeId) (depth : Nat) (found : List Value) :
    List Value → Eval (List Value)
  | [] => pure found.reverse
  | v :: vs => do
      let w ← template ev e depth v
      copies ev e depth (w :: found) vs

/-- Copies the elements of a plain list, behind those of `found`, splicing at
depth zero. -/
def elements (ev : Evaluator) (e : ScopeId) (depth : Nat) (found : List Value) :
    List Value → Eval (List Value)
  | [] => pure found.reverse
  | v :: vs =>
      match spliced? v, depth with
      | some x, 0 => do
          let items ← Eval.ofAnswer (Operand.list (← ev.eval x e))
          elements ev e depth (items.reverseAux found) vs
      | _, _ => do
          let w ← template ev e depth v
          elements ev e depth (w :: found) vs

end

end SmallLisp.Form
