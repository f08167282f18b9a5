import SmallLisp.Eval

/-!
# More fuel

Fuel makes evaluation total, and it should not be heard of anywhere else.
What is needed for that is an order: one computation extends another if it
ends the same way wherever the other ends for any reason but the lack of
fuel. Everything that is built from computations respects the order, since
nothing looks at a computation that was cut short. The builtins that call
what they are given are the first example.
-/

namespace SmallLisp

/-- A run that ended for lack of fuel. -/
def Cut {α : Type} : EStateM.Result Abort State α → Prop
  | .error .outOfFuel _ => True
  | _ => False

namespace Eval

variable {α β : Type}

theorem bind_ok {m : Eval α} {k : α → Eval β} {st st' : State} {a : α}
    (h : m st = .ok a st') : (m >>= k) st = k a st' := by
  show EStateM.bind m k st = _
  rw [EStateM.bind, h]

theorem bind_error {m : Eval α} {k : α → Eval β} {st st' : State} {a : Abort}
    (h : m st = .error a st') : (m >>= k) st = .error a st' := by
  show EStateM.bind m k st = _
  rw [EStateM.bind, h]

/-- Wherever `m` ends for a reason of its own, `m'` ends the same way. -/
def Extends (m m' : Eval α) : Prop :=
  ∀ st, Cut (m st) ∨ m' st = m st

theorem extends_refl (m : Eval α) : Extends m m :=
  fun _ => .inr rfl

theorem extends_outOfFuel (m : Eval α) : Extends (throw .outOfFuel) m :=
  fun _ => .inl trivial

theorem Extends.bind {m m' : Eval α} {k k' : α → Eval β} (h : Extends m m')
    (hk : ∀ a, Extends (k a) (k' a)) : Extends (m >>= k) (m' >>= k') := by
  intro st
  cases hm : m st with
  | ok a st' =>
      rcases h st with hcut | heq
      · rw [hm] at hcut
        cases hcut
      · rw [bind_ok hm, bind_ok (heq.trans hm)]
        exact hk a st'
  | error a st' =>
      rcases h st with hcut | heq
      · rw [bind_error hm]
        rw [hm] at hcut
        cases a with
        | outOfFuel => exact .inl trivial
        | failed _ | fault => cases hcut
      · exact .inr (by rw [bind_error hm, bind_error (heq.trans hm)])

theorem extends_bind {m : Eval α} {k k' : α → Eval β}
    (hk : ∀ a, Extends (k a) (k' a)) : Extends (m >>= k) (m >>= k') :=
  (extends_refl m).bind hk

end Eval

open Eval (Extends extends_refl extends_bind)

/-! ## Builtins that call -/

namespace Library

variable {c c' : Caller} (h : ∀ f args, Extends (c f args) (c' f args))

include h

theorem mapItems_mono (f : Value) (found items : List Value) :
    Extends (mapItems c f found items) (mapItems c' f found items) := by
  induction items generalizing found with
  | nil => exact extends_refl _
  | cons item items ih => exact (h f [item]).bind fun v => ih (v :: found)

theorem filterItems_mono (f : Value) (found items : List Value) :
    Extends (filterItems c f found items) (filterItems c' f found items) := by
  induction items generalizing found with
  | nil => exact extends_refl _
  | cons item items ih => exact (h f [item]).bind fun v => ih _

theorem reduceItems_mono (f gathered : Value) (items : List Value) :
    Extends (reduceItems c f gathered items)
      (reduceItems c' f gathered items) := by
  induction items generalizing gathered with
  | nil => exact extends_refl _
  | cons item items ih => exact (h f [gathered, item]).bind fun v => ih v

theorem applyList_mono (args : List Value) :
    Extends (applyList c args) (applyList c' args) := by
  unfold applyList
  split
  · exact extends_bind fun f => extends_bind fun items => h f items
  · exact extends_refl _

theorem map_mono (args : List Value) :
    Extends (map c args) (map c' args) := by
  unfold map
  split
  · exact extends_bind fun f => extends_bind fun items =>
      (mapItems_mono h f [] items).bind fun _ => extends_refl _
  · exact extends_refl _

theorem filter_mono (args : List Value) :
    Extends (filter c args) (filter c' args) := by
  unfold filter
  split
  · exact extends_bind fun f => extends_bind fun items =>
      (filterItems_mono h f [] items).bind fun _ => extends_refl _
  · exact extends_refl _

theorem reduce_mono (args : List Value) :
    Extends (reduce c args) (reduce c' args) := by
  unfold reduce
  split
  · next v _ =>
      exact extends_bind fun f => extends_bind fun items =>
        reduceItems_mono h f v items
  · exact extends_refl _

theorem apply_mono (b : Builtin) (args : List Value) :
    Extends (apply c b args) (apply c' b args) := by
  refine extends_bind fun _ => ?_
  -- All other builtins do not mention how to call.
  cases b
  case apply => exact applyList_mono h args
  case map => exact map_mono h args
  case filter => exact filter_mono h args
  case reduce => exact reduce_mono h args
  all_goals exact extends_refl _

end Library

end SmallLisp
