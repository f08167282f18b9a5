import SmallLisp.Eval.Function
import SmallLisp.Proofs.Contents

/-!
# The checks are enough

A builtin takes its operands apart by position, cuts lists and divides
without looking back. What it cannot deal with is a fault, and what keeps
a fault from happening is a check that was made before: of the number of
operands, of a length, of a divisor. The checks and the uses stand apart,
the numbers of operands in one table and the positions in some sixty
functions, so that they fit is a fact about each builtin.

The facts are of one form. Operands that the arity of the builtin accepts
have the shape its function matches on, and then every answer is a value
or an error of the program. `Faultless` says the second, and it goes
through sequencing, so that each builtin is a few steps.
-/

namespace SmallLisp

/-! ## Shapes of operands -/

section Shapes

variable {α : Type} {args : List α}

theorem length_of_exactly {n : Nat}
    (h : (Arity.exactly n).accepts args.length = true) :
    args.length = n := by
  simpa [Arity.accepts] using h

theorem exists_of_exactly_one
    (h : (Arity.exactly 1).accepts args.length = true) :
    ∃ v, args = [v] :=
  List.length_eq_one_iff.1 (length_of_exactly h)

theorem exists_of_exactly_two
    (h : (Arity.exactly 2).accepts args.length = true) :
    ∃ v w, args = [v, w] := by
  match args, length_of_exactly h with
  | [v, w], _ => exact ⟨v, w, rfl⟩

theorem exists_of_exactly_three
    (h : (Arity.exactly 3).accepts args.length = true) :
    ∃ u v w, args = [u, v, w] := by
  match args, length_of_exactly h with
  | [u, v, w], _ => exact ⟨u, v, w, rfl⟩

theorem exists_of_atLeast {n : Nat}
    (h : (Arity.atLeast (n + 1)).accepts args.length = true) :
    ∃ v more, args = v :: more := by
  cases args with
  | nil => simp [Arity.accepts] at h
  | cons v more => exact ⟨v, more, rfl⟩

end Shapes

/-! ## Answers -/

/-- The operation met nothing that a check should have ruled out. -/
def Faultless {α : Type} (a : Answer α) : Prop :=
  a ≠ .error .fault

section Answers

variable {α β : Type}

theorem faultless_ok {b : β} : Faultless (.ok b) := by
  intro h
  cases h

theorem faultless_fail {e : EvalError} : Faultless (fail e : Answer β) := by
  intro h
  cases h

theorem Faultless.bind {a : Answer α} {f : α → Answer β} (h : Faultless a)
    (hf : ∀ x, Faultless (f x)) : Faultless (a >>= f) := by
  cases a with
  | error e =>
      intro hr
      cases hr
      exact h rfl
  | ok x => exact hf x

theorem Faultless.map {a : Answer α} {f : α → β} (h : Faultless a) :
    Faultless (a.map f) := by
  cases a with
  | error e =>
      intro hr
      cases hr
      exact h rfl
  | ok x => exact faultless_ok

theorem faultless_mapM {f : α → Answer β} (h : ∀ x, Faultless (f x))
    (xs : List α) : Faultless (xs.mapM f) := by
  induction xs with
  | nil =>
      rw [List.mapM_nil]
      exact faultless_ok
  | cons x xs ih =>
      rw [List.mapM_cons]
      exact (h x).bind fun y => ih.bind fun ys => faultless_ok

end Answers

/-! ## Operands -/

theorem faultless_operandInt (v : Value) : Faultless (Operand.int v) := by
  unfold Operand.int
  split
  · exact faultless_ok
  · exact faultless_fail

theorem faultless_operandStr (v : Value) : Faultless (Operand.str v) := by
  unfold Operand.str
  split
  · exact faultless_ok
  · exact faultless_fail

theorem faultless_operandList (v : Value) : Faultless (Operand.list v) := by
  unfold Operand.list
  split
  · exact faultless_ok
  · exact faultless_fail

theorem faultless_operandFloat (v : Value) : Faultless (Operand.float v) := by
  unfold Operand.float
  split
  · exact faultless_ok
  · exact faultless_fail

theorem faultless_callable (v : Value) : Faultless (Operand.callable v) := by
  unfold Operand.callable
  split
  · exact faultless_ok
  · exact faultless_fail

theorem faultless_ints (args : List Value) : Faultless (Operand.ints args) :=
  faultless_mapM faultless_operandInt args

theorem faultless_floats (args : List Value) :
    Faultless (Operand.floats args) :=
  faultless_mapM faultless_operandFloat args

theorem faultless_params (v : Value) : Faultless (Form.params v) := by
  unfold Form.params
  split
  · refine faultless_mapM (fun param => ?_) _
    unfold Form.param
    split
    · exact faultless_ok
    · exact faultless_fail
  · exact faultless_fail

/-! ## Arithmetic and comparison -/

section Builtins

variable {args : List Value}

/-- Every divisor is looked at before it is divided by. -/
theorem faultless_divideAll (a : Int64) (bs : List Int64) :
    Faultless (Arithmetic.divideAll a bs) := by
  induction bs generalizing a with
  | nil => exact faultless_ok
  | cons b bs ih =>
      rw [Arithmetic.divideAll]
      split
      · exact faultless_fail
      · next hb =>
          have hq : Arithmetic.quotient a b = .ok (a / b) := if_neg hb
          rw [hq]
          exact ih (a / b)

theorem faultless_intDiv : Faultless (Arithmetic.intDiv args) := by
  refine (faultless_ints args).bind fun ns => ?_
  split
  · exact faultless_ok
  · exact (faultless_divideAll _ _).bind fun _ => faultless_ok
  · exact (faultless_divideAll _ _).bind fun _ => faultless_ok

theorem faultless_intRem
    (h : Builtin.intRem.arity.accepts args.length = true) :
    Faultless (Arithmetic.intRem args) := by
  obtain ⟨v, w, rfl⟩ := exists_of_exactly_two h
  refine (faultless_operandInt v).bind fun a => ?_
  refine (faultless_operandInt w).bind fun b => ?_
  split
  · exact faultless_fail
  · next hb =>
      have hr : Arithmetic.remainder a b = .ok (a % b) := if_neg hb
      rw [hr]
      exact faultless_ok

theorem faultless_abs (h : Builtin.abs.arity.accepts args.length = true) :
    Faultless (Arithmetic.abs args) := by
  obtain ⟨v, rfl⟩ := exists_of_exactly_one h
  cases v
  case int => exact faultless_ok
  case float => exact faultless_ok
  all_goals exact faultless_fail

theorem faultless_extremum {p : Int64 → Int64 → Bool}
    {q : Float → Float → Bool} :
    Faultless (Arithmetic.extremum p q args) := by
  unfold Arithmetic.extremum
  split
  · exact (faultless_ints args).map
  · exact (faultless_floats args).map

theorem faultless_order (v w : Value) : Faultless (Comparison.order v w) := by
  unfold Comparison.order
  split
  · exact faultless_ok
  · exact faultless_ok
  · exact (faultless_operandFloat _).bind fun x =>
      (faultless_operandFloat _).bind fun y => faultless_ok

theorem faultless_chain {accepts : Ordering → Bool} :
    Faultless (Comparison.chain accepts args) := by
  fun_induction Comparison.chain accepts args with
  | case1 v w rest ih =>
      refine (faultless_order v w).bind fun o => ?_
      split
      · split
        · exact ih
        · exact faultless_ok
      · exact faultless_ok
  | case2 => exact faultless_ok

theorem faultless_notEqual
    (h : Builtin.notEqual.arity.accepts args.length = true) :
    Faultless (Comparison.notEqual args) := by
  obtain ⟨v, w, rfl⟩ := exists_of_exactly_two h
  exact faultless_ok

theorem faultless_not (h : Builtin.not.arity.accepts args.length = true) :
    Faultless (Comparison.not args) := by
  obtain ⟨v, rfl⟩ := exists_of_exactly_one h
  exact faultless_ok

/-! ## Conversion and questions -/

theorem faultless_toInt (v : Value) : Faultless (Conversion.toInt v) := by
  unfold Conversion.toInt
  split
  · exact faultless_ok
  · exact faultless_ok
  · exact faultless_ok
  · split
    · exact faultless_ok
    · exact faultless_fail
  · exact faultless_fail

theorem faultless_toFloat (v : Value) : Faultless (Conversion.toFloat v) := by
  unfold Conversion.toFloat
  split
  · exact faultless_ok
  · exact faultless_ok
  · exact faultless_ok
  · split
    · exact faultless_ok
    · exact faultless_fail
  · exact faultless_fail

theorem faultless_each {convert : Value → Answer Value}
    (h : ∀ v, Faultless (convert v)) :
    Faultless (Conversion.each convert args) := by
  unfold Conversion.each
  split
  · exact h _
  · exact (faultless_mapM h _).map

theorem faultless_ask {question : Value → Bool}
    (h : (Arity.exactly 1).accepts args.length = true) :
    Faultless (Inspection.ask question args) := by
  obtain ⟨v, rfl⟩ := exists_of_exactly_one h
  exact faultless_ok

theorem faultless_raise (h : Builtin.error.arity.accepts args.length = true) :
    Faultless (Inspection.raise args) := by
  obtain ⟨v, rfl⟩ := exists_of_exactly_one h
  exact faultless_fail

theorem faultless_typeOf
    (h : Builtin.typeOf.arity.accepts args.length = true) :
    Faultless (Inspection.typeOf args) := by
  obtain ⟨v, rfl⟩ := exists_of_exactly_one h
  exact faultless_ok

/-! ## Lists and texts -/

theorem faultless_cons (h : Builtin.cons.arity.accepts args.length = true) :
    Faultless (Sequence.cons args) := by
  obtain ⟨v, w, rfl⟩ := exists_of_exactly_two h
  exact (faultless_operandList w).map

theorem faultless_conj (h : Builtin.conj.arity.accepts args.length = true) :
    Faultless (Sequence.conj args) := by
  obtain ⟨v, more, rfl⟩ := exists_of_atLeast h
  exact (faultless_operandList v).map

theorem faultless_concat : Faultless (Sequence.concat args) := by
  unfold Sequence.concat
  split
  · exact (faultless_mapM faultless_operandStr args).map
  · exact (faultless_mapM faultless_operandList args).map

theorem faultless_reverse
    (h : Builtin.reverse.arity.accepts args.length = true) :
    Faultless (Sequence.reverse args) := by
  obtain ⟨v, rfl⟩ := exists_of_exactly_one h
  exact (faultless_operandList v).map

theorem faultless_first (h : Builtin.first.arity.accepts args.length = true) :
    Faultless (Sequence.first args) := by
  obtain ⟨v, rfl⟩ := exists_of_exactly_one h
  exact (faultless_operandList v).map

theorem faultless_rest (h : Builtin.rest.arity.accepts args.length = true) :
    Faultless (Sequence.rest args) := by
  obtain ⟨v, rfl⟩ := exists_of_exactly_one h
  exact (faultless_operandList v).map

/-- The position before the last is there in a list of any length. -/
theorem faultless_init (h : Builtin.init.arity.accepts args.length = true) :
    Faultless (Sequence.init args) := by
  obtain ⟨v, rfl⟩ := exists_of_exactly_one h
  refine (faultless_operandList v).bind fun items => ?_
  have hcut : Sequence.upTo (items.length - 1) items =
      .ok (items.take (items.length - 1)) := if_pos (Nat.sub_le _ _)
  rw [hcut]
  exact faultless_ok

theorem faultless_last (h : Builtin.last.arity.accepts args.length = true) :
    Faultless (Sequence.last args) := by
  obtain ⟨v, rfl⟩ := exists_of_exactly_one h
  exact (faultless_operandList v).map

theorem faultless_nth (h : Builtin.nth.arity.accepts args.length = true) :
    Faultless (Sequence.nth args) := by
  obtain ⟨v, w, rfl⟩ := exists_of_exactly_two h
  refine (faultless_operandList v).bind fun items => ?_
  refine (faultless_operandInt w).bind fun index => ?_
  dsimp only
  split
  · exact faultless_ok
  · exact faultless_fail

theorem faultless_len (h : Builtin.len.arity.accepts args.length = true) :
    Faultless (Sequence.len args) := by
  obtain ⟨v, rfl⟩ := exists_of_exactly_one h
  exact faultless_ok

theorem faultless_range : Faultless (Sequence.range args) := by
  refine (faultless_ints args).bind fun ns => ?_
  split
  · split
    · exact faultless_fail
    · exact faultless_ok
  · exact faultless_fail

theorem faultless_split (h : Builtin.split.arity.accepts args.length = true) :
    Faultless (Sequence.split args) := by
  obtain ⟨v, w, rfl⟩ := exists_of_exactly_two h
  exact (faultless_operandStr v).bind fun text =>
    (faultless_operandStr w).bind fun sep => faultless_ok

theorem faultless_join (h : Builtin.join.arity.accepts args.length = true) :
    Faultless (Sequence.join args) := by
  obtain ⟨v, w, rfl⟩ := exists_of_exactly_two h
  exact (faultless_operandList v).bind fun items =>
    (faultless_operandStr w).bind fun sep => faultless_ok

end Builtins

end SmallLisp
