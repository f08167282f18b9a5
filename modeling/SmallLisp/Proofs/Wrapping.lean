import Mathlib.Algebra.BigOperators.Group.List.Basic
import Mathlib.Data.Int.ModEq
import SmallLisp.Proofs.Checks
import SmallLisp.Proofs.Endings

/-!
# Integers that wrap around

The integer family works its operands off one by one and keeps 64 bits of
every intermediate result. What comes out in the end is nevertheless what the
exact result leaves after one reduction: taking an integer to 64 bits respects
sums, differences and products, so it does not matter where along the way the
reductions are made (`foldl_add`, `foldl_sub`, `foldl_mul`). In particular the
order of the operands does not matter where it does not matter for the exact
result.

Division has no such law, and is what it is step by step: toward zero, with
the one quotient that does not fit wrapped around. It goes together with the
remainder all the same, since both are those of the exact integers but for a
multiple of what is reduced by.

Whatever is wrong with the kind of an operand is found before anything is
computed, so that a zero divisor does not come to light then.
-/

namespace SmallLisp

/-! ## Reduction to 64 bits -/

section Reduction

variable (ns : List Int64) (a : Int64)

theorem toInt_ofInt_modEq (z : Int) :
    (Int64.ofInt z).toInt ≡ z [ZMOD 2 ^ 64] := by
  rw [Int64.toInt_ofInt]
  exact Int.bmod_emod

theorem foldl_add :
    ns.foldl (· + ·) a = a + Int64.ofInt (ns.map Int64.toInt).sum := by
  induction ns generalizing a with
  | nil => simp
  | cons n ns ih =>
      rw [List.foldl_cons, ih, List.map_cons, List.sum_cons, Int64.ofInt_add,
        Int64.ofInt_toInt, Int64.add_assoc]

theorem foldl_sub :
    ns.foldl (· - ·) a = a - Int64.ofInt (ns.map Int64.toInt).sum := by
  induction ns generalizing a with
  | nil => simp
  | cons n ns ih =>
      rw [List.foldl_cons, ih, List.map_cons, List.sum_cons, Int64.ofInt_add,
        Int64.ofInt_toInt]
      grind

theorem foldl_mul :
    ns.foldl (· * ·) a = a * Int64.ofInt (ns.map Int64.toInt).prod := by
  induction ns generalizing a with
  | nil => simp
  | cons n ns ih =>
      rw [List.foldl_cons, ih, List.map_cons, List.prod_cons, Int64.ofInt_mul,
        Int64.ofInt_toInt, Int64.mul_assoc]

end Reduction

/-- The quotient toward zero, in 64 bits. -/
def truncated (a b : Int64) : Int64 :=
  Int64.ofInt (a.toInt.tdiv b.toInt)

theorem div_eq_truncated (a b : Int64) : a / b = truncated a b := by
  rw [← Int64.toInt_inj, truncated, Int64.toInt_div, Int64.toInt_ofInt]

theorem div_mul_add_mod (a b : Int64) : a / b * b + a % b = a := by
  have hmod : a % b = Int64.ofInt (a.toInt.tmod b.toInt) := by
    rw [← Int64.toInt_mod, Int64.ofInt_toInt]
  have hmul : truncated a b * b =
      Int64.ofInt (a.toInt.tdiv b.toInt * b.toInt) := by
    rw [Int64.ofInt_mul, Int64.ofInt_toInt, truncated]
  rw [div_eq_truncated, hmul, hmod, ← Int64.ofInt_add,
    Int.tdiv_mul_add_tmod, Int64.ofInt_toInt]

theorem natAbs_mod_lt (a : Int64) {b : Int64} (hb : b ≠ 0) :
    (a % b).toInt.natAbs < b.toInt.natAbs := by
  rw [Int64.toInt_mod, Int.natAbs_tmod]
  refine Nat.mod_lt _ (Int.natAbs_pos.2 fun h => hb ?_)
  rw [← Int64.toInt_inj, h, Int64.toInt_zero]

theorem mod_eq_zero_or_sign (a b : Int64) :
    a % b = 0 ∨ (a % b).toInt.sign = a.toInt.sign := by
  rw [← Int64.toInt_inj, Int64.toInt_mod, Int64.toInt_zero, Int.sign_tmod]
  by_cases hdvd : b.toInt ∣ a.toInt
  · exact .inl (Int.tmod_eq_zero_of_dvd hdvd)
  · rw [if_neg hdvd]
    exact .inr rfl

/-! ## Operands -/

theorem ints_map (ns : List Int64) :
    Operand.ints (ns.map .int) = .ok ns := by
  induction ns with
  | nil => rfl
  | cons n ns ih =>
      rw [Operand.ints] at ih ⊢
      rw [List.map_cons, List.mapM_cons, ih]
      rfl

/-- The first operand that is no integer is the one that is reported. -/
theorem ints_eq_fail {args : List Value} {v : Value} (hv : v ∈ args)
    (hkind : v.kind ≠ .int) :
    ∃ w ∈ args, w.kind ≠ .int ∧
      Operand.ints args = fail (.wrongKind .int w.kind) := by
  induction args with
  | nil => cases hv
  | cons x xs ih =>
      rw [Operand.ints, List.mapM_cons]
      by_cases hx : x.kind = .int
      · have hmem : v ∈ xs := by
          rcases List.mem_cons.1 hv with heq | hmem
          · rw [heq] at hkind
            exact absurd hx hkind
          · exact hmem
        obtain ⟨w, hw, hwkind, hints⟩ := ih hmem
        refine ⟨w, List.mem_cons_of_mem x hw, hwkind, ?_⟩
        cases x with
        | int n =>
            rw [Operand.ints] at hints
            rw [hints]
            rfl
        | nil | bool _ | float _ | str _ | symbol _ | list _ | builtin _
        | lambda _ => cases hx
      · refine ⟨x, List.mem_cons_self, hx, ?_⟩
        cases x with
        | int n => exact absurd rfl hx
        | nil | bool _ | float _ | str _ | symbol _ | list _ | builtin _
        | lambda _ => rfl

/-! ## Sums, differences and products -/

namespace Builtin

/-- The builtin answers an integer that is `z` up to a multiple of `2 ^ 64`. -/
def AnswersModulo (b : Builtin) (args : List Value) (z : Int) : Prop :=
  ∃ n : Int64, b.Answers args (.ok (.int n)) ∧ n.toInt ≡ z [ZMOD 2 ^ 64]

theorem answersModulo_ofInt {b : Builtin} {args : List Value} {z : Int}
    (h : b.Answers args (.ok (.int (Int64.ofInt z)))) :
    b.AnswersModulo args z :=
  ⟨_, h, toInt_ofInt_modEq z⟩

theorem accepts_ints {ns : List Int64} (h : ns ≠ []) :
    (Arity.atLeast 1).accepts (ns.map Value.int).length = true := by
  rw [List.length_map, Arity.accepts, decide_eq_true_eq]
  exact List.length_pos_iff.2 h

theorem intAdd_answers {ns : List Int64} (h : ns ≠ []) :
    intAdd.Answers (ns.map .int)
      (.ok (.int (Int64.ofInt (ns.map Int64.toInt).sum))) := by
  refine answers_of_run (accepts_ints h) fun c => ?_
  show Eval.ofAnswer (Arithmetic.intAdd (ns.map .int)) = _
  rw [Arithmetic.intAdd, ints_map]
  show Eval.ofAnswer (.ok (Value.int (ns.foldl (· + ·) 0))) = _
  rw [foldl_add, Int64.zero_add]

theorem intMul_answers {ns : List Int64} (h : ns ≠ []) :
    intMul.Answers (ns.map .int)
      (.ok (.int (Int64.ofInt (ns.map Int64.toInt).prod))) := by
  refine answers_of_run (accepts_ints h) fun c => ?_
  show Eval.ofAnswer (Arithmetic.intMul (ns.map .int)) = _
  rw [Arithmetic.intMul, ints_map]
  show Eval.ofAnswer (.ok (Value.int (ns.foldl (· * ·) 1))) = _
  rw [foldl_mul, Int64.one_mul]

theorem intSub_answers_alone (n : Int64) :
    intSub.Answers [.int n] (.ok (.int (Int64.ofInt (-n.toInt)))) := by
  refine answers_of_run rfl fun c => ?_
  rw [Int64.ofInt_neg, Int64.ofInt_toInt]
  rfl

theorem intSub_answers (n : Int64) {ns : List Int64} (h : ns ≠ []) :
    intSub.Answers (.int n :: ns.map .int) (.ok (.int
      (Int64.ofInt (n.toInt - (ns.map Int64.toInt).sum)))) := by
  refine answers_of_run rfl fun c => ?_
  show Eval.ofAnswer (Arithmetic.intSub ((n :: ns).map .int)) = _
  rw [Arithmetic.intSub, ints_map, Int64.ofInt_sub, Int64.ofInt_toInt,
    ← foldl_sub]
  cases ns with
  | nil => exact absurd rfl h
  | cons m ns => rfl

/-- A builtin that answers the same to nonempty lists of integers in any
order does so for all lists of integers. -/
theorem answers_iff_of_perm {b : Builtin} {f : List Int64 → Answer Value}
    (hb : ∀ ns ≠ [], b.Answers (ns.map .int) (f ns))
    (hf : ∀ ms ns, ms.Perm ns → f ms = f ns) {ms ns : List Int64}
    (h : ms.Perm ns) (a : Answer Value) :
    b.Answers (ms.map .int) a ↔ b.Answers (ns.map .int) a := by
  by_cases hms : ms = []
  · subst hms
    rw [h.nil_eq]
  · have hns : ns ≠ [] := by
      intro hnil
      rw [hnil] at h
      exact hms h.eq_nil
    have heq := hf ms ns h
    constructor
    · intro ha
      rw [ha.unique (hb ms hms), heq]
      exact hb ns hns
    · intro ha
      rw [ha.unique (hb ns hns), ← heq]
      exact hb ms hms

/-! ## Quotients and remainders -/

theorem divideAll_eq (a : Int64) (ds : List Int64) :
    Arithmetic.divideAll a ds =
      if 0 ∈ ds then fail .divisionByZero
      else .ok (ds.foldl truncated a) := by
  induction ds generalizing a with
  | nil => rfl
  | cons d ds ih =>
      rw [Arithmetic.divideAll]
      by_cases hd : d = 0
      · rw [if_pos hd, if_pos (by rw [hd]; exact List.mem_cons_self)]
      · have hquotient : Arithmetic.quotient a d = .ok (truncated a d) := by
          rw [Arithmetic.quotient, if_neg hd, div_eq_truncated]
        rw [if_neg hd, hquotient]
        show Arithmetic.divideAll (truncated a d) ds = _
        rw [ih, List.foldl_cons]
        simp only [List.mem_cons, Ne.symm hd, false_or]

/-- What an integer division divides, and by what. A lone operand divides
one. -/
def division : List Int64 → Int64 × List Int64
  | [] => (1, [])
  | [n] => (1, [n])
  | n :: ns => (n, ns)

theorem intDiv_answers {ns : List Int64} (h : ns ≠ []) :
    intDiv.Answers (ns.map .int)
      (if 0 ∈ (division ns).2 then fail .divisionByZero
        else .ok (.int ((division ns).2.foldl truncated
          (division ns).1))) := by
  refine answers_of_run (accepts_ints h) fun c => ?_
  show Eval.ofAnswer (Arithmetic.intDiv (ns.map .int)) = _
  have hdivide : Arithmetic.intDiv (ns.map .int) = do
      return .int (← Arithmetic.divideAll (division ns).1 (division ns).2) := by
    rw [Arithmetic.intDiv, ints_map]
    match ns with
    | [] | [_] | _ :: _ :: _ => rfl
  rw [hdivide, divideAll_eq]
  split
  · rfl
  · rfl

theorem intRem_answers (a : Int64) {b : Int64} (hb : b ≠ 0) :
    intRem.Answers [.int a, .int b] (.ok (.int (a % b))) := by
  refine answers_of_run rfl fun c => ?_
  show Eval.ofAnswer (Arithmetic.intRem [.int a, .int b]) = _
  have hrem : Arithmetic.remainder a b = .ok (a % b) := if_neg hb
  show Eval.ofAnswer (if b = 0 then fail .divisionByZero
    else (do return Value.int (← Arithmetic.remainder a b))) = _
  rw [if_neg hb, hrem]
  rfl

theorem intRem_answers_zero (a : Int64) :
    intRem.Answers [.int a, .int 0] (fail .divisionByZero) :=
  answers_of_run rfl fun _ => rfl

/-- The quotient times the divisor, and the remainder added to that. -/
def recombined (a b : Int64) : Value :=
  .list [.builtin .intAdd,
    .list [.builtin .intMul, .list [.builtin .intDiv, .int a, .int b], .int b],
    .list [.builtin .intRem, .int a, .int b]]

theorem denotes_recombined (e : ScopeId) (a : Int64) {b : Int64}
    (hb : b ≠ 0) : Value.Denotes e (recombined a b) (.int a) := by
  have hint (n : Int64) := denotes_int e n
  have hdiv : intDiv.Answers [.int a, .int b] (.ok (.int (a / b))) := by
    have h := intDiv_answers (List.cons_ne_nil a [b])
    rw [if_neg (by simpa [division] using Ne.symm hb)] at h
    rw [div_eq_truncated]
    exact h
  have hmul : intMul.Answers [.int (a / b), .int b]
      (.ok (.int (a / b * b))) := by
    refine answers_of_run rfl fun c => ?_
    show Eval.ofAnswer (.ok (Value.int (1 * (a / b) * b))) = _
    rw [Int64.one_mul]
  have hadd : intAdd.Answers [.int (a / b * b), .int (a % b)]
      (.ok (.int a)) := by
    refine answers_of_run rfl fun c => ?_
    show Eval.ofAnswer (.ok (Value.int (0 + a / b * b + a % b))) = _
    rw [Int64.zero_add, div_mul_add_mod]
  have hquotient := hdiv.denotes (.cons (hint a) (.cons (hint b) .nil))
  have hproduct := hmul.denotes (.cons hquotient (.cons (hint b) .nil))
  have hrest := (intRem_answers a hb).denotes
    (.cons (hint a) (.cons (hint b) .nil))
  exact hadd.denotes (.cons hproduct (.cons hrest .nil))

/-! ## Operands of other kinds -/

/-- The builtins that take integers only. -/
def intFamily : List Builtin :=
  [intAdd, intSub, intMul, intDiv, intRem]

theorem intRem_eq_error {v w : Value} {err : Abort}
    (h : Operand.ints [v, w] = .error err) :
    Arithmetic.intRem [v, w] = .error err := by
  rw [Operand.ints, List.mapM_cons, List.mapM_cons, List.mapM_nil] at h
  rw [Arithmetic.intRem]
  cases hv : Operand.int v with
  | error err' =>
      rw [hv] at h
      cases h
      rfl
  | ok a =>
      cases hw : Operand.int w with
      | error err' =>
          rw [hv, hw] at h
          cases h
          rfl
      | ok b =>
          rw [hv, hw] at h
          cases h

theorem answers_wrongKind {b : Builtin} (hb : b ∈ intFamily)
    {args : List Value} (harity : b.arity.accepts args.length = true)
    {v : Value} (hv : v ∈ args) (hkind : v.kind ≠ .int) :
    ∃ w ∈ args, w.kind ≠ .int ∧
      b.Answers args (fail (.wrongKind .int w.kind)) := by
  obtain ⟨w, hw, hwkind, hints⟩ := ints_eq_fail hv hkind
  refine ⟨w, hw, hwkind, answers_of_run harity fun c => ?_⟩
  simp only [intFamily, List.mem_cons, List.not_mem_nil, or_false] at hb
  rcases hb with rfl | rfl | rfl | rfl | rfl
  · show Eval.ofAnswer (Arithmetic.intAdd args) = _
    rw [Arithmetic.intAdd, hints]
    rfl
  · show Eval.ofAnswer (Arithmetic.intSub args) = _
    rw [Arithmetic.intSub, hints]
    rfl
  · show Eval.ofAnswer (Arithmetic.intMul args) = _
    rw [Arithmetic.intMul, hints]
    rfl
  · show Eval.ofAnswer (Arithmetic.intDiv args) = _
    rw [Arithmetic.intDiv, hints]
    rfl
  · show Eval.ofAnswer (Arithmetic.intRem args) = _
    obtain ⟨x, y, rfl⟩ := exists_of_exactly_two harity
    rw [intRem_eq_error hints]
    rfl

end Builtin

/-! ## The family -/

section Family

open Builtin

/-- On integers, sums, differences and products are the exact ones up to a
multiple of `2 ^ 64`, and sums and products do not depend on the order. A
division fails exactly if one of the divisors is zero, and is otherwise the
quotient toward zero by one divisor after the other, in 64 bits; the remainder
makes up for what is lost, is smaller than the divisor and has the sign of the
dividend unless it is zero, and fails for the divisor zero. An operand of
another kind is an error of type, whatever else is wrong. -/
theorem int_family_exact :
    (∀ ns ≠ [], intAdd.AnswersModulo (ns.map .int)
      (ns.map Int64.toInt).sum) ∧
    (∀ n : Int64, intSub.AnswersModulo [.int n] (-n.toInt)) ∧
    (∀ n : Int64, ∀ ns ≠ [], intSub.AnswersModulo (.int n :: ns.map .int)
      (n.toInt - (ns.map Int64.toInt).sum)) ∧
    (∀ ns ≠ [], intMul.AnswersModulo (ns.map .int)
      (ns.map Int64.toInt).prod) ∧
    (∀ ms ns : List Int64, ms.Perm ns → ∀ a,
      (intAdd.Answers (ms.map .int) a ↔ intAdd.Answers (ns.map .int) a) ∧
      (intMul.Answers (ms.map .int) a ↔ intMul.Answers (ns.map .int) a)) ∧
    (∀ ns ≠ [],
      (intDiv.Answers (ns.map .int) (fail .divisionByZero) ↔
        0 ∈ (division ns).2) ∧
      (0 ∉ (division ns).2 → intDiv.Answers (ns.map .int)
        (.ok (.int ((division ns).2.foldl truncated (division ns).1))))) ∧
    truncated Int64.minValue (-1) = Int64.minValue ∧
    (∀ a b : Int64, b ≠ 0 →
      (∀ e, Value.Denotes e (recombined a b) (.int a)) ∧
      ∃ r : Int64, intRem.Answers [.int a, .int b] (.ok (.int r)) ∧
        r.toInt.natAbs < b.toInt.natAbs ∧
        (r = 0 ∨ r.toInt.sign = a.toInt.sign)) ∧
    (∀ a : Int64, intRem.Answers [.int a, .int 0] (fail .divisionByZero)) ∧
    ∀ b ∈ intFamily, ∀ args : List Value,
      b.arity.accepts args.length = true → ∀ v ∈ args, v.kind ≠ .int →
        ∃ err, b.Answers args (fail err) ∧
          err.errorClass = .typeMismatch := by
  refine ⟨fun ns h => ?_, fun n => ?_, fun n ns h => ?_, fun ns h => ?_,
    fun ms ns h a => ⟨?_, ?_⟩, fun ns h => ⟨⟨fun hzero => ?_, fun hzero => ?_⟩,
    fun hzero => ?_⟩, by decide, fun a b hb => ⟨fun e => ?_, ?_⟩,
    intRem_answers_zero, fun b hb args harity v hv hkind => ?_⟩
  · exact answersModulo_ofInt (intAdd_answers h)
  · exact answersModulo_ofInt (intSub_answers_alone n)
  · exact answersModulo_ofInt (intSub_answers n h)
  · exact answersModulo_ofInt (intMul_answers h)
  · refine answers_iff_of_perm (fun ns hne => intAdd_answers hne) ?_ h a
    intro ms ns h
    rw [(h.map Int64.toInt).sum_eq]
  · refine answers_iff_of_perm (fun ns hne => intMul_answers hne) ?_ h a
    intro ms ns h
    rw [(h.map Int64.toInt).prod_eq]
  · have heq := hzero.unique (intDiv_answers h)
    by_contra hne
    rw [if_neg hne] at heq
    cases heq
  · have hanswer := intDiv_answers h
    rw [if_pos hzero] at hanswer
    exact hanswer
  · have hanswer := intDiv_answers h
    rw [if_neg hzero] at hanswer
    exact hanswer
  · exact denotes_recombined e a hb
  · exact ⟨a % b, intRem_answers a hb, natAbs_mod_lt a hb,
      mod_eq_zero_or_sign a b⟩
  · obtain ⟨w, -, -, hanswer⟩ := answers_wrongKind hb harity hv hkind
    exact ⟨_, hanswer, rfl⟩

theorem overflow_exact :
    intAdd.AnswersModulo [.int Int64.maxValue, .int 1] (2 ^ 63) ∧
    intDiv.Answers [.int 7, .int (-2), .int 0] (fail .divisionByZero) ∧
    (∀ e, Value.Denotes e (recombined Int64.minValue (-1))
      (.int Int64.minValue)) ∧
    ∃ err, intDiv.Answers [.int 1, .int 0, .nil] (fail err) ∧
      err.errorClass = .typeMismatch := by
  obtain ⟨hadd, -, -, -, -, hdiv, -, hrem, -, hkind⟩ := int_family_exact
  refine ⟨hadd [Int64.maxValue, 1] (by decide), ?_, ?_, ?_⟩
  · exact (hdiv [7, -2, 0] (by decide)).1.2 (by decide)
  · exact (hrem Int64.minValue (-1) (by decide)).1
  · exact hkind .intDiv (by decide) [.int 1, .int 0, .nil] rfl .nil
      (by simp) (by decide)

end Family

end SmallLisp
