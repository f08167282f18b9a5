import SmallLisp.Proofs.Endings

/-!
# Ranges are arithmetic progressions

A range counts from its start toward its stop, and the loop behind it ends in
one of two ways: the stop is reached, or the next number does not fit into 64
bits. Neither shows in what comes out. The numbers are those of the exact
progression that come before the stop (`IsProgression`), and there are no more
of them, because a number that does not fit lies beyond every stop there can
be (`not_precedes_of_addWithin?`).

The exact progression is built up from its two ends in the same way as the
loop runs: it is empty if the start does not come before the stop, and
otherwise it is the start followed by the progression from the next number
on. For the first of these one has to know that a progression that has passed
the stop does not come back.
-/

namespace SmallLisp

/-! ## Progressions -/

/-- In the direction of the step, `x` comes before `y`. -/
def Precedes (step x y : Int) : Prop :=
  0 < step ∧ x < y ∨ step < 0 ∧ y < x

instance (step x y : Int) : Decidable (Precedes step x y) :=
  inferInstanceAs (Decidable (_ ∨ _))

/-- The integers are `start`, `start + step` and so on, in this order. They
are `k` in number, and `k` is the number of members of the progression that
come before `stop`: these are the first ones. -/
def IsProgression (start stop step : Int) (zs : List Int) : Prop :=
  ∃ k : Nat, (∀ i : Nat, i < k ↔ Precedes step (start + i * step) stop) ∧
    zs = (List.range k).map fun i : Nat => start + i * step

/-- What has passed the stop does not come back. -/
theorem Precedes.of_add_mul {step x y : Int} {i : Nat}
    (h : Precedes step (x + i * step) y) : Precedes step x y := by
  rcases h with ⟨hstep, h⟩ | ⟨hstep, h⟩
  · have hmul : 0 ≤ i * step := Int.mul_nonneg (by omega) (by omega)
    exact .inl ⟨hstep, by omega⟩
  · have hmul : i * step ≤ 0 :=
      Int.mul_nonpos_of_nonneg_of_nonpos (by omega) (by omega)
    exact .inr ⟨hstep, by omega⟩

theorem isProgression_nil {start stop step : Int}
    (h : ¬ Precedes step start stop) : IsProgression start stop step [] := by
  refine ⟨0, fun i => ?_, rfl⟩
  have hi : ¬ Precedes step (start + i * step) stop :=
    fun hi => h hi.of_add_mul
  simp [hi]

theorem IsProgression.cons {start stop step : Int} {zs : List Int}
    (hstart : Precedes step start stop)
    (h : IsProgression (start + step) stop step zs) :
    IsProgression start stop step (start :: zs) := by
  obtain ⟨k, hk, rfl⟩ := h
  -- The member after the `i`-th of all is the `i`-th of the rest.
  have hnext (i : Nat) : start + (i + 1 : Nat) * step =
      start + step + i * step := by
    rw [Int.natCast_add, Int.add_mul]
    omega
  refine ⟨k + 1, fun i => ?_, ?_⟩
  · cases i with
    | zero => simpa using hstart
    | succ i => rw [Nat.add_lt_add_iff_right, hk, hnext]
  · rw [List.range_succ_eq_map, List.map_cons, List.map_map]
    have hfirst : start + (0 : Nat) * step = start := by simp
    rw [hfirst]
    exact congrArg _ (List.map_congr_left fun i _ => (hnext i).symm)

/-! ## The loop -/

namespace Sequence

variable {n stop step : Int64}

theorem isBefore_iff : isBefore n stop step = true ↔
    Precedes step.toInt n.toInt stop.toInt := by
  simp only [isBefore, Precedes, Bool.or_eq_true, Bool.and_eq_true,
    decide_eq_true_eq, Int64.lt_iff_toInt_lt, Int64.toInt_zero]

theorem not_precedes_of_addWithin? (h : addWithin? n step = none) :
    ¬ Precedes step.toInt (n.toInt + step.toInt) stop.toInt := by
  have hn := Int64.toInt_lt n
  have hn' := Int64.le_toInt n
  have hstop := Int64.toInt_lt stop
  have hstop' := Int64.le_toInt stop
  rw [addWithin?, Integer.narrow?] at h
  split at h
  · cases h
  · next hrange =>
      intro hprecedes
      rcases hprecedes with ⟨hstep, hlt⟩ | ⟨hstep, hlt⟩
      · omega
      · omega

theorem rangeFrom_eq (found : List Value) (n stop step : Int64) :
    ∃ ns : List Int64,
      rangeFrom found n stop step = found.reverse ++ ns.map .int ∧
      IsProgression n.toInt stop.toInt step.toInt (ns.map Int64.toInt) := by
  fun_induction rangeFrom found n stop step with
  | case1 found n hbefore next hnext ih =>
      obtain ⟨ns, heq, hns⟩ := ih
      rw [toInt_of_addWithin? hnext] at hns
      refine ⟨n :: ns, ?_, hns.cons (isBefore_iff.1 hbefore)⟩
      rw [heq]
      simp
  | case2 found n hbefore hnext =>
      have hpast : ¬ Precedes step.toInt (n.toInt + step.toInt) stop.toInt :=
        not_precedes_of_addWithin? hnext
      refine ⟨[n], by simp, ?_⟩
      exact (isProgression_nil hpast).cons (isBefore_iff.1 hbefore)
  | case3 found n hbefore =>
      refine ⟨[], by simp, isProgression_nil fun hprecedes => hbefore ?_⟩
      exact isBefore_iff.2 hprecedes

end Sequence

/-! ## The builtin -/

theorem range_answers {step : Int64} (hstep : step ≠ 0)
    (start stop : Int64) :
    Builtin.range.Answers [.int start, .int stop, .int step]
      (.ok (.list (Sequence.rangeFrom [] start stop step))) := by
  refine Builtin.answers_of_run rfl fun c => ?_
  show Eval.ofAnswer (if step = 0 then fail .zeroStep
    else .ok (Value.list (Sequence.rangeFrom [] start stop step))) = _
  rw [if_neg hstep]

/-- By a step that is not zero, a range is the list of those members of the
exact progression from its start that come before its stop, all of them and
in order, with none of them wrapped around. Without a step the step is one,
and without a start the start is zero. -/
theorem range_is_progression {step : Int64} (hstep : step ≠ 0)
    (start stop : Int64) :
    (∃ ns : List Int64,
      Builtin.range.Answers [.int start, .int stop, .int step]
        (.ok (.list (ns.map .int))) ∧
      IsProgression start.toInt stop.toInt step.toInt
        (ns.map Int64.toInt)) ∧
    (∀ a, Builtin.range.Answers [.int start, .int stop] a ↔
      Builtin.range.Answers [.int start, .int stop, .int 1] a) ∧
    ∀ a, Builtin.range.Answers [.int stop] a ↔
      Builtin.range.Answers [.int 0, .int stop, .int 1] a := by
  obtain ⟨ns, heq, hns⟩ := Sequence.rangeFrom_eq [] start stop step
  have hanswer := range_answers hstep start stop
  rw [heq] at hanswer
  -- What is left out is filled in before the loop, so both sides are one call.
  exact ⟨⟨ns, hanswer, hns⟩, fun a => Iff.rfl, fun a => Iff.rfl⟩

theorem range_up_to_limit :
    (2 : Int64) ≠ 0 ∧
      Builtin.range.Answers
        [.int (Int64.maxValue - 1), .int Int64.maxValue, .int 2]
        (.ok (.list [.int (Int64.maxValue - 1)])) := by
  have hstep : (2 : Int64) ≠ 0 := by decide
  obtain ⟨⟨ns, hanswer, k, hk, hns⟩, -⟩ :=
    range_is_progression hstep (Int64.maxValue - 1) Int64.maxValue
  have hfirst : 0 < k := (hk 0).2 (by decide)
  have hsecond : ¬ 1 < k := by
    rw [hk 1]
    decide
  obtain rfl : k = 1 := by omega
  have hmembers : ns = [Int64.maxValue - 1] :=
    List.map_injective_iff.2 (fun _ _ => Int64.toInt_inj.1)
      (hns.trans (by decide))
  rw [hmembers] at hanswer
  exact ⟨hstep, hanswer⟩

end SmallLisp
