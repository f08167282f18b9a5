import SmallLisp.Proofs.Endings

/-!
# A `cond` form is nested conditionals

A `cond` form goes through its clauses and runs the first one whose test
holds. The same can be written with conditionals of two branches, one inside
the other: each takes its clause if the test holds and else the conditional
that stands for the rest (`nestedIf`). That the two end alike is an induction
over the clauses, and each of its steps compares one turn of the loop with one
conditional.

A clause can be malformed, and then there is no conditional to compare with.
It comes to light when its turn comes and not before. What that means is said
by the tests of the clauses in front of it: if they all fail (`TestsFail`),
the form ends in the error of the malformed clause, from the state that the
tests have left, and if not, the form ends as if it stopped in front of that
clause.
-/

namespace SmallLisp

/-! ## Clauses -/

/-- A clause of a `cond` form, with its test and its body. -/
structure Clause where
  test : Value
  forms : List Value

namespace Clause

/-- The clause as it stands in the form. -/
def written (c : Clause) : Value :=
  .list (c.test :: c.forms)

/-- The body as one expression. -/
def body (c : Clause) : Value :=
  match c.forms with
  | [] => .nil
  | forms => .list (.symbol SpecialForm.begin.name :: forms)

end Clause

/-- A `cond` form. -/
def condForm (clauses : List Value) : Value :=
  .list (.symbol SpecialForm.cond.name :: clauses)

/-- A conditional for each clause, in the last branch of the one before. -/
def nestedIf : List Clause → Value
  | [] => .nil
  | c :: cs =>
    .list [.symbol SpecialForm.branch.name, c.test, c.body, nestedIf cs]

/-- No list, or a list without a test. -/
def IsMalformed (v : Value) : Prop :=
  v.kind ≠ .list ∨ v = .list []

/-- What is wrong with a malformed clause. -/
def clauseError : Value → EvalError
  | .list _ => .clauseWithoutTest
  | v => .wrongKind .condClause v.kind

/-- The tests fail, one after the other: each comes to a value that is not
true, from the state that the one before has left. -/
inductive TestsFail (e : ScopeId) : State → List Value → State → Prop where
  | nil {st : State} : TestsFail e st [] st
  | cons {st st' st'' : State} {x v : Value} {xs : List Value}
      (htest : Ends (fun n => eval n x e) st (.ok v st'))
      (hfalse : v.isTruthy = false) (hrest : TestsFail e st' xs st'') :
      TestsFail e st (x :: xs) st''

variable {e : ScopeId} {st st' : State}

/-! ## Forms and their parts -/

theorem growing_sequence (e : ScopeId) (forms : List Value) :
    Growing fun n => Direct.sequence (eval n) e forms :=
  fun n m hle => Direct.sequence_mono (extends_of_le n m hle).1 forms

theorem growing_cond (e : ScopeId) (clauses : List Value) :
    Growing fun n => Direct.cond (eval n) e clauses :=
  fun n m hle => Direct.cond_mono (extends_of_le n m hle).1 clauses

theorem growing_choice {α : Type} {f g : Nat → Eval α} (hf : Growing f)
    (hg : Growing g) (b : Bool) :
    Growing fun n => if b = true then f n else g n := by
  cases b with
  | true => exact hf
  | false => exact hg

theorem alike_cond (clauses : List Value) :
    Alike (fun n => eval n (condForm clauses) e)
      fun n => Direct.cond (eval n) e clauses :=
  .of_succ rfl fun n => by rw [eval_succ]; rfl

theorem alike_branch (test yes no : Value) :
    Alike (fun n => eval n
        (.list [.symbol SpecialForm.branch.name, test, yes, no]) e)
      fun n => eval n test e >>= fun v =>
        if v.isTruthy = true then eval n yes e else eval n no e :=
  .of_succ rfl fun n => by rw [eval_succ]; rfl

theorem alike_body (c : Clause) :
    Alike (fun n => eval n c.body e)
      fun n => Direct.sequence (eval n) e c.forms := by
  obtain ⟨test, forms⟩ := c
  refine .of_succ rfl fun n => ?_
  rw [eval_succ]
  cases forms with
  | nil => rfl
  | cons x xs => rfl

/-- The choice between a clause and what is behind it. -/
theorem growing_clause (c : Clause) (rest : List Value) (v : Value) :
    Growing fun n => if v.isTruthy = true
      then Direct.sequence (eval n) e c.forms
      else Direct.cond (eval n) e rest :=
  growing_choice (growing_sequence e c.forms) (growing_cond e rest) _

theorem alike_nestedIf (clauses : List Clause) :
    Alike (fun n => Direct.cond (eval n) e (clauses.map Clause.written))
      fun n => eval n (nestedIf clauses) e := by
  induction clauses with
  | nil =>
      have hnil : Value.Denotes e .nil .nil := denotes_self e nofun nofun
      exact hnil.symm
  | cons c cs ih =>
      refine .trans ?_ (alike_branch c.test c.body (nestedIf cs)).symm
      refine .bind (growing_eval c.test e) (growing_eval c.test e)
        (growing_clause c _) (fun v => ?_) (.refl _) fun v => ?_
      · exact growing_choice (growing_eval c.body e) (growing_eval _ e) _
      · cases v.isTruthy with
        | true => exact (alike_body c).symm
        | false => exact ih

/-! ## Malformed clauses -/

theorem errorClass_clauseError (v : Value) :
    (clauseError v).errorClass = .typeMismatch := by
  cases v <;> rfl

theorem cond_malformed {bad : Value} (h : IsMalformed bad) (ev : Valuation)
    (back : List Value) :
    Direct.cond ev e (bad :: back) = Eval.raise (clauseError bad) := by
  rcases h with h | rfl
  · cases bad with
    | list _ => exact absurd rfl h
    | nil | bool _ | int _ | float _ | str _ | symbol _ | builtin _
    | lambda _ => rfl
  · rfl

theorem ends_cond_cons_iff {c : Clause} {rest : List Value}
    {r : EStateM.Result Abort State Value} :
    Ends (fun n => Direct.cond (eval n) e (c.written :: rest)) st r ↔
      (∃ v mid, Ends (fun n => eval n c.test e) st (.ok v mid) ∧
        Ends (fun n => if v.isTruthy = true
          then Direct.sequence (eval n) e c.forms
          else Direct.cond (eval n) e rest) mid r) ∨
      ∃ a mid, Ends (fun n => eval n c.test e) st (.error a mid) ∧
        r = .error a mid :=
  ends_bind_iff (growing_eval c.test e) (growing_clause c rest)

/-- Behind tests that fail, the clauses go on from the state they have
left. -/
theorem ends_of_testsFail {front : List Clause} (rest : List Value)
    (h : TestsFail e st (front.map Clause.test) st')
    {r : EStateM.Result Abort State Value} :
    Ends (fun n => Direct.cond (eval n) e
        (front.map Clause.written ++ rest)) st r ↔
      Ends (fun n => Direct.cond (eval n) e rest) st' r := by
  induction front generalizing st with
  | nil =>
      cases h
      exact Iff.rfl
  | cons c cs ih =>
      cases h with
      | @cons _ mid _ _ v _ htest hfalse hrest =>
          rw [← ih hrest, List.map_cons, List.cons_append, ends_cond_cons_iff]
          constructor
          · intro h
            rcases h with ⟨v', mid', htest', hends⟩ | ⟨a, mid', htest', -⟩
            · cases eval_ends_unique htest htest'
              simpa [hfalse] using hends
            · cases eval_ends_unique htest htest'
          · intro hends
            exact .inl ⟨v, mid, htest, by simpa [hfalse] using hends⟩

/-- Where not all tests fail, it does not matter what is behind them. -/
theorem ends_of_not_testsFail {front : List Clause} (rest : List Value)
    (h : ¬ ∃ st', TestsFail e st (front.map Clause.test) st')
    {r : EStateM.Result Abort State Value} :
    Ends (fun n => Direct.cond (eval n) e
        (front.map Clause.written ++ rest)) st r ↔
      Ends (fun n => Direct.cond (eval n) e
        (front.map Clause.written)) st r := by
  induction front generalizing st with
  | nil => exact absurd ⟨st, .nil⟩ h
  | cons c cs ih =>
      rw [List.map_cons, List.cons_append, ends_cond_cons_iff,
        ends_cond_cons_iff]
      refine or_congr_left (exists_congr fun v => exists_congr fun mid =>
        and_congr_right fun htest => ?_)
      cases hv : v.isTruthy with
      | true => exact Iff.rfl
      | false =>
          refine ih fun ⟨st', hrest⟩ => h ⟨st', ?_⟩
          exact .cons htest hv hrest

/-! ## The form -/

/-- A `cond` form of clauses with tests ends as the nested conditionals do,
in whatever state it starts. If a malformed clause follows on them, the form
ends in an error of type, from the state that the tests have left, if all of
them fail; if not, that clause and what is behind it make no difference. -/
theorem cond_is_nested_if (e : ScopeId) (clauses : List Clause)
    (st : State) :
    (∀ r, Ends (fun n => eval n
          (condForm (clauses.map Clause.written)) e) st r ↔
        Ends (fun n => eval n (nestedIf clauses) e) st r) ∧
    ∀ (bad : Value) (back : List Value), IsMalformed bad →
      (clauseError bad).errorClass = .typeMismatch ∧
      (∀ st', TestsFail e st (clauses.map Clause.test) st' → ∀ r,
        Ends (fun n => eval n
            (condForm (clauses.map Clause.written ++ bad :: back)) e) st r ↔
          r = .error (.failed (clauseError bad)) st') ∧
      ((¬ ∃ st', TestsFail e st (clauses.map Clause.test) st') → ∀ r,
        Ends (fun n => eval n
            (condForm (clauses.map Clause.written ++ bad :: back)) e) st r ↔
          Ends (fun n => eval n
            (condForm (clauses.map Clause.written)) e) st r) := by
  refine ⟨fun r => ?_, fun bad back hbad => ⟨errorClass_clauseError bad,
    fun st' hfail r => ?_, fun hfail r => ?_⟩⟩
  · exact (alike_cond _).trans (alike_nestedIf clauses) st r
  · rw [alike_cond _ st, ends_of_testsFail (bad :: back) hfail]
    simp only [cond_malformed hbad]
    rw [ends_const_iff]
    constructor
    · intro h
      exact h.2.symm
    · intro h
      subst h
      exact ⟨id, rfl⟩
  · rw [alike_cond _ st, alike_cond _ st, ends_of_not_testsFail _ hfail]

/-- A scope with a name that a test can change. -/
def countingState : State :=
  ⟨(Store.empty.addScope none).define 0 "n" (.int 0), ⟨"", false⟩⟩

/-- A clause whose test changes the name and fails. -/
def failingClause : Clause where
  test := .list [.symbol "set!", .symbol "n", .int 1]
  forms := [.symbol "n"]

theorem malformed_after_failing :
    IsMalformed (.int 3) ∧ ∃ st', st'.store.get? 0 "n" = some (.int 1) ∧
      TestsFail 0 countingState [failingClause.test] st' ∧
      Ends (fun n => eval n
          (condForm [failingClause.written, .int 3, .nil]) 0) countingState
        (.error (.failed (.wrongKind .condClause .int)) st') := by
  have hbad : IsMalformed (.int 3) := .inl nofun
  have hfail : TestsFail 0 countingState [failingClause.test] _ :=
    .cons ⟨id, 2, rfl⟩ rfl .nil
  obtain ⟨-, hmalformed⟩ := cond_is_nested_if 0 [failingClause] countingState
  obtain ⟨-, hends, -⟩ := hmalformed (.int 3) [.nil] hbad
  exact ⟨hbad, _, rfl, hfail, (hends _ hfail _).2 rfl⟩

end SmallLisp
