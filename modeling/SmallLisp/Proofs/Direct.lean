import SmallLisp.Proofs.Fuel

/-!
# The loop and the plain recursion

Evaluation is a loop: a form does not evaluate the expression in its tail
position but leaves it as what is to be done next. What a program means
is easier to say without that. The evaluator of this module is the plain
recursion: the value of a conditional is the value of the branch, the
value of a body is the value of its last form, the value of a call is
what the call answers, and all of these are evaluated where they stand.

The two agree on every program. The argument has two halves.

* **Form by form.** Running a form of the loop and then whatever it left
  is the same computation as running the plain form (`step_finish`,
  `callStep_finish`). This is an equation between computations, so it
  covers every way to end and all that happens on the way.

* **Around the knot.** The equations turn the loop into the plain
  recursion but for how fuel is spent: a call in tail position costs the
  plain recursion one unit more. Since the plain forms respect the order
  of `Fuel.lean`, each evaluator extends the other once the fuel is
  shifted (`extends_eval_of_le`, `extends_direct_of_le`), and a shift is
  nothing that "ends with" can see.
-/

namespace SmallLisp

open Eval (Extends extends_refl extends_bind)

/-! ## The plain recursion -/

/-- How to evaluate an expression in a scope. -/
abbrev Valuation := Value → ScopeId → Eval Value

namespace Direct

open Form (demand tagged? spliced? fnOperands? lambda lambdaOf enter)

/-- The forms of a body in turn. -/
def sequence (ev : Valuation) (e : ScopeId) : List Value → Eval Value
  | [] => pure .nil
  | [x] => ev x e
  | x :: y :: rest => do
    let _ ← ev x e
    sequence ev e (y :: rest)

def quote (args : List Value) : Eval Value := do
  demand .quote (.exactly 1) args
  match args with
  | [v] => return v
  | _ => throw .fault

def branch (ev : Valuation) (args : List Value) (e : ScopeId) :
    Eval Value := do
  demand .branch (.exactly 3) args
  match args with
  | [test, yes, no] =>
    let v ← ev test e
    if v.isTruthy then ev yes e else ev no e
  | _ => throw .fault

def bindPairs (ev : Valuation) (e : ScopeId) : List Value → Eval Unit
  | [] => pure ()
  | [_] => throw .fault
  | .symbol name :: x :: rest => do
    let v ← ev x e
    Eval.define e name v
    bindPairs ev e rest
  | v :: _ :: _ => Eval.raise (.malformed (.letName v))

def letForm (ev : Valuation) (args : List Value) (e : ScopeId) :
    Eval Value := do
  demand .letForm (.atLeast 2) args
  match args with
  | .list pairs :: forms =>
    if pairs.length % 2 ≠ 0 then Eval.raise (.malformed .letUnpaired)
    else
      let scope ← Eval.newScope (some e)
      bindPairs ev scope pairs
      sequence ev scope forms
  | _ :: _ => Eval.raise (.malformed .letNotList)
  | [] => throw .fault

/-- What a name is defined as: a literal function takes the name. -/
def defined (ev : Valuation) (name : String) (x : Value) (e : ScopeId) :
    Eval Value :=
  match fnOperands? x with
  | some fnArgs => lambdaOf (some name) fnArgs e
  | none => ev x e

def defForm (ev : Valuation) (args : List Value) (e : ScopeId) :
    Eval Value := do
  demand .defForm (.atLeast 2) args
  match args with
  | .symbol name :: rest =>
    demand .defForm (.exactly 2) args
    match rest with
    | [x] =>
      let v ← defined ev name x e
      Eval.define e name v
      return .nil
    | _ => throw .fault
  | .list [] :: _ => Eval.raise (.malformed .defNameless)
  | .list (.symbol name :: paramList) :: forms =>
    let v ← lambda (some name) (.list paramList) forms e
    Eval.define e name v
    return .nil
  | .list (v :: _) :: _ => Eval.raise (.malformed (.defName v))
  | v :: _ => Eval.raise (.malformed (.defName v))
  | [] => throw .fault

def setForm (ev : Valuation) (args : List Value) (e : ScopeId) :
    Eval Value := do
  demand .setForm (.exactly 2) args
  match args with
  | [.symbol name, x] =>
    let v ← ev x e
    Eval.assign e name v
    return .nil
  | [v, _] => Eval.raise (.malformed (.setName v))
  | _ => throw .fault

def begin (ev : Valuation) (args : List Value) (e : ScopeId) :
    Eval Value := do
  demand .begin (.atLeast 1) args
  sequence ev e args

def cond (ev : Valuation) (e : ScopeId) : List Value → Eval Value
  | [] => pure .nil
  | .list [] :: _ => Eval.raise .clauseWithoutTest
  | .list (test :: forms) :: clauses => do
    let v ← ev test e
    if v.isTruthy then sequence ev e forms else cond ev e clauses
  | v :: _ => Eval.raise (.wrongKind .condClause v.kind)

mutual

def template (ev : Valuation) (e : ScopeId) (depth : Nat) :
    Value → Eval Value
  | .list items =>
    match tagged? items, depth with
    | some (.unquote, x), 0 => ev x e
    | some (.splice, _), 0 => Eval.raise .spliceOutsideList
    | some (.unquote, _), depth + 1 =>
      return .list (← copies ev e depth items)
    | some (.splice, _), depth + 1 =>
      return .list (← copies ev e depth items)
    | some (.quasiquote, _), depth =>
      return .list (← copies ev e (depth + 1) items)
    | _, depth => return .list (← elements ev e depth items)
  | v => pure v

def copies (ev : Valuation) (e : ScopeId) (depth : Nat) :
    List Value → Eval (List Value)
  | [] => pure []
  | v :: vs => do
    let w ← template ev e depth v
    let ws ← copies ev e depth vs
    return w :: ws

def elements (ev : Valuation) (e : ScopeId) (depth : Nat) :
    List Value → Eval (List Value)
  | [] => pure []
  | v :: vs =>
    match spliced? v, depth with
    | some x, 0 => do
      let items ← Eval.ofAnswer (Operand.list (← ev x e))
      let ws ← elements ev e depth vs
      return items ++ ws
    | _, _ => do
      let w ← template ev e depth v
      let ws ← elements ev e depth vs
      return w :: ws

end

def quasiquote (ev : Valuation) (args : List Value) (e : ScopeId) :
    Eval Value := do
  demand .quasiquote (.exactly 1) args
  match args with
  | [x] => template ev e 0 x
  | _ => throw .fault

/-- The value of an expression, evaluated once more. -/
def again (ev : Valuation) (args : List Value) (e : ScopeId) :
    Eval Value := do
  demand .eval (.exactly 1) args
  match args with
  | [x] =>
    let v ← ev x e
    ev v e
  | _ => throw .fault

def operands (ev : Valuation) (e : ScopeId) : List Value → Eval (List Value)
  | [] => pure []
  | x :: xs => do
    let v ← ev x e
    let vs ← operands ev e xs
    return v :: vs

def application (ev : Valuation) (call : Library.Caller) (head : Value)
    (args : List Value) (e : ScopeId) : Eval Value := do
  let f ← ev head e
  if f.isCallable then
    let vs ← operands ev e args
    call f vs
  else Eval.raise (.notCallable f)

def special (ev : Valuation) (form : SpecialForm) (args : List Value)
    (e : ScopeId) : Eval Value :=
  match form with
  | .quote => quote args
  | .branch => branch ev args e
  | .letForm => letForm ev args e
  | .defForm => defForm ev args e
  | .setForm => setForm ev args e
  | .fnForm => lambdaOf none args e
  | .begin => begin ev args e
  | .cond => cond ev e args
  | .quasiquote => quasiquote ev args e
  | .eval => again ev args e

def list (ev : Valuation) (call : Library.Caller) (head : Value)
    (args : List Value) (e : ScopeId) : Eval Value :=
  match head with
  | .symbol name =>
    match SpecialForm.ofName? name with
    | some form => special ev form args e
    | none => application ev call head args e
  | _ => application ev call head args e

/-- The value of an expression, given how to evaluate and to call what is
in it. -/
def expression (ev : Valuation) (call : Library.Caller) (x : Value)
    (e : ScopeId) : Eval Value :=
  match x with
  | .symbol name => Eval.lookup e name
  | .list (head :: args) => list ev call head args e
  | v => pure v

/-- What a function answers, given how to evaluate and to call what is in
it. -/
def answer (ev : Valuation) (call : Library.Caller) (f : Value)
    (args : List Value) : Eval Value :=
  match f with
  | .builtin b => Library.apply call b args
  | .lambda f => do
    let e ← enter f args
    sequence ev e f.body
  | v => Eval.raise (.notCallable v)

mutual

/-- Evaluates an expression by plain recursion. -/
def eval : (fuel : Nat) → Value → ScopeId → Eval Value
  | 0, _, _ => throw .outOfFuel
  | fuel + 1, x, e => expression (eval fuel) (call fuel) x e

/-- Calls a function by plain recursion. -/
def call : (fuel : Nat) → Value → List Value → Eval Value
  | 0, _, _ => throw .outOfFuel
  | fuel + 1, f, args => answer (eval fuel) (call fuel) f args

end

end Direct

/-! ## Form by form -/

/-- Whatever a step left to do. -/
def finish (ev : Valuation) : Step → Eval Value
  | .done v => pure v
  | .next x e => ev x e

namespace Direct

theorem raise_bind {α β : Type} (err : EvalError) (k : α → Eval β) :
    (Eval.raise err >>= k) = Eval.raise err := rfl

section Equations

variable {ev : Evaluator} {e : ScopeId}

theorem body_finish (forms : List Value) :
    (Form.body ev e forms >>= finish ev.eval) = sequence ev.eval e forms := by
  fun_induction Form.body ev e forms with
  | case1 => rw [pure_bind]; rfl
  | case2 x => rw [pure_bind]; rfl
  | case3 x y rest ih =>
      rw [bind_assoc, sequence]
      exact bind_congr fun _ => ih

theorem quote_finish (args : List Value) :
    (Form.quote args >>= finish ev.eval) = quote args := by
  unfold Form.quote quote
  rw [bind_assoc]
  refine bind_congr fun _ => ?_
  match args with
  | [v] => rw [pure_bind]; rfl
  | [] | _ :: _ :: _ => rfl

theorem branch_finish (args : List Value) :
    (Form.branch ev args e >>= finish ev.eval) = branch ev.eval args e := by
  unfold Form.branch branch
  rw [bind_assoc]
  refine bind_congr fun _ => ?_
  match args with
  | [test, yes, no] =>
      dsimp only
      rw [bind_assoc]
      refine bind_congr fun v => ?_
      rw [pure_bind, finish]
      split <;> rfl
  | [] | [_] | [_, _] | _ :: _ :: _ :: _ :: _ => rfl

theorem bindPairs_eq (pairs : List Value) :
    Form.bindPairs ev e pairs = bindPairs ev.eval e pairs := by
  fun_induction Form.bindPairs ev e pairs with
  | case1 => rfl
  | case2 v => rfl
  | case3 name x rest ih => rw [bindPairs, ih]
  | case4 v w rest hv => rw [bindPairs]; exact hv

theorem letForm_finish (args : List Value) :
    (Form.letForm ev args e >>= finish ev.eval) = letForm ev.eval args e := by
  unfold Form.letForm letForm
  rw [bind_assoc]
  refine bind_congr fun _ => ?_
  cases args with
  | nil => rfl
  | cons a forms =>
      cases a
      case list pairs =>
        dsimp only
        split
        · rfl
        · rw [bind_assoc]
          refine bind_congr fun scope => ?_
          rw [bind_assoc, bindPairs_eq]
          exact bind_congr fun _ => body_finish forms
      all_goals rfl

theorem define_finish (m : Eval Value) (name : String) :
    ((do
        let v ← m
        Eval.define e name v
        return Step.done .nil) >>= finish ev.eval) =
      (do
        let v ← m
        Eval.define e name v
        return Value.nil) := by
  rw [bind_assoc]
  refine bind_congr fun v => ?_
  rw [bind_assoc]
  refine bind_congr fun _ => ?_
  rw [pure_bind]; rfl

theorem defForm_finish (args : List Value) :
    (Form.defForm ev args e >>= finish ev.eval) = defForm ev.eval args e := by
  unfold Form.defForm defForm
  rw [bind_assoc]
  refine bind_congr fun _ => ?_
  cases args with
  | nil => rfl
  | cons a rest =>
      cases a
      case symbol name =>
        dsimp only
        rw [bind_assoc]
        refine bind_congr fun _ => ?_
        match rest with
        | [] | _ :: _ :: _ => rfl
        | [x] =>
            dsimp only
            unfold defined
            cases Form.fnOperands? x with
            | none => exact define_finish _ name
            | some fnArgs => exact define_finish _ name
      case list items =>
        cases items with
        | nil => rfl
        | cons v paramList =>
            cases v
            case symbol name => exact define_finish _ name
            all_goals rfl
      all_goals rfl

theorem setForm_finish (args : List Value) :
    (Form.setForm ev args e >>= finish ev.eval) = setForm ev.eval args e := by
  unfold Form.setForm setForm
  rw [bind_assoc]
  refine bind_congr fun _ => ?_
  match args with
  | [a, x] =>
      cases a
      case symbol name =>
        dsimp only
        rw [bind_assoc]
        refine bind_congr fun v => ?_
        rw [bind_assoc]
        refine bind_congr fun _ => ?_
        rw [pure_bind]; rfl
      all_goals rfl
  | [] => rfl
  | [a] => cases a <;> rfl
  | a :: _ :: _ :: _ => cases a <;> rfl

theorem begin_finish (args : List Value) :
    (Form.begin ev args e >>= finish ev.eval) = begin ev.eval args e := by
  rw [Form.begin, begin, bind_assoc]
  exact bind_congr fun _ => body_finish args

theorem cond_finish (clauses : List Value) :
    (Form.cond ev e clauses >>= finish ev.eval) = cond ev.eval e clauses := by
  fun_induction Form.cond ev e clauses with
  | case1 => rw [pure_bind]; rfl
  | case2 => rw [raise_bind]; rfl
  | case3 test forms clauses ih =>
      rw [cond, bind_assoc]
      refine bind_congr fun v => ?_
      split
      · exact body_finish forms
      · exact ih
  | case4 v clauses hnil hcons =>
      rw [raise_bind, cond]
      · exact hnil
      · exact hcons

mutual

theorem template_eq (depth : Nat) (x : Value) :
    Form.template ev e depth x = template ev.eval e depth x := by
  match x with
  | .nil | .bool _ | .int _ | .float _ | .str _ | .symbol _ | .builtin _
  | .lambda _ => rfl
  | .list items =>
      unfold Form.template template
      cases Form.tagged? items with
      | none => simp [elements_eq]
      | some tag =>
          obtain ⟨m, x⟩ := tag
          cases m <;> cases depth <;>
            simp [copies_eq, elements_eq, Form.lower, Eval.ofAnswer]

theorem copies_eq (depth : Nat) (found items : List Value) :
    Form.copies ev e depth found items =
      (copies ev.eval e depth items >>= fun vs =>
        pure (found.reverse ++ vs)) := by
  match items with
  | [] => unfold Form.copies copies; simp
  | v :: vs =>
      unfold Form.copies copies
      rw [template_eq, bind_assoc]
      refine bind_congr fun w => ?_
      rw [copies_eq]
      simp

theorem elements_eq (depth : Nat) (found items : List Value) :
    Form.elements ev e depth found items =
      (elements ev.eval e depth items >>= fun vs =>
        pure (found.reverse ++ vs)) := by
  match items with
  | [] => unfold Form.elements elements; simp
  | v :: vs =>
      unfold Form.elements elements
      cases Form.spliced? v with
      | none => simp [template_eq, elements_eq]
      | some x =>
          cases depth <;>
            simp [template_eq, elements_eq, List.reverseAux_eq]

end

theorem quasiquote_finish (args : List Value) :
    (Form.quasiquote ev args e >>= finish ev.eval) =
      quasiquote ev.eval args e := by
  unfold Form.quasiquote quasiquote
  rw [bind_assoc]
  refine bind_congr fun _ => ?_
  match args with
  | [x] =>
      dsimp only
      rw [bind_assoc, template_eq]
      simp only [pure_bind, finish, bind_pure]
  | [] | _ :: _ :: _ => rfl

theorem eval_finish (args : List Value) :
    (Form.eval ev args e >>= finish ev.eval) = again ev.eval args e := by
  unfold Form.eval again
  rw [bind_assoc]
  refine bind_congr fun _ => ?_
  match args with
  | [x] =>
      dsimp only
      rw [bind_assoc]
      refine bind_congr fun v => ?_
      rw [pure_bind]; rfl
  | [] | _ :: _ :: _ => rfl

theorem operands_eq (found args : List Value) :
    Form.operands ev e found args =
      (operands ev.eval e args >>= fun vs =>
        pure (found.reverse ++ vs)) := by
  induction args generalizing found with
  | nil => rw [operands, pure_bind, List.append_nil]; rfl
  | cons x xs ih =>
      rw [Form.operands, operands, bind_assoc]
      refine bind_congr fun v => ?_
      rw [ih, bind_assoc]
      refine bind_congr fun vs => ?_
      rw [pure_bind, List.reverse_cons, List.append_assoc]
      rfl

theorem callStep_finish (f : Value) (args : List Value) :
    (Form.callStep ev f args >>= finish ev.eval) =
      answer ev.eval ev.call f args := by
  cases f
  case builtin b =>
    show (Library.apply ev.call b args >>= _) >>= finish ev.eval = _
    rw [bind_assoc]
    simp only [pure_bind, finish, bind_pure, answer]
  case lambda f =>
    show (Form.enter f args >>= _) >>= finish ev.eval = _
    rw [bind_assoc, answer]
    exact bind_congr fun e => body_finish f.body
  all_goals rfl

theorem application_finish (head : Value) (args : List Value) :
    (Form.application ev head args e >>= finish ev.eval) =
      application ev.eval (answer ev.eval ev.call) head args e := by
  rw [Form.application, application, bind_assoc]
  refine bind_congr fun f => ?_
  split
  · rw [bind_assoc, operands_eq, bind_assoc]
    refine bind_congr fun vs => ?_
    rw [pure_bind]
    exact callStep_finish f vs
  · rw [raise_bind]

theorem special_finish (form : SpecialForm) (args : List Value) :
    (Form.special ev form args e >>= finish ev.eval) =
      special ev.eval form args e := by
  cases form with
  | quote => exact quote_finish args
  | branch => exact branch_finish args
  | letForm => exact letForm_finish args
  | defForm => exact defForm_finish args
  | setForm => exact setForm_finish args
  | fnForm =>
      show (Form.lambdaOf none args e >>= _) >>= finish ev.eval = _
      rw [bind_assoc]
      simp only [pure_bind, finish, bind_pure, special]
  | begin => exact begin_finish args
  | cond => exact cond_finish args
  | quasiquote => exact quasiquote_finish args
  | eval => exact eval_finish args

theorem list_finish (head : Value) (args : List Value) :
    (Form.list ev head args e >>= finish ev.eval) =
      list ev.eval (answer ev.eval ev.call) head args e := by
  cases head
  case symbol name =>
    unfold Form.list list
    dsimp only
    cases SpecialForm.ofName? name with
    | none => exact application_finish _ args
    | some form => exact special_finish form args
  all_goals exact application_finish _ args

/-- A step, and then what it left, is a plain evaluation in which a call
answers at once. -/
theorem step_finish (x : Value) :
    (Form.step ev x e >>= finish ev.eval) =
      expression ev.eval (answer ev.eval ev.call) x e := by
  cases x
  case symbol name =>
    show (Eval.lookup e name >>= _) >>= finish ev.eval = _
    rw [bind_assoc]
    simp only [pure_bind, finish, bind_pure, expression]
  case list items =>
    cases items with
    | nil => rfl
    | cons head args => exact list_finish head args
  all_goals rfl

end Equations

/-! ## The order -/

section Order

variable {ev ev' : Valuation} {c c' : Library.Caller} {e : ScopeId}

mutual

theorem template_mono (h : ∀ x e, Extends (ev x e) (ev' x e)) (depth : Nat)
    (x : Value) :
    Extends (template ev e depth x) (template ev' e depth x) := by
  match x with
  | .nil | .bool _ | .int _ | .float _ | .str _ | .symbol _ | .builtin _
  | .lambda _ => exact extends_refl _
  | .list items =>
      unfold template
      split
      · exact h _ e
      · exact extends_refl _
      · exact (copies_mono h _ items).bind fun _ => extends_refl _
      · exact (copies_mono h _ items).bind fun _ => extends_refl _
      · exact (copies_mono h _ items).bind fun _ => extends_refl _
      · exact (elements_mono h _ items).bind fun _ => extends_refl _

theorem copies_mono (h : ∀ x e, Extends (ev x e) (ev' x e)) (depth : Nat)
    (items : List Value) :
    Extends (copies ev e depth items) (copies ev' e depth items) := by
  match items with
  | [] => unfold copies; exact extends_refl _
  | v :: vs =>
      unfold copies
      exact (template_mono h depth v).bind fun w =>
        (copies_mono h depth vs).bind fun _ => extends_refl _

theorem elements_mono (h : ∀ x e, Extends (ev x e) (ev' x e)) (depth : Nat)
    (items : List Value) :
    Extends (elements ev e depth items) (elements ev' e depth items) := by
  match items with
  | [] => unfold elements; exact extends_refl _
  | v :: vs =>
      unfold elements
      split
      · exact (h _ e).bind fun w => extends_bind fun items =>
          (elements_mono h 0 vs).bind fun _ => extends_refl _
      · exact (template_mono h _ v).bind fun w =>
          (elements_mono h _ vs).bind fun _ => extends_refl _

end

variable (h : ∀ x e, Extends (ev x e) (ev' x e))

include h

theorem sequence_mono (forms : List Value) :
    Extends (sequence ev e forms) (sequence ev' e forms) := by
  fun_induction sequence ev e forms with
  | case1 => exact extends_refl _
  | case2 x => exact h x e
  | case3 x y rest ih => exact (h x e).bind fun _ => ih

theorem branch_mono (args : List Value) :
    Extends (branch ev args e) (branch ev' args e) := by
  refine extends_bind fun _ => ?_
  split
  · refine (h _ e).bind fun v => ?_
    split
    · exact h _ e
    · exact h _ e
  · exact extends_refl _

theorem bindPairs_mono (pairs : List Value) :
    Extends (bindPairs ev e pairs) (bindPairs ev' e pairs) := by
  fun_induction bindPairs ev e pairs with
  | case1 => exact extends_refl _
  | case2 v => exact extends_refl _
  | case3 name x rest ih =>
      exact (h x e).bind fun v => extends_bind fun _ => ih
  | case4 v w rest hv =>
      rw [bindPairs]
      · exact extends_refl _
      · exact hv

theorem letForm_mono (args : List Value) :
    Extends (letForm ev args e) (letForm ev' args e) := by
  refine extends_bind fun _ => ?_
  split
  · split
    · exact extends_refl _
    · exact extends_bind fun scope => (bindPairs_mono h _).bind fun _ =>
        sequence_mono h _
  · exact extends_refl _
  · exact extends_refl _

theorem defined_mono (name : String) (x : Value) :
    Extends (defined ev name x e) (defined ev' name x e) := by
  unfold defined
  split
  · exact extends_refl _
  · exact h x e

theorem defForm_mono (args : List Value) :
    Extends (defForm ev args e) (defForm ev' args e) := by
  refine extends_bind fun _ => ?_
  split
  · refine extends_bind fun _ => ?_
    split
    · exact (defined_mono h _ _).bind fun _ => extends_refl _
    · exact extends_refl _
  all_goals exact extends_refl _

theorem setForm_mono (args : List Value) :
    Extends (setForm ev args e) (setForm ev' args e) := by
  refine extends_bind fun _ => ?_
  split
  · exact (h _ e).bind fun _ => extends_refl _
  · exact extends_refl _
  · exact extends_refl _

theorem cond_mono (clauses : List Value) :
    Extends (cond ev e clauses) (cond ev' e clauses) := by
  fun_induction cond ev e clauses with
  | case1 => exact extends_refl _
  | case2 => exact extends_refl _
  | case3 test forms clauses ih =>
      rw [cond]
      refine (h test e).bind fun v => ?_
      split
      · exact sequence_mono h forms
      · exact ih
  | case4 v clauses hnil hcons =>
      rw [cond]
      · exact extends_refl _
      · exact hnil
      · exact hcons

theorem again_mono (args : List Value) :
    Extends (again ev args e) (again ev' args e) := by
  refine extends_bind fun _ => ?_
  split
  · exact (h _ e).bind fun v => h v e
  · exact extends_refl _

theorem operands_mono (args : List Value) :
    Extends (operands ev e args) (operands ev' e args) := by
  induction args with
  | nil => exact extends_refl _
  | cons x xs ih =>
      exact (h x e).bind fun v => ih.bind fun _ => extends_refl _

theorem application_mono (hc : ∀ f args, Extends (c f args) (c' f args))
    (head : Value) (args : List Value) :
    Extends (application ev c head args e)
      (application ev' c' head args e) := by
  refine (h head e).bind fun f => ?_
  split
  · exact (operands_mono h args).bind fun vs => hc f vs
  · exact extends_refl _

theorem special_mono (form : SpecialForm) (args : List Value) :
    Extends (special ev form args e) (special ev' form args e) := by
  cases form with
  | quote => exact extends_refl _
  | branch => exact branch_mono h args
  | letForm => exact letForm_mono h args
  | defForm => exact defForm_mono h args
  | setForm => exact setForm_mono h args
  | fnForm => exact extends_refl _
  | begin => exact extends_bind fun _ => sequence_mono h args
  | cond => exact cond_mono h args
  | quasiquote =>
      refine extends_bind fun _ => ?_
      split
      · exact template_mono h 0 _
      · exact extends_refl _
  | eval => exact again_mono h args

theorem expression_mono (hc : ∀ f args, Extends (c f args) (c' f args))
    (x : Value) :
    Extends (expression ev c x e) (expression ev' c' x e) := by
  unfold expression
  split
  · exact extends_refl _
  · unfold list
    split
    · split
      · exact special_mono h _ _
      · exact application_mono h hc _ _
    · exact application_mono h hc _ _
  · exact extends_refl _

theorem answer_mono (hc : ∀ f args, Extends (c f args) (c' f args))
    (f : Value) (args : List Value) :
    Extends (answer ev c f args) (answer ev' c' f args) := by
  unfold answer
  split
  · exact Library.apply_mono hc _ args
  · exact extends_bind fun e => sequence_mono h _
  · exact extends_refl _

end Order

end Direct

/-! ## Around the knot -/

theorem loop_eq (m : Eval Step) (ev : Valuation) :
    (fun st => match m st with
      | .ok (.done v) st => .ok v st
      | .ok (.next x e) st => ev x e st
      | .error a st => .error a st) = m >>= finish ev := by
  funext st
  cases h : m st with
  | error a st' => rw [Eval.bind_error h]
  | ok s st' =>
      rw [Eval.bind_ok h]
      cases s <;> rfl

theorem call_succ (n : Nat) (f : Value) (args : List Value) :
    call (n + 1) f args = Direct.answer (eval n) (call n) f args := by
  rw [call]
  exact (loop_eq _ _).trans
    (@Direct.callStep_finish ⟨eval n, call n⟩ f args)

/-- The loop is the plain recursion, with tail calls that cost nothing. -/
theorem eval_succ (n : Nat) (x : Value) (e : ScopeId) :
    eval (n + 1) x e = Direct.expression (eval n) (call (n + 1)) x e := by
  have hcall : call (n + 1) = Direct.answer (eval n) (call n) := by
    funext f args
    exact call_succ n f args
  rw [hcall, eval]
  exact (loop_eq _ _).trans (@Direct.step_finish ⟨eval n, call n⟩ e x)

theorem extends_of_le (n m : Nat) (h : n ≤ m) :
    (∀ x e, Extends (eval n x e) (eval m x e)) ∧
      ∀ f args, Extends (call n f args) (call m f args) := by
  induction n generalizing m with
  | zero =>
      refine ⟨fun x e => ?_, fun f args => ?_⟩
      · rw [eval]
        exact Eval.extends_outOfFuel _
      · rw [call]
        exact Eval.extends_outOfFuel _
  | succ n ih =>
      obtain ⟨m, rfl⟩ : ∃ k, m = k + 1 := ⟨m - 1, by omega⟩
      obtain ⟨heval, hcall⟩ := ih m (by omega)
      have hcall' : ∀ f args,
          Extends (call (n + 1) f args) (call (m + 1) f args) := by
        intro f args
        rw [call_succ, call_succ]
        exact Direct.answer_mono heval hcall f args
      refine ⟨fun x e => ?_, hcall'⟩
      rw [eval_succ, eval_succ]
      exact Direct.expression_mono heval hcall' x

theorem extends_eval_of_le (n m : Nat) (h : n ≤ m) :
    (∀ x e, Extends (Direct.eval n x e) (eval m x e)) ∧
      ∀ f args, Extends (Direct.call n f args) (call m f args) := by
  induction n generalizing m with
  | zero =>
      refine ⟨fun x e => ?_, fun f args => ?_⟩
      · rw [Direct.eval]
        exact Eval.extends_outOfFuel _
      · rw [Direct.call]
        exact Eval.extends_outOfFuel _
  | succ n ih =>
      obtain ⟨m, rfl⟩ : ∃ k, m = k + 1 := ⟨m - 1, by omega⟩
      obtain ⟨heval, hcall⟩ := ih m (by omega)
      refine ⟨fun x e => ?_, fun f args => ?_⟩
      · rw [Direct.eval, eval_succ]
        exact Direct.expression_mono heval (ih (m + 1) (by omega)).2 x
      · rw [Direct.call, call_succ]
        exact Direct.answer_mono heval hcall f args

-- Every turn of the loop may take a call in tail position with it, so the
-- plain recursion gets by with twice the fuel.
theorem extends_direct_of_le (n m : Nat) (h : 2 * n ≤ m) :
    (∀ x e, Extends (eval n x e) (Direct.eval m x e)) ∧
      ∀ f args, Extends (call n f args) (Direct.call m f args) := by
  induction n generalizing m with
  | zero =>
      refine ⟨fun x e => ?_, fun f args => ?_⟩
      · rw [eval]
        exact Eval.extends_outOfFuel _
      · rw [call]
        exact Eval.extends_outOfFuel _
  | succ n ih =>
      have hcall : ∀ k, 2 * n ≤ k → ∀ f args,
          Extends (call (n + 1) f args) (Direct.call (k + 1) f args) := by
        intro k hk f args
        rw [call_succ, Direct.call]
        exact Direct.answer_mono (ih k hk).1 (ih k hk).2 f args
      obtain ⟨m, rfl⟩ : ∃ k, m = k + 1 + 1 := ⟨m - 2, by omega⟩
      refine ⟨fun x e => ?_, hcall (m + 1) (by omega)⟩
      rw [eval_succ, Direct.eval]
      exact Direct.expression_mono (ih (m + 1) (by omega)).1
        (hcall m (by omega)) x

/-- With enough fuel the computation ends in `r`. -/
def Ends {α : Type} (f : Nat → Eval α) (st : State)
    (r : EStateM.Result Abort State α) : Prop :=
  ¬ Cut r ∧ ∃ n, f n st = r

theorem Ends.extend {α : Type} {f g : Nat → Eval α} {st : State}
    {r : EStateM.Result Abort State α}
    (hfg : ∀ n, ∃ m, Extends (f n) (g m)) (h : Ends f st r) :
    Ends g st r := by
  obtain ⟨hcut, n, hn⟩ := h
  obtain ⟨m, hm⟩ := hfg n
  refine ⟨hcut, m, ?_⟩
  rcases hm st with hc | heq
  · rw [hn] at hc
    exact absurd hc hcut
  · rw [heq, hn]

/-- A computation that more fuel extends ends in one way only. -/
theorem Ends.unique {α : Type} {f : Nat → Eval α} {st : State}
    {r r' : EStateM.Result Abort State α}
    (hf : ∀ n m, n ≤ m → Extends (f n) (f m)) (h : Ends f st r)
    (h' : Ends f st r') : r = r' := by
  obtain ⟨hcut, n, hn⟩ := h
  obtain ⟨hcut', m, hm⟩ := h'
  have hmax : ∀ k, ¬ Cut (f k st) → k ≤ max n m →
      f (max n m) st = f k st := fun k hk hle =>
    (hf k _ hle st).resolve_left hk
  rw [← hn, ← hmax n (hn ▸ hcut) (Nat.le_max_left n m), ← hm,
    ← hmax m (hm ▸ hcut') (Nat.le_max_right n m)]

/-- A computation that spends a unit of fuel and then goes on as another ends
as the other does. -/
theorem ends_succ_iff {α : Type} {f g : Nat → Eval α} {st : State}
    {r : EStateM.Result Abort State α} (hzero : f 0 = throw .outOfFuel)
    (hsucc : ∀ n, f (n + 1) = g n) : Ends f st r ↔ Ends g st r := by
  constructor
  · rintro ⟨hcut, n, hn⟩
    cases n with
    | zero =>
        rw [hzero] at hn
        exact absurd (hn ▸ trivial) hcut
    | succ n => exact ⟨hcut, n, by rw [← hsucc, hn]⟩
  · rintro ⟨hcut, n, hn⟩
    exact ⟨hcut, n + 1, by rw [hsucc, hn]⟩

theorem eval_ends_unique {x : Value} {e : ScopeId} {st : State}
    {r r' : EStateM.Result Abort State Value}
    (h : Ends (fun n => eval n x e) st r)
    (h' : Ends (fun n => eval n x e) st r') : r = r' :=
  h.unique (fun n m hle => (extends_of_le n m hle).1 x e) h'

/-- The loop and the plain recursion end in the same ways: the same value
or error, the same store, the same output. -/
theorem ends_iff_direct_ends :
    (∀ (x : Value) (e : ScopeId) (st : State)
        (r : EStateM.Result Abort State Value),
      Ends (fun n => eval n x e) st r ↔
        Ends (fun n => Direct.eval n x e) st r) ∧
    (∀ (f : Value) (args : List Value) (st : State)
        (r : EStateM.Result Abort State Value),
      Ends (fun n => call n f args) st r ↔
        Ends (fun n => Direct.call n f args) st r) := by
  refine ⟨fun x e st r => ⟨fun h => ?_, fun h => ?_⟩,
    fun f args st r => ⟨fun h => ?_, fun h => ?_⟩⟩
  · exact h.extend fun n =>
      ⟨2 * n, (extends_direct_of_le n _ (Nat.le_refl _)).1 x e⟩
  · exact h.extend fun n => ⟨n, (extends_eval_of_le n _ (Nat.le_refl _)).1 x e⟩
  · exact h.extend fun n =>
      ⟨2 * n, (extends_direct_of_le n _ (Nat.le_refl _)).2 f args⟩
  · exact h.extend fun n =>
      ⟨n, (extends_eval_of_le n _ (Nat.le_refl _)).2 f args⟩

end SmallLisp
