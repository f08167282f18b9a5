import SmallLisp.Eval.Form
import SmallLisp.Process.Library

/-!
# Forms in a process

The forms once more, with what they do to references: code is looked at
where it is kept, the value of a test or of a form whose value is not wanted
is given up at once, and what remains to be evaluated is held together with
its scope.
-/

namespace SmallLisp.Process

/-- How to evaluate an expression in a scope, and how to call a function. -/
structure Evaluator where
  eval : Placed → ScopeId → Run Placed
  call : Caller

/-- The outcome of one step: a value, or an expression that remains to be
evaluated. Either is held, and so is the scope. -/
inductive Step where
  | done (x : Placed)
  | next (x : Placed) (e : ScopeId)

def demand (form : SpecialForm) (arity : Arity) (args : List Placed) :
    Run Unit :=
  Run.plainly (Form.demand form arity (Placed.values args))

/-- Evaluates all forms of a body but the last, which remains. The scope is
taken over. -/
def body (ev : Evaluator) (e : ScopeId) : List Placed → Run Step
  | [] => do
      Run.drop ⟨.scope, e⟩
      return .done .nil
  | [x] => do
      Run.copyCell x.cell
      return .next x e
  | x :: y :: rest => do
      let v ← ev.eval x e
      Run.dropCell v.cell
      body ev e (y :: rest)

/-- Evaluates operands from the left, behind the values of `found`, which are
in reverse. -/
def operands (ev : Evaluator) (e : ScopeId) (found : List Placed) :
    List Placed → Run (List Placed)
  | [] => pure found.reverse
  | x :: xs => do
      let v ← ev.eval x e
      operands ev e (v :: found) xs

def quote (args : List Placed) : Run Step := do
  demand .quote (.exactly 1) args
  match args with
  | [x] => do
      Run.copyCell x.cell
      return .done x
  | _ => Run.fault

def branch (ev : Evaluator) (args : List Placed) (e : ScopeId) : Run Step := do
  demand .branch (.exactly 3) args
  match args with
  | [test, yes, no] => do
      let v ← ev.eval test e
      Run.dropCell v.cell
      let taken := if v.value.isTruthy then yes else no
      Run.copyCell taken.cell
      Run.copy ⟨.scope, e⟩
      return .next taken e
  | _ => Run.fault

def bindPairs (ev : Evaluator) (e : ScopeId) : List Placed → Run Unit
  | [] => pure ()
  | [_] => Run.fault
  | target :: x :: rest =>
      match target.value with
      | .symbol name => do
          let v ← ev.eval x e
          Run.define e name v
          bindPairs ev e rest
      | v => Run.raise (.malformed (.letName v))

def letForm (ev : Evaluator) (args : List Placed) (e : ScopeId) :
    Run Step := do
  demand .letForm (.atLeast 2) args
  match args with
  | pairs :: forms =>
      match pairs.value with
      | .list vs =>
          if vs.length % 2 ≠ 0 then Run.raise (.malformed .letUnpaired)
          else do
            let scope ← Run.openScope (some e)
            bindPairs ev scope (← Run.parts vs pairs.cell)
            body ev scope forms
      | _ => Run.raise (.malformed .letNotList)
  | [] => Run.fault

/-- Makes a lambda from a parameter list and a body. -/
def lambda (name : Option String) (paramList : Value) (forms : List Placed)
    (e : ScopeId) : Run Placed := do
  let names ← Run.plainly (.ofAnswer (Form.params paramList))
  Run.copyAll (Placed.refs forms)
  Run.copy ⟨.scope, e⟩
  let f ← Run.plainly (Eval.newLambda name names (Placed.values forms) e)
  let id ← Run.make (.lambda (Placed.cells forms) e)
  return ⟨f, .lambda id⟩

def lambdaOf (name : Option String) (args : List Placed) (e : ScopeId) :
    Run Placed := do
  demand .fnForm (.atLeast 2) args
  match args with
  | paramList :: forms => lambda name paramList.value forms e
  | [] => Run.fault

/-- The value of a definition. A literal `fn` form is made into a lambda of
that name. -/
def definiens (ev : Evaluator) (name : String) (x : Placed) (e : ScopeId) :
    Run Placed :=
  match Form.fnOperands? x.value with
  | some args => do
      let cells ← Run.look fun m => m.cells x.cell
      lambdaOf (some name) (args.zipWith Placed.mk cells.tail) e
  | none => ev.eval x e

/-- The function of a definition with a signature. Its parameters are copied
to a list of their own for as long as it takes. -/
def signature (name : String) (params : List Value) (target : Placed)
    (forms : List Placed) (e : ScopeId) : Run Placed := do
  let cells ← Run.look fun m => m.cells target.cell
  Run.copyAll (Cell.refs cells.tail)
  let id ← Run.make (.list cells.tail)
  let f ← lambda (some name) (.list params) forms e
  Run.drop ⟨.list, id⟩
  return f

def defForm (ev : Evaluator) (args : List Placed) (e : ScopeId) :
    Run Step := do
  demand .defForm (.atLeast 2) args
  match args with
  | target :: rest =>
      match target.value with
      | .symbol name => do
          demand .defForm (.exactly 2) args
          match rest with
          | [x] => do
              Run.define e name (← definiens ev name x e)
              return .done .nil
          | _ => Run.fault
      | .list [] => Run.raise (.malformed .defNameless)
      | .list (.symbol name :: params) => do
          Run.define e name (← signature name params target rest e)
          return .done .nil
      | .list (v :: _) => Run.raise (.malformed (.defName v))
      | v => Run.raise (.malformed (.defName v))
  | [] => Run.fault

def setForm (ev : Evaluator) (args : List Placed) (e : ScopeId) :
    Run Step := do
  demand .setForm (.exactly 2) args
  match args with
  | [target, x] =>
      match target.value with
      | .symbol name => do
          Run.assign e name (← ev.eval x e)
          return .done .nil
      | v => Run.raise (.malformed (.setName v))
  | _ => Run.fault

def begin (ev : Evaluator) (args : List Placed) (e : ScopeId) : Run Step := do
  demand .begin (.atLeast 1) args
  Run.copy ⟨.scope, e⟩
  body ev e args

def cond (ev : Evaluator) (e : ScopeId) : List Placed → Run Step
  | [] => pure (.done .nil)
  | clause :: clauses =>
      match clause.value with
      | .list [] => Run.raise .clauseWithoutTest
      | .list vs => do
          match ← Run.parts vs clause.cell with
          | test :: forms => do
              let v ← ev.eval test e
              Run.dropCell v.cell
              if v.value.isTruthy then
                Run.copy ⟨.scope, e⟩
                body ev e forms
              else cond ev e clauses
          | [] => Run.fault
      | v => Run.raise (.wrongKind .condClause v.kind)

/-! ## Templates -/

mutual

/-- Copies a template that is kept as the given cell. -/
def template (ev : Evaluator) (e : ScopeId) (depth : Nat) :
    Value → Cell → Run Placed
  | .list items, c => do
      let cells ← Run.look fun m => m.cells c
      match Form.tagged? items with
      | some (.unquote, x) =>
          if depth = 0 then
            ev.eval ⟨x, cells.tail.head?.getD (.plain .nil)⟩ e
          else do
            let depth ← Run.plainly (.ofAnswer (Form.lower depth))
            Run.gather (← copies ev e depth [] items cells)
      | some (.splice, _) =>
          if depth = 0 then Run.raise .spliceOutsideList
          else do
            let depth ← Run.plainly (.ofAnswer (Form.lower depth))
            Run.gather (← copies ev e depth [] items cells)
      | some (.quasiquote, _) =>
          Run.gather (← copies ev e (depth + 1) [] items cells)
      | _ => Run.gather (← elements ev e depth [] items cells)
  | v, c => do
      Run.copyCell c
      return ⟨v, c⟩

/-- Copies the elements of a tagged list. -/
def copies (ev : Evaluator) (e : ScopeId) (depth : Nat)
    (found : List Placed) : List Value → List Cell → Run (List Placed)
  | v :: vs, c :: cells => do
      let x ← template ev e depth v c
      copies ev e depth (x :: found) vs cells
  | _, _ => pure found.reverse

/-- Copies the elements of a plain list, splicing at depth zero. -/
def elements (ev : Evaluator) (e : ScopeId) (depth : Nat)
    (found : List Placed) : List Value → List Cell → Run (List Placed)
  | v :: vs, c :: cells =>
      match Form.spliced? v, depth with
      | some x, 0 => do
          let inner ← Run.look fun m => m.cells c
          let l ← ev.eval ⟨x, inner.tail.head?.getD (.plain .nil)⟩ e
          let items ← Run.plainly (.ofAnswer (Operand.list l.value))
          let items ← Run.parts items l.cell
          Run.copyAll (Placed.refs items)
          Run.dropCell l.cell
          elements ev e depth (items.reverseAux found) vs cells
      | _, _ => do
          let x ← template ev e depth v c
          elements ev e depth (x :: found) vs cells
  | _, _ => pure found.reverse

end

def quasiquote (ev : Evaluator) (args : List Placed) (e : ScopeId) :
    Run Step := do
  demand .quasiquote (.exactly 1) args
  match args with
  | [x] => return .done (← template ev e 0 x.value x.cell)
  | _ => Run.fault

def evalForm (ev : Evaluator) (args : List Placed) (e : ScopeId) :
    Run Step := do
  demand .eval (.exactly 1) args
  match args with
  | [x] => do
      let v ← ev.eval x e
      Run.copy ⟨.scope, e⟩
      return .next v e
  | _ => Run.fault

/-! ## Calls -/

/-- Binds parameters to operands, one after the other. -/
def bindParams (e : ScopeId) : List String → List Placed → Run Unit
  | name :: names, x :: xs => do
      Run.define e name x
      bindParams e names xs
  | _, _ => pure ()

/-- Calls a function, which takes the operands over. -/
def callStep (ev : Evaluator) (f : Placed) (args : List Placed) : Run Step :=
  match f.value with
  | .builtin b => do
      let x ← applyBuiltin ev.call b args
      Run.dropAll (Placed.refs args)
      return .done x
  | .lambda l => do
      Run.plainly (.ofAnswer
        (checkArity l.calledName (.exactly l.params.length) args.length))
      let e ← Run.openScope (some l.scope)
      bindParams e l.params args
      body ev e (← Run.parts l.body f.cell)
  | v => Run.raise (.notCallable v)

def application (ev : Evaluator) (head : Placed) (args : List Placed)
    (e : ScopeId) : Run Step := do
  let f ← ev.eval head e
  if f.value.isCallable then
    let xs ← operands ev e [] args
    let next ← callStep ev f xs
    Run.dropCell f.cell
    return next
  else Run.raise (.notCallable f.value)

/-! ## Expressions -/

def special (ev : Evaluator) (form : SpecialForm) (args : List Placed)
    (e : ScopeId) : Run Step :=
  match form with
  | .quote => quote args
  | .branch => branch ev args e
  | .letForm => letForm ev args e
  | .defForm => defForm ev args e
  | .setForm => setForm ev args e
  | .fnForm => return .done (← lambdaOf none args e)
  | .begin => begin ev args e
  | .cond => cond ev e args
  | .quasiquote => quasiquote ev args e
  | .eval => evalForm ev args e

/-- Evaluates a list with at least one element. -/
def list (ev : Evaluator) (head : Placed) (args : List Placed) (e : ScopeId) :
    Run Step :=
  match head.value with
  | .symbol name =>
      match SpecialForm.ofName? name with
      | some form => special ev form args e
      | none => application ev head args e
  | _ => application ev head args e

def step (ev : Evaluator) (x : Placed) (e : ScopeId) : Run Step :=
  match x.value with
  | .symbol name => return .done (← Run.lookup e name)
  | .list [] => do
      Run.copyCell x.cell
      return .done x
  | .list vs => do
      match ← Run.parts vs x.cell with
      | head :: args => list ev head args e
      | [] => Run.fault
  | _ => do
      Run.copyCell x.cell
      return .done x

end SmallLisp.Process
