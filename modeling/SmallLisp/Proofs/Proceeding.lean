import SmallLisp.Process.Form
import SmallLisp.Proofs.Answering
import SmallLisp.Proofs.Direct

/-!
# Forms in a process follow the forms

The forms are gone through one by one, for any evaluator in a process that
follows one without memory. What a form is given is kept by whoever evaluates
it, and so is the scope. When it is done, the form holds its value, or the
expression that remains and its scope, and nothing else besides.
-/

namespace SmallLisp.Process

open Memory

/-- Evaluating and calling in the process follow what is done without
memory. -/
structure FollowsEvaluator (ev : Evaluator)
    (ev' : SmallLisp.Evaluator) : Prop where
  eval : ∀ {p : Process} {J : Multiset Ref} {x : Placed} {e : ScopeId},
    p.Holding J → p.memory.Anchored J x → p.memory.Guards J ⟨.scope, e⟩ →
    Follows J p (ev.eval x e) (ev'.eval x.value e) (Yields J)
  call : FollowsCall ev.call ev'.call

/-- What is held after a step. -/
inductive Steps (J : Multiset Ref) :
    Step → SmallLisp.Step → Process → Prop where
  | done {x : Placed} {v : Value} {p : Process} (h : Yields J x v p) :
      Steps J (.done x) (.done v) p
  | next {x : Placed} {v : Value} {e : ScopeId} {p : Process}
      (h : Yields ({⟨.scope, e⟩} + J) x v p) :
      Steps J (.next x e) (.next v e) p

variable {ev : Evaluator} {ev' : SmallLisp.Evaluator} {p : Process}
  {H J K : Multiset Ref} {x f : Placed} {xs args forms found : List Placed}
  {vs : List Value} {e : ScopeId} {form : SpecialForm} {arity : Arity}

theorem steps_nil (hp : p.Holding J) :
    Steps J (.done .nil) (.done .nil) p :=
  .done ⟨rfl, .plain .nil, hp.of_eq (zero_add J).symm⟩

theorem Follows.raise {α β : Type} {post : α → β → Process → Prop}
    (hp : p.Holding J) (hJ : H ≤ J) (err : EvalError) :
    Follows H p (Run.raise err) (Eval.raise err) post :=
  .abort hp hJ (.failed err)

theorem Follows.demand {α β : Type} {f : Unit → Run α} {g : Unit → Eval β}
    {post : α → β → Process → Prop} (hp : p.Holding J) (hJ : H ≤ J)
    (hf : arity.accepts args.length = true →
      Follows H p (f ()) (g ()) post) :
    Follows H p (Process.demand form arity args >>= f)
      (Form.demand form arity (Placed.values args) >>= g) post := by
  refine .answer hp hJ fun _ ha => hf ?_
  rw [Placed.length_values] at ha
  exact accepts_of_checkArity ha

theorem guards_scope {m : Memory} :
    m.Guards ({⟨.scope, e⟩} + J) ⟨.scope, e⟩ :=
  .held (Multiset.mem_add.2 (.inl (Multiset.mem_singleton_self _)))

/-! ## Bodies -/

/-- An expression that is kept remains, and so does its scope. -/
theorem remain_follows (hp : p.Holding J) (hx : p.memory.Anchored J x)
    (he : p.memory.Guards J ⟨.scope, e⟩) :
    Follows J p (do
      Run.copyCell x.cell
      Run.copy ⟨.scope, e⟩
      return Step.next x e) (pure (.next x.value e)) (Steps J) := by
  refine .silent le_rfl (copyValue_follows hp hx) fun _ p₁ h₁ hcopy => ?_
  have hle : J ≤ x.claim + J := Multiset.le_add_left ..
  refine .silent hle (copy_follows hcopy.holding
    (hcopy.holding.live ((he.keeps h₁.keeps).of_le hle)))
    fun _ p₂ h₂ hp₂ => .pure (.next ⟨rfl, ?_, hp₂.of_eq (by abel)⟩)
  exact (hcopy.anchored.keeps h₂.keeps).reads

/-- The forms of a body, in a scope that is taken over. -/
theorem body_follows (hev : FollowsEvaluator ev ev')
    (hp : p.Holding ({⟨.scope, e⟩} + J))
    (hforms : p.memory.AnchoredAll J forms) :
    Follows J p (body ev e forms) (Form.body ev' e (Placed.values forms))
      (Steps J) := by
  have hle : J ≤ {⟨.scope, e⟩} + J := Multiset.le_add_left ..
  induction forms generalizing p with
  | nil =>
      exact .silent le_rfl (drop_follows hp)
        fun _ p₁ _ hp₁ => .pure (steps_nil hp₁)
  | cons x rest ih =>
      obtain ⟨hx, hrest⟩ := hforms.of_cons
      cases rest with
      | nil =>
          exact .silent hle (copyValue_follows hp (hx.of_le hle))
            fun _ p₁ _ hcopy => .pure (.next hcopy)
      | cons y rest =>
          refine .bind hle (hev.eval hp (hx.of_le hle) guards_scope)
            fun v w p₁ h₁ hv => ?_
          refine .silent hle (dropCell_follows hv.holding)
            fun _ p₂ h₂ hp₂ => ?_
          exact ih hp₂ (hrest.keeps ((h₁.trans h₂).mono hle).keeps)

/-- A body in a scope that is kept. -/
theorem bodyHere_follows (hev : FollowsEvaluator ev ev') (hp : p.Holding J)
    (hforms : p.memory.AnchoredAll J forms)
    (he : p.memory.Guards J ⟨.scope, e⟩) :
    Follows J p (do Run.copy ⟨.scope, e⟩; body ev e forms)
      (Form.body ev' e (Placed.values forms)) (Steps J) :=
  .silent le_rfl (copy_follows hp (hp.live he)) fun _ _ h₁ hp₁ =>
    body_follows hev hp₁ (hforms.keeps h₁.keeps)

/-- A test of which only the outcome is used. -/
theorem test_follows {α β : Type} {k : Bool → Run α} {g : Bool → Eval β}
    {post : α → β → Process → Prop} (hev : FollowsEvaluator ev ev')
    (hp : p.Holding J) (hx : p.memory.Anchored J x)
    (he : p.memory.Guards J ⟨.scope, e⟩)
    (hk : ∀ b p', Leads J p p' → p'.Holding J →
      Follows J p' (k b) (g b) post) :
    Follows J p (do
      let v ← ev.eval x e
      Run.dropCell v.cell
      k v.value.isTruthy) (do
      let v ← ev'.eval x.value e
      g v.isTruthy) post := by
  refine .bind le_rfl (hev.eval hp hx he) fun v w p₁ h₁ hv => ?_
  refine .silent le_rfl (dropCell_follows hv.holding) fun _ p₂ h₂ hp₂ => ?_
  rw [hv.value]
  exact hk w.isTruthy p₂ (h₁.trans h₂) hp₂

/-! ## Forms without templates -/

theorem quote_follows (hp : p.Holding J)
    (hargs : p.memory.AnchoredAll J args) :
    Follows J p (quote args) (Form.quote (Placed.values args))
      (Steps J) := by
  refine .demand hp le_rfl fun ha => ?_
  obtain ⟨x, rfl⟩ := exists_of_exactly_one ha
  exact .silent le_rfl (copyValue_follows hp (hargs.of_cons.1))
    fun _ _ _ hcopy => .pure (.done hcopy)

theorem branch_follows (hev : FollowsEvaluator ev ev') (hp : p.Holding J)
    (hargs : p.memory.AnchoredAll J args)
    (he : p.memory.Guards J ⟨.scope, e⟩) :
    Follows J p (branch ev args e) (Form.branch ev' (Placed.values args) e)
      (Steps J) := by
  refine .demand hp le_rfl fun ha => ?_
  obtain ⟨test, yes, no, rfl⟩ := exists_of_exactly_three ha
  obtain ⟨htest, hrest⟩ := hargs.of_cons
  obtain ⟨hyes, hno⟩ := hrest.of_cons
  refine test_follows
    (k := fun b => do
      let taken := if b then yes else no
      Run.copyCell taken.cell
      Run.copy ⟨.scope, e⟩
      return Step.next taken e)
    (g := fun b =>
      pure (SmallLisp.Step.next (if b then yes.value else no.value) e))
    hev hp htest he fun b p₁ h₁ hp₁ => ?_
  cases b with
  | true =>
      exact remain_follows hp₁ (hyes.keeps h₁.keeps) (he.keeps h₁.keeps)
  | false =>
      exact remain_follows hp₁ (hno.of_cons.1.keeps h₁.keeps)
        (he.keeps h₁.keeps)

/-- Names and expressions in turn, in a scope that is held. -/
theorem bindPairs_follows {p : Process} {J : Multiset Ref} {e : ScopeId}
    (hev : FollowsEvaluator ev ev') (hp : p.Holding J)
    (he : p.memory.Guards J ⟨.scope, e⟩) :
    (pairs : List Placed) → p.memory.AnchoredAll J pairs →
      Follows J p (bindPairs ev e pairs)
        (Form.bindPairs ev' e (Placed.values pairs))
        fun _ _ p' => p'.Holding J
  | [], _ => .pure hp
  | [_], _ => .abort hp le_rfl .fault
  | target :: x :: rest, h => by
      obtain ⟨hx, hrest⟩ := h.of_cons.2.of_cons
      unfold bindPairs
      simp only [Placed.values_cons]
      cases target.value with
      | symbol name =>
          refine .bind le_rfl (hev.eval hp hx he) fun v w p₁ h₁ hv => ?_
          have he₁ := he.keeps h₁.keeps
          rw [← hv.value]
          refine .bind le_rfl (define_follows hv.holding hv.reads he₁)
            fun _ _ p₂ h₂ hp₂ => ?_
          exact bindPairs_follows hev hp₂ (he₁.keeps h₂.keeps) rest
            (hrest.keeps (h₁.trans h₂).keeps)
      | _ => exact .raise hp le_rfl _

theorem letForm_follows (hev : FollowsEvaluator ev ev') (hp : p.Holding J)
    (hargs : p.memory.AnchoredAll J args)
    (he : p.memory.Guards J ⟨.scope, e⟩) :
    Follows J p (letForm ev args e) (Form.letForm ev' (Placed.values args) e)
      (Steps J) := by
  refine .demand hp le_rfl fun ha => ?_
  obtain ⟨pairs, forms, rfl⟩ := exists_of_atLeast ha
  obtain ⟨hpairs, hforms⟩ := hargs.of_cons
  simp only [Placed.values_cons]
  cases hv : pairs.value with
  | list vs =>
      dsimp only
      split
      · exact .raise hp le_rfl _
      · have hparent : ∀ q, some e = some q →
            p.memory.Guards J ⟨.scope, q⟩ := by
          intro q hq
          cases hq
          exact he
        refine .bind le_rfl (openScope_follows hp hparent)
          fun scope _ p₁ h₁ hopened => ?_
        obtain ⟨rfl, hp₁⟩ := hopened
        have hle : J ≤ {⟨.scope, scope⟩} + J := Multiset.le_add_left ..
        obtain ⟨hys, hvalues⟩ := (hpairs.keeps h₁.keeps).parts hv
        refine .parts ?_
        have hbind := bindPairs_follows hev hp₁ guards_scope _
          (hys.of_le hle)
        rw [hvalues] at hbind
        refine .bind hle hbind fun _ _ p₂ h₂ hp₂ => ?_
        exact body_follows hev hp₂
          ((hforms.keeps h₁.keeps).keeps (h₂.mono hle).keeps)
  | _ => exact .raise hp le_rfl _

/-- A lambda takes over its forms and its scope. -/
theorem made_follows {name : Option String} {names : List String}
    (hp : p.Holding ({⟨.scope, e⟩} + (Placed.claims forms + J)))
    (hforms : p.memory.ReadsAll (Placed.cells forms)
      (Placed.values forms)) :
    Follows J p (do
      let f ← Run.plainly
        (Eval.newLambda name names (Placed.values forms) e)
      let id ← Run.make (.lambda (Placed.cells forms) e)
      return Placed.mk f (.lambda id))
      (Eval.newLambda name names (Placed.values forms) e) (Yields J) := by
  refine ⟨_, rfl, ⟨keeps_add _, rfl⟩, rfl, ?_, ?_⟩
  · show Reads _ (.lambda (p.memory.next .lambda).id)
      (.lambda ⟨p.state.store.lambdas, name, names, _, e⟩)
    rw [← hp.mirrors.lambdas]
    have hnode : (p.memory.add (.lambda (Placed.cells forms) e)).node?
        ⟨.lambda, (p.memory.table .lambda).size⟩ =
          some (.lambda (Placed.cells forms) e) := node?_add_next _
    refine .lambda (f := ⟨_, name, names, Placed.values forms, e⟩) hnode ?_
    exact hforms.of_keeps fun H => keeps_add _
  · refine Holding.add (n := .lambda (Placed.cells forms) e)
      (hp.of_eq ?_) (hp.mirrors.add_lambda _)
    rw [Node.refs, ← Multiset.coe_add]
    show {⟨.scope, e⟩} + (Placed.claims forms + J) =
      Placed.claims forms + {⟨.scope, e⟩} + J
    abel

/-- A lambda is made from forms that are kept. -/
theorem lambda_follows {name : Option String} {paramList : Value}
    (hp : p.Holding J) (hforms : p.memory.AnchoredAll J forms)
    (he : p.memory.Guards J ⟨.scope, e⟩) :
    Follows J p (lambda name paramList forms e)
      (Form.lambda name paramList (Placed.values forms) e) (Yields J) := by
  refine .answer hp le_rfl fun names _ => ?_
  refine .silent le_rfl (copyAll_refs_follows hp hforms)
    fun _ p₁ h₁ hcopy => ?_
  have hle : J ≤ Placed.claims forms + J := Multiset.le_add_left ..
  refine .silent hle (copy_follows hcopy.holding (hcopy.holding.live
    ((he.keeps h₁.keeps).of_le hle))) fun _ p₂ h₂ hp₂ => ?_
  have hreads := (hcopy.reads.keeps (fun c hc r hr =>
    .held (Multiset.mem_add.2 (.inl (mem_claims hc hr)))) h₂.keeps)
  exact made_follows hp₂ hreads

theorem lambdaOf_follows {name : Option String} (hp : p.Holding J)
    (hargs : p.memory.AnchoredAll J args)
    (he : p.memory.Guards J ⟨.scope, e⟩) :
    Follows J p (lambdaOf name args e)
      (Form.lambdaOf name (Placed.values args) e) (Yields J) := by
  refine .demand hp le_rfl fun ha => ?_
  obtain ⟨paramList, forms, rfl⟩ := exists_of_atLeast ha
  exact lambda_follows hp hargs.of_cons.2 he

theorem list_of_fnOperands? {v : Value} {args : List Value}
    (h : Form.fnOperands? v = some args) :
    ∃ head, v = .list (head :: args) := by
  unfold Form.fnOperands? at h
  split at h
  · split at h
    · cases h
      exact ⟨_, rfl⟩
    · cases h
  · cases h

theorem zipWith_values_cells (ys : List Placed) :
    (Placed.values ys).zipWith Placed.mk (Placed.cells ys) = ys := by
  induction ys with
  | nil => rfl
  | cons y ys ih => exact congrArg (y :: ·) ih

/-- The first element of a list, and the elements behind it. -/
theorem exists_cons_items {m : Memory} {v : Value} (hx : m.Anchored J x)
    (hv : x.value = .list (v :: vs)) :
    ∃ y ys, m.Anchored J y ∧ m.AnchoredAll J ys ∧ y.value = v ∧
      Placed.values ys = vs ∧ Placed.cells (y :: ys) = m.cells x.cell := by
  obtain ⟨ys, hys, hvalues, hcells⟩ := exists_items hx hv
  cases ys with
  | nil => cases hvalues
  | cons y ys =>
      rw [Placed.values_cons, List.cons.injEq] at hvalues
      obtain ⟨hy, hys⟩ := hys.of_cons
      exact ⟨y, ys, hy, hys, hvalues.1, hvalues.2, hcells⟩

theorem definiens_follows {name : String} (hev : FollowsEvaluator ev ev')
    (hp : p.Holding J) (hx : p.memory.Anchored J x)
    (he : p.memory.Guards J ⟨.scope, e⟩) :
    Follows J p (definiens ev name x e)
      (Direct.defined ev'.eval name x.value e) (Yields J) := by
  unfold definiens Direct.defined
  cases hargs : Form.fnOperands? x.value with
  | none => exact hev.eval hp hx he
  | some args =>
      obtain ⟨head, hv⟩ := list_of_fnOperands? hargs
      obtain ⟨_, ys, -, hys, -, rfl, hcells⟩ := exists_cons_items hx hv
      refine .look ?_
      rw [← hcells, Placed.cells_cons, List.tail_cons, zipWith_values_cells]
      exact lambdaOf_follows hp hys he

/-- The parameters of a signature are kept in a list of their own until the
lambda has been made. -/
theorem signature_follows {name : String} {params : List Value}
    (hp : p.Holding J) (hx : p.memory.Anchored J x)
    (hv : x.value = .list (.symbol name :: params))
    (hforms : p.memory.AnchoredAll J forms)
    (he : p.memory.Guards J ⟨.scope, e⟩) :
    Follows J p (signature name params x forms e)
      (Form.lambda (some name) (.list params) (Placed.values forms) e)
      (Yields J) := by
  obtain ⟨_, ys, -, hys, -, -, hcells⟩ := exists_cons_items hx hv
  refine .look ?_
  rw [← hcells, Placed.cells_cons, List.tail_cons]
  refine .silent le_rfl (copyAll_refs_follows hp hys)
    fun _ p₁ h₁ hcopy => ?_
  refine .silent (J := Placed.claims ys + J) (Multiset.le_add_left ..)
    (make_list_follows hcopy.holding) fun id p₂ h₂ hmade => ?_
  have hle : J ≤ {⟨.list, id⟩} + J := Multiset.le_add_left ..
  have hkeep := h₁.keeps.trans (h₂.mono (Multiset.le_add_left ..)).keeps
  refine .of_bind_pure (.bind hle (lambda_follows hmade.2
    ((hforms.keeps hkeep).of_le hle) ((he.keeps hkeep).of_le hle))
    fun f v p₃ h₃ hf => ?_)
  exact .silent le_rfl (hf.drop_follows (drops_ref _))
    fun _ _ _ hf' => .pure hf'

/-- A definition, when its value has been taken hold of. -/
theorem defined_follows {c : Run Placed} {q : Eval Value} {name : String}
    (hc : Follows J p c q (Yields J)) (he : p.memory.Guards J ⟨.scope, e⟩) :
    Follows J p (do
      Run.define e name (← c)
      return Step.done .nil) (do
      let v ← q
      Eval.define e name v
      return SmallLisp.Step.done .nil) (Steps J) := by
  refine .bind le_rfl hc fun x v p₁ h₁ hx => ?_
  rw [← hx.value]
  exact .bind le_rfl (define_follows hx.holding hx.reads (he.keeps h₁.keeps))
    fun _ _ p₂ _ hp₂ => .pure (steps_nil hp₂)

theorem defForm_follows (hev : FollowsEvaluator ev ev') (hp : p.Holding J)
    (hargs : p.memory.AnchoredAll J args)
    (he : p.memory.Guards J ⟨.scope, e⟩) :
    Follows J p (defForm ev args e) (Form.defForm ev' (Placed.values args) e)
      (Steps J) := by
  refine .demand hp le_rfl fun ha => ?_
  obtain ⟨target, rest, rfl⟩ := exists_of_atLeast ha
  obtain ⟨htarget, hrest⟩ := hargs.of_cons
  dsimp only
  generalize hvs : Placed.values (target :: rest) = vs
  cases hv : target.value with
  | symbol name =>
      simp only [Placed.values_cons, hv] at hvs
      subst hvs
      refine .answer hp le_rfl fun _ ha' => ?_
      have hboth : (Arity.exactly 2).accepts (target :: rest).length =
          true := by
        rw [← Placed.length_values]
        exact accepts_of_checkArity ha'
      obtain ⟨_, x, hrest'⟩ := exists_of_exactly_two hboth
      cases hrest'
      have hvalue : Follows J p (definiens ev name x e)
          (Direct.defined ev'.eval name x.value e) (Yields J) :=
        definiens_follows hev hp hrest.of_cons.1 he
      unfold Direct.defined at hvalue
      simp only [Placed.values_cons, Placed.values_nil]
      cases hfn : Form.fnOperands? x.value with
      | none =>
          rw [hfn] at hvalue
          exact defined_follows hvalue he
      | some fnArgs =>
          rw [hfn] at hvalue
          exact defined_follows hvalue he
  | list items =>
      simp only [Placed.values_cons, hv] at hvs
      subst hvs
      match items with
      | [] => exact .raise hp le_rfl _
      | v :: params =>
          cases v with
          | symbol name =>
              exact defined_follows
                (signature_follows hp htarget hv hrest he) he
          | _ => exact .raise hp le_rfl _
  | _ =>
      simp only [Placed.values_cons, hv] at hvs
      subst hvs
      exact .raise hp le_rfl _

theorem setForm_follows (hev : FollowsEvaluator ev ev') (hp : p.Holding J)
    (hargs : p.memory.AnchoredAll J args)
    (he : p.memory.Guards J ⟨.scope, e⟩) :
    Follows J p (setForm ev args e) (Form.setForm ev' (Placed.values args) e)
      (Steps J) := by
  refine .demand hp le_rfl fun ha => ?_
  obtain ⟨target, x, rfl⟩ := exists_of_exactly_two ha
  obtain ⟨-, hx⟩ := hargs.of_cons
  simp only [Placed.values_cons]
  cases target.value with
  | symbol name =>
      refine .bind le_rfl (hev.eval hp hx.of_cons.1 he) fun y v p₁ h₁ hy => ?_
      rw [← hy.value]
      exact .bind le_rfl
        (assign_follows hy.holding hy.reads (he.keeps h₁.keeps))
        fun _ _ p₂ _ hp₂ => .pure (steps_nil hp₂)
  | _ => exact .raise hp le_rfl _

theorem begin_follows (hev : FollowsEvaluator ev ev') (hp : p.Holding J)
    (hargs : p.memory.AnchoredAll J args)
    (he : p.memory.Guards J ⟨.scope, e⟩) :
    Follows J p (begin ev args e) (Form.begin ev' (Placed.values args) e)
      (Steps J) :=
  .demand hp le_rfl fun _ => bodyHere_follows hev hp hargs he

theorem cond_follows (hev : FollowsEvaluator ev ev') (hp : p.Holding J)
    (hargs : p.memory.AnchoredAll J args)
    (he : p.memory.Guards J ⟨.scope, e⟩) :
    Follows J p (cond ev e args) (Form.cond ev' e (Placed.values args))
      (Steps J) := by
  induction args generalizing p with
  | nil => exact .pure (steps_nil hp)
  | cons clause clauses ih =>
      obtain ⟨hclause, hclauses⟩ := hargs.of_cons
      unfold cond
      simp only [Placed.values_cons]
      cases hv : clause.value with
      | list vs =>
          match vs with
          | [] => exact .raise hp le_rfl _
          | test :: forms =>
              obtain ⟨y, ys, hy, hys, rfl, rfl, hcells⟩ :=
                exists_cons_items hclause hv
              refine .parts ?_
              rw [← hcells, ← Placed.values_cons, zipWith_values_cells]
              refine test_follows
                (k := fun b =>
                  if b then do
                    Run.copy ⟨.scope, e⟩
                    body ev e ys
                  else cond ev e clauses)
                (g := fun b =>
                  if b then Form.body ev' e (Placed.values ys)
                  else Form.cond ev' e (Placed.values clauses))
                hev hp hy he fun b p₁ h₁ hp₁ => ?_
              have he₁ := he.keeps h₁.keeps
              cases b with
              | true =>
                  exact bodyHere_follows hev hp₁ (hys.keeps h₁.keeps) he₁
              | false => exact ih hp₁ (hclauses.keeps h₁.keeps) he₁
      | _ => exact .raise hp le_rfl _

/-! ## Templates -/

/-- The cells of several values that are kept. -/
structure KeptAs (m : Memory) (J : Multiset Ref) (cs : List Cell)
    (vs : List Value) : Prop where
  reads : m.ReadsAll cs vs
  guards : ∀ c ∈ cs, ∀ r, c.ref? = some r → m.Guards J r

theorem KeptAs.keeps {m M : Memory} {cs : List Cell}
    (h : KeptAs m J cs vs) (hk : Keeps J m M) : KeptAs M J cs vs :=
  ⟨h.reads.keeps h.guards hk, fun c hc r hr => (h.guards c hc r hr).keeps hk⟩

theorem KeptAs.of_cons {m : Memory} {c : Cell} {cs : List Cell} {v : Value}
    (h : KeptAs m J (c :: cs) (v :: vs)) :
    m.Anchored J ⟨v, c⟩ ∧ KeptAs m J cs vs := by
  obtain ⟨hreads, hguards⟩ := h
  obtain ⟨hc, hcs⟩ := List.forall_mem_cons.1 hguards
  cases hreads with
  | cons hv hvs => exact ⟨⟨hv, hc⟩, hvs, hcs⟩

theorem items_of_tagged? {items : List Value} {mark : QuoteMark} {v : Value}
    (h : Form.tagged? items = some (mark, v)) : ∃ u, items = [u, v] := by
  unfold Form.tagged? at h
  split at h
  · obtain ⟨mark', -, heq⟩ := Option.map_eq_some_iff.1 h
    cases heq
    exact ⟨_, rfl⟩
  · cases h

/-- The operand of a mark in a template. -/
theorem KeptAs.operand {m : Memory} {cs : List Cell} {items : List Value}
    {mark : QuoteMark} {v : Value} (h : KeptAs m J cs items)
    (htag : Form.tagged? items = some (mark, v)) :
    m.Anchored J ⟨v, cs.tail.head?.getD (.plain .nil)⟩ := by
  obtain ⟨u, rfl⟩ := items_of_tagged? htag
  match cs, h.reads.length_eq with
  | [c, d], _ => exact h.of_cons.2.of_cons.1

theorem keptAs_items {m : Memory} {c : Cell} {items : List Value}
    (h : m.Anchored J ⟨.list items, c⟩) : KeptAs m J (m.cells c) items :=
  have hitems := h.items rfl
  ⟨hitems.1, hitems.2⟩

theorem items_of_spliced? {u v : Value} (h : Form.spliced? u = some v) :
    ∃ items, u = .list items ∧
      Form.tagged? items = some (.splice, v) := by
  unfold Form.spliced? at h
  split at h
  · split at h
    · next htag =>
        cases h
        exact ⟨_, rfl, htag⟩
    · cases h
  · cases h

/-- Values that are put behind others which are held. -/
theorem YieldsAll.reverseAux {ys : List Placed} {us ws : List Value}
    (hys : YieldsAll (Placed.claims found + J) ys ws p)
    (hvalues : Placed.values found = us)
    (hreads : p.memory.ReadsAll (Placed.cells found)
      (Placed.values found)) :
    YieldsAll J (ys.reverseAux found) (ws.reverseAux us) p where
  values := by
    rw [List.reverseAux_eq, List.reverseAux_eq, ← hys.reverse.values,
      ← hvalues]
    exact List.map_append
  reads := by
    rw [List.reverseAux_eq]
    have hall := hys.reverse.reads.append hreads
    rwa [Placed.cells, Placed.cells, ← List.map_append, Placed.values,
      Placed.values, ← List.map_append] at hall
  holding := by
    refine hys.holding.of_eq ?_
    rw [List.reverseAux_eq, Placed.claims_append, Placed.claims_reverse,
      add_assoc]

/-- The elements of a list that is spliced are taken hold of, and the list
itself is given up. -/
theorem splice_follows {u v : Value} {c : Cell}
    (hev : FollowsEvaluator ev ev') (hp : p.Holding J)
    (hu : p.memory.Anchored J ⟨u, c⟩) (he : p.memory.Guards J ⟨.scope, e⟩)
    (hs : Form.spliced? u = some v) :
    Follows J p (do
      let inner ← Run.look fun m => m.cells c
      let l ← ev.eval ⟨v, inner.tail.head?.getD (.plain .nil)⟩ e
      let items ← Run.plainly (.ofAnswer (Operand.list l.value))
      let items ← Run.parts items l.cell
      Run.copyAll (Placed.refs items)
      Run.dropCell l.cell
      return items) (do
      let l ← ev'.eval v e
      Eval.ofAnswer (Operand.list l)) (YieldsAll J) := by
  obtain ⟨items, rfl, htag⟩ := items_of_spliced? hs
  refine .look ?_
  refine .bind le_rfl (hev.eval hp ((keptAs_items hu).operand htag) he)
    fun l w p₁ h₁ hl => .of_bind_pure ?_
  have hle : J ≤ l.claim + J := Multiset.le_add_left ..
  rw [← hl.value]
  refine .answer hl.holding hle fun vs hvs => ?_
  obtain ⟨ys, hys, rfl, hcells⟩ :=
    exists_items hl.anchored (value_of_operandList hvs)
  refine .parts ?_
  rw [← hcells, zipWith_values_cells]
  refine .silent hle (copyAll_refs_follows hl.holding hys)
    fun _ p₂ h₂ hcopy => ?_
  refine .silent (J := Placed.claims ys + J) (Multiset.le_add_left ..)
    (dropCell_follows (hcopy.holding.of_eq ?_)) fun _ p₃ h₃ hp₃ => ?_
  · show Placed.claims ys + (l.claim + J) =
      l.claim + (Placed.claims ys + J)
    abel
  · exact .pure ⟨rfl, h₃.readsAll hcopy.reads, hp₃⟩

mutual

theorem template_follows {p : Process} {J : Multiset Ref}
    (hev : FollowsEvaluator ev ev') (hp : p.Holding J)
    (he : p.memory.Guards J ⟨.scope, e⟩) (depth : Nat) :
    (v : Value) → (c : Cell) → p.memory.Anchored J ⟨v, c⟩ →
      Follows J p (template ev e depth v c) (Form.template ev' e depth v)
        (Yields J)
  | .list items, c, hx => by
      have hkept := keptAs_items hx
      have hcopies (d : Nat) : Follows J p
          (copies ev e d [] items (p.memory.cells c) >>= Run.gather)
          (do return .list (← Form.copies ev' e d [] items)) (Yields J) :=
        .bind le_rfl (copies_follows hev (yieldsAll_nil hp) he d items _ hkept)
          fun _ _ _ _ hys => gather_follows hys
      have helements : Follows J p
          (elements ev e depth [] items (p.memory.cells c) >>= Run.gather)
          (do return .list (← Form.elements ev' e depth [] items))
          (Yields J) :=
        .bind le_rfl
          (elements_follows hev (yieldsAll_nil hp) he depth items _ hkept)
          fun _ _ _ _ hys => gather_follows hys
      rw [template, Form.template]
      refine .look ?_
      cases htag : Form.tagged? items with
      | none => exact helements
      | some t =>
          obtain ⟨mark, x⟩ := t
          cases mark with
          | quote => exact helements
          | quasiquote => exact hcopies (depth + 1)
          | unquote =>
              dsimp only
              split
              · exact hev.eval hp (hkept.operand htag) he
              · exact .answer hp le_rfl fun d _ => hcopies d
          | splice =>
              dsimp only
              split
              · exact .raise hp le_rfl _
              · exact .answer hp le_rfl fun d _ => hcopies d
  | .nil, c, hx | .bool _, c, hx | .int _, c, hx | .float _, c, hx
  | .str _, c, hx | .symbol _, c, hx | .builtin _, c, hx
  | .lambda _, c, hx => by
      exact .silent le_rfl (copyValue_follows hp hx)
        fun _ _ _ hcopy => .pure hcopy

theorem copies_follows {p : Process} {J : Multiset Ref}
    {found : List Placed} {us : List Value}
    (hev : FollowsEvaluator ev ev') (hfound : YieldsAll J found us p)
    (he : p.memory.Guards J ⟨.scope, e⟩) (depth : Nat) :
    (vs : List Value) → (cs : List Cell) → KeptAs p.memory J cs vs →
      Follows J p (copies ev e depth found vs cs)
        (Form.copies ev' e depth us vs) (YieldsAll J)
  | [], cs, _ => by
      rw [copies, Form.copies]
      · exact .pure hfound.reverse
      · exact nofun
  | v :: vs, cs, h => by
      match cs, h.reads.length_eq with
      | c :: cs, _ =>
      obtain ⟨hv, hvs⟩ := h.of_cons
      have hle : J ≤ Placed.claims found + J := Multiset.le_add_left ..
      rw [copies, Form.copies]
      refine .bind hle (template_follows hev hfound.holding (he.of_le hle)
        depth v c (hv.of_le hle)) fun x w p₁ h₁ hx => ?_
      have hkeep := (h₁.mono hle).keeps
      exact copies_follows hev (hx.cons hfound h₁) (he.keeps hkeep) depth vs
        cs (hvs.keeps hkeep)

theorem elements_follows {p : Process} {J : Multiset Ref}
    {found : List Placed} {us : List Value}
    (hev : FollowsEvaluator ev ev') (hfound : YieldsAll J found us p)
    (he : p.memory.Guards J ⟨.scope, e⟩) (depth : Nat) :
    (vs : List Value) → (cs : List Cell) → KeptAs p.memory J cs vs →
      Follows J p (elements ev e depth found vs cs)
        (Form.elements ev' e depth us vs) (YieldsAll J)
  | [], cs, _ => by
      rw [elements, Form.elements]
      · exact .pure hfound.reverse
      · exact nofun
  | v :: vs, cs, h => by
      match cs, h.reads.length_eq with
      | c :: cs, _ =>
      obtain ⟨hv, hvs⟩ := h.of_cons
      have hle : J ≤ Placed.claims found + J := Multiset.le_add_left ..
      have hplain : Follows J p (do
          let x ← template ev e depth v c
          elements ev e depth (x :: found) vs cs) (do
          let w ← Form.template ev' e depth v
          Form.elements ev' e depth (w :: us) vs) (YieldsAll J) := by
        refine .bind hle (template_follows hev hfound.holding (he.of_le hle)
          depth v c (hv.of_le hle)) fun x w p₁ h₁ hx => ?_
        have hkeep := (h₁.mono hle).keeps
        exact elements_follows hev (hx.cons hfound h₁) (he.keeps hkeep)
          depth vs cs (hvs.keeps hkeep)
      rw [elements.eq_def, Form.elements.eq_def]
      cases hs : Form.spliced? v with
      | none =>
          simp only [hs]
          exact hplain
      | some x =>
          cases depth with
          | succ depth =>
              simp only [hs]
              exact hplain
          | zero =>
              simp only [hs]
              have hsplice := splice_follows hev hfound.holding
                (hv.of_le hle) (he.of_le hle) hs
              have hrest := hsplice.bind hle
                (f := fun ys => elements ev e 0 (ys.reverseAux found) vs cs)
                (g := fun ws => Form.elements ev' e 0 (ws.reverseAux us) vs)
                fun ys ws p₁ h₁ hys => by
                  have hkeep := (h₁.mono hle).keeps
                  exact elements_follows hev (hys.reverseAux hfound.values
                    (h₁.readsAll hfound.reads)) (he.keeps hkeep) 0 vs cs
                    (hvs.keeps hkeep)
              simpa only [bind_assoc, pure_bind] using hrest

end

theorem quasiquote_follows (hev : FollowsEvaluator ev ev')
    (hp : p.Holding J) (hargs : p.memory.AnchoredAll J args)
    (he : p.memory.Guards J ⟨.scope, e⟩) :
    Follows J p (quasiquote ev args e)
      (Form.quasiquote ev' (Placed.values args) e) (Steps J) := by
  refine .demand hp le_rfl fun ha => ?_
  obtain ⟨x, rfl⟩ := exists_of_exactly_one ha
  exact .bind le_rfl
    (template_follows hev hp he 0 x.value x.cell hargs.of_cons.1)
    fun _ _ _ _ hx => .pure (.done hx)

theorem evalForm_follows (hev : FollowsEvaluator ev ev') (hp : p.Holding J)
    (hargs : p.memory.AnchoredAll J args)
    (he : p.memory.Guards J ⟨.scope, e⟩) :
    Follows J p (evalForm ev args e) (Form.eval ev' (Placed.values args) e)
      (Steps J) := by
  refine .demand hp le_rfl fun ha => ?_
  obtain ⟨x, rfl⟩ := exists_of_exactly_one ha
  refine .bind le_rfl (hev.eval hp hargs.of_cons.1 he)
    fun y v p₁ h₁ hy => ?_
  have hle : J ≤ y.claim + J := Multiset.le_add_left ..
  have hlive := hy.holding.live ((he.keeps h₁.keeps).of_le hle)
  refine .silent hle (copy_follows hy.holding hlive) fun _ p₂ h₂ hp₂ => ?_
  refine .pure (.next ⟨hy.value, ?_, hp₂.of_eq (by abel)⟩)
  exact (hy.anchored.keeps h₂.keeps).reads

end SmallLisp.Process
