import SmallLisp.Process.Eval
import SmallLisp.Proofs.Proceeding

/-!
# Evaluation in a process follows evaluation

A call takes its operands over, into the scope of a lambda or until a builtin
has answered. What it leaves is evaluated in that scope, and both are given up
afterwards.

The knot is tied at the end (`eval_follows`): with the same fuel, evaluation
in a process does what evaluation does, unless it is killed.
-/

namespace SmallLisp.Process

open Memory

variable {ev : Evaluator} {ev' : SmallLisp.Evaluator} {p : Process}
  {J K : Multiset Ref} {x f : Placed} {xs args found : List Placed}
  {vs : List Value} {e : ScopeId}

/-! ## Calls -/

theorem operands_follows (hev : FollowsEvaluator ev ev')
    (hfound : YieldsAll J found vs p) (hxs : p.memory.AnchoredAll J xs)
    (he : p.memory.Guards J ⟨.scope, e⟩) :
    Follows J p (operands ev e found xs)
      (Form.operands ev' e vs (Placed.values xs)) (YieldsAll J) := by
  induction xs generalizing p found vs with
  | nil => exact .pure hfound.reverse
  | cons x xs ih =>
      obtain ⟨hx, hxs⟩ := hxs.of_cons
      have hle : J ≤ Placed.claims found + J := Multiset.le_add_left ..
      refine .bind hle (hev.eval hfound.holding (hx.of_le hle)
        (he.of_le hle)) fun y v p₁ h₁ hy => ?_
      have hkeep := (h₁.mono hle).keeps
      exact ih (hy.cons hfound h₁) (hxs.keeps hkeep) (he.keeps hkeep)

/-- Operands are moved into the scope of a call. -/
theorem bindParams_follows {names : List String}
    (hxs : YieldsAll J xs vs p) (he : p.memory.Guards J ⟨.scope, e⟩)
    (hlength : names.length = xs.length) :
    Follows J p (bindParams e names xs) (Form.bindParams e names vs)
      fun _ _ p' => p'.Holding J := by
  induction names generalizing p xs vs with
  | nil =>
      obtain rfl := List.length_eq_zero_iff.1 hlength.symm
      exact .pure (hxs.holding.of_eq (zero_add J))
  | cons name names ih =>
      match xs, hlength with
      | x :: xs, hlength =>
      obtain ⟨rfl, hreads, hp⟩ := hxs
      have hle : J ≤ Placed.claims xs + J := Multiset.le_add_left ..
      cases hreads with
      | cons hx hreads =>
          refine .bind hle (define_follows (hp.of_eq ?_) hx (he.of_le hle))
            fun _ _ p₁ h₁ hp₁ => ?_
          · rw [Placed.claims_cons, add_assoc]
          · exact ih ⟨rfl, h₁.readsAll hreads, hp₁⟩
              (he.keeps (h₁.mono hle).keeps) (Nat.succ.inj hlength)

theorem anchoredAll_claims {m : Memory}
    (h : m.ReadsAll (Placed.cells xs) (Placed.values xs))
    (hJ : Placed.claims xs ≤ J) : m.AnchoredAll J xs := by
  induction xs with
  | nil => exact nofun
  | cons x xs ih =>
      rw [Placed.claims_cons] at hJ
      cases h with
      | cons hx hxs =>
          refine List.forall_mem_cons.2 ⟨.of_claim hx ?_, ih hxs ?_⟩
          · exact (Multiset.le_add_right ..).trans hJ
          · exact (Multiset.le_add_left ..).trans hJ

theorem callStep_follows (hev : FollowsEvaluator ev ev')
    (hxs : YieldsAll J xs vs p) (hf : p.memory.Anchored J f) :
    Follows J p (callStep ev f xs) (Form.callStep ev' f.value vs)
      (Steps J) := by
  have hle : J ≤ Placed.claims xs + J := Multiset.le_add_left ..
  obtain ⟨rfl, hreads, hp⟩ := hxs
  unfold callStep
  generalize hv : f.value = v
  cases v with
  | builtin b =>
      refine .bind hle (applyBuiltin_follows hev.call b hp
        (anchoredAll_claims hreads (Multiset.le_add_right ..)))
        fun y v p₁ h₁ hy => ?_
      exact .silent le_rfl (hy.drop_follows (drops_refs (Placed.refs xs)))
        fun _ _ _ hy' => .pure (.done hy')
  | lambda l =>
      simp only [Form.callStep, Form.enter, bind_assoc, pure_bind,
        Placed.length_values]
      refine .answer hp hle fun _ ha => ?_
      obtain ⟨-, -, hscope⟩ := hf.code hv
      refine .bind hle (openScope_follows hp fun q hq => ?_) ?_
      · cases hq
        exact hscope.of_le hle
      · rintro e _ p₁ h₁ ⟨rfl, hp₁⟩
        have hle' : J ≤ {⟨.scope, e⟩} + J := Multiset.le_add_left ..
        have hxs₁ : YieldsAll ({⟨.scope, e⟩} + J) xs (Placed.values xs) p₁ :=
          ⟨rfl, h₁.readsAll hreads, hp₁.of_eq (by abel)⟩
        have hlength : l.params.length = xs.length :=
          (length_of_exactly (accepts_of_checkArity ha)).symm
        refine .bind hle' (bindParams_follows hxs₁ guards_scope hlength)
          fun _ _ p₂ h₂ hp₂ => ?_
        have hkeep := (h₁.mono hle).keeps.trans (h₂.mono hle').keeps
        obtain ⟨hcode, hguards, -⟩ := (hf.keeps hkeep).code hv
        refine .parts ?_
        have hbody := body_follows hev hp₂
          (anchoredAll_zipWith hcode hguards)
        rwa [values_zipWith hcode] at hbody
  | _ => exact .raise hp hle _

/-- References are given up after a step; what the step has left is held. -/
theorem Steps.drop_follows {d : Run Unit} {s : Step}
    {t : SmallLisp.Step} (h : Steps (K + J) s t p) (hd : Drops K d) :
    Follows J p d (pure ()) fun _ _ p' => Steps J s t p' := by
  cases h with
  | done h =>
      exact (h.drop_follows hd).mono le_rfl fun _ _ _ _ h' => .done h'
  | next h =>
      rw [add_left_comm] at h
      exact (h.drop_follows hd).mono (Multiset.le_add_left ..)
        fun _ _ _ _ h' => .next h'

theorem application_follows (hev : FollowsEvaluator ev ev')
    (hp : p.Holding J) (hx : p.memory.Anchored J x)
    (hargs : p.memory.AnchoredAll J args)
    (he : p.memory.Guards J ⟨.scope, e⟩) :
    Follows J p (application ev x args e)
      (Form.application ev' x.value (Placed.values args) e) (Steps J) := by
  refine .bind le_rfl (hev.eval hp hx he) fun f v p₁ h₁ hf => ?_
  have hle : J ≤ f.claim + J := Multiset.le_add_left ..
  rw [← hf.value]
  split
  · refine .bind hle (operands_follows hev (yieldsAll_nil hf.holding)
      ((hargs.keeps h₁.keeps).of_le hle) ((he.keeps h₁.keeps).of_le hle))
      fun xs vs p₂ h₂ hxs => ?_
    refine .of_bind_pure (.bind hle (callStep_follows hev hxs
      (hf.anchored.keeps h₂.keeps)) fun s t p₃ _ hs => ?_)
    exact .silent le_rfl (hs.drop_follows (drops_cell f.cell))
      fun _ _ _ hs' => .pure hs'
  · exact .raise hf.holding hle _

/-! ## Expressions -/

theorem special_follows (hev : FollowsEvaluator ev ev') (hp : p.Holding J)
    (hargs : p.memory.AnchoredAll J args)
    (he : p.memory.Guards J ⟨.scope, e⟩) (form : SpecialForm) :
    Follows J p (special ev form args e)
      (Form.special ev' form (Placed.values args) e) (Steps J) := by
  cases form with
  | quote => exact quote_follows hp hargs
  | branch => exact branch_follows hev hp hargs he
  | letForm => exact letForm_follows hev hp hargs he
  | defForm => exact defForm_follows hev hp hargs he
  | setForm => exact setForm_follows hev hp hargs he
  | fnForm =>
      exact .bind le_rfl (lambdaOf_follows hp hargs he)
        fun _ _ _ _ hf => .pure (.done hf)
  | begin => exact begin_follows hev hp hargs he
  | cond => exact cond_follows hev hp hargs he
  | quasiquote => exact quasiquote_follows hev hp hargs he
  | eval => exact evalForm_follows hev hp hargs he

theorem list_follows (hev : FollowsEvaluator ev ev') (hp : p.Holding J)
    (hx : p.memory.Anchored J x) (hargs : p.memory.AnchoredAll J args)
    (he : p.memory.Guards J ⟨.scope, e⟩) :
    Follows J p (list ev x args e)
      (Form.list ev' x.value (Placed.values args) e) (Steps J) := by
  have happlication := application_follows hev hp hx hargs he
  unfold list
  generalize hv : x.value = v at happlication ⊢
  cases v with
  | symbol name =>
      dsimp only [Form.list]
      cases SpecialForm.ofName? name with
      | some form => exact special_follows hev hp hargs he form
      | none => exact happlication
  | _ => exact happlication

theorem step_follows (hev : FollowsEvaluator ev ev') (hp : p.Holding J)
    (hx : p.memory.Anchored J x) (he : p.memory.Guards J ⟨.scope, e⟩) :
    Follows J p (step ev x e) (Form.step ev' x.value e) (Steps J) := by
  have hself : Follows J p (do Run.copyCell x.cell; return .done x)
      (pure (.done x.value)) (Steps J) :=
    .silent le_rfl (copyValue_follows hp hx)
      fun _ _ _ hcopy => .pure (.done hcopy)
  unfold step
  generalize hv : x.value = v at hself ⊢
  cases v with
  | symbol name =>
      exact .bind le_rfl (lookup_follows hp he)
        fun _ _ _ _ hy => .pure (.done hy)
  | list items =>
      cases items with
      | nil => exact hself
      | cons head args =>
          obtain ⟨y, ys, hy, hys, rfl, rfl, hcells⟩ :=
            exists_cons_items hx hv
          refine .parts ?_
          rw [← hcells, ← Placed.values_cons, zipWith_values_cells]
          exact list_follows hev hp hy hys he
  | _ => exact hself

/-! ## Evaluation -/

theorem eval_loop (fuel : Nat) (x : Value) (e : ScopeId) :
    SmallLisp.eval (fuel + 1) x e =
      Form.step ⟨SmallLisp.eval fuel, SmallLisp.call fuel⟩ x e >>=
        finish (SmallLisp.eval fuel) := by
  rw [SmallLisp.eval]
  exact loop_eq _ _

theorem call_loop (fuel : Nat) (f : Value) (vs : List Value) :
    SmallLisp.call (fuel + 1) f vs =
      Form.callStep ⟨SmallLisp.eval fuel, SmallLisp.call fuel⟩ f vs >>=
        finish (SmallLisp.eval fuel) := by
  rw [SmallLisp.call]
  exact loop_eq _ _

theorem le_claim_add (x : Placed) (e : ScopeId) (J : Multiset Ref) :
    J ≤ x.claim + ({⟨.scope, e⟩} + J) :=
  (Multiset.le_add_left ..).trans (Multiset.le_add_left ..)

theorem guards_remaining {m : Memory} :
    m.Guards (x.claim + ({⟨.scope, e⟩} + J)) ⟨.scope, e⟩ :=
  guards_scope.of_le (Multiset.le_add_left ..)

/-- What a call has left is evaluated and then given up. -/
theorem remaining_follows {v : Value} (hev : FollowsEvaluator ev ev')
    (hx : Yields ({⟨.scope, e⟩} + J) x v p) :
    Follows J p (do
      let y ← ev.eval x e
      Run.drop ⟨.scope, e⟩
      Run.dropCell x.cell
      return y) (ev'.eval v e) (Yields J) := by
  rw [← hx.value]
  refine .of_bind_pure (.bind (le_claim_add x e J)
    (hev.eval hx.holding hx.anchored guards_remaining)
    fun y w p₁ _ hy => ?_)
  rw [add_left_comm] at hy
  refine .silent (Multiset.le_add_left ..) (hy.drop_follows (drops_ref _))
    fun _ p₂ _ hy₂ => ?_
  exact .silent le_rfl (hy₂.drop_follows (drops_cell x.cell))
    fun _ _ _ hy₃ => .pure hy₃

/-- What a step has left is given up after the next step. -/
theorem nextStep_follows {α β : Type} {k : Step → Run α}
    {g : SmallLisp.Step → Eval β} {post : α → β → Process → Prop} {v : Value}
    (hev : FollowsEvaluator ev ev')
    (hx : Yields ({⟨.scope, e⟩} + J) x v p)
    (hk : ∀ s t p', Steps J s t p' → Follows J p' (k s) (g t) post) :
    Follows J p (do
      let next ← step ev x e
      Run.drop ⟨.scope, e⟩
      Run.dropCell x.cell
      k next) (Form.step ev' v e >>= g) post := by
  rw [← hx.value]
  refine .bind (le_claim_add x e J)
    (step_follows hev hx.holding hx.anchored guards_remaining)
    fun s t p₁ _ hs => ?_
  rw [add_left_comm] at hs
  refine .silent (Multiset.le_add_left ..) (hs.drop_follows (drops_ref _))
    fun _ p₂ _ hs₂ => ?_
  exact .silent le_rfl (hs₂.drop_follows (drops_cell x.cell))
    fun _ p₃ _ hs₃ => hk s t p₃ hs₃

/-- Evaluating what a step has left follows evaluation. -/
def FollowsResume (fuel : Nat) : Prop :=
  ∀ {p : Process} {J : Multiset Ref} {x : Placed} {v : Value} {e : ScopeId},
    Yields ({⟨.scope, e⟩} + J) x v p →
    Follows J p (resume fuel x e) (SmallLisp.eval fuel v e) (Yields J)

/-- With the same fuel, evaluation in a process follows evaluation. -/
theorem eval_follows (fuel : Nat) :
    FollowsEvaluator ⟨eval fuel, call fuel⟩
      ⟨SmallLisp.eval fuel, SmallLisp.call fuel⟩ ∧ FollowsResume fuel := by
  induction fuel with
  | zero =>
      refine ⟨⟨fun hp _ _ => .abort hp le_rfl .outOfFuel,
        fun hxs _ => ?_⟩, fun hx => ?_⟩
      · exact .abort hxs.holding (Multiset.le_add_left ..) .outOfFuel
      · refine .abort hx.holding ?_ .outOfFuel
        exact (Multiset.le_add_left ..).trans (Multiset.le_add_left ..)
  | succ fuel ih =>
      obtain ⟨hev, hresume⟩ := ih
      refine ⟨⟨fun {p J x e} hp hx he => ?_, fun {p J f xs vs} hxs hf => ?_⟩,
        fun {p J x v e} hx => ?_⟩
      · show Follows J p (eval (fuel + 1) x e) (SmallLisp.eval _ _ e) _
        rw [eval_loop]
        refine .bind le_rfl (step_follows hev hp hx he) fun s t p₁ _ hs => ?_
        cases hs with
        | done hy => exact .pure hy
        | next hy => exact hresume hy
      · show Follows J p (call (fuel + 1) f xs) (SmallLisp.call _ _ vs) _
        rw [call_loop]
        refine .bind le_rfl (callStep_follows hev hxs hf)
          fun s t p₁ _ hs => ?_
        cases hs with
        | done hy => exact .pure hy
        | @next y w e _ hy =>
            exact remaining_follows hev hy
      · rw [eval_loop]
        refine nextStep_follows hev hx fun s t p₁ hs => ?_
        cases hs with
        | done hy => exact .pure hy
        | next hy => exact hresume hy

end SmallLisp.Process
