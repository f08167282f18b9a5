import SmallLisp.Proofs.Checks
import SmallLisp.Proofs.Direct

/-!
# What the whole evaluator keeps up

A statement about every evaluation is proved by walking over the forms and
the builtins. There are several such statements. One follows a single run
and says what it may do to the store, another follows two runs side by
side, a third only asks whether a run can break down. The walk is the same
for all of them, and it is done here once.

An `Upkeep` is a judgment on computations, `Keeps w Q m`: from the world
`w` on, `m` does what is asked of it, and if it ends with a value then the
value has the property `Q` in the world at the end. What a world is, and
what is asked, is left open. The walk only needs that the judgment holds
of the operations on the state and goes through sequencing. So it holds of
everything that is made from them, of evaluation and calls (`keeps_eval`).

Two things are settled on the way and need not concern those who use it.
The scopes that come up are accounted for: a scope that is linked may be
looked at and captured, in one that is a home names may be bound as well.
And no operation meets operands that it has no case for, since the number
of operands is checked before; so nothing is asked about faults.
-/

namespace SmallLisp

open Value (Only only_list only_lambda only_symbol)

/-- A judgment on computations that goes through sequencing and holds of
the operations on the state. -/
structure Upkeep where
  World : Type
  word : String → Prop
  grows : World → World → Prop
  link : World → ScopeId → Prop
  home : World → ScopeId → Prop
  Keeps {α : Type} : World → (World → α → Prop) → Eval α → Prop
  grows_trans : ∀ {w w' w''}, grows w w' → grows w' w'' → grows w w''
  link_mono : ∀ {w w'}, grows w w' → ∀ e, link w e → link w' e
  home_mono : ∀ {w w'}, grows w w' → ∀ e, home w e → home w' e
  link_of_home : ∀ {w e}, home w e → link w e
  keeps_pure : ∀ {α : Type} {w} {Q : World → α → Prop} {a}, Q w a →
    Keeps w Q (pure a)
  keeps_raise : ∀ {α : Type} {w} {Q : World → α → Prop} {err},
    Keeps w Q (Eval.raise err)
  keeps_outOfFuel : ∀ {α : Type} {w} {Q : World → α → Prop},
    Keeps w Q (throw .outOfFuel)
  keeps_bind : ∀ {α β : Type} {w} {Q : World → α → Prop}
    {R : World → β → Prop} {m : Eval α} {k : α → Eval β}, Keeps w Q m →
    (∀ w' a, grows w w' → Q w' a → Keeps w' R (k a)) → Keeps w R (m >>= k)
  keeps_newScope : ∀ {w e}, link w e →
    Keeps w (fun w' scope => home w' scope) (Eval.newScope (some e))
  keeps_define : ∀ {w e name v}, home w e → Only (link w) word v →
    Keeps w (fun _ _ => True) (Eval.define e name v)
  keeps_lookup : ∀ {w e name}, link w e →
    Keeps w (fun w' v => Only (link w') word v) (Eval.lookup e name)
  -- A program that cannot say the word never assigns.
  keeps_assign : ∀ {w e name v}, word SpecialForm.setForm.name → link w e →
    Only (link w) word v → Keeps w (fun _ _ => True) (Eval.assign e name v)
  keeps_newLambda : ∀ {w name params body e}, link w e →
    (∀ v ∈ body, Only (link w) word v) →
    Keeps w (fun w' v => Only (link w') word v)
      (Eval.newLambda name params body e)
  keeps_print : ∀ {w text}, Keeps w (fun _ _ => True) (Eval.print text)

theorem SpecialForm.name_of_ofName? {name : String} {form : SpecialForm}
    (h : SpecialForm.ofName? name = some form) : form.name = name := by
  have hfound := List.find?_some h
  simpa using hfound

namespace Upkeep

variable {U : Upkeep} {α β : Type} {w w' : U.World}

/-- The value holds nothing that must not come up. -/
def Good (U : Upkeep) (w : U.World) (v : Value) : Prop :=
  v.Only (U.link w) U.word

theorem Good.mono {v : Value} (h : U.Good w v) (hg : U.grows w w') :
    U.Good w' v :=
  Only.mono (U.link_mono hg) h

theorem goodAll_mono {vs : List Value} (h : ∀ v ∈ vs, U.Good w v)
    (hg : U.grows w w') : ∀ v ∈ vs, U.Good w' v :=
  fun v hv => (h v hv).mono hg

theorem goodAll_cons {v : Value} {vs : List Value} (hv : U.Good w v)
    (h : ∀ u ∈ vs, U.Good w u) : ∀ u ∈ v :: vs, U.Good w u := by
  intro u hu
  rcases List.mem_cons.1 hu with rfl | hu
  · exact hv
  · exact h u hu

theorem goodAll_reverse {vs : List Value} (h : ∀ v ∈ vs, U.Good w v) :
    ∀ v ∈ vs.reverse, U.Good w v :=
  fun v hv => h v (List.mem_reverse.1 hv)

/-! ## Computations -/

section Computations

variable {Q : U.World → α → Prop} {R : U.World → β → Prop}

theorem Keeps.bind {m : Eval α} {k : α → Eval β} (h : U.Keeps w Q m)
    (hk : ∀ w' a, U.grows w w' → Q w' a → U.Keeps w' R (k a)) :
    U.Keeps w R (m >>= k) :=
  U.keeps_bind h hk

theorem keeps_ofAnswer {a : Answer α} (hf : Faultless a)
    (h : Gives (Q w) a) : U.Keeps w Q (Eval.ofAnswer a) := by
  cases a with
  | ok r => exact U.keeps_pure (h r rfl)
  | error e =>
      cases e with
      | failed err => exact U.keeps_raise
      | fault => exact absurd rfl hf
      | outOfFuel => exact U.keeps_outOfFuel

/-- What comes after a check may rely on it. -/
theorem keeps_check {name : String} {arity : Arity} {got : Nat} :
    U.Keeps w (fun _ _ => arity.accepts got = true)
      (Eval.ofAnswer (checkArity name arity got)) := by
  unfold checkArity
  split
  · next h => exact U.keeps_pure h
  · exact U.keeps_raise

theorem keeps_demand {form : SpecialForm} {arity : Arity}
    {args : List Value} :
    U.Keeps w (fun _ _ => arity.accepts args.length = true)
      (Form.demand form arity args) :=
  keeps_check

theorem keeps_list {m : Eval (List Value)}
    (h : U.Keeps w (fun w' vs => ∀ v ∈ vs, U.Good w' v) m) :
    U.Keeps w U.Good (do return .list (← m)) :=
  h.bind fun _ _ _ hvs => U.keeps_pure (only_list.2 hvs)

end Computations

/-- Evaluating in a home is kept up. -/
def Evaluates (U : Upkeep) (ev : Valuation) : Prop :=
  ∀ w x e, U.home w e → U.Good w x → U.Keeps w U.Good (ev x e)

/-- Calling is kept up. -/
def Calls (U : Upkeep) (c : Library.Caller) : Prop :=
  ∀ w f args, U.Good w f → (∀ v ∈ args, U.Good w v) →
    U.Keeps w U.Good (c f args)

/-! ## Builtins -/

section Builtins

variable {c : Library.Caller} {f : Value} {args : List Value}

theorem keeps_mapItems (hc : U.Calls c) (hf : U.Good w f)
    {found items : List Value} (hfound : ∀ v ∈ found, U.Good w v)
    (hitems : ∀ v ∈ items, U.Good w v) :
    U.Keeps w (fun w' vs => ∀ v ∈ vs, U.Good w' v)
      (Library.mapItems c f found items) := by
  induction items generalizing w found with
  | nil => exact U.keeps_pure (goodAll_reverse hfound)
  | cons item items ih =>
      have hitem : ∀ v ∈ [item], U.Good w v :=
        fun v hv => hitems v (by simp_all)
      refine (hc w f [item] hf hitem).bind fun w' v hg hv => ?_
      exact ih (hf.mono hg) (goodAll_cons hv (goodAll_mono hfound hg))
        (goodAll_mono (fun u hu => hitems u (by simp [hu])) hg)

theorem keeps_filterItems (hc : U.Calls c) (hf : U.Good w f)
    {found items : List Value} (hfound : ∀ v ∈ found, U.Good w v)
    (hitems : ∀ v ∈ items, U.Good w v) :
    U.Keeps w (fun w' vs => ∀ v ∈ vs, U.Good w' v)
      (Library.filterItems c f found items) := by
  induction items generalizing w found with
  | nil => exact U.keeps_pure (goodAll_reverse hfound)
  | cons item items ih =>
      have hitem : ∀ v ∈ [item], U.Good w v :=
        fun v hv => hitems v (by simp_all)
      refine (hc w f [item] hf hitem).bind fun w' v hg _ => ?_
      refine ih (hf.mono hg) ?_
        (goodAll_mono (fun u hu => hitems u (by simp [hu])) hg)
      split
      · exact goodAll_mono (goodAll_cons (hitems item (by simp)) hfound) hg
      · exact goodAll_mono hfound hg

theorem keeps_reduceItems (hc : U.Calls c) (hf : U.Good w f)
    {gathered : Value} {items : List Value} (hg : U.Good w gathered)
    (hitems : ∀ v ∈ items, U.Good w v) :
    U.Keeps w U.Good (Library.reduceItems c f gathered items) := by
  induction items generalizing w gathered with
  | nil => exact U.keeps_pure hg
  | cons item items ih =>
      have hpair : ∀ v ∈ [gathered, item], U.Good w v :=
        goodAll_cons hg fun v hv => hitems v (by simp_all)
      refine (hc w f _ hf hpair).bind fun w' v hg hv => ?_
      exact ih (hf.mono hg) hv
        (goodAll_mono (fun u hu => hitems u (by simp [hu])) hg)

theorem keeps_operandList {v : Value} (hv : U.Good w v) :
    U.Keeps w (fun w' vs => ∀ u ∈ vs, U.Good w' u)
      (Eval.ofAnswer (Operand.list v)) :=
  keeps_ofAnswer (faultless_operandList v) (gives_operandList hv)

/-- The function and the list that the builtins which call are given. -/
theorem keeps_functionAndList {g v : Value}
    {k : Value → List Value → Eval Value} (hg : U.Good w g) (hv : U.Good w v)
    (hk : ∀ w' f items, U.grows w w' → U.Good w' f →
      (∀ u ∈ items, U.Good w' u) → U.Keeps w' U.Good (k f items)) :
    U.Keeps w U.Good (do
      let f ← Eval.ofAnswer (Operand.callable g)
      let items ← Eval.ofAnswer (Operand.list v)
      k f items) := by
  have hcall : U.Keeps w U.Good (Eval.ofAnswer (Operand.callable g)) :=
    keeps_ofAnswer (faultless_callable g) (gives_callable hg)
  refine hcall.bind fun w₁ f h₁ hf => ?_
  refine (keeps_operandList (hv.mono h₁)).bind fun w₂ items h₂ hitems => ?_
  exact hk w₂ f items (U.grows_trans h₁ h₂) (hf.mono h₂) hitems

theorem keeps_applyList (hc : U.Calls c) (h : ∀ v ∈ args, U.Good w v)
    (ha : Builtin.apply.arity.accepts args.length = true) :
    U.Keeps w U.Good (Library.applyList c args) := by
  obtain ⟨g, v, rfl⟩ := exists_of_exactly_two ha
  exact keeps_functionAndList (h g (by simp)) (h v (by simp))
    fun w' f items _ hf hitems => hc w' f items hf hitems

theorem keeps_map (hc : U.Calls c) (h : ∀ v ∈ args, U.Good w v)
    (ha : Builtin.map.arity.accepts args.length = true) :
    U.Keeps w U.Good (Library.map c args) := by
  obtain ⟨g, v, rfl⟩ := exists_of_exactly_two ha
  exact keeps_functionAndList (h g (by simp)) (h v (by simp))
    fun _ _ _ _ hf hitems => keeps_list (keeps_mapItems hc hf nofun hitems)

theorem keeps_filter (hc : U.Calls c) (h : ∀ v ∈ args, U.Good w v)
    (ha : Builtin.filter.arity.accepts args.length = true) :
    U.Keeps w U.Good (Library.filter c args) := by
  obtain ⟨g, v, rfl⟩ := exists_of_exactly_two ha
  exact keeps_functionAndList (h g (by simp)) (h v (by simp))
    fun _ _ _ _ hf hitems =>
      keeps_list (keeps_filterItems hc hf nofun hitems)

theorem keeps_reduce (hc : U.Calls c) (h : ∀ v ∈ args, U.Good w v)
    (ha : Builtin.reduce.arity.accepts args.length = true) :
    U.Keeps w U.Good (Library.reduce c args) := by
  obtain ⟨g, v, u, rfl⟩ := exists_of_exactly_three ha
  exact keeps_functionAndList (h g (by simp)) (h u (by simp))
    fun _ _ _ hg hf hitems =>
      keeps_reduceItems hc hf ((h v (by simp)).mono hg) hitems

theorem keeps_printAll {ending : String} :
    U.Keeps w U.Good (Library.printAll ending args) :=
  Keeps.bind U.keeps_print fun _ _ _ _ => U.keeps_pure Value.only_nil

theorem keeps_run (hc : U.Calls c) (b : Builtin)
    (h : ∀ v ∈ args, U.Good w v)
    (ha : b.arity.accepts args.length = true) :
    U.Keeps w U.Good (Library.run c b args) := by
  cases b with
  | apply => exact keeps_applyList hc h ha
  | map => exact keeps_map hc h ha
  | filter => exact keeps_filter hc h ha
  | reduce => exact keeps_reduce hc h ha
  | print => exact keeps_printAll
  | println => exact keeps_printAll
  | list => exact U.keeps_pure (only_list.2 h)
  | equal => exact U.keeps_pure Value.only_bool
  | and => exact U.keeps_pure Value.only_bool
  | or => exact U.keeps_pure Value.only_bool
  | add | mul =>
      exact keeps_ofAnswer (faultless_floats args).map
        (gives_any.map fun xs _ => Value.only_float)
  | sub | div =>
      refine keeps_ofAnswer (faultless_floats args).map
        (gives_any.map fun xs _ => ?_)
      split <;> exact Value.only_float
  | intAdd | intMul =>
      exact keeps_ofAnswer (faultless_ints args).map
        (gives_any.map fun ns _ => Value.only_int)
  | intSub =>
      refine keeps_ofAnswer (faultless_ints args).map
        (gives_any.map fun ns _ => ?_)
      split <;> exact Value.only_int
  | intDiv => exact keeps_ofAnswer faultless_intDiv gives_intDiv
  | intRem => exact keeps_ofAnswer (faultless_intRem ha) gives_intRem
  | abs => exact keeps_ofAnswer (faultless_abs ha) gives_abs
  | min | max => exact keeps_ofAnswer faultless_extremum gives_extremum
  | less | greater | lessEq | greaterEq =>
      exact keeps_ofAnswer faultless_chain gives_chain
  | notEqual =>
      exact keeps_ofAnswer (faultless_notEqual ha) gives_notEqual
  | not => exact keeps_ofAnswer (faultless_not ha) gives_not
  | toInt =>
      exact keeps_ofAnswer (faultless_each faultless_toInt)
        (gives_each fun _ => gives_toInt)
  | toFloat =>
      exact keeps_ofAnswer (faultless_each faultless_toFloat)
        (gives_each fun _ => gives_toFloat)
  | toStr =>
      exact keeps_ofAnswer (faultless_each fun _ => faultless_ok)
        (gives_each fun _ => gives_ok Value.only_str)
  | cons => exact keeps_ofAnswer (faultless_cons ha) (gives_cons h)
  | conj => exact keeps_ofAnswer (faultless_conj ha) (gives_conj h)
  | concat => exact keeps_ofAnswer faultless_concat (gives_concat h)
  | reverse => exact keeps_ofAnswer (faultless_reverse ha) (gives_reverse h)
  | first | head => exact keeps_ofAnswer (faultless_first ha) (gives_first h)
  | rest | tail => exact keeps_ofAnswer (faultless_rest ha) (gives_rest h)
  | init => exact keeps_ofAnswer (faultless_init ha) (gives_init h)
  | last => exact keeps_ofAnswer (faultless_last ha) (gives_last h)
  | nth => exact keeps_ofAnswer (faultless_nth ha) (gives_nth h)
  | len => exact keeps_ofAnswer (faultless_len ha) gives_len
  | range => exact keeps_ofAnswer faultless_range gives_range
  | split => exact keeps_ofAnswer (faultless_split ha) gives_split
  | join => exact keeps_ofAnswer (faultless_join ha) gives_join
  | isNil | isBool | isInt | isFloat | isNumber | isStr | isSymbol | isList
  | isAtom | isFn | isEmpty | isTrue =>
      exact keeps_ofAnswer (faultless_ask ha) gives_ask
  | error => exact keeps_ofAnswer (faultless_raise ha) gives_raise
  | typeOf => exact keeps_ofAnswer (faultless_typeOf ha) gives_typeOf

theorem keeps_apply (hc : U.Calls c) (b : Builtin)
    (h : ∀ v ∈ args, U.Good w v) :
    U.Keeps w U.Good (Library.apply c b args) :=
  keeps_check.bind fun _ _ hg ha => keeps_run hc b (goodAll_mono h hg) ha

end Builtins

/-! ## Forms -/

section Forms

variable {ev : Valuation} {c : Library.Caller} {e : ScopeId}
  {args : List Value}

open Direct (sequence branch bindPairs letForm defined defForm setForm cond
  template copies elements again operands application special expression
  answer)

theorem keeps_sequence (hev : U.Evaluates ev) (he : U.home w e)
    {forms : List Value} (h : ∀ x ∈ forms, U.Good w x) :
    U.Keeps w U.Good (sequence ev e forms) := by
  fun_induction sequence ev e forms generalizing w with
  | case1 => exact U.keeps_pure Value.only_nil
  | case2 x => exact hev w x e he (h x (by simp))
  | case3 x y rest ih =>
      refine (hev w x e he (h x (by simp))).bind fun w' v hg _ => ?_
      exact ih (U.home_mono hg e he)
        (goodAll_mono (fun u hu => h u (List.mem_cons_of_mem x hu)) hg)

theorem keeps_quote (h : ∀ v ∈ args, U.Good w v) :
    U.Keeps w U.Good (Direct.quote args) := by
  refine keeps_demand.bind fun w' _ hg ha => ?_
  obtain ⟨v, rfl⟩ := exists_of_exactly_one ha
  exact U.keeps_pure ((h v (by simp)).mono hg)

theorem keeps_branch (hev : U.Evaluates ev) (he : U.home w e)
    (h : ∀ v ∈ args, U.Good w v) :
    U.Keeps w U.Good (branch ev args e) := by
  refine keeps_demand.bind fun w₁ _ h₁ ha => ?_
  obtain ⟨test, yes, no, rfl⟩ := exists_of_exactly_three ha
  replace he := U.home_mono h₁ e he
  replace h := goodAll_mono h h₁
  refine (hev w₁ test e he (h test (by simp))).bind fun w₂ v h₂ _ => ?_
  replace he := U.home_mono h₂ e he
  split
  · exact hev w₂ yes e he ((h yes (by simp)).mono h₂)
  · exact hev w₂ no e he ((h no (by simp)).mono h₂)

/-- Names and values come in pairs, so a name is never without one. -/
theorem keeps_bindPairs (hev : U.Evaluates ev) (he : U.home w e)
    {pairs : List Value} (h : ∀ v ∈ pairs, U.Good w v)
    (hp : pairs.length % 2 = 0) :
    U.Keeps w (fun _ _ => True) (bindPairs ev e pairs) := by
  fun_induction bindPairs ev e pairs generalizing w with
  | case1 => exact U.keeps_pure trivial
  | case2 v => cases hp
  | case3 name x rest ih =>
      refine (hev w x e he (h x (by simp))).bind fun w₁ v h₁ hv => ?_
      replace he := U.home_mono h₁ e he
      refine Keeps.bind (U.keeps_define he hv) fun w₂ _ h₂ _ => ?_
      refine ih (U.home_mono h₂ e he) (goodAll_mono
        (fun u hu => h u (by simp [hu])) (U.grows_trans h₁ h₂)) ?_
      simp only [List.length_cons] at hp
      omega
  | case4 v u rest hv => exact U.keeps_raise

/-- A `let` form binds in a scope of its own. -/
theorem keeps_letForm (hev : U.Evaluates ev) (he : U.link w e)
    (h : ∀ v ∈ args, U.Good w v) :
    U.Keeps w U.Good (letForm ev args e) := by
  refine keeps_demand.bind fun w₁ _ h₁ ha => ?_
  replace h := goodAll_mono h h₁
  split
  · next pairs forms =>
      split
      · exact U.keeps_raise
      · next hp =>
          have heven : pairs.length % 2 = 0 := Decidable.not_not.1 hp
          refine Keeps.bind (U.keeps_newScope (U.link_mono h₁ e he))
            fun w₂ scope h₂ hscope => ?_
          replace h := goodAll_mono h h₂
          have hpairs := only_list.1 (h (.list pairs) (by simp))
          refine (keeps_bindPairs hev hscope hpairs heven).bind
            fun w₃ _ h₃ _ => ?_
          exact keeps_sequence hev (U.home_mono h₃ scope hscope)
            (goodAll_mono (fun x hx => h x (by simp [hx])) h₃)
  · exact U.keeps_raise
  · cases ha

theorem keeps_lambda {name : Option String} {paramList : Value}
    {body : List Value} (he : U.link w e) (h : ∀ v ∈ body, U.Good w v) :
    U.Keeps w U.Good (Form.lambda name paramList body e) := by
  have hparams : U.Keeps w (fun _ _ => True)
      (Eval.ofAnswer (Form.params paramList)) :=
    keeps_ofAnswer (faultless_params paramList) gives_any
  exact hparams.bind fun _ _ hg _ =>
    U.keeps_newLambda (U.link_mono hg e he) (goodAll_mono h hg)

theorem keeps_lambdaOf {name : Option String} (he : U.link w e)
    (h : ∀ v ∈ args, U.Good w v) :
    U.Keeps w U.Good (Form.lambdaOf name args e) := by
  refine keeps_demand.bind fun w' _ hg ha => ?_
  obtain ⟨paramList, body, rfl⟩ := exists_of_atLeast ha
  exact keeps_lambda (U.link_mono hg e he)
    (goodAll_mono (fun v hv => h v (by simp [hv])) hg)

theorem good_of_fnOperands {x : Value} {fnArgs : List Value}
    (h : U.Good w x) (hx : Form.fnOperands? x = some fnArgs) :
    ∀ v ∈ fnArgs, U.Good w v := by
  unfold Form.fnOperands? at hx
  split at hx
  · split at hx
    · cases hx
      exact fun v hv => only_list.1 h v (by simp [hv])
    · cases hx
  · cases hx

theorem keeps_defined (hev : U.Evaluates ev) (he : U.home w e)
    {name : String} {x : Value} (h : U.Good w x) :
    U.Keeps w U.Good (defined ev name x e) := by
  unfold defined
  split
  · next fnArgs hx =>
      exact keeps_lambdaOf (U.link_of_home he) (good_of_fnOperands h hx)
  · exact hev w x e he h

theorem keeps_definition (he : U.home w e) {name : String} {m : Eval Value}
    (hm : U.Keeps w U.Good m) :
    U.Keeps w U.Good (do
      let v ← m
      Eval.define e name v
      return .nil) := by
  refine hm.bind fun w' v hg hv => ?_
  exact Keeps.bind (U.keeps_define (U.home_mono hg e he) hv)
    fun _ _ _ _ => U.keeps_pure Value.only_nil

theorem keeps_defForm (hev : U.Evaluates ev) (he : U.home w e)
    (h : ∀ v ∈ args, U.Good w v) :
    U.Keeps w U.Good (defForm ev args e) := by
  refine keeps_demand.bind fun w₁ _ h₁ ha => ?_
  replace he := U.home_mono h₁ e he
  replace h := goodAll_mono h h₁
  split
  · next name rest =>
      refine keeps_demand.bind fun w₂ _ h₂ ha' => ?_
      obtain ⟨_, x, heq⟩ := exists_of_exactly_two ha'
      cases heq
      replace he := U.home_mono h₂ e he
      exact keeps_definition he
        (keeps_defined hev he ((h x (by simp)).mono h₂))
  · exact U.keeps_raise
  · next name paramList forms =>
      exact keeps_definition he
        (keeps_lambda (U.link_of_home he) fun v hv => h v (by simp [hv]))
  · exact U.keeps_raise
  · exact U.keeps_raise
  · cases ha

theorem keeps_setForm (hev : U.Evaluates ev)
    (hw : U.word SpecialForm.setForm.name) (he : U.home w e)
    (h : ∀ v ∈ args, U.Good w v) :
    U.Keeps w U.Good (setForm ev args e) := by
  refine keeps_demand.bind fun w₁ _ h₁ ha => ?_
  obtain ⟨target, x, rfl⟩ := exists_of_exactly_two ha
  replace he := U.home_mono h₁ e he
  replace h := goodAll_mono h h₁
  cases target
  case symbol name =>
      refine (hev w₁ x e he (h x (by simp))).bind fun w₂ v h₂ hv => ?_
      replace he := U.link_mono h₂ e (U.link_of_home he)
      exact Keeps.bind (U.keeps_assign hw he hv)
        fun _ _ _ _ => U.keeps_pure Value.only_nil
  all_goals exact U.keeps_raise

theorem keeps_cond (hev : U.Evaluates ev) (he : U.home w e)
    {clauses : List Value} (h : ∀ v ∈ clauses, U.Good w v) :
    U.Keeps w U.Good (cond ev e clauses) := by
  fun_induction cond ev e clauses generalizing w with
  | case1 => exact U.keeps_pure Value.only_nil
  | case2 => exact U.keeps_raise
  | case3 test forms clauses ih =>
      have hclause := only_list.1 (h (.list (test :: forms)) (by simp))
      refine (hev w test e he (hclause test (by simp))).bind
        fun w' v hg _ => ?_
      replace he := U.home_mono hg e he
      split
      · exact keeps_sequence hev he
          (goodAll_mono (fun x hx => hclause x (by simp [hx])) hg)
      · exact ih he
          (goodAll_mono (fun x hx => h x (by simp [hx])) hg)
  | case4 v clauses hnil hcons => exact U.keeps_raise

theorem good_of_tagged {items : List Value} {m : QuoteMark} {x : Value}
    (h : ∀ v ∈ items, U.Good w v) (hx : Form.tagged? items = some (m, x)) :
    U.Good w x := by
  unfold Form.tagged? at hx
  split at hx
  · next name _ =>
      obtain ⟨mark, _, hm⟩ := Option.map_eq_some_iff.1 hx
      cases hm
      exact h x (by simp)
  · cases hx

theorem good_of_spliced {v x : Value} (h : U.Good w v)
    (hx : Form.spliced? v = some x) : U.Good w x := by
  unfold Form.spliced? at hx
  split at hx
  · split at hx
    · next htag =>
        cases hx
        exact good_of_tagged (only_list.1 h) htag
    · cases hx
  · cases hx

mutual

theorem keeps_template (hev : U.Evaluates ev) {w : U.World}
    (he : U.home w e) (depth : Nat) {x : Value} (h : U.Good w x) :
    U.Keeps w U.Good (template ev e depth x) := by
  match x with
  | .nil | .bool _ | .int _ | .float _ | .str _ | .symbol _ | .builtin _
  | .lambda _ => unfold template; exact U.keeps_pure h
  | .list items =>
      have hitems := only_list.1 h
      unfold template
      split
      · next htag => exact hev w _ e he (good_of_tagged hitems htag)
      · exact U.keeps_raise
      · exact keeps_list (keeps_copies hev he _ hitems)
      · exact keeps_list (keeps_copies hev he _ hitems)
      · exact keeps_list (keeps_copies hev he _ hitems)
      · exact keeps_list (keeps_elements hev he _ hitems)

theorem keeps_copies (hev : U.Evaluates ev) {w : U.World}
    (he : U.home w e) (depth : Nat) {items : List Value}
    (h : ∀ v ∈ items, U.Good w v) :
    U.Keeps w (fun w' vs => ∀ v ∈ vs, U.Good w' v)
      (copies ev e depth items) := by
  match items with
  | [] => unfold copies; exact U.keeps_pure nofun
  | v :: vs =>
      unfold copies
      refine (keeps_template hev he depth (h v (by simp))).bind
        fun w₁ u h₁ hu => ?_
      have hvs := goodAll_mono (fun r hr => h r (List.mem_cons_of_mem v hr))
        h₁
      refine (keeps_copies hev (U.home_mono h₁ e he) depth hvs).bind
        fun w₂ us h₂ hus => ?_
      exact U.keeps_pure (goodAll_cons (hu.mono h₂) hus)

theorem keeps_elements (hev : U.Evaluates ev) {w : U.World}
    (he : U.home w e) (depth : Nat) {items : List Value}
    (h : ∀ v ∈ items, U.Good w v) :
    U.Keeps w (fun w' vs => ∀ v ∈ vs, U.Good w' v)
      (elements ev e depth items) := by
  match items with
  | [] => unfold elements; exact U.keeps_pure nofun
  | v :: vs =>
      have hvs : ∀ u ∈ vs, U.Good w u :=
        fun u hu => h u (List.mem_cons_of_mem v hu)
      unfold elements
      split
      · next x _ hx =>
          have hx := good_of_spliced (h v (by simp)) hx
          refine (hev w _ e he hx).bind fun w₁ u h₁ hu => ?_
          refine (keeps_operandList hu).bind fun w₂ found h₂ hfound => ?_
          have h₁₂ := U.grows_trans h₁ h₂
          refine (keeps_elements hev (U.home_mono h₁₂ e he) 0
            (goodAll_mono hvs h₁₂)).bind fun w₃ us h₃ hus => ?_
          refine U.keeps_pure fun y hy => ?_
          rcases List.mem_append.1 hy with hy | hy
          · exact (hfound y hy).mono h₃
          · exact hus y hy
      · refine (keeps_template hev he _ (h v (by simp))).bind
          fun w₁ u h₁ hu => ?_
        refine (keeps_elements hev (U.home_mono h₁ e he) _
          (goodAll_mono hvs h₁)).bind fun w₂ us h₂ hus => ?_
        exact U.keeps_pure (goodAll_cons (hu.mono h₂) hus)

end

theorem keeps_quasiquote (hev : U.Evaluates ev) (he : U.home w e)
    (h : ∀ v ∈ args, U.Good w v) :
    U.Keeps w U.Good (Direct.quasiquote ev args e) := by
  refine keeps_demand.bind fun w' _ hg ha => ?_
  obtain ⟨x, rfl⟩ := exists_of_exactly_one ha
  exact keeps_template hev (U.home_mono hg e he) 0
    ((h x (by simp)).mono hg)

theorem keeps_again (hev : U.Evaluates ev) (he : U.home w e)
    (h : ∀ v ∈ args, U.Good w v) :
    U.Keeps w U.Good (again ev args e) := by
  refine keeps_demand.bind fun w₁ _ h₁ ha => ?_
  obtain ⟨x, rfl⟩ := exists_of_exactly_one ha
  replace he := U.home_mono h₁ e he
  refine (hev w₁ x e he ((h x (by simp)).mono h₁)).bind
    fun w₂ v h₂ hv => ?_
  exact hev w₂ v e (U.home_mono h₂ e he) hv

theorem keeps_operands (hev : U.Evaluates ev) (he : U.home w e)
    (h : ∀ v ∈ args, U.Good w v) :
    U.Keeps w (fun w' vs => ∀ v ∈ vs, U.Good w' v)
      (operands ev e args) := by
  induction args generalizing w with
  | nil => exact U.keeps_pure nofun
  | cons x xs ih =>
      refine (hev w x e he (h x (by simp))).bind fun w₁ v h₁ hv => ?_
      refine (ih (U.home_mono h₁ e he) (goodAll_mono
        (fun u hu => h u (by simp [hu])) h₁)).bind fun w₂ vs h₂ hvs => ?_
      exact U.keeps_pure (goodAll_cons (hv.mono h₂) hvs)

theorem keeps_application (hev : U.Evaluates ev) (hc : U.Calls c)
    (he : U.home w e) {head : Value} (hh : U.Good w head)
    (h : ∀ v ∈ args, U.Good w v) :
    U.Keeps w U.Good (application ev c head args e) := by
  refine (hev w head e he hh).bind fun w₁ f h₁ hf => ?_
  split
  · refine (keeps_operands hev (U.home_mono h₁ e he)
      (goodAll_mono h h₁)).bind fun w₂ vs h₂ hvs => ?_
    exact hc w₂ f vs (hf.mono h₂) hvs
  · exact U.keeps_raise

theorem keeps_special (hev : U.Evaluates ev) {form : SpecialForm}
    (hw : U.word form.name) (he : U.home w e)
    (h : ∀ v ∈ args, U.Good w v) :
    U.Keeps w U.Good (special ev form args e) := by
  cases form with
  | quote => exact keeps_quote h
  | branch => exact keeps_branch hev he h
  | letForm => exact keeps_letForm hev (U.link_of_home he) h
  | defForm => exact keeps_defForm hev he h
  | setForm => exact keeps_setForm hev hw he h
  | fnForm => exact keeps_lambdaOf (U.link_of_home he) h
  | begin =>
      refine keeps_demand.bind fun w' _ hg _ => ?_
      exact keeps_sequence hev (U.home_mono hg e he) (goodAll_mono h hg)
  | cond => exact keeps_cond hev he h
  | quasiquote => exact keeps_quasiquote hev he h
  | eval => exact keeps_again hev he h

theorem keeps_expression (hev : U.Evaluates ev) (hc : U.Calls c)
    (he : U.home w e) {x : Value} (h : U.Good w x) :
    U.Keeps w U.Good (expression ev c x e) := by
  unfold expression
  split
  · exact U.keeps_lookup (U.link_of_home he)
  · next head args =>
      have hh := only_list.1 h head (by simp)
      have hargs : ∀ v ∈ args, U.Good w v :=
        fun v hv => only_list.1 h v (by simp [hv])
      unfold Direct.list
      split
      · next name =>
          split
          · next form hform =>
              have hw : U.word form.name := by
                rw [SpecialForm.name_of_ofName? hform]
                exact only_symbol.1 hh
              exact keeps_special hev hw he hargs
          · exact keeps_application hev hc he hh hargs
      · exact keeps_application hev hc he hh hargs
  · exact U.keeps_pure h

theorem keeps_bindParams (he : U.home w e) {names : List String}
    (h : ∀ v ∈ args, U.Good w v) :
    U.Keeps w (fun _ _ => True) (Form.bindParams e names args) := by
  fun_induction Form.bindParams e names args generalizing w with
  | case1 name names v vs ih =>
      refine Keeps.bind (U.keeps_define he (h v (by simp)))
        fun w' _ hg _ => ?_
      exact ih (U.home_mono hg e he)
        (goodAll_mono (fun u hu => h u (by simp [hu])) hg)
  | case2 names vs hcons => exact U.keeps_pure trivial

theorem keeps_enter {f : Lambda Value} (hf : U.Good w (.lambda f))
    (h : ∀ v ∈ args, U.Good w v) :
    U.Keeps w (fun w' scope => U.home w' scope) (Form.enter f args) := by
  refine keeps_check.bind fun w₁ _ h₁ _ => ?_
  have hscope := U.link_mono h₁ f.scope (only_lambda.1 hf).1
  refine Keeps.bind (U.keeps_newScope hscope) fun w₂ scope h₂ hhome => ?_
  refine (keeps_bindParams hhome
    (goodAll_mono h (U.grows_trans h₁ h₂))).bind fun w₃ _ h₃ _ => ?_
  exact U.keeps_pure (U.home_mono h₃ scope hhome)

theorem keeps_answer (hev : U.Evaluates ev) (hc : U.Calls c) {f : Value}
    (hf : U.Good w f) (h : ∀ v ∈ args, U.Good w v) :
    U.Keeps w U.Good (answer ev c f args) := by
  unfold answer
  split
  · next b => exact keeps_apply hc b h
  · next f =>
      refine (keeps_enter hf h).bind fun w' scope hg hscope => ?_
      exact keeps_sequence hev hscope
        (goodAll_mono (only_lambda.1 hf).2 hg)
  · exact U.keeps_raise

end Forms

/-! ## Evaluation -/

/-- Every evaluation and every call is kept up. -/
theorem keeps_eval (U : Upkeep) (fuel : Nat) :
    U.Evaluates (eval fuel) ∧ U.Calls (call fuel) := by
  induction fuel with
  | zero =>
      refine ⟨fun w x e _ _ => ?_, fun w f args _ _ => ?_⟩
      · rw [eval]
        exact U.keeps_outOfFuel
      · rw [call]
        exact U.keeps_outOfFuel
  | succ n ih =>
      obtain ⟨hev, hc⟩ := ih
      have hc' : U.Calls (call (n + 1)) := by
        intro w f args hf h
        rw [call_succ]
        exact keeps_answer hev hc hf h
      refine ⟨fun w x e he h => ?_, hc'⟩
      rw [eval_succ]
      exact keeps_expression hev hc' he h

theorem keeps_let (fuel : Nat) {e : ScopeId} {args : List Value}
    (he : U.link w e) (h : ∀ v ∈ args, U.Good w v) :
    U.Keeps w U.Good
      (eval fuel (.list (.symbol SpecialForm.letForm.name :: args)) e) := by
  cases fuel with
  | zero =>
      rw [eval]
      exact U.keeps_outOfFuel
  | succ n =>
      rw [eval_succ]
      show U.Keeps w U.Good (Direct.letForm (eval n) args e)
      exact keeps_letForm (U.keeps_eval n).1 he h

end Upkeep

end SmallLisp
