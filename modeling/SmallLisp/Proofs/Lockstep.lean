import SmallLisp.Proofs.Reachability

/-!
# Two stores that cannot be told apart

What an evaluation cannot reach it cannot see either. Take two stores that
have given out the same numbers and that agree on every scope within reach
of an expression and the scope it is evaluated in. They may differ in all
else. Then the two evaluations are one: they print the same and end the
same way, with the same value or error, or neither of them ends.

The two runs are followed side by side (`lockstep`). They open the same
scopes, so the scopes opened since the start are the same in both. What
they agree on is fixed from the start: the scopes that were within reach,
and all numbers that were not given out then. Nothing leads out of these,
neither then nor at any later time, however the bindings are changed.
-/

namespace SmallLisp

/-! ## Stores that agree on some scopes -/

namespace Store

/-- The stores have given out the same numbers, those to come are all in
`P`, and the stores agree on `P`, which nothing leads out of. -/
structure Twins (P : ScopeId → Prop) (s t : Store) : Prop where
  size : t.scopes.size = s.scopes.size
  lambdas : t.lambdas = s.lambdas
  same : ∀ i : ScopeId, P i → t.scopes[i]? = s.scopes[i]?
  closed : s.ClosedUnder P
  new : ∀ i : ScopeId, s.scopes.size ≤ i → P i

variable {P : ScopeId → Prop} {s t : Store} {e : ScopeId} {name : String}
  {v : Value}

/-- What nothing leads out of in one store, nothing leads out of in the
other. -/
theorem ClosedUnder.of_same (hs : s.ClosedUnder P)
    (h : ∀ i : ScopeId, P i → t.scopes[i]? = s.scopes[i]?) :
    t.ClosedUnder P := by
  constructor
  · rintro i p ⟨sc, hsc, hp⟩ hi
    rw [h i hi] at hsc
    exact hs.around i p ⟨sc, hsc, hp⟩ hi
  · rintro i name v ⟨sc, hsc, hv⟩ hi
    rw [h i hi] at hsc
    exact hs.bound i name v ⟨sc, hsc, hv⟩ hi

theorem Twins.getWithin_eq (h : Twins P s t) (he : P e) (limit : Nat) :
    t.getWithin name limit e = s.getWithin name limit e := by
  induction limit generalizing e with
  | zero => rfl
  | succ limit ih =>
      rw [getWithin, getWithin, h.same e he]
      cases hsc : s.scopes[e]? with
      | none => rfl
      | some sc =>
          cases hp : sc.parent with
          | none => simp only [hp]
          | some p =>
              have hout := ih (h.closed.around e p ⟨sc, hsc, hp⟩ he)
              simp only [hp, hout]

theorem Twins.ownerWithin_eq (h : Twins P s t) (he : P e) (limit : Nat) :
    t.ownerWithin name limit e = s.ownerWithin name limit e := by
  induction limit generalizing e with
  | zero => rfl
  | succ limit ih =>
      rw [ownerWithin, ownerWithin, h.same e he]
      cases hsc : s.scopes[e]? with
      | none => rfl
      | some sc =>
          cases hp : sc.parent with
          | none => simp only [hp]
          | some p =>
              have hout := ih (h.closed.around e p ⟨sc, hsc, hp⟩ he)
              simp only [hp, hout]

theorem Twins.addScope (h : Twins P s t) (he : P e) :
    Twins P (s.addScope (some e)) (t.addScope (some e)) := by
  refine ⟨?_, h.lambdas, fun i hi => ?_, ⟨?_, ?_⟩, fun i hi => ?_⟩
  · rw [size_addScope, size_addScope, h.size]
  · rw [getElem?_addScope, getElem?_addScope, h.size, h.same i hi]
  · intro i p hp hi
    rcases inside_of_addScope hp with ⟨_, heq⟩ | hp
    · cases heq
      exact he
    · exact h.closed.around i p hp hi
  · intro i m w hw hi
    exact h.closed.bound i m w (binds_of_addScope hw) hi
  · rw [size_addScope] at hi
    exact h.new i (Nat.le_of_succ_le hi)

theorem Twins.define (h : Twins P s t) (hv : ∀ b, v.Refers b → P b) :
    Twins P (s.define e name v) (t.define e name v) := by
  refine ⟨?_, h.lambdas, fun i hi => ?_, ⟨?_, ?_⟩, fun i hi => ?_⟩
  · rw [size_define, size_define, h.size]
  · rw [Store.define, Store.define, Array.getElem?_modify,
      Array.getElem?_modify, h.same i hi]
  · intro i p hp hi
    exact h.closed.around i p (inside_of_define hp) hi
  · intro i m w hw hi b hb
    rcases binds_of_define hw with ⟨_, rfl⟩ | hw
    · exact hv b hb
    · exact h.closed.bound i m w hw hi b hb
  · rw [size_define] at hi
    exact h.new i hi

end Store

/-! ## Runs side by side -/

section Runs

variable {α β : Type}

/-- Two runs that end in the same way, from states that agree on `P` to
states that do. -/
inductive Paired (P : ScopeId → Prop) (Q : α → Prop) :
    EStateM.Result Abort State α → EStateM.Result Abort State α → Prop where
  | ok {a : α} {s t : Store} {c : Console} (h : s.Twins P t) (ha : Q a) :
      Paired P Q (.ok a ⟨s, c⟩) (.ok a ⟨t, c⟩)
  | error {a : Abort} {s t : Store} {c : Console} (h : s.Twins P t) :
      Paired P Q (.error a ⟨s, c⟩) (.error a ⟨t, c⟩)

/-- From states that agree on `P` the two runs end in the same way, with a
value that has the property. -/
def RunsAlike (P : ScopeId → Prop) (Q : α → Prop) (m : Eval α) : Prop :=
  ∀ (s t : Store) (c : Console), s.Twins P t →
    Paired P Q (m ⟨s, c⟩) (m ⟨t, c⟩)

variable {P : ScopeId → Prop} {Q : α → Prop} {R : β → Prop}

theorem RunsAlike.bind {m : Eval α} {k : α → Eval β} (h : RunsAlike P Q m)
    (hk : ∀ a, Q a → RunsAlike P R (k a)) : RunsAlike P R (m >>= k) := by
  intro s t c hst
  have hm := h s t c hst
  generalize hr : m ⟨s, c⟩ = r at hm
  generalize hr' : m ⟨t, c⟩ = r' at hm
  cases hm with
  | @ok a s' t' c' hst' ha =>
      rw [Eval.bind_ok hr, Eval.bind_ok hr']
      exact hk a ha s' t' c' hst'
  | error hst' =>
      rw [Eval.bind_error hr, Eval.bind_error hr']
      exact .error hst'

end Runs

/-- Two runs are in lockstep as long as the scopes that come up are in
`P`. -/
def lockstep (P : ScopeId → Prop) : Upkeep where
  World := Unit
  word _ := True
  grows _ _ := True
  link _ := P
  home _ := P
  Keeps _ Q m := RunsAlike P (Q ()) m
  grows_trans _ _ := trivial
  link_mono _ _ he := he
  home_mono _ _ he := he
  link_of_home he := he
  keeps_pure hQ := fun _ _ _ hst => .ok hst hQ
  keeps_raise := fun _ _ _ hst => .error hst
  keeps_outOfFuel := fun _ _ _ hst => .error hst
  keeps_bind h hk := h.bind fun a ha => hk () a trivial ha
  keeps_newScope := by
    intro _ e he s t c hst
    -- The new scope gets the same number in both.
    have hnew : Eval.newScope (some e) ⟨t, c⟩ =
        .ok s.scopes.size ⟨t.addScope (some e), c⟩ := by
      rw [← hst.size]
      rfl
    rw [hnew]
    exact .ok (hst.addScope he) (hst.new _ (Nat.le_refl _))
  keeps_define := by
    intro _ e name v _ hv s t c hst
    exact .ok (hst.define fun b => hv.refers) trivial
  keeps_lookup := by
    intro _ e name he s t c hst
    unfold Eval.lookup
    rw [show t.get? e name = s.get? e name from hst.getWithin_eq he _]
    cases hget : s.get? e name with
    | none => exact .error hst
    | some v =>
        obtain ⟨i, hi, hb⟩ :=
          Store.binds_of_getWithin hst.closed.around he hget
        exact .ok hst (Value.only_of_refers
          (hst.closed.bound i name v hb hi))
  keeps_assign := by
    intro _ e name v _ he hv s t c hst
    have howner : t.owner? e name = s.owner? e name :=
      hst.ownerWithin_eq he _
    unfold Eval.assign
    simp only [Store.assign?_eq, howner]
    cases hs : s.owner? e name with
    | none => exact .error hst
    | some owner => exact .ok (hst.define fun b => hv.refers) trivial
  keeps_newLambda := by
    intro _ name params body e he hb s t c hst
    unfold Eval.newLambda
    simp only [hst.lambdas]
    refine .ok ⟨hst.size, rfl, hst.same, ?_, hst.new⟩
      (Value.only_lambda.2 ⟨he, hb⟩)
    exact ⟨hst.closed.around, hst.closed.bound⟩
  keeps_print := by
    intro _ text s t c hst
    unfold Eval.print
    split
    · exact .error hst
    · exact .ok hst trivial

/-! ## Evaluation -/

/-- The states have printed the same and given out the same numbers, have
the same scopes from number `n` on, and agree on what can be reached from
the scopes of `root`. -/
structure State.Indistinct (n : Nat) (root : ScopeId → Prop)
    (st st' : State) : Prop where
  console : st'.console = st.console
  size : st'.store.scopes.size = st.store.scopes.size
  lambdas : st'.store.lambdas = st.store.lambdas
  new : ∀ i : ScopeId, n ≤ i → st'.store.scopes[i]? = st.store.scopes[i]?
  reach : ∀ i : ScopeId,
    st.store.Reachable root i ∨ st'.store.Reachable root i →
      st'.store.scopes[i]? = st.store.scopes[i]?

/-- Two evaluations in the scope `e` that end with the same value or the
same error, in states that cannot be told apart from there. -/
inductive SameEnd (n : Nat) (e : ScopeId) :
    EStateM.Result Abort State Value → EStateM.Result Abort State Value →
      Prop where
  | ok {v : Value} {st st' : State}
      (h : st.Indistinct n (fun a => a = e ∨ v.Refers a) st') :
      SameEnd n e (.ok v st) (.ok v st')
  | error {a : Abort} {st st' : State}
      (h : st.Indistinct n (fun a => a = e) st') :
      SameEnd n e (.error a st) (.error a st')

theorem SameEnd.cut_iff {n : Nat} {e : ScopeId}
    {r r' : EStateM.Result Abort State Value} (h : SameEnd n e r r') :
    Cut r ↔ Cut r' := by
  cases h with
  | ok _ => exact Iff.rfl
  | @error a _ _ _ => cases a <;> exact Iff.rfl

theorem Store.Twins.indistinct {P root : ScopeId → Prop} {s t : Store}
    {n : Nat} (h : s.Twins P t) (hroot : ∀ i, root i → P i)
    (hnew : ∀ i, n ≤ i → P i) (c : Console) :
    State.Indistinct n root ⟨s, c⟩ ⟨t, c⟩ where
  console := rfl
  size := h.size
  lambdas := h.lambdas
  new i hi := h.same i (hnew i hi)
  reach := by
    rintro i (hi | hi)
    · exact h.same i (h.closed.of_reachable hroot hi)
    · exact h.same i ((h.closed.of_same h.same).of_reachable hroot hi)

/-- What the two evaluations agree on: what was within reach, and what was
not there yet. -/
def Store.Shared (s : Store) (root : ScopeId → Prop) (i : ScopeId) : Prop :=
  s.Reachable root i ∨ s.scopes.size ≤ i

theorem Store.twins_start {s t : Store} {root : ScopeId → Prop}
    (hsize : t.scopes.size = s.scopes.size) (hlambdas : t.lambdas = s.lambdas)
    (hsame : ∀ i : ScopeId, s.Reachable root i →
      t.scopes[i]? = s.scopes[i]?) :
    s.Twins (s.Shared root) t := by
  refine ⟨hsize, hlambdas, ?_, ⟨?_, ?_⟩, fun i hi => .inr hi⟩
  · rintro i (hi | hi)
    · exact hsame i hi
    · -- No scope has the number yet, in either store.
      rw [Array.getElem?_eq_none hi, Array.getElem?_eq_none (hsize ▸ hi)]
  · rintro i p hp (hi | hi)
    · exact .inl (.around hi hp)
    · exact absurd hp.lt (Nat.not_lt.2 hi)
  · rintro i name v hv (hi | hi) b hb
    · exact .inl (.bound hi hv hb)
    · exact absurd hv.lt (Nat.not_lt.2 hi)

theorem sameEnd_eval (x : Value) (e : ScopeId) {s t : Store} (c : Console)
    (hst : s.Twins (s.Shared fun a => a = e ∨ x.Refers a) t) (fuel : Nat) :
    SameEnd s.scopes.size e (eval fuel x e ⟨s, c⟩)
      (eval fuel x e ⟨t, c⟩) := by
  obtain ⟨P, hP⟩ : ∃ P, P = s.Shared fun a => a = e ∨ x.Refers a :=
    ⟨_, rfl⟩
  have he : P e := hP ▸ .inl (.root (.inl rfl))
  have hx : ∀ b, x.Refers b → P b := fun b hb =>
    hP ▸ .inl (.root (.inr hb))
  have hnew : ∀ i, s.scopes.size ≤ i → P i := fun i hi => hP ▸ .inr hi
  rw [← hP] at hst
  have hruns : Paired P (fun v => v.Only P fun _ => True)
      (eval fuel x e ⟨s, c⟩) (eval fuel x e ⟨t, c⟩) :=
    ((lockstep P).keeps_eval fuel).1 () x e he (Value.only_of_refers hx)
      s t c hst
  generalize eval fuel x e ⟨s, c⟩ = r at hruns ⊢
  generalize eval fuel x e ⟨t, c⟩ = r' at hruns ⊢
  cases hruns with
  | ok hst' hv =>
      refine .ok (hst'.indistinct ?_ hnew _)
      rintro i (rfl | hi)
      · exact he
      · exact hv.refers hi
  | error hst' =>
      refine .error (hst'.indistinct ?_ hnew _)
      rintro i rfl
      exact he

/-- Two stores that have given out the same numbers and agree on what is
within reach of an expression and its scope are the same to an evaluation
of it: it ends with the same value or error, prints the same, opens the
same scopes, and what is within reach afterwards is the same again. If it
ends from one of them then it does from the other. -/
theorem evaluation_depends_on_reach (x : Value) (e : ScopeId) {s t : Store}
    (c : Console) (hsize : t.scopes.size = s.scopes.size)
    (hlambdas : t.lambdas = s.lambdas)
    (hsame : ∀ i : ScopeId, s.Reachable (fun a => a = e ∨ x.Refers a) i →
      t.scopes[i]? = s.scopes[i]?) :
    (∀ fuel, SameEnd s.scopes.size e (eval fuel x e ⟨s, c⟩)
      (eval fuel x e ⟨t, c⟩)) ∧
    ((∃ r, Ends (fun n => eval n x e) ⟨s, c⟩ r) ↔
      ∃ r, Ends (fun n => eval n x e) ⟨t, c⟩ r) := by
  have hend := sameEnd_eval x e c (Store.twins_start hsize hlambdas hsame)
  refine ⟨hend, ?_, ?_⟩
  · rintro ⟨_, hcut, n, rfl⟩
    exact ⟨_, mt (hend n).cut_iff.2 hcut, n, rfl⟩
  · rintro ⟨_, hcut, n, rfl⟩
    exact ⟨_, mt (hend n).cut_iff.1 hcut, n, rfl⟩

/-- The two counters, the one out of reach with another count. -/
def otherCounters : Store :=
  counters.store.define 2 "n" (.int 7)

theorem ticking_depends_on_reach :
    otherCounters.get? 2 "n" = some (.int 7) ∧
      counters.store.get? 2 "n" = some (.int 0) ∧
      SameEnd 3 0 (eval 4 ticking 0 counters)
        (eval 4 ticking 0 ⟨otherCounters, counters.console⟩) ∧
      (∃ v st, eval 4 ticking 0 counters = .ok v st) := by
  have hsame : ∀ i : ScopeId, counters.store.Reachable
      (fun a => a = 0 ∨ ticking.Refers a) i →
      otherCounters.scopes[i]? = counters.store.scopes[i]? := by
    intro i hi
    refine Store.getElem?_define_of_ne ?_
    rintro rfl
    exact not_reachable_other hi
  obtain ⟨hend, -⟩ := evaluation_depends_on_reach ticking 0
    (s := counters.store) (t := otherCounters) counters.console rfl rfl hsame
  exact ⟨rfl, rfl, hend 4, _, _, rfl⟩

end SmallLisp
