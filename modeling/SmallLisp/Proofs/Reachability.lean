import SmallLisp.Proofs.Discipline
import SmallLisp.Proofs.Stores

/-!
# What cannot be reached cannot be touched

A scope keeps its secrets. To get at it, a program must stand in it or
inside it, or hold a function that was made there, or find such a function
among the values of a scope that it can get at already. `Reachable` is
this, closed under all the ways to go on.

Evaluation does not get any further than that. Whatever is out of reach of
an expression and the scope it is evaluated in stays exactly as it is, and
what is within reach afterwards was so before or is new. A counter that is
kept by a closure is safe from everyone who does not have the closure.

The set that stays closed all the way is that of the scopes reached at the
start together with those opened since (`Confined`). Nothing is asked of
the store. A number that belongs to no scope yet may well be within reach,
and the scope that gets the number later is then reached by it.
-/

namespace SmallLisp

/-! ## Reach -/

/-- A function inside the value was made in the scope. -/
def Value.Refers (v : Value) (i : ScopeId) : Prop :=
  ∃ f, (Value.lambda f).Within v ∧ f.scope = i

/-- The scopes that can be got at from those of `root`: the scopes around
them, and those that the values bound in them refer to. -/
inductive Store.Reachable (s : Store) (root : ScopeId → Prop) :
    ScopeId → Prop where
  | root {i : ScopeId} (h : root i) : Reachable s root i
  | around {i p : ScopeId} (hi : Reachable s root i) (h : s.Inside i p) :
      Reachable s root p
  | bound {i b : ScopeId} {name : String} {v : Value}
      (hi : Reachable s root i) (h : s.Binds i name v) (hb : v.Refers b) :
      Reachable s root b

/-- Nothing leads out of `P`. -/
structure Store.ClosedUnder (s : Store) (P : ScopeId → Prop) : Prop where
  around : ∀ i p, s.Inside i p → P i → P p
  bound : ∀ i name v, s.Binds i name v → P i → ∀ b, v.Refers b → P b

theorem Store.closedUnder_reachable (s : Store) (root : ScopeId → Prop) :
    s.ClosedUnder (s.Reachable root) :=
  ⟨fun _ _ h hi => .around hi h, fun _ _ _ h hi _ hb => .bound hi h hb⟩

theorem Store.ClosedUnder.of_reachable {s : Store}
    {root P : ScopeId → Prop} (hP : s.ClosedUnder P)
    (hroot : ∀ i, root i → P i) {b : ScopeId}
    (h : s.Reachable root b) : P b := by
  induction h with
  | root h => exact hroot _ h
  | around _ h ih => exact hP.around _ _ h ih
  | bound _ h hb ih => exact hP.bound _ _ _ h ih _ hb

theorem Value.only_of_refers {v : Value} {link : ScopeId → Prop}
    (h : ∀ b, v.Refers b → link b) : v.Only link fun _ => True :=
  ⟨fun f hf => h f.scope ⟨f, hf, rfl⟩, fun _ _ => trivial⟩

theorem Value.Only.refers {v : Value} {link : ScopeId → Prop}
    {word : String → Prop} (h : v.Only link word) {b : ScopeId}
    (hb : v.Refers b) : link b := by
  obtain ⟨f, hf, rfl⟩ := hb
  exact h.scopes f hf

/-! ## The discipline -/

/-- A scope that was reached at the start, when there were `n` scopes, or
that has been opened since. -/
def Confined (reached : ScopeId → Prop) (n : Nat) (s : Store)
    (i : ScopeId) : Prop :=
  reached i ∨ n ≤ i ∧ i < s.scopes.size

section Confinement

variable {reached : ScopeId → Prop} {n : Nat} {s t : Store}

theorem Confined.mono {i : ScopeId} (h : Confined reached n s i)
    (hst : s.scopes.size ≤ t.scopes.size) : Confined reached n t i :=
  h.imp id fun hi => ⟨hi.1, Nat.lt_of_lt_of_le hi.2 hst⟩

/-- Opening a scope confines no scope that was there. -/
theorem Confined.of_lt {i : ScopeId} (h : Confined reached n t i)
    (hi : i < s.scopes.size) : Confined reached n s i :=
  h.imp id fun hn => ⟨hn.1, hi⟩

theorem closedUnder_addScope {e : ScopeId}
    (hs : s.ClosedUnder (Confined reached n s))
    (he : Confined reached n s e) :
    (s.addScope (some e)).ClosedUnder
      (Confined reached n (s.addScope (some e))) := by
  have hsize : s.scopes.size ≤ (s.addScope (some e)).scopes.size := by
    rw [Store.size_addScope]
    omega
  constructor
  · intro i p hp hi
    rcases Store.inside_of_addScope hp with ⟨_, heq⟩ | hp
    · cases heq
      exact he.mono hsize
    · exact (hs.around i p hp (hi.of_lt hp.lt)).mono hsize
  · intro i name v hv hi b hb
    have hv := Store.binds_of_addScope hv
    exact (hs.bound i name v hv (hi.of_lt hv.lt) b hb).mono hsize

theorem closedUnder_define {e : ScopeId} {name : String} {v : Value}
    (hs : s.ClosedUnder (Confined reached n s))
    (hv : v.Only (Confined reached n s) fun _ => True) :
    (s.define e name v).ClosedUnder
      (Confined reached n (s.define e name v)) := by
  have hsame : ∀ i, Confined reached n (s.define e name v) i ↔
      Confined reached n s i := by
    intro i
    rw [Confined, Confined, Store.size_define]
  constructor
  · intro i p hp hi
    rw [hsame] at hi ⊢
    exact hs.around i p (Store.inside_of_define hp) hi
  · intro i m w hw hi b hb
    rw [hsame] at hi ⊢
    rcases Store.binds_of_define hw with ⟨_, rfl⟩ | hw
    · exact hv.refers hb
    · exact hs.bound i m w hw hi b hb

/-- The store has not shrunk, and has not changed where it could not be
reached. -/
def Spared (reached : ScopeId → Prop) (n : Nat) (s t : Store) : Prop :=
  s.scopes.size ≤ t.scopes.size ∧
    ∀ i : ScopeId, i < n → ¬ reached i → t.scopes[i]? = s.scopes[i]?

theorem spared_addScope {parent : Option ScopeId} (hn : n ≤ s.scopes.size) :
    Spared reached n s (s.addScope parent) := by
  refine ⟨?_, fun i hi _ => ?_⟩
  · rw [Store.size_addScope]
    omega
  · have hne : i ≠ s.scopes.size := Nat.ne_of_lt (Nat.lt_of_lt_of_le hi hn)
    rw [Store.getElem?_addScope, if_neg hne]

theorem spared_define {e : ScopeId} {name : String} {v : Value}
    (he : Confined reached n s e) :
    Spared reached n s (s.define e name v) := by
  refine ⟨Nat.le_of_eq Store.size_define.symm, fun i hi hr => ?_⟩
  refine Store.getElem?_define_of_ne ?_
  rintro rfl
  rcases he with he | ⟨he, _⟩
  · exact hr he
  · exact absurd hi (Nat.not_lt.2 he)

end Confinement

/-- Values refer to confined scopes only, and nothing else changes. -/
def confinement (reached : ScopeId → Prop) (n : Nat) : Discipline where
  word _ := True
  holds s := n ≤ s.scopes.size ∧ s.ClosedUnder (Confined reached n s)
  grows := Spared reached n
  link := Confined reached n
  home := Confined reached n
  grows_refl s := ⟨Nat.le_refl _, fun _ _ _ => rfl⟩
  grows_trans h h' := by
    refine ⟨Nat.le_trans h.1 h'.1, fun i hi hr => ?_⟩
    rw [h'.2 i hi hr, h.2 i hi hr]
  link_mono h _ he := he.mono h.1
  home_mono h _ he := he.mono h.1
  link_of_home he := he
  addScope := by
    intro s e hs he
    have hspared : Spared reached n s (s.addScope (some e)) :=
      spared_addScope hs.1
    refine ⟨⟨?_, closedUnder_addScope hs.2 he⟩, hspared, .inr ⟨hs.1, ?_⟩⟩
    · exact Nat.le_trans hs.1 hspared.1
    · rw [Store.size_addScope]
      exact Nat.lt_succ_self _
  define := by
    intro s e name v hs he hv
    refine ⟨⟨?_, closedUnder_define hs.2 hv⟩, spared_define he⟩
    rw [Store.size_define]
    exact hs.1
  assign := by
    intro s e name v s' _ hs he hv h
    obtain ⟨owner, howner, _, rfl⟩ :=
      Store.define_of_assign hs.2.around he h
    refine ⟨⟨?_, closedUnder_define hs.2 hv⟩, spared_define howner⟩
    rw [Store.size_define]
    exact hs.1
  get := by
    intro s e name v hs he h
    obtain ⟨i, hi, hb⟩ := Store.binds_of_getWithin hs.2.around he h
    exact Value.only_of_refers (hs.2.bound i name v hb hi)
  newLambda := by
    intro s k hs
    exact ⟨⟨hs.1, hs.2.around, hs.2.bound⟩, Nat.le_refl _,
      fun _ _ _ => rfl⟩

/-! ## Evaluation -/

theorem confined_start {st : State} {root : ScopeId → Prop} :
    (confinement (st.store.Reachable root) st.store.scopes.size).holds
      st.store := by
  have hsame : ∀ i, Confined (st.store.Reachable root)
      st.store.scopes.size st.store i → st.store.Reachable root i := by
    rintro i (hi | ⟨hle, hlt⟩)
    · exact hi
    · exact absurd hlt (Nat.not_lt.2 hle)
  have hclosed := st.store.closedUnder_reachable root
  refine ⟨Nat.le_refl _, fun i p hp hi => ?_, fun i name v hv hi b hb => ?_⟩
  · exact .inl (hclosed.around i p hp (hsame i hi))
  · exact .inl (hclosed.bound i name v hv (hsame i hi) b hb)

/-- A scope out of reach of the expression and the scope it is evaluated
in stays as it is, and what can be reached afterwards from that scope or
from the value could be reached before or is new. -/
theorem evaluation_stays_within_reach (fuel : Nat) (st : State) (x : Value)
    (e : ScopeId) :
    (∀ i : ScopeId, i < st.store.scopes.size →
      ¬ st.store.Reachable (fun a => a = e ∨ x.Refers a) i →
      (storeAfter (eval fuel x e st)).scopes[i]? = st.store.scopes[i]?) ∧
    (∀ b : ScopeId,
      (storeAfter (eval fuel x e st)).Reachable (fun a => a = e) b →
      st.store.Reachable (fun a => a = e ∨ x.Refers a) b ∨
        st.store.scopes.size ≤ b ∧
          b < (storeAfter (eval fuel x e st)).scopes.size) ∧
    (∀ (v : Value) (st' : State), eval fuel x e st = .ok v st' →
      ∀ b : ScopeId, st'.store.Reachable v.Refers b →
        st.store.Reachable (fun a => a = e ∨ x.Refers a) b ∨
          st.store.scopes.size ≤ b ∧ b < st'.store.scopes.size) := by
  obtain ⟨D, hD⟩ : ∃ D, D = confinement
      (st.store.Reachable fun a => a = e ∨ x.Refers a)
      st.store.scopes.size := ⟨_, rfl⟩
  have hstart : D.holds st.store := by
    rw [hD]
    exact confined_start
  have hkeeps : D.Keeps st.store D.Good (eval fuel x e) := by
    subst hD
    refine (Discipline.keeps_eval _ fuel).1 st.store x e
      (.inl (.root (.inl rfl))) (Value.only_of_refers fun b hb => ?_)
    exact .inl (.root (.inr hb))
  subst hD
  obtain ⟨hend, hgrows⟩ := hkeeps.storeAfter hstart
  refine ⟨hgrows.2, fun b hb => ?_, fun v st' hr b hb => ?_⟩
  · refine hend.2.of_reachable ?_ hb
    rintro i rfl
    exact .inl (.root (.inl rfl))
  · have hkept := hkeeps st rfl hstart
    rw [hr] at hkept
    exact hkept.1.2.of_reachable (fun i hi => hkept.2.2.refers hi) hb

/-- A function that assigns to a name of the scope it was made in. -/
def tick : Lambda Value where
  id := 0
  name := some "tick"
  params := []
  body := [.list [.symbol "set!", .symbol "n", .int 5]]
  scope := 1

/-- Two scopes with a counter each; the function of one is at hand, that
of the other is not. -/
def counters : State where
  store := (((((Store.empty.addScope none).addScope (some 0)).addScope
    (some 0)).define 1 "n" (.int 0)).define 2 "n" (.int 0)).define 0 "tick"
      (.lambda tick)
  console := ⟨"", false⟩

/-- Calls the function and answers it. -/
def ticking : Value :=
  .list [.symbol "begin", .list [.symbol "tick"], .symbol "tick"]

theorem only_tick : (Value.lambda tick).Only (fun i => i ≤ 1)
    fun _ => True := by
  simp [Value.only_lambda, Value.only_list, Value.only_symbol, tick]

theorem counters_closed : counters.store.ClosedUnder fun i => i ≤ 1 := by
  constructor
  · intro i p hp _
    have hp := Store.inside_of_define (Store.inside_of_define
      (Store.inside_of_define hp))
    rcases Store.inside_of_addScope hp with ⟨_, heq⟩ | hp
    · cases heq
      exact Nat.zero_le 1
    · rcases Store.inside_of_addScope hp with ⟨_, heq⟩ | hp
      · cases heq
        exact Nat.zero_le 1
      · rcases Store.inside_of_addScope hp with ⟨_, heq⟩ | ⟨sc, hsc, _⟩
        · cases heq
        · cases hsc
  · intro i name v hv _ b hb
    have hint : ∀ k : Int64, ¬ (Value.int k).Refers b := by
      rintro k ⟨f, hf, _⟩
      cases hf
    rcases Store.binds_of_define hv with ⟨_, rfl⟩ | hv
    · exact only_tick.refers hb
    · rcases Store.binds_of_define hv with ⟨_, rfl⟩ | hv
      · exact absurd hb (hint 0)
      · rcases Store.binds_of_define hv with ⟨_, rfl⟩ | hv
        · exact absurd hb (hint 0)
        · have hv := Store.binds_of_addScope (Store.binds_of_addScope
            (Store.binds_of_addScope hv))
          obtain ⟨sc, hsc, _⟩ := hv
          cases hsc

theorem not_reachable_other : ¬ counters.store.Reachable
    (fun a => a = 0 ∨ ticking.Refers a) 2 := by
  intro h
  have honly : ticking.Only (fun i => i ≤ 1) fun _ => True := by
    simp [Value.only_list, Value.only_symbol, ticking]
  have hle := counters_closed.of_reachable (fun i hi => ?_) h
  · exact absurd hle (by decide)
  · rcases hi with rfl | hi
    · exact Nat.zero_le 1
    · exact honly.refers hi

theorem ticking_stays_within_reach :
    (storeAfter (eval 4 ticking 0 counters)).scopes[2]? =
        counters.store.scopes[2]? ∧
      (storeAfter (eval 4 ticking 0 counters)).get? 1 "n" = some (.int 5) ∧
      ∃ v st', eval 4 ticking 0 counters = .ok v st' ∧ v.Refers 1 ∧
        (counters.store.Reachable (fun a => a = 0 ∨ ticking.Refers a) 1 ∨
          3 ≤ 1 ∧ 1 < st'.store.scopes.size) := by
  obtain ⟨hspared, -, hvalue⟩ :=
    evaluation_stays_within_reach 4 counters ticking 0
  refine ⟨hspared 2 (by decide) not_reachable_other, rfl, .lambda tick, _,
    rfl, ⟨tick, .refl, rfl⟩, ?_⟩
  exact hvalue _ _ rfl 1 (.root ⟨tick, .refl, rfl⟩)

end SmallLisp
