import SmallLisp.Proofs.Discipline
import SmallLisp.Proofs.Stores

/-!
# Definitions stay where they are made

Names are bound in three places. A `def` form binds in the scope it is
evaluated in, a `let` form in a scope that it opens, and a call in the
scope that it opens for its parameters. So of the scopes there were before
an evaluation, only the one it runs in can gain names, and a `let` form or
a call adds names to none of them. No scope is ever moved into another.

What can happen to any scope that a program gets at is that a name it
binds already is given another value. That is the work of `set!` alone: if
the word occurs neither in what is evaluated nor in what the store holds,
the scopes that gain no names do not change at all. The word cannot come
up on the way, since nothing makes symbols.
-/

namespace SmallLisp

/-! ## Before and after -/

/-- What may become of a scope: it stays inside the same scope, and keeps
its names. If it is owned it may gain some. -/
structure Scope.NamesKept (own : Prop) (sc sc' : Scope) : Prop where
  parent : sc'.parent = sc.parent
  grow : ∀ m ∈ sc.bindings.names, m ∈ sc'.bindings.names
  same : ¬ own → sc'.bindings.names = sc.bindings.names

namespace Scope.NamesKept

variable {own : Prop} {sc sc' sc'' : Scope}

theorem refl (sc : Scope) : sc.NamesKept own sc :=
  ⟨rfl, fun _ hm => hm, fun _ => rfl⟩

theorem trans (h : sc.NamesKept own sc') (h' : sc'.NamesKept own sc'') :
    sc.NamesKept own sc'' := by
  refine ⟨h'.parent.trans h.parent, fun m hm => ?_, fun ho => ?_⟩
  · exact h'.grow m (h.grow m hm)
  · exact (h'.same ho).trans (h.same ho)

end Scope.NamesKept

namespace Store

/-- Every scope is still there, inside the same scope, and only the owned
ones have gained names. -/
def NamesKept (own : ScopeId → Prop) (s t : Store) : Prop :=
  ∀ (i : ScopeId) (sc : Scope), s.scopes[i]? = some sc →
    ∃ sc', t.scopes[i]? = some sc' ∧ sc.NamesKept (own i) sc'

/-- The scopes that are not owned are as they were. -/
def Untouched (own : ScopeId → Prop) (s t : Store) : Prop :=
  ∀ (i : ScopeId) (sc : Scope), s.scopes[i]? = some sc → ¬ own i →
    t.scopes[i]? = some sc

variable {own : ScopeId → Prop} {s t u : Store}

theorem namesKept_refl (s : Store) : s.NamesKept own s :=
  fun _ sc hsc => ⟨sc, hsc, .refl sc⟩

theorem NamesKept.trans (h : s.NamesKept own t) (h' : t.NamesKept own u) :
    s.NamesKept own u := by
  intro i sc hsc
  obtain ⟨sc', hsc', hkept⟩ := h i sc hsc
  obtain ⟨sc'', hsc'', hkept'⟩ := h' i sc' hsc'
  exact ⟨sc'', hsc'', hkept.trans hkept'⟩

theorem Untouched.trans (h : s.Untouched own t) (h' : t.Untouched own u) :
    s.Untouched own u :=
  fun i sc hsc ho => h' i sc (h i sc hsc ho) ho

theorem getElem?_addScope_of_some {i : ScopeId} {sc : Scope}
    {parent : Option ScopeId} (h : s.scopes[i]? = some sc) :
    (s.addScope parent).scopes[i]? = some sc := by
  have hne : i ≠ s.scopes.size := Nat.ne_of_lt (lt_of_getElem? h)
  rw [getElem?_addScope, if_neg hne, h]

theorem namesKept_addScope {parent : Option ScopeId} :
    s.NamesKept own (s.addScope parent) :=
  fun _ sc hsc => ⟨sc, getElem?_addScope_of_some hsc, .refl sc⟩

/-- Binding a name keeps the names if the scope is owned, and also if it
binds the name already. -/
theorem namesKept_define {e : ScopeId} {name : String} {v : Value}
    (h : own e ∨ ∃ w, s.Binds e name w) :
    s.NamesKept own (s.define e name v) := by
  intro i sc hsc
  by_cases hi : i = e
  · subst hi
    refine ⟨_, getElem?_define_self hsc, rfl,
      fun m hm => Bindings.mem_names_insert hm, fun ho => ?_⟩
    rcases h with hown | ⟨w, sc', hsc', hw⟩
    · exact absurd hown ho
    · rw [hsc] at hsc'
      cases hsc'
      exact Bindings.names_insert_of_isSome (by rw [hw]; rfl)
  · exact ⟨sc, by rw [getElem?_define_of_ne hi, hsc], .refl sc⟩

theorem untouched_define {e : ScopeId} {name : String} {v : Value}
    (h : own e) : s.Untouched own (s.define e name v) := by
  intro i sc hsc ho
  have hi : i ≠ e := by
    rintro rfl
    exact ho h
  rw [getElem?_define_of_ne hi, hsc]

end Store

/-! ## The discipline -/

/-- The words of a program that may assign, or may not. -/
def mayAssign (assigns : Prop) (name : String) : Prop :=
  assigns ∨ name ≠ SpecialForm.setForm.name

/-- Scopes from number `n` on are new, and owned by those who open them. -/
def ownedFrom (n : Nat) (own : ScopeId → Prop) (i : ScopeId) : Prop :=
  own i ∨ n ≤ i

def scoping (own : ScopeId → Prop) (assigns : Prop) (n : Nat) :
    Discipline where
  word := mayAssign assigns
  holds s := n ≤ s.scopes.size ∧ ∀ i name v, s.Binds i name v →
    v.Only (fun _ => True) (mayAssign assigns)
  grows s t := s.NamesKept (ownedFrom n own) t ∧
    (assigns ∨ s.Untouched (ownedFrom n own) t)
  link _ _ := True
  home _ e := ownedFrom n own e
  grows_refl s := ⟨s.namesKept_refl, .inr fun _ _ hsc _ => hsc⟩
  grows_trans h h' := by
    refine ⟨h.1.trans h'.1, ?_⟩
    rcases h.2 with ha | hu
    · exact .inl ha
    · exact h'.2.imp id hu.trans
  link_mono _ _ _ := trivial
  home_mono _ _ he := he
  link_of_home _ := trivial
  addScope := by
    intro s e hs _
    refine ⟨⟨?_, fun i name v hb => ?_⟩, ⟨?_, ?_⟩, ?_⟩
    · rw [Store.size_addScope]
      omega
    · exact hs.2 i name v (Store.binds_of_addScope hb)
    · exact Store.namesKept_addScope
    · exact .inr fun _ _ hsc _ => Store.getElem?_addScope_of_some hsc
    · exact .inr hs.1
  define := by
    intro s e name v hs he hv
    refine ⟨⟨?_, fun i m w hb => ?_⟩, ?_, ?_⟩
    · rw [Store.size_define]
      exact hs.1
    · rcases Store.binds_of_define hb with ⟨_, rfl⟩ | hb
      · exact hv
      · exact hs.2 i m w hb
    · exact Store.namesKept_define (.inl he)
    · exact .inr (Store.untouched_define he)
  assign := by
    intro s e name v s' hw hs _ hv h
    have ha : assigns := hw.resolve_right fun hne => hne rfl
    obtain ⟨owner, _, hbound, rfl⟩ :=
      Store.define_of_assign (P := fun _ => True) (fun _ _ _ h => h) trivial h
    refine ⟨⟨?_, fun i m w hb => ?_⟩, ?_, .inl ha⟩
    · rw [Store.size_define]
      exact hs.1
    · rcases Store.binds_of_define hb with ⟨_, rfl⟩ | hb
      · exact hv
      · exact hs.2 i m w hb
    · exact Store.namesKept_define (.inr hbound)
  get := by
    intro s e name v hs _ h
    obtain ⟨i, _, hb⟩ := Store.binds_of_getWithin (P := fun _ => True)
      (fun _ _ _ h => h) trivial h
    exact hs.2 i name v hb
  newLambda := by
    intro s n hs
    refine ⟨hs, ?_, .inr fun _ _ hsc _ => hsc⟩
    exact fun _ sc hsc => ⟨sc, hsc, .refl sc⟩

/-! ## Evaluation -/

theorem scoping_storeAfter {own : ScopeId → Prop} {assigns : Prop}
    {st : State} {Q : Store → Value → Prop} {m : Eval Value}
    (h : (scoping own assigns st.store.scopes.size).Keeps st.store Q m)
    (hs : ∀ i name v, st.store.Binds i name v →
      v.Only (fun _ => True) (mayAssign assigns)) :
    st.store.NamesKept own (storeAfter (m st)) ∧
      (assigns ∨ st.store.Untouched own (storeAfter (m st))) := by
  obtain ⟨-, hkept, htouched⟩ := h.storeAfter ⟨Nat.le_refl _, hs⟩
  -- A scope that was there before has too small a number to be new.
  have hown : ∀ i sc, st.store.scopes[i]? = some sc → ¬ own i →
      ¬ ownedFrom st.store.scopes.size own i := by
    rintro i sc hsc ho (hi | hi)
    · exact ho hi
    · exact absurd (Store.lt_of_getElem? hsc) (Nat.not_lt.2 hi)
  refine ⟨fun i sc hsc => ?_, htouched.imp id fun hu i sc hsc ho => ?_⟩
  · obtain ⟨sc', hsc', hparent, hgrow, hsame⟩ := hkept i sc hsc
    exact ⟨sc', hsc', hparent, hgrow, fun ho => hsame (hown i sc hsc ho)⟩
  · exact hu i sc hsc (hown i sc hsc ho)

section Runs

variable {assigns : Prop} {st : State}
  (hs : ∀ i name v, st.store.Binds i name v →
    v.Only (fun _ => True) (mayAssign assigns))

include hs

theorem scoping_eval (fuel : Nat) {x : Value} (e : ScopeId)
    (hx : x.Only (fun _ => True) (mayAssign assigns)) :
    st.store.NamesKept (fun i => i = e) (storeAfter (eval fuel x e st)) ∧
      (assigns ∨ st.store.Untouched (fun i => i = e)
        (storeAfter (eval fuel x e st))) := by
  have h := (scoping (fun i => i = e) assigns
    st.store.scopes.size).keeps_eval fuel
  exact scoping_storeAfter (h.1 st.store x e (.inl rfl) hx) hs

theorem scoping_let (fuel : Nat) {args : List Value} (e : ScopeId)
    (h : ∀ v ∈ args, v.Only (fun _ => True) (mayAssign assigns)) :
    st.store.NamesKept (fun _ => False) (storeAfter (eval fuel
        (.list (.symbol SpecialForm.letForm.name :: args)) e st)) ∧
      (assigns ∨ st.store.Untouched (fun _ => False) (storeAfter (eval fuel
        (.list (.symbol SpecialForm.letForm.name :: args)) e st))) := by
  have hlet := Discipline.keeps_let
    (D := scoping (fun _ => False) assigns st.store.scopes.size)
    (s := st.store) (e := e) fuel trivial h
  exact scoping_storeAfter hlet hs

theorem scoping_call (fuel : Nat) {f : Value} {args : List Value}
    (hf : f.Only (fun _ => True) (mayAssign assigns))
    (h : ∀ v ∈ args, v.Only (fun _ => True) (mayAssign assigns)) :
    st.store.NamesKept (fun _ => False) (storeAfter (call fuel f args st)) ∧
      (assigns ∨ st.store.Untouched (fun _ => False)
        (storeAfter (call fuel f args st))) := by
  have hcall := (scoping (fun _ => False) assigns
    st.store.scopes.size).keeps_eval fuel
  exact scoping_storeAfter (hcall.2 st.store f args hf h) hs

end Runs

theorem only_of_assigns (v : Value) :
    v.Only (fun _ => True) (mayAssign True) :=
  ⟨fun _ _ => trivial, fun _ _ => .inl trivial⟩

/-- The value does not say `set!`. -/
def Value.Constant (v : Value) : Prop :=
  ¬ (Value.symbol SpecialForm.setForm.name).Within v

theorem Value.Constant.only {v : Value} (h : v.Constant) :
    v.Only (fun _ => True) (mayAssign False) := by
  refine ⟨fun _ _ => trivial, fun n hn => .inr ?_⟩
  rintro rfl
  exact h hn

/-- An evaluation adds names to no scope that was there before but the one
it runs in, and a `let` form and a call to none; scopes stay where they
are. Where there is no `set!` about, these scopes do not change at all. -/
theorem definitions_stay_local (fuel : Nat) (st : State) :
    (∀ (x : Value) (e : ScopeId),
      st.store.NamesKept (fun i => i = e)
        (storeAfter (eval fuel x e st))) ∧
    (∀ (args : List Value) (e : ScopeId),
      st.store.NamesKept (fun _ => False) (storeAfter (eval fuel
        (.list (.symbol SpecialForm.letForm.name :: args)) e st))) ∧
    (∀ (f : Value) (args : List Value),
      st.store.NamesKept (fun _ => False)
        (storeAfter (call fuel f args st))) ∧
    ((∀ i name v, st.store.Binds i name v → v.Constant) →
      (∀ (x : Value) (e : ScopeId), x.Constant →
        st.store.Untouched (fun i => i = e)
          (storeAfter (eval fuel x e st))) ∧
      (∀ (args : List Value) (e : ScopeId), (∀ v ∈ args, v.Constant) →
        st.store.Untouched (fun _ => False) (storeAfter (eval fuel
          (.list (.symbol SpecialForm.letForm.name :: args)) e st))) ∧
      (∀ (f : Value) (args : List Value), f.Constant →
        (∀ v ∈ args, v.Constant) →
        st.store.Untouched (fun _ => False)
          (storeAfter (call fuel f args st)))) := by
  have hany : ∀ i name v, st.store.Binds i name v →
      v.Only (fun _ => True) (mayAssign True) :=
    fun _ _ v _ => only_of_assigns v
  refine ⟨fun x e => ?_, fun args e => ?_, fun f args => ?_, fun hs => ?_⟩
  · exact (scoping_eval hany fuel e (only_of_assigns x)).1
  · exact (scoping_let hany fuel e fun v _ => only_of_assigns v).1
  · exact (scoping_call hany fuel (only_of_assigns f)
      fun v _ => only_of_assigns v).1
  · have hnone : ∀ i name v, st.store.Binds i name v →
        v.Only (fun _ => True) (mayAssign False) :=
      fun i name v hb => (hs i name v hb).only
    refine ⟨fun x e hx => ?_, fun args e h => ?_, fun f args hf h => ?_⟩
    · exact (scoping_eval hnone fuel e hx.only).2.resolve_left id
    · exact (scoping_let hnone fuel e
        fun v hv => (h v hv).only).2.resolve_left id
    · exact (scoping_call hnone fuel hf.only
        fun v hv => (h v hv).only).2.resolve_left id

/-- Two scopes, one inside the other. -/
def nestedState : State where
  store := (((Store.empty.addScope none).define 0 "x" (.int 1)).addScope
    (some 0)).define 1 "n" (.int 0)
  console := ⟨"", false⟩

/-- Defines in the inner scope a name that the outer one binds. -/
def shadowing : Value :=
  .list [.symbol "def", .symbol "x", .int 2]

theorem nestedState_constant (i : ScopeId) (name : String) (v : Value)
    (h : nestedState.store.Binds i name v) : v.Constant := by
  rcases Store.binds_of_define h with ⟨_, rfl⟩ | h
  · exact nofun
  · rcases Store.binds_of_define (Store.binds_of_addScope h) with
      ⟨_, rfl⟩ | h
    · exact nofun
    · obtain ⟨sc, hsc, _⟩ := Store.binds_of_addScope h
      cases hsc

theorem shadowing_constant : shadowing.Constant := by
  have hword : ∀ n m : String, (Value.symbol n).Within (.symbol m) →
      n = m := by
    intro n m h
    cases h
    rfl
  intro h
  cases h with
  | item hv hw =>
      simp only [List.mem_cons, List.not_mem_nil, or_false] at hv
      rcases hv with rfl | rfl | rfl
      · exact absurd (hword _ _ hw) (by decide)
      · exact absurd (hword _ _ hw) (by decide)
      · cases hw

theorem shadowing_stays_local :
    nestedState.store.NamesKept (fun i => i = 1)
        (storeAfter (eval 2 shadowing 1 nestedState)) ∧
      nestedState.store.Untouched (fun i => i = 1)
        (storeAfter (eval 2 shadowing 1 nestedState)) ∧
      (storeAfter (eval 2 shadowing 1 nestedState)).names 1 =
        ["n", "x"] := by
  obtain ⟨hnames, -, -, hconstant⟩ := definitions_stay_local 2 nestedState
  refine ⟨hnames shadowing 1, ?_, by decide⟩
  exact (hconstant nestedState_constant).1 shadowing 1 shadowing_constant

end SmallLisp
