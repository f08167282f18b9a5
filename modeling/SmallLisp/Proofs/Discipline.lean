import SmallLisp.Proofs.Upkeep

/-!
# Disciplines

Much of what can be said about evaluation has one shape. Something holds
of the store all the way, the store changes in certain ways only, and the
values that come up refer to certain scopes only. What differs is what
holds, which changes and which scopes. A `Discipline` collects the three
and says what is asked of them: that opening a scope, binding, assigning,
looking up and making a lambda keep to it.

Nothing else touches the store, so a discipline is kept by every
evaluation and every call, whichever way it ends (`keeps_eval`). A `let`
form has a home of its own and asks no more of the scope it stands in than
a link (`keeps_let`). Both are had from `Upkeep.lean`: that a computation
keeps a discipline is a judgment that can be kept up.
-/

namespace SmallLisp

open Value (Only only_lambda)

/-- What holds of stores, how they change, and what values may hold. -/
structure Discipline where
  word : String → Prop
  holds : Store → Prop
  grows : Store → Store → Prop
  link : Store → ScopeId → Prop
  home : Store → ScopeId → Prop
  grows_refl : ∀ s, grows s s
  grows_trans : ∀ {s t u}, grows s t → grows t u → grows s u
  link_mono : ∀ {s t}, grows s t → ∀ e, link s e → link t e
  home_mono : ∀ {s t}, grows s t → ∀ e, home s e → home t e
  link_of_home : ∀ {s e}, home s e → link s e
  addScope : ∀ {s e}, holds s → link s e →
    holds (s.addScope (some e)) ∧ grows s (s.addScope (some e)) ∧
      home (s.addScope (some e)) s.scopes.size
  define : ∀ {s e name v}, holds s → home s e → Only (link s) word v →
    holds (s.define e name v) ∧ grows s (s.define e name v)
  -- A program that cannot say the word never assigns.
  assign : ∀ {s e name v s'}, word SpecialForm.setForm.name → holds s →
    link s e → Only (link s) word v → s.assign? e name v = some s' →
    holds s' ∧ grows s s'
  get : ∀ {s e name v}, holds s → link s e → s.get? e name = some v →
    Only (link s) word v
  newLambda : ∀ {s n}, holds s →
    holds { s with lambdas := n } ∧ grows s { s with lambdas := n }

/-- The store that a run leaves, whichever way it ends. -/
def storeAfter {α : Type} : EStateM.Result Abort State α → Store
  | .ok _ st => st.store
  | .error _ st => st.store

namespace Discipline

variable {D : Discipline} {α β : Type} {s t : Store}

/-- The value holds nothing that the discipline forbids. -/
def Good (D : Discipline) (s : Store) (v : Value) : Prop :=
  v.Only (D.link s) D.word

theorem Good.mono {v : Value} (h : D.Good s v) (hst : D.grows s t) :
    D.Good t v :=
  Only.mono (D.link_mono hst) h

/-- The discipline was kept up to the end, and the value at the end, if
there is one, has the property. -/
def Kept (D : Discipline) (s : Store) (Q : Store → α → Prop) :
    EStateM.Result Abort State α → Prop
  | .ok a st => D.holds st.store ∧ D.grows s st.store ∧ Q st.store a
  | .error _ st => D.holds st.store ∧ D.grows s st.store

/-- From the store `s` the computation keeps the discipline, whichever way
it ends, and its value has the property `Q`. -/
def Keeps (D : Discipline) (s : Store) (Q : Store → α → Prop)
    (m : Eval α) : Prop :=
  ∀ st, st.store = s → D.holds s → D.Kept s Q (m st)

theorem Keeps.storeAfter {Q : Store → α → Prop} {m : Eval α} {st : State}
    (h : D.Keeps st.store Q m) (hs : D.holds st.store) :
    D.holds (storeAfter (m st)) ∧ D.grows st.store (storeAfter (m st)) := by
  have hm := h st rfl hs
  cases hr : m st with
  | error a st' =>
      rw [hr] at hm
      exact hm
  | ok a st' =>
      rw [hr] at hm
      exact ⟨hm.1, hm.2.1⟩

/-! ## Computations -/

section Computations

variable {Q : Store → α → Prop} {R : Store → β → Prop}

theorem keeps_pure {a : α} (h : Q s a) : D.Keeps s Q (pure a) := by
  intro st hst hs
  subst hst
  exact ⟨hs, D.grows_refl _, h⟩

theorem keeps_throw {a : Abort} : D.Keeps s Q (throw a) := by
  intro st hst hs
  subst hst
  exact ⟨hs, D.grows_refl _⟩

theorem Keeps.bind {m : Eval α} {k : α → Eval β} (h : D.Keeps s Q m)
    (hk : ∀ t a, D.grows s t → Q t a → D.Keeps t R (k a)) :
    D.Keeps s R (m >>= k) := by
  intro st hst hs
  have hm := h st hst hs
  cases hr : m st with
  | error a st' =>
      rw [hr] at hm
      rw [Eval.bind_error hr]
      exact hm
  | ok a st' =>
      rw [hr] at hm
      obtain ⟨hs', hgrows, hQ⟩ := hm
      rw [Eval.bind_ok hr]
      have hka := hk _ a hgrows hQ st' rfl hs'
      cases hr' : k a st' with
      | error b st'' =>
          rw [hr'] at hka
          exact ⟨hka.1, D.grows_trans hgrows hka.2⟩
      | ok b st'' =>
          rw [hr'] at hka
          exact ⟨hka.1, D.grows_trans hgrows hka.2.1, hka.2.2⟩

theorem keeps_newScope {e : ScopeId} (he : D.link s e) :
    D.Keeps s (fun t scope => D.home t scope)
      (Eval.newScope (some e)) := by
  intro st hst hs
  subst hst
  exact D.addScope hs he

theorem keeps_define {e : ScopeId} {name : String} {v : Value}
    (he : D.home s e) (hv : D.Good s v) :
    D.Keeps s (fun _ _ => True) (Eval.define e name v) := by
  intro st hst hs
  subst hst
  obtain ⟨hs', hgrows⟩ := D.define hs he hv
  exact ⟨hs', hgrows, trivial⟩

theorem keeps_lookup {e : ScopeId} {name : String} (he : D.link s e) :
    D.Keeps s D.Good (Eval.lookup e name) := by
  intro st hst hs
  subst hst
  unfold Eval.lookup
  split
  · next v hv => exact ⟨hs, D.grows_refl _, D.get hs he hv⟩
  · exact ⟨hs, D.grows_refl _⟩

theorem keeps_assign {e : ScopeId} {name : String} {v : Value}
    (hw : D.word SpecialForm.setForm.name) (he : D.link s e)
    (hv : D.Good s v) :
    D.Keeps s (fun _ _ => True) (Eval.assign e name v) := by
  intro st hst hs
  subst hst
  unfold Eval.assign
  split
  · next s' hs' =>
      obtain ⟨hs', hgrows⟩ := D.assign hw hs he hv hs'
      exact ⟨hs', hgrows, trivial⟩
  · exact ⟨hs, D.grows_refl _⟩

theorem keeps_newLambda {name : Option String} {params : List String}
    {body : List Value} {e : ScopeId} (he : D.link s e)
    (hb : ∀ v ∈ body, D.Good s v) :
    D.Keeps s D.Good (Eval.newLambda name params body e) := by
  intro st hst hs
  subst hst
  obtain ⟨hs', hgrows⟩ := D.newLambda hs
  refine ⟨hs', hgrows, only_lambda.2 ⟨?_, fun v hv => ?_⟩⟩
  · exact D.link_mono hgrows e he
  · exact (hb v hv).mono hgrows

theorem keeps_print {text : String} :
    D.Keeps s (fun _ _ => True) (Eval.print text) := by
  intro st hst hs
  subst hst
  unfold Eval.print
  split
  · exact ⟨hs, D.grows_refl _⟩
  · exact ⟨hs, D.grows_refl _, trivial⟩

end Computations

/-- Evaluating in a home keeps the discipline. -/
def Evaluates (D : Discipline) (ev : Valuation) : Prop :=
  ∀ s x e, D.home s e → D.Good s x → D.Keeps s D.Good (ev x e)

/-- Calling keeps the discipline. -/
def Calls (D : Discipline) (c : Library.Caller) : Prop :=
  ∀ s f args, D.Good s f → (∀ v ∈ args, D.Good s v) →
    D.Keeps s D.Good (c f args)

/-! ## Evaluation -/

/-- A discipline is kept up from every store that it holds of. -/
def toUpkeep (D : Discipline) : Upkeep where
  World := Store
  word := D.word
  grows := D.grows
  link := D.link
  home := D.home
  Keeps := D.Keeps
  grows_trans := D.grows_trans
  link_mono := D.link_mono
  home_mono := D.home_mono
  link_of_home := D.link_of_home
  keeps_pure := keeps_pure
  keeps_raise := keeps_throw
  keeps_outOfFuel := keeps_throw
  keeps_bind := Keeps.bind
  keeps_newScope := keeps_newScope
  keeps_define := keeps_define
  keeps_lookup := keeps_lookup
  keeps_assign := keeps_assign
  keeps_newLambda := keeps_newLambda
  keeps_print := keeps_print

/-- Every evaluation and every call keeps the discipline. -/
theorem keeps_eval (D : Discipline) (fuel : Nat) :
    D.Evaluates (eval fuel) ∧ D.Calls (call fuel) :=
  D.toUpkeep.keeps_eval fuel

theorem keeps_let (fuel : Nat) {e : ScopeId} {args : List Value}
    (he : D.link s e) (h : ∀ v ∈ args, D.Good s v) :
    D.Keeps s D.Good
      (eval fuel (.list (.symbol SpecialForm.letForm.name :: args)) e) :=
  D.toUpkeep.keeps_let fuel he h

end Discipline

end SmallLisp
