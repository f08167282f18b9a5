import SmallLisp.Proofs.Discipline
import SmallLisp.Proofs.RoundTrip
import SmallLisp.Proofs.Stores
import SmallLisp.Session

/-!
# What a session can come to

A session starts with the library in a root scope and goes on by working
through texts and forms there. A text may turn out to be unreadable, and an
evaluation may fail or be cut short; the session goes on from whatever
store it is left with. `Reached` are the stores that come up this way, and
`Answered` the values that the user gets to see.

What enters a session from outside is data, whose symbols are names. So a
discipline that admits all names and holds of a fresh session holds of
every store that a session reaches (`Starts.kept_of_reached`), and the
values that are answered keep to it (`Starts.good_of_answered`).
-/

namespace SmallLisp

/-! ## A fresh session -/

namespace Session

/-- The store after builtins were bound to their names in a scope. -/
def installed (e : ScopeId) (bs : List Builtin) (s : Store) : Store :=
  bs.foldl (fun t b => t.define e b.name (.builtin b)) s

theorem install_eq (e : ScopeId) (bs : List Builtin) (st : State) :
    install e bs st = .ok () { st with store := installed e bs st.store } := by
  induction bs generalizing st with
  | nil => rfl
  | cons b bs ih => exact ih _

theorem newRoot_eq : newRoot blank = .ok root
    { blank with
      store := installed root Builtin.all (Store.empty.addScope none) } :=
  (Eval.bind_ok rfl).trans (Eval.bind_ok (install_eq _ _ _))

theorem fresh_store :
    fresh.store = installed root Builtin.all (Store.empty.addScope none) := by
  rw [fresh, newRoot_eq]

theorem newRoot_blank : newRoot blank = .ok root fresh := by
  rw [fresh, newRoot_eq]

variable {e i p : ScopeId} {bs : List Builtin} {s : Store} {name : String}
  {v : Value}

theorem size_installed :
    (installed e bs s).scopes.size = s.scopes.size := by
  induction bs generalizing s with
  | nil => rfl
  | cons b bs ih => exact ih.trans Store.size_define

theorem inside_of_installed (h : (installed e bs s).Inside i p) :
    s.Inside i p := by
  induction bs generalizing s with
  | nil => exact h
  | cons b bs ih => exact Store.inside_of_define (ih h)

theorem binds_of_installed (h : (installed e bs s).Binds i name v) :
    (∃ b, v = .builtin b) ∨ s.Binds i name v := by
  induction bs generalizing s with
  | nil => exact .inr h
  | cons b bs ih =>
      rcases ih h with hb | hb
      · exact .inl hb
      · rcases Store.binds_of_define hb with ⟨_, rfl⟩ | hb
        · exact .inl ⟨b, rfl⟩
        · exact .inr hb

theorem size_fresh : fresh.store.scopes.size = 1 := by
  rw [fresh_store, size_installed]
  rfl

theorem not_inside_fresh : ¬ fresh.store.Inside i p := by
  rw [fresh_store]
  intro h
  rcases Store.inside_of_addScope (inside_of_installed h) with
    ⟨_, hp⟩ | ⟨sc, hsc, _⟩
  · cases hp
  · cases hsc

theorem builtin_of_binds_fresh (h : fresh.store.Binds i name v) :
    ∃ b, v = .builtin b := by
  rw [fresh_store] at h
  rcases binds_of_installed h with hb | hb
  · exact hb
  · obtain ⟨sc, hsc, _⟩ := Store.binds_of_addScope hb
    cases hsc

/-! ## Stores and answers -/

/-- The stores that a session comes to, whatever becomes of the console. -/
inductive Reached : Store → Prop where
  | fresh : Reached fresh.store
  | form {st : State} {source : String} {forms : List Value} {x : Value}
      (h : Reached st.store) (hread : Value.read source = .ok forms)
      (hx : x ∈ forms) (fuel : Nat) :
      Reached (storeAfter (eval fuel x root st))
  | text {st : State} (h : Reached st.store) (source : String) (fuel : Nat) :
      Reached (storeAfter (evalSource fuel root source st))

/-- The values that a session answers, with the store at that moment. -/
inductive Answered : Store → Value → Prop where
  | form {st st' : State} {source : String} {forms : List Value}
      {x v : Value} (h : Reached st.store)
      (hread : Value.read source = .ok forms) (hx : x ∈ forms) (fuel : Nat)
      (hv : eval fuel x root st = .ok v st') : Answered st'.store v
  | text {st st' : State} {v : Value} (h : Reached st.store)
      (source : String) (fuel : Nat)
      (hv : evalSource fuel root source st = .ok (.ok v) st') :
      Answered st'.store v

theorem Answered.reached (h : Answered s v) : Reached s := by
  cases h with
  | form h hread hx fuel hv =>
      have hnext := Reached.form h hread hx fuel
      rw [hv] at hnext
      exact hnext
  | text h source fuel hv =>
      have hnext := Reached.text h source fuel
      rw [hv] at hnext
      exact hnext

end Session

/-! ## Working through a text -/

theorem Upkeep.keeps_evalForms {U : Upkeep} {w : U.World} (fuel : Nat)
    {e : ScopeId} {forms : List Value} (he : U.home w e)
    (h : ∀ x ∈ forms, U.Good w x) :
    U.Keeps w U.Good (Session.evalForms fuel e forms) := by
  -- The value of the form before is what is answered if no form follows.
  suffices hfrom : ∀ last, U.Good w last →
      U.Keeps w U.Good (Session.evalFormsFrom fuel e last forms) from
    hfrom .nil Value.only_nil
  induction forms generalizing w with
  | nil => exact fun last hlast => U.keeps_pure hlast
  | cons x xs ih =>
      intro _ _
      refine ((U.keeps_eval fuel).1 w x e he (h x (by simp))).bind
        fun w' v hg hv => ?_
      exact ih (U.home_mono hg e he)
        (goodAll_mono (fun y hy => h y (by simp [hy])) hg) v hv

/-- Data hold no functions, and the symbols in them are names. -/
theorem Value.IsDatum.only {admits : Float → Prop} {link : ScopeId → Prop}
    {word : String → Prop} (hword : ∀ n, Token.IsName n → word n)
    {v : Value} (h : v.IsDatum admits) : v.Only link word := by
  induction h with
  | nil => exact only_nil
  | bool b => exact only_bool
  | int n => exact only_int
  | float hx => exact only_float
  | str s => exact only_str
  | symbol hn => exact only_symbol.2 (hword _ hn)
  | list _ ih => exact only_list.2 ih

namespace Discipline

variable {D : Discipline} {s : Store} {v : Value}

theorem keeps_attempt {α : Type} {Q : Store → α → Prop} {m : Eval α}
    (h : D.Keeps s Q m) :
    D.Keeps s (fun t r => ∀ a, r = .ok a → Q t a) (Eval.attempt m) := by
  intro st hst hs
  have hm := h st hst hs
  unfold Eval.attempt
  split
  · next a st' hr =>
      rw [hr] at hm
      refine ⟨hm.1, hm.2.1, fun b hb => ?_⟩
      cases hb
      exact hm.2.2
  · next err st' hr =>
      rw [hr] at hm
      exact ⟨hm.1, hm.2, nofun⟩
  · next a st' _ hr =>
      rw [hr] at hm
      exact hm

theorem keeps_evalSource (hword : ∀ n, Token.IsName n → D.word n)
    (fuel : Nat) {e : ScopeId} (source : String) (he : D.home s e) :
    D.Keeps s (fun t r => ∀ v, r = .ok v → D.Good t v)
      (Session.evalSource fuel e source) := by
  unfold Session.evalSource
  split
  · exact keeps_pure nofun
  · next forms hread =>
      have hforms := D.toUpkeep.keeps_evalForms fuel he fun x hx =>
        (isDatum_of_read hread x hx).only hword
      refine (keeps_attempt hforms).bind fun t r _ hr => ?_
      cases r with
      | error err => exact keeps_pure nofun
      | ok v =>
          refine keeps_pure fun u hu => ?_
          cases hu
          exact hr v rfl

/-- What a discipline needs for a session to keep it from the start. -/
structure Starts (D : Discipline) : Prop where
  word : ∀ n, Token.IsName n → D.word n
  holds : D.holds Session.fresh.store
  home : D.home Session.fresh.store Session.root

namespace Starts

open Session (Reached Answered root)

variable (hD : D.Starts)

include hD

theorem keeps_form {source : String} {forms : List Value} {x : Value}
    (hread : Value.read source = .ok forms) (hx : x ∈ forms)
    (hroot : D.home s root) (fuel : Nat) :
    D.Keeps s D.Good (eval fuel x root) :=
  (D.keeps_eval fuel).1 s x root hroot
    ((isDatum_of_read hread x hx).only hD.word)

theorem kept_of_reached (h : Reached s) :
    D.holds s ∧ D.home s root := by
  induction h with
  | fresh => exact ⟨hD.holds, hD.home⟩
  | form _ hread hx fuel ih =>
      obtain ⟨hs, hgrows⟩ :=
        (hD.keeps_form hread hx ih.2 fuel).storeAfter ih.1
      exact ⟨hs, D.home_mono hgrows root ih.2⟩
  | text _ source fuel ih =>
      obtain ⟨hs, hgrows⟩ :=
        (keeps_evalSource hD.word fuel source ih.2).storeAfter ih.1
      exact ⟨hs, D.home_mono hgrows root ih.2⟩

theorem good_of_answered (h : Answered s v) : D.Good s v := by
  cases h with
  | form h hread hx fuel hv =>
      obtain ⟨hs, hroot⟩ := hD.kept_of_reached h
      have hkept := hD.keeps_form hread hx hroot fuel _ rfl hs
      rw [hv] at hkept
      exact hkept.2.2
  | text h source fuel hv =>
      obtain ⟨hs, hroot⟩ := hD.kept_of_reached h
      have hkept := keeps_evalSource hD.word fuel source hroot _ rfl hs
      rw [hv] at hkept
      exact hkept.2.2 _ rfl

end Starts

end Discipline

end SmallLisp
