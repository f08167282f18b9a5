import Mathlib.Data.List.Forall2
import SmallLisp.Proofs.Direct

/-!
# How computations end, put together

A program means what it ends in, given enough fuel (`Ends`). To compare two
programs that are built differently one wants to reason about their parts,
each with the fuel that it needs, and this module makes that possible.

What more fuel never takes back is `Growing`, and evaluating and calling are.
Two growing computations, one after the other, end as one expects: the second
starts where the first has ended, and the fuel is of no concern
(`ends_bind_iff`). So ending alike is kept by sequencing (`Alike.bind`), and
programs can be rewritten part by part.

The first use is the call. With a function at the head, a call is the
evaluation of its operands and then the call of the function (`alike_call`),
and operands that are quoted are there already.

Many expressions have no effect at all. `Value.Denotes` says that of an
expression and its value, and `Builtin.Answers` of a builtin and its operands;
a builtin that answers so, called on expressions that have values, is again an
expression that has one (`Answers.denotes`).
-/

namespace SmallLisp

open Eval (Extends extends_refl)

section Sequencing

variable {α β : Type} {st : State}

/-- What is settled with some fuel stays so with more. -/
def Growing (f : Nat → Eval α) : Prop :=
  ∀ n m, n ≤ m → Extends (f n) (f m)

theorem Eval.Extends.trans {m m' m'' : Eval α} (h : Extends m m')
    (h' : Extends m' m'') : Extends m m'' := by
  intro st
  rcases h st with hcut | heq
  · exact .inl hcut
  · rcases h' st with hcut | heq'
    · rw [heq] at hcut
      exact .inl hcut
    · exact .inr (heq'.trans heq)

theorem growing_const (m : Eval α) : Growing fun _ => m :=
  fun _ _ _ => extends_refl m

theorem Growing.bind {m : Nat → Eval α} {k : Nat → α → Eval β}
    (hm : Growing m) (hk : ∀ a, Growing fun n => k n a) :
    Growing fun n => m n >>= k n :=
  fun n n' hle => (hm n n' hle).bind fun a => hk a n n' hle

theorem growing_eval (x : Value) (e : ScopeId) :
    Growing fun n => eval n x e :=
  fun n m hle => (extends_of_le n m hle).1 x e

theorem growing_call (f : Value) (args : List Value) :
    Growing fun n => call n f args :=
  fun n m hle => (extends_of_le n m hle).2 f args

theorem growing_operands (e : ScopeId) (args : List Value) :
    Growing fun n => Direct.operands (eval n) e args :=
  fun n m hle => Direct.operands_mono (extends_of_le n m hle).1 args

theorem Growing.eq_of_le {f : Nat → Eval α} (hf : Growing f) {n m : Nat}
    {r : EStateM.Result Abort State α} (h : f n st = r) (hcut : ¬ Cut r)
    (hle : n ≤ m) : f m st = r := by
  rcases hf n m hle st with hc | heq
  · rw [h] at hc
    exact absurd hc hcut
  · rw [heq, h]

theorem cut_error_iff {a : Abort} :
    Cut (.error a st : EStateM.Result Abort State α) ↔ a = .outOfFuel := by
  cases a <;> simp [Cut]

/-- Of two computations in turn, the first ends in a value and the second
goes on from there, or the first ends in an error and that is all. -/
theorem ends_bind_iff {m : Nat → Eval α} {k : Nat → α → Eval β}
    (hm : Growing m) (hk : ∀ a, Growing fun n => k n a)
    {r : EStateM.Result Abort State β} :
    Ends (fun n => m n >>= k n) st r ↔
      (∃ a st', Ends m st (.ok a st') ∧ Ends (fun n => k n a) st' r) ∨
        ∃ a st', Ends m st (.error a st') ∧ r = .error a st' := by
  constructor
  · intro h
    obtain ⟨hcut, n, hn⟩ := h
    dsimp only at hn
    cases hmn : m n st with
    | ok a st' =>
        rw [Eval.bind_ok hmn] at hn
        exact .inl ⟨a, st', ⟨id, n, hmn⟩, hcut, n, hn⟩
    | error a st' =>
        rw [Eval.bind_error hmn] at hn
        subst hn
        rw [cut_error_iff] at hcut
        exact .inr ⟨a, st', ⟨by rwa [cut_error_iff], n, hmn⟩, rfl⟩
  · intro h
    rcases h with ⟨a, st', ⟨hok, n, hn⟩, hcut, n', hn'⟩ |
      ⟨a, st', ⟨hcut, n, hn⟩, rfl⟩
    · -- The larger of the two budgets is enough for both.
      have hfirst := hm.eq_of_le hn hok (Nat.le_max_left n n')
      have hsecond := (hk a).eq_of_le hn' hcut (Nat.le_max_right n n')
      refine ⟨hcut, max n n', ?_⟩
      dsimp only
      rw [Eval.bind_ok hfirst, hsecond]
    · rw [cut_error_iff] at hcut
      refine ⟨by rwa [cut_error_iff], n, ?_⟩
      dsimp only
      rw [Eval.bind_error hn]

theorem ends_const_iff {m : Eval α} {r : EStateM.Result Abort State α} :
    Ends (fun _ => m) st r ↔ ¬ Cut r ∧ m st = r := by
  simp [Ends]

theorem ends_bind_pure_ok_iff {m : Nat → Eval α} (hm : Growing m)
    (f : α → β) {b : β} {st' : State} :
    Ends (fun n => m n >>= fun a => pure (f a)) st (.ok b st') ↔
      ∃ a, Ends m st (.ok a st') ∧ b = f a := by
  rw [ends_bind_iff hm fun a => growing_const (pure (f a))]
  constructor
  · intro h
    rcases h with ⟨a, st'', ha, hb⟩ | ⟨a, st'', -, hb⟩
    · obtain ⟨-, heq⟩ := ends_const_iff.1 hb
      cases heq
      exact ⟨a, ha, rfl⟩
    · cases hb
  · intro h
    obtain ⟨a, ha, rfl⟩ := h
    exact .inl ⟨a, st', ha, ends_const_iff.2 ⟨id, rfl⟩⟩

theorem ends_bind_pure_error_iff {m : Nat → Eval α} (hm : Growing m)
    (f : α → β) {err : Abort} {st' : State} :
    Ends (fun n => m n >>= fun a => pure (f a)) st (.error err st') ↔
      Ends m st (.error err st') := by
  rw [ends_bind_iff hm fun a => growing_const (pure (f a))]
  constructor
  · intro h
    rcases h with ⟨a, st'', -, hb⟩ | ⟨a, st'', ha, heq⟩
    · obtain ⟨-, heq⟩ := ends_const_iff.1 hb
      cases heq
    · cases heq
      exact ha
  · intro h
    exact .inr ⟨err, st', h, rfl⟩

end Sequencing

/-! ## Ending alike -/

/-- From every state the two end in the same ways. -/
def Alike {α : Type} (f g : Nat → Eval α) : Prop :=
  ∀ st r, Ends f st r ↔ Ends g st r

namespace Alike

variable {α β : Type} {f g h : Nat → Eval α}

theorem refl (f : Nat → Eval α) : Alike f f :=
  fun _ _ => Iff.rfl

theorem symm (hfg : Alike f g) : Alike g f :=
  fun st r => (hfg st r).symm

theorem trans (hfg : Alike f g) (hgh : Alike g h) : Alike f h :=
  fun st r => (hfg st r).trans (hgh st r)

theorem of_succ (hzero : f 0 = throw .outOfFuel)
    (hsucc : ∀ n, f (n + 1) = g n) : Alike f g :=
  fun _ _ => ends_succ_iff hzero hsucc

theorem of_extends (hfg : ∀ n, ∃ m, Extends (f n) (g m))
    (hgf : ∀ n, ∃ m, Extends (g n) (f m)) : Alike f g :=
  fun _ _ => ⟨fun hends => hends.extend hfg, fun hends => hends.extend hgf⟩

theorem bind {m m' : Nat → Eval α} {k k' : Nat → α → Eval β}
    (hm : Growing m) (hm' : Growing m') (hk : ∀ a, Growing fun n => k n a)
    (hk' : ∀ a, Growing fun n => k' n a) (hmm' : Alike m m')
    (hkk' : ∀ a, Alike (fun n => k n a) fun n => k' n a) :
    Alike (fun n => m n >>= k n) fun n => m' n >>= k' n := by
  intro st r
  rw [ends_bind_iff hm hk, ends_bind_iff hm' hk']
  refine or_congr ?_ ?_
  · exact exists_congr fun a => exists_congr fun st' =>
      and_congr (hmm' st _) (hkk' a st' r)
  · exact exists_congr fun a => exists_congr fun st' =>
      and_congr_left' (hmm' st _)

/-- What follows stays as it is. -/
theorem bind_left {m m' : Nat → Eval α} {k : Nat → α → Eval β}
    (hm : Growing m) (hm' : Growing m') (hk : ∀ a, Growing fun n => k n a)
    (hmm' : Alike m m') :
    Alike (fun n => m n >>= k n) fun n => m' n >>= k n :=
  bind hm hm' hk hk hmm' fun _ => refl _

end Alike

/-! ## Calls with a function at the head -/

theorem eval_function {f : Value} (hf : f.isCallable = true) (n : Nat)
    (e : ScopeId) : eval (n + 1) f e = pure f := by
  rw [eval_succ]
  cases f with
  | builtin _ | lambda _ => rfl
  | nil | bool _ | int _ | float _ | str _ | symbol _ | list _ => cases hf

theorem eval_call {f : Value} (hf : f.isCallable = true) (n : Nat)
    (args : List Value) (e : ScopeId) :
    eval (n + 2) (.list (f :: args)) e =
      Direct.operands (eval (n + 1)) e args >>= call (n + 2) f := by
  have happ : eval (n + 2) (.list (f :: args)) e =
      Direct.application (eval (n + 1)) (call (n + 2)) f args e := by
    rw [eval_succ]
    cases f with
    | builtin _ | lambda _ => rfl
    | nil | bool _ | int _ | float _ | str _ | symbol _ | list _ => cases hf
  rw [happ, Direct.application, eval_function hf, pure_bind, if_pos hf]

theorem alike_call {f : Value} (hf : f.isCallable = true)
    (args : List Value) (e : ScopeId) :
    Alike (fun n => eval n (.list (f :: args)) e)
      fun n => Direct.operands (eval n) e args >>= call n f := by
  refine .of_extends (fun n => ⟨n + 2, ?_⟩) fun n => ⟨n + 2, ?_⟩
  · -- With two units more the call is under way on both sides.
    refine (growing_eval _ e n (n + 2) (by omega)).trans ?_
    dsimp only
    rw [eval_call hf]
    exact (growing_operands e args (n + 1) (n + 2) (by omega)).bind
      fun vs => extends_refl _
  · rw [eval_call hf]
    exact (growing_operands e args n (n + 1) (by omega)).bind
      fun vs => growing_call f vs n (n + 2) (by omega)

/-! ## Expressions that have a value -/

/-- Evaluated in the scope, the expression comes to the value and does
nothing else. -/
def Value.Denotes (e : ScopeId) (x v : Value) : Prop :=
  Alike (fun n => eval n x e) fun _ => pure v

theorem denotes_quoted (e : ScopeId) (x : Value) :
    Value.Denotes e (.tagged .quote x) x :=
  .of_succ rfl fun n => by rw [eval_succ]; rfl

/-- Whatever is neither a symbol nor a list stands for itself. -/
theorem denotes_self (e : ScopeId) {v : Value} (hs : v.kind ≠ .symbol)
    (hl : v.kind ≠ .list) : Value.Denotes e v v := by
  refine .of_succ rfl fun n => ?_
  rw [eval_succ]
  cases v with
  | symbol _ => exact absurd rfl hs
  | list _ => exact absurd rfl hl
  | nil | bool _ | int _ | float _ | str _ | builtin _ | lambda _ => rfl

theorem denotes_int (e : ScopeId) (n : Int64) :
    Value.Denotes e (.int n) (.int n) :=
  denotes_self e nofun nofun

/-- One operand and then the others, each as it ends alike. -/
theorem alike_operands_cons {x : Value} {xs : List Value} {e : ScopeId}
    {m : Nat → Eval Value} {ms : Nat → Eval (List Value)} (hm : Growing m)
    (hms : Growing ms) (hx : Alike (fun n => eval n x e) m)
    (hxs : Alike (fun n => Direct.operands (eval n) e xs) ms) :
    Alike (fun n => Direct.operands (eval n) e (x :: xs)) fun n => do
      let v ← m n
      let vs ← ms n
      return v :: vs := by
  have hrest (g : Nat → Eval (List Value)) (hg : Growing g) (v : Value) :
      Growing fun n => do return v :: (← g n) :=
    hg.bind fun vs => growing_const _
  refine .bind (growing_eval x e) hm (hrest _ (growing_operands e xs))
    (hrest ms hms) hx fun v => ?_
  exact .bind_left (growing_operands e xs) hms (fun vs => growing_const _) hxs

theorem alike_operands {e : ScopeId} {xs vs : List Value}
    (h : List.Forall₂ (Value.Denotes e) xs vs) :
    Alike (fun n => Direct.operands (eval n) e xs) fun _ => pure vs := by
  induction h with
  | nil => exact .refl _
  | cons hx _ ih =>
      have hcons := alike_operands_cons (growing_const _) (growing_const _)
        hx ih
      simpa using hcons

theorem alike_operands_quoted (xs : List Value) (e : ScopeId) :
    Alike (fun n => Direct.operands (eval n) e (xs.map (.tagged .quote)))
      fun _ => pure xs := by
  refine alike_operands ?_
  rw [List.forall₂_map_left_iff, List.forall₂_same]
  exact fun x _ => denotes_quoted e x

/-! ## Builtins that only compute -/

namespace Builtin

variable {b : Builtin} {args : List Value} {a : Answer Value}

/-- Called on the operands, the builtin answers so in every state, and the
state stays as it is. -/
def Answers (b : Builtin) (args : List Value) (a : Answer Value) : Prop :=
  ∀ n, call (n + 1) (.builtin b) args = Eval.ofAnswer a

theorem answers_of_run (harity : b.arity.accepts args.length = true)
    (h : ∀ c, Library.run c b args = Eval.ofAnswer a) : b.Answers args a := by
  intro n
  rw [call_succ]
  show Library.apply (call n) b args = _
  rw [Library.apply, checkArity, if_pos harity, h]
  rfl

theorem Answers.unique {a' : Answer Value} (h : b.Answers args a)
    (h' : b.Answers args a') : a = a' := by
  have heq : Eval.ofAnswer a = Eval.ofAnswer a' := (h 0).symm.trans (h' 0)
  have hst := congrFun heq ⟨.empty, ⟨"", false⟩⟩
  cases a with
  | ok v =>
      cases a' with
      | ok v' => cases hst; rfl
      | error err' => cases hst
  | error err =>
      cases a' with
      | ok v' => cases hst
      | error err' => cases hst; rfl

/-- A call of the builtin on expressions that have values ends as the builtin
answers to the values. -/
theorem Answers.alike {e : ScopeId} {xs : List Value} (h : b.Answers args a)
    (hxs : List.Forall₂ (Value.Denotes e) xs args) :
    Alike (fun n => eval n (.list (.builtin b :: xs)) e)
      fun _ => Eval.ofAnswer a := by
  refine (alike_call rfl xs e).trans ?_
  have hoperands := Alike.bind_left (growing_operands e xs)
    (growing_const (pure args)) (growing_call (.builtin b))
    (alike_operands hxs)
  have hanswer : Alike (fun n => call n (.builtin b) args)
      fun _ => Eval.ofAnswer a := .of_succ rfl h
  simp only [pure_bind] at hoperands
  exact hoperands.trans hanswer

theorem Answers.denotes {e : ScopeId} {xs : List Value} {v : Value}
    (h : b.Answers args (.ok v))
    (hxs : List.Forall₂ (Value.Denotes e) xs args) :
    Value.Denotes e (.list (.builtin b :: xs)) v :=
  h.alike hxs

end Builtin

end SmallLisp
