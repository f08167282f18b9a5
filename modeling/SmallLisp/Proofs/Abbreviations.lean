import SmallLisp.Proofs.Endings

/-!
# Builtins that abbreviate calls

Four builtins take a function and call it. Each of them could do without: it
abbreviates a form in which the same calls are written out, with the function
itself at the head and the operands quoted. `apply` is one call, `map` a list
of calls, and `reduce` a call within a call, as deep as the list is long.

That the two agree is not a matter of course, because they take different
ways. A builtin calls a function from outside the loop that evaluates forms,
and a call that is written out is a step of that loop. Both ways are brought
down to the same calls in the same order (`alike_answers`, `alike_reduction`),
by rewriting one part after the other.

For `filter` there is no form to compare with, since what it answers are not
the answers of the function. It is compared with the calls themselves:
`CallsInTurn` are calls one after the other, each from the state that the one
before has left, and `BreaksOff` is the case that one of them fails.
-/

namespace SmallLisp

/-! ## Calls in turn -/

/-- The function is called on each item, from the left, and answers; each call
starts from the state that the one before has left. -/
inductive CallsInTurn (f : Value) :
    State → List Value → List Value → State → Prop where
  | nil {st : State} : CallsInTurn f st [] [] st
  | cons {st st' st'' : State} {x v : Value} {xs vs : List Value}
      (hcall : Ends (fun n => call n f [x]) st (.ok v st'))
      (hrest : CallsInTurn f st' xs vs st'') :
      CallsInTurn f st (x :: xs) (v :: vs) st''

/-- The function answers to some of the items, and the call on the next one
ends in an error; there is no call on the items behind it. -/
def BreaksOff (f : Value) (st : State) (xs : List Value) (a : Abort)
    (st' : State) : Prop :=
  ∃ front x back vs mid, xs = front ++ x :: back ∧
    CallsInTurn f st front vs mid ∧
    Ends (fun n => call n f [x]) mid (.error a st')

/-- The items for which the answer is true, in order. -/
def accepted (xs answers : List Value) : List Value :=
  ((xs.zip answers).filter fun p => p.2.isTruthy).map Prod.fst

/-! ## Calls written out -/

/-- A call with the function itself at the head and the operands quoted. -/
def callForm (f : Value) (xs : List Value) : Value :=
  .list (f :: xs.map (.tagged .quote))

/-- A list of calls, one for each item. -/
def mapForm (f : Value) (xs : List Value) : Value :=
  .list (.builtin .list :: xs.map fun x => callForm f [x])

/-- A call on a call and an item, and so on for each item, with `a` quoted
innermost. -/
def reduceForm (f a : Value) (xs : List Value) : Value :=
  xs.foldl (fun x y => .list [f, x, .tagged .quote y]) (.tagged .quote a)

/-! ## The calls that are made -/

namespace Library

/-- The answers of a function to items, by plain recursion. -/
def answers (call : Caller) (f : Value) : List Value → Eval (List Value)
  | [] => pure []
  | x :: xs => do
    let v ← call f [x]
    let vs ← answers call f xs
    return v :: vs

variable {c c' : Caller}

theorem mapItems_eq (f : Value) (found xs : List Value) :
    mapItems c f found xs = do
      let vs ← answers c f xs
      return found.reverse ++ vs := by
  induction xs generalizing found with
  | nil => simp [mapItems, answers]
  | cons x xs ih => simp [mapItems, answers, ih]

theorem filterItems_eq (f : Value) (found xs : List Value) :
    filterItems c f found xs = do
      let vs ← answers c f xs
      return found.reverse ++ accepted xs vs := by
  induction xs generalizing found with
  | nil => simp [filterItems, answers, accepted]
  | cons x xs ih =>
      rw [filterItems, answers, bind_assoc]
      refine bind_congr fun v => ?_
      rw [ih, bind_assoc]
      refine bind_congr fun vs => ?_
      cases hv : v.isTruthy with
      | true => simp [accepted, hv]
      | false => simp [accepted, hv]

theorem answers_mono (h : ∀ f args, Eval.Extends (c f args) (c' f args))
    (f : Value) (xs : List Value) :
    Eval.Extends (answers c f xs) (answers c' f xs) := by
  induction xs with
  | nil => exact Eval.extends_refl _
  | cons x xs ih =>
      exact (h f [x]).bind fun v => ih.bind fun vs => Eval.extends_refl _

end Library

theorem growing_answers (f : Value) (xs : List Value) :
    Growing fun n => Library.answers (call n) f xs :=
  fun n m hle => Library.answers_mono (extends_of_le n m hle).2 f xs

theorem ends_answers_cons_iff {f x : Value} {xs : List Value} {st : State}
    {r : EStateM.Result Abort State (List Value)} :
    Ends (fun n => Library.answers (call n) f (x :: xs)) st r ↔
      (∃ v mid, Ends (fun n => call n f [x]) st (.ok v mid) ∧
        Ends (fun n => Library.answers (call n) f xs >>= fun vs =>
          pure (v :: vs)) mid r) ∨
        ∃ a mid, Ends (fun n => call n f [x]) st (.error a mid) ∧
          r = .error a mid :=
  ends_bind_iff (growing_call f [x]) fun v =>
    (growing_answers f xs).bind fun vs => growing_const (pure (v :: vs))

theorem ends_answers_ok_iff {f : Value} {xs vs : List Value}
    {st st' : State} :
    Ends (fun n => Library.answers (call n) f xs) st (.ok vs st') ↔
      CallsInTurn f st xs vs st' := by
  induction xs generalizing st vs with
  | nil =>
      show Ends (fun _ => pure []) st (.ok vs st') ↔ _
      rw [ends_const_iff]
      constructor
      · intro h
        obtain ⟨-, heq⟩ := h
        cases heq
        exact .nil
      · intro h
        cases h
        exact ⟨id, rfl⟩
  | cons x xs ih =>
      rw [ends_answers_cons_iff]
      constructor
      · intro h
        rcases h with ⟨v, mid, hv, hvs⟩ | ⟨a, mid, -, heq⟩
        · rw [ends_bind_pure_ok_iff (growing_answers f xs)] at hvs
          obtain ⟨ws, hws, rfl⟩ := hvs
          exact .cons hv (ih.1 hws)
        · cases heq
      · intro h
        cases h with
        | @cons _ mid _ _ v _ ws hv hws =>
            refine .inl ⟨v, mid, hv, ?_⟩
            rw [ends_bind_pure_ok_iff (growing_answers f xs)]
            exact ⟨ws, ih.2 hws, rfl⟩

theorem breaksOff_cons_iff {f x : Value} {xs : List Value} {a : Abort}
    {st st' : State} :
    BreaksOff f st (x :: xs) a st' ↔
      Ends (fun n => call n f [x]) st (.error a st') ∨
        ∃ v mid, Ends (fun n => call n f [x]) st (.ok v mid) ∧
          BreaksOff f mid xs a st' := by
  constructor
  · intro h
    obtain ⟨front, y, back, vs, mid, heq, hcalls, hy⟩ := h
    cases front with
    | nil =>
        cases hcalls
        cases heq
        exact .inl hy
    | cons z front =>
        cases heq
        cases hcalls with
        | cons hv hrest =>
            exact .inr ⟨_, _, hv, front, y, back, _, mid, rfl, hrest, hy⟩
  · intro h
    rcases h with hx | ⟨v, mid, hv, front, y, back, vs, mid', rfl, hcalls, hy⟩
    · exact ⟨[], x, xs, [], st, rfl, .nil, hx⟩
    · exact ⟨x :: front, y, back, v :: vs, mid', rfl, .cons hv hcalls, hy⟩

theorem ends_answers_error_iff {f : Value} {xs : List Value} {a : Abort}
    {st st' : State} :
    Ends (fun n => Library.answers (call n) f xs) st (.error a st') ↔
      BreaksOff f st xs a st' := by
  induction xs generalizing st with
  | nil =>
      constructor
      · intro h
        obtain ⟨-, n, hn⟩ := h
        cases hn
      · intro h
        obtain ⟨front, y, back, vs, mid, heq, -⟩ := h
        simp at heq
  | cons x xs ih =>
      rw [ends_answers_cons_iff, breaksOff_cons_iff]
      simp only [ends_bind_pure_error_iff (growing_answers f xs), ih]
      constructor
      · intro h
        rcases h with hrest | ⟨b, mid, hx, heq⟩
        · exact .inr hrest
        · cases heq
          exact .inl hx
      · intro h
        rcases h with hx | hrest
        · exact .inr ⟨a, st', hx, rfl⟩
        · exact .inl hrest

/-! ## Both ways lead to the calls -/

section Builtins

variable {f : Value} (hf : f.isCallable = true)

include hf

theorem operand_callable : Operand.callable f = .ok f :=
  if_pos hf

theorem alike_apply (xs : List Value) :
    Alike (fun n => call n (.builtin .apply) [f, .list xs])
      fun n => call n f xs := by
  refine .of_succ rfl fun n => ?_
  rw [call_succ]
  show Library.applyList (call n) [f, .list xs] = _
  rw [Library.applyList, operand_callable hf]
  rfl

theorem alike_map (xs : List Value) :
    Alike (fun n => call n (.builtin .map) [f, .list xs])
      fun n => Library.answers (call n) f xs >>= fun vs => pure (.list vs) := by
  refine .of_succ rfl fun n => ?_
  rw [call_succ]
  show Library.map (call n) [f, .list xs] = _
  rw [Library.map, operand_callable hf]
  show (Library.mapItems (call n) f [] xs >>= fun vs =>
    pure (Value.list vs)) = _
  rw [Library.mapItems_eq, bind_assoc]
  rfl

theorem alike_filter (xs : List Value) :
    Alike (fun n => call n (.builtin .filter) [f, .list xs])
      fun n => Library.answers (call n) f xs >>= fun vs =>
        pure (.list (accepted xs vs)) := by
  refine .of_succ rfl fun n => ?_
  rw [call_succ]
  show Library.filter (call n) [f, .list xs] = _
  rw [Library.filter, operand_callable hf]
  show (Library.filterItems (call n) f [] xs >>= fun vs =>
    pure (Value.list vs)) = _
  rw [Library.filterItems_eq, bind_assoc]
  rfl

theorem alike_reduce (a : Value) (xs : List Value) :
    Alike (fun n => call n (.builtin .reduce) [f, a, .list xs])
      fun n => Library.reduceItems (call n) f a xs := by
  refine .of_succ rfl fun n => ?_
  rw [call_succ]
  show Library.reduce (call n) [f, a, .list xs] = _
  rw [Library.reduce, operand_callable hf]
  rfl

theorem alike_callForm (xs : List Value) (e : ScopeId) :
    Alike (fun n => eval n (callForm f xs) e) fun n => call n f xs := by
  refine (alike_call hf _ e).trans ?_
  have hoperands := Alike.bind_left (growing_operands e _)
    (growing_const (pure xs)) (growing_call f) (alike_operands_quoted xs e)
  simpa using hoperands

theorem alike_answers (xs : List Value) (e : ScopeId) :
    Alike (fun n => Direct.operands (eval n) e
        (xs.map fun x => callForm f [x]))
      fun n => Library.answers (call n) f xs := by
  induction xs with
  | nil => exact .refl _
  | cons x xs ih =>
      exact alike_operands_cons (growing_call f [x]) (growing_answers f xs)
        (alike_callForm hf [x] e) ih

theorem alike_mapForm (xs : List Value) (e : ScopeId) :
    Alike (fun n => eval n (mapForm f xs) e)
      fun n => Library.answers (call n) f xs >>= fun vs => pure (.list vs) := by
  have hlist (vs : List Value) :
      Alike (fun n => call n (.builtin .list) vs) fun _ => pure (.list vs) := by
    refine .of_succ rfl fun n => ?_
    rw [call_succ]
    rfl
  refine (alike_call rfl _ e).trans ?_
  exact .bind (growing_operands e _) (growing_answers f xs)
    (growing_call (.builtin .list)) (fun vs => growing_const _)
    (alike_answers hf xs e) hlist

/-- The invariant of the induction over the items: what is nested so far
ends as `m` does, and the calls that are to come start from there. -/
theorem alike_reduction (xs : List Value) (e : ScopeId) {x : Value}
    {m : Nat → Eval Value} (hm : Growing m)
    (hx : Alike (fun n => eval n x e) m) :
    Alike (fun n => eval n (xs.foldl (fun x y =>
        .list [f, x, .tagged .quote y]) x) e)
      fun n => m n >>= fun a => Library.reduceItems (call n) f a xs := by
  induction xs generalizing x m with
  | nil => simpa [Library.reduceItems] using hx
  | cons y ys ih =>
      have hcalls (a : Value) : Growing fun n => call n f [a, y] :=
        growing_call f [a, y]
      have hnext : Alike (fun n => eval n (.list [f, x, .tagged .quote y]) e)
          fun n => m n >>= fun a => call n f [a, y] := by
        refine (alike_call hf _ e).trans ?_
        have hoperands := alike_operands_cons hm (growing_const (pure [y])) hx
          (alike_operands_quoted [y] e)
        have hpair : Growing fun n => m n >>= fun a => do
            let ys ← pure [y]
            return a :: ys :=
          hm.bind fun a => growing_const _
        have hbound := Alike.bind_left (growing_operands e _) hpair
          (growing_call f) hoperands
        simpa using hbound
      have hrest := ih (hm.bind hcalls) hnext
      simpa [Library.reduceItems] using hrest

theorem alike_reduceForm (a : Value) (xs : List Value) (e : ScopeId) :
    Alike (fun n => eval n (reduceForm f a xs) e)
      fun n => Library.reduceItems (call n) f a xs := by
  have h := alike_reduction hf xs e (growing_const (pure a))
    (denotes_quoted e a)
  simp only [pure_bind] at h
  exact h

end Builtins

/-! ## The builtins and what they abbreviate -/

/-- For a function `f` and items `xs`, `apply` ends as the call of `f` on the
items does, `map` as the list of the calls on each of them, and `reduce` as
the calls nested from the left around `a`, each written out as a form and
evaluated in whatever scope. `map` and `filter` make the same calls, one for
each item, in order and up to the first that fails; `map` answers their
answers, and `filter` the items whose answers are true. -/
theorem builtins_abbreviate_calls {f : Value} (hf : f.isCallable = true)
    (xs : List Value) (e : ScopeId) (st : State) :
    (∀ r, Ends (fun n => call n (.builtin .apply) [f, .list xs]) st r ↔
      Ends (fun n => eval n (callForm f xs) e) st r) ∧
    (∀ r, Ends (fun n => call n (.builtin .map) [f, .list xs]) st r ↔
      Ends (fun n => eval n (mapForm f xs) e) st r) ∧
    (∀ a r, Ends (fun n => call n (.builtin .reduce) [f, a, .list xs]) st r ↔
      Ends (fun n => eval n (reduceForm f a xs) e) st r) ∧
    (∀ v st', Ends (fun n => call n (.builtin .map) [f, .list xs]) st
        (.ok v st') ↔
      ∃ vs, CallsInTurn f st xs vs st' ∧ v = .list vs) ∧
    (∀ v st', Ends (fun n => call n (.builtin .filter) [f, .list xs]) st
        (.ok v st') ↔
      ∃ vs, CallsInTurn f st xs vs st' ∧ v = .list (accepted xs vs)) ∧
    (∀ a st', Ends (fun n => call n (.builtin .map) [f, .list xs]) st
        (.error a st') ↔ BreaksOff f st xs a st') ∧
    ∀ a st', Ends (fun n => call n (.builtin .filter) [f, .list xs]) st
        (.error a st') ↔ BreaksOff f st xs a st' := by
  have hanswers := growing_answers f xs
  refine ⟨fun r => ?_, fun r => ?_, fun a r => ?_, fun v st' => ?_,
    fun v st' => ?_, fun a st' => ?_, fun a st' => ?_⟩
  · exact (alike_apply hf xs).trans (alike_callForm hf xs e).symm st r
  · exact (alike_map hf xs).trans (alike_mapForm hf xs e).symm st r
  · exact (alike_reduce hf a xs).trans (alike_reduceForm hf a xs e).symm st r
  · rw [alike_map hf xs st, ends_bind_pure_ok_iff hanswers]
    simp only [ends_answers_ok_iff]
  · rw [alike_filter hf xs st, ends_bind_pure_ok_iff hanswers]
    simp only [ends_answers_ok_iff]
  · rw [alike_map hf xs st, ends_bind_pure_error_iff hanswers,
      ends_answers_error_iff]
  · rw [alike_filter hf xs st, ends_bind_pure_error_iff hanswers,
      ends_answers_error_iff]

/-- A scope with a name for the last item seen. -/
def noticing : State :=
  ⟨(Store.empty.addScope none).define 0 "seen" .nil, ⟨"", false⟩⟩

/-- Notes the item that it is called on, and answers it. -/
def notice : Value :=
  .lambda ⟨0, none, ["x"],
    [.list [.symbol "set!", .symbol "seen", .symbol "x"], .symbol "x"], 0⟩

theorem notice_abbreviated :
    notice.isCallable = true ∧ ∃ st',
      Ends (fun n => eval n (mapForm notice [.int 1, .nil, .int 2]) 0)
        noticing (.ok (.list [.int 1, .nil, .int 2]) st') ∧
      Ends (fun n => call n (.builtin .filter)
          [notice, .list [.int 1, .nil, .int 2]])
        noticing (.ok (.list [.int 1, .int 2]) st') ∧
      st'.store.get? 0 "seen" = some (.int 2) := by
  obtain ⟨-, hform, -, hmap, hfilter, -⟩ := builtins_abbreviate_calls
    (f := notice) rfl [.int 1, .nil, .int 2] 0 noticing
  have hends : Ends (fun n => call n (.builtin .map)
      [notice, .list [.int 1, .nil, .int 2]]) noticing
      (.ok (.list [.int 1, .nil, .int 2]) _) := ⟨id, 4, rfl⟩
  obtain ⟨vs, hcalls, hvs⟩ := (hmap _ _).1 hends
  cases hvs
  exact ⟨rfl, _, (hform _).1 hends, (hfilter _ _).2 ⟨_, hcalls, rfl⟩, rfl⟩

end SmallLisp
