import Mathlib.Algebra.Order.Group.Multiset
import Mathlib.Tactic.Abel
import SmallLisp.Proofs.Mirroring

/-!
# A process follows the evaluation

A computation in a process does what the computation without memory does, and
it keeps its memory in order while doing so, unless it is killed. `Follows`
says both for one run. What it is about are the references that are held:
some of them the computation may give up, and those of the frame it must not
touch, so that all they guard is left as it is (`Leads`).

The rules are those of the monad. In the rule for a sequence the frame of the
first part may be larger than the frame of the whole: what has been taken
hold of on the way is not touched by what comes next.
-/

namespace SmallLisp

/-- The references of cells, in no order. -/
def Cell.claims (cs : List Cell) : Multiset Ref :=
  Cell.refs cs

/-- The reference of a cell, if it is one. -/
def Cell.claim (c : Cell) : Multiset Ref :=
  c.ref?.toList

@[simp] theorem Cell.claims_nil : Cell.claims [] = 0 := rfl

@[simp] theorem Cell.claims_cons (c : Cell) (cs : List Cell) :
    Cell.claims (c :: cs) = c.claim + Cell.claims cs := by
  rw [claims, refs_cons, ← Multiset.coe_add]
  rfl

@[simp] theorem Cell.claims_append (cs ds : List Cell) :
    Cell.claims (cs ++ ds) = Cell.claims cs + Cell.claims ds := by
  induction cs with
  | nil => simp
  | cons c cs ih => simp [ih, add_assoc]

@[simp] theorem Cell.claims_reverse (cs : List Cell) :
    Cell.claims cs.reverse = Cell.claims cs := by
  induction cs with
  | nil => rfl
  | cons c cs ih => simp [ih, add_comm]

namespace Placed

/-- The reference that a value is kept as, if it is one. -/
def claim (x : Placed) : Multiset Ref :=
  x.cell.claim

/-- The references that values are kept as, in no order. -/
def claims (xs : List Placed) : Multiset Ref :=
  Cell.claims (cells xs)

@[simp] theorem claims_nil : claims [] = 0 := rfl

@[simp] theorem claims_cons (x : Placed) (xs : List Placed) :
    claims (x :: xs) = x.claim + claims xs :=
  Cell.claims_cons ..

@[simp] theorem claims_append (xs ys : List Placed) :
    claims (xs ++ ys) = claims xs + claims ys := by
  simp [claims, cells]

@[simp] theorem claims_reverse (xs : List Placed) :
    claims xs.reverse = claims xs := by
  simp [claims, cells]

@[simp] theorem values_nil : values [] = [] := rfl

@[simp] theorem values_cons (x : Placed) (xs : List Placed) :
    values (x :: xs) = x.value :: values xs := rfl

@[simp] theorem cells_cons (x : Placed) (xs : List Placed) :
    cells (x :: xs) = x.cell :: cells xs := rfl

@[simp] theorem length_values (xs : List Placed) :
    (values xs).length = xs.length :=
  List.length_map ..

end Placed

namespace Process

variable {α β γ δ : Type} {p p' p'' : Process} {H J K : Multiset Ref}

/-! ## Processes in order -/

/-- The memory is exact and mirrors the store, and these references are
held. -/
structure Holding (p : Process) (J : Multiset Ref) : Prop where
  exact : p.memory.Exact p.held
  mirrors : p.memory.Mirrors p.state.store
  held : (p.held : Multiset Ref) = J

theorem Holding.of_eq (h : p.Holding J) (heq : J = K) : p.Holding K :=
  heq ▸ h

theorem Holding.exact_of {hs : List Ref} (h : p.Holding J)
    (hJ : J = (hs : Multiset Ref)) : p.memory.Exact hs :=
  h.exact.perm (Multiset.coe_eq_coe.1 (h.held.trans hJ))

/-- What the frame guards is left, and so is the room. -/
structure Leads (H : Multiset Ref) (p p' : Process) : Prop where
  keeps : Memory.Keeps H p.memory p'.memory
  room : p'.room = p.room

theorem Leads.refl (H : Multiset Ref) (p : Process) : Leads H p p :=
  ⟨.refl H p.memory, rfl⟩

theorem Leads.trans (h : Leads H p p') (h' : Leads H p' p'') :
    Leads H p p'' :=
  ⟨h.keeps.trans h'.keeps, h'.room.trans h.room⟩

theorem Leads.mono (h : Leads J p p') (hJ : H ≤ J) : Leads H p p' :=
  ⟨h.keeps.mono (Multiset.subset_of_le hJ), h.room⟩

/-- A process has been killed: in a memory that was in order, a reference was
given up, and what was left of it when there was no room for one more node
that had to be taken down is what is left of the memory. -/
def Killed (room : Nat) (p : Process) : Prop :=
  ∃ m r t u, m.Exact (r :: p.held) ∧ m.Mirrors p.state.store ∧
    (Teardown.start m r).Reaches t ∧ t.memory = p.memory ∧
    t.step = some u ∧ room < u.active.length

/-! ## The judgment -/

/-- From `p` on, `c` does what `q` does to the state. If there are results,
they are related by `post`. Otherwise what the frame `H` guards is still
there, unless the process is killed. -/
def Follows (H : Multiset Ref) (p : Process) (c : Run α) (q : Eval β)
    (post : α → β → Process → Prop) : Prop :=
  match c p with
  | .ok a p' => ∃ b, q p.state = .ok b p'.state ∧ Leads H p p' ∧ post a b p'
  | .error (.abort a) p' => q p.state = .error a p'.state ∧ Leads H p p' ∧
      ∃ J, p'.Holding J ∧ H ≤ J
  | .error (.killed _) p' => Killed p.room p'

variable {c : Run α} {q : Eval β} {f : α → Run γ} {g : β → Eval δ}
  {post : α → β → Process → Prop} {post' : γ → δ → Process → Prop} {a : α}
  {b : β}

theorem Follows.pure (h : post a b p) :
    Follows H p (pure a) (pure b) post :=
  ⟨b, rfl, .refl H p, h⟩

theorem Follows.of_ok {p' : Process} (h : Follows H p c q post)
    (hc : c p = .ok a p') :
    ∃ b, q p.state = .ok b p'.state ∧ Leads H p p' ∧ post a b p' := by
  unfold Follows at h
  rwa [hc] at h

theorem Follows.bind (hJ : H ≤ J) (hc : Follows J p c q post)
    (hf : ∀ a b p', Leads J p p' → post a b p' →
      Follows H p' (f a) (g b) post') :
    Follows H p (c >>= f) (q >>= g) post' := by
  cases hcp : c p with
  | ok a p' =>
      simp only [Follows, hcp] at hc
      obtain ⟨b, hq, hlead, hpost⟩ := hc
      have hlead' := hlead.mono hJ
      have hrest := hf a b p' hlead hpost
      simp only [Follows, Bind.bind, EStateM.bind, hcp, hq] at hrest ⊢
      cases hfp : f a p' with
      | ok c' p'' =>
          simp only [hfp] at hrest
          obtain ⟨d, hd, hlast, hpost'⟩ := hrest
          exact ⟨d, hd, hlead'.trans hlast, hpost'⟩
      | error ending p'' =>
          simp only [hfp] at hrest
          cases ending with
          | abort e =>
              obtain ⟨hd, hlast, hrest⟩ := hrest
              exact ⟨hd, hlead'.trans hlast, hrest⟩
          | killed _ =>
              rw [hlead.room] at hrest
              exact hrest
  | error ending p' =>
      simp only [Follows, Bind.bind, EStateM.bind, hcp] at hc ⊢
      cases ending with
      | abort e =>
          obtain ⟨hq, hlead, J', hp', hJ'⟩ := hc
          rw [hq]
          exact ⟨rfl, hlead.mono hJ, J', hp', hJ.trans hJ'⟩
      | killed _ => exact hc

/-- A run that goes on from another process, for as much as it has done
before. -/
theorem Follows.start (p₁ : Process) {d : Run α} {r : Eval β}
    (hc : c p = d p₁) (hq : q p.state = r p₁.state) (hlead : Leads H p p₁)
    (h : Follows H p₁ d r post) : Follows H p c q post := by
  unfold Follows at h ⊢
  rw [hc, hq]
  cases hcp : d p₁ with
  | ok a p' =>
      rw [hcp] at h
      obtain ⟨b, hb, hrest, hpost⟩ := h
      exact ⟨b, hb, hlead.trans hrest, hpost⟩
  | error ending p' =>
      rw [hcp] at h
      cases ending with
      | abort e =>
          obtain ⟨he, hrest, hp'⟩ := h
          exact ⟨he, hlead.trans hrest, hp'⟩
      | killed _ =>
          rw [← hlead.room]
          exact h

/-- What is done to the memory alone. -/
theorem Follows.silent {post : α → Unit → Process → Prop} {q : Eval δ}
    (hJ : H ≤ J) (hc : Follows J p c (Pure.pure ()) post)
    (hf : ∀ a p', Leads J p p' → post a () p' →
      Follows H p' (f a) q post') : Follows H p (c >>= f) q post' :=
  Follows.bind (g := fun _ => q) hJ hc fun a _ p' hlead hpost =>
    hf a p' hlead hpost

theorem Follows.mono {post' : α → β → Process → Prop} (hJ : H ≤ J)
    (hc : Follows J p c q post)
    (hpost : ∀ a b p', Leads J p p' → post a b p' → post' a b p') :
    Follows H p c q post' := by
  have h := hc.bind (f := Pure.pure) (g := Pure.pure) hJ
    fun a b p' hlead h => .pure (hpost a b p' hlead h)
  rwa [bind_pure, bind_pure] at h

theorem Follows.of_bind_pure (h : Follows H p c (q >>= Pure.pure) post) :
    Follows H p c q post := by
  rwa [bind_pure] at h

/-! ## What does not touch the memory -/

theorem Follows.abort (hp : p.Holding J) (hJ : H ≤ J) (e : Abort) :
    Follows H p (Run.plainly (throw e)) (throw e) post :=
  ⟨rfl, .refl H p, J, hp, hJ⟩

/-- What concerns the state alone, for each of its results. -/
theorem Follows.plainly {f : β → Run γ} {post : γ → δ → Process → Prop}
    (hok : ∀ b st, q p.state = .ok b st →
      Follows H ⟨st, p.memory, p.held, p.room⟩ (f b) (g b) post)
    (herror : ∀ e st, q p.state = .error e st →
      ∃ J, Holding ⟨st, p.memory, p.held, p.room⟩ J ∧ H ≤ J) :
    Follows H p (Run.plainly q >>= f) (q >>= g) post := by
  cases hqp : q p.state with
  | ok b st =>
      refine .start ⟨st, p.memory, p.held, p.room⟩ ?_ ?_ ⟨.refl H _, rfl⟩
        (hok b st hqp)
      · simp only [Bind.bind, EStateM.bind, Run.plainly, hqp]
      · simp only [Bind.bind, EStateM.bind, hqp]
  | error e st =>
      have hleft : (Run.plainly q >>= f) p =
          .error (.abort e) ⟨st, p.memory, p.held, p.room⟩ := by
        simp only [Bind.bind, EStateM.bind, Run.plainly, hqp]
      have hright : (q >>= g) p.state = .error e st := by
        simp only [Bind.bind, EStateM.bind, hqp]
      unfold Follows
      rw [hleft]
      exact ⟨hright, ⟨.refl H _, rfl⟩, herror e st hqp⟩

theorem Follows.answer {ε : Type} {ans : Answer ε} {f : ε → Run α}
    {g : ε → Eval β} (hp : p.Holding J) (hJ : H ≤ J)
    (hf : ∀ x, ans = .ok x → Follows H p (f x) (g x) post) :
    Follows H p (Run.plainly (.ofAnswer ans) >>= f)
      (Eval.ofAnswer ans >>= g) post := by
  cases ans with
  | ok x => exact hf x rfl
  | error e => exact Follows.abort hp hJ e

/-- A computation that leaves the store as it is. -/
def LeavesStore (q : Eval β) : Prop :=
  ∀ st, match q st with
    | .ok _ st' => st'.store = st.store
    | .error _ st' => st'.store = st.store

theorem leavesStore_pure (b : β) : LeavesStore (pure b) :=
  fun _ => rfl

theorem LeavesStore.bind (hq : LeavesStore q)
    (hg : ∀ b, LeavesStore (g b)) : LeavesStore (q >>= g) := by
  intro st
  have hst := hq st
  simp only [Bind.bind, EStateM.bind]
  cases hq' : q st with
  | ok b st' =>
      rw [hq'] at hst
      have hrest := hg b st'
      rwa [show st'.store = st.store from hst] at hrest
  | error e st' =>
      rw [hq'] at hst
      exact hst

theorem leavesStore_print (text : String) :
    LeavesStore (Eval.print text) := by
  intro st
  unfold Eval.print
  by_cases hfull : (st.console.full && !text.isEmpty) = true
  · rw [if_pos hfull]
  · rw [if_neg hfull]

theorem Follows.talk {f : β → Run γ} {post : γ → δ → Process → Prop}
    (hp : p.Holding J) (hJ : H ≤ J) (hq : LeavesStore q)
    (hf : ∀ b st, q p.state = .ok b st →
      Holding ⟨st, p.memory, p.held, p.room⟩ J →
      Follows H ⟨st, p.memory, p.held, p.room⟩ (f b) (g b) post) :
    Follows H p (Run.plainly q >>= f) (q >>= g) post := by
  have hstore := hq p.state
  have hp' (st : State) (hst : st.store = p.state.store) :
      Holding ⟨st, p.memory, p.held, p.room⟩ J :=
    ⟨hp.exact, hst ▸ hp.mirrors, hp.held⟩
  refine .plainly (fun b st hst => ?_) fun e st hst => ?_
  · rw [hst] at hstore
    exact hf b st hst (hp' st hstore)
  · rw [hst] at hstore
    exact ⟨J, hp' st hstore, hJ⟩

theorem Follows.look {ε : Type} {h : Memory → ε} {f : ε → Run α}
    (hf : Follows H p (f (h p.memory)) q post) :
    Follows H p (Run.look h >>= f) q post :=
  hf

theorem Follows.parts {vs : List Value} {cell : Cell}
    {f : List Placed → Run α}
    (hf : Follows H p (f (vs.zipWith Placed.mk (p.memory.cells cell)))
      q post) : Follows H p (Run.parts vs cell >>= f) q post :=
  hf

end Process

/-! ## Values that are kept -/

namespace Memory

variable {m M : Memory} {H J : Multiset Ref} {c : Cell} {v : Value}
  {x : Placed} {cs : List Cell} {vs : List Value} {xs : List Placed}
  {r : Ref}

/-- A value is kept as its cell, and what it refers to is guarded. -/
structure Anchored (m : Memory) (J : Multiset Ref) (x : Placed) : Prop where
  reads : m.Reads x.cell x.value
  guards : ∀ r, x.cell.ref? = some r → m.Guards J r

theorem mem_claim : r ∈ c.claim ↔ c.ref? = some r := by
  simp [Cell.claim]

theorem Guards.of_claim (hJ : c.claim ≤ J) (h : c.ref? = some r) :
    m.Guards J r :=
  .held (Multiset.mem_of_le hJ (mem_claim.2 h))

theorem Guards.of_le (h : m.Guards H r) (hJ : H ≤ J) : m.Guards J r :=
  h.mono (Multiset.subset_of_le hJ)

theorem Anchored.of_claim (h : m.Reads x.cell x.value) (hJ : x.claim ≤ J) :
    m.Anchored J x :=
  ⟨h, fun _ hr => .of_claim hJ hr⟩

theorem Anchored.of_le (h : m.Anchored H x) (hJ : H ≤ J) :
    m.Anchored J x :=
  ⟨h.reads, fun r hr => (h.guards r hr).of_le hJ⟩

theorem Anchored.keeps (h : m.Anchored H x) (hk : Keeps H m M) :
    M.Anchored H x :=
  ⟨h.reads.keeps h.guards hk, fun r hr => (h.guards r hr).keeps hk⟩

/-- Several values that are kept. -/
def AnchoredAll (m : Memory) (J : Multiset Ref) (xs : List Placed) : Prop :=
  ∀ x ∈ xs, m.Anchored J x

theorem AnchoredAll.of_cons (h : m.AnchoredAll J (x :: xs)) :
    m.Anchored J x ∧ m.AnchoredAll J xs :=
  List.forall_mem_cons.1 h

theorem AnchoredAll.of_le (h : m.AnchoredAll H xs) (hJ : H ≤ J) :
    m.AnchoredAll J xs :=
  fun x hx => (h x hx).of_le hJ

theorem AnchoredAll.keeps (h : m.AnchoredAll H xs) (hk : Keeps H m M) :
    M.AnchoredAll H xs :=
  fun x hx => (h x hx).keeps hk

theorem AnchoredAll.readsAll (h : m.AnchoredAll H xs) :
    m.ReadsAll (Placed.cells xs) (Placed.values xs) := by
  induction xs with
  | nil => exact .nil
  | cons x xs ih =>
      obtain ⟨hx, hxs⟩ := List.forall_mem_cons.1 h
      exact .cons hx.reads (ih hxs)

theorem ReadsAll.append {ds : List Cell} {ws : List Value}
    (h : m.ReadsAll cs vs) (h' : m.ReadsAll ds ws) :
    m.ReadsAll (cs ++ ds) (vs ++ ws) := by
  induction cs generalizing vs with
  | nil =>
      cases h
      exact h'
  | cons c cs ih =>
      cases h with
      | cons h hs => exact .cons h (ih hs)

theorem ReadsAll.reverse (h : m.ReadsAll cs vs) :
    m.ReadsAll cs.reverse vs.reverse := by
  induction cs generalizing vs with
  | nil =>
      cases h
      exact .nil
  | cons c cs ih =>
      cases h with
      | cons h hs =>
          rw [List.reverse_cons, List.reverse_cons]
          exact (ih hs).append (.cons h .nil)

theorem ReadsAll.length_eq (h : m.ReadsAll cs vs) :
    cs.length = vs.length := by
  induction cs generalizing vs with
  | nil =>
      cases h
      rfl
  | cons c cs ih =>
      cases h with
      | cons _ hs => exact congrArg Nat.succ (ih hs)

/-- The elements of a list, or the body of a lambda, one by one. -/
theorem values_zipWith (h : m.ReadsAll cs vs) :
    Placed.values (vs.zipWith Placed.mk cs) = vs := by
  induction cs generalizing vs with
  | nil =>
      cases h
      rfl
  | cons c cs ih =>
      cases h with
      | @cons _ _ v vs _ hs => exact congrArg (v :: ·) (ih hs)

theorem cells_zipWith (h : m.ReadsAll cs vs) :
    Placed.cells (vs.zipWith Placed.mk cs) = cs := by
  induction cs generalizing vs with
  | nil =>
      cases h
      rfl
  | cons c cs ih =>
      cases h with
      | cons _ hs => exact congrArg (c :: ·) (ih hs)

theorem anchoredAll_zipWith (h : m.ReadsAll cs vs)
    (hcs : ∀ c ∈ cs, ∀ r, c.ref? = some r → m.Guards J r) :
    m.AnchoredAll J (vs.zipWith Placed.mk cs) := by
  induction cs generalizing vs with
  | nil =>
      cases h
      exact nofun
  | cons c cs ih =>
      cases h with
      | cons h hs =>
          obtain ⟨hc, hcs⟩ := List.forall_mem_cons.1 hcs
          exact List.forall_mem_cons.2 ⟨⟨h, hc⟩, ih hs hcs⟩

theorem cells_of_node?_list {id : Nat}
    (h : m.node? ⟨.list, id⟩ = some (.list cs)) :
    m.cells (.list id) = cs := by
  obtain ⟨⟨n, x⟩, he, hx⟩ := Option.map_eq_some_iff.1 h
  cases hx
  simp [cells, he]

theorem cells_of_node?_lambda {id s : Nat}
    (h : m.node? ⟨.lambda, id⟩ = some (.lambda cs s)) :
    m.cells (.lambda id) = cs := by
  obtain ⟨⟨n, x⟩, he, hx⟩ := Option.map_eq_some_iff.1 h
  cases hx
  simp [cells, he]

theorem Reads.list_inv (h : m.Reads c (.list vs)) : ∃ id,
    c = .list id ∧ m.node? ⟨.list, id⟩ = some (.list (m.cells c)) ∧
      m.ReadsAll (m.cells c) vs := by
  generalize hv : Value.list vs = v at h
  cases h with
  | plain p => cases p <;> cases hv
  | @list id cells vs' hx hs =>
      cases hv
      rw [cells_of_node?_list hx]
      exact ⟨id, rfl, hx, hs⟩
  | lambda _ _ => cases hv

theorem Reads.builtin_inv {b : Builtin} (h : m.Reads c (.builtin b)) :
    c = .plain (.builtin b) := by
  generalize hv : Value.builtin b = v at h
  cases h with
  | plain p =>
      cases p <;> cases hv
      rfl
  | list _ _ => cases hv
  | lambda _ _ => cases hv

theorem Reads.lambda_inv {f : Lambda Value} (h : m.Reads c (.lambda f)) :
    c = .lambda f.id ∧
      m.node? ⟨.lambda, f.id⟩ = some (.lambda (m.cells c) f.scope) ∧
      m.ReadsAll (m.cells c) f.body := by
  generalize hv : Value.lambda f = v at h
  cases h with
  | plain p => cases p <;> cases hv
  | list _ _ => cases hv
  | @lambda body f' hx hs =>
      cases hv
      rw [cells_of_node?_lambda hx]
      exact ⟨rfl, hx, hs⟩

/-- The elements of a list that is kept are kept. -/
theorem Anchored.items (h : m.Anchored J x) (hv : x.value = .list vs) :
    m.ReadsAll (m.cells x.cell) vs ∧
      ∀ c ∈ m.cells x.cell, ∀ r, c.ref? = some r → m.Guards J r := by
  have hreads := h.reads
  rw [hv] at hreads
  obtain ⟨id, hid, hx, hs⟩ := hreads.list_inv
  refine ⟨hs, fun c hc r hr => ?_⟩
  refine .through (h.guards ⟨.list, id⟩ (by rw [hid]; rfl)) hx ?_
  exact List.mem_filterMap.2 ⟨c, hc, hr⟩

/-- The body of a lambda that is kept is kept, and so is its scope. -/
theorem Anchored.code {f : Lambda Value} (h : m.Anchored J x)
    (hv : x.value = .lambda f) : m.ReadsAll (m.cells x.cell) f.body ∧
      (∀ c ∈ m.cells x.cell, ∀ r, c.ref? = some r → m.Guards J r) ∧
      m.Guards J ⟨.scope, f.scope⟩ := by
  have hreads := h.reads
  rw [hv] at hreads
  obtain ⟨hid, hx, hs⟩ := hreads.lambda_inv
  have hself := h.guards ⟨.lambda, f.id⟩ (by rw [hid]; rfl)
  refine ⟨hs, fun c hc r hr => .through hself hx ?_, .through hself hx ?_⟩
  · exact List.mem_append_left _ (List.mem_filterMap.2 ⟨c, hc, hr⟩)
  · exact List.mem_append_right _ (List.mem_singleton_self _)

theorem Anchored.parts (h : m.Anchored J x) (hv : x.value = .list vs) :
    m.AnchoredAll J (vs.zipWith Placed.mk (m.cells x.cell)) ∧
      Placed.values (vs.zipWith Placed.mk (m.cells x.cell)) = vs := by
  obtain ⟨hs, hguards⟩ := h.items hv
  exact ⟨anchoredAll_zipWith hs hguards, values_zipWith hs⟩

end Memory

/-! ## Results -/

namespace Process

variable {p : Process} {H J : Multiset Ref}

/-- A value has been taken hold of. -/
structure Yields (J : Multiset Ref) (x : Placed) (v : Value)
    (p : Process) : Prop where
  value : x.value = v
  reads : p.memory.Reads x.cell x.value
  holding : p.Holding (x.claim + J)

theorem Yields.anchored {x : Placed} {v : Value} (h : Yields J x v p) :
    p.memory.Anchored (x.claim + J) x :=
  .of_claim h.reads (Multiset.le_add_right ..)

/-- Several values have been taken hold of. -/
structure YieldsAll (J : Multiset Ref) (xs : List Placed) (vs : List Value)
    (p : Process) : Prop where
  values : Placed.values xs = vs
  reads : p.memory.ReadsAll (Placed.cells xs) (Placed.values xs)
  holding : p.Holding (Placed.claims xs + J)

end Process

end SmallLisp
