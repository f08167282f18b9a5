import Mathlib.Data.Multiset.Basic
import SmallLisp.Proofs.Teardown
import SmallLisp.Value

/-!
# What lasts as long as a reference is held

A value that is kept as a reference stands for what is found by following
the references from there (`Reads`). What a node holds is never written to,
but for the bindings of a scope: `Node.core` is the node without them. So a
reference that is held guards all that is found along the cores, and as long
as it is held, that is there and has the same core (`Keeps`). In particular
a guarded value stands for the same all the time (`Reads.keeps`).

What an operation on the memory keeps is settled here for each of them, for
giving up a reference even in the states that a teardown comes to
(`keeps_of_reaches`).
-/

namespace SmallLisp

/-- The value that needs no node. -/
def Plain.value : Plain → Value
  | nil => .nil
  | bool b => .bool b
  | int n => .int n
  | float x => .float x
  | str s => .str s
  | symbol name => .symbol name
  | builtin b => .builtin b

/-- What is never written to in a node. -/
def Node.core {k : NodeKind} : Node k → Node k
  | list items => list items
  | lambda body s => lambda body s
  | scope _ parent => scope [] parent

theorem Node.core_subset {k : NodeKind} {x : Node k} {r : Ref}
    (h : r ∈ x.core.refs) : r ∈ x.refs := by
  cases x with
  | list items => exact h
  | lambda body s => exact h
  | scope bindings parent => exact List.mem_append_right _ h

namespace Memory

mutual

/-- What a value that is kept in a node stands for. A lambda is told apart
by its number, and its scope is known by number. -/
inductive Reads (m : Memory) : Cell → Value → Prop where
  | plain (p : Plain) : Reads m (.plain p) p.value
  | list {id : Nat} {cells : List Cell} {vs : List Value}
      (hx : m.node? ⟨.list, id⟩ = some (.list cells))
      (h : ReadsAll m cells vs) : Reads m (.list id) (.list vs)
  | lambda {body : List Cell} {f : Lambda Value}
      (hx : m.node? ⟨.lambda, f.id⟩ = some (.lambda body f.scope))
      (h : ReadsAll m body f.body) : Reads m (.lambda f.id) (.lambda f)

/-- What several values stand for. -/
inductive ReadsAll (m : Memory) : List Cell → List Value → Prop where
  | nil : ReadsAll m [] []
  | cons {c : Cell} {cs : List Cell} {v : Value} {vs : List Value}
      (h : Reads m c v) (hs : ReadsAll m cs vs) :
      ReadsAll m (c :: cs) (v :: vs)

end

/-- A node is found from the references `H` along the cores of nodes. -/
inductive Guards (m : Memory) (H : Multiset Ref) : Ref → Prop where
  | held {r : Ref} (hr : r ∈ H) : Guards m H r
  | through {q r : Ref} {x : Node q.kind} (hq : Guards m H q)
      (hx : m.node? q = some x) (hr : r ∈ x.core.refs) : Guards m H r

/-- The nodes that `H` guards are left, with the same core. -/
def Keeps (H : Multiset Ref) (m M : Memory) : Prop :=
  ∀ r x, m.Guards H r → m.node? r = some x →
    ∃ y, M.node? r = some y ∧ y.core = x.core

variable {m m' M t : Memory} {H J : Multiset Ref} {r s : Ref}

/-! ## Keeping -/

theorem Guards.mono (h : m.Guards H r) (hHJ : H ⊆ J) : m.Guards J r := by
  induction h with
  | held hr => exact .held (hHJ hr)
  | through _ hx hr ih => exact .through ih hx hr

theorem Guards.keeps (h : m.Guards H r) (hk : Keeps H m M) :
    M.Guards H r := by
  induction h with
  | held hr => exact .held hr
  | through hq hx hr ih =>
      obtain ⟨y, hy, hcore⟩ := hk _ _ hq hx
      exact .through ih hy (hcore ▸ hr)

theorem Keeps.mono (h : Keeps J m M) (hHJ : H ⊆ J) : Keeps H m M := by
  intro r x hr hx
  exact h r x (hr.mono hHJ) hx

theorem Keeps.trans (h : Keeps H m m') (h' : Keeps H m' M) :
    Keeps H m M := by
  intro r x hr hx
  obtain ⟨y, hy, hcore⟩ := h r x hr hx
  obtain ⟨z, hz, hcore'⟩ := h' r y (hr.keeps h) hy
  exact ⟨z, hz, hcore'.trans hcore⟩

theorem keeps_of_node? (h : ∀ r x, m.node? r = some x → M.node? r = some x) :
    Keeps H m M :=
  fun r x _ hx => ⟨x, h r x hx, rfl⟩

theorem Keeps.refl (H : Multiset Ref) (m : Memory) : Keeps H m m :=
  keeps_of_node? fun _ _ h => h

theorem Keeps.list (hk : Keeps H m M) {id : Nat} {cells : List Cell}
    (h : m.Guards H ⟨.list, id⟩)
    (hx : m.node? ⟨.list, id⟩ = some (.list cells)) :
    M.node? ⟨.list, id⟩ = some (.list cells) := by
  obtain ⟨y, hy, hcore⟩ := hk _ _ h hx
  cases y
  rw [hy]
  exact congrArg some hcore

theorem Keeps.lambda (hk : Keeps H m M) {id s : Nat} {body : List Cell}
    (h : m.Guards H ⟨.lambda, id⟩)
    (hx : m.node? ⟨.lambda, id⟩ = some (.lambda body s)) :
    M.node? ⟨.lambda, id⟩ = some (.lambda body s) := by
  obtain ⟨y, hy, hcore⟩ := hk _ _ h hx
  cases y
  rw [hy]
  exact congrArg some hcore

mutual

theorem Reads.keeps {c : Cell} {v : Value} (h : Reads m c v)
    (hc : ∀ s, c.ref? = some s → m.Guards H s) (hk : Keeps H m M) :
    Reads M c v := by
  cases h with
  | plain p => exact .plain p
  | @list id cells vs hx h =>
      have hself := hc _ rfl
      refine .list (hk.list hself hx) (h.keeps (fun c hmem s hs => ?_) hk)
      exact .through hself hx (List.mem_filterMap.2 ⟨c, hmem, hs⟩)
  | @lambda body f hx h =>
      have hself := hc _ rfl
      refine .lambda (hk.lambda hself hx) (h.keeps (fun c hmem s hs => ?_) hk)
      have hheld := List.mem_filterMap.2 ⟨c, hmem, hs⟩
      exact .through hself hx (List.mem_append_left _ hheld)

theorem ReadsAll.keeps {cs : List Cell} {vs : List Value}
    (h : ReadsAll m cs vs)
    (hcs : ∀ c ∈ cs, ∀ s, c.ref? = some s → m.Guards H s)
    (hk : Keeps H m M) : ReadsAll M cs vs := by
  cases h with
  | nil => exact .nil
  | cons h hs =>
      obtain ⟨hc, hcs⟩ := List.forall_mem_cons.1 hcs
      exact .cons (h.keeps hc hk) (hs.keeps hcs hk)

end

/-! ## What operations keep -/

@[simp] theorem node?_share (m : Memory) (r s : Ref) :
    (m.share r).node? s = m.node? s := by
  unfold node? share
  by_cases hrs : r = s
  · subst hrs
    rw [get?_alter_self, Option.map_map]
    rfl
  · rw [get?_alter_of_ne _ hrs]

theorem keeps_share (m : Memory) (r : Ref) : Keeps H m (m.share r) :=
  keeps_of_node? fun s _ hx => (node?_share m r s).trans hx

theorem node?_add {k : NodeKind} (x : Node k) {y : Node s.kind}
    (h : m.node? s = some y) : (m.add x).node? s = some y := by
  have hne : m.next k ≠ s := by
    intro hs
    subst hs
    rw [node?, get?_next] at h
    cases h
  rwa [node?, get?_add_of_ne x hne]

theorem keeps_add {k : NodeKind} (x : Node k) : Keeps H m (m.add x) :=
  keeps_of_node? fun _ _ hy => node?_add x hy

theorem node?_add_next {k : NodeKind} (x : Node k) :
    (m.add x).node? (m.next k) = some x := by
  rw [node?, get?_add_next]
  rfl

theorem node?_bind_of_ne {id : Nat} {name : String} {c : Cell}
    (h : ⟨.scope, id⟩ ≠ s) : (m.bind id name c).node? s = m.node? s := by
  rw [node?, bind, get?_alter_of_ne _ h, node?]

theorem node?_bind_self {id : Nat} {name : String} {c : Cell}
    {bindings : List (String × Cell)} {parent : Option Nat}
    (h : m.node? ⟨.scope, id⟩ = some (.scope bindings parent)) :
    (m.bind id name c).node? ⟨.scope, id⟩ =
      some (.scope ((name, c) :: bindings.filter (·.1 ≠ name)) parent) := by
  obtain ⟨e, he, hnode⟩ := Option.map_eq_some_iff.1 h
  obtain ⟨n, x⟩ := e
  cases hnode
  rw [node?, bind, get?_alter_self, he]
  rfl

theorem keeps_bind {id : Nat} {name : String} {c : Cell} :
    Keeps H m (m.bind id name c) := by
  intro r x _ hx
  by_cases hr : ⟨.scope, id⟩ = r
  · subst hr
    cases x with
    | scope bindings parent => exact ⟨_, node?_bind_self hx, rfl⟩
  · exact ⟨x, (node?_bind_of_ne hr).trans hx, rfl⟩

/-- Two memories agree on the nodes of `t`, and from there one only comes to
nodes of `t`. -/
structure AgreeOn (t m M : Memory) : Prop where
  inside : ∀ {q s : Ref}, t.Holds q s → ∃ x, t.node? s = some x
  left : ∀ {s : Ref} {x : Node s.kind}, t.node? s = some x →
    m.node? s = some x
  right : ∀ {s : Ref} {x : Node s.kind}, t.node? s = some x →
    M.node? s = some x

theorem AgreeOn.keeps (ha : AgreeOn t m M)
    (hH : ∀ r ∈ H, ∃ x, t.node? r = some x) : Keeps H m M := by
  have hthere : ∀ r, m.Guards H r → ∃ x, t.node? r = some x := by
    intro r hr
    induction hr with
    | held hr => exact hH _ hr
    | @through q r x _ hx hr ih =>
        obtain ⟨y, hy⟩ := ih
        obtain rfl : y = x := Option.some.inj ((ha.left hy).symm.trans hx)
        exact ha.inside ⟨y, hy, Node.core_subset hr⟩
  intro r x hr hx
  obtain ⟨y, hy⟩ := hthere r hr
  obtain rfl : y = x := Option.some.inj ((ha.left hy).symm.trans hx)
  exact ⟨y, ha.right hy, rfl⟩

end Memory

namespace Teardown

variable {m t : Memory} {r : Ref} {H : Multiset Ref} {hs : List Ref}

/-- What is left at the end has been there all the time, as it is. -/
theorem agreeOn_of_end (hm : m.Exact (r :: hs))
    (ht : (start m r).Reaches ⟨t, []⟩) {u : Teardown}
    (hu : (start m r).Reaches u) : Memory.AgreeOn t m u.memory where
  inside := fun {q _} hq => (ht.exact_of_end hm).exists_node? (.inr ⟨q, hq⟩)
  left := ht.node?_of_end .refl
  right := ht.node?_of_end hu

/-- What is guarded by references that are held is kept while another one is
given up. -/
theorem keeps_of_reaches (hm : m.Exact (r :: hs)) (hH : ∀ s ∈ H, s ∈ hs)
    {u : Teardown} (hu : (start m r).Reaches u) :
    Memory.Keeps H m u.memory := by
  obtain ⟨t, ht⟩ := (start m r).exists_end
  refine (agreeOn_of_end hm ht hu).keeps fun s hs => ?_
  exact (ht.exact_of_end hm).exists_node? (.inl (hH s hs))

end Teardown

end SmallLisp
