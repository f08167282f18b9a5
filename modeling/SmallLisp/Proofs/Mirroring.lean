import Mathlib.Data.Option.Basic
import SmallLisp.Process
import SmallLisp.Proofs.Stores
import SmallLisp.Proofs.Survivors

/-!
# The memory mirrors the store

Scopes and lambdas have the same numbers in the store and in the memory. The
store keeps all of them for good, and the memory gives them back when nothing
refers to them any more, so only what is left in the memory can be compared:
`Mirrors` says that a scope there has the same scope around it and binds the
same names, and that what is bound stands for the value in the store.

Whatever is done to both of them at the same time keeps this, and giving up
references does, too (`Mirrors.of_end`). The walks outward that look for a
name take the same steps in the store and in the memory (`sought`).
-/

namespace SmallLisp

namespace Memory

/-- The bindings of a scope bind the same names in the store, to what the
values stand for. -/
def BindsAs (m : Memory) (bindings : List (String × Cell))
    (b : Bindings) : Prop :=
  ∀ name, Option.Rel (Reads m) (bindings.lookup name) (b.get? name)

/-- What is left of scopes in the memory is what the store has there. -/
structure Mirrors (m : Memory) (s : Store) : Prop where
  scopes : (m.table .scope).size = s.scopes.size
  lambdas : (m.table .lambda).size = s.lambdas
  scope : ∀ {id : Nat} {bindings : List (String × Cell)}
    {parent : Option Nat},
    m.node? ⟨.scope, id⟩ = some (.scope bindings parent) →
    ∃ sc, s.scopes[id]? = some sc ∧ sc.parent = parent ∧
      BindsAs m bindings sc.bindings

variable {m M t : Memory} {s : Store} {r : Ref} {hs hs' : List Ref}
  {c : Cell} {v : Value} {name : String} {e : Nat}
  {bindings : List (String × Cell)} {b : Bindings}

/-! ## What is bound -/

/-- What a value refers to guards all that it stands for. -/
theorem Reads.of_keeps (h : Reads m c v)
    (hk : Keeps (c.ref?.toList : Multiset Ref) m M) : Reads M c v := by
  refine h.keeps (fun s hs => .held ?_) hk
  simp [hs]

theorem ReadsAll.of_keeps {cs : List Cell} {vs : List Value}
    (h : ReadsAll m cs vs) (hk : ∀ H, Keeps H m M) : ReadsAll M cs vs := by
  refine h.keeps (fun c hc r hr => .held ?_) (hk (Cell.refs cs))
  exact List.mem_filterMap.2 ⟨c, hc, hr⟩

theorem mem_of_lookup
    (h : bindings.lookup name = some c) : (name, c) ∈ bindings := by
  induction bindings with
  | nil => cases h
  | cons b bs ih =>
      rw [List.lookup_cons] at h
      split at h
      · next heq =>
          cases h
          rw [eq_of_beq heq]
          exact List.mem_cons_self ..
      · exact List.mem_cons_of_mem _ (ih h)

theorem mem_refs_of_lookup {parent : Option Nat}
    (h : bindings.lookup name = some c)
    (hr : c.ref? = some r) : r ∈ (Node.scope bindings parent).refs := by
  refine List.mem_append_left _ (List.mem_filterMap.2 ⟨c, ?_, hr⟩)
  exact List.mem_map.2 ⟨(name, c), mem_of_lookup h, rfl⟩

theorem BindsAs.imp (h : BindsAs m bindings b)
    (hreads : ∀ name c v, bindings.lookup name = some c → Reads m c v →
      Reads M c v) : BindsAs M bindings b := by
  intro name
  have hname := h name
  generalize hc : bindings.lookup name = oc at hname ⊢
  generalize b.get? name = ov at hname ⊢
  cases hname with
  | none => exact .none
  | some hv => exact .some (hreads name _ _ hc hv)

theorem BindsAs.keeps (h : BindsAs m bindings b)
    (hk : ∀ H, Keeps H m M) : BindsAs M bindings b :=
  h.imp fun _ _ _ _ hv => hv.of_keeps (hk _)

theorem mirrors_empty : Mirrors .empty .empty :=
  ⟨rfl, rfl, fun h => by simp [node?, get?, empty, table] at h⟩

/-- A memory that has no scope but those of the other one, and keeps what is
bound there. -/
theorem Mirrors.of_subset (h : Mirrors m s)
    (hsize : ∀ k, (M.table k).size = (m.table k).size)
    (hsub : ∀ id x, M.node? ⟨.scope, id⟩ = some x →
      m.node? ⟨.scope, id⟩ = some x)
    (hk : ∀ id (c : Cell), (∀ r, c.ref? = some r → M.Holds ⟨.scope, id⟩ r) →
      Keeps (c.ref?.toList : Multiset Ref) m M) : Mirrors M s where
  scopes := (hsize _).trans h.scopes
  lambdas := (hsize _).trans h.lambdas
  scope := by
    intro id bindings parent hx
    obtain ⟨sc, hsc, hparent, hbinds⟩ := h.scope (hsub _ _ hx)
    refine ⟨sc, hsc, hparent, hbinds.imp fun name c v hc hv => ?_⟩
    refine hv.of_keeps (hk id c fun r hr => ⟨_, hx, ?_⟩)
    exact mem_refs_of_lookup hc hr

/-! ## What is done to the memory alone -/

theorem size_table_write (r : Ref) (o : Option (Entry r.kind))
    (k : NodeKind) : ((m.write r o).table k).size = (m.table k).size := by
  by_cases hk : r.kind = k
  · subst hk
    rw [table_write_self, Array.size_setIfInBounds]
  · rw [table_write_of_ne o hk]

theorem size_table_alter (f : Entry r.kind → Entry r.kind) (k : NodeKind) :
    ((m.alter r f).table k).size = (m.table k).size := by
  unfold alter
  split
  · exact size_table_write ..
  · rfl

theorem Acts.size_table (h : Acts m hs M hs') (k : NodeKind) :
    (M.table k).size = (m.table k).size := by
  induction h with
  | perm _ => rfl
  | lose _ => exact size_table_alter ..
  | free _ _ => exact size_table_write ..
  | hollow _ _ _ _ => exact size_table_alter ..
  | trans _ _ ih ih' => exact ih'.trans ih

theorem Mirrors.share (h : Mirrors m s) (r : Ref) :
    Mirrors (m.share r) s := by
  refine h.of_subset (size_table_alter _) (fun id x hx => ?_) fun _ _ _ => ?_
  · rwa [node?_share] at hx
  · exact keeps_of_node? fun q x hx => by rwa [node?_share]

theorem Mirrors.add_list (h : Mirrors m s) (items : List Cell) :
    Mirrors (m.add (.list items)) s where
  scopes := h.scopes
  lambdas := h.lambdas
  scope := by
    intro id bindings parent hx
    obtain ⟨sc, hsc, hparent, hbinds⟩ := h.scope hx
    exact ⟨sc, hsc, hparent, hbinds.keeps fun _ => keeps_add _⟩

/-- What is left when a reference has been given up. -/
theorem Mirrors.of_end (h : Mirrors m s) (hm : m.Exact (r :: hs))
    (ht : (Teardown.start m r).Reaches ⟨t, []⟩) : Mirrors t s := by
  have hagree := Teardown.agreeOn_of_end hm ht ht
  have hsub {q : Ref} {x : Node q.kind} (hx : t.node? q = some x) :
      m.node? q = some x := ht.node?_of_end .refl hx
  refine h.of_subset (ht.acts []).size_table (fun id x hx => hsub hx) ?_
  intro id c hc
  refine AgreeOn.keeps ⟨hagree.inside, hsub, hagree.right⟩ fun q hq => ?_
  refine hagree.inside (hc q ?_)
  simpa using hq

/-! ## What is done to both -/

theorem Mirrors.add_lambda (h : Mirrors m s) (body : List Cell) :
    Mirrors (m.add (.lambda body e)) { s with lambdas := s.lambdas + 1 }
    where
  scopes := h.scopes
  lambdas := by
    rw [table_add_self, Array.size_push, h.lambdas]
  scope := by
    intro id bindings parent hx
    obtain ⟨sc, hsc, hparent, hbinds⟩ := h.scope hx
    exact ⟨sc, hsc, hparent, hbinds.keeps fun _ => keeps_add _⟩

theorem Mirrors.add_scope (h : Mirrors m s) (parent : Option Nat) :
    Mirrors (m.add (.scope [] parent)) (s.addScope parent) where
  scopes := by
    rw [table_add_self, Array.size_push, h.scopes, Store.size_addScope]
  lambdas := h.lambdas
  scope := by
    intro id bindings p hx
    rw [Store.getElem?_addScope, ← h.scopes]
    by_cases hid : id = (m.table .scope).size
    · subst hid
      have hself : (m.add (.scope [] parent)).node?
          ⟨.scope, (m.table .scope).size⟩ = some (.scope [] parent) :=
        node?_add_next _
      obtain ⟨rfl, rfl⟩ : bindings = [] ∧ p = parent := by
        rw [hself] at hx
        cases hx
        exact ⟨rfl, rfl⟩
      exact ⟨_, if_pos rfl, rfl, fun name => .none⟩
    · rw [if_neg hid]
      have hne : m.next .scope ≠ ⟨.scope, id⟩ := by
        intro hnext
        cases hnext
        exact hid rfl
      rw [node?, get?_add_of_ne _ hne] at hx
      obtain ⟨sc, hsc, hparent, hbinds⟩ := h.scope hx
      exact ⟨sc, hsc, hparent, hbinds.keeps fun _ => keeps_add _⟩

theorem lookup_filter_ne {n : String} (h : n ≠ name) :
    (bindings.filter (·.1 ≠ name)).lookup n = bindings.lookup n := by
  induction bindings with
  | nil => rfl
  | cons b bs ih => grind

theorem BindsAs.insert (h : BindsAs m bindings b) (hc : Reads m c v) :
    BindsAs m ((name, c) :: bindings.filter (·.1 ≠ name))
      (b.insert name v) := by
  intro n
  rw [Bindings.get?_insert, List.lookup_cons]
  by_cases hn : n = name
  · subst hn
    simp only [beq_self_eq_true, if_true]
    exact .some hc
  · rw [if_neg hn, beq_false_of_ne hn, lookup_filter_ne hn]
    exact h n

/-- The value is put into the scope of the store whether the scope is left
in the memory or not. -/
theorem Mirrors.bind (h : Mirrors m s) (id : Nat) (name : String)
    (hc : Reads m c v) :
    Mirrors (m.bind id name c) (s.define id name v) where
  scopes := by
    rw [Memory.bind, size_table_alter, h.scopes, Store.size_define]
  lambdas := by
    rw [Memory.bind, size_table_alter]
    exact h.lambdas
  scope := by
    intro i bindings parent hx
    by_cases hi : i = id
    · subst hi
      cases hy : m.node? ⟨.scope, i⟩ with
      | none =>
          have hnone : m.get? ⟨.scope, i⟩ = none := by
            simpa [node?] using hy
          simp [node?, Memory.bind, get?_alter_self, hnone] at hx
      | some y =>
          cases y with
          | scope bindings' parent' =>
              rw [node?_bind_self hy] at hx
              cases hx
              obtain ⟨sc, hsc, hparent, hbinds⟩ := h.scope hy
              refine ⟨_, Store.getElem?_define_self hsc, hparent, ?_⟩
              exact (hbinds.insert hc).keeps fun _ => keeps_bind
    · have hne : (⟨.scope, id⟩ : Ref) ≠ ⟨.scope, i⟩ := by
        intro heq
        cases heq
        exact hi rfl
      rw [node?_bind_of_ne hne] at hx
      obtain ⟨sc, hsc, hparent, hbinds⟩ := h.scope hx
      refine ⟨sc, (Store.getElem?_define_of_ne hi).trans hsc, hparent, ?_⟩
      exact hbinds.keeps fun _ => keeps_bind

/-! ## Walks outward -/

/-- What is found in the memory is what is found in the store, in the scope
where an assignment would put a value. -/
structure FoundAs (m : Memory) (s : Store) (name : String) (limit e : Nat)
    (owner : Nat) (c : Cell) (v : Value) : Prop where
  get : s.getWithin name limit e = some v
  assign : ∀ w, s.assignWithin name w limit e = some (s.define owner name w)
  reads : Reads m c v
  holds : ∀ r, c.ref? = some r → m.Holds ⟨.scope, owner⟩ r
  guards : ∀ H, m.Guards H ⟨.scope, e⟩ → m.Guards H ⟨.scope, owner⟩

/-- What a walk through the memory says about the walk through the store. -/
def Sought (m : Memory) (s : Store) (name : String) (limit e : Nat) :
    Option (Nat × Cell) → Prop
  | some (owner, c) => ∃ v, FoundAs m s name limit e owner c v
  | none => s.getWithin name limit e = none ∧
      ∀ w, s.assignWithin name w limit e = none

theorem Sought.outward {limit limit' e' : Nat} {o : Option (Nat × Cell)}
    (h : Sought m s name limit' e' o)
    (hget : s.getWithin name limit e = s.getWithin name limit' e')
    (hassign : ∀ w, s.assignWithin name w limit e =
      s.assignWithin name w limit' e')
    (hguards : ∀ H, m.Guards H ⟨.scope, e⟩ → m.Guards H ⟨.scope, e'⟩) :
    Sought m s name limit e o := by
  cases o with
  | none => exact ⟨hget.trans h.1, fun w => (hassign w).trans (h.2 w)⟩
  | some f =>
      obtain ⟨v, hv⟩ := h
      refine ⟨v, hget.trans hv.get, fun w => (hassign w).trans (hv.assign w),
        hv.reads, hv.holds, fun H hH => hv.guards H (hguards H hH)⟩

/-- The walks take the same steps, as long as they begin with a scope that is
left in the memory: then so are all scopes around it. -/
theorem sought (hm : m.Exact hs) (h : Mirrors m s) (name : String)
    (limit : Nat) (he : ∃ x, m.node? ⟨.scope, e⟩ = some x) :
    Sought m s name limit e (m.findWithin name limit e) := by
  induction limit generalizing e with
  | zero => exact ⟨rfl, fun w => rfl⟩
  | succ limit ih =>
      obtain ⟨x, hx⟩ := he
      cases x with
      | scope bindings parent =>
          obtain ⟨entry, hentry, hnode⟩ := Option.map_eq_some_iff.1 hx
          obtain ⟨n, node⟩ := entry
          cases hnode
          obtain ⟨sc, hsc, hparent, hbinds⟩ := h.scope hx
          have hname := hbinds name
          simp only [findWithin, hentry]
          generalize hc : bindings.lookup name = oc at hname
          generalize hv : sc.bindings.get? name = ov at hname
          cases hname with
          | @some c v hreads =>
              refine ⟨v, ?_, fun w => ?_, hreads, fun r hr => ?_, fun _ => id⟩
              · simp only [Store.getWithin, hsc, hv]
              · simp only [Store.assignWithin, hsc, hv, Option.isSome_some,
                  if_true]
              · exact ⟨_, hx, mem_refs_of_lookup hc hr⟩
          | none =>
              cases parent with
              | none =>
                  refine ⟨?_, fun w => ?_⟩
                  · simp only [Store.getWithin, hsc, hv, hparent]
                  · simp [Store.assignWithin, hsc, hv, hparent]
              | some p =>
                  have hp : (⟨.scope, p⟩ : Ref) ∈
                      (Node.scope bindings (some p)).core.refs :=
                    List.mem_singleton_self _
                  have hstep := ih (hm.exists_node?
                    (.inr ⟨_, _, hx, Node.core_subset hp⟩))
                  refine hstep.outward ?_ (fun w => ?_)
                    fun H hH => .through hH hx hp
                  · simp only [Store.getWithin, hsc, hv, hparent]
                  · simp [Store.assignWithin, hsc, hv, hparent]

end Memory

end SmallLisp
