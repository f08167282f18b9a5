import SmallLisp.Builtin

/-!
# Memory

Lists, lambdas and scopes are shared. Each of them is a node of the memory,
and a value that is a list or a lambda is a reference to its node. A node
counts the references to it, wherever they are kept: in other nodes, or
outside the memory by whoever works with the value.

Nodes of different kinds are kept apart, so that a reference says by itself
what it leads to. The number of a node is not used again after the node has
gone.
-/

namespace SmallLisp

/-! ## Nodes -/

/-- A value that needs no node. -/
inductive Plain where
  | nil
  | bool (b : Bool)
  | int (n : Int64)
  | float (x : Float)
  | str (s : String)
  | symbol (name : String)
  | builtin (b : Builtin)

inductive NodeKind where
  | list
  | lambda
  | scope
deriving DecidableEq, Repr

/-- A reference to a node. -/
structure Ref where
  kind : NodeKind
  id : Nat
deriving DecidableEq, Repr

/-- A value as it is kept in a node. -/
inductive Cell where
  | plain (v : Plain)
  | list (id : Nat)
  | lambda (id : Nat)

instance : Inhabited Cell := ⟨.plain .nil⟩

namespace Cell

def ref? : Cell → Option Ref
  | plain _ => none
  | list id => some ⟨.list, id⟩
  | lambda id => some ⟨.lambda, id⟩

def refs (cells : List Cell) : List Ref :=
  cells.filterMap ref?

end Cell

/-- What a node holds: the elements of a list, the body of a lambda and the
scope it was made in, the bindings of a scope and the scope around it. -/
inductive Node : NodeKind → Type where
  | list (items : List Cell) : Node .list
  | lambda (body : List Cell) (scope : Nat) : Node .lambda
  | scope (bindings : List (String × Cell)) (parent : Option Nat) :
      Node .scope

namespace Node

/-- The references that a node holds, in the order in which they are given
up. -/
def refs {k : NodeKind} : Node k → List Ref
  | list items => Cell.refs items
  | lambda body s => Cell.refs body ++ [⟨.scope, s⟩]
  | scope bindings parent =>
      Cell.refs (bindings.map Prod.snd) ++
        (parent.map (Ref.mk .scope)).toList

/-- A node whose values have been moved out. A lambda keeps hold of its
scope. -/
def hollow {k : NodeKind} : Node k → Node k
  | list items => list (items.map fun _ => .plain .nil)
  | lambda body s => lambda (body.map fun _ => .plain .nil) s
  | scope _ _ => scope [] none

end Node

/-- A node with the number of references to it. -/
structure Entry (k : NodeKind) where
  count : Nat
  node : Node k

/-! ## The memory -/

/-- The nodes of each kind by number, without those that have been given
back. -/
structure Memory where
  lists : Array (Option (Entry .list))
  lambdas : Array (Option (Entry .lambda))
  scopes : Array (Option (Entry .scope))

namespace Memory

def empty : Memory := ⟨#[], #[], #[]⟩

/-- The nodes of one kind. -/
def table (m : Memory) : (k : NodeKind) → Array (Option (Entry k))
  | .list => m.lists
  | .lambda => m.lambdas
  | .scope => m.scopes

def get? (m : Memory) (r : Ref) : Option (Entry r.kind) :=
  (m.table r.kind)[r.id]?.join

def node? (m : Memory) (r : Ref) : Option (Node r.kind) :=
  (m.get? r).map Entry.node

/-- The number of references that a node has counted, zero if there is no
such node. -/
def count (m : Memory) (r : Ref) : Nat :=
  (m.get? r).elim 0 Entry.count

/-- Replaces a node, or takes it away. -/
def write (m : Memory) : (r : Ref) → Option (Entry r.kind) → Memory
  | ⟨.list, i⟩, o => { m with lists := m.lists.setIfInBounds i o }
  | ⟨.lambda, i⟩, o => { m with lambdas := m.lambdas.setIfInBounds i o }
  | ⟨.scope, i⟩, o => { m with scopes := m.scopes.setIfInBounds i o }

def erase (m : Memory) (r : Ref) : Memory :=
  m.write r none

/-- Changes a node, if it is there. -/
def alter (m : Memory) (r : Ref) (f : Entry r.kind → Entry r.kind) : Memory :=
  match m.get? r with
  | some entry => m.write r (some (f entry))
  | none => m

/-- Counts one reference less. -/
def lose (m : Memory) (r : Ref) : Memory :=
  m.alter r fun entry => { entry with count := entry.count - 1 }

/-- Counts one reference more. -/
def share (m : Memory) (r : Ref) : Memory :=
  m.alter r fun entry => { entry with count := entry.count + 1 }

/-- Moves the values out of a node. -/
def hollow (m : Memory) (r : Ref) : Memory :=
  m.alter r fun entry => { entry with node := entry.node.hollow }

/-- Binds a name in a scope, in place of an earlier binding of it. -/
def bind (m : Memory) (id : Nat) (name : String) (c : Cell) : Memory :=
  m.alter ⟨.scope, id⟩ fun
    | ⟨count, .scope bindings parent⟩ =>
        ⟨count, .scope ((name, c) :: bindings.filter (·.1 ≠ name)) parent⟩

/-- The reference that the next node of a kind will have. -/
def next (m : Memory) (k : NodeKind) : Ref :=
  ⟨k, (m.table k).size⟩

/-- Adds a node, with one reference to it. -/
def add (m : Memory) : {k : NodeKind} → Node k → Memory
  | .list, x => { m with lists := m.lists.push (some ⟨1, x⟩) }
  | .lambda, x => { m with lambdas := m.lambdas.push (some ⟨1, x⟩) }
  | .scope, x => { m with scopes := m.scopes.push (some ⟨1, x⟩) }

/-- The sum of a number for each member of a list. -/
def sumBy {α : Type} (g : α → Nat) : List α → Nat
  | [] => 0
  | x :: xs => g x + sumBy g xs

/-- A sum over all nodes. -/
def total (m : Memory) (f : (k : NodeKind) → Entry k → Nat) : Nat :=
  sumOf .list + sumOf .lambda + sumOf .scope
where
  sumOf (k : NodeKind) : Nat :=
    sumBy (fun o => o.elim 0 (f k)) (m.table k).toList

/-- The number of references to a node that are kept in nodes. -/
def refsTo (m : Memory) (r : Ref) : Nat :=
  m.total fun _ entry => entry.node.refs.count r

/-- A node holds a reference. -/
def Holds (m : Memory) (q r : Ref) : Prop :=
  ∃ x, m.node? q = some x ∧ r ∈ x.refs

/-- Every node has counted the references in nodes and those held outside,
and nothing refers to a node that is not there. -/
def Exact (m : Memory) (held : List Ref) : Prop :=
  ∀ r, m.count r = m.refsTo r + held.count r

/-! ## Reading after writing -/

section

variable {m : Memory} {r s : Ref} {e : Entry r.kind}

theorem ext_table {m m' : Memory} (h : ∀ k, m.table k = m'.table k) :
    m = m' := by
  cases m
  cases m'
  simp only [mk.injEq]
  exact ⟨h .list, h .lambda, h .scope⟩

theorem table_write_self (o : Option (Entry r.kind)) :
    (m.write r o).table r.kind = (m.table r.kind).setIfInBounds r.id o := by
  obtain ⟨k, i⟩ := r
  cases k <;> rfl

theorem table_write_of_ne {k : NodeKind} (o : Option (Entry r.kind))
    (h : r.kind ≠ k) : (m.write r o).table k = m.table k := by
  obtain ⟨l, i⟩ := r
  cases l <;> cases k <;> first | rfl | exact absurd rfl h

theorem table_add_self {k : NodeKind} (x : Node k) :
    (m.add x).table k = (m.table k).push (some ⟨1, x⟩) := by
  cases k <;> rfl

theorem table_add_of_ne {k l : NodeKind} (x : Node k) (h : k ≠ l) :
    (m.add x).table l = m.table l := by
  cases k <;> cases l <;> first | rfl | exact absurd rfl h

theorem lt_of_get? (h : m.get? r = some e) : r.id < (m.table r.kind).size := by
  rcases Nat.lt_or_ge r.id (m.table r.kind).size with hlt | hge
  · exact hlt
  · simp [get?, Array.getElem?_eq_none hge] at h

theorem get?_write_self (h : m.get? r = some e) (o : Option (Entry r.kind)) :
    (m.write r o).get? r = o := by
  simp [get?, table_write_self, lt_of_get? h]

theorem get?_write_of_ne (o : Option (Entry r.kind)) (h : r ≠ s) :
    (m.write r o).get? s = m.get? s := by
  obtain ⟨k, i⟩ := r
  obtain ⟨l, j⟩ := s
  unfold get?
  by_cases hk : k = l
  · subst hk
    have hij : i ≠ j := fun hij => h (hij ▸ rfl)
    simp only [table_write_self (r := ⟨k, i⟩),
      Array.getElem?_setIfInBounds_ne hij]
  · simp only [table_write_of_ne (r := ⟨k, i⟩) o hk]

theorem write_write (o o' : Option (Entry r.kind)) :
    (m.write r o).write r o' = m.write r o' := by
  refine ext_table fun k => ?_
  by_cases hk : r.kind = k
  · subst hk
    simp only [table_write_self, Array.setIfInBounds_setIfInBounds]
  · simp only [table_write_of_ne _ hk]

theorem write_comm (h : r ≠ s) (o : Option (Entry r.kind))
    (o' : Option (Entry s.kind)) :
    (m.write r o).write s o' = (m.write s o').write r o := by
  refine ext_table fun n => ?_
  obtain ⟨k, i⟩ := r
  obtain ⟨l, j⟩ := s
  by_cases hk : k = n
  · subst hk
    by_cases hl : l = k
    · subst hl
      have hij : i ≠ j := fun hij => h (hij ▸ rfl)
      simp only [table_write_self (r := ⟨l, i⟩),
        table_write_self (r := ⟨l, j⟩)]
      exact Array.setIfInBounds_comm _ _ hij
    · simp only [table_write_of_ne (r := ⟨l, j⟩) _ hl,
        table_write_self (r := ⟨k, i⟩)]
  · simp only [table_write_of_ne (r := ⟨k, i⟩) _ hk]
    by_cases hl : l = n
    · subst hl
      simp only [table_write_self (r := ⟨l, j⟩),
        table_write_of_ne (r := ⟨k, i⟩) _ hk]
    · simp only [table_write_of_ne (r := ⟨l, j⟩) _ hl,
        table_write_of_ne (r := ⟨k, i⟩) _ hk]

@[simp] theorem get?_erase_self : (m.erase r).get? r = none := by
  rcases Nat.lt_or_ge r.id (m.table r.kind).size with hlt | hge
  · simp [erase, get?, table_write_self, hlt]
  · simp [erase, get?, table_write_self, hge]

theorem get?_erase_of_ne (h : r ≠ s) : (m.erase r).get? s = m.get? s :=
  get?_write_of_ne none h

@[simp] theorem get?_alter_self (f : Entry r.kind → Entry r.kind) :
    (m.alter r f).get? r = (m.get? r).map f := by
  unfold alter
  split
  · next e he => rw [get?_write_self he, he, Option.map_some]
  · next he => rw [he, Option.map_none]

theorem get?_alter_of_ne (f : Entry r.kind → Entry r.kind) (h : r ≠ s) :
    (m.alter r f).get? s = m.get? s := by
  unfold alter
  split
  · exact get?_write_of_ne _ h
  · rfl

theorem count_of_get? (h : m.get? r = some e) : m.count r = e.count := by
  simp [count, h]

/-! ## Sums -/

/-- Replacing one member of a list replaces one term of a sum over it. -/
theorem sumBy_set {α : Type} (g : α → Nat) (l : List α) (i : Nat) (a b : α)
    (h : l[i]? = some a) : sumBy g (l.set i b) + g a = sumBy g l + g b := by
  induction l generalizing i with
  | nil => simp at h
  | cons x xs ih =>
      cases i with
      | zero =>
          simp only [List.getElem?_cons_zero, Option.some.injEq] at h
          subst h
          simp only [List.set_cons_zero, sumBy]
          omega
      | succ i =>
          have := ih i (by simpa using h)
          simp only [List.set_cons_succ, sumBy]
          omega

theorem sumBy_concat {α : Type} (g : α → Nat) (l : List α) (a : α) :
    sumBy g (l ++ [a]) = sumBy g l + g a := by
  induction l with
  | nil => simp [sumBy]
  | cons x xs ih => simp [sumBy, ih, Nat.add_assoc]

theorem sumBy_eq_zero {α : Type} (g : α → Nat) (l : List α)
    (h : ∀ x ∈ l, g x = 0) : sumBy g l = 0 := by
  induction l with
  | nil => rfl
  | cons x xs ih =>
      obtain ⟨hx, hxs⟩ := List.forall_mem_cons.1 h
      rw [sumBy, hx, ih hxs]

theorem getElem?_of_get? (h : m.get? r = some e) :
    (m.table r.kind)[r.id]? = some (some e) := by
  unfold get? at h
  cases ho : (m.table r.kind)[r.id]? with
  | none => simp [ho] at h
  | some o =>
      rw [ho] at h
      exact congrArg some h

/-- Replacing a node replaces one term of a sum over all nodes. -/
theorem total_write (f : (k : NodeKind) → Entry k → Nat) (h : m.get? r = some e)
    (o : Option (Entry r.kind)) :
    (m.write r o).total f + f r.kind e =
      m.total f + o.elim 0 (f r.kind) := by
  have hmem : (m.table r.kind).toList[r.id]? = some (some e) := by
    rw [Array.getElem?_toList]
    exact getElem?_of_get? h
  have hset := sumBy_set (fun o => o.elim 0 (f r.kind)) _ _ _ o hmem
  rw [← Array.toList_setIfInBounds, ← table_write_self (m := m)] at hset
  have hne {k : NodeKind} (hk : r.kind ≠ k) :=
    congrArg (fun t => sumBy (fun o => o.elim 0 (f k)) t.toList)
      (table_write_of_ne (m := m) o hk)
  obtain ⟨k, i⟩ := r
  simp only [total, total.sumOf]
  cases k with
  | list =>
      have h1 := hne (k := .lambda) (by simp)
      have h2 := hne (k := .scope) (by simp)
      simp only [Option.elim_some] at hset h1 h2 ⊢
      omega
  | lambda =>
      have h1 := hne (k := .list) (by simp)
      have h2 := hne (k := .scope) (by simp)
      simp only [Option.elim_some] at hset h1 h2 ⊢
      omega
  | scope =>
      have h1 := hne (k := .list) (by simp)
      have h2 := hne (k := .lambda) (by simp)
      simp only [Option.elim_some] at hset h1 h2 ⊢
      omega

end

end Memory

end SmallLisp
