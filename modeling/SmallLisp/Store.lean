import SmallLisp.Value

/-!
# Scopes

Names are bound in scopes. A scope knows the scope around it, and a name that
a scope does not bind is looked for outside it. Scopes are kept in a store and
referred to by number, since closures share them and assignments must be seen
by all who share.

A new scope is always numbered higher than the scope around it, so a walk
outward visits smaller and smaller numbers. The walks below take that as their
bound: from scope `e` they look at no more than `e + 1` scopes.
-/

namespace SmallLisp

/-! ## Bindings -/

/-- Puts a binding in its place in a list that is ordered by name. -/
def insertEntry (name : String) (v : Value) :
    List (String × Value) → List (String × Value)
  | [] => [(name, v)]
  | (n, w) :: rest =>
      if name = n then (name, v) :: rest
      else if name < n then (name, v) :: (n, w) :: rest
      else (n, w) :: insertEntry name v rest

section

variable {name m : String} {v : Value} {entries : List (String × Value)}

theorem mem_names_insertEntry :
    m ∈ (insertEntry name v entries).map Prod.fst ↔
      m = name ∨ m ∈ entries.map Prod.fst := by
  induction entries with
  | nil => simp [insertEntry]
  | cons entry rest ih =>
      unfold insertEntry
      split
      · next h => simp [← h]
      · split
        · simp
        · simp only [List.map_cons, List.mem_cons, ih]
          grind

theorem pairwise_insertEntry
    (h : (entries.map Prod.fst).Pairwise (· < ·)) :
    ((insertEntry name v entries).map Prod.fst).Pairwise (· < ·) := by
  induction entries with
  | nil => simp [insertEntry]
  | cons entry rest ih =>
      obtain ⟨n, w⟩ := entry
      simp only [List.map_cons, List.pairwise_cons] at h
      unfold insertEntry
      split
      · next heq =>
          subst heq
          simpa using h
      · split
        · next hlt =>
            simp only [List.map_cons, List.pairwise_cons, List.mem_cons]
            refine ⟨?_, h⟩
            rintro m (rfl | hm)
            · exact hlt
            · exact String.lt_trans hlt (h.1 m hm)
        · next hne hnlt =>
            simp only [List.map_cons, List.pairwise_cons]
            refine ⟨fun m hm => ?_, ih h.2⟩
            rcases mem_names_insertEntry.1 hm with rfl | hm
            · exact Std.lt_of_le_of_ne (Std.not_lt.1 hnlt) (Ne.symm hne)
            · exact h.1 m hm

theorem lookup_insertEntry :
    (insertEntry name v entries).lookup m =
      if m = name then some v else entries.lookup m := by
  induction entries with
  | nil => grind [insertEntry]
  | cons entry rest ih =>
      unfold insertEntry
      grind

theorem isSome_lookup :
    (entries.lookup m).isSome = true ↔ m ∈ entries.map Prod.fst := by
  induction entries with
  | nil => simp
  | cons entry rest ih =>
      simp only [List.map_cons, List.mem_cons]
      grind

end

/-- Names with their values, strictly increasing by name. -/
structure Bindings where
  entries : List (String × Value)
  sorted : (entries.map Prod.fst).Pairwise (· < ·)

namespace Bindings

def empty : Bindings := ⟨[], by simp⟩

instance : Inhabited Bindings := ⟨empty⟩

def get? (b : Bindings) (name : String) : Option Value :=
  b.entries.lookup name

/-- Binds a name, in place of an earlier binding of it. -/
def insert (b : Bindings) (name : String) (v : Value) : Bindings :=
  ⟨insertEntry name v b.entries, pairwise_insertEntry b.sorted⟩

/-- The bound names, increasing. -/
def names (b : Bindings) : List String :=
  b.entries.map Prod.fst

@[simp] theorem get?_empty (name : String) : empty.get? name = none := rfl

@[simp] theorem get?_insert (b : Bindings) (name m : String) (v : Value) :
    (b.insert name v).get? m = if m = name then some v else b.get? m :=
  lookup_insertEntry

theorem mem_names (b : Bindings) (name : String) :
    name ∈ b.names ↔ (b.get? name).isSome = true :=
  isSome_lookup.symm

end Bindings

/-! ## Scopes and the store -/

/-- A scope: its own bindings and the scope around it. -/
structure Scope where
  bindings : Bindings
  parent : Option ScopeId

instance : Inhabited Scope := ⟨⟨.empty, none⟩⟩

/-- All scopes, by number, and the number of lambdas made so far. -/
structure Store where
  scopes : Array Scope
  lambdas : Nat

namespace Store

def empty : Store := ⟨#[], 0⟩

/-- Adds a scope without bindings; its number is the number of scopes
before. -/
def addScope (s : Store) (parent : Option ScopeId) : Store :=
  { s with scopes := s.scopes.push ⟨.empty, parent⟩ }

/-- Binds a name in one scope, whatever the scopes around it bind. -/
def define (s : Store) (e : ScopeId) (name : String) (v : Value) : Store :=
  { s with
    scopes := s.scopes.modify e fun scope =>
      { scope with bindings := scope.bindings.insert name v } }

/-- Looks a name up in at most `limit` scopes, from `e` outward. -/
def getWithin (s : Store) (name : String) :
    (limit : Nat) → (e : ScopeId) → Option Value
  | 0, _ => none
  | limit + 1, e =>
      match s.scopes[e]? with
      | none => none
      | some scope =>
          match scope.bindings.get? name with
          | some v => some v
          | none =>
              match scope.parent with
              | some p => getWithin s name limit p
              | none => none

/-- The value of a name, seen from a scope. -/
def get? (s : Store) (e : ScopeId) (name : String) : Option Value :=
  s.getWithin name (e + 1) e

/-- Gives a new value to the nearest binding of a name in at most `limit`
scopes, from `e` outward. -/
def assignWithin (s : Store) (name : String) (v : Value) :
    (limit : Nat) → (e : ScopeId) → Option Store
  | 0, _ => none
  | limit + 1, e =>
      match s.scopes[e]? with
      | none => none
      | some scope =>
          if (scope.bindings.get? name).isSome then some (s.define e name v)
          else
            match scope.parent with
            | some p => assignWithin s name v limit p
            | none => none

/-- Gives a new value to the nearest binding of a name, if there is one. -/
def assign? (s : Store) (e : ScopeId) (name : String) (v : Value) :
    Option Store :=
  s.assignWithin name v (e + 1) e

/-- Looks for a binding of a name in at most `limit` scopes, from `e`
outward. -/
def containsWithin (s : Store) (name : String) :
    (limit : Nat) → (e : ScopeId) → Bool
  | 0, _ => false
  | limit + 1, e =>
      match s.scopes[e]? with
      | none => false
      | some scope =>
          if (scope.bindings.get? name).isSome then true
          else
            match scope.parent with
            | some p => containsWithin s name limit p
            | none => false

/-- Whether a name is bound, seen from a scope. -/
def contains (s : Store) (e : ScopeId) (name : String) : Bool :=
  s.containsWithin name (e + 1) e

/-- The names bound in one scope, increasing. -/
def names (s : Store) (e : ScopeId) : List String :=
  match s.scopes[e]? with
  | some scope => scope.bindings.names
  | none => []

end Store

end SmallLisp
