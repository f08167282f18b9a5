import SmallLisp.Store

/-!
# What the store's operations do to its scopes

Adding a scope and binding a name are described scope by scope. The walks
that look a name up, assign to it and ask for it only ever go from a scope
to the one around it. The scope where an assignment ends is `owner?`, and
asking for a name comes to the same scope (`assign?_eq`, `contains_eq`).
`binds_of_getWithin` and `binds_of_ownerWithin` say where the walks can end
up, for any property that goes along with a step outward.
-/

namespace SmallLisp

/-! ## Bindings -/

theorem names_insertEntry_of_mem {name : String} {v : Value}
    {entries : List (String × Value)}
    (hs : (entries.map Prod.fst).Pairwise (· < ·))
    (h : name ∈ entries.map Prod.fst) :
    (insertEntry name v entries).map Prod.fst = entries.map Prod.fst := by
  induction entries with
  | nil => cases h
  | cons entry rest ih =>
      obtain ⟨n, w⟩ := entry
      rw [List.map_cons, List.pairwise_cons] at hs
      unfold insertEntry
      split
      · next heq => rw [List.map_cons, List.map_cons, heq]
      · next hne =>
          have hrest : name ∈ rest.map Prod.fst := by
            rcases List.mem_cons.1 h with heq | hrest
            · exact absurd heq hne
            · exact hrest
          -- The names behind `n` are greater, so the place is not here.
          have hlt : ¬ name < n := fun hlt =>
            String.lt_irrefl n (String.lt_trans (hs.1 name hrest) hlt)
          rw [if_neg hlt, List.map_cons, List.map_cons, ih hs.2 hrest]

namespace Bindings

theorem names_insert_of_isSome {b : Bindings} {name : String} {v : Value}
    (h : (b.get? name).isSome = true) :
    (b.insert name v).names = b.names :=
  names_insertEntry_of_mem b.sorted ((b.mem_names name).2 h)

theorem mem_names_insert {b : Bindings} {name m : String} {v : Value}
    (h : m ∈ b.names) : m ∈ (b.insert name v).names :=
  mem_names_insertEntry.2 (.inr h)

end Bindings

/-! ## Scopes -/

namespace Store

variable {s : Store} {e i : ScopeId} {name : String} {v : Value}

@[simp] theorem size_addScope {parent : Option ScopeId} :
    (s.addScope parent).scopes.size = s.scopes.size + 1 := by
  simp [addScope]

theorem getElem?_addScope {parent : Option ScopeId} :
    (s.addScope parent).scopes[i]? =
      if i = s.scopes.size then some ⟨.empty, parent⟩
      else s.scopes[i]? := by
  rw [addScope, Array.getElem?_push]

theorem lt_of_getElem? {sc : Scope} (h : s.scopes[i]? = some sc) :
    i < s.scopes.size :=
  (Array.getElem?_eq_some_iff.1 h).1

@[simp] theorem size_define :
    (s.define e name v).scopes.size = s.scopes.size := by
  simp [define]

theorem getElem?_define_of_ne (h : i ≠ e) :
    (s.define e name v).scopes[i]? = s.scopes[i]? := by
  rw [define, Array.getElem?_modify, if_neg (Ne.symm h)]

theorem getElem?_define_self {sc : Scope} (h : s.scopes[e]? = some sc) :
    (s.define e name v).scopes[e]? =
      some { sc with bindings := sc.bindings.insert name v } := by
  rw [define, Array.getElem?_modify, if_pos rfl, h]
  rfl

/-! ## Bindings and surroundings, across the store -/

/-- Scope `i` itself binds the name to the value. -/
def Binds (s : Store) (i : ScopeId) (name : String) (v : Value) : Prop :=
  ∃ sc, s.scopes[i]? = some sc ∧ sc.bindings.get? name = some v

/-- Scope `p` is the one around scope `i`. -/
def Inside (s : Store) (i p : ScopeId) : Prop :=
  ∃ sc, s.scopes[i]? = some sc ∧ sc.parent = some p

theorem Binds.lt (h : s.Binds i name v) : i < s.scopes.size := by
  obtain ⟨sc, hsc, _⟩ := h
  exact lt_of_getElem? hsc

theorem Inside.lt {p : ScopeId} (h : s.Inside i p) : i < s.scopes.size := by
  obtain ⟨sc, hsc, _⟩ := h
  exact lt_of_getElem? hsc

theorem binds_of_addScope {parent : Option ScopeId} {w : Value}
    (h : (s.addScope parent).Binds i name w) : s.Binds i name w := by
  obtain ⟨sc, hsc, hw⟩ := h
  rw [getElem?_addScope] at hsc
  split at hsc
  · cases hsc
    cases hw
  · exact ⟨sc, hsc, hw⟩

theorem inside_of_addScope {parent : Option ScopeId} {p : ScopeId}
    (h : (s.addScope parent).Inside i p) :
    i = s.scopes.size ∧ parent = some p ∨ s.Inside i p := by
  obtain ⟨sc, hsc, hp⟩ := h
  rw [getElem?_addScope] at hsc
  split at hsc
  · next hi =>
      cases hsc
      exact .inl ⟨hi, hp⟩
  · exact .inr ⟨sc, hsc, hp⟩

theorem exists_of_define {sc : Scope}
    (h : (s.define e name v).scopes[i]? = some sc) :
    s.scopes[i]? = some sc ∨ i = e ∧ ∃ sc', s.scopes[i]? = some sc' ∧
      sc = { sc' with bindings := sc'.bindings.insert name v } := by
  by_cases hi : i = e
  · subst hi
    rw [define, Array.getElem?_modify, if_pos rfl] at h
    obtain ⟨sc', hsc', heq⟩ := Option.map_eq_some_iff.1 h
    exact .inr ⟨rfl, sc', hsc', heq.symm⟩
  · rw [getElem?_define_of_ne hi] at h
    exact .inl h

theorem binds_of_define {m : String} {w : Value}
    (h : (s.define e name v).Binds i m w) :
    i = e ∧ w = v ∨ s.Binds i m w := by
  obtain ⟨sc, hsc, hw⟩ := h
  rcases exists_of_define hsc with hsc | ⟨hi, sc', hsc', rfl⟩
  · exact .inr ⟨sc, hsc, hw⟩
  · rw [Bindings.get?_insert] at hw
    split at hw
    · cases hw
      exact .inl ⟨hi, rfl⟩
    · exact .inr ⟨sc', hsc', hw⟩

/-- What holds of every bound value and of the new one holds of every value
that is bound then. -/
theorem forall_binds_define {Q : Value → Prop}
    (hs : ∀ i m w, s.Binds i m w → Q w) (hv : Q v) :
    ∀ i m w, (s.define e name v).Binds i m w → Q w := by
  intro i m w hw
  rcases binds_of_define hw with ⟨_, rfl⟩ | hw
  · exact hv
  · exact hs i m w hw

theorem inside_of_define {p : ScopeId}
    (h : (s.define e name v).Inside i p) : s.Inside i p := by
  obtain ⟨sc, hsc, hp⟩ := h
  rcases exists_of_define hsc with hsc | ⟨_, sc', hsc', rfl⟩
  · exact ⟨sc, hsc, hp⟩
  · exact ⟨sc', hsc', hp⟩

/-! ## Walks -/

/-- Looks for the nearest of at most `limit` scopes, from `e` outward, that
binds a name. -/
def ownerWithin (s : Store) (name : String) :
    (limit : Nat) → (e : ScopeId) → Option ScopeId
  | 0, _ => none
  | limit + 1, e =>
      match s.scopes[e]? with
      | none => none
      | some scope =>
          if (scope.bindings.get? name).isSome then some e
          else
            match scope.parent with
            | some p => ownerWithin s name limit p
            | none => none

/-- The nearest scope, from `e` outward, that binds a name. -/
def owner? (s : Store) (e : ScopeId) (name : String) : Option ScopeId :=
  s.ownerWithin name (e + 1) e

theorem assignWithin_eq (s : Store) (name : String) (v : Value)
    (limit : Nat) (e : ScopeId) : s.assignWithin name v limit e =
      (s.ownerWithin name limit e).map fun i => s.define i name v := by
  induction limit generalizing e with
  | zero => rfl
  | succ limit ih =>
      rw [assignWithin, ownerWithin]
      cases s.scopes[e]? with
      | none => rfl
      | some sc =>
          by_cases hbound : (sc.bindings.get? name).isSome = true
          · simp only [hbound, if_true, Option.map_some]
          · cases hp : sc.parent with
            | none => simp only [hbound, hp, Bool.false_eq_true, if_false,
                Option.map_none]
            | some p => simp only [hbound, hp, Bool.false_eq_true, if_false,
                ih]

theorem assign?_eq (s : Store) (e : ScopeId) (name : String) (v : Value) :
    s.assign? e name v =
      (s.owner? e name).map fun i => s.define i name v :=
  s.assignWithin_eq name v (e + 1) e

theorem containsWithin_eq (s : Store) (name : String) (limit : Nat)
    (e : ScopeId) : s.containsWithin name limit e =
      (s.ownerWithin name limit e).isSome := by
  induction limit generalizing e with
  | zero => rfl
  | succ limit ih =>
      rw [containsWithin, ownerWithin]
      cases s.scopes[e]? with
      | none => rfl
      | some sc =>
          by_cases hbound : (sc.bindings.get? name).isSome = true
          · simp only [hbound, if_true, Option.isSome_some]
          · cases hp : sc.parent with
            | none => simp only [hbound, hp, Bool.false_eq_true, if_false,
                Option.isSome_none]
            | some p => simp only [hbound, hp, Bool.false_eq_true, if_false,
                ih]

theorem contains_eq (s : Store) (e : ScopeId) (name : String) :
    s.contains e name = (s.owner? e name).isSome :=
  s.containsWithin_eq name (e + 1) e

theorem binds_of_getWithin {P : ScopeId → Prop}
    (hP : ∀ i p, s.Inside i p → P i → P p) {limit : Nat} (he : P e)
    (h : s.getWithin name limit e = some v) :
    ∃ i, P i ∧ s.Binds i name v := by
  induction limit generalizing e with
  | zero => cases h
  | succ limit ih =>
      rw [getWithin] at h
      split at h
      · cases h
      · next sc hsc =>
          split at h
          · next w hw =>
              cases h
              exact ⟨e, he, sc, hsc, hw⟩
          · split at h
            · next p hp => exact ih (hP e p ⟨sc, hsc, hp⟩ he) h
            · cases h

theorem binds_of_ownerWithin {P : ScopeId → Prop}
    (hP : ∀ i p, s.Inside i p → P i → P p) {limit : Nat} {owner : ScopeId}
    (he : P e) (h : s.ownerWithin name limit e = some owner) :
    P owner ∧ ∃ w, s.Binds owner name w := by
  induction limit generalizing e with
  | zero => cases h
  | succ limit ih =>
      rw [ownerWithin] at h
      split at h
      · cases h
      · next sc hsc =>
          split at h
          · next hbound =>
              cases h
              obtain ⟨w, hw⟩ := Option.isSome_iff_exists.1 hbound
              exact ⟨he, w, sc, hsc, hw⟩
          · split at h
            · next p hp => exact ih (hP e p ⟨sc, hsc, hp⟩ he) h
            · cases h

/-- An assignment is a binding in a scope that the walk can reach and that
binds the name already. -/
theorem define_of_assign {P : ScopeId → Prop} {s' : Store}
    (hP : ∀ i p, s.Inside i p → P i → P p) (he : P e)
    (h : s.assign? e name v = some s') :
    ∃ owner, P owner ∧ (∃ w, s.Binds owner name w) ∧
      s' = s.define owner name v := by
  rw [assign?_eq] at h
  obtain ⟨owner, howner, rfl⟩ := Option.map_eq_some_iff.1 h
  obtain ⟨hPo, hbound⟩ := binds_of_ownerWithin hP he howner
  exact ⟨owner, hPo, hbound, rfl⟩

theorem exists_binds_of_get? (h : s.get? e name = some v) :
    ∃ i, s.Binds i name v := by
  obtain ⟨i, _, hb⟩ := binds_of_getWithin (P := fun _ => True)
    (fun _ _ _ h => h) trivial h
  exact ⟨i, hb⟩

theorem exists_define_of_assign {s' : Store}
    (h : s.assign? e name v = some s') :
    ∃ owner, s' = s.define owner name v := by
  obtain ⟨owner, _, _, hs'⟩ := define_of_assign (P := fun _ => True)
    (fun _ _ _ h => h) trivial h
  exact ⟨owner, hs'⟩

end Store

end SmallLisp
