import SmallLisp.Memory.Finish

/-!
# Giving up references, in whatever order

`release` takes references one by one and descends into a node when the
last reference to it has gone. What one reference brings about is `giveUp`,
the change of its own node, and `freed`, the references that the node held
if it is gone. The descent only decides when those are given up in turn:
`release_cons` puts them in front of the others.

Two references to different nodes do not see each other's change, and two
references to the same node are alike. So the order in which references
are given up makes no difference (`release_perm`). The proof is by the
number of references that are left (`weight`), which falls by one with
each that is given up.

Nothing is written into a node on the way: what is still there afterwards
holds what it held before (`node?_of_release`).
-/

namespace SmallLisp.Memory

variable {m : Memory} {r s : Ref} {rs qs : List Ref} {e : Entry r.kind}

/-! ## One reference -/

/-- What is left of a node when a reference to it has been given up. -/
def remains {k : NodeKind} : Option (Entry k) → Option (Entry k)
  | none => none
  | some e => if e.count = 1 then none else some { e with count := e.count - 1 }

/-- The memory after one reference has been given up, as far as its node
is concerned. -/
def giveUp (m : Memory) (r : Ref) : Memory :=
  m.write r (remains (m.get? r))

/-- The references that are held by a node of which the last reference is
given up. -/
def freed (m : Memory) (r : Ref) : List Ref :=
  (m.get? r).elim [] fun e => if e.count = 1 then e.node.refs else []

theorem write_none (h : m.get? r = none) : m.write r none = m := by
  refine ext_table fun k => ?_
  by_cases hk : r.kind = k
  · subst hk
    rw [table_write_self]
    refine Array.ext_getElem? fun i => ?_
    rw [Array.getElem?_setIfInBounds]
    split
    · next hi =>
        subst hi
        unfold get? at h
        split
        · next hlt =>
            rw [Array.getElem?_eq_getElem hlt] at h ⊢
            exact congrArg some h.symm
        · next hge => rw [Array.getElem?_eq_none (Nat.le_of_not_lt hge)]
    · rfl
  · rw [table_write_of_ne _ hk]

theorem lose_of_none (h : m.get? r = none) : m.lose r = m := by
  simp [lose, alter, h]

theorem giveUp_of_last (h : m.get? r = some e) (hc : e.count = 1) :
    m.giveUp r = m.erase r := by
  simp [giveUp, remains, erase, h, hc]

theorem giveUp_of_shared (hc : m.count r ≠ 1) : m.giveUp r = m.lose r := by
  unfold giveUp lose alter
  cases h : m.get? r with
  | none => exact write_none h
  | some e =>
      rw [count_of_get? h] at hc
      simp [remains, hc]

theorem freed_of_last (h : m.get? r = some e) (hc : e.count = 1) :
    m.freed r = e.node.refs := by
  simp [freed, h, hc]

theorem freed_of_shared (hc : m.count r ≠ 1) : m.freed r = [] := by
  unfold freed
  cases h : m.get? r with
  | none => rfl
  | some e =>
      rw [count_of_get? h] at hc
      simp [hc]

/-- A reference is the last one to a node, or its node stays. -/
theorem last_or_shared (m : Memory) (r : Ref) :
    (∃ e, m.get? r = some e ∧ e.count = 1) ∨ m.count r ≠ 1 := by
  cases h : m.get? r with
  | none => exact .inr (by simp [count, h])
  | some e =>
      by_cases hc : e.count = 1
      · exact .inl ⟨e, rfl, hc⟩
      · exact .inr (by rwa [count_of_get? h])

/-! Neither of two references to different nodes sees what giving up the
other one does. -/

theorem freed_giveUp (h : r ≠ s) : (m.giveUp r).freed s = m.freed s := by
  rw [freed, freed, giveUp, get?_write_of_ne _ h]

theorem giveUp_comm (h : r ≠ s) :
    (m.giveUp r).giveUp s = (m.giveUp s).giveUp r := by
  have hs : (m.giveUp r).get? s = m.get? s := get?_write_of_ne _ h
  have hr : (m.giveUp s).get? r = m.get? r := get?_write_of_ne _ h.symm
  rw [giveUp, hs, giveUp, giveUp, hr, giveUp, write_comm h]

/-! ## All references -/

@[simp] theorem release_nil : m.release [] = m := by
  simp [release, releaseAll]

/-- The descent comes before the references that wait. -/
theorem release_cons_descend : m.release (r :: rs) =
    ((m.giveUp r).release (m.freed r)).release rs := by
  rcases last_or_shared m r with ⟨e, he, hc⟩ | hc
  · rw [giveUp_of_last he hc, freed_of_last he hc]
    simp only [release]
    rw [releaseAll]
    split
    · next hnone => simp [he] at hnone
    · next e' he' =>
        rw [he] at he'
        cases he'
        simp [hc]
  · rw [giveUp_of_shared hc, freed_of_shared hc, release_nil]
    simp only [release]
    rw [releaseAll]
    split
    · next hnone => rw [lose_of_none hnone]
    · next e he =>
        rw [count_of_get? he] at hc
        simp [hc]

theorem release_append :
    m.release (rs ++ qs) = (m.release rs).release qs := by
  induction rs generalizing m with
  | nil => simp
  | cons r rs ih =>
      rw [List.cons_append, release_cons_descend, release_cons_descend, ih]

theorem release_cons :
    m.release (r :: rs) = (m.giveUp r).release (m.freed r ++ rs) := by
  rw [release_cons_descend, release_append]

/-- The references in nodes and those that wait. -/
def weight (m : Memory) (rs : List Ref) : Nat :=
  m.holdings + rs.length

theorem weight_giveUp (m : Memory) (r : Ref) (rs : List Ref) :
    (m.giveUp r).weight (m.freed r ++ rs) + 1 = m.weight (r :: rs) := by
  cases h : m.get? r with
  | none =>
      have hg : m.giveUp r = m := by
        rw [giveUp, h]
        exact write_none h
      have hf : m.freed r = [] := by rw [freed, h, Option.elim_none]
      simp [weight, hg, hf, Nat.add_assoc]
  | some e =>
      have htotal := total_write (fun _ e => e.node.refs.length) h
        (remains (some e))
      unfold weight holdings giveUp freed
      rw [h]
      by_cases hc : e.count = 1
      · simp only [remains, hc, if_true, Option.elim_none, Option.elim_some,
          List.length_append, List.length_cons] at htotal ⊢
        omega
      · simp only [remains, hc, if_false, Option.elim_some,
          List.nil_append, List.length_cons] at htotal ⊢
        omega

/-- It does not matter in which order references are given up. -/
theorem release_perm (h : rs.Perm qs) : m.release rs = m.release qs := by
  induction hw : m.weight rs using Nat.strongRecOn
    generalizing m rs qs with
  | ind n ih =>
      subst hw
      induction h with
      | nil => rfl
      | @cons r rs qs h _ =>
          rw [release_cons, release_cons]
          have hw := weight_giveUp m r rs
          exact ih _ (by omega) (h.append_left _) rfl
      | swap r s rs =>
          by_cases hrs : r = s
          · rw [hrs]
          · -- Each of the two is moved past what the other one has freed.
            have hw := weight_giveUp m s (r :: rs)
            have hw' := weight_giveUp m r (s :: rs)
            have hsame : m.weight (r :: s :: rs) = m.weight (s :: r :: rs) :=
              rfl
            have hs : m.release (s :: r :: rs) = ((m.giveUp s).giveUp r).release
                (m.freed r ++ (m.freed s ++ rs)) := by
              rw [release_cons, ih _ (by omega) List.perm_middle rfl,
                release_cons, freed_giveUp (Ne.symm hrs)]
            have hr : m.release (r :: s :: rs) = ((m.giveUp r).giveUp s).release
                (m.freed s ++ (m.freed r ++ rs)) := by
              rw [release_cons, ih _ (by omega) List.perm_middle rfl,
                release_cons, freed_giveUp hrs]
            rw [hs, hr, giveUp_comm hrs]
            have hw'' := weight_giveUp (m.giveUp s) r (m.freed s ++ rs)
            rw [freed_giveUp (Ne.symm hrs)] at hw''
            refine ih _ ?_ ?_ rfl
            · simp only [weight, List.length_append, List.length_cons] at *
              omega
            · rw [← List.append_assoc, ← List.append_assoc]
              exact List.perm_append_comm.append_right _
      | @trans rs qs ts h _ ih₁ ih₂ =>
          refine (ih₁ ih).trans (ih₂ ?_)
          have hw : m.weight rs = m.weight qs := by
            rw [weight, weight, h.length_eq]
          rwa [hw] at ih

/-- What is still there has not been written to. -/
theorem node?_of_release {x : Node s.kind}
    (h : (m.release rs).node? s = some x) : m.node? s = some x := by
  induction hw : m.weight rs using Nat.strongRecOn generalizing m rs with
  | ind n ih =>
      cases rs with
      | nil => rwa [release_nil] at h
      | cons r rs =>
          rw [release_cons] at h
          have hw' := weight_giveUp m r rs
          have hnode := ih _ (by omega) h rfl
          by_cases hrs : r = s
          · subst hrs
            rcases last_or_shared m r with ⟨e, he, hc⟩ | hc
            · simp [node?, giveUp_of_last he hc] at hnode
            · rw [giveUp_of_shared hc, node?, lose, get?_alter_self,
                Option.map_map] at hnode
              exact hnode
          · rwa [node?, giveUp, get?_write_of_ne _ hrs] at hnode

end SmallLisp.Memory
