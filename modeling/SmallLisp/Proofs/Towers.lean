import SmallLisp.Proofs.Counting
import SmallLisp.Proofs.Finishing

/-!
# Lists that hold the same element twice

A list that holds an element twice owns it in neither place, even if nothing
else holds it. So it gives up the one reference and then the other one, and
the end of the element comes while the list waits for it. In a tower of such
lists, each of them twice in the next one, all are waiting when the end of
the lowest one comes (`exists_reaches_of_tower`).
-/

namespace SmallLisp

namespace Memory

variable {m m' : Memory} {r : Ref} {height n id : Nat}

/-- What a list of a tower holds. -/
def pair (id : Nat) : Node .list :=
  .list [.list id, .list id]

/-- A tower of lists up to one that has been counted `n` times: each holds
the one below twice, and there are no other references to that one. What
stands at the bottom may be anything. -/
inductive Tower (m : Memory) : (height n id : Nat) → Prop where
  | ground {n id : Nat} : Tower m 0 n id
  | level {height n id below : Nat} (hlt : below < id)
      (h : m.get? ⟨.list, id⟩ = some ⟨n, pair below⟩)
      (hbelow : Tower m height 2 below) : Tower m (height + 1) n id

theorem list_ne_of_lt {i : Nat} (h : i < id) :
    (⟨.list, id⟩ : Ref) ≠ ⟨.list, i⟩ := by
  intro heq
  cases heq
  exact Nat.lt_irrefl _ h

/-- Lists that were made later do not matter. -/
theorem Tower.congr (h : m.Tower height n id)
    (heq : ∀ i ≤ id, m'.get? ⟨.list, i⟩ = m.get? ⟨.list, i⟩) :
    m'.Tower height n id := by
  induction h with
  | ground => exact .ground
  | @level _ _ id below hlt h _ ih =>
      refine .level hlt ((heq id (Nat.le_refl id)).trans h) (ih ?_)
      exact fun i hi => heq i (Nat.le_trans hi (Nat.le_of_lt hlt))

theorem Tower.alter {f : Entry .list → Entry .list} {k : Nat}
    (h : m.Tower height n id) (hf : ∀ x, f ⟨n, x⟩ = ⟨k, x⟩) :
    (m.alter ⟨.list, id⟩ f).Tower height k id := by
  cases h with
  | ground => exact .ground
  | @level _ _ _ below hlt h hbelow =>
      refine .level hlt ?_ (hbelow.congr fun i hi => ?_)
      · rw [get?_alter_self, h]
        exact congrArg some (hf _)
      · have hne := list_ne_of_lt (Nat.lt_of_le_of_lt hi hlt)
        rw [get?_alter_of_ne _ hne]

theorem Tower.share (h : m.Tower height n id) :
    (m.share ⟨.list, id⟩).Tower height (n + 1) id :=
  h.alter fun _ => rfl

theorem Tower.lose (h : m.Tower height (n + 1) id) :
    (m.lose ⟨.list, id⟩).Tower height n id :=
  h.alter fun _ => rfl

/-! The next list is behind all others. -/

theorem lt_next_of_get? {x : Entry .list}
    (h : m.get? ⟨.list, id⟩ = some x) : id < (m.next .list).id :=
  lt_of_get? h

theorem get?_add_list (x : Node .list) :
    (m.add x).get? ⟨.list, (m.next .list).id⟩ = some ⟨1, x⟩ :=
  get?_add_next x

theorem get?_lose_above {i : Nat} (h : id < i) :
    (m.lose ⟨.list, id⟩).get? ⟨.list, i⟩ = m.get? ⟨.list, i⟩ := by
  have hne := (list_ne_of_lt h).symm
  rw [Memory.lose, get?_alter_of_ne _ hne]

/-- A tower is left as it is where an empty list is changed, or a node of
another kind. -/
theorem Tower.alter_of_ne {f : Entry r.kind → Entry r.kind}
    (h : m.Tower height n id)
    (hr : ∀ i below k, m.get? ⟨.list, i⟩ = some ⟨k, pair below⟩ →
      r ≠ ⟨.list, i⟩) : (m.alter r f).Tower height n id := by
  induction h with
  | ground => exact .ground
  | level hlt h _ ih =>
      exact .level hlt ((get?_alter_of_ne f (hr _ _ _ h)).trans h) ih

theorem Tower.bind {e : Nat} {name : String} {c : Cell}
    (h : m.Tower height n id) : (m.bind e name c).Tower height n id :=
  h.alter_of_ne fun _ _ _ _ => nofun

theorem Tower.share_empty {k : Nat} (h : m.Tower height n id)
    (hk : m.node? ⟨.list, k⟩ = some (.list [])) :
    (m.share ⟨.list, k⟩).Tower height n id := by
  refine h.alter_of_ne fun i below count hi heq => ?_
  cases heq
  rw [node?, hi] at hk
  cases hk

theorem Tower.add (x : Node .list) (h : m.Tower height n id)
    (hlt : id < (m.next .list).id) : (m.add x).Tower height n id :=
  h.congr fun _ hi =>
    get?_add_of_ne _ (list_ne_of_lt (Nat.lt_of_le_of_lt hi hlt))

end Memory

namespace Teardown

open Memory

variable {m : Memory} {height id : Nat}

/-- The end of a list leads to that of the list below: the first of its two
references is given up, and then the last one. -/
theorem reaches_below {below : Nat} (hlt : below < id)
    (h : m.get? ⟨.list, id⟩ = some ⟨1, pair below⟩)
    (hc : m.count ⟨.list, below⟩ = 2) (jobs : List Job) :
    Reaches ⟨m, .drop ⟨.list, id⟩ :: jobs⟩
      ⟨(m.erase ⟨.list, id⟩).lose ⟨.list, below⟩,
        .drop ⟨.list, below⟩ :: .done ⟨.list, id⟩ :: jobs⟩ := by
  have hcount : (m.erase ⟨.list, id⟩).count ⟨.list, below⟩ = 2 := by
    rw [count, get?_erase_of_ne (list_ne_of_lt hlt)]
    exact hc
  have hfirst : drop m ⟨.list, id⟩ jobs =
      ⟨m.erase ⟨.list, id⟩, .drop ⟨.list, below⟩ :: .drop ⟨.list, below⟩ ::
        .done ⟨.list, id⟩ :: jobs⟩ := by
    rw [drop_of_last h rfl]
    simp [pair, dismantle, Worklist.owns, Cell.ref?, hcount, Cell.refs]
  refine .next (.next .refl (congrArg some hfirst)) (congrArg some ?_)
  exact drop_of_shared (by rw [hcount]; decide)

/-- When the end of what is below a tower begins, all its lists are being
taken down. -/
theorem exists_reaches_of_tower (h : m.Tower height 1 id)
    (jobs : List Job) :
    ∃ t, Reaches ⟨m, .drop ⟨.list, id⟩ :: jobs⟩ t ∧
      t.active.length = height + (active ⟨m, jobs⟩).length := by
  induction height generalizing m id jobs with
  | zero => exact ⟨_, .refl, (Nat.zero_add _).symm⟩
  | succ height ih =>
      cases h with
      | @level _ _ _ below hlt h hbelow =>
          have hc := count_of_get? h
          cases hbelow with
          | ground =>
              refine ⟨_, .next .refl rfl, ?_⟩
              rw [active_drop_of_last hc, List.length_cons, Nat.add_comm]
          | level hlt' h' hbelow' =>
              have hreach := reaches_below hlt h (count_of_get? h') jobs
              have hgone : (m.erase ⟨.list, id⟩).Tower _ 2 below :=
                (Tower.level hlt' h' hbelow').congr fun i hi =>
                  get?_erase_of_ne (list_ne_of_lt (Nat.lt_of_le_of_lt hi hlt))
              obtain ⟨t, ht, hactive⟩ :=
                ih hgone.lose (.done ⟨.list, id⟩ :: jobs)
              refine ⟨t, hreach.trans ht, hactive.trans ?_⟩
              show _ + ((active ⟨m, jobs⟩).length + 1) = _
              omega

end Teardown

end SmallLisp
