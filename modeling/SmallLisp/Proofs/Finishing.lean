import SmallLisp.Proofs.Teardown

/-!
# Carrying a teardown out takes its steps

`finish` goes through the states that a teardown comes to, up to the last
one, unless one of them has more nodes being taken down than there is room
for (`finish_eq_ok`, `finish_eq_error`).
-/

namespace SmallLisp.Teardown

variable {t u v : Teardown} {m m' : Memory} {r : Ref} {jobs : List Job}
  {room depth : Nat}

/-! ## The nodes that are being taken down -/

theorem active_append (m : Memory) (js jobs : List Job) :
    active ⟨m, js ++ jobs⟩ = active ⟨m, js⟩ ++ active ⟨m, jobs⟩ :=
  List.filterMap_append

theorem active_drops (m : Memory) (rs : List Ref) :
    active ⟨m, rs.map .drop⟩ = [] := by
  simp [active]

theorem active_dismantle (m m' : Memory) {k : NodeKind} (x : Node k) :
    active ⟨m', (dismantle m x).2⟩ = [] := by
  have h := dismantled m x
  generalize (dismantle m x).1 = n, (dismantle m x).2 = jobs at h
  cases h with
  | gathered _ => rfl
  | inPlace _ => exact active_drops _ _

theorem active_drop_of_last (hc : m.count r = 1) :
    (drop m r jobs).active = r :: active ⟨m, jobs⟩ := by
  rcases Memory.last_or_shared m r with ⟨e, he, hc'⟩ | hc'
  · rw [drop_of_last he hc', active_append, active_dismantle]
    rfl
  · exact absurd hc hc'

theorem active_drop_of_shared (hc : m.count r ≠ 1) :
    (drop m r jobs).active = active ⟨m, jobs⟩ := by
  rw [drop_of_shared hc]
  rfl

theorem active_turn (w : Worklist) :
    (turn m jobs w).active = active ⟨m, jobs⟩ := by
  match w with
  | ⟨values, id :: ids⟩ => rfl
  | ⟨c :: values, []⟩ =>
      show active ⟨_, c.ref?.toList.map .drop ++ _⟩ = _
      rw [active_append, active_drops]
      rfl
  | ⟨[], []⟩ => rfl

/-! ## The steps -/

theorem Reaches.head (h : t.Reaches u) :
    u = t ∨ ∃ v, t.step = some v ∧ v.Reaches u := by
  induction h with
  | refl => exact .inl rfl
  | @next u w _ hstep ih =>
      rcases ih with rfl | ⟨v, hv, hreach⟩
      · exact .inr ⟨w, hstep, .refl⟩
      · exact .inr ⟨v, hv, .next hreach hstep⟩

/-- What `finish` has to do with the states that a teardown comes to. -/
def Finishes (room : Nat) (t : Teardown) : Except Memory Memory → Prop
  | .ok m => t.Reaches ⟨m, []⟩ ∧ ∀ u, t.Reaches u → u.active.length ≤ room
  | .error m => ∃ u v, t.Reaches u ∧ u.memory = m ∧ u.step = some v ∧
      room < v.active.length

theorem Finishes.of_step {o : Except Memory Memory} (h : t.step = some u)
    (ht : t.active.length ≤ room) (hu : Finishes room u o) :
    Finishes room t o := by
  cases o with
  | ok m =>
      obtain ⟨hend, hle⟩ := hu
      refine ⟨(Reaches.next .refl h).trans hend, fun v hv => ?_⟩
      rcases hv.head with rfl | ⟨w, hw, hreach⟩
      · exact ht
      · rw [h] at hw
        cases hw
        exact hle v hreach
  | error m =>
      obtain ⟨v, w, hreach, hrest⟩ := hu
      exact ⟨v, w, (Reaches.next .refl h).trans hreach, hrest⟩

theorem finishes (hd : t.active.length = depth) (hle : depth ≤ room) :
    Finishes room t (finish room depth t) := by
  fun_induction finish room depth t with
  | case1 depth m =>
      refine ⟨.refl, fun u hu => ?_⟩
      rcases hu.head with rfl | ⟨v, hv, -⟩
      · exact Nat.zero_le _
      · cases hv
  | case2 depth m r jobs hc hlt ih =>
      refine .of_step rfl (by omega) (ih ?_ hlt)
      rw [active_drop_of_last hc]
      exact congrArg Nat.succ hd
  | case3 depth m r jobs hc hlt =>
      refine ⟨_, _, .refl, rfl, rfl, ?_⟩
      have hroom : active ⟨m, jobs⟩ = active ⟨m, .drop r :: jobs⟩ := rfl
      rw [active_drop_of_last hc, List.length_cons, hroom]
      omega
  | case4 depth m r jobs hc ih =>
      refine .of_step rfl (by omega) (ih ?_ hle)
      rw [active_drop_of_shared hc]
      exact hd
  | case5 depth m w jobs ih =>
      refine .of_step rfl (by omega) (ih ?_ hle)
      rw [active_turn]
      exact hd
  | case6 depth m r jobs ih =>
      have hd' : (active ⟨m, jobs⟩).length + 1 = depth := hd
      exact .of_step rfl (by omega) (ih (by omega) (by omega))

theorem finishes_start (room : Nat) (m : Memory) (r : Ref) :
    Finishes room (start m r) (finish room 0 (start m r)) :=
  finishes rfl (Nat.zero_le room)

/-- A reference is given up to the end if at no time more nodes are being
taken down than there is room for. -/
theorem finish_eq_ok (h : finish room 0 (start m r) = .ok m') :
    (start m r).Reaches ⟨m', []⟩ ∧
      ∀ u, (start m r).Reaches u → u.active.length ≤ room := by
  have hfin := finishes_start room m r
  rwa [h] at hfin

/-- Otherwise it is broken off before the first node that is one too many. -/
theorem finish_eq_error (h : finish room 0 (start m r) = .error m') :
    ∃ u v, (start m r).Reaches u ∧ u.memory = m' ∧ u.step = some v ∧
      room < v.active.length := by
  have hfin := finishes_start room m r
  rwa [h] at hfin

/-- There is no room for a release that has too many nodes at some time. -/
theorem exists_finish_eq_error (h : (start m r).Reaches u)
    (hlt : room < u.active.length) :
    ∃ m', finish room 0 (start m r) = .error m' := by
  cases ho : finish room 0 (start m r) with
  | error m' => exact ⟨m', rfl⟩
  | ok m' => exact absurd ((finish_eq_ok ho).2 u h) (Nat.not_le.2 hlt)

end SmallLisp.Teardown
