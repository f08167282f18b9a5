import SmallLisp.Proofs.Contents
import SmallLisp.Proofs.Finishing
import SmallLisp.Proofs.Following

/-!
# What a process does with references

Each of the operations that the forms are written with, in terms of what is
held before and after. Copying a reference and making a node leave every node
as it is. Giving up a reference is where the process may be killed, and only
there: everything else is sequence.
-/

namespace SmallLisp.Process

open Memory

variable {p : Process} {F J : Multiset Ref} {r : Ref} {c : Cell}
  {x : Placed} {v : Value} {e : ScopeId} {name : String}

/-! ## References -/

/-- What is guarded is there. -/
theorem Holding.live (hp : p.Holding J) (h : p.memory.Guards J r) :
    ∃ x, p.memory.node? r = some x := by
  cases h with
  | held hr =>
      rw [← hp.held] at hr
      exact hp.exact.exists_node? (.inl hr)
  | through _ hx hr =>
      exact hp.exact.exists_node? (.inr ⟨_, _, hx, Node.core_subset hr⟩)

theorem Holding.share (hp : p.Holding J)
    (hr : ∃ x, p.memory.node? r = some x) :
    Holding ⟨p.state, p.memory.share r, r :: p.held, p.room⟩
      ({r} + J) := by
  obtain ⟨x, hx⟩ := hr
  obtain ⟨entry, hentry, -⟩ := Option.map_eq_some_iff.1 hx
  refine ⟨hp.exact.share hentry, hp.mirrors.share r, ?_⟩
  show ((r :: p.held : List Ref) : Multiset Ref) = {r} + J
  rw [← Multiset.cons_coe, hp.held, Multiset.singleton_add]

theorem copy_follows (hp : p.Holding J)
    (hr : ∃ x, p.memory.node? r = some x) :
    Follows F p (Run.copy r) (pure ())
      fun _ _ p' => p'.Holding ({r} + J) :=
  ⟨(), rfl, ⟨keeps_share p.memory r, rfl⟩, hp.share hr⟩

theorem copyCell_follows (hp : p.Holding J)
    (hc : ∀ r, c.ref? = some r → ∃ x, p.memory.node? r = some x) :
    Follows F p (Run.copyCell c) (pure ())
      fun _ _ p' => p'.Holding (c.claim + J) := by
  unfold Run.copyCell Cell.claim
  cases hr : c.ref? with
  | none => exact .pure (hp.of_eq (zero_add J).symm)
  | some r => exact copy_follows hp (hc r hr)

theorem copyAll_follows (rs : List Ref) (hp : p.Holding J)
    (hrs : ∀ r ∈ rs, p.memory.Guards J r) :
    Follows J p (Run.copyAll rs) (pure ())
      fun _ _ p' => p'.Holding ((rs : Multiset Ref) + J) := by
  induction rs generalizing p J with
  | nil => exact .pure (hp.of_eq (zero_add J).symm)
  | cons r rs ih =>
      obtain ⟨hr, hrs⟩ := List.forall_mem_cons.1 hrs
      refine .silent le_rfl (copy_follows hp (hp.live hr)) ?_
      intro _ p₁ h₁ hp₁
      have hle : J ≤ {r} + J := Multiset.le_add_left ..
      refine (ih hp₁ fun s hs => ?_).mono hle fun _ _ p₂ _ hp₂ => ?_
      · exact ((hrs s hs).keeps h₁.keeps).of_le hle
      · refine hp₂.of_eq ?_
        rw [← Multiset.cons_coe, ← Multiset.singleton_add]
        abel

theorem exists_coe (J : Multiset Ref) : ∃ hs : List Ref, J = hs :=
  ⟨J.toList, (Multiset.coe_toList J).symm⟩

/-- The reference is given up, with all that only it has held, or the
process is killed. -/
theorem drop_follows (hp : p.Holding ({r} + J)) :
    Follows J p (Run.drop r) (pure ()) fun _ _ p' => p'.Holding J := by
  obtain ⟨hs, rfl⟩ := exists_coe J
  have hexact : p.memory.Exact (r :: hs) :=
    hp.exact_of (Multiset.singleton_add ..)
  have hperm : p.held.Perm (r :: hs) :=
    Multiset.coe_eq_coe.1 (hp.held.trans (Multiset.singleton_add ..))
  have herase : (p.held.erase r).Perm hs := by
    have h := hperm.erase r
    rwa [List.erase_cons_head] at h
  simp only [Follows, Run.drop]
  cases hfin : Teardown.finish p.room 0 (.start p.memory r) with
  | ok m =>
      obtain ⟨hend, -⟩ := Teardown.finish_eq_ok hfin
      refine ⟨(), rfl, ⟨?_, rfl⟩, ?_, ?_, ?_⟩
      · exact Teardown.keeps_of_reaches hexact (fun s hs => hs) hend
      · exact (hend.exact_of_end hexact).perm herase.symm
      · exact hp.mirrors.of_end hexact hend
      · exact Multiset.coe_eq_coe.2 herase
  | error m =>
      obtain ⟨t, u, ht, hm, hstep, hlt⟩ := Teardown.finish_eq_error hfin
      refine ⟨p.memory, r, t, u, ?_, hp.mirrors, ht, hm, hstep, hlt⟩
      exact hexact.perm (herase.symm.cons r)

theorem dropAll_follows (rs : List Ref)
    (hp : p.Holding ((rs : Multiset Ref) + J)) :
    Follows J p (Run.dropAll rs) (pure ()) fun _ _ p' => p'.Holding J := by
  induction rs generalizing p with
  | nil => exact .pure (hp.of_eq (zero_add J))
  | cons r rs ih =>
      have hp' : p.Holding ({r} + ((rs : Multiset Ref) + J)) := by
        refine hp.of_eq ?_
        rw [← Multiset.cons_coe, ← Multiset.singleton_add, add_assoc]
      exact .silent (Multiset.le_add_left ..) (drop_follows hp')
        fun _ p₁ _ hp₁ => ih hp₁

theorem dropCell_follows (hp : p.Holding (c.claim + J)) :
    Follows J p (Run.dropCell c) (pure ()) fun _ _ p' => p'.Holding J := by
  unfold Run.dropCell
  unfold Cell.claim at hp
  cases hr : c.ref? with
  | none =>
      rw [hr] at hp
      exact .pure (hp.of_eq (zero_add J))
  | some r =>
      rw [hr] at hp
      exact drop_follows hp

/-- References that can be given up while a value is held. -/
def Drops (K : Multiset Ref) (d : Run Unit) : Prop :=
  ∀ {p : Process} {J : Multiset Ref}, p.Holding (K + J) →
    Follows J p d (pure ()) fun _ _ p' => p'.Holding J

theorem drops_ref (r : Ref) : Drops {r} (Run.drop r) :=
  fun hp => drop_follows hp

theorem drops_refs (rs : List Ref) : Drops rs (Run.dropAll rs) :=
  fun hp => dropAll_follows rs hp

theorem drops_cell (c : Cell) : Drops c.claim (Run.dropCell c) :=
  fun hp => dropCell_follows hp

theorem Yields.drop_follows {K : Multiset Ref} {d : Run Unit}
    (h : Yields (K + J) x v p) (hd : Drops K d) :
    Follows J p d (pure ()) fun _ _ p' => Yields J x v p' := by
  have hp : p.Holding (K + (x.claim + J)) :=
    h.holding.of_eq (add_left_comm ..)
  refine (hd hp).mono (Multiset.le_add_left ..) fun _ _ p' hlead hp' => ?_
  have hanchored : p.memory.Anchored (x.claim + J) x :=
    .of_claim h.reads (Multiset.le_add_right ..)
  exact ⟨h.value, (hanchored.keeps hlead.keeps).reads, hp'⟩

/-! ## Nodes that are made -/

theorem coe_foldl_erase (held rs : List Ref) :
    ((rs.foldl List.erase held : List Ref) : Multiset Ref) =
      (held : Multiset Ref) - rs := by
  rw [← List.diff_eq_foldl, Multiset.coe_sub]

/-- A node is added, and what it holds has been held outside. -/
theorem Holding.add {k : NodeKind} {n : Node k} {s : State}
    (hp : p.Holding ((n.refs : Multiset Ref) + J))
    (hm : (p.memory.add n).Mirrors s.store) :
    Holding ⟨s, p.memory.add n,
      p.memory.next k :: n.refs.reverse.foldl List.erase p.held, p.room⟩
      ({p.memory.next k} + J) := by
  obtain ⟨hs, rfl⟩ := exists_coe J
  have hexact : p.memory.Exact (n.refs ++ hs) :=
    hp.exact_of (Multiset.coe_add ..)
  have hheld : ((n.refs.reverse.foldl List.erase p.held : List Ref) :
      Multiset Ref) = hs := by
    rw [coe_foldl_erase, hp.held, Multiset.coe_reverse]
    exact add_tsub_cancel_left ..
  refine ⟨hexact.add.perm ?_, hm, ?_⟩
  · exact (Multiset.coe_eq_coe.1 hheld).symm.cons _
  · show ((_ :: _ : List Ref) : Multiset Ref) = _
    rw [← Multiset.cons_coe, hheld, Multiset.singleton_add]

theorem make_list_follows {cs : List Cell}
    (hp : p.Holding (Cell.claims cs + J)) :
    Follows F p (Run.make (.list cs)) (pure ()) fun id _ p' =>
      p'.memory.node? ⟨.list, id⟩ = some (.list cs) ∧
        p'.Holding ({⟨.list, id⟩} + J) := by
  refine ⟨(), rfl, ⟨keeps_add _, rfl⟩, node?_add_next _, ?_⟩
  exact Holding.add (n := .list cs) hp (hp.mirrors.add_list cs)

/-- A list of values that are held. -/
theorem gather_follows {xs : List Placed} {vs : List Value}
    (hxs : YieldsAll J xs vs p) :
    Follows F p (Run.gather xs) (pure (.list vs)) (Yields J) := by
  refine .silent (Multiset.le_add_left F (Placed.claims xs))
    (make_list_follows hxs.holding) fun id p₁ h₁ hmade => ?_
  obtain ⟨hnode, hp₁⟩ := hmade
  refine .pure ⟨congrArg Value.list hxs.values, .list hnode ?_, hp₁⟩
  refine hxs.reads.keeps (fun c hc r hr => .held ?_) h₁.keeps
  exact Multiset.mem_add.2 (.inl (List.mem_filterMap.2 ⟨c, hc, hr⟩))

/-- A value that has no lambda inside it. -/
def Fresh (v : Value) : Prop :=
  v.Only (fun _ => False) fun _ => True

theorem mem_claims {cs : List Cell} (hc : c ∈ cs) (hr : c.ref? = some r) :
    r ∈ Cell.claims cs :=
  List.mem_filterMap.2 ⟨c, hc, hr⟩

/-- What is read at cells that are held is read there later on. -/
theorem Leads.readsAll {p' : Process} {cs : List Cell} {vs : List Value}
    (h : Leads (Cell.claims cs + J) p p')
    (hcs : p.memory.ReadsAll cs vs) : p'.memory.ReadsAll cs vs := by
  refine hcs.keeps (fun c hc r hr => .held ?_) h.keeps
  exact Multiset.mem_add.2 (.inl (mem_claims hc hr))

mutual

/-- The nodes of a value that is not kept anywhere yet. -/
theorem load_follows {p : Process} {J : Multiset Ref} (hp : p.Holding J) :
    (v : Value) → Fresh v → Follows J p (Run.load v) (pure ()) fun c _ p' =>
      p'.memory.Reads c v ∧ p'.Holding (c.claim + J)
  | .nil, _ | .bool _, _ | .int _, _ | .float _, _ | .str _, _
  | .symbol _, _ | .builtin _, _ =>
      .pure ⟨.plain _, hp.of_eq (zero_add J).symm⟩
  | .list vs, hv => by
      have hp₀ : p.Holding (Cell.claims [] + J) := hp.of_eq (zero_add J).symm
      have hloaded := loadFrom_follows hp₀ .nil vs (Value.only_list.1 hv)
      refine .silent (Multiset.le_add_left J (Cell.claims [])) hloaded ?_
      intro cs p₁ _ hcs
      obtain ⟨hreads, hp₁⟩ := hcs
      refine .silent (Multiset.le_add_left J (Cell.claims cs))
        (make_list_follows hp₁) fun id p₂ h₂ hmade => ?_
      exact .pure ⟨.list hmade.1 (h₂.readsAll hreads), hmade.2⟩
  | .lambda f, hv => (Value.only_lambda.1 hv).1.elim

/-- The nodes of values, when those of some have been made. -/
theorem loadFrom_follows {p : Process} {J : Multiset Ref}
    {found : List Cell} {us : List Value}
    (hp : p.Holding (Cell.claims found + J))
    (hfound : p.memory.ReadsAll found us) :
    (vs : List Value) → (∀ v ∈ vs, Fresh v) →
      Follows (Cell.claims found + J) p (Run.loadFrom found vs) (pure ())
        fun cs _ p' => p'.memory.ReadsAll cs (us.reverse ++ vs) ∧
          p'.Holding (Cell.claims cs + J)
  | [], _ => by
      refine .pure ⟨?_, hp.of_eq ?_⟩
      · rw [List.append_nil]
        exact hfound.reverse
      · rw [Cell.claims_reverse]
  | v :: vs, h => by
      obtain ⟨hv, hvs⟩ := List.forall_mem_cons.1 h
      refine .silent le_rfl (load_follows hp v hv) fun c p₁ h₁ hc => ?_
      obtain ⟨hc, hp₁⟩ := hc
      have hp₁ : p₁.Holding (Cell.claims (c :: found) + J) :=
        hp₁.of_eq (by rw [Cell.claims_cons, add_assoc])
      have hfound₁ := Memory.ReadsAll.cons hc (h₁.readsAll hfound)
      have hle : Cell.claims found + J ≤ Cell.claims (c :: found) + J := by
        rw [Cell.claims_cons, add_assoc]
        exact Multiset.le_add_left ..
      refine (loadFrom_follows hp₁ hfound₁ vs hvs).mono hle ?_
      intro cs _ p₂ _ hcs
      rwa [List.reverse_cons, List.append_assoc] at hcs

end

/-! ## Scopes -/

theorem Holding.next_scope (hp : p.Holding J) :
    p.memory.next .scope = ⟨.scope, p.state.store.scopes.size⟩ := by
  rw [next, hp.mirrors.scopes]

theorem openScope_follows {parent : Option ScopeId} (hp : p.Holding J)
    (hparent : ∀ q, parent = some q → p.memory.Guards J ⟨.scope, q⟩) :
    Follows J p (Run.openScope parent) (Eval.newScope parent)
      fun e e' p' => e = e' ∧ p'.Holding ({⟨.scope, e⟩} + J) := by
  cases parent with
  | none =>
      refine ⟨_, rfl, ⟨keeps_add _, rfl⟩, rfl, ?_⟩
      rw [← hp.next_scope]
      exact Holding.add (n := .scope [] none)
        (hp.of_eq (zero_add J).symm) (hp.mirrors.add_scope none)
  | some q =>
      have hp' := hp.share (hp.live (hparent q rfl))
      have hnext : (p.memory.share ⟨.scope, q⟩).next .scope =
          ⟨.scope, p.state.store.scopes.size⟩ := hp'.next_scope
      refine ⟨_, rfl, ⟨?_, rfl⟩, rfl, ?_⟩
      · exact (keeps_share _ _).trans (keeps_add _)
      · rw [← hnext]
        have hm := hp'.mirrors.add_scope (some q)
        exact hp'.add (n := .scope [] (some q)) (s := { p.state with
          store := p.state.store.addScope (some q) }) hm

/-- A value is moved into a scope, and those that it replaces are held
instead. -/
theorem Holding.bind {st : State} {bindings : List (String × Cell)}
    {parent : Option Nat} {n : Nat} (hp : p.Holding (c.claim + J))
    (hm : (p.memory.bind e name c).Mirrors st.store)
    (hget : p.memory.get? ⟨.scope, e⟩ = some ⟨n, .scope bindings parent⟩) :
    Holding ⟨st, p.memory.bind e name c,
      Cell.refs ((bindings.filter (·.1 = name)).map Prod.snd) ++
        (Cell.refs [c]).foldl List.erase p.held, p.room⟩
      (Cell.claims ((bindings.filter (·.1 = name)).map Prod.snd) + J) := by
  obtain ⟨hs, rfl⟩ := exists_coe J
  have hexact : p.memory.Exact (c.ref?.toList ++ hs) :=
    hp.exact_of (Multiset.coe_add ..)
  have hheld : (((Cell.refs [c]).foldl List.erase p.held : List Ref) :
      Multiset Ref) = hs := by
    rw [coe_foldl_erase, hp.held, Cell.refs_cons, Cell.refs_nil,
      List.append_nil]
    exact add_tsub_cancel_left ..
  refine ⟨(hexact.bind name hget).perm ?_, hm, ?_⟩
  · exact (Multiset.coe_eq_coe.1 hheld).symm.append_left _
  · show ((_ ++ _ : List Ref) : Multiset Ref) = _
    rw [← Multiset.coe_add, hheld]
    rfl

/-- A value is moved into a scope of which the store has been changed
already. -/
theorem bind_follows {st : State} (hp : p.Holding (c.claim + J))
    (hm : (p.memory.bind e name c).Mirrors st.store)
    (he : p.memory.Guards J ⟨.scope, e⟩) :
    Follows J ⟨st, p.memory, p.held, p.room⟩ (Run.bind e name c) (pure ())
      fun _ _ p' => p'.Holding J := by
  obtain ⟨x, hx⟩ := hp.live (he.of_le (Multiset.le_add_left ..))
  cases x with
  | scope bindings parent =>
      obtain ⟨⟨n, x⟩, hget, hnode⟩ := Option.map_eq_some_iff.1 hx
      cases hnode
      have hbindings : p.memory.bindings e = bindings := by
        simp [Memory.bindings, hget]
      refine .start ⟨st, p.memory.bind e name c, _, p.room⟩ ?_ rfl
        ⟨keeps_bind, rfl⟩ (dropAll_follows _ (hp.bind hm hget))
      rw [← hbindings]
      rfl

theorem define_follows (hp : p.Holding (x.claim + J))
    (hx : p.memory.Reads x.cell x.value)
    (he : p.memory.Guards J ⟨.scope, e⟩) :
    Follows J p (Run.define e name x) (Eval.define e name x.value)
      fun _ _ p' => p'.Holding J :=
  .start ⟨{ p.state with store := p.state.store.define e name x.value },
      p.memory, p.held, p.room⟩ rfl rfl ⟨.refl J p.memory, rfl⟩
    (bind_follows hp (hp.mirrors.bind e name hx) he)

theorem assign_follows (hp : p.Holding (x.claim + J))
    (hx : p.memory.Reads x.cell x.value)
    (he : p.memory.Guards J ⟨.scope, e⟩) :
    Follows J p (Run.assign e name x) (Eval.assign e name x.value)
      fun _ _ p' => p'.Holding J := by
  have hle : J ≤ x.claim + J := Multiset.le_add_left ..
  have hsought := sought hp.exact hp.mirrors name (e + 1)
    (hp.live (he.of_le hle))
  rw [← bind_pure (Eval.assign e name x.value)]
  refine .plainly (fun _ st hst => ?_) fun a st hst => ?_
  · cases hfound : p.memory.findWithin name (e + 1) e with
    | none =>
        rw [hfound] at hsought
        simp [Eval.assign, Store.assign?, hsought.2] at hst
    | some f =>
        obtain ⟨owner, cell⟩ := f
        rw [hfound] at hsought
        obtain ⟨v, hv⟩ := hsought
        simp only [Eval.assign, Store.assign?, hv.assign] at hst
        cases hst
        refine .look ?_
        simp only [find?, hfound]
        exact bind_follows hp (hp.mirrors.bind owner name hx)
          (hv.guards J he)
  · have hst' : st = p.state := by
      unfold Eval.assign at hst
      split at hst
      · cases hst
      · cases hst
        rfl
    subst hst'
    exact ⟨_, hp, hle⟩

theorem lookup_follows (hp : p.Holding J)
    (he : p.memory.Guards J ⟨.scope, e⟩) :
    Follows J p (Run.lookup e name) (Eval.lookup e name) (Yields J) := by
  have hsought := sought hp.exact hp.mirrors name (e + 1) (hp.live he)
  rw [← bind_pure (Eval.lookup e name)]
  refine .plainly (fun v st hst => ?_) fun a st hst => ?_
  · cases hfound : p.memory.findWithin name (e + 1) e with
    | none =>
        rw [hfound] at hsought
        simp [Eval.lookup, Store.get?, hsought.1] at hst
    | some f =>
        obtain ⟨owner, cell⟩ := f
        rw [hfound] at hsought
        obtain ⟨w, hw⟩ := hsought
        simp only [Eval.lookup, Store.get?, hw.get] at hst
        cases hst
        refine .look ?_
        simp only [find?, hfound, Option.elim_some]
        refine .silent (J := cell.claim + J) (Multiset.le_add_left ..)
          (copyCell_follows hp fun r hr => ?_) fun _ p₁ h₁ hp₁ => ?_
        · exact hp.exact.exists_node? (.inr ⟨_, hw.holds r hr⟩)
        · refine .pure ⟨rfl, ?_, hp₁⟩
          refine hw.reads.keeps (fun r hr => ?_) h₁.keeps
          exact .of_claim (Multiset.le_add_right ..) hr
  · have hst' : st = p.state := by
      unfold Eval.lookup at hst
      split at hst
      · cases hst
      · cases hst
        rfl
    subst hst'
    exact ⟨_, hp, le_rfl⟩

end SmallLisp.Process
