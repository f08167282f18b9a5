import SmallLisp.Proofs.Counting
import SmallLisp.Proofs.Releasing

/-!
# A teardown gives back what release by descent does

A teardown handles references that it holds: those that jobs are to give
up, and those that wait on worklists. `Acts` says what a step can do with
them. To give up a shared reference, and to exchange the last one to a node
for those that the node holds, are the two cases of release by descent. The
third thing is that what a node holds is moved out while the node is still
there. This is done only to a node with one reference, which is held itself
or kept by a node of which that is true: a lambda that has been emptied
still keeps its scope. So the node is about to go, what was moved out would
be given up then, and the order makes no difference (`release_perm`).

What release by descent makes of the references that are held is therefore
the same in every state of a run (`Acts.release_eq`), and so is that counts
are exact (`Acts.exact`). Both are read off at the end, when nothing is held
any more. There is an end because every step makes `Teardown.weight` less.
-/

namespace SmallLisp

namespace Memory

variable {m m' m'' : Memory} {r s : Ref} {rs rs' ks ks' hs hs' : List Ref}

/-! ## What a teardown does to references that are at hand -/

/-- A node is at hand if a reference to it is held, or is all that keeps
it from a reference that is: it is held by a node that has no other
holder. -/
def AtHand (m : Memory) (hs : List Ref) (s : Ref) : Prop :=
  s ∈ hs ∨ ∃ r ∈ hs, r ≠ s ∧ ∃ f, m.get? r = some f ∧ f.count = 1 ∧
    s ∈ f.node.refs

/-- What can be done with the references that are held: a shared one is
given up; the last one to a node is given up, and those that the node holds
are held instead; what a node at hand holds is moved out of it, if there is
just one reference to the node. -/
inductive Acts : Memory → List Ref → Memory → List Ref → Prop where
  | perm {m : Memory} {hs hs' : List Ref} (h : hs.Perm hs') :
      Acts m hs m hs'
  | lose {m : Memory} {r : Ref} {hs : List Ref} (h : m.count r ≠ 1) :
      Acts m (r :: hs) (m.lose r) hs
  | free {m : Memory} {r : Ref} {hs : List Ref} {e : Entry r.kind}
      (he : m.get? r = some e) (hc : e.count = 1) :
      Acts m (r :: hs) (m.erase r) (e.node.refs ++ hs)
  | hollow {m : Memory} {s : Ref} {hs out : List Ref} {e : Entry s.kind}
      (he : m.get? s = some e) (hc : e.count = 1) (hat : m.AtHand hs s)
      (hout : e.node.refs = out ++ e.node.hollow.refs) :
      Acts m hs (m.hollow s) (out ++ hs)
  | trans {m m' m'' : Memory} {hs hs' hs'' : List Ref}
      (h : Acts m hs m' hs') (h' : Acts m' hs' m'' hs'') :
      Acts m hs m'' hs''

theorem Acts.refl (m : Memory) (hs : List Ref) : Acts m hs m hs :=
  .perm (.refl _)

theorem Acts.exact (h : Acts m hs m' hs') (hm : m.Exact hs) :
    m'.Exact hs' := by
  induction h with
  | perm h => exact hm.perm h
  | lose _ => exact hm.lose
  | free he hc => exact hm.erase he hc
  | hollow he _ _ hout => exact hm.hollow he hout
  | trans _ _ ih ih' => exact ih' (ih hm)

theorem release_of_last {e : Entry r.kind} (he : m.get? r = some e)
    (hc : e.count = 1) :
    m.release (r :: hs) = (m.erase r).release (e.node.refs ++ hs) := by
  rw [release_cons, giveUp_of_last he hc, freed_of_last he hc]

/-- Moving references out of a node to which the only reference is held
makes no difference: they would be next. -/
theorem release_hollow_of_mem {e : Entry s.kind} {out : List Ref}
    (he : m.get? s = some e) (hc : e.count = 1) (hs' : s ∈ hs)
    (hout : e.node.refs = out ++ e.node.hollow.refs) :
    m.release hs = (m.hollow s).release (out ++ hs) := by
  have hp := List.perm_cons_erase hs'
  have hget : (m.hollow s).get? s =
      some { e with node := e.node.hollow } := by
    rw [Memory.hollow, get?_alter_self, he, Option.map_some]
  have herase : (m.hollow s).erase s = m.erase s := by
    rw [Memory.hollow, alter_eq he]
    exact write_write ..
  calc m.release hs
      = (m.erase s).release (e.node.refs ++ hs.erase s) := by
        rw [release_perm hp, release_of_last he hc]
    _ = (m.erase s).release
          (e.node.hollow.refs ++ (out ++ hs.erase s)) := by
        rw [hout, ← List.append_assoc]
        exact release_perm (List.perm_append_comm.append_right _)
    _ = (m.hollow s).release (s :: (out ++ hs.erase s)) := by
        rw [release_of_last hget hc, herase]
    _ = (m.hollow s).release (out ++ hs) :=
        release_perm (List.perm_middle.symm.trans (hp.symm.append_left _))

theorem release_hollow {e : Entry s.kind} {out : List Ref}
    (he : m.get? s = some e) (hc : e.count = 1) (hat : m.AtHand hs s)
    (hout : e.node.refs = out ++ e.node.hollow.refs) :
    m.release hs = (m.hollow s).release (out ++ hs) := by
  rcases hat with hs' | ⟨r, hr, hrs, f, hf, hfc, hsf⟩
  · exact release_hollow_of_mem he hc hs' hout
  · -- The holder is given up first; then the reference to `s` is held.
    have hp := List.perm_cons_erase hr
    have hget : (m.hollow s).get? r = some f := by
      rw [Memory.hollow, get?_alter_of_ne _ hrs.symm, hf]
    have he' : (m.erase r).get? s = some e := by
      rw [get?_erase_of_ne hrs, he]
    have hcomm : (m.erase r).hollow s = (m.hollow s).erase r := by
      rw [Memory.hollow, Memory.hollow, alter_eq he', alter_eq he]
      exact write_comm hrs ..
    calc m.release hs
        = (m.erase r).release (f.node.refs ++ hs.erase r) := by
          rw [release_perm hp, release_of_last hf hfc]
      _ = ((m.hollow s).erase r).release
            (out ++ (f.node.refs ++ hs.erase r)) := by
          rw [release_hollow_of_mem he' hc (List.mem_append_left _ hsf) hout,
            hcomm]
      _ = ((m.hollow s).erase r).release
            (f.node.refs ++ (out ++ hs.erase r)) := by
          rw [← List.append_assoc, ← List.append_assoc]
          exact release_perm (List.perm_append_comm.append_right _)
      _ = (m.hollow s).release (r :: (out ++ hs.erase r)) :=
          (release_of_last hget hfc).symm
      _ = (m.hollow s).release (out ++ hs) :=
          release_perm (List.perm_middle.symm.trans (hp.symm.append_left _))

/-- What release by descent makes of it stays the same. -/
theorem Acts.release_eq (h : Acts m hs m' hs') :
    m.release hs = m'.release hs' := by
  induction h with
  | perm h => exact release_perm h
  | lose hc =>
      rw [release_cons, giveUp_of_shared hc, freed_of_shared hc,
        List.nil_append]
  | free he hc => exact release_of_last he hc
  | hollow he hc hat hout => exact release_hollow he hc hat hout
  | trans _ _ ih ih' => exact ih.trans ih'

/-! ## The worklist takes over references -/

/-- References are sorted one after the other into those that are the last
ones to their nodes, which are kept, and the others, which are given up. -/
inductive Sorts : Memory → List Ref → Memory → List Ref → Prop where
  | nil {m : Memory} : Sorts m [] m []
  | keep {m m' : Memory} {r : Ref} {rs ks : List Ref}
      (hc : m.count r = 1) (h : Sorts m rs m' ks) :
      Sorts m (r :: rs) m' (r :: ks)
  | lose {m m' : Memory} {r : Ref} {rs ks : List Ref}
      (hc : m.count r ≠ 1) (h : Sorts (m.lose r) rs m' ks) :
      Sorts m (r :: rs) m' ks

theorem Sorts.append (h : Sorts m rs m' ks) (h' : Sorts m' rs' m'' ks') :
    Sorts m (rs ++ rs') m'' (ks ++ ks') := by
  induction h with
  | nil => exact h'
  | keep hc _ ih => exact .keep hc (ih h')
  | lose hc _ ih => exact .lose hc (ih h')

theorem Sorts.acts (h : Sorts m rs m' ks) (hs : List Ref) :
    Acts m (rs ++ hs) m' (ks ++ hs) := by
  induction h generalizing hs with
  | nil => exact .refl _ _
  | @keep m m' r rs ks _ _ ih =>
      -- The reference that is kept waits behind the others meanwhile.
      have hin : (r :: rs ++ hs).Perm (rs ++ r :: hs) := List.perm_middle.symm
      have hout : (ks ++ r :: hs).Perm (r :: ks ++ hs) := List.perm_middle
      exact (Acts.perm hin).trans ((ih _).trans (.perm hout))
  | lose hc _ ih => exact (Acts.lose hc).trans (ih hs)

theorem Sorts.length_le (h : Sorts m rs m' ks) :
    ks.length ≤ rs.length := by
  induction h with
  | nil => exact Nat.le_refl _
  | keep _ _ ih => exact Nat.succ_le_succ ih
  | lose _ _ ih => exact Nat.le_succ_of_le ih

/-- A reference that is given up in passing changes no node. -/
theorem node?_lose (m : Memory) (r s : Ref) :
    (m.lose r).node? s = m.node? s := by
  unfold node? Memory.lose
  by_cases hrs : r = s
  · subst hrs
    rw [get?_alter_self, Option.map_map]
    rfl
  · rw [get?_alter_of_ne _ hrs]

theorem Sorts.node?_eq (h : Sorts m rs m' ks) (s : Ref) :
    m'.node? s = m.node? s := by
  induction h with
  | nil => rfl
  | keep _ _ ih => exact ih
  | lose _ _ ih => rw [ih, node?_lose]

/-- A node with one reference is not touched while others are sorted. -/
theorem Sorts.get?_eq {e : Entry s.kind} (h : Sorts m rs m' ks)
    (he : m.get? s = some e) (hc : e.count = 1) : m'.get? s = some e := by
  induction h with
  | nil => exact he
  | keep _ _ ih => exact ih he
  | @lose m m' r rs ks hr _ ih =>
      have hrs : r ≠ s := by
        rintro rfl
        exact hr ((count_of_get? he).trans hc)
      refine ih ?_
      rw [Memory.lose, get?_alter_of_ne _ hrs, he]

end Memory

namespace Worklist

open Memory

variable {m m' m'' : Memory} {w w' w'' : Worklist} {r s : Ref}
  {rs rs' hs : List Ref}

/-- A worklist takes references over: those that are the last ones to their
nodes wait on it afterwards. -/
def Takes (m : Memory) (w : Worklist) (rs : List Ref) (m' : Memory)
    (w' : Worklist) : Prop :=
  ∃ ks, Sorts m rs m' ks ∧ w'.refs.Perm (ks ++ w.refs)

theorem Takes.refl (m : Memory) (w : Worklist) : Takes m w [] m w :=
  ⟨[], .nil, .refl _⟩

theorem Takes.append (h : Takes m w rs m' w') (h' : Takes m' w' rs' m'' w'') :
    Takes m w (rs ++ rs') m'' w'' := by
  obtain ⟨ks, hsorts, hp⟩ := h
  obtain ⟨ks', hsorts', hp'⟩ := h'
  refine ⟨ks ++ ks', hsorts.append hsorts', ?_⟩
  refine hp'.trans ((hp.append_left _).trans ?_)
  rw [← List.append_assoc]
  exact List.perm_append_comm.append_right _

theorem Takes.acts (h : Takes m w rs m' w') (hs : List Ref) :
    Acts m (rs ++ (w.refs ++ hs)) m' (w'.refs ++ hs) := by
  obtain ⟨ks, hsorts, hp⟩ := h
  refine (hsorts.acts _).trans (.perm ?_)
  rw [← List.append_assoc]
  exact hp.symm.append_right _

theorem takes_pushValue (m : Memory) (w : Worklist) (c : Cell) :
    Takes m w c.ref?.toList (pushValue m w c).1 (pushValue m w c).2 := by
  unfold pushValue owns
  cases hr : c.ref? with
  | none => exact .refl _ _
  | some r =>
      by_cases hc : m.count r = 1
      · simp only [hc, beq_self_eq_true, if_true]
        exact ⟨[r], .keep hc .nil, by simp [Worklist.refs, hr]⟩
      · simp only [hc, beq_iff_eq, if_false]
        exact ⟨[], .lose hc .nil, .refl _⟩

theorem takes_pushValues (m : Memory) (w : Worklist) (cs : List Cell) :
    Takes m w (Cell.refs cs) (pushValues m w cs).1 (pushValues m w cs).2 := by
  induction cs generalizing m w with
  | nil => exact .refl _ _
  | cons c cs ih =>
      rw [Cell.refs_cons]
      exact (takes_pushValue m w c).append (ih _ _)

theorem takes_pushScope (m : Memory) (w : Worklist) (id : Nat) :
    Takes m w [⟨.scope, id⟩] (pushScope m w id).1 (pushScope m w id).2 := by
  unfold pushScope
  by_cases hc : m.count ⟨.scope, id⟩ = 1
  · rw [if_pos hc]
    exact ⟨[⟨.scope, id⟩], .keep hc .nil, List.perm_middle⟩
  · rw [if_neg hc]
    exact ⟨[], .lose hc .nil, .refl _⟩

theorem takes_pushContents (m : Memory) (w : Worklist)
    (bindings : List (String × Cell)) (parent : Option Nat) :
    Takes m w (Node.scope bindings parent).refs
      (pushContents m w bindings parent).1
      (pushContents m w bindings parent).2 := by
  have hvalues := takes_pushValues m w (bindings.map Prod.snd)
  cases parent with
  | none =>
      have hrefs : (Node.scope bindings none).refs =
          Cell.refs (bindings.map Prod.snd) := by simp [Node.refs]
      rw [hrefs]
      exact hvalues
  | some id => exact hvalues.append (takes_pushScope _ _ id)

/-! ## The worklist empties nodes -/

/-- A node is emptied onto a worklist, unless it is shared. -/
inductive Empties (m : Memory) (w : Worklist) (r : Ref) :
    Memory → Worklist → Prop where
  | shared (hc : m.count r ≠ 1) : Empties m w r m w
  | moved {e : Entry r.kind} {out : List Ref} {m' : Memory}
      {w' : Worklist} (he : m.get? r = some e) (hc : e.count = 1)
      (hout : e.node.refs = out ++ e.node.hollow.refs)
      (h : Takes (m.hollow r) w out m' w') : Empties m w r m' w'

theorem empties_emptyScope (m : Memory) (w : Worklist) (id : Nat) :
    Empties m w ⟨.scope, id⟩ (emptyScope m w id).1
      (emptyScope m w id).2 := by
  unfold emptyScope
  split
  · next n bindings parent he =>
      by_cases hc : n = 1
      · rw [if_pos hc]
        exact .moved he hc (Node.refs_scope bindings parent)
          (takes_pushContents _ _ bindings parent)
      · rw [if_neg hc]
        exact .shared (by rwa [count_of_get? he])
  · next he => exact .shared (by simp [count, he])

/-- The node of a value is emptied onto a worklist, unless it is shared, and
with a lambda also the scope that it alone holds. -/
inductive EmptiesValue (m : Memory) (w : Worklist) :
    Cell → Memory → Worklist → Prop where
  | plain (v : Plain) : EmptiesValue m w (.plain v) m w
  | list {id : Nat} {m' : Memory} {w' : Worklist}
      (h : Empties m w ⟨.list, id⟩ m' w') : EmptiesValue m w (.list id) m' w'
  | shared {id : Nat} (hc : m.count ⟨.lambda, id⟩ ≠ 1) :
      EmptiesValue m w (.lambda id) m w
  | lambda {id s : Nat} {body : List Cell} {mid m' : Memory}
      {v w' : Worklist}
      (he : m.get? ⟨.lambda, id⟩ = some ⟨1, .lambda body s⟩)
      (h : Takes (m.hollow ⟨.lambda, id⟩) w (Cell.refs body) mid v)
      (h' : Empties mid v ⟨.scope, s⟩ m' w') :
      EmptiesValue m w (.lambda id) m' w'

theorem emptiesValue (m : Memory) (w : Worklist) (c : Cell) :
    EmptiesValue m w c (emptyValue m w c).1 (emptyValue m w c).2 := by
  cases c with
  | plain v => exact .plain v
  | list id =>
      refine .list ?_
      simp only [emptyValue]
      split
      · next n items he =>
          by_cases hc : n = 1
          · rw [if_pos hc]
            exact .moved he hc (Node.refs_list items)
              (takes_pushValues _ _ items)
          · rw [if_neg hc]
            exact .shared (by rwa [count_of_get? he])
      · next he => exact .shared (by simp [count, he])
  | lambda id =>
      simp only [emptyValue]
      split
      · next n body s he =>
          by_cases hc : n = 1
          · rw [if_pos hc]
            subst hc
            exact .lambda he (takes_pushValues _ _ body)
              (empties_emptyScope _ _ s)
          · rw [if_neg hc]
            exact .shared (by rwa [count_of_get? he])
      · next he => exact .shared (by simp [count, he])

theorem get?_hollow_self {e : Entry r.kind} (he : m.get? r = some e) :
    (m.hollow r).get? r = some { e with node := e.node.hollow } := by
  rw [Memory.hollow, get?_alter_self, he, Option.map_some]

theorem Empties.acts (h : Empties m w r m' w') (hat : m.AtHand hs r) :
    Acts m (w.refs ++ hs) m' (w'.refs ++ hs) := by
  cases h with
  | shared _ => exact .refl _ _
  | moved he hc hout h =>
      have hat' : m.AtHand (w.refs ++ hs) r := by
        rcases hat with hr | ⟨q, hq, hrest⟩
        · exact .inl (List.mem_append_right _ hr)
        · exact .inr ⟨q, List.mem_append_right _ hq, hrest⟩
      exact (Acts.hollow he hc hat' hout).trans (h.acts hs)

theorem EmptiesValue.acts {c : Cell} (h : EmptiesValue m w c m' w')
    (hat : ∀ r, c.ref? = some r → r ∈ hs) :
    Acts m (w.refs ++ hs) m' (w'.refs ++ hs) := by
  cases h with
  | plain _ => exact .refl _ _
  | list h => exact h.acts (.inl (hat _ rfl))
  | shared _ => exact .refl _ _
  | @lambda id s body mid m' v w' he h h' =>
      have hr : ⟨.lambda, id⟩ ∈ hs := hat _ rfl
      have hfirst : Empties m w ⟨.lambda, id⟩ mid v :=
        .moved he rfl (Node.refs_lambda body s) h
      refine (hfirst.acts (.inl hr)).trans (h'.acts (.inr ?_))
      -- The lambda still keeps hold of its scope.
      obtain ⟨ks, hsorts, -⟩ := h
      refine ⟨_, hr, nofun, _, hsorts.get?_eq (get?_hollow_self he) rfl,
        rfl, ?_⟩
      exact List.mem_append_right _ (List.mem_singleton_self _)

end Worklist

namespace Job

/-- The references that a job holds. -/
def refs : Job → List Ref
  | drop r => [r]
  | run w => w.refs
  | done _ => []

@[simp] theorem flatMap_refs_drop (rs : List Ref) :
    (rs.map drop).flatMap refs = rs := by
  induction rs with
  | nil => rfl
  | cons r rs ih => simp [refs, ih]

end Job

/-- Whether a node gives up what it holds one by one where it stands: a
lambda does, and a list does that owns none of its elements. -/
def Node.Bare (m : Memory) {k : NodeKind} : Node k → Prop
  | .list items => ∀ c ∈ items, Worklist.owns m c = false
  | .lambda _ _ => True
  | .scope _ _ => False

namespace Teardown

open Memory Worklist

variable {t u v : Teardown} {m m' : Memory} {r : Ref} {hs : List Ref}
  {jobs : List Job}

/-- The references that a teardown has still to give up. -/
def held (t : Teardown) : List Ref :=
  t.jobs.flatMap Job.refs

/-! ## Steps -/

/-- What the end of a node brings about: what it has held goes to a worklist,
or is given up where it stands. A scope of the latter kind holds nothing. -/
inductive Dismantled (m : Memory) {k : NodeKind} (x : Node k) :
    Memory → List Job → Prop where
  | gathered {m' : Memory} {w : Worklist}
      (h : Takes m .empty x.refs m' w) : Dismantled m x m' [.run w]
  | inPlace (h : x.Bare m ∨ x.refs = []) :
      Dismantled m x m (x.refs.map .drop)

theorem dismantled (m : Memory) {k : NodeKind} (x : Node k) :
    Dismantled m x (dismantle m x).1 (dismantle m x).2 := by
  cases x with
  | list items =>
      simp only [dismantle]
      split
      · exact .gathered (takes_pushValues m .empty items)
      · next hany => exact .inPlace (.inl (by simpa [Node.Bare] using hany))
  | lambda body s =>
      have hjobs : (dismantle m (.lambda body s)).2 =
          (Node.lambda body s).refs.map .drop := by
        simp [dismantle, Node.refs]
      rw [hjobs]
      exact .inPlace (.inl trivial)
  | scope bindings parent =>
      have hcontents := takes_pushContents m .empty bindings parent
      cases bindings with
      | cons b bs => exact .gathered hcontents
      | nil =>
          cases parent with
          | some id => exact .gathered hcontents
          | none => exact .inPlace (.inr rfl)

theorem Dismantled.acts {k : NodeKind} {x : Node k}
    (h : Dismantled m x m' jobs) (hs : List Ref) :
    Acts m (x.refs ++ hs) m' (jobs.flatMap Job.refs ++ hs) := by
  cases h with
  | gathered h =>
      simpa [Job.refs, Worklist.refs, Worklist.empty] using h.acts hs
  | inPlace _ =>
      rw [Job.flatMap_refs_drop]
      exact .refl _ _

theorem drop_of_shared (hc : m.count r ≠ 1) :
    drop m r jobs = ⟨m.lose r, jobs⟩ := by
  unfold drop
  split
  · next he => rw [lose_of_none he]
  · next e he =>
      rw [count_of_get? he] at hc
      rw [if_neg hc]

theorem drop_of_last {e : Entry r.kind} (he : m.get? r = some e)
    (hc : e.count = 1) : drop m r jobs =
      ⟨(dismantle (m.erase r) e.node).1,
        (dismantle (m.erase r) e.node).2 ++ .done r :: jobs⟩ := by
  unfold drop
  split
  · next hnone => simp [he] at hnone
  · next e' he' =>
      rw [he] at he'
      cases he'
      rw [if_pos hc]

theorem acts_drop (m : Memory) (r : Ref) (jobs : List Job) (hs : List Ref) :
    Acts m (held ⟨m, .drop r :: jobs⟩ ++ hs) (drop m r jobs).memory
      ((drop m r jobs).held ++ hs) := by
  rcases last_or_shared m r with ⟨e, he, hc⟩ | hc
  · have hnode := dismantled (m.erase r) e.node
    have hfree : Acts m (r :: (held ⟨m, jobs⟩ ++ hs)) (m.erase r)
        (e.node.refs ++ (held ⟨m, jobs⟩ ++ hs)) := .free he hc
    rw [drop_of_last he hc]
    refine hfree.trans ?_
    simpa [held, Job.refs] using hnode.acts (held ⟨m, jobs⟩ ++ hs)
  · rw [drop_of_shared hc]
    exact .lose hc

/-- A node that is taken off a worklist and emptied: the references `qs` that
have been waiting there are given up next. -/
theorem acts_turn_of_empties {w w' : Worklist} (w₀ : Worklist)
    (qs : List Ref) (hp : w.refs.Perm (w₀.refs ++ qs))
    (hacts : ∀ hs, Acts m (w₀.refs ++ (qs ++ hs)) m' (w'.refs ++ (qs ++ hs)))
    (jobs : List Job) (hs : List Ref) :
    Acts m (held ⟨m, .run w :: jobs⟩ ++ hs) m'
      (held ⟨m', qs.map .drop ++ .run w' :: jobs⟩ ++ hs) := by
  have hbefore : (held ⟨m, .run w :: jobs⟩ ++ hs).Perm
      (w₀.refs ++ (qs ++ (held ⟨m, jobs⟩ ++ hs))) := by
    simpa [held, Job.refs] using hp.append_right (held ⟨m, jobs⟩ ++ hs)
  have hafter : (w'.refs ++ (qs ++ (held ⟨m, jobs⟩ ++ hs))).Perm
      (held ⟨m', qs.map .drop ++ .run w' :: jobs⟩ ++ hs) := by
    have hcomm : (w'.refs ++ qs).Perm (qs ++ w'.refs) :=
      List.perm_append_comm
    simpa [held, Job.refs] using hcomm.append_right (held ⟨m, jobs⟩ ++ hs)
  exact (Acts.perm hbefore).trans ((hacts _).trans (.perm hafter))

theorem acts_turn (m : Memory) (jobs : List Job) (w : Worklist)
    (hs : List Ref) :
    Acts m (held ⟨m, .run w :: jobs⟩ ++ hs) (turn m jobs w).memory
      ((turn m jobs w).held ++ hs) := by
  match w with
  | ⟨values, id :: ids⟩ =>
      have hempties := empties_emptyScope m ⟨values, ids⟩ id
      refine acts_turn_of_empties ⟨values, ids⟩ [⟨.scope, id⟩] ?_
        (fun hs => hempties.acts (.inl (List.mem_cons_self ..))) jobs hs
      simp only [Worklist.refs, List.map_cons, List.append_assoc]
      exact List.Perm.append_left _ (List.perm_append_singleton _ _).symm
  | ⟨c :: values, []⟩ =>
      have hempties := emptiesValue m ⟨values, []⟩ c
      refine acts_turn_of_empties ⟨values, []⟩ c.ref?.toList ?_
        (fun hs => hempties.acts fun r hr => by simp [hr]) jobs hs
      simp only [Worklist.refs, Cell.refs_cons, List.map_nil,
        List.append_nil]
      exact List.perm_append_comm
  | ⟨[], []⟩ => exact .refl _ _

/-- Every step handles the references that are held. -/
theorem acts_step (h : t.step = some u) (hs : List Ref) :
    Acts t.memory (t.held ++ hs) u.memory (u.held ++ hs) := by
  obtain ⟨m, jobs⟩ := t
  cases jobs with
  | nil => cases h
  | cons job jobs =>
      cases job with
      | drop r =>
          cases h
          exact acts_drop m r jobs hs
      | run w =>
          cases h
          exact acts_turn m jobs w hs
      | done r =>
          cases h
          exact .refl _ _

/-- Every step comes nearer to the end. -/
theorem weight_step_lt (h : t.step = some u) : u.weight < t.weight := by
  obtain ⟨m, jobs⟩ := t
  cases jobs with
  | nil => cases h
  | cons job jobs =>
      cases job with
      | drop r =>
          cases h
          exact weight_drop_lt m r jobs
      | run w =>
          cases h
          exact weight_turn_lt m jobs w
      | done r =>
          cases h
          rw [weight_cons]
          exact Nat.lt_succ_self _

/-! ## Runs -/

theorem Reaches.trans (h : t.Reaches u) (h' : u.Reaches v) :
    t.Reaches v := by
  induction h' with
  | refl => exact h
  | next _ hstep ih => exact .next ih hstep

theorem Reaches.acts (h : t.Reaches u) (hs : List Ref) :
    Acts t.memory (t.held ++ hs) u.memory (u.held ++ hs) := by
  induction h with
  | refl => exact .refl _ _
  | next _ hstep ih => exact ih.trans (acts_step hstep hs)

/-- A teardown comes to an end. -/
theorem exists_end (t : Teardown) : ∃ m, t.Reaches ⟨m, []⟩ := by
  induction hw : t.weight using Nat.strongRecOn generalizing t with
  | ind n ih =>
      obtain ⟨m, jobs⟩ := t
      cases hstep : step ⟨m, jobs⟩ with
      | none =>
          cases jobs with
          | nil => exact ⟨m, .refl⟩
          | cons job jobs => cases job <;> cases hstep
      | some u =>
          have hlt := weight_step_lt hstep
          obtain ⟨m', hend⟩ := ih _ (by omega) u rfl
          exact ⟨m', (Reaches.next .refl hstep).trans hend⟩

/-- Release by descent from any state on makes the same of it. -/
theorem Reaches.release_eq (h : (start m r).Reaches t) :
    m.release [r] = t.memory.release t.held := by
  simpa [start, held, Job.refs] using (h.acts []).release_eq

/-- What is left at the end holds what it has held all the time. -/
theorem Reaches.node?_of_end {s : Ref} {x : Node s.kind}
    (hend : (start m r).Reaches ⟨m', []⟩) (h : (start m r).Reaches t)
    (hx : m'.node? s = some x) : t.memory.node? s = some x := by
  have heq : m' = t.memory.release t.held := by
    rw [← h.release_eq, hend.release_eq]
    exact release_nil.symm
  exact node?_of_release (heq ▸ hx)

/-- Giving up a reference leaves the counts exact. -/
theorem Reaches.exact_of_end (hm : m.Exact (r :: hs))
    (hend : (start m r).Reaches ⟨m', []⟩) : m'.Exact hs := by
  refine Acts.exact (hend.acts hs) ?_
  simpa [start, held, Job.refs] using hm

end Teardown

/-- Giving up one reference by a teardown comes to an end, and what is left
is what release by descent leaves: the same nodes, holding the same and
with the same counts. The counts are exact again. What is referred to from
outside or from a node that is left is left itself, and a node that is left
has held all the time what it held at first. -/
theorem teardown_agrees_with_release {m : Memory} {r : Ref}
    {held : List Ref} (h : m.Exact (r :: held)) :
    ∃ t : Memory, (Teardown.start m r).Reaches ⟨t, []⟩ ∧
      t = m.release [r] ∧ t.Exact held ∧
      (∀ s, (s ∈ held ∨ ∃ q, t.Holds q s) → ∃ x, t.node? s = some x) ∧
      ∀ u, (Teardown.start m r).Reaches u → ∀ s x, t.node? s = some x →
        u.memory.node? s = some x ∧ m.node? s = some x := by
  obtain ⟨t, ht⟩ := (Teardown.start m r).exists_end
  have heq : t = m.release [r] := by
    simpa [Teardown.held] using ht.release_eq.symm
  have hexact : t.Exact held := ht.exact_of_end h
  refine ⟨t, ht, heq, hexact, fun s => hexact.exists_node?, ?_⟩
  intro u hu s x hx
  exact ⟨ht.node?_of_end hu hx, ht.node?_of_end .refl hx⟩

/-- A list with an element of its own, an element that it holds twice, and
a function that is bound in the scope it was made in. What its own element
holds is known outside as well. -/
def sharedList : Memory where
  lists := #[
    some ⟨1, .list [.list 1, .list 2, .list 1, .lambda 0]⟩,
    some ⟨2, .list []⟩,
    some ⟨1, .list [.list 3]⟩,
    some ⟨2, .list [.plain (.int 7)]⟩]
  lambdas := #[some ⟨2, .lambda [.plain (.symbol "f")] 0⟩]
  scopes := #[some ⟨1, .scope [("f", .lambda 0)] none⟩]

theorem sharedList_agrees :
    sharedList.Exact [⟨.list, 0⟩, ⟨.list, 3⟩] ∧
    ∃ t : Memory, (Teardown.start sharedList ⟨.list, 0⟩).Reaches ⟨t, []⟩ ∧
      t = sharedList.release [⟨.list, 0⟩] ∧ t.Exact [⟨.list, 3⟩] ∧
      t.node? ⟨.list, 3⟩ = some (.list [.plain (.int 7)]) := by
  have hexact : sharedList.Exact [⟨.list, 0⟩, ⟨.list, 3⟩] := by decide
  obtain ⟨t, ht, heq, ht', hleft, hsame⟩ := teardown_agrees_with_release hexact
  obtain ⟨x, hx⟩ := hleft ⟨.list, 3⟩ (.inl (List.mem_singleton_self _))
  have hfirst := (hsame _ .refl _ _ hx).2
  refine ⟨hexact, t, ht, heq, ht', hx.trans (hfirst.symm.trans ?_)⟩
  rfl

end SmallLisp
