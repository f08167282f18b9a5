import SmallLisp.Proofs.Finishing

/-!
# How many nodes are taken down at the same time

The end of a node is deep inside others if they wait for it. A node with a
worklist waits for nodes that have been emptied before, and nothing comes of
their end; only a lambda still has its scope to give up, of which the same
is true. What goes deep are *bare* nodes, which give up what they hold where
they stand: a lambda does, and a list does that owns none of its elements
when its end comes.

Such a list has been bare from the beginning, since counts only go down and
a list that has come to its end still holds its elements
(`bare_of_bare`). So one can tell from the memory as it was when the
reference was given up what may be going on at the same time: a chain of
bare nodes, each held by the one before, and at most three nodes more
(`active_of_reaches`). `Shape` is the invariant behind this.
-/

namespace SmallLisp

open Memory Worklist

/-! ## Nodes that are taken down where they stand -/

namespace Memory

/-- A node is there and bare. -/
def Bare (m : Memory) (r : Ref) : Prop :=
  ∃ x, m.node? r = some x ∧ x.Bare m

/-- Bare nodes from `r` on, each of them held by the next one in the list. -/
inductive BareChain (m : Memory) (r : Ref) : List Ref → Prop where
  | nil : BareChain m r []
  | first (h : m.Bare r) : BareChain m r [r]
  | next {q s : Ref} {chain : List Ref} (h : BareChain m r (q :: chain))
      (hs : m.Holds q s) (hbare : m.Bare s) : BareChain m r (s :: q :: chain)

end Memory

/-- Apart from the nodes in `S`, what is there holds what it held in `m`. -/
def Memory.Intact (m M : Memory) (S : List Ref) : Prop :=
  ∀ s, s ∉ S → ∀ x, M.node? s = some x → m.node? s = some x

namespace Memory

variable {m M M' : Memory} {r s : Ref} {S rs ks hs hs' : List Ref}

theorem BareChain.tail {q : Ref} {chain : List Ref}
    (h : m.BareChain r (q :: chain)) : m.BareChain r chain := by
  cases h with
  | first _ => exact .nil
  | next h _ _ => exact h

theorem BareChain.bare {chain : List Ref} (h : m.BareChain r chain)
    (hne : chain ≠ []) : m.Bare r := by
  induction h with
  | nil => exact absurd rfl hne
  | first h => exact h
  | next _ _ _ ih => exact ih (List.cons_ne_nil _ _)

theorem Intact.of_eq (h : Intact m M S)
    (heq : ∀ s, M'.node? s = M.node? s) : Intact m M' S := by
  intro s hs x hx
  exact h s hs x (by rwa [← heq s])

theorem Intact.lose (h : Intact m M S) (r : Ref) : Intact m (M.lose r) S :=
  h.of_eq (node?_lose M r)

theorem Intact.sorts (h : Intact m M S) (hsorts : Sorts M rs M' ks) :
    Intact m M' S :=
  h.of_eq hsorts.node?_eq

theorem Intact.hollow (h : Intact m M S) (r : Ref) :
    Intact m (M.hollow r) (r :: S) := by
  intro s hs x hx
  obtain ⟨hrs, hS⟩ := not_or.1 (mt List.mem_cons.2 hs)
  rw [node?, Memory.hollow, get?_alter_of_ne _ (Ne.symm hrs)] at hx
  exact h s hS x hx

/-- A node that has been written to and is gone makes no difference. -/
theorem Intact.erase (h : Intact m M (r :: S)) : Intact m (M.erase r) S := by
  intro s hs x hx
  by_cases hrs : r = s
  · subst hrs
    simp [node?] at hx
  · rw [node?, get?_erase_of_ne hrs] at hx
    refine h s ?_ x hx
    rw [List.mem_cons, not_or]
    exact ⟨Ne.symm hrs, hs⟩

theorem Intact.mono {T : List Ref} (h : Intact m M S) (hST : S ⊆ T) :
    Intact m M T :=
  fun s hs => h s fun hS => hs (hST hS)

/-! Counts only go down. -/

theorem count_alter_le {f : Entry r.kind → Entry r.kind}
    (hf : ∀ e, (f e).count ≤ e.count) (s : Ref) :
    (m.alter r f).count s ≤ m.count s := by
  unfold count
  by_cases hrs : r = s
  · subst hrs
    rw [get?_alter_self]
    cases m.get? r with
    | none => exact Nat.le_refl _
    | some e => exact hf e
  · exact Nat.le_of_eq (by rw [get?_alter_of_ne _ hrs])

theorem count_erase_of_ne (h : r ≠ s) : (m.erase r).count s = m.count s :=
  count_write_of_ne none h

theorem Acts.count_le (h : Acts m hs M hs') (s : Ref) :
    M.count s ≤ m.count s := by
  induction h with
  | perm _ => exact Nat.le_refl _
  | lose _ => exact count_alter_le (fun e => Nat.sub_le _ _) s
  | @free m r _ _ _ _ =>
      by_cases hrs : r = s
      · subst hrs
        simp [count]
      · exact Nat.le_of_eq (count_erase_of_ne hrs)
  | hollow _ _ _ _ =>
      refine count_alter_le (f := fun e => { e with node := e.node.hollow })
        (fun e => ?_) s
      exact Nat.le_refl _
  | trans _ _ ih ih' => exact Nat.le_trans ih' ih

/-- A node that is bare when its end comes has been bare from the beginning:
a list still holds its elements then, and there have been at least as many
references to them before. -/
theorem bare_of_bare {e : Entry r.kind} {held : List Ref}
    (hexact : M.Exact (r :: held)) (hle : ∀ s, M.count s ≤ m.count s)
    (hnode : m.node? r = some e.node) (he : M.get? r = some e)
    (hc : e.count = 1) (hbare : e.node.Bare (M.erase r)) : m.Bare r := by
  refine ⟨e.node, hnode, ?_⟩
  have hself := hexact.not_mem_refs he hc
  obtain ⟨k, id⟩ := r
  obtain ⟨n, x⟩ := e
  cases x with
  | lambda body s => trivial
  | scope bindings parent => exact hbare.elim
  | list items =>
      intro c hc
      have howns := hbare c hc
      unfold owns at howns ⊢
      cases hq : c.ref? with
      | none => rfl
      | some q =>
          simp only [hq, beq_eq_false_iff_ne] at howns ⊢
          have hmem : q ∈ (Node.list items).refs :=
            List.mem_filterMap.2 ⟨c, hc, hq⟩
          have hne : ⟨.list, id⟩ ≠ q := by
            rintro rfl
            exact hself hmem
          obtain ⟨f, hf, hpos⟩ := hexact.exists_of_ref he hmem
          have hcount := hle q
          rw [count_erase_of_ne hne] at howns
          rw [count_of_get? hf] at howns hcount
          omega

end Memory

namespace Teardown

variable {t u : Teardown} {m M : Memory} {r s q : Ref}
  {chain : List Ref} {inner jobs : List Job}

/-- The jobs of bare nodes that are being taken down one inside the other,
beginning with `r`: each of them has still to give up some of what it
holds. -/
def Levels (m : Memory) (r : Ref) : List Ref → List Job → Prop
  | [], jobs => jobs = [] ∨ jobs = [.drop r]
  | q :: chain, jobs => ∃ (rs : List Ref) (rest : List Job),
      jobs = rs.map .drop ++ .done q :: rest ∧ (∀ s ∈ rs, m.Holds q s) ∧
      Levels m r chain rest

/-- Nothing comes of the end of a node. -/
def Spent {k : NodeKind} (x : Node k) : Prop :=
  ∀ m, dismantle m x = (m, [])

/-- What a node that was taken off a worklist still brings about: it is
shared and loses a reference, or it has been emptied. A lambda gives up its
scope, of which the same is true. -/
inductive Inner (m : Memory) : Memory → List Job → Prop where
  | idle {M : Memory} (qs : List Ref) (hqs : qs.length ≤ 2)
      (hi : Intact m M []) : Inner m M (qs.map .done)
  | shared {M : Memory} {s : Ref} (qs : List Ref) (hqs : qs.length ≤ 1)
      (hc : M.count s ≠ 1) (hi : Intact m M []) :
      Inner m M (.drop s :: qs.map .done)
  | spent {M : Memory} {s : Ref} {e : Entry s.kind} (qs : List Ref)
      (hqs : qs.length ≤ 1) (he : M.get? s = some e) (hc : e.count = 1)
      (hx : Spent e.node) (hi : Intact m M [s]) :
      Inner m M (.drop s :: qs.map .done)
  | lambda {M : Memory} {id s : Nat} {body : List Cell}
      (he : M.get? ⟨.lambda, id⟩ = some ⟨1, .lambda body s⟩)
      (hbody : Cell.refs body = [])
      (h : Inner m (M.erase ⟨.lambda, id⟩)
        [.drop ⟨.scope, s⟩, .done ⟨.lambda, id⟩]) :
      Inner m M [.drop ⟨.lambda, id⟩]

/-- The jobs of a teardown at any time: bare nodes one inside the other, and
within the last of them perhaps a node with a worklist, with what has been
taken off it. -/
inductive Shape (m : Memory) (r : Ref) : Teardown → Prop where
  | levels {M : Memory} {chain : List Ref} {jobs : List Job}
      (hchain : m.BareChain r chain) (hl : Levels m r chain jobs)
      (hi : Intact m M []) : Shape m r ⟨M, jobs⟩
  | closing {M : Memory} {q : Ref} {chain : List Ref} {jobs : List Job}
      (hchain : m.BareChain r chain) (hl : Levels m r chain jobs)
      (hi : Intact m M []) : Shape m r ⟨M, .done q :: jobs⟩
  | work {M : Memory} {q : Ref} {w : Worklist} {chain : List Ref}
      {inner jobs : List Job} (hchain : m.BareChain r chain)
      (hl : Levels m r chain jobs) (hinner : Inner m M inner) :
      Shape m r ⟨M, inner ++ .run w :: .done q :: jobs⟩

/-! ## Steps inside a worklist -/

theorem inner_step (h : Inner m M inner) (hne : inner ≠ []) :
    ∃ M' inner', Inner m M' inner' ∧ ∀ rest,
      step ⟨M, inner ++ rest⟩ = some ⟨M', inner' ++ rest⟩ := by
  cases h with
  | idle qs hqs hi =>
      cases qs with
      | nil => exact absurd rfl hne
      | cons q qs =>
          refine ⟨M, qs.map .done, .idle qs ?_ hi, fun rest => rfl⟩
          exact Nat.le_of_succ_le hqs
  | @shared _ s qs hqs hc hi =>
      refine ⟨M.lose s, qs.map .done, ?_, fun rest => ?_⟩
      · exact .idle qs (Nat.le_succ_of_le hqs) (hi.lose s)
      · exact congrArg some (drop_of_shared hc)
  | @spent _ s e qs hqs he hc hx hi =>
      refine ⟨M.erase s, (s :: qs).map .done, ?_, fun rest => ?_⟩
      · exact .idle (s :: qs) (Nat.succ_le_succ hqs) hi.erase
      · refine congrArg some ((drop_of_last he hc).trans ?_)
        rw [hx]
        rfl
  | @lambda _ id s body he hbody h =>
      refine ⟨_, _, h, fun rest => ?_⟩
      refine congrArg some ((drop_of_last he rfl).trans ?_)
      simp [dismantle, hbody]

theorem spent_hollow_list (x : Node .list) : Spent x.hollow := by
  intro m
  cases x with
  | list items =>
      have hany :
          (items.map fun _ => Cell.plain .nil).any (owns m) = false := by
        simp [owns, Cell.ref?]
      simp only [Node.hollow, dismantle, hany, Bool.false_eq_true, if_false,
        Cell.refs_map_nil, List.map_nil]

theorem spent_hollow_scope (x : Node .scope) : Spent x.hollow := by
  intro m
  cases x
  rfl

/-- A node that has been emptied onto a worklist is spent, unless it is a
lambda. -/
theorem inner_of_empties {w w' : Worklist} {M' : Memory} (qs : List Ref)
    (h : Empties M w s M' w') (hqs : qs.length ≤ 1) (hi : Intact m M [])
    (hspent : ∀ e, M.get? s = some e → Spent e.node.hollow) :
    Inner m M' (.drop s :: qs.map .done) := by
  cases h with
  | shared hc => exact .shared qs hqs hc hi
  | moved he hc _ h =>
      obtain ⟨ks, hsorts, -⟩ := h
      have hget := hsorts.get?_eq (get?_hollow_self he) hc
      exact .spent qs hqs hget hc (hspent _ he) ((hi.hollow s).sorts hsorts)

theorem get?_of_empties {w w' : Worklist} {M' : Memory} {e : Entry s.kind}
    (h : Empties M w q M' w') (hqs : q ≠ s) (he : M.get? s = some e)
    (hc : e.count = 1) : M'.get? s = some e := by
  cases h with
  | shared _ => exact he
  | moved _ _ _ h =>
      obtain ⟨ks, hsorts, -⟩ := h
      refine hsorts.get?_eq ?_ hc
      rw [Memory.hollow, get?_alter_of_ne _ hqs, he]

/-- The scope of a lambda that is about to go, if it has been emptied. -/
theorem inner_of_empties_scope {w w' : Worklist} {M' : Memory} {id s : Nat}
    (h : Empties M w ⟨.scope, s⟩ M' w') (hi : Intact m M [⟨.lambda, id⟩]) :
    Inner m (M'.erase ⟨.lambda, id⟩)
      [.drop ⟨.scope, s⟩, .done ⟨.lambda, id⟩] := by
  have hne : (⟨.lambda, id⟩ : Ref) ≠ ⟨.scope, s⟩ := nofun
  cases h with
  | shared hc =>
      refine .shared [⟨.lambda, id⟩] (Nat.le_refl _) ?_ hi.erase
      rwa [count_erase_of_ne hne]
  | @moved e out _ _ he hc _ h =>
      obtain ⟨ks, hsorts, -⟩ := h
      have hget : (M'.erase ⟨.lambda, id⟩).get? ⟨.scope, s⟩ =
          some { e with node := e.node.hollow } := by
        rw [get?_erase_of_ne hne]
        exact hsorts.get?_eq (get?_hollow_self he) hc
      have hi' : Intact m M' [⟨.lambda, id⟩, ⟨.scope, s⟩] :=
        ((hi.hollow ⟨.scope, s⟩).sorts hsorts).mono (by simp)
      exact .spent [⟨.lambda, id⟩] (Nat.le_refl _) hget hc
        (spent_hollow_scope e.node) hi'.erase

theorem inner_of_emptiesValue {w w' : Worklist} {c : Cell} {M' : Memory}
    (h : EmptiesValue M w c M' w') (hi : Intact m M []) :
    Inner m M' (c.ref?.toList.map .drop) := by
  cases h with
  | plain v => exact .idle [] (Nat.zero_le _) hi
  | list h =>
      exact inner_of_empties [] h (Nat.zero_le _) hi
        fun e _ => spent_hollow_list e.node
  | shared hc => exact .shared [] (Nat.zero_le _) hc hi
  | @lambda id s body mid M' v w' he h h' =>
      obtain ⟨ks, hsorts, -⟩ := h
      have hmid := hsorts.get?_eq (get?_hollow_self he) rfl
      have hne : (⟨.scope, s⟩ : Ref) ≠ ⟨.lambda, id⟩ := nofun
      have hget := get?_of_empties h' hne hmid rfl
      refine .lambda hget (Cell.refs_map_nil body) ?_
      exact inner_of_empties_scope h' ((hi.hollow _).sorts hsorts)

/-- A turn of the loop over a worklist ends it or leaves what has been taken
off to be given up. -/
theorem turn_shape (w : Worklist) (hi : Intact m M []) (jobs : List Job) :
    turn M jobs w = ⟨M, jobs⟩ ∨ ∃ M' inner w', Inner m M' inner ∧
      turn M jobs w = ⟨M', inner ++ .run w' :: jobs⟩ := by
  match w with
  | ⟨values, id :: ids⟩ =>
      refine .inr ⟨_, [.drop ⟨.scope, id⟩], _, ?_, rfl⟩
      exact inner_of_empties []
        (empties_emptyScope M ⟨values, ids⟩ id) (Nat.zero_le _) hi
        fun e _ => spent_hollow_scope e.node
  | ⟨c :: values, []⟩ =>
      exact .inr ⟨_, _, _,
        inner_of_emptiesValue (emptiesValue M ⟨values, []⟩ c) hi, rfl⟩
  | ⟨[], []⟩ => exact .inl rfl

/-! ## Steps of bare nodes -/

theorem Levels.of_drop (h : Levels m r chain (.drop s :: jobs)) :
    Levels m r chain jobs ∧
      (m.BareChain r chain → m.Bare s → m.BareChain r (s :: chain)) := by
  cases chain with
  | nil =>
      rcases h with h | h
      · cases h
      · cases h
        exact ⟨.inl rfl, fun _ hbare => .first hbare⟩
  | cons q chain =>
      obtain ⟨rs, rest, hjobs, hrs, hl⟩ := h
      cases rs with
      | nil => cases hjobs
      | cons s' rs =>
          cases hjobs
          obtain ⟨hs, hrs⟩ := List.forall_mem_cons.1 hrs
          exact ⟨⟨rs, rest, rfl, hrs, hl⟩, fun hc hbare => .next hc hs hbare⟩

theorem Levels.of_done (h : Levels m r chain (.done q :: jobs)) :
    ∃ chain', chain = q :: chain' ∧ Levels m r chain' jobs := by
  cases chain with
  | nil => rcases h with h | h <;> cases h
  | cons q' chain =>
      obtain ⟨rs, rest, hjobs, -, hl⟩ := h
      cases rs with
      | nil =>
          cases hjobs
          exact ⟨chain, rfl, hl⟩
      | cons s rs => cases hjobs

theorem Levels.not_run {w : Worklist} :
    ¬ Levels m r chain (.run w :: jobs) := by
  intro h
  cases chain with
  | nil => rcases h with h | h <;> cases h
  | cons q chain =>
      obtain ⟨rs, rest, hjobs, -, -⟩ := h
      cases rs <;> cases hjobs

/-- The end of a node: it has a worklist, or is added to the bare ones, or
nothing comes of it. -/
theorem shape_of_dismantled {held : List Ref} {e : Entry s.kind}
    (hexact : M.Exact (s :: held)) (hle : ∀ s, M.count s ≤ m.count s)
    (hi : Intact m M []) (hchain : m.BareChain r chain)
    (hadd : m.Bare s → m.BareChain r (s :: chain))
    (hl : Levels m r chain jobs) (he : M.get? s = some e) (hc : e.count = 1)
    {M' : Memory} {first : List Job}
    (h : Dismantled (M.erase s) e.node M' first) :
    Shape m r ⟨M', first ++ .done s :: jobs⟩ := by
  have hgone : Intact m (M.erase s) [] := (hi.mono (T := [s]) nofun).erase
  have hnode : m.node? s = some e.node :=
    hi s List.not_mem_nil _ (by rw [node?, he, Option.map_some])
  cases h with
  | @gathered _ w h =>
      obtain ⟨ks, hsorts, -⟩ := h
      show Shape m r ⟨M', [] ++ .run w :: .done s :: jobs⟩
      exact .work hchain hl (.idle [] (Nat.zero_le _) (hgone.sorts hsorts))
  | inPlace h =>
      rcases h with hbare | hnil
      · have hbare := bare_of_bare hexact hle hnode he hc hbare
        refine .levels (hadd hbare) ⟨_, _, rfl, fun q hq => ?_, hl⟩ hgone
        exact ⟨_, hnode, hq⟩
      · rw [hnil]
        exact .closing hchain hl hgone

theorem Inner.intact (h : Inner m M []) : Intact m M [] := by
  generalize hjobs : ([] : List Job) = inner at h
  cases h with
  | idle _ _ hi => exact hi
  | shared _ _ _ _ => cases hjobs
  | spent _ _ _ _ _ _ => cases hjobs
  | lambda _ _ _ => cases hjobs

theorem shape_step {held : List Ref}
    (hexact : t.memory.Exact (t.held ++ held))
    (hle : ∀ s, t.memory.count s ≤ m.count s) (h : Shape m r t)
    (hstep : t.step = some u) : Shape m r u := by
  cases h with
  | @levels M chain jobs hchain hl hi =>
      cases jobs with
      | nil => cases hstep
      | cons job jobs =>
          cases job with
          | drop s =>
              cases hstep
              obtain ⟨hl, hadd⟩ := hl.of_drop
              rcases last_or_shared M s with ⟨e, he, hc⟩ | hc
              · rw [drop_of_last he hc]
                exact shape_of_dismantled hexact hle hi hchain (hadd hchain)
                  hl he hc (dismantled _ _)
              · rw [drop_of_shared hc]
                exact .levels hchain hl (hi.lose s)
          | run w => exact absurd hl Levels.not_run
          | done q =>
              cases hstep
              obtain ⟨chain, rfl, hl'⟩ := hl.of_done
              exact .levels hchain.tail hl' hi
  | closing hchain hl hi =>
      cases hstep
      exact .levels hchain hl hi
  | @work M q w chain inner jobs hchain hl hinner =>
      by_cases hne : inner = []
      · subst hne
        cases hstep
        rcases turn_shape w hinner.intact (.done q :: jobs) with
          hend | ⟨M', inner, w', hinner', hturn⟩
        · rw [hend]
          exact .closing hchain hl hinner.intact
        · rw [hturn]
          exact .work hchain hl hinner'
      · obtain ⟨M', inner', hinner', hnext⟩ := inner_step hinner hne
        rw [hnext] at hstep
        cases hstep
        exact .work hchain hl hinner'

/-- The jobs have that shape in every state that a teardown comes to. -/
theorem shape_of_reaches {held : List Ref} (hm : m.Exact (r :: held))
    (h : (start m r).Reaches t) : Shape m r t := by
  induction h with
  | refl => exact .levels .nil (.inr rfl) fun s _ x hx => hx
  | @next t u h hstep ih =>
      have hacts := h.acts held
      refine shape_step (hacts.exact ?_) hacts.count_le ih hstep
      simpa [start, Teardown.held, Job.refs] using hm

/-! ## The nodes that are being taken down -/

theorem active_dones (M : Memory) (qs : List Ref) :
    active ⟨M, qs.map .done⟩ = qs := by
  induction qs with
  | nil => rfl
  | cons q qs ih => exact congrArg (q :: ·) ih

theorem Levels.active_eq (h : Levels m r chain jobs) (M : Memory) :
    active ⟨M, jobs⟩ = chain := by
  induction chain generalizing jobs with
  | nil => rcases h with rfl | rfl <;> rfl
  | cons q chain ih =>
      obtain ⟨rs, rest, rfl, -, hl⟩ := h
      rw [active_append, active_drops]
      exact congrArg (q :: ·) (ih hl)

theorem Inner.length_active_le (h : Inner m M inner) :
    (active ⟨M, inner⟩).length ≤ 2 := by
  cases h with
  | idle qs hqs _ => rwa [active_dones]
  | shared qs hqs _ _ =>
      have : (active ⟨M, qs.map .done⟩).length ≤ 1 := by rwa [active_dones]
      exact Nat.le_succ_of_le this
  | spent qs hqs _ _ _ _ =>
      have : (active ⟨M, qs.map .done⟩).length ≤ 1 := by rwa [active_dones]
      exact Nat.le_succ_of_le this
  | lambda _ _ _ => exact Nat.zero_le _

/-- What comes on top of the bare nodes: a node with a worklist, and at most
a lambda and its scope that have been taken off the worklist. -/
theorem Shape.active_eq (h : Shape m r t) : ∃ top chain,
    t.active = top ++ chain ∧ top.length ≤ 3 ∧ m.BareChain r chain := by
  cases h with
  | levels hchain hl _ =>
      exact ⟨[], _, hl.active_eq _, Nat.zero_le _, hchain⟩
  | @closing M q chain jobs hchain hl _ =>
      refine ⟨[q], chain, ?_, by simp, hchain⟩
      exact congrArg (q :: ·) (hl.active_eq M)
  | @work M q w chain inner jobs hchain hl hinner =>
      refine ⟨active ⟨M, inner⟩ ++ [q], chain, ?_, ?_, hchain⟩
      · rw [active_append, List.append_assoc]
        exact congrArg (active ⟨M, inner⟩ ++ q :: ·) (hl.active_eq M)
      · rw [List.length_append]
        exact Nat.succ_le_succ hinner.length_active_le

end Teardown

/-! ## How deep it goes -/

/-- The nodes that are being taken down while a reference is given up: bare
nodes from the one it leads to on, each held by the one before, and not more
than three others within them. There is no bare node among them if that one
is not bare. -/
theorem Teardown.active_of_reaches {m : Memory} {r : Ref} {held : List Ref}
    (hm : m.Exact (r :: held)) {t : Teardown} (ht : (start m r).Reaches t) :
    (∃ top chain, t.active = top ++ chain ∧ top.length ≤ 3 ∧
      m.BareChain r chain) ∧ (¬ m.Bare r → t.active.length ≤ 3) := by
  obtain ⟨top, chain, hactive, htop, hchain⟩ :=
    (shape_of_reaches hm ht).active_eq
  refine ⟨⟨top, chain, hactive, htop, hchain⟩, fun hbare => ?_⟩
  have hnil : chain = [] :=
    Decidable.not_not.1 fun hne => hbare (hchain.bare hne)
  rwa [hactive, hnil, List.append_nil]

end SmallLisp
