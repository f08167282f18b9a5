import SmallLisp.Proofs.Chains

/-!
# Who sees a binding

A name is looked up from a scope outward, so a binding is seen from every
scope further in, up to the point where a nearer binding of the same name
hides it. `Sees` says this of a scope, whether it binds the name or not, and
`Nearest` of the one scope that does bind it: both are said of the chain,
with no search in them.

Four walks go along the chain, and all of them come out at `Nearest`
(`owner?_eq_some_iff`, `get?_eq_some_iff`). What a definition or an
assignment changes is then a matter of who sees the scope that it writes
to. A definition writes to a given scope, bound or not, and changes the name
for all who see that scope (`changesTo_define`). An assignment is a
definition in the nearest scope that binds the name, so those who see it are
those for whom it is the nearest as well.
-/

namespace SmallLisp

namespace Store

/-- From `e` outward one comes to `i`, and no scope on the way there binds
the name. -/
def Sees (s : Store) (name : String) (e i : ScopeId) : Prop :=
  ∃ near rest, s.Chain e (near ++ i :: rest) ∧
    ∀ j ∈ near, ∀ v, ¬ s.Binds j name v

/-- From `e` outward, `i` is the first scope that binds the name. -/
def Nearest (s : Store) (name : String) (e i : ScopeId) : Prop :=
  s.Sees name e i ∧ ∃ v, s.Binds i name v

/-- Looked up from any scope, every name means in `t` what it means in `s`,
but for one name, which is `v` for the scopes of `seen`. -/
def ChangesTo (s t : Store) (name : String) (v : Value)
    (seen : ScopeId → Prop) : Prop :=
  ∀ e m, (m = name ∧ seen e → t.get? e m = some v) ∧
    (¬ (m = name ∧ seen e) → t.get? e m = s.get? e m)

variable {s : Store} {e i p : ScopeId} {name : String} {v : Value}

/-! ## Seeing -/

theorem not_binds {sc : Scope} (hsc : s.scopes[e]? = some sc)
    (hname : sc.bindings.get? name = none) : ∀ w, ¬ s.Binds e name w := by
  intro w hbinds
  obtain ⟨sc', hsc', hw⟩ := hbinds
  rw [hsc] at hsc'
  cases hsc'
  rw [hname] at hw
  cases hw

theorem Inside.unique {q : ScopeId} (hp : s.Inside e p)
    (hq : s.Inside e q) : p = q := by
  obtain ⟨sc, hsc, hp⟩ := hp
  obtain ⟨sc', hsc', hq⟩ := hq
  rw [hsc] at hsc'
  cases hsc'
  rw [hp] at hq
  cases hq
  rfl

theorem Chain.exists_scope {chain : List ScopeId} (h : s.Chain e chain) :
    ∃ sc, s.scopes[e]? = some sc := by
  cases h with
  | last hsc _ => exact ⟨_, hsc⟩
  | next hp _ =>
      obtain ⟨sc, hsc, _⟩ := hp
      exact ⟨sc, hsc⟩

theorem Sees.exists_scope (h : s.Sees name e i) :
    ∃ sc, s.scopes[e]? = some sc := by
  obtain ⟨near, rest, hchain, _⟩ := h
  exact hchain.exists_scope

theorem sees_self (hs : s.WellFormed) (he : e < s.scopes.size) :
    s.Sees name e e := by
  obtain ⟨chain, hchain⟩ := hs.exists_chain he
  cases hchain with
  | last hsc hp => exact ⟨[], [], .last hsc hp, by simp⟩
  | next hp hrest => exact ⟨[], _, .next hp hrest, by simp⟩

theorem Sees.of_inside (hname : ∀ w, ¬ s.Binds e name w)
    (hp : s.Inside e p) (h : s.Sees name p i) : s.Sees name e i := by
  obtain ⟨near, rest, hchain, hfree⟩ := h
  refine ⟨e :: near, rest, .next hp hchain, ?_⟩
  intro j hj
  rcases List.mem_cons.1 hj with rfl | hj
  · exact hname
  · exact hfree j hj

/-- Another scope is seen through the scope around. -/
theorem Sees.outward (h : s.Sees name e i) (hne : i ≠ e) :
    (∀ w, ¬ s.Binds e name w) ∧ ∃ p, s.Inside e p ∧ s.Sees name p i := by
  obtain ⟨near, rest, hchain, hfree⟩ := h
  cases near with
  | nil =>
      -- The chain starts with the scope that it is the chain of.
      cases hchain with
      | last _ _ => exact absurd rfl hne
      | next _ _ => exact absurd rfl hne
  | cons j near =>
      generalize hc : j :: near ++ i :: rest = chain at hchain
      cases hchain with
      | last _ _ => simp at hc
      | next hp hrest =>
          obtain ⟨rfl, rfl⟩ := List.cons.inj hc
          refine ⟨hfree j List.mem_cons_self, _, hp, near, rest, hrest, ?_⟩
          exact fun k hk => hfree k (List.mem_cons_of_mem j hk)

theorem Sees.eq_of_binds (h : s.Sees name e i) (hv : s.Binds e name v) :
    i = e := by
  by_cases hne : i = e
  · exact hne
  · exact absurd hv ((h.outward hne).1 v)

theorem Sees.inside (h : s.Sees name e i) (hne : i ≠ e) (hp : s.Inside e p) :
    s.Sees name p i := by
  obtain ⟨-, q, hq, hsees⟩ := h.outward hne
  rw [hp.unique hq]
  exact hsees

/-! ## The walks come out at the nearest binding -/

theorem Search.eq_some_iff {looked : List ScopeId} {owner : Option ScopeId}
    (h : s.Search name e looked owner) (hs : s.WellFormed) :
    owner = some i ↔ s.Nearest name e i := by
  induction h with
  | found hv =>
      constructor
      · intro heq
        cases heq
        exact ⟨sees_self hs hv.lt, _, hv⟩
      · intro hnearest
        obtain ⟨hsees, _⟩ := hnearest
        rw [hsees.eq_of_binds hv]
  | @lost e sc hsc hname hp =>
      constructor
      · intro heq
        cases heq
      · intro hnearest
        obtain ⟨hsees, w, hw⟩ := hnearest
        by_cases hne : i = e
        · subst hne
          exact absurd hw (not_binds hsc hname w)
        · obtain ⟨-, q, ⟨sc', hsc', hq⟩, -⟩ := hsees.outward hne
          rw [hsc] at hsc'
          cases hsc'
          rw [hp] at hq
          cases hq
  | @outside e p sc looked owner hsc hname hp _ ih =>
      have hinside : s.Inside e p := ⟨sc, hsc, hp⟩
      rw [ih]
      constructor
      · intro hnearest
        obtain ⟨hsees, hw⟩ := hnearest
        exact ⟨hsees.of_inside (not_binds hsc hname) hinside, hw⟩
      · intro hnearest
        obtain ⟨hsees, w, hw⟩ := hnearest
        have hne : i ≠ e := by
          rintro rfl
          exact not_binds hsc hname w hw
        exact ⟨hsees.inside hne hinside, w, hw⟩

/-- From a scope that is there, the search stays within the bound that the
walks have. -/
theorem WellFormed.exists_search (hs : s.WellFormed)
    (he : e < s.scopes.size) (name : String) :
    ∃ looked owner, s.Search name e looked owner ∧
      looked.length ≤ e + 1 := by
  obtain ⟨chain, hchain⟩ := hs.exists_chain he
  obtain ⟨looked, owner, hsearch⟩ := hchain.exists_search name
  refine ⟨looked, owner, hsearch, ?_⟩
  exact Nat.le_trans (hsearch.along hchain).length_le (hchain.length_le hs)

theorem walks_agree (hs : s.WellFormed) (e : ScopeId) (name : String) :
    (∀ i, s.owner? e name = some i ↔ s.Nearest name e i) ∧
      ∀ v, s.get? e name = some v ↔
        ∃ i, s.owner? e name = some i ∧ s.Binds i name v := by
  by_cases he : e < s.scopes.size
  · obtain ⟨looked, owner, hsearch, hlength⟩ := hs.exists_search he name
    have howner : s.owner? e name = owner := hsearch.ownerWithin_eq hlength
    rw [howner]
    exact ⟨fun i => hsearch.eq_some_iff hs, (hsearch.agrees hlength).1⟩
  · have hnone : s.scopes[e]? = none :=
      Array.getElem?_eq_none (Nat.not_lt.1 he)
    have howner : s.owner? e name = none := by rw [owner?, ownerWithin, hnone]
    have hget : s.get? e name = none := by rw [get?, getWithin, hnone]
    rw [howner, hget]
    refine ⟨fun i => iff_of_false (by simp) ?_, by simp⟩
    intro hnearest
    obtain ⟨hsees, _⟩ := hnearest
    obtain ⟨sc, hsc⟩ := hsees.exists_scope
    rw [hnone] at hsc
    cases hsc

theorem owner?_eq_some_iff (hs : s.WellFormed) :
    s.owner? e name = some i ↔ s.Nearest name e i :=
  (walks_agree hs e name).1 i

theorem get?_eq_some_iff (hs : s.WellFormed) :
    s.get? e name = some v ↔
      ∃ i, s.Nearest name e i ∧ s.Binds i name v := by
  rw [(walks_agree hs e name).2 v]
  exact exists_congr fun i => and_congr_left' (owner?_eq_some_iff hs)

theorem Nearest.unique {j : ScopeId} (hs : s.WellFormed)
    (h : s.Nearest name e i) (h' : s.Nearest name e j) : i = j := by
  rw [← owner?_eq_some_iff hs] at h h'
  rw [h] at h'
  cases h'
  rfl

theorem contains_iff (hs : s.WellFormed) :
    s.contains e name = true ↔ ∃ i, s.Nearest name e i := by
  rw [contains_eq, Option.isSome_iff_exists]
  exact exists_congr fun i => owner?_eq_some_iff hs

theorem isSome_get?_iff (hs : s.WellFormed) :
    (s.get? e name).isSome = true ↔ ∃ i, s.Nearest name e i := by
  rw [Option.isSome_iff_exists]
  constructor
  · intro hget
    obtain ⟨v, hv⟩ := hget
    obtain ⟨i, hi, _⟩ := (get?_eq_some_iff hs).1 hv
    exact ⟨i, hi⟩
  · intro hnearest
    obtain ⟨i, hi⟩ := hnearest
    obtain ⟨v, hv⟩ := hi.2
    exact ⟨v, (get?_eq_some_iff hs).2 ⟨i, hi, hv⟩⟩

theorem exists_assign?_iff (hs : s.WellFormed) :
    (∃ s', s.assign? e name v = some s') ↔ ∃ i, s.Nearest name e i := by
  rw [← contains_iff hs, contains_eq, assign?_eq]
  cases s.owner? e name with
  | none => simp
  | some owner => simp

/-! ## Definitions -/

/-- Who sees the scope finds the new value, however far away. -/
theorem getWithin_define_of_sees (hs : s.WellFormed) {limit : Nat}
    {e' : ScopeId} (h : s.Sees name e' e) (hl : e' < limit) :
    (s.define e name v).getWithin name limit e' = some v := by
  induction limit generalizing e' with
  | zero => exact absurd hl (Nat.not_lt_zero e')
  | succ limit ih =>
      obtain ⟨sc, hsc⟩ := h.exists_scope
      by_cases heq : e = e'
      · subst heq
        rw [getWithin, getElem?_define_self hsc]
        simp
      · obtain ⟨hname, p, hp, hsees⟩ := h.outward heq
        have hlt := hs.around e' p hp
        obtain ⟨sc', hsc', hp⟩ := hp
        rw [hsc] at hsc'
        cases hsc'
        have hnone : sc.bindings.get? name = none := by
          rw [Option.eq_none_iff_forall_not_mem]
          exact fun w hw => hname w ⟨sc, hsc, hw⟩
        rw [getWithin, getElem?_define_of_ne (Ne.symm heq), hsc]
        simp only [hnone, hp]
        exact ih hsees (Nat.lt_of_lt_of_le hlt (Nat.le_of_lt_succ hl))

/-- Nobody else finds anything new. -/
theorem getWithin_define_of_not_sees (hs : s.WellFormed) {limit : Nat}
    {e' : ScopeId} {m : String} (h : ¬ (m = name ∧ s.Sees name e' e)) :
    (s.define e name v).getWithin m limit e' = s.getWithin m limit e' := by
  induction limit generalizing e' with
  | zero => rfl
  | succ limit ih =>
      cases hsc : s.scopes[e']? with
      | none =>
          have hnone : (s.define e name v).scopes[e']? = none := by
            rw [Array.getElem?_eq_none_iff] at hsc ⊢
            rw [size_define]
            exact hsc
          rw [getWithin, getWithin, hsc, hnone]
      | some sc =>
          -- The scope's own binding of `m` is the old one: either the write
          -- went elsewhere, or it was of another name.
          have hown : ∃ sc', (s.define e name v).scopes[e']? = some sc' ∧
              sc'.bindings.get? m = sc.bindings.get? m ∧
              sc'.parent = sc.parent := by
            by_cases heq : e' = e
            · subst heq
              have hm : m ≠ name := fun hm =>
                h ⟨hm, sees_self hs (lt_of_getElem? hsc)⟩
              refine ⟨_, getElem?_define_self hsc, ?_, rfl⟩
              rw [Bindings.get?_insert, if_neg hm]
            · exact ⟨sc, by rw [getElem?_define_of_ne heq, hsc], rfl, rfl⟩
          obtain ⟨sc', hsc', hget, hparent⟩ := hown
          rw [getWithin, getWithin, hsc, hsc']
          simp only [hget, hparent]
          cases hname : sc.bindings.get? m with
          | some w => rfl
          | none =>
              cases hp : sc.parent with
              | none => rfl
              | some p =>
                  refine ih fun hseen => ?_
                  obtain ⟨rfl, hsees⟩ := hseen
                  exact h ⟨rfl,
                    hsees.of_inside (not_binds hsc hname) ⟨sc, hsc, hp⟩⟩

theorem changesTo_define (hs : s.WellFormed) :
    s.ChangesTo (s.define e name v) name v fun e' => s.Sees name e' e := by
  intro e' m
  constructor
  · rintro ⟨rfl, hsees⟩
    exact getWithin_define_of_sees hs hsees (Nat.lt_succ_self e')
  · exact fun h => getWithin_define_of_not_sees hs h

theorem names_define_of_binds {w : Value} (h : s.Binds e name w)
    (i : ScopeId) : (s.define e name v).names i = s.names i := by
  obtain ⟨sc, hsc, hw⟩ := h
  by_cases heq : i = e
  · subst heq
    rw [names, names, getElem?_define_self hsc, hsc]
    exact Bindings.names_insert_of_isSome (by rw [hw]; rfl)
  · rw [names, names, getElem?_define_of_ne heq]

/-! ## Assignments -/

theorem changesTo_assign (hs : s.WellFormed) {s' : Store}
    (h : s.assign? e name v = some s') :
    (∀ i, s'.names i = s.names i) ∧ s.ChangesTo s' name v fun e' =>
      ∃ i, s.Nearest name e i ∧ s.Nearest name e' i := by
  rw [assign?_eq] at h
  obtain ⟨owner, howner, rfl⟩ := Option.map_eq_some_iff.1 h
  have hnearest := (owner?_eq_some_iff hs).1 howner
  obtain ⟨w, hw⟩ := hnearest.2
  refine ⟨names_define_of_binds hw, ?_⟩
  have hseen (e' : ScopeId) : s.Sees name e' owner ↔
      ∃ i, s.Nearest name e i ∧ s.Nearest name e' i := by
    constructor
    · exact fun hsees => ⟨owner, hnearest, hsees, w, hw⟩
    · intro hboth
      obtain ⟨i, hi, hi'⟩ := hboth
      rw [hnearest.unique hs hi]
      exact hi'.1
  simp only [← hseen]
  exact changesTo_define hs

end Store

/-! ## Seen from every scope -/

theorem lookup_eq_ok_iff {st st' : State} {e : ScopeId} {name : String}
    {v : Value} : Eval.lookup e name st = .ok v st' ↔
      st.store.get? e name = some v ∧ st' = st := by
  rw [Eval.lookup]
  cases st.store.get? e name with
  | none => simp
  | some w =>
      simp only [EStateM.Result.ok.injEq, Option.some.injEq]
      exact and_congr_right fun _ => eq_comm

theorem assign_eq_ok_iff {st st' : State} {e : ScopeId} {name : String}
    {v : Value} : Eval.assign e name v st = .ok () st' ↔
      ∃ s', st.store.assign? e name v = some s' ∧
        st' = { st with store := s' } := by
  rw [Eval.assign]
  cases st.store.assign? e name v with
  | none => simp
  | some s' =>
      simp only [EStateM.Result.ok.injEq, true_and, Option.some.injEq,
        exists_eq_left']
      exact eq_comm

/-- In a well-formed store a name is bound, has a value, can be looked up and
can be assigned to from a scope under one and the same condition: there is a
nearest scope that binds it. An assignment that finds none changes nothing.
One that does changes the name for those scopes that have the same nearest
binding of it, and the names of no scope. A definition changes the name for
those scopes that see the scope it is made in. All else means the same
before and after, from every scope. -/
theorem changes_seen_lexically {st : State} (hs : st.store.WellFormed)
    (e : ScopeId) (name : String) (v : Value) :
    ((st.store.contains e name = true ↔ ∃ i, st.store.Nearest name e i) ∧
      ((st.store.get? e name).isSome = true ↔
        ∃ i, st.store.Nearest name e i) ∧
      ((∃ w, Eval.lookup e name st = .ok w st) ↔
        ∃ i, st.store.Nearest name e i) ∧
      ((∃ st', Eval.assign e name v st = .ok () st') ↔
        ∃ i, st.store.Nearest name e i)) ∧
    ((¬ ∃ i, st.store.Nearest name e i) →
      Eval.assign e name v st = .error (.failed (.unbound name)) st) ∧
    (∀ st', Eval.assign e name v st = .ok () st' →
      (∀ i, st'.store.names i = st.store.names i) ∧
      st.store.ChangesTo st'.store name v fun e' =>
        ∃ i, st.store.Nearest name e i ∧ st.store.Nearest name e' i) ∧
    st.store.ChangesTo (st.store.define e name v) name v fun e' =>
      st.store.Sees name e' e := by
  refine ⟨⟨Store.contains_iff hs, Store.isSome_get?_iff hs, ?_, ?_⟩,
    fun hnone => ?_, fun st' h => ?_, Store.changesTo_define hs⟩
  · rw [← Store.isSome_get?_iff hs, Option.isSome_iff_exists]
    refine exists_congr fun w => ?_
    rw [lookup_eq_ok_iff, and_iff_left rfl]
  · rw [← Store.exists_assign?_iff (v := v) hs]
    constructor
    · intro hassign
      obtain ⟨st', h⟩ := hassign
      obtain ⟨s', hs', _⟩ := assign_eq_ok_iff.1 h
      exact ⟨s', hs'⟩
    · intro hassign
      obtain ⟨s', hs'⟩ := hassign
      exact ⟨_, assign_eq_ok_iff.2 ⟨s', hs', rfl⟩⟩
  · rw [← Store.exists_assign?_iff (v := v) hs] at hnone
    rw [Eval.assign]
    split
    · next s' hs' => exact absurd ⟨s', hs'⟩ hnone
    · rfl
  · obtain ⟨s', hs', rfl⟩ := assign_eq_ok_iff.1 h
    exact Store.changesTo_assign hs hs'

theorem Store.wellFormed_root : (Store.empty.addScope none).WellFormed := by
  constructor
  · intro i p hp
    rcases Store.inside_of_addScope hp with ⟨_, hnone⟩ | ⟨sc, hsc, _⟩
    · cases hnone
    · cases hsc
  · intro i name v hv
    obtain ⟨sc, hsc, _⟩ := Store.binds_of_addScope hv
    cases hsc

/-- A root that binds `x`, a scope inside it that hides that binding, one
scope further in, and one next to them. -/
def hiddenState : State where
  store := (((((Store.empty.addScope none).define 0 "x" (.int 1)).addScope
    (some 0)).define 1 "x" (.int 2)).addScope (some 1)).addScope (some 0)
  console := ⟨"", false⟩

theorem hiddenState_wellFormed : hiddenState.store.WellFormed := by
  have hint (n : Int64) (k : Nat) : ∀ b, (Value.int n).Refers b → b < k := by
    rintro b ⟨f, hf, _⟩
    cases hf
  refine Store.WellFormed.addScope
    (.addScope (.define (.addScope ?_ ?_) ?_) ?_) ?_
  · exact Store.wellFormed_root.define (hint 1 _)
  · decide
  · exact hint 2 _
  · decide
  · decide

theorem hiddenState_changes :
    hiddenState.store.WellFormed ∧ ∃ st',
      Eval.assign 2 "x" (.int 3) hiddenState = .ok () st' ∧
      st'.store.names 2 = [] ∧
      st'.store.get? 2 "x" = some (.int 3) ∧
      st'.store.get? 3 "x" = some (.int 1) ∧
      (hiddenState.store.define 0 "x" (.int 4)).get? 2 "x" =
        some (.int 2) := by
  have hs := hiddenState_wellFormed
  obtain ⟨⟨hcontains, -⟩, -, hassign, -⟩ :=
    changes_seen_lexically hs 2 "x" (.int 3)
  obtain ⟨-, -, -, hdefine⟩ := changes_seen_lexically hs 0 "x" (.int 4)
  have howner {e i j : ScopeId} (h : hiddenState.store.owner? e "x" = some i)
      (hj : hiddenState.store.Nearest "x" e j) : i = j :=
    ((Store.owner?_eq_some_iff hs).1 h).unique hs hj
  obtain ⟨hnames, hchanges⟩ := hassign _ rfl
  refine ⟨hs, _, rfl, (hnames 2).trans (by decide), ?_, ?_, ?_⟩
  · obtain ⟨i, hi⟩ := hcontains.1 (by decide)
    exact (hchanges 2 "x").1 ⟨rfl, i, hi, hi⟩
  · rw [(hchanges 3 "x").2]
    · rfl
    · intro hboth
      obtain ⟨-, i, hi, hi'⟩ := hboth
      have hone : 1 = i := howner (by decide) hi
      have hzero : 0 = i := howner (by decide) hi'
      exact absurd (hone.trans hzero.symm) (by decide)
  · rw [(hdefine 2 "x").2]
    · rfl
    · intro hseen
      obtain ⟨-, hsees⟩ := hseen
      have hone : 1 = 0 := howner (e := 2) (by decide)
        ⟨hsees, .int 1, _, rfl, rfl⟩
      omega

end SmallLisp
