import SmallLisp.Proofs.Reachability
import SmallLisp.Proofs.Sessions

/-!
# Scopes lie one inside the other, up to the root

A function that is stored in the scope it was made in makes the values of
a session refer to each other in circles. The scopes themselves are never
in a circle: a scope is opened inside one that is there already, and is
not moved afterwards. `WellFormed` says so by the numbers, together with
what makes the next step possible, that every scope that a value refers to
is there.

A session keeps its store well formed. Then the scopes around a scope form
a chain that comes to an end, each of them older than the one before. The
search for a name goes along that chain (`Search` is the search without a
bound on its length), so it ends and looks at no scope twice, and the bound
that `get?`, `contains` and `assign?` put on it cuts nothing off.
-/

namespace SmallLisp

namespace Store

/-- A scope is older than those inside it, and what values refer to is
there. -/
structure WellFormed (s : Store) : Prop where
  around : ∀ i p, s.Inside i p → p < i
  bound : ∀ i name v, s.Binds i name v →
    ∀ b, v.Refers b → b < s.scopes.size

/-- The scopes from `e` outward, down to one that has none around it. -/
inductive Chain (s : Store) : ScopeId → List ScopeId → Prop where
  | last {e : ScopeId} {sc : Scope} (hsc : s.scopes[e]? = some sc)
      (hp : sc.parent = none) : Chain s e [e]
  | next {e p : ScopeId} {rest : List ScopeId} (hp : s.Inside e p)
      (hrest : Chain s p rest) : Chain s e (e :: rest)

/-- The search for a name from `e` outward, however long it takes: the
scopes that it looks at, and the one where it finds the name, if any. -/
inductive Search (s : Store) (name : String) :
    ScopeId → List ScopeId → Option ScopeId → Prop where
  | found {e : ScopeId} {v : Value} (h : s.Binds e name v) :
      Search s name e [e] (some e)
  | lost {e : ScopeId} {sc : Scope} (hsc : s.scopes[e]? = some sc)
      (hname : sc.bindings.get? name = none) (hp : sc.parent = none) :
      Search s name e [e] none
  | outside {e p : ScopeId} {sc : Scope} {looked : List ScopeId}
      {owner : Option ScopeId} (hsc : s.scopes[e]? = some sc)
      (hname : sc.bindings.get? name = none) (hp : sc.parent = some p)
      (h : Search s name p looked owner) :
      Search s name e (e :: looked) owner

variable {s : Store} {e : ScopeId} {name : String} {v : Value}
  {chain looked : List ScopeId} {owner : Option ScopeId}

/-! ## Chains -/

theorem WellFormed.exists_chain (hs : s.WellFormed)
    (he : e < s.scopes.size) : ∃ chain, s.Chain e chain := by
  induction e using Nat.strongRecOn with
  | ind e ih =>
      obtain ⟨sc, hsc⟩ : ∃ sc, s.scopes[e]? = some sc :=
        ⟨_, Array.getElem?_eq_getElem he⟩
      cases hp : sc.parent with
      | none => exact ⟨[e], .last hsc hp⟩
      | some p =>
          -- The scope around has a smaller number, so its chain is there.
          have hinside : s.Inside e p := ⟨sc, hsc, hp⟩
          have hlt := hs.around e p hinside
          obtain ⟨rest, hrest⟩ := ih p hlt (Nat.lt_trans hlt he)
          exact ⟨e :: rest, .next hinside hrest⟩

theorem Chain.le (h : s.Chain e chain) (hs : s.WellFormed) :
    ∀ i ∈ chain, i ≤ e := by
  induction h with
  | last _ _ =>
      intro i hi
      exact Nat.le_of_eq (List.mem_singleton.1 hi)
  | @next e p rest hp _ ih =>
      intro i hi
      rcases List.mem_cons.1 hi with rfl | hi
      · exact Nat.le_refl i
      · exact Nat.le_trans (ih i hi) (Nat.le_of_lt (hs.around e p hp))

theorem Chain.decreases (h : s.Chain e chain) (hs : s.WellFormed) :
    chain.Pairwise (· > ·) := by
  induction h with
  | last _ _ => exact List.pairwise_singleton _ _
  | @next e p rest hp hrest ih =>
      refine List.pairwise_cons.2 ⟨fun i hi => ?_, ih⟩
      exact Nat.lt_of_le_of_lt (hrest.le hs i hi) (hs.around e p hp)

theorem Chain.length_le (h : s.Chain e chain) (hs : s.WellFormed) :
    chain.length ≤ e + 1 := by
  induction h with
  | last _ _ => exact Nat.le_add_left 1 _
  | @next e p rest hp _ ih =>
      exact Nat.succ_le_succ (Nat.le_trans ih (hs.around e p hp))

/-! ## Searches -/

theorem Chain.exists_search (h : s.Chain e chain) (name : String) :
    ∃ looked owner, s.Search name e looked owner := by
  induction h with
  | @last e sc hsc hp =>
      cases hname : sc.bindings.get? name with
      | none => exact ⟨_, _, .lost hsc hname hp⟩
      | some v => exact ⟨_, _, .found ⟨sc, hsc, hname⟩⟩
  | @next e p rest hinside _ ih =>
      obtain ⟨sc, hsc, hp⟩ := hinside
      cases hname : sc.bindings.get? name with
      | none =>
          obtain ⟨looked, owner, hsearch⟩ := ih
          exact ⟨_, _, .outside hsc hname hp hsearch⟩
      | some v => exact ⟨_, _, .found ⟨sc, hsc, hname⟩⟩

/-- The search goes along the chain. -/
theorem Search.along (h : s.Search name e looked owner)
    (hc : s.Chain e chain) : looked <+: chain := by
  induction h generalizing chain with
  | found _ =>
      cases hc with
      | last _ _ => exact List.prefix_rfl
      | next _ _ => exact List.cons_prefix_cons.2 ⟨rfl, List.nil_prefix⟩
  | lost _ _ _ =>
      cases hc with
      | last _ _ => exact List.prefix_rfl
      | next _ _ => exact List.cons_prefix_cons.2 ⟨rfl, List.nil_prefix⟩
  | outside hsc _ hp _ ih =>
      cases hc with
      | last hsc' hp' =>
          rw [hsc] at hsc'
          cases hsc'
          rw [hp] at hp'
          cases hp'
      | next hinside hrest =>
          obtain ⟨sc', hsc', hp'⟩ := hinside
          rw [hsc] at hsc'
          cases hsc'
          rw [hp] at hp'
          cases hp'
          -- The two steps outward read the same field.
          exact List.cons_prefix_cons.2 ⟨rfl, ih hrest⟩

/-- A bound that the search does not reach makes no difference to it. -/
theorem Search.ownerWithin_eq (h : s.Search name e looked owner)
    {limit : Nat} (hl : looked.length ≤ limit) :
    s.ownerWithin name limit e = owner := by
  induction h generalizing limit with
  | found hv =>
      obtain ⟨n, rfl⟩ := Nat.exists_eq_add_of_lt hl
      obtain ⟨sc, hsc, hv⟩ := hv
      rw [ownerWithin, hsc]
      simp only [hv, Option.isSome_some, if_true]
  | lost hsc hname hp =>
      obtain ⟨n, rfl⟩ := Nat.exists_eq_add_of_lt hl
      rw [ownerWithin, hsc]
      simp [hname, hp]
  | outside hsc hname hp _ ih =>
      obtain ⟨n, rfl⟩ := Nat.exists_eq_add_of_lt hl
      rw [ownerWithin, hsc]
      simp only [hname, hp, Option.isSome_none]
      exact ih (Nat.le_add_right _ n)

theorem Search.getWithin_eq_some_iff (h : s.Search name e looked owner)
    {limit : Nat} (hl : looked.length ≤ limit) :
    s.getWithin name limit e = some v ↔
      ∃ i, owner = some i ∧ s.Binds i name v := by
  induction h generalizing limit with
  | @found e w hw =>
      obtain ⟨n, rfl⟩ := Nat.exists_eq_add_of_lt hl
      obtain ⟨sc, hsc, hw⟩ := hw
      rw [getWithin, hsc]
      simp [hw, Binds, hsc]
  | lost hsc hname hp =>
      obtain ⟨n, rfl⟩ := Nat.exists_eq_add_of_lt hl
      rw [getWithin, hsc]
      simp [hname, hp]
  | outside hsc hname hp _ ih =>
      obtain ⟨n, rfl⟩ := Nat.exists_eq_add_of_lt hl
      rw [getWithin, hsc]
      simp only [hname, hp]
      exact ih (Nat.le_add_right _ n)

/-- The three ways to search end where the search without a bound does. -/
theorem Search.agrees (h : s.Search name e looked owner)
    (hl : looked.length ≤ e + 1) :
    (∀ v, s.get? e name = some v ↔
      ∃ i, owner = some i ∧ s.Binds i name v) ∧
    s.contains e name = owner.isSome ∧
    ∀ v, s.assign? e name v = owner.map fun i => s.define i name v := by
  have howner : s.owner? e name = owner := h.ownerWithin_eq hl
  refine ⟨fun v => h.getWithin_eq_some_iff hl, ?_, fun v => ?_⟩
  · rw [contains_eq, howner]
  · rw [assign?_eq, howner]

/-! ## The discipline -/

theorem WellFormed.addScope (hs : s.WellFormed) (he : e < s.scopes.size) :
    (s.addScope (some e)).WellFormed := by
  constructor
  · intro i p hp
    rcases inside_of_addScope hp with ⟨rfl, heq⟩ | hp
    · cases heq
      exact he
    · exact hs.around i p hp
  · intro i m w hw b hb
    have hlt := hs.bound i m w (binds_of_addScope hw) b hb
    rw [size_addScope]
    exact Nat.lt_succ_of_lt hlt

theorem WellFormed.define (hs : s.WellFormed)
    (hv : ∀ b, v.Refers b → b < s.scopes.size) :
    (s.define e name v).WellFormed := by
  constructor
  · intro i p hp
    exact hs.around i p (inside_of_define hp)
  · rw [size_define]
    exact forall_binds_define hs.bound hv

end Store

/-- Stores stay well formed, and values refer to scopes that are there. -/
def nesting : Discipline where
  word _ := True
  holds := Store.WellFormed
  grows s t := s.scopes.size ≤ t.scopes.size
  link s e := e < s.scopes.size
  home s e := e < s.scopes.size
  grows_refl s := Nat.le_refl _
  grows_trans h h' := Nat.le_trans h h'
  link_mono h _ he := Nat.lt_of_lt_of_le he h
  home_mono h _ he := Nat.lt_of_lt_of_le he h
  link_of_home he := he
  addScope := by
    intro s e hs he
    refine ⟨hs.addScope he, ?_, ?_⟩
    · rw [Store.size_addScope]
      exact Nat.le_succ _
    · rw [Store.size_addScope]
      exact Nat.lt_succ_self _
  define := by
    intro s e name v hs _ hv
    exact ⟨hs.define fun b => hv.refers, Nat.le_of_eq Store.size_define.symm⟩
  assign := by
    intro s e name v s' _ hs _ hv h
    obtain ⟨owner, rfl⟩ := Store.exists_define_of_assign h
    exact ⟨hs.define fun b => hv.refers, Nat.le_of_eq Store.size_define.symm⟩
  get := by
    intro s e name v hs _ h
    obtain ⟨i, hb⟩ := Store.exists_binds_of_get? h
    exact Value.only_of_refers (hs.bound i name v hb)
  newLambda := by
    intro s n hs
    exact ⟨⟨hs.around, hs.bound⟩, Nat.le_refl _⟩

theorem nesting_starts : nesting.Starts where
  word _ _ := trivial
  holds := by
    refine ⟨fun i p hp => absurd hp Session.not_inside_fresh, ?_⟩
    intro i name v hv b hb
    obtain ⟨c, rfl⟩ := Session.builtin_of_binds_fresh hv
    obtain ⟨f, hf, _⟩ := hb
    cases hf
  home := by
    show Session.root < Session.fresh.store.scopes.size
    rw [Session.size_fresh]
    exact Nat.zero_lt_one

/-! ## Sessions -/

/-- In every store that a session reaches, the scopes that are referred to
are there, and the scopes around any scope form a chain without repetition
that comes to an end. The search for a name follows the chain, ends, and
is what looking up, asking for and assigning to the name go by. -/
theorem scope_chains_end {s : Store} (h : Session.Reached s) :
    s.WellFormed ∧
    (∀ v, Session.Answered s v → ∀ b, v.Refers b → b < s.scopes.size) ∧
    ∀ e : ScopeId, e < s.scopes.size → ∃ chain,
      s.Chain e chain ∧ chain.Pairwise (· > ·) ∧
      ∀ name, ∃ looked owner, s.Search name e looked owner ∧
        looked <+: chain ∧ looked.Nodup ∧
        (∀ v, s.get? e name = some v ↔
          ∃ i, owner = some i ∧ s.Binds i name v) ∧
        s.contains e name = owner.isSome ∧
        ∀ v, s.assign? e name v = owner.map fun i => s.define i name v := by
  have hs : s.WellFormed := (nesting_starts.kept_of_reached h).1
  refine ⟨hs, fun v hv b hb => ?_, fun e he => ?_⟩
  · exact (nesting_starts.good_of_answered hv).refers hb
  · obtain ⟨chain, hchain⟩ := hs.exists_chain he
    have hdecreases := hchain.decreases hs
    refine ⟨chain, hchain, hdecreases, fun name => ?_⟩
    obtain ⟨looked, owner, hsearch⟩ := hchain.exists_search name
    have halong := hsearch.along hchain
    have hlength := Nat.le_trans halong.length_le (hchain.length_le hs)
    have hnodup : looked.Nodup :=
      (hdecreases.sublist halong.sublist).imp Nat.ne_of_gt
    exact ⟨looked, owner, hsearch, halong, hnodup, hsearch.agrees hlength⟩

/-- Binds `peek` to a function that was made in a scope of its own. -/
def peeking : Value :=
  .list [.symbol "def", .symbol "peek",
    .list [.symbol "let", .list [.symbol "n", .int 0],
      .list [.symbol "fn", .list [], .symbol "n"]]]

theorem peeking_isDatum {admits : Float → Prop} :
    peeking.IsDatum admits := by
  have hname : ∀ n ∈ ["def", "peek", "let", "n", "fn"],
      (Value.symbol n).IsDatum admits := by
    intro n hn
    suffices hw : Token.IsWord (.symbol n) n.toList from
      .symbol (Token.isName_of_isWord hw)
    simp only [List.mem_cons, List.not_mem_nil, or_false] at hn
    rcases hn with rfl | rfl | rfl | rfl | rfl
    all_goals exact Token.isWord_of_all (by decide) (by decide) rfl
  simp only [List.forall_mem_cons] at hname
  obtain ⟨hdef, hpeek, hlet, hn, hfn, -⟩ := hname
  have hpairs : (Value.list [.symbol "n", .int 0]).IsDatum admits :=
    .list (by simp [hn, Value.IsDatum.int])
  have hmade : (Value.list [.symbol "fn", .list [], .symbol "n"]).IsDatum
      admits := .list (by simp [hfn, hn, Value.IsDatum.list])
  have hlets : (Value.list [.symbol "let", .list [.symbol "n", .int 0],
      .list [.symbol "fn", .list [], .symbol "n"]]).IsDatum admits :=
    .list (by simp [hlet, hpairs, hmade])
  exact .list (by simp [hdef, hpeek, hlets])

/-- The store of a session in which `peek` was bound. -/
def peekStore : Store :=
  storeAfter (eval 5 peeking Session.root Session.fresh)

theorem peekStore_reached : Session.Reached peekStore :=
  .form .fresh (read_text peeking_isDatum) (List.mem_singleton_self _) 5

theorem peekStore_chains_end :
    Session.Reached peekStore ∧ peekStore.WellFormed ∧
      ∃ chain, peekStore.Chain 1 chain ∧ chain.Pairwise (· > ·) ∧
        ∃ looked owner, peekStore.Search "peek" 1 looked owner ∧
          looked <+: chain ∧ looked.Nodup ∧ owner.isSome = true := by
  obtain ⟨hs, -, hchains⟩ := scope_chains_end peekStore_reached
  have hsize : 1 < peekStore.scopes.size := by decide +kernel
  obtain ⟨chain, hchain, hdecreases, hsearches⟩ := hchains 1 hsize
  obtain ⟨looked, owner, hsearch, halong, hnodup, -, hcontains, -⟩ :=
    hsearches "peek"
  have hfound : peekStore.contains 1 "peek" = true := by decide +kernel
  rw [hcontains] at hfound
  exact ⟨peekStore_reached, hs, chain, hchain, hdecreases, looked, owner,
    hsearch, halong, hnodup, hfound⟩

end SmallLisp
