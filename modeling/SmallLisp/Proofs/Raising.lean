import SmallLisp.Proofs.Evaluating
import SmallLisp.Proofs.Towers

/-!
# A form that raises a tower

When `x` stands for a list, `(def x (list x x))` puts a list on top that
holds it twice, and `(def x ())` gives up what has been put there. What the
counts are then depends on how the process goes about it, reference by
reference, and the rules of `Follows` say nothing of that. So the evaluation
of the two forms is gone through operation by operation.

While the list is made there are four references more to what `x` stands
for: each of the two names is looked up, and what is found is copied into
the list. Two of them are given up after the call, and the one in the scope
when the new value takes its place (`tower_doubled`, `eval_raiseForm`).
-/

namespace SmallLisp

namespace Run

variable {α β : Type} {m : Run α} {k : α → Run β} {p p' : Process}

theorem bind_ok {a : α} (h : m p = .ok a p') : (m >>= k) p = k a p' := by
  show EStateM.bind m k p = _
  rw [EStateM.bind, h]

theorem bind_congr {m' : Run α} {q : Process} (h : m p = m' q) :
    (m >>= k) p = (m' >>= k) q := by
  show EStateM.bind m k p = EStateM.bind m' k q
  rw [EStateM.bind, EStateM.bind, h]

theorem bind_error {ending : Ending} (h : m p = .error ending p') :
    (m >>= k) p = .error ending p' := by
  show EStateM.bind m k p = _
  rw [EStateM.bind, h]

end Run

/-! ## A scope in the memory -/

namespace Memory

variable {m : Memory} {e id : Nat} {name : String} {c : Cell}
  {bindings : List (String × Cell)} {height : Nat}

/-- A scope is there with these bindings. -/
def HasScope (m : Memory) (e : Nat) (bindings : List (String × Cell)) :
    Prop :=
  ∃ n parent, m.get? ⟨.scope, e⟩ = some ⟨n, .scope bindings parent⟩

theorem HasScope.bindings_eq (h : m.HasScope e bindings) :
    m.bindings e = bindings := by
  obtain ⟨n, parent, h⟩ := h
  simp [Memory.bindings, h]

theorem HasScope.find?_eq (h : m.HasScope e bindings)
    (hc : bindings.lookup name = some c) : m.find? e name = some (e, c) := by
  obtain ⟨n, parent, h⟩ := h
  simp [find?, findWithin, h, hc]

theorem HasScope.alter_of_ne {r : Ref} {f : Entry r.kind → Entry r.kind}
    (h : m.HasScope e bindings) (hr : r ≠ ⟨.scope, e⟩) :
    (m.alter r f).HasScope e bindings := by
  obtain ⟨n, parent, h⟩ := h
  exact ⟨n, parent, (get?_alter_of_ne f hr).trans h⟩

theorem HasScope.share_list (h : m.HasScope e bindings) :
    (m.share ⟨.list, id⟩).HasScope e bindings :=
  h.alter_of_ne nofun

theorem HasScope.lose_list (h : m.HasScope e bindings) :
    (m.lose ⟨.list, id⟩).HasScope e bindings :=
  h.alter_of_ne nofun

theorem HasScope.add_list {x : Node .list} (h : m.HasScope e bindings) :
    (m.add x).HasScope e bindings := by
  obtain ⟨n, parent, h⟩ := h
  have hne : m.next .list ≠ ⟨.scope, e⟩ := fun heq => by
    cases congrArg Ref.kind heq
  exact ⟨n, parent, (get?_add_of_ne x hne).trans h⟩

theorem HasScope.bind (h : m.HasScope e bindings) :
    (m.bind e name c).HasScope e
      ((name, c) :: bindings.filter (·.1 ≠ name)) := by
  obtain ⟨n, parent, h⟩ := h
  refine ⟨n, parent, ?_⟩
  rw [Memory.bind, get?_alter_self, h]
  rfl

theorem get?_bind_list :
    (m.bind e name c).get? ⟨.list, id⟩ = m.get? ⟨.list, id⟩ := by
  have hne : (⟨.scope, e⟩ : Ref) ≠ ⟨.list, id⟩ := nofun
  rw [Memory.bind, get?_alter_of_ne _ hne]

/-- The name `x` stands for a tower that nothing else refers to, and `list`
for the builtin. -/
structure Raises (m : Memory) (e height id : Nat) : Prop where
  scope : ∃ rest, m.HasScope e (("x", .list id) :: rest) ∧
    rest.filter (·.1 = "x") = [] ∧
    rest.lookup "list" = some (.plain (.builtin .list))
  tower : m.Tower height 1 id

end Memory

/-! ## The operations that it takes -/

namespace Process

open Memory

variable {p : Process} {J : Multiset Ref} {r : Ref} {e height id : Nat}
  {name : String} {c : Cell}

/-- After a reference was copied. -/
def shared (p : Process) (r : Ref) : Process :=
  ⟨p.state, p.memory.share r, r :: p.held, p.room⟩

/-- After one of several references was given up. -/
def lost (p : Process) (r : Ref) : Process :=
  ⟨p.state, p.memory.lose r, p.held.erase r, p.room⟩

@[simp] theorem memory_shared (p : Process) (r : Ref) :
    (p.shared r).memory = p.memory.share r := rfl

@[simp] theorem memory_lost (p : Process) (r : Ref) :
    (p.lost r).memory = p.memory.lose r := rfl

@[simp] theorem room_shared (p : Process) (r : Ref) :
    (p.shared r).room = p.room := rfl

@[simp] theorem room_lost (p : Process) (r : Ref) :
    (p.lost r).room = p.room := rfl

theorem drop_of_shared (h : p.memory.count r ≠ 1) :
    Run.drop r p = .ok () (p.lost r) := by
  rw [Run.drop, Teardown.start, Teardown.finish, if_neg h,
    Teardown.drop_of_shared h, Teardown.finish]
  rfl

theorem eval_symbol (fuel : Nat) (name : String) (c : Cell) (e : ScopeId) :
    eval (fuel + 1) ⟨.symbol name, c⟩ e = Run.lookup e name := by
  simp [eval, step]

theorem found (hp : p.Holding J) (he : p.memory.Guards J ⟨.scope, e⟩)
    {owner : Nat} (hfind : p.memory.find? e name = some (owner, c)) :
    ∃ v, FoundAs p.memory p.state.store name (e + 1) e owner c v := by
  have hsought := sought hp.exact hp.mirrors name (e + 1) (hp.live he)
  rwa [← find?, hfind] at hsought

theorem lookup_ok (hp : p.Holding J) (he : p.memory.Guards J ⟨.scope, e⟩)
    {owner : Nat} (hfind : p.memory.find? e name = some (owner, c)) :
    ∃ v, p.memory.Reads c v ∧ Run.lookup e name p =
      (do Run.copyCell c; return ⟨v, c⟩ : Run Placed) p := by
  obtain ⟨v, hv⟩ := found hp he hfind
  have hlookup : Run.plainly (Eval.lookup e name) p = .ok v p := by
    simp only [Run.plainly, Eval.lookup, Store.get?, hv.get]
  have hlook : Run.look (fun m => m.find? e name) p =
      .ok (some (owner, c)) p := by
    rw [← hfind]
    rfl
  refine ⟨v, hv.reads, ?_⟩
  rw [Run.lookup, Run.bind_ok hlookup, Run.bind_ok hlook]
  rfl

theorem exists_get?_of_found (hp : p.Holding J)
    (he : p.memory.Guards J ⟨.scope, e⟩) {owner : Nat}
    (hfind : p.memory.find? e name = some (owner, .list id)) :
    ∃ x, p.memory.get? ⟨.list, id⟩ = some x := by
  obtain ⟨v, hv⟩ := found hp he hfind
  obtain ⟨x, hx⟩ := hp.exact.exists_node? (.inr ⟨_, hv.holds _ rfl⟩)
  obtain ⟨entry, hentry, -⟩ := Option.map_eq_some_iff.1 hx
  exact ⟨entry, hentry⟩

/-- Evaluating the name of a list. -/
theorem eval_name_of_list (fuel : Nat) (hp : p.Holding J)
    (he : p.memory.Guards J ⟨.scope, e⟩) {owner : Nat}
    (hfind : p.memory.find? e name = some (owner, .list id)) :
    ∃ v, eval (fuel + 1) ⟨.symbol name, c⟩ e p =
      .ok ⟨v, .list id⟩ (p.shared ⟨.list, id⟩) := by
  obtain ⟨v, -, hv⟩ := lookup_ok hp he hfind
  exact ⟨v, by rw [eval_symbol, hv]; rfl⟩

theorem eval_name_of_builtin (fuel : Nat) (hp : p.Holding J)
    (he : p.memory.Guards J ⟨.scope, e⟩) {owner : Nat} {b : Builtin}
    (hfind : p.memory.find? e name = some (owner, .plain (.builtin b))) :
    eval (fuel + 1) ⟨.symbol name, c⟩ e p =
      .ok ⟨.builtin b, .plain (.builtin b)⟩ p := by
  obtain ⟨v, hreads, hv⟩ := lookup_ok hp he hfind
  cases hreads with
  | plain _ => rw [eval_symbol, hv]; rfl

/-- After a list was made that holds two values. -/
def paired (p : Process) (id : Nat) : Process :=
  ⟨p.state, p.memory.add (pair id), p.memory.next .list ::
    [⟨.list, id⟩, ⟨.list, id⟩].foldl List.erase p.held, p.room⟩

@[simp] theorem memory_paired (p : Process) (id : Nat) :
    (p.paired id).memory = p.memory.add (pair id) := rfl

@[simp] theorem room_paired (p : Process) (id : Nat) :
    (p.paired id).room = p.room := rfl

theorem applyBuiltin_list (call : Caller) (v w : Value) (id : Nat)
    (p : Process) :
    applyBuiltin call .list [⟨v, .list id⟩, ⟨w, .list id⟩] p =
      .ok ⟨.list [v, w], .list (((p.shared ⟨.list, id⟩).shared
        ⟨.list, id⟩).memory.next .list).id⟩
        (((p.shared ⟨.list, id⟩).shared ⟨.list, id⟩).paired id) :=
  rfl

/-- What a value is after it was taken twice, to be evaluated and to be put
into the list. -/
def fourfold (p : Process) (id : Nat) : Process :=
  (((p.shared ⟨.list, id⟩).shared ⟨.list, id⟩).shared ⟨.list, id⟩).shared
    ⟨.list, id⟩

/-- After `(list x x)` was evaluated. -/
def doubled (p : Process) (id : Nat) : Process :=
  (((p.fourfold id).paired id).lost ⟨.list, id⟩).lost ⟨.list, id⟩

theorem get?_shared {x : Entry r.kind} (h : p.memory.get? r = some x) :
    (p.shared r).memory.get? r = some { x with count := x.count + 1 } := by
  simp [Memory.share, h]

theorem get?_fourfold {x : Entry .list}
    (h : p.memory.get? ⟨.list, id⟩ = some x) :
    (p.fourfold id).memory.get? ⟨.list, id⟩ =
      some { x with count := x.count + 4 } :=
  get?_shared (get?_shared (get?_shared (get?_shared h)))

theorem get?_paired {x : Entry .list}
    (h : p.memory.get? ⟨.list, id⟩ = some x) :
    (p.paired id).memory.get? ⟨.list, id⟩ = some x := by
  refine (get?_add_of_ne (pair id) fun heq => ?_).trans h
  exact absurd (congrArg Ref.id heq) (Nat.ne_of_gt (lt_of_get? h))

theorem get?_lost {x : Entry r.kind} (h : p.memory.get? r = some x) :
    (p.lost r).memory.get? r = some { x with count := x.count - 1 } := by
  simp [Memory.lose, h]

theorem callStep_pair {ev : Evaluator} {v w : Value} {x : Entry .list}
    (h : p.memory.get? ⟨.list, id⟩ = some x) :
    callStep ev ⟨.builtin .list, c⟩ [⟨v, .list id⟩, ⟨w, .list id⟩]
        ((p.shared ⟨.list, id⟩).shared ⟨.list, id⟩) =
      .ok (.done ⟨.list [v, w], .list ((p.fourfold id).memory.next .list).id⟩)
        (p.doubled id) := by
  have hpaired := get?_paired (get?_fourfold h)
  have hfirst : ((p.fourfold id).paired id).memory.count ⟨.list, id⟩ ≠ 1 := by
    rw [count_of_get? hpaired]
    exact Nat.succ_succ_ne_one _
  have hsecond : (((p.fourfold id).paired id).lost
      ⟨.list, id⟩).memory.count ⟨.list, id⟩ ≠ 1 := by
    rw [count_of_get? (get?_lost hpaired)]
    exact Nat.succ_succ_ne_one _
  have hdrops : Run.dropAll [⟨.list, id⟩, ⟨.list, id⟩]
      ((p.fourfold id).paired id) = .ok () (p.doubled id) := by
    rw [Run.dropAll, Run.bind_ok (drop_of_shared hfirst), Run.dropAll,
      Run.bind_ok (drop_of_shared hsecond)]
    rfl
  show (applyBuiltin ev.call .list _ >>= _) _ = _
  rw [Run.bind_ok (applyBuiltin_list ..)]
  show (Run.dropAll [⟨.list, id⟩, ⟨.list, id⟩] >>= _) _ = _
  exact Run.bind_ok hdrops

/-- A list that is kept, one of a name and operands. -/
theorem step_list (ev : Evaluator) {x : Placed} {vs : List Value}
    (hx : p.memory.Anchored J x) (hv : x.value = .list (.symbol name :: vs)) :
    ∃ c ys, p.memory.AnchoredAll J ys ∧ Placed.values ys = vs ∧
      step ev x e p = list ev ⟨.symbol name, c⟩ ys e p := by
  obtain ⟨⟨v, c⟩, ys, -, hys, hy, hvs, hcells⟩ := exists_cons_items hx hv
  cases hy
  have hparts : Run.parts (.symbol name :: vs) x.cell p =
      .ok (⟨.symbol name, c⟩ :: ys) p := by
    have hzip := zipWith_values_cells (⟨.symbol name, c⟩ :: ys)
    rw [hcells, Placed.values_cons, hvs] at hzip
    exact congrArg (EStateM.Result.ok · p) hzip
  refine ⟨c, ys, hys, hvs, ?_⟩
  unfold step
  rw [hv]
  exact Run.bind_ok hparts

theorem exists_two {m : Memory} {v w : Value}
    {xs : List Placed} (h : m.AnchoredAll J xs)
    (hvs : Placed.values xs = [v, w]) :
    ∃ c d, xs = [⟨v, c⟩, ⟨w, d⟩] ∧ m.Anchored J ⟨w, d⟩ := by
  match xs, hvs with
  | [x, y], hvs =>
      cases hvs
      exact ⟨x.cell, y.cell, rfl, h.of_cons.2.of_cons.1⟩

/-- The form that makes a list of two of what `x` stands for. -/
def pairForm : Value :=
  .list [.symbol "list", .symbol "x", .symbol "x"]

theorem Holding.shared (hp : p.Holding J)
    (hr : ∃ x, p.memory.get? r = some x) :
    (p.shared r).Holding ({r} + J) := by
  obtain ⟨x, hx⟩ := hr
  exact hp.share ⟨x.node, by rw [node?, hx]; rfl⟩

theorem eval_pairForm {bindings : List (String × Cell)} (fuel : Nat)
    (hp : p.Holding J)
    (hx : p.memory.Anchored J ⟨pairForm, c⟩)
    (he : p.memory.Guards J ⟨.scope, e⟩)
    (hscope : p.memory.HasScope e bindings)
    (hlist : bindings.lookup "list" = some (.plain (.builtin .list)))
    (hname : bindings.lookup "x" = some (.list id)) :
    ∃ v, eval (fuel + 2) ⟨pairForm, c⟩ e p =
      .ok ⟨v, .list ((p.fourfold id).memory.next .list).id⟩
        (p.doubled id) := by
  obtain ⟨d, ys, hys, hvs, hstep⟩ :=
    step_list ⟨eval (fuel + 1), call (fuel + 1)⟩ (e := e) hx rfl
  obtain ⟨c₁, c₂, rfl, -⟩ := exists_two hys hvs
  have hentry := exists_get?_of_found hp he (hscope.find?_eq hname)
  have hhead := eval_name_of_builtin fuel (c := d) hp he
    (hscope.find?_eq hlist)
  obtain ⟨v, hfirst⟩ := eval_name_of_list fuel (c := c₁) hp he
    (hscope.find?_eq hname)
  have hp₁ := hp.shared hentry
  have he₁ : (p.shared ⟨.list, id⟩).memory.Guards ({⟨.list, id⟩} + J)
      ⟨.scope, e⟩ :=
    (he.keeps (keeps_share p.memory _)).of_le (Multiset.le_add_left ..)
  have hscope₁ : (p.shared ⟨.list, id⟩).memory.HasScope e bindings :=
    hscope.alter_of_ne nofun
  obtain ⟨w, hsecond⟩ := eval_name_of_list fuel (c := c₂) hp₁ he₁
    (hscope₁.find?_eq hname)
  have hoperands : operands ⟨eval (fuel + 1), call (fuel + 1)⟩ e []
      [⟨.symbol "x", c₁⟩, ⟨.symbol "x", c₂⟩] p =
      .ok [⟨v, .list id⟩, ⟨w, .list id⟩]
        ((p.shared ⟨.list, id⟩).shared ⟨.list, id⟩) := by
    rw [operands, Run.bind_ok hfirst, operands, Run.bind_ok hsecond]
    rfl
  obtain ⟨x, hx⟩ := hentry
  refine ⟨.list [v, w], ?_⟩
  have hdone : step ⟨eval (fuel + 1), call (fuel + 1)⟩ ⟨pairForm, c⟩ e p =
      .ok (.done ⟨.list [v, w], .list ((p.fourfold id).memory.next .list).id⟩)
        (p.doubled id) := by
    rw [hstep]
    show application _ _ _ e p = _
    rw [application, Run.bind_ok hhead]
    show (operands _ e [] _ >>= _) p = _
    rw [Run.bind_ok hoperands, Run.bind_ok (callStep_pair hx)]
    rfl
  rw [eval, Run.bind_ok hdone]
  rfl

theorem get?_doubled {x : Entry .list}
    (h : p.memory.get? ⟨.list, id⟩ = some x) :
    (p.doubled id).memory.get? ⟨.list, id⟩ =
      some { x with count := x.count + 2 } :=
  get?_lost (get?_lost (get?_paired (get?_fourfold h)))

theorem hasScope_doubled {bindings : List (String × Cell)} (id : Nat)
    (h : p.memory.HasScope e bindings) :
    (p.doubled id).memory.HasScope e bindings := by
  simp only [doubled, fourfold, memory_lost, memory_paired, memory_shared]
  exact .lose_list (.lose_list (.add_list (.share_list (.share_list
    (.share_list (.share_list h))))))

theorem tower_fourfold (h : p.memory.Tower height 1 id) :
    (p.fourfold id).memory.Tower height 5 id := by
  simp only [fourfold, memory_shared]
  exact h.share.share.share.share

theorem tower_doubled {entry : Entry .list} {i : Nat}
    (h : p.memory.get? ⟨.list, id⟩ = some entry)
    (ht : p.memory.Tower height 1 id)
    (hi : ((p.fourfold id).memory.next .list).id = i) :
    id < i ∧ (p.doubled id).memory.Tower height 3 id ∧
      (p.doubled id).memory.get? ⟨.list, i⟩ = some ⟨1, pair id⟩ := by
  subst hi
  have hlt := lt_next_of_get? (get?_fourfold h)
  simp only [doubled, memory_lost, memory_paired]
  refine ⟨hlt, ((tower_fourfold ht).add (pair id) hlt).lose.lose, ?_⟩
  rw [get?_lose_above hlt, get?_lose_above hlt, get?_add_list]

/-! ## Definitions -/

/-- The form that gives `x` a value. -/
def defX (expr : Value) : Value :=
  .list [.symbol "def", .symbol "x", expr]

theorem eval_defX {expr : Value} (fuel : Nat)
    (hx : p.memory.Anchored J ⟨defX expr, c⟩)
    (hfn : Form.fnOperands? expr = none) :
    ∃ d, p.memory.Anchored J ⟨expr, d⟩ ∧
      eval (fuel + 1) ⟨defX expr, c⟩ e p = (do
        let v ← eval fuel ⟨expr, d⟩ e
        Run.define e "x" v
        return Placed.nil : Run Placed) p := by
  obtain ⟨d, ys, hys, hvs, hstep⟩ :=
    step_list ⟨eval fuel, call fuel⟩ (e := e) hx rfl
  obtain ⟨c₁, c₂, rfl, hexpr⟩ := exists_two hys hvs
  refine ⟨c₂, hexpr, ?_⟩
  have hvalue : definiens ⟨eval fuel, call fuel⟩ "x" ⟨expr, c₂⟩ e =
      eval fuel ⟨expr, c₂⟩ e := by
    rw [definiens, hfn]
  have hlist : list ⟨eval fuel, call fuel⟩ ⟨.symbol "def", d⟩
      [⟨.symbol "x", c₁⟩, ⟨expr, c₂⟩] e p = (do
        let v ← eval fuel ⟨expr, c₂⟩ e
        Run.define e "x" v
        return Step.done .nil : Run Step) p := by
    rw [← hvalue]
    rfl
  rw [eval, Run.bind_congr (hstep.trans hlist)]
  simp only [bind_assoc, pure_bind]

/-- After a value was moved into a scope, before the one that it replaces is
given up. -/
def rebound (p : Process) (e : ScopeId) (y : Placed) (replaced : List Ref) :
    Process :=
  ⟨{ p.state with store := p.state.store.define e "x" y.value },
    p.memory.bind e "x" y.cell,
    replaced ++ (Cell.refs [y.cell]).foldl List.erase p.held, p.room⟩

@[simp] theorem memory_rebound (p : Process) (e : ScopeId) (y : Placed)
    (replaced : List Ref) :
    (p.rebound e y replaced).memory = p.memory.bind e "x" y.cell := rfl

@[simp] theorem room_rebound (p : Process) (e : ScopeId) (y : Placed)
    (replaced : List Ref) : (p.rebound e y replaced).room = p.room := rfl

theorem define_x (p : Process) (e : ScopeId) (y : Placed) {rs : List Ref}
    (hrs : Cell.refs (((p.memory.bindings e).filter (·.1 = "x")).map
      Prod.snd) = rs) :
    Run.define e "x" y p = Run.dropAll rs (p.rebound e y rs) := by
  subst hrs
  rfl

theorem define_x_first {bindings : List (String × Cell)} (y : Placed)
    (h : p.memory.HasScope e bindings)
    (hnew : bindings.filter (·.1 = "x") = []) :
    Run.define e "x" y p = .ok () (p.rebound e y []) := by
  have hrefs : Cell.refs (((p.memory.bindings e).filter
      (·.1 = "x")).map Prod.snd) = [] := by
    rw [h.bindings_eq, hnew]
    rfl
  rw [define_x p e y hrefs]
  rfl

theorem define_x_again {rest : List (String × Cell)} (y : Placed)
    (h : p.memory.HasScope e (("x", .list id) :: rest))
    (hrest : rest.filter (·.1 = "x") = []) :
    Run.define e "x" y p =
      Run.drop ⟨.list, id⟩ (p.rebound e y [⟨.list, id⟩]) := by
  have hrefs : Cell.refs (((p.memory.bindings e).filter
      (·.1 = "x")).map Prod.snd) = [⟨.list, id⟩] := by
    rw [h.bindings_eq, List.filter_cons_of_pos (by simp), hrest]
    rfl
  rw [define_x p e y hrefs, Run.dropAll]
  show (Run.drop _ >>= pure) _ = _
  rw [bind_pure]

/-- What else is bound in a scope where `x` has been given a value. -/
theorem filter_filter_ne (bindings : List (String × Cell)) :
    (bindings.filter (·.1 ≠ "x")).filter (·.1 = "x") = [] := by
  simp [List.filter_filter]

/-! ## A form at a time -/

/-- The form that gives `x` a value that holds nothing. -/
def clearForm : Value := defX (.list [])

/-- The form that puts a list on top of the tower. -/
def raiseForm : Value := defX pairForm

/-- Evaluating the empty list. -/
theorem eval_empty (fuel : Nat)
    (hx : p.memory.Anchored J ⟨.list [], c⟩) : ∃ k,
    p.memory.node? ⟨.list, k⟩ = some (.list []) ∧
      eval (fuel + 1) ⟨.list [], c⟩ e p =
        .ok ⟨.list [], .list k⟩ (p.shared ⟨.list, k⟩) := by
  obtain ⟨k, rfl, hnode, hreads⟩ := hx.reads.list_inv
  have hcells : p.memory.cells (.list k) = [] := by
    generalize p.memory.cells (.list k) = cells at hreads
    cases hreads
    rfl
  rw [hcells] at hnode
  exact ⟨k, hnode, by rw [eval, step]; rfl⟩

theorem eval_clearForm_first {bindings : List (String × Cell)} (fuel : Nat)
    (hx : p.memory.Anchored J ⟨clearForm, c⟩)
    (h : p.memory.HasScope e bindings)
    (hnew : bindings.filter (·.1 = "x") = [])
    (hlist : bindings.lookup "list" = some (.plain (.builtin .list))) :
    ∃ k p', eval (fuel + 2) ⟨clearForm, c⟩ e p = .ok .nil p' ∧
      p'.memory.Raises e 0 k ∧ p'.room = p.room := by
  obtain ⟨d, hempty, heval⟩ := eval_defX (fuel + 1) (e := e) hx rfl
  obtain ⟨k, -, hvalue⟩ := eval_empty fuel (e := e) hempty
  have hscope : (p.shared ⟨.list, k⟩).memory.HasScope e bindings :=
    h.alter_of_ne nofun
  have hraises : ((p.shared ⟨.list, k⟩).rebound e ⟨.list [], .list k⟩
      []).memory.Raises e 0 k := by
    rw [memory_rebound]
    refine ⟨⟨_, hscope.bind, filter_filter_ne bindings, ?_⟩, .ground⟩
    rw [lookup_filter_ne (by decide)]
    exact hlist
  refine ⟨k, _, heval.trans ?_, hraises, by simp⟩
  rw [Run.bind_ok hvalue, Run.bind_ok (define_x_first _ hscope hnew)]
  rfl

/-- A new value for `x` is on top of the tower. -/
theorem raises_rebound {m : Memory} {i : Nat}
    {rest : List (String × Cell)}
    (hscope : m.HasScope e (("x", .list id) :: rest))
    (hlist : rest.lookup "list" = some (.plain (.builtin .list)))
    (hlt : id < i) (ht : m.Tower height 3 id)
    (hmade : m.get? ⟨.list, i⟩ = some ⟨1, pair id⟩) :
    ((m.bind e "x" (.list i)).lose ⟨.list, id⟩).Raises e (height + 1) i where
  scope := by
    refine ⟨_, hscope.bind.lose_list, filter_filter_ne _, ?_⟩
    rw [lookup_filter_ne (by decide)]
    exact hlist
  tower := by
    refine .level hlt ?_ ht.bind.lose
    rw [get?_lose_above hlt, get?_bind_list, hmade]

/-- The tower is one list higher when the form has been evaluated. -/
theorem eval_raiseForm (fuel : Nat) (hp : p.Holding J)
    (hx : p.memory.Anchored J ⟨raiseForm, c⟩)
    (he : p.memory.Guards J ⟨.scope, e⟩) (h : p.memory.Raises e height id) :
    ∃ i p', eval (fuel + 3) ⟨raiseForm, c⟩ e p = .ok .nil p' ∧
      p'.memory.Raises e (height + 1) i ∧ p'.room = p.room := by
  obtain ⟨rest, hscope, hrest, hlist⟩ := h.scope
  obtain ⟨d, hpair, heval⟩ := eval_defX (fuel + 2) (e := e) hx rfl
  have hname : (("x", Cell.list id) :: rest).lookup "x" = some (.list id) := by
    simp
  obtain ⟨v, hvalue⟩ :=
    eval_pairForm fuel hp hpair he hscope hlist hname
  obtain ⟨entry, hentry⟩ :=
    exists_get?_of_found hp he (hscope.find?_eq hname)
  generalize hi : ((p.fourfold id).memory.next .list).id = i at hvalue
  obtain ⟨hlt, htower, hmade⟩ := tower_doubled hentry h.tower hi
  have hscope' := hasScope_doubled id hscope
  have hcount : ((p.doubled id).rebound e ⟨v, .list i⟩
      [⟨.list, id⟩]).memory.count ⟨.list, id⟩ ≠ 1 := by
    rw [memory_rebound, count, get?_bind_list, get?_doubled hentry]
    exact Nat.succ_succ_ne_one _
  have hraises : (((p.doubled id).rebound e ⟨v, .list i⟩
      [⟨.list, id⟩]).lost ⟨.list, id⟩).memory.Raises e (height + 1) i := by
    rw [memory_lost, memory_rebound]
    exact raises_rebound hscope' hlist hlt htower hmade
  refine ⟨i, _, heval.trans ?_, hraises, by simp [doubled, fourfold]⟩
  rw [Run.bind_ok hvalue, Run.bind_ok ((define_x_again _ hscope' hrest).trans
    (drop_of_shared hcount))]
  rfl

theorem drop_of_tower (h : p.memory.Tower height 1 id)
    (hroom : p.room < height) :
    ∃ p', Run.drop ⟨.list, id⟩ p = .error (.killed []) p' := by
  obtain ⟨t, ht, hactive⟩ := Teardown.exists_reaches_of_tower h []
  have hlt : p.room < t.active.length := by
    rw [hactive]
    exact hroom
  obtain ⟨m, hm⟩ := Teardown.exists_finish_eq_error ht hlt
  exact ⟨_, by rw [Run.drop, hm]⟩

/-- A tower that there is no room for comes to its end when `x` has another
value. -/
theorem eval_clearForm_last (fuel : Nat)
    (hx : p.memory.Anchored J ⟨clearForm, c⟩)
    (h : p.memory.Raises e height id) (hroom : p.room < height) :
    ∃ p', eval (fuel + 2) ⟨clearForm, c⟩ e p = .error (.killed []) p' := by
  obtain ⟨rest, hscope, hrest, -⟩ := h.scope
  obtain ⟨d, hempty, heval⟩ := eval_defX (fuel + 1) (e := e) hx rfl
  obtain ⟨k, hnode, hvalue⟩ := eval_empty fuel (e := e) hempty
  have hscope' : (p.shared ⟨.list, k⟩).memory.HasScope e
      (("x", .list id) :: rest) := hscope.share_list
  have htower : ((p.shared ⟨.list, k⟩).rebound e ⟨.list [], .list k⟩
      [⟨.list, id⟩]).memory.Tower height 1 id := by
    rw [memory_rebound, memory_shared]
    exact (h.tower.share_empty hnode).bind
  obtain ⟨p', hp'⟩ := drop_of_tower htower hroom
  refine ⟨p', heval.trans ?_⟩
  rw [Run.bind_ok hvalue,
    Run.bind_error ((define_x_again _ hscope' hrest).trans hp')]

end Process

end SmallLisp
