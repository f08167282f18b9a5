import SmallLisp.Proofs.Inventory
import SmallLisp.Proofs.Joining
import SmallLisp.Proofs.Performing
import SmallLisp.Proofs.Raising
import SmallLisp.Proofs.Unwinding

/-!
# Programs that need more room

A process follows the plain session as long as it is not killed. It is
killed by a chain of bare nodes that is too long for the room it has
(`teardowns_follow_bareChains`), and no room is enough for all programs
(`no_room_is_enough`): when `(def x (list x x))` has been evaluated often
enough, another value for `x` brings a tower of lists to its end.
-/

namespace SmallLisp

namespace Process

open Memory

variable {p : Process} {J : Multiset Ref} {e height id : Nat} {fuel : Nat}

/-! ## A program -/

/-- The process is killed. -/
def Dies {α : Type} (c : Run α) (p : Process) : Prop :=
  ∃ reports p', c p = .error (.killed reports) p'

section Dies

variable {α β γ : Type} {m : Run α} {f : α → Run γ}

theorem Dies.bind (h : Dies m p) : Dies (m >>= f) p := by
  obtain ⟨reports, p', h⟩ := h
  exact ⟨reports, p', Run.bind_error h⟩

theorem Dies.of_ok {a : α} {p' : Process} (hm : m p = .ok a p')
    (h : Dies (f a) p') : Dies (m >>= f) p := by
  rwa [Dies, Run.bind_ok hm]

theorem Dies.attempt (h : Dies m p) : Dies (Run.attempt m) p := by
  obtain ⟨reports, p', h⟩ := h
  exact ⟨reports, p', by simp only [Run.attempt, h]⟩

/-- Where the plain computation has a result, a process is killed at once or
goes on from that result. -/
theorem Follows.dies {H : Multiset Ref} {q : Eval β}
    {post : α → β → Process → Prop} {b : β} {st : State}
    (h : Follows H p m q post) (hq : q p.state = .ok b st)
    (hf : ∀ a p', p'.state = st → Leads H p p' → post a b p' →
      Dies (f a) p') : Dies (m >>= f) p := by
  unfold Follows at h
  cases hm : m p with
  | ok a p' =>
      rw [hm, hq] at h
      obtain ⟨b', hb, hlead, hpost⟩ := h
      cases hb
      exact .of_ok hm (hf a p' rfl hlead hpost)
  | error ending p' =>
      rw [hm] at h
      cases ending with
      | killed reports => exact .bind ⟨reports, p', hm⟩
      | abort a =>
          rw [hq] at h
          cases h.1

end Dies

theorem evalFormsFrom_dies {xs : List Placed} {k : Nat}
    (hxs : Placed.values xs = List.replicate k raiseForm ++ [clearForm])
    (hp : p.Holding J) (hkept : p.memory.AnchoredAll J xs)
    (he : p.memory.Guards J ⟨.scope, e⟩) (h : p.memory.Raises e height id)
    (hroom : p.room < height + k) :
    Dies (evalFormsFrom (fuel + 3) e .nil xs) p := by
  induction k generalizing p xs height id with
  | zero =>
      match xs, hxs with
      | [⟨v, c⟩], hxs =>
          cases hxs
          obtain ⟨p', hp'⟩ := eval_clearForm_last (fuel + 1)
            hkept.of_cons.1 h hroom
          exact .bind ⟨[], p', hp'⟩
  | succ k ih =>
      match xs, hxs with
      | ⟨v, c⟩ :: xs, hxs =>
          rw [List.replicate_succ, List.cons_append, Placed.values_cons,
            List.cons.injEq] at hxs
          obtain ⟨rfl, hxs⟩ := hxs
          obtain ⟨hx, hrest⟩ := hkept.of_cons
          obtain ⟨i, p', heval, hraises, hroom'⟩ :=
            eval_raiseForm fuel hp hx he h
          obtain ⟨v, -, hlead, hy⟩ :=
            ((eval_follows (fuel + 3)).1.eval hp hx he).of_ok heval
          refine .of_ok heval ?_
          refine ih hxs (hy.holding.of_eq (zero_add J))
            (hrest.keeps hlead.keeps) (he.keeps hlead.keeps) hraises ?_
          rw [hroom']
          omega

/-- The forms of a program that builds a tower and gives it up. -/
def towerForms (height : Nat) : List Value :=
  clearForm :: (List.replicate height raiseForm ++ [clearForm])

theorem filter_eq_nil_of_lookup {bindings : List (String × Cell)}
    {name : String} (h : bindings.lookup name = none) :
    bindings.filter (·.1 = name) = [] := by
  rw [List.lookup_eq_none_iff] at h
  refine List.filter_eq_nil_iff.2 fun b hb hname => ?_
  have hne := h b hb
  rw [of_decide_eq_true hname, bne_self_eq_false] at hne
  cases hne

/-- What a fresh session has in the memory: the builtin, and no `x`. -/
theorem hasScope_root (hp : p.Holding J)
    (hfresh : p.state.store = Session.fresh.store)
    (he : p.memory.Guards J ⟨.scope, Session.root⟩) :
    ∃ bindings, p.memory.HasScope Session.root bindings ∧
      bindings.filter (·.1 = "x") = [] ∧
      bindings.lookup "list" = some (.plain (.builtin .list)) := by
  obtain ⟨x, hx⟩ := hp.live he
  cases x with
  | scope bindings parent =>
      obtain ⟨⟨n, x⟩, hget, hnode⟩ := Option.map_eq_some_iff.1 hx
      cases hnode
      obtain ⟨sc, hsc, -, hbinds⟩ := hp.mirrors.scope hx
      rw [hfresh] at hsc
      have hroot {name : String} {v : Value} :
          sc.bindings.get? name = some v ↔
            ∃ b : Builtin, b.name = name ∧ v = .builtin b := by
        rw [← Session.binds_fresh_iff]
        simp [Store.Binds, hsc]
      refine ⟨bindings, ⟨n, parent, hget⟩, ?_, ?_⟩
      · have hname := hbinds "x"
        generalize hv : sc.bindings.get? "x" = o at hname
        generalize hc : bindings.lookup "x" = oc at hname
        cases hname with
        | none => exact filter_eq_nil_of_lookup hc
        | some _ =>
            have hnames : ∀ b ∈ Builtin.all, b.name ≠ "x" := by decide
            obtain ⟨b, hb, -⟩ := hroot.1 hv
            exact absurd hb (hnames b b.mem_all)
      · have hname := hbinds "list"
        have hlist : sc.bindings.get? "list" = some (.builtin .list) :=
          hroot.2 ⟨.list, rfl, rfl⟩
        rw [hlist] at hname
        generalize bindings.lookup "list" = oc at hname
        cases hname with
        | some hreads => rw [hreads.builtin_inv]

theorem evalForms_dies (hp : p.Holding J) (hfresh : p.state = Session.fresh)
    (he : p.memory.Guards J ⟨.scope, Session.root⟩) (hroom : p.room < height)
    (hforms : ∀ v ∈ towerForms height, Fresh v) :
    Dies (evalForms (fuel + 3) Session.root (towerForms height)) p := by
  refine (loadForms_follows hp hforms he).dies rfl
    fun cells p₁ hst h₁ hloaded => .bind ?_
  obtain ⟨hp₁, hkept, hvalues, he₁⟩ := hloaded
  have hfresh₁ : p₁.state.store = Session.fresh.store := by rw [hst, hfresh]
  obtain ⟨bindings, hscope, hnew, hlist⟩ := hasScope_root hp₁ hfresh₁ he₁
  generalize (towerForms height).zipWith Placed.mk cells = xs at hkept hvalues
  match xs, hvalues with
  | ⟨v, c⟩ :: xs, hvalues =>
      rw [towerForms, Placed.values_cons, List.cons.injEq] at hvalues
      obtain ⟨rfl, hxs⟩ := hvalues
      obtain ⟨hx, hrest⟩ := hkept.of_cons
      obtain ⟨k, p₂, heval, hraises, hroom₂⟩ :=
        eval_clearForm_first (fuel + 1) hx hscope hnew hlist
      obtain ⟨v, -, h₂, hy⟩ :=
        ((eval_follows (fuel + 3)).1.eval hp₁ hx he₁).of_ok heval
      refine .of_ok heval (evalFormsFrom_dies hxs
        (hy.holding.of_eq (zero_add _)) (hrest.keeps h₂.keeps)
        (he₁.keeps h₂.keeps) hraises ?_)
      rw [hroom₂, h₁.room]
      omega

/-! ## The text of the program -/

/-- Forms, one to a line. -/
def linesText : List Value → String
  | [] => ""
  | v :: vs => v.text ++ "\n" ++ linesText vs

theorem read_linesText {vs : List Value}
    (h : ∀ v ∈ vs, v.IsDatum fun x => x.isNaN = false) :
    Value.read (linesText vs) = .ok vs := by
  induction vs with
  | nil =>
      have hscan : Token.scan "" = .ok [] := by
        simp [Token.scan, Token.scanFrom]
      rw [linesText, Value.read, hscan]
      rfl
  | cons v vs ih =>
      obtain ⟨hv, hvs⟩ := List.forall_mem_cons.1 h
      exact read_append (read_text hv) (ih hvs)

theorem isDatum_towerForms {admits : Float → Prop} (height : Nat) :
    ∀ v ∈ towerForms height, v.IsDatum admits := by
  have hname : ∀ n ∈ ["def", "list", "x"], (Value.symbol n).IsDatum admits := by
    intro n hn
    suffices hw : Token.IsWord (.symbol n) n.toList from
      .symbol (Token.isName_of_isWord hw)
    simp only [List.mem_cons, List.not_mem_nil, or_false] at hn
    rcases hn with rfl | rfl | rfl
    all_goals exact Token.isWord_of_all (by decide) (by decide) rfl
  simp only [List.forall_mem_cons] at hname
  have hdef {expr : Value} (hexpr : expr.IsDatum admits) :
      (defX expr).IsDatum admits := .list (by simp [hname, hexpr])
  have hclear : clearForm.IsDatum admits := hdef (.list (List.forall_mem_nil _))
  have hraise : raiseForm.IsDatum admits :=
    hdef (.list (by simp [hname]))
  intro v hv
  simp only [towerForms, List.mem_cons, List.mem_append,
    List.mem_replicate, List.not_mem_nil, or_false] at hv
  rcases hv with rfl | ⟨-, rfl⟩ | rfl
  · exact hclear
  · exact hraise
  · exact hclear

open CommandLine

/-- The process of a program that builds a tower is killed if there is not
so much room. -/
theorem session_dies (hfuel : 3 ≤ fuel) (s : Surroundings)
    (hp : p.Holding 0) (hblank : p.state = Session.blank)
    (hroom : p.room < height) :
    Dies (session fuel s (.evalText (linesText (towerForms height)))) p := by
  obtain ⟨fuel, rfl⟩ := Nat.exists_eq_add_of_le' hfuel
  have hread := read_linesText (isDatum_towerForms height)
  have hnew : Session.newRoot p.state = .ok Session.root Session.fresh := by
    rw [hblank, Session.newRoot_blank]
  refine (newRoot_follows hp).dies hnew
    fun e p₁ hst h₁ hroot => .bind (.bind ?_)
  obtain ⟨rfl, hp₁⟩ := hroot
  have hroom₁ : p₁.room < height := by
    rw [h₁.room]
    exact hroom
  unfold evalSource
  rw [hread]
  exact .bind (.attempt (evalForms_dies hp₁ hst guards_scope hroom₁
    (fresh_of_read hread)))

end Process

/-! ## How deep it goes -/

open CommandLine Process

/-- A process that performs a task, in a session of its own, ends as the plain
session does, in the same state, with a memory that is exact and mirrors the
store; in the end nothing is held outside it. Otherwise it has been killed:
in such a memory a reference was given up, the teardown has come to what is
left of the memory, and with its next step more nodes would be taken down at
the same time than there is room for.

Whenever a reference is given up in an exact memory, those nodes are a chain
of bare nodes from the one that it leads to on, each held by the one before,
and not more than three others within them. There is no bare node among them
if that one is not bare. -/
theorem teardowns_follow_bareChains (fuel room : Nat) (s : Surroundings)
    (task : Task) :
    (match session fuel s task (.blank room) with
    | .ok verdict p =>
        perform fuel Session.root s task Session.fresh =
            .ok verdict p.state ∧
          p.memory.Exact [] ∧ p.memory.Mirrors p.state.store
    | .error (.abort a) p =>
        perform fuel Session.root s task Session.fresh = .error a p.state ∧
          p.memory.Exact p.held ∧ p.memory.Mirrors p.state.store
    | .error (.killed _) p => ∃ m r t u, m.Exact (r :: p.held) ∧
        m.Mirrors p.state.store ∧ (Teardown.start m r).Reaches t ∧
        t.memory = p.memory ∧ t.step = some u ∧ room < u.active.length) ∧
    ∀ (m : Memory) (r : Ref) (held : List Ref), m.Exact (r :: held) →
      ∀ t, (Teardown.start m r).Reaches t →
        (∃ top chain, t.active = top ++ chain ∧ top.length ≤ 3 ∧
          m.BareChain r chain) ∧ (¬ m.Bare r → t.active.length ≤ 3) := by
  refine ⟨?_, fun m r held hm t ht => Teardown.active_of_reaches hm ht⟩
  have hp := holding_blank room
  have hblank : (blank room).state = Session.blank := rfl
  have hroom : (blank room).room = room := rfl
  generalize blank room = p at hp hblank hroom ⊢
  subst hroom
  have hplain : (Session.newRoot >>= fun e => perform fuel e s task) p.state =
      perform fuel Session.root s task Session.fresh := by
    rw [hblank]
    exact Eval.bind_ok Session.newRoot_blank
  have hfollows := session_follows fuel s task hp
  unfold Follows at hfollows
  rw [hplain] at hfollows
  generalize session fuel s task p = outcome at hfollows ⊢
  match outcome, hfollows with
  | .ok verdict p', ⟨v, hperform, _, hv, hp'⟩ =>
      have hnil : p'.held = [] := (Multiset.coe_eq_zero _).1 hp'.held
      exact ⟨hv ▸ hperform, hnil ▸ hp'.exact, hp'.mirrors⟩
  | .error (.abort a) p', ⟨hperform, _, J, hp', _⟩ =>
      exact ⟨hperform, hp'.exact, hp'.mirrors⟩
  | .error (.killed _) p', hkilled => exact hkilled

/-- Surroundings in which there is nothing to read. -/
def nothing : Surroundings :=
  ⟨fun _ => .ok [], []⟩

/-- A tower of lists, too high for a process with little room, and what its
end looks like. -/
theorem tower_follows_bareChain :
    ∃ reports p m r t top chain,
      session 3 nothing (.evalText (linesText (towerForms 8))) (.blank 7) =
          .error (.killed reports) p ∧
        m.Exact (r :: p.held) ∧ (Teardown.start m r).Reaches t ∧
        t.active = top ++ chain ∧ m.BareChain r chain ∧
        4 < chain.length := by
  have hroom : (blank 7).room < 8 := Nat.lt_succ_self 7
  obtain ⟨reports, p, hkilled⟩ :=
    session_dies (Nat.le_refl 3) nothing (holding_blank 7) rfl hroom
  have hboth := teardowns_follow_bareChains 3 7 nothing
    (.evalText (linesText (towerForms 8)))
  rw [hkilled] at hboth
  obtain ⟨⟨m, r, t, u, hexact, -, ht, -, hstep, hlt⟩, hshape⟩ := hboth
  have hu := ht.next hstep
  obtain ⟨⟨top, chain, hactive, htop, hchain⟩, -⟩ := hshape m r _ hexact u hu
  refine ⟨reports, p, m, r, u, top, chain, hkilled, hexact, hu, hactive,
    hchain, ?_⟩
  rw [hactive, List.length_append] at hlt
  omega

/-- For every number of nodes there is a program of which the process is
killed because more of them were being taken down at the same time. -/
theorem no_room_is_enough : ¬ ∃ room, ∀ fuel s task reports p,
    session fuel s task (.blank room) = .error (.killed reports) p →
      ¬ Process.Killed room p := by
  rintro ⟨room, h⟩
  have hp := holding_blank room
  have hblank : (blank room).state = Session.blank := rfl
  have hroom : (blank room).room = room := rfl
  generalize blank room = p at h hp hblank hroom
  subst hroom
  obtain ⟨reports, p', hkilled⟩ := session_dies (Nat.le_refl 3) nothing hp
    hblank (Nat.lt_succ_self p.room)
  have hfollows := session_follows 3 nothing
    (.evalText (linesText (towerForms (p.room + 1)))) hp
  unfold Follows at hfollows
  rw [hkilled] at hfollows
  exact h _ _ _ _ _ hkilled hfollows

end SmallLisp
