import SmallLisp.Memory.Release

/-!
# Carrying a teardown out

Every step of a teardown makes its weight less, so it comes to an end. A
reference weighs five in a node, four on a worklist and three in a job of
its own, and every worklist and every node that is being taken down weighs
one more.

`finish` takes the steps. The nodes that are being taken down at the same
time stand inside each other on the stack of the host, which has room for
some number of them and no more.
-/

namespace SmallLisp

namespace Memory

variable {m : Memory} {r : Ref}

/-- The number of references in nodes. -/
def holdings (m : Memory) : Nat :=
  m.total fun _ e => e.node.refs.length

theorem holdings_alter {e : Entry r.kind} (h : m.get? r = some e)
    (f : Entry r.kind → Entry r.kind) :
    (m.alter r f).holdings + e.node.refs.length =
      m.holdings + (f e).node.refs.length := by
  have := total_write (fun _ e => e.node.refs.length) h (some (f e))
  simpa [alter, h, holdings] using this

theorem holdings_lose (m : Memory) (r : Ref) :
    (m.lose r).holdings = m.holdings := by
  cases h : m.get? r with
  | none => simp [lose, alter, h]
  | some e =>
      have := holdings_alter h fun e => { e with count := e.count - 1 }
      exact Nat.add_right_cancel this

theorem holdings_erase {e : Entry r.kind} (h : m.get? r = some e) :
    (m.erase r).holdings + e.node.refs.length = m.holdings :=
  total_write (fun _ e => e.node.refs.length) h none

theorem holdings_hollow {e : Entry r.kind} (h : m.get? r = some e) :
    (m.hollow r).holdings + e.node.refs.length =
      m.holdings + e.node.hollow.refs.length :=
  holdings_alter h fun e => { e with node := e.node.hollow }

end Memory

/-! ## What references weigh -/

namespace Worklist

/-- The number of nodes that wait. -/
def size (w : Worklist) : Nat :=
  w.values.length + w.scopes.length

/-- What references weigh in nodes and on a worklist. -/
def load (s : Memory × Worklist) : Nat :=
  5 * s.1.holdings + 4 * s.2.size

@[simp] theorem load_empty (m : Memory) : load (m, .empty) = 5 * m.holdings :=
  rfl

theorem load_pushValue_le (m : Memory) (w : Worklist) (c : Cell) :
    load (pushValue m w c) ≤ load (m, w) + 4 * (Cell.refs [c]).length := by
  unfold pushValue owns
  cases hr : c.ref? with
  | none => simp [Cell.refs, hr]
  | some r =>
      simp only [Cell.refs, List.filterMap_cons, hr, List.filterMap_nil,
        List.length_singleton]
      split
      · simp only [load, size, List.length_cons]
        omega
      · simp only [load, size, Memory.holdings_lose]
        omega

theorem load_pushValues_le (m : Memory) (w : Worklist) (cs : List Cell) :
    load (pushValues m w cs) ≤ load (m, w) + 4 * (Cell.refs cs).length := by
  induction cs generalizing m w with
  | nil => exact Nat.le_refl _
  | cons c cs ih =>
      have hfirst := load_pushValue_le m w c
      have hrest : load (pushValues m w (c :: cs)) ≤
          load (pushValue m w c) + 4 * (Cell.refs cs).length := ih _ _
      have hrefs : (Cell.refs (c :: cs)).length =
          (Cell.refs [c]).length + (Cell.refs cs).length := by
        rw [← List.length_append, Cell.refs, Cell.refs, Cell.refs,
          ← List.filterMap_append, List.singleton_append]
      omega

theorem load_pushScope_le (m : Memory) (w : Worklist) (id : Nat) :
    load (pushScope m w id) ≤ load (m, w) + 4 := by
  unfold pushScope
  split
  · simp only [load, size, List.length_cons]
    omega
  · simp only [load, size, Memory.holdings_lose]
    omega

theorem load_pushContents_le (m : Memory) (w : Worklist)
    (bindings : List (String × Cell)) (parent : Option Nat) :
    load (pushContents m w bindings parent) ≤
      load (m, w) + 4 * (Node.scope bindings parent).refs.length := by
  have hvalues := load_pushValues_le m w (bindings.map Prod.snd)
  cases parent with
  | none =>
      simp only [pushContents, Node.refs, Option.map_none, Option.toList_none,
        List.append_nil]
      exact hvalues
  | some id =>
      have hscope : load (pushContents m w bindings (some id)) ≤
          load (pushValues m w (bindings.map Prod.snd)) + 4 :=
        load_pushScope_le _ _ id
      simp only [Node.refs, Option.map_some, Option.toList_some,
        List.length_append, List.length_singleton]
      omega

/-- What is emptied onto a worklist weighs less there than in the node. -/
theorem load_hollow {m : Memory} {r : Ref} {e : Entry r.kind} (w : Worklist)
    (h : m.get? r = some e) :
    load (m.hollow r, w) + 5 * e.node.refs.length =
      load (m, w) + 5 * e.node.hollow.refs.length := by
  have := Memory.holdings_hollow h
  simp only [load]
  omega

theorem load_emptyScope_le (m : Memory) (w : Worklist) (id : Nat) :
    load (emptyScope m w id) ≤ load (m, w) := by
  unfold emptyScope
  split
  · next n bindings parent h =>
      split
      · have hhollow := load_hollow w h
        have hcontents :=
          load_pushContents_le (m.hollow ⟨.scope, id⟩) w bindings parent
        have hnone : (Node.scope bindings parent).hollow.refs = [] := rfl
        rw [hnone] at hhollow
        simp only [List.length_nil] at hhollow
        omega
      · exact Nat.le_refl _
  · exact Nat.le_refl _

theorem length_refs_nil (cs : List Cell) :
    (Cell.refs (cs.map fun _ => .plain .nil)).length = 0 := by
  induction cs with
  | nil => rfl
  | cons c cs ih => exact ih

theorem load_emptyValue_le (m : Memory) (w : Worklist) (c : Cell) :
    load (emptyValue m w c) ≤ load (m, w) := by
  cases c with
  | plain v => exact Nat.le_refl _
  | list id =>
      simp only [emptyValue]
      split
      · next n items h =>
          split
          · have hhollow := load_hollow w h
            have hvalues :=
              load_pushValues_le (m.hollow ⟨.list, id⟩) w items
            simp only [Node.refs, Node.hollow, length_refs_nil] at hhollow
            omega
          · exact Nat.le_refl _
      · exact Nat.le_refl _
  | lambda id =>
      simp only [emptyValue]
      split
      · next n body s h =>
          split
          · have hhollow := load_hollow w h
            have hvalues :=
              load_pushValues_le (m.hollow ⟨.lambda, id⟩) w body
            simp only [Node.refs, Node.hollow, List.length_append,
              length_refs_nil] at hhollow
            exact Nat.le_trans (load_emptyScope_le _ _ s)
              (show load (pushValues _ w body) ≤ _ by omega)
          · exact Nat.le_refl _
      · exact Nat.le_refl _

end Worklist

/-- What a job weighs against the references in nodes. -/
def Job.weight : Job → Nat
  | drop _ => 3
  | run w => 4 * w.size + 1
  | done _ => 1

namespace Teardown

open Worklist

variable {m : Memory} {r : Ref} {jobs : List Job}

/-- What is left of a teardown. -/
def weight (t : Teardown) : Nat :=
  5 * t.memory.holdings + Memory.sumBy Job.weight t.jobs

theorem sumBy_append {α : Type} (g : α → Nat) (xs ys : List α) :
    Memory.sumBy g (xs ++ ys) = Memory.sumBy g xs + Memory.sumBy g ys := by
  induction xs with
  | nil => simp [Memory.sumBy]
  | cons x xs ih => simp [Memory.sumBy, ih, Nat.add_assoc]

theorem sumBy_weight_drops (rs : List Ref) :
    Memory.sumBy Job.weight (rs.map .drop) = 3 * rs.length := by
  induction rs with
  | nil => rfl
  | cons r rs ih =>
      simp only [List.map_cons, Memory.sumBy, ih, Job.weight,
        List.length_cons]
      omega

theorem weight_cons (m : Memory) (job : Job) (jobs : List Job) :
    weight ⟨m, job :: jobs⟩ = weight ⟨m, jobs⟩ + job.weight := by
  simp only [weight, Memory.sumBy]
  omega

theorem weight_append (m : Memory) (first jobs : List Job) :
    weight ⟨m, first ++ jobs⟩ =
      weight ⟨m, jobs⟩ + Memory.sumBy Job.weight first := by
  simp only [weight, sumBy_append]
  omega

/-- References weigh less in jobs than they did in the node. -/
theorem weight_dismantle_le (m : Memory) {k : NodeKind} (x : Node k) :
    weight ⟨(dismantle m x).1, (dismantle m x).2⟩ ≤
      5 * m.holdings + 5 * x.refs.length + 1 := by
  cases x with
  | list items =>
      simp only [dismantle]
      split
      · have hvalues := load_pushValues_le m .empty items
        rw [load_empty] at hvalues
        simp only [load, size] at hvalues
        simp only [weight, Memory.sumBy, Job.weight, size, Node.refs]
        omega
      · simp only [weight, sumBy_weight_drops, Node.refs]
        omega
  | lambda body s =>
      simp only [dismantle, weight, sumBy_append, sumBy_weight_drops,
        Memory.sumBy, Job.weight, Node.refs, List.length_append,
        List.length_singleton]
      omega
  | scope bindings parent =>
      have hcontents := load_pushContents_le m .empty bindings parent
      have hgathered :
          weight ⟨(pushContents m .empty bindings parent).1,
            [.run (pushContents m .empty bindings parent).2]⟩ ≤
          5 * m.holdings + 5 * (Node.scope bindings parent).refs.length +
            1 := by
        rw [load_empty] at hcontents
        simp only [load, size] at hcontents
        simp only [weight, Memory.sumBy, Job.weight, size]
        omega
      cases bindings with
      | cons b bs => exact hgathered
      | nil =>
          cases parent with
          | some id => exact hgathered
          | none => exact Nat.le_add_right _ 1

theorem weight_drop_lt (m : Memory) (r : Ref) (jobs : List Job) :
    weight (drop m r jobs) < weight ⟨m, .drop r :: jobs⟩ := by
  rw [weight_cons]
  unfold drop
  cases h : m.get? r with
  | none =>
      show weight ⟨m, jobs⟩ < _
      simp only [Job.weight]
      omega
  | some e =>
      dsimp only
      split
      · have hnode := weight_dismantle_le (m.erase r) e.node
        have hheld := Memory.holdings_erase h
        rw [weight_append, weight_cons]
        simp only [weight, Job.weight] at hnode ⊢
        omega
      · simp only [weight, Memory.holdings_lose, Job.weight]
        omega

theorem weight_turn_lt (m : Memory) (jobs : List Job) (w : Worklist) :
    weight (turn m jobs w) < weight ⟨m, .run w :: jobs⟩ := by
  rw [weight_cons]
  match w with
  | ⟨values, id :: scopes⟩ =>
      have hload := load_emptyScope_le m ⟨values, scopes⟩ id
      simp only [load, size] at hload
      simp only [turn]
      rw [weight_cons, weight_cons]
      simp only [weight, Job.weight, size, List.length_cons]
      omega
  | ⟨c :: values, []⟩ =>
      have hload := load_emptyValue_le m ⟨values, []⟩ c
      have hone : c.ref?.toList.length ≤ 1 := by
        cases c.ref? <;> simp
      simp only [load, size, List.length_nil] at hload
      simp only [turn]
      rw [weight_append, weight_cons, sumBy_weight_drops]
      simp only [weight, Job.weight, size, List.length_cons, List.length_nil]
      omega
  | ⟨[], []⟩ =>
      simp only [turn, Job.weight]
      omega

/-! ## Taking the steps -/

/-- Takes steps until no job is left, where `depth` nodes are being taken
down and there is room for `room`. If a node would be one too many, the
teardown is broken off. -/
def finish (room depth : Nat) (t : Teardown) : Except Memory Memory :=
  match t with
  | ⟨m, []⟩ => .ok m
  | ⟨m, .drop r :: jobs⟩ =>
      if m.count r = 1 then
        if depth < room then finish room (depth + 1) (drop m r jobs)
        else .error m
      else finish room depth (drop m r jobs)
  | ⟨m, .run w :: jobs⟩ => finish room depth (turn m jobs w)
  | ⟨m, .done _ :: jobs⟩ => finish room (depth - 1) ⟨m, jobs⟩
termination_by t.weight
decreasing_by
  · exact weight_drop_lt m r jobs
  · exact weight_drop_lt m r jobs
  · exact weight_turn_lt m jobs w
  · rw [weight_cons]
    exact Nat.lt_succ_self _

end Teardown

end SmallLisp
