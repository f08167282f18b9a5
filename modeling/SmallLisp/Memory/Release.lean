import SmallLisp.Memory

/-!
# Giving up references

A node whose last reference is given up gives up the references that it
holds. `release` is that rule as it stands: it descends into a node as soon
as the last reference to it has gone, so its recursion is as deep as nodes
are nested.

`Teardown` is the way in which the interpreter goes about it. A list that is
the only holder of one of its elements, and every scope, first moves what it
holds to a worklist. There, nodes wait to which the worklist has the only
reference. A loop takes them one by one, moves to the worklist what they
hold themselves, and lets go of the emptied node. Only a lambda, and a list
without an element of its own, give up what they hold one by one where they
stand.

A teardown is a machine with a stack of jobs, so that one can see which
nodes are being taken down at the same time: `Job.done` lies at the bottom
of what the end of a node brings about.
-/

namespace SmallLisp

namespace Memory

/-! ## Release by descent -/

/-- The number of nodes. -/
def live (m : Memory) : Nat :=
  m.total fun _ _ => 1

theorem live_erase_lt {m : Memory} {r : Ref} {e : Entry r.kind}
    (h : m.get? r = some e) : (m.erase r).live < m.live := by
  have := total_write (fun _ _ => 1) h none
  simp only [Option.elim_none] at this
  unfold live erase
  omega

theorem live_lose_le (m : Memory) (r : Ref) : (m.lose r).live ≤ m.live := by
  unfold lose alter
  split
  · next e he =>
      have := total_write (fun _ _ => 1) he
        (some { e with count := e.count - 1 })
      simp only [Option.elim_some] at this
      dsimp only [live]
      omega
  · exact Nat.le_refl _

/-- Gives up references one after the other. No node is added on the way. -/
def releaseAll (m : Memory) (rs : List Ref) :
    { t : Memory // t.live ≤ m.live } :=
  match rs with
  | [] => ⟨m, Nat.le_refl _⟩
  | r :: rs =>
      match h : m.get? r with
      | none => releaseAll m rs
      | some e =>
          if e.count = 1 then
            have hlt := live_erase_lt h
            let inner := releaseAll (m.erase r) e.node.refs
            have hle := Nat.le_trans inner.2 (Nat.le_of_lt hlt)
            let t := releaseAll inner.1 rs
            ⟨t.1, Nat.le_trans t.2 hle⟩
          else
            have hle := live_lose_le m r
            let t := releaseAll (m.lose r) rs
            ⟨t.1, Nat.le_trans t.2 hle⟩
termination_by (m.live, rs.length)
decreasing_by
  · exact Prod.Lex.right _ (Nat.lt_succ_self _)
  · exact Prod.Lex.left _ _ hlt
  · exact Prod.Lex.right' _ hle (Nat.lt_succ_self _)
  · exact Prod.Lex.right' _ hle (Nat.lt_succ_self _)

/-- The memory after references have been given up. -/
def release (m : Memory) (rs : List Ref) : Memory :=
  (m.releaseAll rs).1

end Memory

/-! ## The worklist -/

/-- Nodes whose last reference is held here, the next one first. -/
structure Worklist where
  values : List Cell
  scopes : List Nat

namespace Worklist

/-- The worklist on which nothing waits. -/
def empty : Worklist := ⟨[], []⟩

/-- The references that a worklist holds. -/
def refs (w : Worklist) : List Ref :=
  Cell.refs w.values ++ w.scopes.map (Ref.mk .scope)

/-- Whether a value is the only reference to its node. -/
def owns (m : Memory) (c : Cell) : Bool :=
  match c.ref? with
  | some r => m.count r == 1
  | none => false

/-- Takes over a value. A value that is shared only loses a reference. -/
def pushValue (m : Memory) (w : Worklist) (c : Cell) : Memory × Worklist :=
  if owns m c then (m, { w with values := c :: w.values })
  else
    match c.ref? with
    | some r => (m.lose r, w)
    | none => (m, w)

/-- Takes over values one after the other. -/
def pushValues (m : Memory) (w : Worklist) : List Cell → Memory × Worklist
  | [] => (m, w)
  | c :: cs =>
      let (m, w) := pushValue m w c
      pushValues m w cs

/-- Takes over a scope. A scope that is shared only loses a reference. -/
def pushScope (m : Memory) (w : Worklist) (id : Nat) : Memory × Worklist :=
  if m.count ⟨.scope, id⟩ = 1 then (m, { w with scopes := id :: w.scopes })
  else (m.lose ⟨.scope, id⟩, w)

/-- Takes over what a scope has held: first the bound values, then the scope
around it. -/
def pushContents (m : Memory) (w : Worklist) (bindings : List (String × Cell))
    (parent : Option Nat) : Memory × Worklist :=
  let (m, w) := pushValues m w (bindings.map Prod.snd)
  match parent with
  | some id => pushScope m w id
  | none => (m, w)

/-- Empties a scope to which there is only one reference. -/
def emptyScope (m : Memory) (w : Worklist) (id : Nat) : Memory × Worklist :=
  match m.get? ⟨.scope, id⟩ with
  | some ⟨count, .scope bindings parent⟩ =>
      if count = 1 then
        pushContents (m.hollow ⟨.scope, id⟩) w bindings parent
      else (m, w)
  | none => (m, w)

/-- Empties the node of a value to which there is only one reference. -/
def emptyValue (m : Memory) (w : Worklist) : Cell → Memory × Worklist
  | .plain _ => (m, w)
  | .list id =>
      match m.get? ⟨.list, id⟩ with
      | some ⟨count, .list items⟩ =>
          if count = 1 then pushValues (m.hollow ⟨.list, id⟩) w items
          else (m, w)
      | none => (m, w)
  | .lambda id =>
      match m.get? ⟨.lambda, id⟩ with
      | some ⟨count, .lambda body s⟩ =>
          if count = 1 then
            let (m, w) := pushValues (m.hollow ⟨.lambda, id⟩) w body
            emptyScope m w s
          else (m, w)
      | none => (m, w)

end Worklist

/-! ## The teardown -/

/-- What is left to do in a teardown. -/
inductive Job where
  /-- A reference is given up. -/
  | drop (r : Ref)
  /-- The loop over a worklist goes on. -/
  | run (w : Worklist)
  /-- A node that is being taken down is done with. -/
  | done (r : Ref)

/-- The memory during a teardown, and the jobs that are left, the next one
first. -/
structure Teardown where
  memory : Memory
  jobs : List Job

namespace Teardown

/-- Gives up one reference. -/
def start (m : Memory) (r : Ref) : Teardown := ⟨m, [.drop r]⟩

/-- What the end of a node brings about, in the memory that it has left. The
early way out is taken by a scope that holds nothing. -/
def dismantle (m : Memory) {k : NodeKind} : Node k → Memory × List Job
  | .list items =>
      if items.any (Worklist.owns m) then
        let (m, w) := Worklist.pushValues m .empty items
        (m, [.run w])
      else (m, (Cell.refs items).map .drop)
  | .lambda body s => (m, (Cell.refs body).map .drop ++ [.drop ⟨.scope, s⟩])
  | .scope [] none => (m, [])
  | .scope bindings parent =>
      let (m, w) := Worklist.pushContents m .empty bindings parent
      (m, [.run w])

/-- Gives up a reference, and takes its node down if it was the last one. -/
def drop (m : Memory) (r : Ref) (jobs : List Job) : Teardown :=
  match m.get? r with
  | none => ⟨m, jobs⟩
  | some e =>
      if e.count = 1 then
        let (m, first) := dismantle (m.erase r) e.node
        ⟨m, first ++ .done r :: jobs⟩
      else ⟨m.lose r, jobs⟩

/-- Takes one node off a worklist, scopes before values. -/
def turn (m : Memory) (jobs : List Job) : Worklist → Teardown
  | ⟨values, id :: scopes⟩ =>
      let (m, w) := Worklist.emptyScope m ⟨values, scopes⟩ id
      ⟨m, .drop ⟨.scope, id⟩ :: .run w :: jobs⟩
  | ⟨c :: values, []⟩ =>
      let (m, w) := Worklist.emptyValue m ⟨values, []⟩ c
      ⟨m, c.ref?.toList.map .drop ++ .run w :: jobs⟩
  | ⟨[], []⟩ => ⟨m, jobs⟩

/-- Does the next job, if there is one. -/
def step : Teardown → Option Teardown
  | ⟨_, []⟩ => none
  | ⟨m, .drop r :: jobs⟩ => some (drop m r jobs)
  | ⟨m, .run w :: jobs⟩ => some (turn m jobs w)
  | ⟨m, .done _ :: jobs⟩ => some ⟨m, jobs⟩

/-- The states that a teardown comes to. -/
inductive Reaches (t : Teardown) : Teardown → Prop where
  | refl : Reaches t t
  | next {u v : Teardown} (h : Reaches t u) (hstep : u.step = some v) :
      Reaches t v

/-- The nodes that are being taken down, the last one that was begun first. -/
def active (t : Teardown) : List Ref :=
  t.jobs.filterMap fun
    | .done r => some r
    | _ => none

end Teardown

end SmallLisp
