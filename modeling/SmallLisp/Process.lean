import SmallLisp.Memory.Finish
import SmallLisp.State

/-!
# Processes

A program runs in a process. To what the program itself can tell, its store
and what it has printed, the process adds the memory in which the values are
kept, and the references that are held outside the memory: those of values
that are being worked with, and of the scopes they are evaluated in. A
reference is copied before it is passed on, and given up when it is not
needed any more; the node that it leads to may be taken down then, with all
that it alone holds.

The memory decides nothing about the values. But the nodes that are taken
down at the same time take room on the stack of the host, and a process that
has no room left for the next one is killed.
-/

namespace SmallLisp

/-- A value, and the cell that it is kept as. -/
structure Placed where
  value : Value
  cell : Cell

namespace Placed

def nil : Placed := ⟨.nil, .plain .nil⟩

def values (xs : List Placed) : List Value :=
  xs.map value

def cells (xs : List Placed) : List Cell :=
  xs.map cell

/-- The references that values are kept as. -/
def refs (xs : List Placed) : List Ref :=
  Cell.refs (cells xs)

end Placed

namespace Memory

/-- The elements of a list, or the body of a lambda. -/
def cells (m : Memory) : Cell → List Cell
  | .plain _ => []
  | .list id =>
      match m.get? ⟨.list, id⟩ with
      | some ⟨_, .list items⟩ => items
      | none => []
  | .lambda id =>
      match m.get? ⟨.lambda, id⟩ with
      | some ⟨_, .lambda body _⟩ => body
      | none => []

def bindings (m : Memory) (id : Nat) : List (String × Cell) :=
  match m.get? ⟨.scope, id⟩ with
  | some ⟨_, .scope bindings _⟩ => bindings
  | none => []

/-- Looks for the nearest of at most `limit` scopes, from `id` outward, that
binds a name, and for the cell that is bound there. -/
def findWithin (m : Memory) (name : String) :
    (limit : Nat) → (id : Nat) → Option (Nat × Cell)
  | 0, _ => none
  | limit + 1, id =>
      match m.get? ⟨.scope, id⟩ with
      | none => none
      | some ⟨_, .scope bindings parent⟩ =>
          match bindings.lookup name with
          | some c => some (id, c)
          | none =>
              match parent with
              | some p => findWithin m name limit p
              | none => none

def find? (m : Memory) (id : Nat) (name : String) : Option (Nat × Cell) :=
  m.findWithin name (id + 1) id

end Memory

/-- A running program, its memory, the references that are held outside the
memory, the last one first, and the number of nodes that there is room to
take down at the same time. -/
structure Process where
  state : State
  memory : Memory
  held : List Ref
  room : Nat

/-- How a process can come to an end before it has an answer. If it is
killed, some reports may have been made before. -/
inductive Ending where
  | abort (a : Abort)
  | killed (reports : List String)

/-- What a process does. -/
abbrev Run := EStateM Ending Process

namespace Run

variable {α : Type}

/-! ## References -/

/-- Does what concerns the state alone. -/
def plainly (m : Eval α) : Run α := fun ⟨state, memory, held, room⟩ =>
  match m state with
  | .ok a state => .ok a ⟨state, memory, held, room⟩
  | .error a state => .error (.abort a) ⟨state, memory, held, room⟩

/-- Looks into the memory. -/
def look (f : Memory → α) : Run α := fun p =>
  .ok (f p.memory) p

/-- Copies a reference. -/
def copy (r : Ref) : Run Unit := fun ⟨state, memory, held, room⟩ =>
  .ok () ⟨state, memory.share r, r :: held, room⟩

/-- Gives up a reference that is held. -/
def drop (r : Ref) : Run Unit := fun ⟨state, memory, held, room⟩ =>
  match Teardown.finish room 0 (.start memory r) with
  | .ok memory => .ok () ⟨state, memory, held.erase r, room⟩
  | .error memory => .error (.killed []) ⟨state, memory, held.erase r, room⟩

def copyCell (c : Cell) : Run Unit :=
  match c.ref? with
  | some r => copy r
  | none => pure ()

def copyAll : List Ref → Run Unit
  | [] => pure ()
  | r :: rs => do
      copy r
      copyAll rs

def dropAll : List Ref → Run Unit
  | [] => pure ()
  | r :: rs => do
      drop r
      dropAll rs

def dropCell (c : Cell) : Run Unit :=
  match c.ref? with
  | some r => drop r
  | none => pure ()

/-- Makes a node; the references that it holds are moved there. -/
def make {k : NodeKind} (x : Node k) : Run Nat :=
  fun ⟨state, memory, held, room⟩ =>
    let r := memory.next k
    let held := x.refs.reverse.foldl List.erase held
    .ok r.id ⟨state, memory.add x, r :: held, room⟩

/-- Moves a value into a scope, and gives up the one that it replaces. -/
def bind (e : Nat) (name : String) (c : Cell) : Run Unit := do
  let replaced ← look fun m => (m.bindings e).filter (·.1 = name)
  let replaced := Cell.refs (replaced.map Prod.snd)
  fun ⟨state, memory, held, room⟩ =>
    let held := replaced ++ (Cell.refs [c]).foldl List.erase held
    .ok () ⟨state, memory.bind e name c, held, room⟩
  dropAll replaced

/-- Gives up all references that are held but some. -/
def unwind (base : List Ref) : Run Unit := fun p =>
  dropAll (base.foldl List.erase p.held) p

/-- Does something and hands out an error of the program as a result. What
has been taken hold of meanwhile is given up then. -/
def attempt (m : Run α) : Run (Except EvalError α) := fun p =>
  let base := p.held
  match m p with
  | .ok a p => .ok (.ok a) p
  | .error (.abort (.failed e)) p =>
      match unwind base p with
      | .ok _ p => .ok (.error e) p
      | .error ending p => .error ending p
  | .error ending p => .error ending p

/-- Does something after some reports have been made. -/
def reporting (reports : List String) (m : Run α) : Run α := fun p =>
  match m p with
  | .error (.killed _) p => .error (.killed reports) p
  | outcome => outcome

/-! ## Values -/

def raise (e : EvalError) : Run α :=
  plainly (Eval.raise e)

def fault : Run α :=
  plainly (throw .fault)

/-- The members of a list or a body, with the cells they are kept as. -/
def parts (vs : List Value) (c : Cell) : Run (List Placed) := do
  let cells ← look fun m => m.cells c
  return vs.zipWith Placed.mk cells

/-- Makes a list of values. -/
def gather (xs : List Placed) : Run Placed := do
  let id ← make (.list (Placed.cells xs))
  return ⟨.list (Placed.values xs), .list id⟩

mutual

/-- Makes the nodes of a value that is not kept anywhere yet. -/
def load : Value → Run Cell
  | .nil => pure (.plain .nil)
  | .bool b => pure (.plain (.bool b))
  | .int n => pure (.plain (.int n))
  | .float x => pure (.plain (.float x))
  | .str s => pure (.plain (.str s))
  | .symbol name => pure (.plain (.symbol name))
  | .builtin b => pure (.plain (.builtin b))
  | .list vs => do
      let cells ← loadFrom [] vs
      let id ← make (.list cells)
      return .list id
  | .lambda f => do
      copy ⟨.lambda, f.id⟩
      return .lambda f.id

/-- Makes the nodes of values, behind the cells of `found`, which are in
reverse. -/
def loadFrom (found : List Cell) : List Value → Run (List Cell)
  | [] => pure found.reverse
  | v :: vs => do
      let c ← load v
      loadFrom (c :: found) vs

end

/-! ## Scopes -/

/-- Opens a scope inside another one. -/
def openScope (parent : Option ScopeId) : Run ScopeId := do
  let e ← plainly (Eval.newScope parent)
  match parent with
  | some p => copy ⟨.scope, p⟩
  | none => pure ()
  let _ ← make (.scope [] parent)
  return e

def lookup (e : ScopeId) (name : String) : Run Placed := do
  let v ← plainly (Eval.lookup e name)
  let found ← look fun m => m.find? e name
  let c := found.elim (.plain .nil) Prod.snd
  copyCell c
  return ⟨v, c⟩

def define (e : ScopeId) (name : String) (x : Placed) : Run Unit := do
  plainly (Eval.define e name x.value)
  bind e name x.cell

def assign (e : ScopeId) (name : String) (x : Placed) : Run Unit := do
  plainly (Eval.assign e name x.value)
  let found ← look fun m => m.find? e name
  match found with
  | some (owner, _) => bind owner name x.cell
  | none => pure ()

end Run

end SmallLisp
