import S2E.Klee.ADT.MapOfSetsSearch
import S2E.Lib.ParentTree

/-!
# `PTree` and `RandomPathSearcher`

The process tree: its leaves hold the execution states. A node is marked active if a state that is not suspended is below
it, and the searcher goes down from the root along such nodes, by random bits where both children are.

The functions of the source, on the nodes in memory. Loops that go up stop with a fault after as many rounds as there have
been nodes.
-/

namespace S2E.Klee.PTree

open Lib Lib.ParentTree Function

structure NodeData (S : Type) where
  data : Option S
  active : Bool

abbrev TreeM (S : Type) := HeapM (NodeData S)

variable {S : Type}

def assert (b : Bool) : TreeM S Unit := if b then return () else throw .assertFailed

/-- `PTree(_root)` -/
def start (root : S) : ParentTree.Heap (NodeData S) :=
  ⟨update (fun _ => none) 0 (some ⟨none, none, none, ⟨some root, true⟩⟩), 1, some 0⟩

def setActive (b : Bool) (a : Nat) : TreeM S Unit := update a fun c => { c with data := { c.data with active := b } }

def activeAt : Ptr → TreeM S Bool
  | none => return true
  | some a => do
    let c ← load a
    return c.data.active

def split (n : Nat) (leftData rightData : S) : TreeM S (Nat × Nat) := do
  let c ← load n
  assert (c.left.isNone && c.right.isNone)
  let parentActive ← activeAt c.parent
  assert (c.data.active && parentActive)
  let l ← new ⟨some n, none, none, ⟨some leftData, true⟩⟩
  writeSlot (some l) (.left n)
  let r ← new ⟨some n, none, none, ⟨some rightData, true⟩⟩
  writeSlot (some r) (.right n)
  return (l, r)

/-- The loop of `deactivate`. -/
def deactivateUp : Nat → Ptr → TreeM S Unit
  | _, none => return ()
  | 0, some _ => throw .outOfFuel
  | fuel + 1, some n => do
    let c ← load n
    match c.left, c.right with
    | some l, some r => do
      let cl ← load l
      let cr ← load r
      if !cl.data.active && !cr.data.active then do
        setActive false n
        deactivateUp fuel c.parent
      else return ()
    | _, _ => do
      setActive false n
      deactivateUp fuel c.parent

def deactivate (n : Nat) : TreeM S Unit := do
  let c ← load n
  assert (c.left.isNone && c.right.isNone)
  setActive false n
  deactivateUp (← get).next c.parent

/-- The loop of `activate`. -/
def activateUp : Nat → Ptr → TreeM S Unit
  | _, none => return ()
  | 0, some _ => throw .outOfFuel
  | fuel + 1, some n => do
    setActive true n
    let c ← load n
    activateUp fuel c.parent

def activate (n : Nat) : TreeM S Unit := do
  let c ← load n
  assert (c.left.isNone && c.right.isNone)
  activateUp (← get).next (some n)

/-- The pointer of `p` to the deleted node `n` is cleared. -/
def unhook (p n : Nat) : TreeM S Unit := do
  let c ← load p
  if c.left = some n then writeSlot none (.left p)
  else do
    assert (c.right = some n)
    writeSlot none (.right p)

/-- The loop of `remove`: a node is deleted, and its parent if nothing is left below it. -/
def removeUp : Nat → Nat → TreeM S Unit
  | 0, _ => throw .outOfFuel
  | fuel + 1, n => do
    let c ← load n
    free n
    match c.parent with
    | none => return ()
    | some p => do
      unhook p n
      let cp ← load p
      if cp.left = none ∧ cp.right = none then removeUp fuel p else return ()

def remove (n : Nat) : TreeM S Unit := do
  let c ← load n
  assert (c.left.isNone && c.right.isNone)
  deactivate n
  removeUp (← get).next n

/-! ## `RandomPathSearcher::selectState` -/

/-- The bits that are left of the last random number, and how many numbers have been drawn. -/
structure Flips where
  flips : BitVec 32
  bits : Nat
  drawn : Nat

def Flips.next (rng : Nat → BitVec 32) (f : Flips) : Bool × Flips :=
  let f := if f.bits = 0 then ⟨rng f.drawn, 32, f.drawn + 1⟩ else f
  (f.flips.getLsbD (f.bits - 1), { f with bits := f.bits - 1 })

/-- The loop of `selectState`, at a node. -/
def selectFrom (rng : Nat → BitVec 32) : Nat → Flips → Nat → TreeM S S
  | 0, _, _ => throw .outOfFuel
  | fuel + 1, f, n => do
    let c ← load n
    match c.data.data with
    | some s => return s
    | none =>
      match c.left, c.right with
      | none, none => throw .dangling
      | none, some r => do
        assert (← load r).data.active
        selectFrom rng fuel f r
      | some l, none => do
        assert (← load l).data.active
        selectFrom rng fuel f l
      | some l, some r => do
        let cl ← load l
        let cr ← load r
        if cl.data.active = false then do
          assert cr.data.active
          selectFrom rng fuel f r
        else if cr.data.active = false then do
          assert cl.data.active
          selectFrom rng fuel f l
        else selectFrom rng fuel (f.next rng).2 (if (f.next rng).1 then l else r)

def selectState (rng : Nat → BitVec 32) : TreeM S S := do
  let h ← get
  match h.root with
  | none => throw .dangling
  | some n => do
    let c ← load n
    assert c.data.active
    selectFrom rng h.next ⟨0, 0, 0⟩ n

/-! ## The states of the executor -/

/-- The tree, where each live state is in it, and the sets of states. A state is an address, and the sets are ordered by
it. -/
structure Executor (S : Type) where
  tree : ParentTree.Heap (NodeData S)
  ptreeNode : S → Option Nat
  states : Finset S
  addedStates : Finset S
  removedStates : Finset S

section Executor

variable [LinearOrder S]

/-- An operation of the tree, run for the executor. -/
def Executor.onTree {α : Type} (e : Executor S) (m : TreeM S α) : Except Fault (α × Executor S) := do
  let (a, h) ← m.run e.tree
  return (a, { e with tree := h })

/-- `Executor::fork` and `branch`, for a state that is in the tree and a new one, which is not: both are put below the
leaf of the first. -/
def fork (current new : S) (swap : Bool) (e : Executor S) : Except Fault (Executor S) :=
  match e.ptreeNode current, e.ptreeNode new with
  | some n, none => do
    let falseState := if swap then current else new
    let trueState := if swap then new else current
    let ((l, r), e) ← e.onTree do
      update n fun c => { c with data := { c.data with data := none } }
      split n falseState trueState
    return { e with
      ptreeNode := update (update e.ptreeNode falseState (some l)) trueState (some r)
      addedStates := insert new e.addedStates }
  | _, _ => return e

/-- A state that was deleted has no more operations. -/
def deleteState (state : S) (e : Executor S) : Except Fault (Executor S) :=
  match e.ptreeNode state with
  | some n => do
    let (_, e) ← e.onTree (remove n)
    return { e with ptreeNode := update e.ptreeNode state none }
  | none => return e

def terminateState (state : S) (e : Executor S) : Except Fault (Executor S) :=
  if e.ptreeNode state = none then return e
  else if state ∈ e.addedStates then deleteState state { e with addedStates := e.addedStates.erase state }
  else return { e with removedStates := insert state e.removedStates }

/-- The loop of `updateStates` over the removed states. -/
def dropRemoved : List S → Executor S → Except Fault (Executor S)
  | [], e => return e
  | state :: rest, e =>
    if state ∈ e.states then do
      let e ← deleteState state { e with states := e.states.erase state }
      dropRemoved rest e
    else throw .assertFailed

def updateStates (e : Executor S) : Except Fault (Executor S) := do
  let e ← dropRemoved (MapOfSets.elements e.removedStates)
    { e with states := e.states ∪ e.addedStates, addedStates := ∅ }
  return { e with removedStates := ∅ }

/-- `S2EExecutor::suspendState`, with a searcher. -/
def suspendState (state : S) (e : Executor S) : Except Fault (Executor S) :=
  match e.ptreeNode state with
  | some n =>
    if state ∈ e.states then do
      let (_, e) ← e.onTree (deactivate n)
      return { e with states := e.states.erase state }
    else throw .assertFailed
  | none => return e

def resumeState (state : S) (e : Executor S) : Except Fault (Executor S) :=
  match e.ptreeNode state with
  | some n =>
    if state ∈ e.states then return e
    else do
      let (_, e) ← e.onTree (activate n)
      return { e with states := insert state e.states }
  | none => return e

inductive Cmd (S : Type)
  | fork (current new : S) (swap : Bool)
  | terminateState (state : S)
  | updateStates
  | suspendState (state : S)
  | resumeState (state : S)

end Executor

end S2E.Klee.PTree
