import S2E.Klee.Core.PTree.Code

/-!
# `MergingSearcher`

A searcher over another one. A state that is at a merge point is taken out of the base searcher and waits; when the base
searcher has no more states, the waiting states are merged point by point, and what is left of them goes back to the base
searcher, one instruction further.

The base searcher is given by its three operations. `randomPathSearcher` and `dfsSearcher` are two of the source's. A loop
that may go on forever is given its number of rounds.
-/

namespace S2E.Klee.MergingSearcher

open Lib Lib.ParentTree
open MapOfSets (elements)

/-- The operations of a `Searcher`. -/
structure Searcher (S B : Type) where
  selectState : B → Except Fault (S × B)
  update : B → Option S → Finset S → Finset S → Except Fault B
  empty : B → Bool

inductive Instruction
  | call (callee : Option Nat)
  | other

/-- The instructions by their number, and `kleeMergeFn`. -/
structure Program where
  code : List Instruction
  mergeFunction : Option Nat

/-- The searcher and what it reads and changes of the executor: the program counters, the live states and those to be
removed at the next `updateStates`. `mergePoint` has the values of the map whose keys are `statesAtMerge`; `running` is
`g_s2e_state`, which is changed only after `selectState`. -/
structure World (S B : Type) where
  base : B
  statesAtMerge : Finset S
  mergePoint : S → Nat
  pc : S → Nat
  states : Finset S
  removedStates : Finset S
  running : Option S
  /-- How often a merge was tried. -/
  attempts : Nat

abbrev MergeM (S B : Type) := StateT (World S B) (Except Fault)

/-- The address of the instruction, or 0. -/
def getMergePoint (P : Program) (pc : Nat) : Nat :=
  match P.mergeFunction, P.code[pc]? with
  | some f, some (.call (some callee)) => if f = callee then pc + 1 else 0
  | _, _ => 0

section Code

variable {S B : Type} [LinearOrder S] (I : Searcher S B) (P : Program) (outcome : Nat → S → S → Bool)

def onBase {α : Type} (f : B → Except Fault (α × B)) : MergeM S B α := do
  let w ← get
  let (a, base) ← f w.base
  set { w with base }
  return a

/-- `update` of the base searcher. -/
def updateBase (current : Option S) (addedStates removedStates : Finset S) : MergeM S B Unit :=
  onBase fun b => do
    let b ← I.update b current addedStates removedStates
    return ((), b)

def queueStateForMerge (es : S) (mergePoint : Nat) : MergeM S B Unit := do
  updateBase I (some es) ∅ {es}
  modify fun w => { w with
    statesAtMerge := insert es w.statesAtMerge
    -- a key that is there keeps its value
    mergePoint := if es ∈ w.statesAtMerge then w.mergePoint else Function.update w.mergePoint es mergePoint }

/-- The loop of `selectState` over the base searcher. -/
def scan : Nat → MergeM S B (Option S)
  | 0 => throw .outOfFuel
  | fuel + 1 => do
    let w ← get
    if I.empty w.base then return none
    else do
      let es ← onBase I.selectState
      if getMergePoint P (w.pc es) = 0 then return some es
      else do
        queueStateForMerge I es (getMergePoint P (w.pc es))
        scan fuel

/-- `executor.merge`: two states at different instructions are not merged; otherwise `outcome` says for each attempt. -/
def merge (base mergeWith : S) : MergeM S B Bool := do
  let w ← get
  set { w with attempts := w.attempts + 1 }
  return decide (w.pc base = w.pc mergeWith) && outcome w.attempts base mergeWith

/-- The attempts for one base. Returns `toErase`. -/
def mergeAll (base : S) : List S → MergeM S B (List S)
  | [] => return []
  | mergeWith :: rest => do
    let merged ← merge outcome base mergeWith
    let toErase ← mergeAll base rest
    return if merged then mergeWith :: toErase else toErase

/-- The merged states are terminated, and the base is tossed back, past the merge point. `S2EExecutor::terminateState`
throws a `CpuExitException` for the running state. -/
def tossBack (base : S) (toErase : List S) : MergeM S B Unit := do
  let w ← get
  if ∃ r ∈ w.running, r ∈ toErase then throw .exception
  modify fun w => { w with
    removedStates := w.removedStates ∪ toErase.toFinset
    statesAtMerge := w.statesAtMerge.erase base
    pc := Function.update w.pc base (w.pc base + 1) }
  updateBase I none {base} ∅

/-- The loop over `toMerge`, which has as many rounds as there are states at most. -/
def mergeGroup : Nat → List S → MergeM S B Unit
  | _, [] => return ()
  | 0, _ :: _ => throw .outOfFuel
  | fuel + 1, base :: toMerge => do
    let toErase ← mergeAll outcome base toMerge
    tossBack I base toErase
    mergeGroup fuel (toMerge.filter (· ∉ toErase))

/-- The map of merge point to states, in its order. -/
def merges (w : World S B) : List (List S) :=
  (elements (w.statesAtMerge.image w.mergePoint)).map fun mp =>
    elements (w.statesAtMerge.filter (w.mergePoint · = mp))

def mergeGroups : List (List S) → MergeM S B Unit
  | [] => return ()
  | group :: rest => do
    mergeGroup I outcome group.length group
    mergeGroups rest

/-- `selectState`, with a number of recursive calls and one of rounds of each loop. -/
def selectState : Nat → Nat → MergeM S B S
  | 0, _ => throw .outOfFuel
  | calls + 1, rounds => do
    match ← scan I P rounds with
    | some es => return es
    | none => do
      let w ← get
      mergeGroups I outcome (merges w)
      selectState calls rounds

def update (current : Option S) (addedStates removedStates : Finset S) : MergeM S B Unit := do
  let w ← get
  let alt := removedStates.filter (· ∉ w.statesAtMerge)
  set { w with statesAtMerge := w.statesAtMerge \ removedStates }
  updateBase I current addedStates alt

/-! ## Rounds of the executor -/

/-- What happens in a round: how the merges end, and, while the selected state runs, the instructions that it and its forks
come to, the forked states, the states that are terminated, and the merge point with which it is queued by a call of
`queueStateForMerge`. -/
structure Step (S : Type) where
  outcome : Nat → S → S → Bool
  pc : S → Nat
  forked : Finset S
  terminated : Finset S
  queued : Option Nat

def queue (es : S) : Option Nat → MergeM S B Unit
  | none => return ()
  | some mp => queueStateForMerge I es mp

/-- The selected state runs, then `updateStates`. A new state that is terminated was never added. -/
def advance (es : S) (step : Step S) : MergeM S B Unit := do
  let w ← get
  let forked := step.forked \ w.states
  set { w with pc := fun s => if s = es ∨ s ∈ forked then step.pc s else w.pc s, running := some es }
  queue I es step.queued
  let addedStates := forked \ step.terminated
  let removedStates := w.removedStates ∪ (step.terminated ∩ w.states)
  update I (some es) addedStates removedStates
  modify fun w => { w with states := (w.states ∪ addedStates) \ removedStates, removedStates := ∅ }

/-- A state is selected and runs. The selection may use as many calls as there are instructions and two more. -/
def round (step : Step S) : MergeM S B Unit := do
  let w ← get
  let es ← selectState I P step.outcome (P.code.length + 2) (w.states.card + 1)
  advance I es step

/-- The loop of `Executor::run`. -/
def run : List (Step S) → MergeM S B Unit
  | [] => return ()
  | step :: steps => do
    let w ← get
    if w.states = ∅ then return ()
    else do
      round I P step
      run steps

end Code

/-! ## Two base searchers -/

section Searchers

variable {S : Type} [LinearOrder S]

/-- `RandomPathSearcher`: it looks at the states and the tree of the executor, and `update` does nothing. -/
def randomPathSearcher (rng : Nat → BitVec 32) : Searcher S (PTree.Executor S) where
  selectState e := e.onTree (PTree.selectState rng)
  update e _ _ _ := return e
  empty e := decide (e.states = ∅)

/-- One state is taken out of the vector of a `DFSSearcher`. -/
def dfsRemove (states : List S) (es : S) : Except Fault (List S) :=
  if states.getLast? = some es then return states.dropLast
  else if es ∈ states then return states.erase es
  else throw .assertFailed

def dfsSearcher : Searcher S (List S) where
  selectState states :=
    match states.getLast? with
    | some es => return (es, states)
    | none => throw .dangling
  update states _ addedStates removedStates := (elements removedStates).foldlM dfsRemove (states ++ elements addedStates)
  empty states := states.isEmpty

end Searchers

end S2E.Klee.MergingSearcher
