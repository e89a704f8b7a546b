import S2E.Klee.Core.AddressSpace

/-!
# Switching and forking execution states

All execution states share one native copy of the CPU structure and of the objects in `saveOnContextSwitch`. The state that
is active uses it; the others keep a copy in the object states of their address spaces. `clone` and `doStateFork` make
states, `doStateSwitch` changes the active one.

* `Machine.stored i mo` : the bytes of the object state that is bound to `mo` in the space of state `i`;
  `Machine.seen l i mo` : the bytes that state `i` works with while it is active;
* `Machine.Owns i mo o` : the object state `o` is bound to `mo` in space `i`, and the space owns it.
-/

namespace S2E.Qemu.StateSwitch
open S2E.Klee

abbrev Bytes := Nat → BitVec 8

/-- What an object holds: bytes and, in the CPU structure, the pointers to object states of `s2e_tlb_table`. -/
structure Contents where
  bytes : Bytes
  tlb : Nat → Option Nat

/-- The memory objects that the executor knows. -/
structure Layout where
  cpuSystemState : MemoryObject
  cpuRegistersState : MemoryObject
  dirtyMask : MemoryObject
  saveOnContextSwitch : List MemoryObject
  /-- The object is of the size `S2E_RAM_OBJECT_SIZE`, so that `s2e_tlb_table` may point to its object state. -/
  isRam : MemoryObject → Bool
  /-- The bytes of the CPU structure that are its `jmp_env`. -/
  jmpEnv : Nat → Bool
  /-- What `clone` does to the CPU structure: the owned-by-us flags of `s2e_tlb_table` are cleared. -/
  clearOwned : Bytes → Bytes
  cpu_shared : cpuSystemState.isSharedConcrete = true
  registers_private : cpuRegistersState.isSharedConcrete = false
  dirty_saved : dirtyMask ∈ saveOnContextSwitch
  dirty_ne_cpu : dirtyMask ≠ cpuSystemState
  saved_shared : ∀ mo ∈ saveOnContextSwitch, mo.isSharedConcrete = true
  saved_nodup : saveOnContextSwitch.Nodup

/-- The objects that the state gets back: those saved on a context switch and both parts of the CPU structure. -/
def Layout.Covered (l : Layout) (mo : MemoryObject) : Prop :=
  mo ∈ l.saveOnContextSwitch ∨ mo = l.cpuSystemState ∨ mo = l.cpuRegistersState

instance (l : Layout) (mo : MemoryObject) : Decidable (l.Covered mo) := inferInstanceAs (Decidable (_ ∨ _))

/-- The loops skip the CPU structure. -/
def Layout.saved (l : Layout) : List MemoryObject := l.saveOnContextSwitch.filter (· ≠ l.cpuSystemState)

structure S2EExecutionState where
  active : Bool
  runningConcrete : Bool
  cpuRegistersObject : Nat
  cpuSystemObject : Nat
  dirtyMaskObject : Nat

/-- All states, their address spaces and object states, and the native memory. -/
structure Machine where
  spaces : List AddressSpace
  heap : ObjectHeap Contents
  host : MemoryObject → Contents
  states : List S2EExecutionState

namespace Machine

variable (l : Layout) (m : Machine)

def setHost (mo : MemoryObject) (c : Contents) : Machine := { m with host := Function.update m.host mo c }

def storeAt (o : Nat) (c : Contents) : Machine :=
  { m with heap := m.heap.modify o fun os => { os with contents := c } }

def setState (i : Nat) (s : S2EExecutionState) : Machine := { m with states := m.states.set i s }

/-! ## Copy on write -/

/-- The pointers to one object state now point to its copy. -/
def repoint (old new : Nat) (c : Contents) : Contents :=
  { c with tlb := fun k => if c.tlb k = some old then some new else c.tlb k }

/-- The `s2e_tlb_table` of the state is in the native CPU structure while the state is active. -/
def addressSpaceChange (i : Nat) (mo : MemoryObject) (old new : Nat) : Option Machine :=
  if l.isRam mo then do
    let s ← m.states[i]?
    if s.active then some (m.setHost l.cpuSystemState (repoint old new (m.host l.cpuSystemState)))
    else some { m with heap := m.heap.modify s.cpuSystemObject fun os => { os with contents := repoint old new os.contents } }
  else some m

/-- `addressSpace.getWriteable` of state `i`. -/
def getWriteable (i : Nat) (mo : MemoryObject) (os : Nat) : Option (Machine × Nat) := do
  let a ← m.spaces[i]?
  let r ← a.getWriteable m.heap mo os
  if r.2.2 = os then some (m, os)
  else do
    let m' ← ({ m with heap := r.2.1 } : Machine).addressSpaceChange l i mo os r.2.2
    some ({ m' with spaces := m'.spaces.set i r.1 }, r.2.2)

def findObject (i : Nat) (mo : MemoryObject) : Option Nat := do
  let a ← m.spaces[i]?
  a.findObject mo

/-- The native bytes of the object go to the store of state `i`. -/
def saveObject (i : Nat) (mo : MemoryObject) : Option Machine := do
  let os ← m.findObject i mo
  let r ← m.getWriteable l i mo os
  some (r.1.storeAt r.2 (r.1.host mo))

/-- The store of state `i` goes to the native memory. -/
def restoreObject (i : Nat) (mo : MemoryObject) : Option Machine := do
  let os ← m.findObject i mo
  let o ← m.heap[os]?
  some (m.setHost mo o.contents)

/-! ## Modes -/

def switchToConcrete (i : Nat) : Option Machine := do
  let s ← m.states[i]?
  if s.runningConcrete then none
  else do
    let o ← m.heap[s.cpuRegistersObject]?
    some ((m.setHost l.cpuRegistersState o.contents).setState i { s with runningConcrete := true })

def switchToSymbolic (i : Nat) : Option Machine := do
  let s ← m.states[i]?
  if s.runningConcrete then
    some ((m.storeAt s.cpuRegistersObject (m.host l.cpuRegistersState)).setState i { s with runningConcrete := false })
  else none

/-! ## Switching -/

/-- A state that runs concretely is first brought to symbolic mode. -/
def ensureSymbolic (i : Nat) : Option Machine := do
  let s ← m.states[i]?
  if s.runningConcrete then m.switchToSymbolic l i else some m

/-- The part of `doStateSwitch` that leaves the old state, if there is one. -/
def leave : Option Nat → Option Machine
  | some i => do
    let m ← m.ensureSymbolic l i
    let s ← m.states[i]?
    some ((m.storeAt s.cpuSystemObject (m.host l.cpuSystemState)).setState i { s with active := false })
  | none => some m

/-- The part that enters the new state. The `jmp_env` of the native structure is put back. -/
def enter : Option Nat → Option Machine
  | some i => do
    let s ← m.states[i]?
    let o ← m.heap[s.cpuSystemObject]?
    let bytes : Bytes := fun k => if l.jmpEnv k then (m.host l.cpuSystemState).bytes k else o.contents.bytes k
    some ((m.setHost l.cpuSystemState ⟨bytes, o.contents.tlb⟩).setState i { s with active := true })
  | none => some m

def saveOld (mo : MemoryObject) : Option Nat → Option Machine
  | some i => m.saveObject l i mo
  | none => some m

def restoreNew (mo : MemoryObject) : Option Nat → Option Machine
  | some i => m.restoreObject i mo
  | none => some m

/-- One round of the loop over the other objects. -/
def exchange (old new : Option Nat) (m : Machine) (mo : MemoryObject) : Option Machine := do
  let m ← m.saveOld l mo old
  m.restoreNew mo new

/-- The assertions on the states: the old one is active, the new one is not, and does not run concretely. -/
def mayLeave (old : Option Nat) : Bool := old.all fun i => m.states[i]?.any (·.active)

def mayEnter (new : Option Nat) : Bool := new.all fun j => m.states[j]?.any fun s => !s.active && !s.runningConcrete

def doStateSwitch (old new : Option Nat) : Option Machine :=
  if (old.isSome || new.isSome) && m.mayLeave old && m.mayEnter new then do
    let m ← m.leave l old
    let m ← m.enter l new
    l.saved.foldlM (exchange l old new) m
  else none

/-! ## Forking -/

/-- The machine in the middle of `clone`: a copy of state `i` is at the end, and both share all object states. -/
def withCopy (i : Nat) (a : AddressSpace) (s : S2EExecutionState) : Machine where
  spaces := m.spaces.set i a.copy.1 ++ [a.copy.2]
  heap := m.heap
  host := Function.update m.host l.cpuSystemState
    { m.host l.cpuSystemState with bytes := l.clearOwned (m.host l.cpuSystemState).bytes }
  states := m.states ++ [s]

/-- A copy of state `i`; its index is returned. -/
def clone (i : Nat) : Option (Machine × Nat) := do
  let s ← m.states[i]?
  let a ← m.spaces[i]?
  if s.active then do
    let ret := m.spaces.length
    let (m, retRegisters) ← (m.withCopy l i a s).getWriteable l ret l.cpuRegistersState s.cpuRegistersObject
    let (m, retSystem) ← m.getWriteable l ret l.cpuSystemState s.cpuSystemObject
    let (m, registers) ← m.getWriteable l i l.cpuRegistersState s.cpuRegistersObject
    let (m, system) ← m.getWriteable l i l.cpuSystemState s.cpuSystemObject
    let (m, retDirty) ← m.getWriteable l ret l.dirtyMask s.dirtyMaskObject
    let (m, dirty) ← m.getWriteable l i l.dirtyMask s.dirtyMaskObject
    let m := m.setState ret ⟨s.active, s.runningConcrete, retRegisters, retSystem, retDirty⟩
    some (m.setState i ⟨s.active, s.runningConcrete, registers, system, dirty⟩, ret)
  else none

/-- The copies of `Executor::fork` (one, of the state) and of `Executor::branch` (each of one of the states `group` made so
far, as the choices say). -/
def copies (m : Machine) (group : List Nat) : List Nat → Option (Machine × List Nat)
  | [] => some (m, group)
  | c :: choices => do
    let es ← group[c % group.length]?
    let r ← m.clone l es
    copies r.1 (group ++ [r.2]) choices

/-- What `doStateFork` does for one new state. -/
def saveNew (j : Nat) : Option Machine := do
  let s ← m.states[j]?
  let m := (m.storeAt s.cpuSystemObject (m.host l.cpuSystemState)).setState j { s with active := false }
  l.saved.foldlM (fun m mo => m.saveObject l j mo) m

def doStateFork (i : Nat) (newStates : List Nat) : Option Machine :=
  if m.states[i]?.any fun s => s.active && !s.runningConcrete then
    (newStates.filter (· ≠ i)).foldlM (fun m j => m.saveNew l j) m
  else none

/-! ## The guest -/

/-- What a guest step of the active state is made of. -/
inductive GuestOp
  /-- Native code changes a shared object or, in concrete mode, the registers. -/
  | native (mo : MemoryObject) (f : Contents → Contents)
  /-- Symbolic code writes to an object. -/
  | write (mo : MemoryObject) (f : Contents → Contents)
  | bindObject (mo : MemoryObject) (contents : Contents)
  | unbindObject (mo : MemoryObject)
  | switchToConcrete
  | switchToSymbolic

def isNative (s : S2EExecutionState) (mo : MemoryObject) : Bool :=
  mo.isSharedConcrete || (mo = l.cpuRegistersState && s.runningConcrete)

def write (i : Nat) (mo : MemoryObject) (f : Contents → Contents) : Option Machine := do
  let os ← m.findObject i mo
  let r ← m.getWriteable l i mo os
  let o ← r.1.heap[r.2]?
  some (if mo.isSharedConcrete then r.1.setHost mo (f (r.1.host mo)) else r.1.storeAt r.2 (f o.contents))

def bindObject (i : Nat) (mo : MemoryObject) (contents : Contents) : Option Machine := do
  let a ← m.spaces[i]?
  let r ← a.bindObject m.heap mo ⟨0, false, contents⟩
  some { m with spaces := m.spaces.set i r.1, heap := r.2 }

def unbindObject (i : Nat) (mo : MemoryObject) : Option Machine := do
  let a ← m.spaces[i]?
  some { m with spaces := m.spaces.set i (a.unbindObject mo) }

def guest (i : Nat) (op : GuestOp) : Option Machine := do
  let s ← m.states[i]?
  if s.active then
    match op with
    | .native mo f => if isNative l s mo then some (m.setHost mo (f (m.host mo))) else none
    | .write mo f => m.write l i mo f
    | .bindObject mo contents => if l.Covered mo then none else m.bindObject i mo contents
    | .unbindObject mo => if l.Covered mo then none else m.unbindObject i mo
    | .switchToConcrete => m.switchToConcrete l i
    | .switchToSymbolic => m.switchToSymbolic l i
  else none

/-! ## What a state sees, and what it has stored -/

def owners : List (BitVec 32) := m.heap.map (·.copyOnWriteOwner)

def bytesAt (o : Nat) : Option Bytes := m.heap[o]?.map (·.contents.bytes)

section

variable (i : Nat) (mo : MemoryObject)

def stored : Option Bytes := (m.findObject i mo).bind m.bytesAt

def seen : Option Bytes := do
  let s ← m.states[i]?
  if isNative l s mo then some (m.host mo).bytes else m.stored i mo

def Binds (o : Nat) : Prop := ∃ a, m.spaces[i]? = some a ∧ a.objects mo = some o

def Owns (o : Nat) : Prop :=
  ∃ a, m.spaces[i]? = some a ∧ a.objects mo = some o ∧ m.owners[o]? = some a.cowKey

end

structure Sound : Prop where
  length : m.states.length = m.spaces.length
  owned : Owned m.spaces m.owners
  injective : ∀ {i mo mo' o}, m.Binds i mo o → m.Binds i mo' o → mo = mo'

end Machine

end S2E.Qemu.StateSwitch
