import S2E.Klee.Core.Contents
import S2E.Klee.Core.ObjectSound
import S2E.Klee.Expr.Constraints

/-!
# `S2EExecutionState::merge`

A state takes over another one. The constraints that the two have in common stay, and the rest of each becomes a condition
(`inA`, `inB`). Locals and bytes that differ become a `Select` on `inA`.

* `MergingState` : what is compared and merged besides the memory;
* `Merger` : what is the same for all states;
* `merge` : `none` where the code returns `false`.

The object states are those of states that are not active. A read of the other state's object does not keep the caches
that it fills. The flush of the TLB at the end, which writes to the CPU system object only, is left out.
-/

namespace S2E.Qemu

open S2E.Klee S2E.Lib List Option Function

structure KFunction where
  id : Nat
  numRegisters : Nat
deriving DecidableEq

structure StackFrame where
  caller : Nat
  kf : KFunction
  locals : Nat → Option Expr

structure MergingState where
  pc : Nat
  symbolics : List Nat
  stack : List StackFrame
  constraints : ConstraintManager

/-- The path condition. -/
def MergingState.Holds (A : MergingState) (σ : Assignment) : Prop := ∀ c ∈ A.constraints, c.Holds σ

structure Merger where
  /-- The elements of a `std::set`, in its order. -/
  elements : List Expr → List Expr
  mem_elements : ∀ {l e}, e ∈ elements l ↔ e ∈ l
  /-- The memory objects, in the order of the memory maps. -/
  memoryObjects : List MemoryObject
  nodup : memoryObjects.Nodup
  size : MemoryObject → Nat
  isValueIgnored : MemoryObject → Bool
  cpuSystemState : MemoryObject
  dirtyMask : MemoryObject
  /-- The part of the CPU system object that is compared, from its start to `current_tb`. -/
  cpuStateSize : Nat

variable {os : Nat} {e : Expr} {mo : MemoryObject} {l : List MemoryObject}

namespace Merger

section Model

/-- The loop over the stacks. Different callers or functions are reported, and nothing more; only the lengths count. -/
def sameCallStacks : List StackFrame → List StackFrame → Bool
  | [], [] => true
  | _ :: as, _ :: bs => sameCallStacks as bs
  | _, _ => false

variable (x : Merger) (s : System ObjectState) (i j : Nat)

def commonConstraints (A B : MergingState) : List Expr := x.elements (A.constraints.filter (· ∈ B.constraints))

/-- The constraints that are not common. -/
def suffix (common constraints : List Expr) : List Expr := x.elements (constraints.filter (· ∉ common))

def aSuffix (A B : MergingState) : List Expr := x.suffix (x.commonConstraints A B) A.constraints

def bSuffix (A B : MergingState) : List Expr := x.suffix (x.commonConstraints A B) B.constraints

/-- What is compared of the CPU system object. -/
def cpuState (i : Nat) : Option (List (BitVec 8)) :=
  (s.contents i x.cpuSystemState).map fun o => FlatMemory.load o.concreteStore 0 x.cpuStateSize

/-- The object state that is bound to a memory object. -/
def boundState (i : Nat) (mo : MemoryObject) : Option Nat := do
  let a ← s.spaces[i]?
  a.findObject mo

/-- The bindings of a state, in order. -/
def bindings (i : Nat) : List (MemoryObject × Nat) :=
  x.memoryObjects.filterMap fun mo => (boundState s i mo).map (mo, ·)

/-- The two states may have different values there. -/
def isExempt (mo : MemoryObject) : Bool := x.isValueIgnored mo || mo == x.cpuSystemState || mo == x.dirtyMask

/-- The loop over the memory maps. -/
def scan : List (MemoryObject × Nat) → List (MemoryObject × Nat) → Option (List MemoryObject)
  | [], [] => some []
  | (mo, os) :: as, (mo', os') :: bs =>
    if mo ≠ mo' then none
    else if os ≠ os' && !x.isExempt mo then
      if mo.isSharedConcrete then none else (scan as bs).map (mo :: ·)
    else scan as bs
  | _, _ => none

def mutated : Option (List MemoryObject) := x.scan (x.bindings s i) (x.bindings s j)

/-- The bits of the dirty mask that differ are cleared. -/
def mergeDirtyMask : Except Trap (System ObjectState) := do
  let oA ← Trap.check (s.contents i x.dirtyMask)
  let oB ← Trap.check (s.contents j x.dirtyMask)
  if oA.isAllConcrete && oB.isAllConcrete then
    Trap.check (s.replaceContents i x.dirtyMask { oA with
      concreteStore := fun k =>
        if k < x.size x.dirtyMask ∧ oA.concreteStore k ≠ oB.concreteStore k then 0 else oA.concreteStore k })
  else throw .assertFailed

variable [Options]

/-- The conjunction of the constraints. -/
def predicate (l : List Expr) : Expr := l.foldl AndExpr.create (.const 1 1)

/-- `SelectExpr::create` asserts that the widths fit. -/
def createSelect (c t f : Expr) : Except Trap Expr :=
  if c.getWidth = 1 ∧ t.getWidth = f.getWidth then return SelectExpr.create c t f else throw .assertFailed

def mergeLocal (inA : Expr) : Option Expr → Option Expr → Except Trap (Option Expr)
  | some av, some bv => if av ≠ bv then (createSelect inA av bv).map some else return some av
  | av, _ => return av

/-- The body of the loop over the registers of a frame. -/
def mergeRegister (inA : Expr) (bf : StackFrame) (af : StackFrame) (k : Nat) : Except Trap StackFrame :=
  (mergeLocal inA (af.locals k) (bf.locals k)).map fun v => { af with locals := update af.locals k v }

def mergeFrame (inA : Expr) (af bf : StackFrame) : Except Trap StackFrame :=
  (range af.kf.numRegisters).foldlM (mergeRegister inA bf) af

def mergeStack (inA : Expr) : List StackFrame → List StackFrame → Except Trap (List StackFrame)
  | af :: as, bf :: bs => do
    let f ← mergeFrame inA af bf
    let fs ← mergeStack inA as bs
    return f :: fs
  | as, _ => return as

/-- The byte of `wos` after the two were read. -/
def mergeRead (inA : Expr) (k : Nat) (a b : Expr × ObjectState) : Except Trap (ObjectState × ObjectState) :=
  if a.1 ≠ b.1 then do
    let v ← createSelect inA a.1 b.1
    let o ← a.2.writeAt k v
    return (o, b.2)
  else return (a.2, b.2)

/-- The body of the loop over the bytes of an object. -/
def mergeByte (inA : Expr) (o : ObjectState × ObjectState) (k : Nat) : Except Trap (ObjectState × ObjectState) := do
  let a ← o.1.read8At k
  let b ← o.2.read8At k
  mergeRead inA k a b

def mergeObject (inA : Expr) (s : System ObjectState) (mo : MemoryObject) : Except Trap (System ObjectState) := do
  let oA ← Trap.check (s.contents i mo)
  let oB ← Trap.check (s.contents j mo)
  let o ← (range (x.size mo)).foldlM (mergeByte inA) (oA, oB)
  Trap.check (s.replaceContents i mo o.1)

section

variable (A B : MergingState)

def inA : Expr := predicate (x.aSuffix A B)

def inB : Expr := predicate (x.bSuffix A B)

/-- What is done once the states have been found to be mergeable. -/
def mergeInto (mutated : List MemoryObject) : Except Trap (Option (MergingState × System ObjectState)) := do
  let stack ← mergeStack (x.inA A B) A.stack B.stack
  let s ← mutated.foldlM (x.mergeObject i j (x.inA A B)) s
  let constraints ← (x.commonConstraints A B ++ [OrExpr.create (x.inA A B) (x.inB A B)]).foldlM
    ConstraintManager.addConstraint []
  let s ← x.mergeDirtyMask s i j
  return some ({ A with stack, constraints }, s)

def merge : Except Trap (Option (MergingState × System ObjectState)) :=
  if A.pc ≠ B.pc ∨ A.symbolics ≠ B.symbolics ∨ sameCallStacks A.stack B.stack = false ∨
      x.cpuState s i ≠ x.cpuState s j then return none
  else
    match x.mutated s i j with
    | none => return none
    | some mutated => x.mergeInto s i j A B mutated

end

end Model

/-! ## The path condition -/

section PathCondition

variable [Options] {x : Merger} {A B : MergingState} {σ : Assignment}

/-- A boolean that can be evaluated. -/
def Usable (σ : Assignment) (e : Expr) : Prop := e.IsBool ∧ e.InBounds σ

theorem Usable.denotes (h : Usable σ e) : e.Denotes σ (e.eval σ 1) := ⟨h.2, h.1.2, rfl⟩

section

omit [Options]

end

end PathCondition

/-! ## Locals -/

section Locals

variable [Options] {σ : Assignment} {inA : Expr} {c : BitVec 1}

end Locals

/-! ## Bytes -/

section Bytes

variable [Options] {σ : Assignment} {inA : Expr} {c : BitVec 1} {n : Nat} {mA mB : FlatMemory} {oA oB : ObjectState}

end Bytes

/-! ## Objects -/

section Objects

variable {x : Merger} {s s' : System ObjectState} {i j : Nat}

theorem mem_bindings : (mo, os) ∈ x.bindings s i ↔ mo ∈ x.memoryObjects ∧ boundState s i mo = some os := by
  unfold bindings
  rw [mem_filterMap]
  constructor
  · rintro ⟨mo', hmo', h⟩
    obtain ⟨os', hos', h⟩ := map_eq_some_iff.1 h
    cases h
    exact ⟨hmo', hos'⟩
  · grind

variable [Options]

end Objects

/-! ## The merged state -/

section Merged

variable [Options] {x : Merger} {s s' : System ObjectState} {i j : Nat} {A B R : MergingState} {σ : Assignment}
  {mA mB : MemoryObject → FlatMemory}

theorem merge_cases (h : x.merge s i j A B = .ok (some (R, s'))) : ∃ l s₁, x.mutated s i j = some l ∧
    mergeStack (x.inA A B) A.stack B.stack = .ok R.stack ∧ l.foldlM (x.mergeObject i j (x.inA A B)) s = .ok s₁ ∧
    (x.commonConstraints A B ++ [OrExpr.create (x.inA A B) (x.inB A B)]).foldlM ConstraintManager.addConstraint []
      = .ok R.constraints ∧ x.mergeDirtyMask s₁ i j = .ok s' := by
  unfold merge at h
  split at h
  · cases h
  · split at h
    · cases h
    · rename_i l hl
      obtain ⟨stack, hstack, h⟩ := exists_of_bind_ok h
      obtain ⟨s₁, hs₁, h⟩ := exists_of_bind_ok h
      obtain ⟨constraints, hconstraints, h⟩ := exists_of_bind_ok h
      obtain ⟨s₂, hs₂, h⟩ := exists_of_bind_ok h
      cases h
      exact ⟨l, s₁, hl, hstack, hs₁, hconstraints, hs₂⟩

end Merged

/-! ## The two sides of a branch -/

section Branch

def ram : MemoryObject := ⟨2, false⟩

/-- Three objects of one byte: the CPU system object, the dirty mask, and one of the guest memory. -/
def oneByteObjects : Merger where
  elements := id
  mem_elements := Iff.rfl
  memoryObjects := [⟨0, true⟩, ⟨1, true⟩, ram]
  nodup := by decide
  size _ := 1
  isValueIgnored _ := false
  cpuSystemState := ⟨0, true⟩
  dirtyMask := ⟨1, true⟩
  cpuStateSize := 1

/-- An address space in which the guest memory is the object state `os`. -/
def spaceWith (cowKey : BitVec 32) (os : Nat) : AddressSpace where
  cowKey := cowKey
  objects mo := if mo = ⟨0, true⟩ then some 0 else if mo = ⟨1, true⟩ then some 1 else if mo = ram then some os else none

theorem one_lt_pow : 1 < 2 ^ 32 := by decide

def byteObject (b : BitVec 8) : ObjectState := .concrete true 0 0 1 one_lt_pow fun _ => b

/-- The two sides differ in the byte of the guest memory. -/
def twoSides : System ObjectState where
  spaces := [spaceWith 1 2, spaceWith 2 3]
  heap := [⟨0, false, byteObject 0⟩, ⟨0, false, byteObject 0⟩, ⟨1, false, byteObject 7⟩, ⟨2, false, byteObject 9⟩]
  host _ := byteObject 0

/-- The lowest bit of a symbolic byte. -/
def lowBit : Expr := .extract (symbolicByte 0 "x") 0 1

/-- One side of the branch, with one local. -/
def side (condition result : Expr) : MergingState where
  pc := 0
  symbolics := [0]
  stack := [⟨0, ⟨0, 1⟩, fun _ => some result⟩]
  constraints := [condition]

end Branch

end Merger

end S2E.Qemu
