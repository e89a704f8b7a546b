import S2E.Qemu.DeviceState
import S2E.Qemu.Merge

/-!
# What `S2EExecutionState::merge` compares

Whole execution states, with the device state of each. Everything is compared before anything is changed, so a merge that
is refused leaves the receiving state as it was. A merge that is done should have compared all that a `Select` does not
merge. But two frames of the call stacks that differ are only reported, the device states are not looked at, and the
dirty mask and the objects whose values are ignored are left out of the comparison.

* `Agree` : what a merge relies on; `Unchecked` : the part of it that the code does not establish.
-/

namespace S2E.Qemu

open S2E.Klee S2E.Lib

/-- The parts of an `S2EExecutionState`; the address space and the device state are in the machine. -/
structure S2EState where
  state : MergingState
  addressSpace : Nat
  deviceState : Nat

/-- The memory of all states and their device states, each with what it saved of the devices (`m_State`). -/
structure Machine where
  system : System ObjectState
  devices : DeviceState.Heap
  savedDevices : Nat → List (BitVec 8)

namespace Merger

/-- The answer, the receiving state and the machine. The device states are not touched. -/
def mergeStates [Options] (x : Merger) (m : Machine) (A B : S2EState) : Except Trap (Bool × S2EState × Machine) := do
  match ← x.merge m.system A.addressSpace B.addressSpace A.state B.state with
  | none => return (false, A, m)
  | some (state, system) => return (true, { A with state }, { m with system })

def SameFrame (a b : StackFrame) : Prop := a.caller = b.caller ∧ a.kf = b.kf

/-- The devices, and the sectors that a state would read back. -/
def SameDevices (m : Machine) (A B : S2EState) : Prop :=
  m.savedDevices A.deviceState = m.savedDevices B.deviceState ∧
    ∀ bs i, DeviceState.lookup m.devices A.deviceState bs i = DeviceState.lookup m.devices B.deviceState bs i

def SameContents (m : Machine) (A B : S2EState) (mo : MemoryObject) : Prop :=
  m.system.contents A.addressSpace mo = m.system.contents B.addressSpace mo

/-- What is not merged with a `Select` is the same in both states. -/
structure Agree (x : Merger) (m : Machine) (A B : S2EState) : Prop where
  stack : List.Forall₂ SameFrame A.state.stack B.state.stack
  symbolics : A.state.symbolics = B.state.symbolics
  pc : A.state.pc = B.state.pc
  shared : ∀ mo ∈ x.memoryObjects, mo.isSharedConcrete = true → mo ≠ x.cpuSystemState → SameContents m A B mo
  cpuState : x.cpuState m.system A.addressSpace = x.cpuState m.system B.addressSpace
  devices : SameDevices m A B

/-- What the code takes for granted. -/
structure Unchecked (x : Merger) (m : Machine) (A B : S2EState) : Prop where
  frame : ∀ (k : Nat) (a b : StackFrame), A.state.stack[k]? = some a → B.state.stack[k]? = some b → SameFrame a b
  devices : SameDevices m A B
  dirtyMask : x.dirtyMask ∈ x.memoryObjects → x.dirtyMask.isSharedConcrete = true → x.dirtyMask ≠ x.cpuSystemState →
    SameContents m A B x.dirtyMask
  ignored : ∀ mo ∈ x.memoryObjects, x.isValueIgnored mo = true → mo.isSharedConcrete = true → mo ≠ x.cpuSystemState →
    SameContents m A B mo

/-! ## The comparisons -/

section Comparisons

variable {x : Merger} {s : System ObjectState} {i j : Nat}

theorem sameCallStacks_length {as bs : List StackFrame} (h : sameCallStacks as bs = true) : as.length = bs.length := by
  induction as generalizing bs with
  | nil =>
    cases bs with
    | nil => rfl
    | cons => cases h
  | cons a as ih =>
    cases bs with
    | nil => cases h
    | cons b bs => exact congrArg (· + 1) (ih h)

theorem forall₂_of_sameCallStacks {as bs : List StackFrame} (h : sameCallStacks as bs = true)
    (hframe : ∀ (k : Nat) (a b : StackFrame), as[k]? = some a → bs[k]? = some b → SameFrame a b) :
    List.Forall₂ SameFrame as bs := by
  apply List.forall₂_iff_get.2
  refine ⟨sameCallStacks_length h, fun k ha hb => ?_⟩
  exact hframe k _ _ (List.getElem?_eq_getElem ha) (List.getElem?_eq_getElem hb)

/-- The two maps bind a shared object that is not exempt to the same object state. -/
theorem scan_shared {as bs : List (MemoryObject × Nat)} {l : List MemoryObject} {mo : MemoryObject} (os : Nat)
    (hs : mo.isSharedConcrete = true) (hex : x.isExempt mo = false) (h : x.scan as bs = some l) :
    (mo, os) ∈ as ↔ (mo, os) ∈ bs := by
  induction as generalizing bs l with
  | nil =>
    cases bs with
    | nil => exact Iff.rfl
    | cons => cases h
  | cons a as ih =>
    obtain ⟨moA, osA⟩ := a
    cases bs with
    | nil => cases h
    | cons b bs =>
      obtain ⟨moB, osB⟩ := b
      rw [scan] at h
      split at h
      · cases h
      · rename_i hmo
        obtain rfl := not_not.1 hmo
        rw [List.mem_cons, List.mem_cons, Prod.mk.injEq, Prod.mk.injEq]
        split at h
        · split at h
          · cases h
          · -- the object at the head is one to merge, so it is not shared
            rename_i hshared
            obtain ⟨l', hl', -⟩ := Option.map_eq_some_iff.1 h
            rw [ih hl']
            have hne : mo ≠ moA := fun he => hshared (he ▸ hs)
            simp only [hne, false_and, false_or]
        · grind

theorem contents_eq_boundState (mo : MemoryObject) :
    s.contents i mo = (boundState s i mo).bind fun os => s.heap[os]?.map (·.contents) :=
  (Option.bind_assoc ..).symm

/-- A shared object that is not exempt has one object state in both spaces, or none. -/
theorem contents_shared {l : List MemoryObject} (h : x.mutated s i j = some l) {mo : MemoryObject}
    (hmo : mo ∈ x.memoryObjects) (hs : mo.isSharedConcrete = true) (hex : x.isExempt mo = false) :
    s.contents i mo = s.contents j mo := by
  have hbound : boundState s i mo = boundState s j mo := by
    apply Option.ext
    intro os
    have hiff := scan_shared os hs hex h
    rwa [mem_bindings, mem_bindings, and_iff_right hmo, and_iff_right hmo] at hiff
  rw [contents_eq_boundState, contents_eq_boundState, hbound]

variable [Options] {A B R : MergingState} {s' : System ObjectState}

theorem merge_compared (h : x.merge s i j A B = .ok (some (R, s'))) :
    A.pc = B.pc ∧ A.symbolics = B.symbolics ∧ sameCallStacks A.stack B.stack = true ∧
      x.cpuState s i = x.cpuState s j ∧ ∃ l, x.mutated s i j = some l := by
  obtain ⟨l, -, hl, -⟩ := merge_cases h
  unfold merge at h
  split at h
  · cases h
  · grind

end Comparisons

/-! ## The answer -/

section Answer

variable [Options] {x : Merger} {m m' : Machine} {A B A' : S2EState} {answer : Bool}

theorem mergeStates_cases (h : x.mergeStates m A B = .ok (answer, A', m')) : answer = false ∧ A' = A ∧ m' = m ∨
    answer = true ∧ ∃ R s, x.merge m.system A.addressSpace B.addressSpace A.state B.state = .ok (some (R, s)) := by
  obtain ⟨r, hr, h⟩ := exists_of_bind_ok h
  match r, h with
  | none, h =>
    cases h
    exact .inl ⟨rfl, rfl, rfl⟩
  | some (R, s), h =>
    cases h
    exact .inr ⟨rfl, R, s, hr⟩

theorem Unchecked.agree {R : MergingState} {s : System ObjectState} (hu : Unchecked x m A B)
    (h : x.merge m.system A.addressSpace B.addressSpace A.state B.state = .ok (some (R, s))) : Agree x m A B := by
  obtain ⟨hpc, hsymbolics, hstack, hcpu, l, hl⟩ := merge_compared h
  refine ⟨forall₂_of_sameCallStacks hstack hu.frame, hsymbolics, hpc, ?_, hcpu, hu.devices⟩
  intro mo hmo hs hne
  -- the code exempts what is ignored and the dirty mask, and compares the rest
  cases hex : x.isExempt mo with
  | false => exact contents_shared hl hmo hs hex
  | true =>
    unfold isExempt at hex
    rw [Bool.or_eq_true, Bool.or_eq_true, beq_iff_eq, beq_iff_eq] at hex
    obtain (hignored | rfl) | rfl := hex
    · exact hu.ignored mo hmo hignored hs hne
    · exact absurd rfl hne
    · exact hu.dirtyMask hmo hs hne

omit [Options] in
theorem Agree.unchecked (h : Agree x m A B) : Unchecked x m A B where
  frame k a b ha hb := by
    obtain ⟨hlen, hget⟩ := List.forall₂_iff_get.1 h.stack
    obtain ⟨hka, rfl⟩ := List.getElem?_eq_some_iff.1 ha
    obtain ⟨hkb, rfl⟩ := List.getElem?_eq_some_iff.1 hb
    exact hget k hka hkb
  devices := h.devices
  dirtyMask hmo := h.shared x.dirtyMask hmo
  ignored mo hmo _ := h.shared mo hmo

/-- A merge that is refused changes nothing. One that is done is right if and only if what the code takes for granted is
so. -/
theorem mergeStates_agree_iff (h : x.mergeStates m A B = .ok (answer, A', m')) :
    (answer = false → A' = A ∧ m' = m) ∧ (answer = true → (Agree x m A B ↔ Unchecked x m A B)) := by
  obtain ⟨rfl, rfl, rfl⟩ | ⟨rfl, R, s, hmerge⟩ := mergeStates_cases h
  · exact ⟨fun _ => ⟨rfl, rfl⟩, nofun⟩
  · exact ⟨nofun, fun _ => ⟨Agree.unchecked, fun hu => hu.agree hmerge⟩⟩

end Answer

/-! ## The two sides of a branch, with their disks -/

section AfterBranch

/-- The two sides of a branch; the first has written the sector 0 of a disk since. -/
def afterBranch : Machine where
  system := twoSides
  devices := DeviceState.writeSector (DeviceState.clone [⟨none, fun _ _ => none, true⟩] 0).1 1 0 0 [fun _ => 1]
  savedDevices _ := []

def thenSide (deviceState : Nat) : S2EState := ⟨side lowBit (symbolicByte 0 "x"), 0, deviceState⟩

/-- The frame of the other side is one of `kf`, called from `caller`. -/
def elseSide (caller : Nat) (kf : KFunction) (deviceState : Nat) : S2EState where
  state := { side (.cmp .eq (.const 0 1) lowBit) (.const 5 8) with stack := [⟨caller, kf, fun _ => some (.const 5 8)⟩] }
  addressSpace := 1
  deviceState := deviceState

theorem mergeStates_agree_afterBranch : Agree oneByteObjects afterBranch (thenSide 1) (elseSide 0 ⟨0, 1⟩ 1) := by
  have hmerge : ∃ r, oneByteObjects.mergeStates afterBranch (thenSide 1) (elseSide 0 ⟨0, 1⟩ 1) = .ok (true, r) :=
    ⟨_, rfl⟩
  obtain ⟨⟨A', m'⟩, hmerge⟩ := hmerge
  apply ((mergeStates_agree_iff hmerge).2 rfl).2
  refine ⟨?_, ⟨rfl, fun _ _ => rfl⟩, fun _ _ _ => rfl, fun _ _ h => absurd h Bool.false_ne_true⟩
  intro k a b ha hb
  match k with
  | 0 =>
    cases ha
    cases hb
    exact ⟨rfl, rfl⟩
  | k + 1 => cases ha

/-- The function of the branch has a caller, which was called at `caller`. -/
def calledFrom (caller : Nat) (A : S2EState) : S2EState :=
  { A with state := { A.state with stack := ⟨caller, ⟨1, 0⟩, fun _ => none⟩ :: A.state.stack } }

/-- The sides are merged though they return to different places, and though their disks differ. -/
theorem mergeStates_different : let A := calledFrom 4 (thenSide 1)
    let B := calledFrom 8 (elseSide 0 ⟨0, 1⟩ 2)
    (∃ r, oneByteObjects.mergeStates afterBranch A B = .ok (true, r)) ∧
      ¬List.Forall₂ SameFrame A.state.stack B.state.stack ∧ ¬SameDevices afterBranch A B := by
  refine ⟨⟨_, rfl⟩, ?_, ?_⟩
  · intro h
    cases h with
    | cons hframe _ => exact absurd hframe.1 (by decide)
  · intro h
    have hsector : (some fun _ => 1 : Option Sector) = none := h.2 0 0
    cases hsector

end AfterBranch

end Merger

end S2E.Qemu
