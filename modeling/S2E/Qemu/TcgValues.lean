import Mathlib.Logic.Function.Basic
import Mathlib.Tactic

/-!
# `TCGLLVMContextPrivate`: cached values

`getValue`, `setValue` and `getPtrForValue` keep the LLVM values and pointers of the temps of a basic block. The pointer of
a memory-based global is computed from the value of its base register.

* `Entry` : what is kept for a temp. Of a value or pointer only the stamp is: how often the base register had been set
  when it was computed;
* `setValue` : when a fixed register is set its dependents are to be dropped, but the loop asks whether the register is no
  fixed one;
* `Phase` : whether a memory-based global has been used, before or after its base was set.
-/

namespace S2E.Qemu

open Function

/-- `m_globalsIdx` as `initGlobalsAndLocalTemps` leaves it: for a memory-based global, the index of its base register. -/
structure TCGContext where
  nbGlobals : Nat
  fixedReg : Nat → Bool
  globalsIdx : Nat → Nat
  base_fixed : ∀ i < nbGlobals, fixedReg i = false → globalsIdx i < nbGlobals ∧ fixedReg (globalsIdx i) = true

namespace TCGContext

structure Entry where
  value : Option Nat
  memValuePtr : Option Nat

variable {t : Nat} {e : Entry}

/-- `t` is the stamp of the base: `getValue` of a register gives what was last set, kept or loaded. -/
def Entry.getPtrForValue (t : Nat) (e : Entry) : Entry := { e with memValuePtr := some (e.memValuePtr.getD t) }

def Entry.getValue (t : Nat) (e : Entry) : Entry :=
  if e.value = none then ⟨(e.getPtrForValue t).memValuePtr, (e.getPtrForValue t).memValuePtr⟩ else e

/-- The new value is kept, and stored through the pointer. -/
def Entry.setValue (t : Nat) (e : Entry) : Entry := { e.getPtrForValue t with value := some t }

/-- Only the entries of memory-based globals are read. -/
structure Cache where
  entries : Nat → Entry
  /-- How often a register has been set. -/
  stamp : Nat → Nat

inductive Op
  | getValue
  | setValue
  | getPtrForValue
deriving DecidableEq

def Op.apply (t : Nat) (e : Entry) : Op → Entry
  | .getValue => e.getValue t
  | .setValue => e.setValue t
  | .getPtrForValue => e.getPtrForValue t

/-- The stamp of what an operation has used: the value, or the pointer. -/
def Op.used (e : Entry) : Op → Option Nat
  | .getValue => e.value
  | .setValue | .getPtrForValue => e.memValuePtr

variable (c : TCGContext) {s : Cache}

/-- After `setValue` on a fixed register: the loop over its dependents. -/
def invalidate (idx : Nat) (s : Cache) : Cache where
  entries i :=
    if i < c.nbGlobals ∧ i ≠ idx ∧ ¬ c.fixedReg idx ∧ c.globalsIdx i = idx then ⟨none, none⟩ else s.entries i
  stamp := update s.stamp idx (s.stamp idx + 1)

def step (s : Cache) (op : Op) (idx : Nat) : Cache :=
  let s := { s with entries := update s.entries idx (op.apply (s.stamp (c.globalsIdx idx)) (s.entries idx)) }
  match op with
  | .setValue => if idx < c.nbGlobals ∧ c.fixedReg idx then c.invalidate idx s else s
  | _ => s

def IsMem (i : Nat) : Prop := i < c.nbGlobals ∧ c.fixedReg i = false

/-- All calls on memory-based globals use what has been computed from the last value of the base. -/
def Right (s : Cache) : List (Op × Nat) → Prop
  | [] => True
  | (op, idx) :: calls =>
    (c.IsMem idx → op.used ((c.step s op idx).entries idx) = some (s.stamp (c.globalsIdx idx))) ∧
      Right (c.step s op idx) calls

/-! ## Reuse -/

inductive Phase
  | unused
  | used
  /-- The base has been set since. -/
  | stale

/-- What a call makes of the phase of the memory-based global `i`. -/
def Phase.next (op : Op) (idx i : Nat) : Phase → Phase
  | .unused => if i = idx then .used else .unused
  | .used => if op = .setValue ∧ idx = c.globalsIdx i then .stale else .used
  | .stale => .stale

/-- No memory-based global is used before and after its base is set. -/
def NoReuse (phase : Nat → Phase) : List (Op × Nat) → Prop
  | [] => True
  | (op, idx) :: calls => (c.IsMem idx → phase idx ≠ .stale) ∧ NoReuse (fun i => (phase i).next c op idx i) calls

/-- The entry of a global in its phase. -/
def Phase.Holds (t : Nat) (e : Entry) : Phase → Prop
  | .unused => e = ⟨none, none⟩
  | .used => e.memValuePtr = some t ∧ ∀ v ∈ e.value, v = t
  | .stale => (∃ p ∈ e.memValuePtr, p < t) ∧ ∀ v ∈ e.value, v < t

section

variable {phase : Phase} (h : phase.Holds t e) (op : Op)

include h

theorem Phase.Holds.used_iff : op.used (op.apply t e) = some t ↔ phase ≠ .stale := by
  obtain ⟨value, ptr⟩ := e
  cases op <;> cases phase <;> cases value <;>
    simp_all [Holds, Op.used, Op.apply, Entry.getValue, Entry.setValue, Entry.getPtrForValue] <;> grind

theorem Phase.Holds.apply (hne : phase ≠ .stale) : Phase.used.Holds t (op.apply t e) := by
  obtain ⟨value, ptr⟩ := e
  cases op <;> cases phase <;> cases value <;>
    simp_all [Holds, Op.apply, Entry.getValue, Entry.setValue, Entry.getPtrForValue]

end

section

variable {i : Nat} (op : Op) (idx : Nat)

theorem step_entries : (c.step s op idx).entries i =
    if i = idx then op.apply (s.stamp (c.globalsIdx idx)) (s.entries idx) else s.entries i := by
  by_cases hreg : idx < c.nbGlobals ∧ c.fixedReg idx
  · cases op <;> simp [step, invalidate, hreg, update_apply]
  · cases op <;> simp [step, hreg, update_apply]

theorem step_stamp (hi : c.IsMem i) : (c.step s op idx).stamp (c.globalsIdx i) =
    s.stamp (c.globalsIdx i) + if op = .setValue ∧ idx = c.globalsIdx i then 1 else 0 := by
  have hbase := c.base_fixed i hi.1 hi.2
  by_cases hreg : idx < c.nbGlobals ∧ c.fixedReg idx
  · cases op <;> simp [step, invalidate, hreg, update_apply]
    grind
  · have hne : idx ≠ c.globalsIdx i := fun heq => hreg (heq ▸ hbase)
    cases op <;> simp [step, hreg, hne]

end

/-- The base is set. -/
theorem Phase.Holds.set {phase : Phase} (h : phase.Holds t e) {idx i : Nat} (hi : i ≠ idx) (hbase : idx = c.globalsIdx i) :
    (phase.next c .setValue idx i).Holds (t + 1) e := by
  cases phase with
  | unused =>
    rw [next, if_neg hi]
    exact h
  | used =>
    simp only [next, hbase, and_self, if_true]
    exact ⟨⟨t, h.1, Nat.lt_succ_self t⟩, fun v hv => Nat.lt_succ_of_le (h.2 v hv).le⟩
  | stale =>
    obtain ⟨⟨p, hp, hlt⟩, hv⟩ := h
    exact ⟨⟨p, hp, Nat.lt_succ_of_lt hlt⟩, fun v hm => Nat.lt_succ_of_lt (hv v hm)⟩

theorem step_holds {i : Nat} (hi : c.IsMem i) {phase : Phase} {op : Op} {idx : Nat}
    (h : phase.Holds (s.stamp (c.globalsIdx i)) (s.entries i)) (hok : i = idx → phase ≠ .stale) :
    (phase.next c op idx i).Holds ((c.step s op idx).stamp (c.globalsIdx i)) ((c.step s op idx).entries i) := by
  have hself : i ≠ c.globalsIdx i := fun heq => by grind [c.base_fixed i hi.1 hi.2, IsMem]
  rw [step_entries, c.step_stamp op idx hi]
  by_cases hidx : i = idx
  · have happly := h.apply op (hok hidx)
    cases phase <;> simp_all [Phase.next]
  · by_cases hset : op = .setValue ∧ idx = c.globalsIdx i
    · rw [if_neg hidx, if_pos hset, hset.1]
      exact h.set c hidx hset.2
    · cases phase <;> simpa [Phase.next, hidx, hset] using h

theorem right_iff_of_holds {phase : Nat → Phase}
    (h : ∀ i, c.IsMem i → (phase i).Holds (s.stamp (c.globalsIdx i)) (s.entries i)) (calls : List (Op × Nat)) :
    c.Right s calls ↔ c.NoReuse phase calls := by
  induction calls generalizing s phase with
  | nil => rfl
  | cons call calls ih =>
    obtain ⟨op, idx⟩ := call
    have hused : (c.IsMem idx → op.used ((c.step s op idx).entries idx) = some (s.stamp (c.globalsIdx idx))) ↔
        (c.IsMem idx → phase idx ≠ .stale) := by
      refine forall_congr' fun hi => ?_
      rw [step_entries, if_pos rfl, (h idx hi).used_iff]
    rw [Right, NoReuse, hused]
    exact and_congr_right fun hok => ih fun i hi => c.step_holds hi (h i hi) fun heq => heq ▸ hok (heq ▸ hi)

/-- No stale value or pointer is used in a block, exactly if no memory-based global is used before and after its base is
set. -/
theorem block_right_iff (calls : List (Op × Nat)) :
    c.Right ⟨fun _ => ⟨none, none⟩, fun _ => 0⟩ calls ↔ c.NoReuse (fun _ => .unused) calls :=
  have h : ∀ i, c.IsMem i → Phase.unused.Holds 0 ⟨none, none⟩ := fun _ _ => rfl
  c.right_iff_of_holds (s := ⟨fun _ => ⟨none, none⟩, fun _ => 0⟩) h calls

/-- A register and a global in memory. -/
def regAndMem : TCGContext where
  nbGlobals := 2
  fixedReg i := i = 0
  globalsIdx _ := 0
  base_fixed := by decide

theorem stale_value_used : ¬ regAndMem.Right ⟨fun _ => ⟨none, none⟩, fun _ => 0⟩
    [(.getValue, 1), (.setValue, 0), (.getValue, 1)] := by
  rintro ⟨-, -, h, -⟩
  cases h ⟨by decide, rfl⟩

end TCGContext

end S2E.Qemu
