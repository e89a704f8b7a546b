import Mathlib.Tactic

/-!
# `CodeSelector`

Forking is to be enabled where the guest executes a module of a configured list.

* `getDescriptor` : the module of an address; the last one found is tried first;
* `onExecution` : a transition is signalled where the module changes. The address is cut to 32 bits;
* `onModuleTransition` : ends with `enableForking` for every module, since there is no return after `disableForking`.
-/

namespace S2E.Plugins.CodeSelector
open List

structure ModuleDescriptor where
  pid : BitVec 64
  loadBase : BitVec 64
  size : BitVec 64
  name : String
deriving DecidableEq

/-- `ModuleByLoadBase`. -/
def less (s₁ s₂ : ModuleDescriptor) : Bool :=
  if s₁.pid = s₂.pid then s₁.loadBase + s₁.size ≤ s₂.loadBase else s₁.pid < s₂.pid

variable (m : ModuleDescriptor) (pid pc : BitVec 64)

/-- The descriptor is neither less nor greater than that of the byte. -/
def equivalent : Bool := !less m ⟨pid, pc, 1, ""⟩ && !less ⟨pid, pc, 1, ""⟩ m

/-- The set of the tracked modules that are loaded. -/
structure Modules where
  descriptors : List ModuleDescriptor
  distinct : ∀ m ∈ descriptors, ∀ m' ∈ descriptors, m = m' ∨ less m m' ∨ less m' m

structure State where
  cachedModule : Option ModuleDescriptor
  previousModule : Option ModuleDescriptor
  forking : Bool

variable (ms : Modules) {s : State}

/-- `m_Descriptors.find` -/
def find : Option ModuleDescriptor := ms.descriptors.find? (equivalent · pid pc)

def getDescriptor (cached : Option ModuleDescriptor) : Option ModuleDescriptor :=
  match cached with
  | some m => if pid = m.pid ∧ pc ≥ m.loadBase ∧ pc < m.loadBase + m.size then some m else find pid pc ms
  | none => find pid pc ms

def onModuleTransition (modules : List String) (s : State) : Option ModuleDescriptor → State
  | none => { s with forking := false }
  | some m =>
    let s := if m.name ∈ modules then s else { s with forking := false }
    { s with forking := true }

/-- `uint32_t pc = state->getPc()` -/
def cut : BitVec 64 := (pc.setWidth 32).setWidth 64

def onExecution (modules : List String) (s : State) : State :=
  let current := getDescriptor pid (cut pc) ms s.cachedModule
  let s := { s with cachedModule := current }
  if s.previousModule ≠ current then { onModuleTransition modules s current with previousModule := current } else s

variable (modules : List String) (moduleId : ModuleDescriptor → Option String)

/-- The instruction lies in the module. -/
def LiesIn : Prop := m.pid = pid ∧ m.loadBase.toNat ≤ pc.toNat ∧ pc.toNat < m.loadBase.toNat + m.size.toNat

/-- The instruction lies in a module of the list. A module with an id is tracked. -/
def Listed : Prop :=
  ∃ m ∈ ms.descriptors, LiesIn m pid pc ∧ ∃ id ∈ modules, moduleId m = some id

/-- The process and the address of each instruction. -/
abbrev Trace := List (BitVec 64 × BitVec 64)

/-- After each transition forking is as it should be. -/
def Right (s : State) : Trace → Prop
  | [] => True
  | (pid, pc) :: trace =>
    let s' := onExecution pid pc ms modules s
    (s.previousModule ≠ s'.previousModule → (s'.forking = true ↔ Listed pid pc ms modules moduleId)) ∧ Right s' trace

/-- Each module that is entered is in the list. `previous` is the instruction before, if there is one. -/
def EntersListed (previous : Option (BitVec 64 × BitVec 64)) : Trace → Prop
  | [] => True
  | (pid, pc) :: trace =>
    (∀ m ∈ ms.descriptors, LiesIn m pid pc → (∀ i ∈ previous, ¬ LiesIn m i.1 i.2) → ∃ id ∈ modules, moduleId m = some id) ∧
      EntersListed (some (pid, pc)) trace

variable {ms m pid pc}

theorem equivalent_iff : equivalent m pid pc ↔ m.pid = pid ∧ pc < m.loadBase + m.size ∧ m.loadBase < pc + 1 := by
  simp only [equivalent, less, eq_comm]
  split_ifs with h
  · simp [h]
  · simp [h]
    bv_omega

theorem not_less {m' : ModuleDescriptor} (h : equivalent m pid pc) (h' : equivalent m' pid pc) : ¬ less m m' := by
  rw [equivalent_iff] at h h'
  simp only [less, h.1, h'.1, if_true, decide_eq_true_eq]
  bv_omega

/-- A cached module is tested as the set tests it: the end of the byte does not wrap. -/
theorem equivalent_of_cached (h : pid = m.pid ∧ cut pc ≥ m.loadBase ∧ cut pc < m.loadBase + m.size) :
    equivalent m pid (cut pc) := by
  have hpc : (cut pc).toNat < 2 ^ 32 := by rw [cut]; bv_omega
  exact equivalent_iff.2 ⟨h.1.symm, h.2.2, by bv_omega⟩

theorem eq_of_equivalent {m' : ModuleDescriptor} (hm : m ∈ ms.descriptors) (hm' : m' ∈ ms.descriptors)
    (h : equivalent m pid pc) (h' : equivalent m' pid pc) : m = m' := by
  rcases ms.distinct m hm m' hm' with rfl | hless | hless
  · rfl
  · exact absurd hless (not_less h h')
  · exact absurd hless (not_less h' h)

theorem mem_of_find (hf : find pid pc ms = some m) : m ∈ ms.descriptors ∧ equivalent m pid pc :=
  ⟨mem_of_find?_eq_some hf, find?_some (p := (equivalent · pid pc)) hf⟩

theorem getDescriptor_eq {cached : Option ModuleDescriptor} (hc : ∀ m ∈ cached, m ∈ ms.descriptors) :
    getDescriptor pid (cut pc) ms cached = find pid (cut pc) ms := by
  cases cached with
  | none => rfl
  | some m =>
    rw [getDescriptor]
    split
    · have hm := hc m rfl
      have h := equivalent_of_cached ‹_›
      cases hf : find pid (cut pc) ms with
      | none => exact absurd h (find?_eq_none.1 hf m hm)
      | some m' => rw [eq_of_equivalent hm (mem_of_find hf).1 h (mem_of_find hf).2]
    · rfl

theorem onExecution_spec (hc : ∀ m ∈ s.cachedModule, m ∈ ms.descriptors) :
    ∃ forking, onExecution pid pc ms modules s = ⟨find pid (cut pc) ms, find pid (cut pc) ms, forking⟩ ∧
      (s.previousModule ≠ find pid (cut pc) ms → forking = (find pid (cut pc) ms).isSome) := by
  rw [onExecution, getDescriptor_eq hc]
  by_cases h : s.previousModule = find pid (cut pc) ms
  · simp [h]
  · cases hf : find pid (cut pc) ms <;> simp_all [onModuleTransition, apply_ite]

section Low

variable (hms : ∀ m ∈ ms.descriptors, m.loadBase.toNat + m.size.toNat < 2 ^ 64)

include hms

/-- Below `2 ^ 32` the set finds the module of the instruction. -/
theorem find_eq_some_iff (hpc : pc.toNat < 2 ^ 32) :
    find pid (cut pc) ms = some m ↔ m ∈ ms.descriptors ∧ LiesIn m pid pc := by
  have hcut : cut pc = pc := by rw [cut]; bv_omega
  have hlies {m : ModuleDescriptor} (hm : m ∈ ms.descriptors) : equivalent m pid pc ↔ LiesIn m pid pc := by
    have := hms m hm
    rw [equivalent_iff, LiesIn]
    refine and_congr_right fun _ => ?_
    bv_omega
  rw [hcut]
  constructor
  · intro hf
    obtain ⟨hm, h⟩ := mem_of_find hf
    exact ⟨hm, (hlies hm).1 h⟩
  · rintro ⟨hm, hin⟩
    have h := (hlies hm).2 hin
    cases hf : find pid pc ms with
    | none => exact absurd h (find?_eq_none.1 hf m hm)
    | some m' => rw [eq_of_equivalent (mem_of_find hf).1 hm (mem_of_find hf).2 h]

/-- One instruction: `previous` is the module of the instruction before. -/
theorem entered_iff {previous : Option ModuleDescriptor} {before : Option (BitVec 64 × BitVec 64)}
    (hp : ∀ m, previous = some m ↔ m ∈ ms.descriptors ∧ ∃ i ∈ before, LiesIn m i.1 i.2) (hpc : pc.toNat < 2 ^ 32) :
    (previous ≠ find pid (cut pc) ms → ((find pid (cut pc) ms).isSome ↔ Listed pid pc ms modules moduleId)) ↔
      ∀ m ∈ ms.descriptors, LiesIn m pid pc → (∀ i ∈ before, ¬ LiesIn m i.1 i.2) → ∃ id ∈ modules, moduleId m = some id := by
  have hfind {m : ModuleDescriptor} : find pid (cut pc) ms = some m ↔ _ := find_eq_some_iff hms hpc
  cases hf : find pid (cut pc) ms with
  | none =>
    have hnone (m : ModuleDescriptor) (hm : m ∈ ms.descriptors) (hin : LiesIn m pid pc) : False := by
      rw [hfind.2 ⟨hm, hin⟩] at hf
      cases hf
    refine iff_of_true (fun _ => iff_of_false (by simp) ?_) fun m hm hin => (hnone m hm hin).elim
    rintro ⟨m, hm, hin, -⟩
    exact hnone m hm hin
  | some m =>
    have honly {m' : ModuleDescriptor} (hm : m' ∈ ms.descriptors) (hin : LiesIn m' pid pc) : m' = m := by
      rw [hfind.2 ⟨hm, hin⟩] at hf
      exact Option.some.inj hf
    obtain ⟨hm, hin⟩ := hfind.1 hf
    have hlisted : Listed pid pc ms modules moduleId ↔ ∃ id ∈ modules, moduleId m = some id := by
      constructor
      · rintro ⟨m', hm', hin', hid⟩
        exact honly hm' hin' ▸ hid
      · exact fun hid => ⟨m, hm, hin, hid⟩
    have hnew : previous ≠ some m ↔ ∀ i ∈ before, ¬ LiesIn m i.1 i.2 := by simp [hp, hm]
    rw [hlisted, hnew]
    simp only [Option.isSome_some, true_iff]
    constructor
    · intro h m' hm' hin' hbefore
      obtain rfl := honly hm' hin'
      exact h hbefore
    · exact fun h => h m hm hin

theorem right_iff_entersListed (hc : ∀ m ∈ s.cachedModule, m ∈ ms.descriptors)
    {before : Option (BitVec 64 × BitVec 64)}
    (hp : ∀ m, s.previousModule = some m ↔ m ∈ ms.descriptors ∧ ∃ i ∈ before, LiesIn m i.1 i.2) (trace : Trace)
    (low : ∀ i ∈ trace, i.2.toNat < 2 ^ 32) :
    Right ms modules moduleId s trace ↔ EntersListed ms modules moduleId before trace := by
  induction trace generalizing s before with
  | nil => rfl
  | cons i trace ih =>
    obtain ⟨pid, pc⟩ := i
    have hpc := low _ mem_cons_self
    obtain ⟨forking, hs, hforking⟩ : ∃ _, onExecution pid pc ms modules s = _ ∧ _ := onExecution_spec modules hc
    rw [Right, EntersListed, hs]
    apply and_congr
    · rw [← entered_iff modules moduleId hms hp hpc]
      exact imp_congr_right fun h => by rw [hforking h]
    · refine ih (fun m h => (mem_of_find h).1) (fun m => ?_) fun i hi => low i (mem_cons_of_mem _ hi)
      simpa using find_eq_some_iff hms hpc

end Low

/-- In an execution below `2 ^ 32`, forking is right after each transition exactly if each module that is entered is in the
list. -/
theorem transitions_right_iff (ms : Modules) (modules : List String) (moduleId : ModuleDescriptor → Option String)
    (forking : Bool) (trace : Trace) (hms : ∀ m ∈ ms.descriptors, m.loadBase.toNat + m.size.toNat < 2 ^ 64)
    (low : ∀ i ∈ trace, i.2.toNat < 2 ^ 32) :
    Right ms modules moduleId ⟨none, none, forking⟩ trace ↔ EntersListed ms modules moduleId none trace :=
  right_iff_entersListed modules moduleId hms (by simp) (by simp) trace low

def other : ModuleDescriptor := ⟨0, 0x1000, 0x1000, "other"⟩

/-- Forking is right where the module is in the list. -/
theorem transitions_right_iff_other :
    Right ⟨[other], by simp⟩ ["other"] (fun m => m.name) ⟨none, none, false⟩ [(0, 0x1000), (0, 0x3000)] := by
  refine (transitions_right_iff _ _ _ _ _ (by simp [other]) (by simp)).2 ?_
  simp [EntersListed, other]

/-- Forking is enabled in a module that is not in the list. -/
theorem enabled_in_other_module :
    ¬ Right ⟨[other], by simp⟩ ["driver"] (fun m => m.name) ⟨none, none, false⟩ [(0, 0x1000)] := by
  intro h
  obtain ⟨m, hm, -, id, hid, h⟩ := (h.1 (by decide)).1 (by decide)
  simp_all [other]

end S2E.Plugins.CodeSelector
