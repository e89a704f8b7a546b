import S2E.Klee.Expr.APInt
import S2E.Lib.Triple

/-!
# `SymbolicHardware`: symbolic ports

* `setSymbolicPortRange`, `isSymbolic` : the bits of `m_portMap`. The loop counter has 16 bits, the bound it is compared
  with has 32;
* `PortCall.lastSet` : what the calls say about a port, the last one that covers it first;
* `ports_right_iff` : the map says the same, unless a range ends at the top of the port space.
-/

namespace S2E.Plugins.SymbolicHardware
open S2E.Klee (Trap)
open S2E.Lib BitVec

/-- `m_portMap`, 2048 words. -/
abbrev PortMap := Nat → BitVec 32

/-- The body of the loop of `setSymbolicPortRange`. -/
def setPort (m : PortMap) (i : BitVec 16) (isSymbolic : Bool) : PortMap :=
  let idx := i.toNat / 32
  let mod := i.toNat % 32
  Function.update m idx (if isSymbolic then m idx ||| 1#32 <<< mod else m idx &&& ~~~(1#32 <<< mod))

def isSymbolic (m : PortMap) (port : BitVec 16) : Bool :=
  let idx := port.toNat / 32
  let mod := port.toNat % 32
  m idx &&& 1#32 <<< mod != 0#32

def setPorts : Nat → BitVec 16 → BitVec 32 → Bool → PortMap → Except Trap PortMap
  | 0, _, _, _, _ => .error .outOfFuel
  | fuel + 1, i, bound, b, m =>
    if i.setWidth 32 < bound then setPorts fuel (i + 1) bound b (setPort m i b) else .ok m

/-- The arguments of a call. -/
structure PortCall where
  start : BitVec 16
  size : BitVec 32
  isSymbolic : Bool

namespace PortCall

/-- `start + size`, as the source computes it. -/
def bound (c : PortCall) : BitVec 32 := c.start.setWidth 32 + c.size

/-- The assertion of `setSymbolicPortRange`. -/
def Accepted (c : PortCall) : Prop := c.bound ≤ 0x10000#32 ∧ c.start.setWidth 32 ≤ c.bound

def Covers (c : PortCall) (port : BitVec 16) : Prop :=
  c.start.toNat ≤ port.toNat ∧ port.toNat < c.start.toNat + c.size.toNat

instance (c : PortCall) (port : BitVec 16) : Decidable (c.Covers port) := inferInstanceAs (Decidable (_ ∧ _))

/-- Whether the last of the calls that covers the port set it symbolic. -/
def lastSet (calls : List PortCall) (port : BitVec 16) : Bool :=
  calls.foldl (fun last c => if c.Covers port then c.isSymbolic else last) false

end PortCall

def setSymbolicPortRange (fuel : Nat) (c : PortCall) (m : PortMap) : Except Trap PortMap :=
  setPorts fuel c.start c.bound c.isSymbolic m

/-- Calls one after the other, on the map that `initialize` has cleared. -/
def setRanges (fuel : Nat) (calls : List PortCall) : Except Trap PortMap :=
  calls.foldlM (fun m c => setSymbolicPortRange fuel c m) fun _ => 0#32

/-! ## One bit -/

theorem isSymbolic_eq_getLsbD (m : PortMap) (port : BitVec 16) :
    isSymbolic m port = (m (port.toNat / 32)).getLsbD (port.toNat % 32) := by
  have hmod : port.toNat % 32 < 32 := Nat.mod_lt _ (by decide)
  have hne : twoPow 32 (port.toNat % 32) ≠ 0#32 := by
    intro h
    have hbit := congrArg (·.getLsbD (port.toNat % 32)) h
    simp [hmod] at hbit
  show (m (port.toNat / 32) &&& twoPow 32 (port.toNat % 32) != 0#32) = _
  rw [and_twoPow]
  split
  · simp_all
  · simp_all

/-- A port is changed and the others, also those of the same word, are not. -/
theorem isSymbolic_setPort (m : PortMap) (i port : BitVec 16) (b : Bool) :
    isSymbolic (setPort m i b) port = if port = i then b else isSymbolic m port := by
  rw [isSymbolic_eq_getLsbD, isSymbolic_eq_getLsbD, setPort]
  by_cases hidx : port.toNat / 32 = i.toNat / 32
  · have hbit : port.toNat % 32 = i.toNat % 32 ↔ port = i := by
      rw [← toNat_inj]
      omega
    rw [hidx, Function.update_self]
    cases b with
    | false => grind
    | true => grind
  · grind

/-! ## The loop -/

/-- A bound below the top of the port space is reached. -/
theorem setPorts_ok {bound : BitVec 32} {b : Bool} (hb : bound.toNat < 0x10000) :
    ∀ (fuel : Nat) (i : BitVec 16) (m : PortMap), bound.toNat - i.toNat < fuel →
      ∃ m', setPorts fuel i bound b m = .ok m' ∧
        ∀ port, isSymbolic m' port =
          if i.toNat ≤ port.toNat ∧ port.toNat < bound.toNat then b else isSymbolic m port := by
  intro fuel
  induction fuel with
  | zero => exact fun _ _ h => absurd h (Nat.not_lt_zero _)
  | succ fuel ih =>
    intro i m hf
    have hi : (i.setWidth 32).toNat = i.toNat := by simp; omega
    unfold setPorts
    split
    · rename_i hlt
      rw [lt_def, hi] at hlt
      have hnext : (i + 1).toNat = i.toNat + 1 := by simp; omega
      obtain ⟨m', hm', hbits⟩ := ih (i + 1) (setPort m i b) (by omega)
      refine ⟨m', hm', fun port => ?_⟩
      rw [hbits, isSymbolic_setPort, hnext]
      simp only [← toNat_inj]
      split_ifs <;> first | rfl | omega
    · rename_i hge
      rw [lt_def, hi] at hge
      refine ⟨m, rfl, fun port => ?_⟩
      rw [if_neg]
      omega

/-- Every counter of 16 bits is below the bound `0x10000`. -/
theorem setPorts_top (b : Bool) : ∀ (fuel : Nat) (i : BitVec 16) (m : PortMap),
    setPorts fuel i 0x10000#32 b m = .error .outOfFuel := by
  intro fuel
  induction fuel with
  | zero => exact fun _ _ => rfl
  | succ fuel ih =>
    intro i m
    have hlt : i.setWidth 32 < 0x10000#32 := by
      rw [lt_def]
      simp
      omega
    rw [setPorts, if_pos hlt]
    exact ih _ _

theorem PortCall.Accepted.toNat_bound {c : PortCall} (h : c.Accepted) :
    c.bound.toNat = c.start.toNat + c.size.toNat ∧ c.bound.toNat ≤ 0x10000 := by
  obtain ⟨hle, hge⟩ := h
  rw [le_def] at hle hge
  unfold PortCall.bound at hle hge ⊢
  simp at hle hge ⊢
  omega

theorem setSymbolicPortRange_ok {c : PortCall} (h : c.Accepted) (hc : c.start.toNat + c.size.toNat ≠ 0x10000)
    {fuel : Nat} (hf : 0x10000 ≤ fuel) (m : PortMap) :
    ∃ m', setSymbolicPortRange fuel c m = .ok m' ∧
      ∀ port, isSymbolic m' port = if c.Covers port then c.isSymbolic else isSymbolic m port := by
  obtain ⟨hb, hle⟩ := h.toNat_bound
  obtain ⟨m', hm', hbits⟩ := setPorts_ok (b := c.isSymbolic) (by omega : c.bound.toNat < 0x10000) fuel c.start m (by omega)
  rw [hb] at hbits
  exact ⟨m', hm', hbits⟩

/-! ## Sequences of calls -/

theorem foldlM_setSymbolicPortRange {fuel : Nat} (hf : 0x10000 ≤ fuel) (calls : List PortCall)
    (hacc : ∀ c ∈ calls, c.Accepted) (hc : ∀ c ∈ calls, c.start.toNat + c.size.toNat ≠ 0x10000) (m : PortMap) :
    ∃ m', calls.foldlM (fun m c => setSymbolicPortRange fuel c m) m = .ok m' ∧ ∀ port, isSymbolic m' port =
      calls.foldl (fun last c => if c.Covers port then c.isSymbolic else last) (isSymbolic m port) := by
  induction calls generalizing m with
  | nil => exact ⟨m, rfl, fun _ => rfl⟩
  | cons c calls ih =>
    rw [List.forall_mem_cons] at hacc hc
    obtain ⟨m₁, h₁, hbits₁⟩ := setSymbolicPortRange_ok hacc.1 hc.1 hf m
    obtain ⟨m', h', hbits⟩ := ih hacc.2 hc.2 m₁
    refine ⟨m', ?_, fun port => ?_⟩
    · rw [List.foldlM_cons, h₁]
      exact h'
    · rw [hbits, hbits₁, List.foldl_cons]

/-- The calls terminate with a map that holds what was last said about each port if and only if no range ends at the top
of the port space. -/
theorem ports_right_iff (calls : List PortCall) (hacc : ∀ c ∈ calls, c.Accepted) :
    (∃ fuel m, setRanges fuel calls = .ok m ∧ ∀ port, isSymbolic m port = PortCall.lastSet calls port) ↔
      ∀ c ∈ calls, c.start.toNat + c.size.toNat ≠ 0x10000 := by
  constructor
  · rintro ⟨fuel, m, hrun, -⟩ c hc htop
    have hb : c.bound = 0x10000#32 := by
      apply eq_of_toNat_eq
      rw [(hacc c hc).toNat_bound.1, htop]
      rfl
    obtain ⟨m₁, m₂, h⟩ := exists_of_mem_foldlM hrun hc
    rw [setSymbolicPortRange, hb, setPorts_top] at h
    cases h
  · intro hc
    obtain ⟨m, hm, hbits⟩ := foldlM_setSymbolicPortRange le_rfl calls hacc hc fun _ => 0#32
    refine ⟨0x10000, m, hm, fun port => ?_⟩
    rw [hbits, isSymbolic_eq_getLsbD]
    simp [PortCall.lastSet]

/-- The last four ports. -/
def topPorts : PortCall := ⟨0xfffc#16, 4#32, true⟩

/-- Two ranges below the top, the second one over the first. -/
theorem ports_right_two : ∃ fuel m, setRanges fuel [⟨0x60#16, 5#32, true⟩, ⟨0x62#16, 2#32, false⟩] = .ok m ∧
    ∀ port, isSymbolic m port = PortCall.lastSet [⟨0x60#16, 5#32, true⟩, ⟨0x62#16, 2#32, false⟩] port :=
  (ports_right_iff _ (by simp [PortCall.Accepted, PortCall.bound])).2 (by simp)

theorem topPorts_never_set : topPorts.Accepted ∧ ¬ ∃ fuel m, setRanges fuel [topPorts] = .ok m := by
  refine ⟨⟨by decide, by decide⟩, ?_⟩
  rintro ⟨fuel, m, h⟩
  rw [setRanges, List.foldlM_cons, setSymbolicPortRange, show topPorts.bound = 0x10000#32 from rfl, setPorts_top] at h
  cases h

end S2E.Plugins.SymbolicHardware
