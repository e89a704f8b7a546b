import S2E.Klee.Core.ConcreteStore

/-!
# The two copies of the CPU registers

The registers of the active state are in an object of its address space and in the CPU structure that translated code
works on. In symbolic mode the object is current. In concrete mode a byte that the object has as concrete is in the CPU
structure, and the others are in the object.

* `Registers` : the two copies and the mode;
* `readCpuRegister`, `writeCpuRegister`, `readRegisterConcrete`, `writeRegisterConcrete`, `switchToConcrete`,
  `switchToSymbolic` : the accessors, each with its own test for the copy to use.

`toConstant` is a parameter, a function of the equalities that it added before. The range of an access is inside the
registers, so the sums of offsets and sizes do not wrap.
-/

namespace S2E.Qemu

open S2E.Klee S2E.Lib List

structure Registers where
  /-- `m_runningConcrete`. -/
  runningConcrete : Bool
  /-- The bytes at `m_cpuRegistersState->address`. -/
  native : FlatMemory
  /-- `m_cpuRegistersObject`. -/
  object : ObjectState
  /-- The equalities that `toConstant` added to the path condition, the oldest first. -/
  concretized : List (Expr × BitVec 8)

variable {i offset width : Nat} {m : FlatMemory} {σ : Assignment}

namespace Registers

section Model

variable (toConstant : List (Expr × BitVec 8) → Expr → BitVec 8) (s : Registers)

/-- Whether an access goes to the object. -/
def usesObject (offset width : Nat) : Bool := !s.runningConcrete || !s.object.isConcrete offset width

/-- `ConstantExpr::create` asserts that the number fits. -/
def readNative (offset width : Nat) : Except Trap (Expr × Registers) :=
  let ret := s.native.read offset (getMinBytesForWidth width)
  if ret % 2 ^ width = ret then return (.const ret width, s) else throw .assertFailed

def writeNative (offset : Nat) (value : Expr) : Except Trap Registers :=
  match value with
  | .constant c => return { s with native := s.native.write offset (getMinBytesForWidth c.width) c.bits.toNat }
  | _ => throw .assertFailed

/-- What the accessors assert about a width and a range. -/
def InRange (offset width : Nat) : Prop :=
  (width = 1 ∨ width % 8 = 0) ∧ width ≤ 64 ∧ offset + getMinBytesForWidth width ≤ s.object.size

instance (offset width : Nat) : Decidable (s.InRange offset width) := inferInstanceAs (Decidable (_ ∧ _ ∧ _))

def writeRegisterConcrete (offset : Nat) (buf : List (BitVec 8)) : Except Trap Registers :=
  if offset + buf.length ≤ s.object.size then
    if s.usesObject offset (buf.length * 8) then return { s with object := s.object.writeBytes offset buf }
    else return { s with native := s.native.store offset buf }
  else throw .assertFailed

def switchToSymbolic : Except Trap Registers :=
  if s.runningConcrete then
    return { s with
      object := { s.object with concreteStore := FlatMemory.copy s.object.concreteStore s.native s.object.size }
      runningConcrete := false }
  else throw .assertFailed

variable [Options]

def readCpuRegister (offset width : Nat) : Except Trap (Expr × Registers) :=
  if s.InRange offset width then
    if s.usesObject offset width then do
      let r ← s.object.readAt offset width
      return (r.1, { s with object := r.2 })
    else s.readNative offset width
  else throw .assertFailed

def writeCpuRegister (offset : Nat) (value : Expr) : Except Trap Registers :=
  if s.InRange offset value.getWidth then
    if s.usesObject offset value.getWidth then do
      let o ← s.object.writeAt offset value
      return { s with object := o }
    else s.writeNative offset value
  else throw .assertFailed

/-- A byte that was read as `r` gets the value that `toConstant` chooses for it. -/
def concretize (offset : Nat) (r : Expr × ObjectState) : BitVec 8 × Registers :=
  let v := toConstant s.concretized r.1
  (v, { s with object := r.2.writeByte offset v, concretized := s.concretized ++ [(r.1, v)] })

/-- The body of the loop of `readRegisterConcrete`. -/
def readByteConcrete (offset : Nat) : Except Trap (BitVec 8 × Registers) :=
  match s.object.readConcrete8 offset with
  | some v => return (v, s)
  | none => do
    let r ← s.object.read8At offset
    return s.concretize toConstant offset r

def readBytesConcrete (offset : Nat) : Nat → Except Trap (List (BitVec 8) × Registers)
  | 0 => return ([], s)
  | i + 1 => do
    let r ← readBytesConcrete offset i
    let b ← r.2.readByteConcrete toConstant (offset + i)
    return (r.1 ++ [b.1], b.2)

def readRegisterConcrete (offset size : Nat) : Except Trap (List (BitVec 8) × Registers) :=
  if offset + size ≤ s.object.size then
    if s.usesObject offset (size * 8) then s.readBytesConcrete toConstant offset size
    else return (s.native.load offset size, s)
  else throw .assertFailed

/-- A byte that was read as `r` is concretized if it is symbolic. -/
def force (i : Nat) (r : Expr × ObjectState) : Registers :=
  if r.1.isConstant then { s with object := r.2 } else (s.concretize toConstant i r).2

/-- The body of the loop of `switchToConcrete`. -/
def forceByte (i : Nat) : Except Trap Registers := do
  let r ← s.object.read8At i
  return s.force toConstant i r

/-- `force` : forced concretizations are on, and no module is being tracked. -/
def forceConcretizations (force : Bool) : Except Trap Registers :=
  if force && !s.object.isAllConcrete then (range s.object.size).foldlM (fun s i => s.forceByte toConstant i) s
  else return s

def switchToConcrete (force : Bool) : Except Trap Registers :=
  if s.runningConcrete then throw .assertFailed
  else do
    let s ← s.forceConcretizations toConstant force
    return { s with native := s.native.copy s.object.concreteStore s.object.size, runningConcrete := true }

end Model

inductive Op
  | readCpuRegister (offset width : Nat)
  | writeCpuRegister (offset : Nat) (value : Expr)
  | readRegisterConcrete (offset size : Nat)
  | writeRegisterConcrete (offset : Nat) (buf : List (BitVec 8))
  | switchToConcrete (force : Bool)
  | switchToSymbolic

inductive Output
  | expr (e : Expr)
  | buf (bytes : List (BitVec 8))
  | none

section

variable [Options] (toConstant : List (Expr × BitVec 8) → Expr → BitVec 8)

def step (s : Registers) : Op → Except Trap (Output × Registers)
  | .readCpuRegister offset width => (s.readCpuRegister offset width).map (Prod.map .expr id)
  | .writeCpuRegister offset value => (s.writeCpuRegister offset value).map (Prod.mk .none)
  | .readRegisterConcrete offset size => (s.readRegisterConcrete toConstant offset size).map (Prod.map .buf id)
  | .writeRegisterConcrete offset buf => (s.writeRegisterConcrete offset buf).map (Prod.mk .none)
  | .switchToConcrete force => (s.switchToConcrete toConstant force).map (Prod.mk .none)
  | .switchToSymbolic => s.switchToSymbolic.map (Prod.mk .none)

def run (s : Registers) : List Op → Except Trap (List Output × Registers)
  | [] => return ([], s)
  | op :: ops => do
    let r ← s.step toConstant op
    let rs ← run r.2 ops
    return (r.1 :: rs.1, rs.2)

end

/-! ## What the calls are for -/

/-- The registers after a call, as one array of bytes. -/
def Op.flat (σ : Assignment) (m : FlatMemory) : Op → FlatMemory
  | .writeCpuRegister offset value =>
    m.write offset (getMinBytesForWidth value.getWidth) (value.value σ).toNat
  | .writeRegisterConcrete offset buf => m.store offset buf
  | .readCpuRegister .. | .readRegisterConcrete .. | .switchToConcrete _ | .switchToSymbolic => m

/-- What a call returns when the registers are the bytes of `m`. -/
def Op.flatOutput (m : FlatMemory) : Op → Option (APInt ⊕ List (BitVec 8))
  | .readCpuRegister offset width => some (.inl (.ofNat (m.read offset (getMinBytesForWidth width)) width))
  | .readRegisterConcrete offset size => some (.inr (m.load offset size))
  | .writeCpuRegister .. | .writeRegisterConcrete .. | .switchToConcrete _ | .switchToSymbolic => none

def flatRun (σ : Assignment) : FlatMemory → List Op → List (Option (APInt ⊕ List (BitVec 8)))
  | _, [] => []
  | m, op :: ops => op.flatOutput m :: flatRun σ (op.flat σ m) ops

/-- What a call returned, under an assignment. -/
def Output.value (σ : Assignment) : Output → Option (APInt ⊕ List (BitVec 8))
  | .expr e => some (.inl (e.evaluate σ))
  | .buf bytes => some (.inr bytes)
  | .none => Option.none

/-! ## Coherence -/

section Coherence

variable [Options]

/-- The assignment gives the expressions the values that were chosen for them. -/
def Sat (σ : Assignment) (cs : List (Expr × BitVec 8)) : Prop := ∀ p ∈ cs, p.1.eval σ 8 = p.2

/-- `toConstant` chooses a value that the expression has under one of the assignments that are left. -/
def Feasible (Γ : Set Assignment) (toConstant : List (Expr × BitVec 8) → Expr → BitVec 8) : Prop :=
  ∀ cs e, (∃ σ ∈ Γ, Sat σ cs) → ∃ σ ∈ Γ, Sat σ (cs ++ [(e, toConstant cs e)])

/-- The registers are the `n` bytes of `m`: in concrete mode the native ones where the object is concrete, and otherwise
those of the object. -/
def Coherent (σ : Assignment) (n : Nat) (m : FlatMemory) (s : Registers) : Prop :=
  ∃ m₀, s.object.ConstSync σ n m₀ ∧
    ∀ i < n, m i = if s.runningConcrete && s.object.isByteConcrete i then s.native i else m₀ i

/-- The registers are the bytes of `mem σ` under every assignment that is left, and there is one. -/
structure Inv (Γ : Set Assignment) (n : Nat) (mem : Assignment → FlatMemory) (s : Registers) : Prop where
  feasible : ∃ σ ∈ Γ, Sat σ s.concretized
  coherent : ∀ σ ∈ Γ, Sat σ s.concretized → Coherent σ n (mem σ) s

/-- What a call may change besides the bytes. -/
structure Grows (s s' : Registers) : Prop where
  mode : s'.runningConcrete = s.runningConcrete
  concretized : s.concretized <+: s'.concretized

section

omit [Options]

theorem Grows.refl (s : Registers) : Grows s s := ⟨rfl, prefix_rfl⟩

theorem Grows.trans {s₁ s₂ s₃ : Registers} (h₁ : Grows s₁ s₂) (h₂ : Grows s₂ s₃) : Grows s₁ s₃ :=
  ⟨h₂.mode.trans h₁.mode, h₁.concretized.trans h₂.concretized⟩

theorem Sat.of_prefix {cs cs' : List (Expr × BitVec 8)} (h : Sat σ cs') (hp : cs <+: cs') : Sat σ cs :=
  fun p hmem => h p (hp.subset hmem)

end

variable {Γ : Set Assignment} {n : Nat} {mem mem' : Assignment → FlatMemory} {s : Registers}
  {toConstant : List (Expr × BitVec 8) → Expr → BitVec 8}

theorem Inv.size (h : Inv Γ n mem s) : s.object.size = n := by
  obtain ⟨σ, hσ, hsat⟩ := h.feasible
  obtain ⟨m₀, hsync, -⟩ := h.coherent σ hσ hsat
  exact hsync.size_eq

/-- A call that adds no equality can be looked at under one assignment at a time: what it returns is the same. -/
theorem Inv.of_each {α : Type} {r : Except Trap (α × Registers)} {Q : Assignment → α → Prop} (h : Inv Γ n mem s)
    (hr : ∀ σ ∈ Γ, Coherent σ n (mem σ) s → ∃ a s', r = .ok (a, s') ∧ s'.concretized = s.concretized ∧
      Coherent σ n (mem' σ) s' ∧ Q σ a) :
    ∃ a s', r = .ok (a, s') ∧ s'.concretized = s.concretized ∧ Inv Γ n mem' s' ∧
      ∀ σ ∈ Γ, Sat σ s'.concretized → Q σ a := by
  obtain ⟨σ₀, hσ₀, hsat₀⟩ := h.feasible
  obtain ⟨a, s', hok, hcs, -, -⟩ := hr σ₀ hσ₀ (h.coherent σ₀ hσ₀ hsat₀)
  have hall : ∀ σ ∈ Γ, Sat σ s'.concretized → Coherent σ n (mem' σ) s' ∧ Q σ a := by
    intro σ hσ hsat
    obtain ⟨a', s'', hok', -, hcoh, hQ⟩ := hr σ hσ (h.coherent σ hσ (hcs ▸ hsat))
    obtain ⟨rfl, rfl⟩ := Prod.mk.inj (Except.ok.inj (hok'.symm.trans hok))
    exact ⟨hcoh, hQ⟩
  refine ⟨a, s', hok, hcs, ⟨⟨σ₀, hσ₀, hcs ▸ hsat₀⟩, fun σ hσ hsat => (hall σ hσ hsat).1⟩, fun σ hσ hsat => ?_⟩
  exact (hall σ hσ hsat).2

/-! ### The object in symbolic mode -/

theorem Coherent.constSync (h : Coherent σ n m s) (hmode : s.runningConcrete = false) : s.object.ConstSync σ n m := by
  obtain ⟨m₀, hsync, hm⟩ := h
  apply hsync.congr
  intro i hi
  rw [hm i hi, hmode]
  rfl

theorem coherent_of_constSync (h : s.object.ConstSync σ n m)
    (hmode : s.runningConcrete = false) : Coherent σ n m s := by
  refine ⟨m, h, fun i _ => ?_⟩
  rw [hmode]
  rfl

section

variable (hf : Feasible Γ toConstant)
include hf

section

variable (h : Inv Γ n mem s) (hmode : s.runningConcrete = false)

include h hmode

/-- A byte is read, and gets the value that is chosen for it. -/
theorem Inv.concretize (hi : i < n) : ∃ r, s.object.read8At i = .ok r ∧ Inv Γ n mem { s with object := r.2 } ∧
      Inv Γ n mem (s.concretize toConstant i r).2 ∧
      ∀ σ ∈ Γ, Sat σ (s.concretize toConstant i r).2.concretized → (s.concretize toConstant i r).1 = mem σ i := by
  have hread : ∃ (e : Expr) (s' : Registers), (s.object.read8At i).map (fun r => (r.1, { s with object := r.2 })) =
      .ok (e, s') ∧ s'.concretized = s.concretized ∧ Inv Γ n mem s' ∧
      ∀ σ ∈ Γ, Sat σ s'.concretized → e.Denotes σ (mem σ i) := by
    apply h.of_each
    intro σ _ hcoh
    obtain ⟨e, o', he, hd, hs, -⟩ := (hcoh.constSync hmode).read8At hi
    exact ⟨e, { s with object := o' }, by rw [he]; rfl, rfl, coherent_of_constSync hs hmode, hd⟩
  obtain ⟨e, s', hok, -, hinv, hd⟩ := hread
  cases hr : s.object.read8At i with
  | error t =>
    rw [hr] at hok
    cases hok
  | ok r =>
    rw [hr] at hok
    cases hok
    -- Under an assignment that is left after the choice, the byte had the chosen value already.
    have hsat : ∀ {σ : Assignment}, Sat σ (s.concretized ++ [(r.1, toConstant s.concretized r.1)]) →
        Sat σ s.concretized ∧ r.1.eval σ 8 = toConstant s.concretized r.1 := fun hsat =>
      ⟨hsat.of_prefix (prefix_append ..), hsat _ (mem_append_right _ mem_cons_self)⟩
    have hv : ∀ σ ∈ Γ, Sat σ (s.concretized ++ [(r.1, toConstant s.concretized r.1)]) →
        toConstant s.concretized r.1 = mem σ i := fun σ hσ hs =>
      (hsat hs).2.symm.trans (hd σ hσ (hsat hs).1).eval
    refine ⟨r, rfl, hinv, ⟨hf s.concretized r.1 h.feasible, fun σ hσ hs => ?_⟩, hv⟩
    have hsync := (hinv.coherent σ hσ (hsat hs).1).constSync hmode
    have hw := hsync.writeByte (i := i) (toConstant s.concretized r.1)
    rw [hv σ hσ hs, Function.update_eq_self, ← hv σ hσ hs] at hw
    exact coherent_of_constSync hw hmode

theorem Inv.readByteConcrete
    (hi : i < n) : ∃ v s', s.readByteConcrete toConstant i = .ok (v, s') ∧ Inv Γ n mem s' ∧ Grows s s' ∧
      ∀ σ ∈ Γ, Sat σ s'.concretized → v = mem σ i := by
  unfold Registers.readByteConcrete ObjectState.readConcrete8
  by_cases hc : s.object.isByteConcrete i = true
  · rw [if_pos hc]
    refine ⟨_, s, rfl, h, .refl s, fun σ hσ hsat => ?_⟩
    exact ((h.coherent σ hσ hsat).constSync hmode).concreteStore_eq hi hc
  · rw [if_neg hc]
    obtain ⟨r, hr, -, hinv, hv⟩ := h.concretize hf hmode hi
    refine ⟨_, (s.concretize toConstant i r).2, ?_, hinv, ⟨rfl, prefix_append ..⟩, hv⟩
    show (s.object.read8At i >>= _) = _
    rw [hr]
    rfl

theorem Inv.readBytesConcrete
    {off k : Nat} (hk : off + k ≤ n) : ∃ bs s', s.readBytesConcrete toConstant off k = .ok (bs, s') ∧ Inv Γ n mem s' ∧
      Grows s s' ∧ ∀ σ ∈ Γ, Sat σ s'.concretized → bs = (mem σ).load off k := by
  induction k with
  | zero => exact ⟨[], s, rfl, h, .refl s, fun _ _ _ => rfl⟩
  | succ k ih =>
    obtain ⟨bs, s₁, h₁, hinv₁, hg₁, hbs⟩ := ih (by omega)
    obtain ⟨v, s₂, h₂, hinv₂, hg₂, hv⟩ := hinv₁.readByteConcrete hf (hg₁.mode.trans hmode) (i := off + k) (by omega)
    refine ⟨bs ++ [v], s₂, ?_, hinv₂, hg₁.trans hg₂, fun σ hσ hsat => ?_⟩
    · rw [Registers.readBytesConcrete, h₁]
      show (s₁.readByteConcrete toConstant (off + k) >>= _) = _
      rw [h₂]
      rfl
    · rw [FlatMemory.load_succ, hbs σ hσ (hsat.of_prefix hg₂.concretized), hv σ hσ hsat]

theorem Inv.forceByte (hi : i < n) : ∃ s', s.forceByte toConstant i = .ok s' ∧ Inv Γ n mem s' ∧ Grows s s' := by
  obtain ⟨r, hr, hread, hinv, -⟩ := h.concretize hf hmode hi
  refine ⟨s.force toConstant i r, by rw [Registers.forceByte, hr]; rfl, ?_⟩
  unfold Registers.force
  split
  · exact ⟨hread, rfl, prefix_rfl⟩
  · exact ⟨hinv, rfl, prefix_append ..⟩

theorem Inv.forceConcretizations
    (force : Bool) : ∃ s', s.forceConcretizations toConstant force = .ok s' ∧ Inv Γ n mem s' ∧ Grows s s' := by
  have hloop : ∀ k ≤ n, ∃ s', (range k).foldlM (fun s i => s.forceByte toConstant i) s = .ok s' ∧
      Inv Γ n mem s' ∧ Grows s s' := by
    intro k hk
    induction k with
    | zero => exact ⟨s, rfl, h, .refl s⟩
    | succ k ih =>
      obtain ⟨s₁, h₁, hinv₁, hg₁⟩ := ih (by omega)
      obtain ⟨s₂, h₂, hinv₂, hg₂⟩ := hinv₁.forceByte hf (hg₁.mode.trans hmode) hk
      exact ⟨s₂, foldlM_range_succ h₁ h₂, hinv₂, hg₁.trans hg₂⟩
  unfold Registers.forceConcretizations
  split
  · rw [h.size]
    exact hloop n le_rfl
  · exact ⟨s, rfl, h, .refl s⟩

end

end

/-! ### The CPU structure in concrete mode -/

section

variable (h : Coherent σ n m s)

include h

theorem Coherent.native_eq (hmode : s.runningConcrete = true)
    (hi : i < n) (hc : s.object.isByteConcrete i = true) : s.native i = m i := by
  obtain ⟨m₀, -, hm⟩ := h
  rw [hm i hi, hmode, hc]
  rfl

/-- Bytes that the object has as concrete are written natively. -/
theorem Coherent.overwrite {f : FlatMemory} {P : Nat → Prop} [DecidablePred P]
    (hmode : s.runningConcrete = true) (hP : ∀ i, P i → s.object.isByteConcrete i = true) :
    Coherent σ n (fun j => if P j then f j else m j) { s with native := fun j => if P j then f j else s.native j } := by
  obtain ⟨m₀, hsync, hm⟩ := h
  refine ⟨m₀, hsync, fun i hi => ?_⟩
  by_cases hPi : P i
  · simp only [if_pos hPi, hmode, hP i hPi, Bool.and_self, if_true]
  · grind

theorem Coherent.toConcrete (hmode : s.runningConcrete = false) : Coherent σ n m
      { s with native := s.native.copy s.object.concreteStore s.object.size, runningConcrete := true } := by
  have hsync := h.constSync hmode
  refine ⟨m, hsync, fun i hi => ?_⟩
  by_cases hc : s.object.isByteConcrete i = true
  · simp only [hc, Bool.and_self, if_true, FlatMemory.copy, hsync.size_eq, hi]
    exact (hsync.concreteStore_eq hi hc).symm
  · simp only [hc, Bool.and_false, Bool.false_eq_true, if_false]

theorem Coherent.toSymbolic (hmode : s.runningConcrete = true) : Coherent σ n m { s with
      object := { s.object with concreteStore := FlatMemory.copy s.object.concreteStore s.native s.object.size }
      runningConcrete := false } := by
  obtain ⟨m₀, hsync, hm⟩ := h
  refine coherent_of_constSync (hsync.setStore fun i hi => ?_) rfl
  rw [hm i hi, hmode, Bool.true_and, FlatMemory.copy, hsync.size_eq, if_pos hi]

end

end Coherence

/-! ## One call -/

section Calls

variable [Options] {Γ : Set Assignment} {n : Nat} {mem mem' : Assignment → FlatMemory} {s : Registers}
  {toConstant : List (Expr × BitVec 8) → Expr → BitVec 8}

omit [Options] in
theorem usesObject_symbolic (hmode : s.runningConcrete = false) (offset width : Nat) :
    s.usesObject offset width = true := by
  unfold usesObject
  rw [hmode]
  rfl

omit [Options] in
theorem usesObject_concrete (hmode : s.runningConcrete = true)
    (h : s.object.ConcreteOn offset (getMinBytesForWidth width)) : s.usesObject offset width = false := by
  unfold usesObject
  rw [hmode, ObjectState.isConcrete_iff.2 h]
  rfl

/-- What is asked of a call besides being one of the calls: it is inside the registers, a value that is written is in
bounds, a constant has a width that there is a routine for, and in concrete mode the bytes of the range are native. A read
of symbolic bytes alone is fine as well. -/
def Meets (Γ : Set Assignment) (s : Registers) : Op → Prop
  | .readCpuRegister offset width => 0 < width ∧ s.InRange offset width ∧ (s.runningConcrete = true →
      s.object.ConcreteOn offset (getMinBytesForWidth width) ∧ (width = 1 → (s.native offset).toNat < 2) ∨
      s.object.SymbolicOn offset (getMinBytesForWidth width))
  | .writeCpuRegister offset value => 0 < value.getWidth ∧ s.InRange offset value.getWidth ∧
      (∀ σ ∈ Γ, value.InBounds σ) ∧
      (s.runningConcrete = false → value.isConstant = true → value.getWidth ∈ [1, 8, 16, 32, 64]) ∧
      (s.runningConcrete = true → value.isConstant = true ∧
        s.object.ConcreteOn offset (getMinBytesForWidth value.getWidth))
  | .readRegisterConcrete offset size => offset + size ≤ s.object.size ∧
      (s.runningConcrete = true → s.object.ConcreteOn offset size)
  | .writeRegisterConcrete offset buf => offset + buf.length ≤ s.object.size ∧
      (s.runningConcrete = true → s.object.ConcreteOn offset buf.length)
  | .switchToConcrete _ => s.runningConcrete = false
  | .switchToSymbolic => s.runningConcrete = true

section

omit [Options]

theorem InRange.byteWidth (h : s.InRange offset width) (hpos : 0 < width) :
    ObjectState.ByteWidth width := h.1.imp id fun h8 => ⟨hpos, h8⟩

theorem getMinBytesForWidth_mul (n : Nat) : getMinBytesForWidth (n * 8) = n := by
  unfold getMinBytesForWidth
  omega

/-- A number read from the CPU structure fits its width. -/
theorem readNative_ok (hw : ObjectState.ByteWidth width)
    (hone : width = 1 → (s.native offset).toNat < 2) : s.readNative offset width =
      .ok (.const (s.native.read offset (getMinBytesForWidth width)) width, s) := by
  have hlt : s.native.read offset (getMinBytesForWidth width) < 2 ^ width := by
    obtain ⟨rfl, hb⟩ | ⟨-, -, hw8, hb⟩ := hw.cases
    · rw [hb, FlatMemory.read_one]
      exact hone rfl
    · have := FlatMemory.read_lt s.native offset (ObjectState.numBytes width)
      rwa [← FlatMemory.two_pow_eight_mul, ← hw8, ← hb] at this
  unfold readNative
  exact if_pos (Nat.mod_eq_of_lt hlt)

end

variable {σ : Assignment} {m : FlatMemory}

theorem Coherent.readCpuRegister (h : Coherent σ n m s)
    (hmeets : s.Meets Γ (.readCpuRegister offset width)) : ∃ e s', s.readCpuRegister offset width = .ok (e, s') ∧
      s'.concretized = s.concretized ∧ Coherent σ n m s' ∧
      e.Denotes σ (BitVec.ofNat width (m.read offset (getMinBytesForWidth width))) := by
  obtain ⟨hpos, hrange, hconc⟩ := hmeets
  have hw := hrange.byteWidth hpos
  have hbytes := hw.pos
  obtain ⟨m₀, hsync, hm⟩ := id h
  have hle : offset + getMinBytesForWidth width ≤ n := hsync.size_eq ▸ hrange.2.2
  unfold Registers.readCpuRegister
  rw [if_pos hrange]
  by_cases hnat : s.runningConcrete = true ∧ s.object.ConcreteOn offset (getMinBytesForWidth width)
  · obtain ⟨hmode, hon⟩ := hnat
    have hone : width = 1 → (s.native offset).toNat < 2 := by
      obtain ⟨-, hone⟩ | hsym := hconc hmode
      · exact hone
      · exact absurd ((hon offset le_rfl (by omega)).symm.trans (hsym offset le_rfl (by omega))) (by decide)
    rw [usesObject_concrete hmode hon, readNative_ok hw hone]
    refine ⟨_, s, rfl, rfl, h, ?_⟩
    have hread : s.native.read offset (getMinBytesForWidth width) = m.read offset (getMinBytesForWidth width) :=
      FlatMemory.read_congr fun i hi hi' => h.native_eq hmode (by omega) (hon i hi hi')
    rw [hread]
    exact Expr.denotes_const σ _ hpos
  · have huses : s.usesObject offset width = true := by
      unfold usesObject
      rw [Bool.or_eq_true, Bool.not_eq_true', Bool.not_eq_true', Bool.eq_false_iff, Bool.eq_false_iff, ne_eq, ne_eq,
        ObjectState.isConcrete_iff]
      exact not_and_or.1 hnat
    -- No byte of the range is native.
    have hobj : ∀ i, offset ≤ i → i < offset + getMinBytesForWidth width → m₀ i = m i := by
      intro i hi hi'
      rw [hm i (by omega)]
      cases hmode : s.runningConcrete with
      | false => rfl
      | true =>
        obtain ⟨hon, -⟩ | hsym := hconc hmode
        · exact absurd ⟨hmode, hon⟩ hnat
        · rw [hsym i hi hi']
          rfl
    obtain ⟨e, o', he, hd, hs, hc⟩ := hsync.readAt hw hle
    rw [huses, he]
    refine ⟨e, { s with object := o' }, rfl, rfl, ⟨m₀, hs, fun i hi => ?_⟩, ?_⟩
    · show m i = if s.runningConcrete && o'.isByteConcrete i then _ else _
      rw [hc]
      exact hm i hi
    · rwa [FlatMemory.read_congr hobj] at hd

theorem Coherent.writeCpuRegister {value : Expr} (hσ : σ ∈ Γ) (h : Coherent σ n m s)
    (hmeets : s.Meets Γ (.writeCpuRegister offset value)) : ∃ s', s.writeCpuRegister offset value = .ok s' ∧
      s'.concretized = s.concretized ∧
      Coherent σ n (m.write offset (getMinBytesForWidth value.getWidth) (value.value σ).toNat) s' := by
  obtain ⟨hpos, hrange, hval, hsym, hconc⟩ := hmeets
  have hd := (hval σ hσ).denotes
  unfold Registers.writeCpuRegister
  rw [if_pos hrange]
  by_cases hmode : s.runningConcrete = true
  · obtain ⟨hc, hon⟩ := hconc hmode
    rw [usesObject_concrete hmode hon]
    cases value with
    | constant c =>
      refine ⟨_, rfl, rfl, ?_⟩
      have hv : (Expr.constant c).value σ = c.bits := Expr.eval_constant c.bits σ
      rw [hv]
      exact h.overwrite hmode fun i hi => hon i hi.1 hi.2
    | _ => cases hc
  · replace hmode := Bool.eq_false_iff.2 hmode
    obtain ⟨o', ho', hs⟩ := (h.constSync hmode).writeAt offset (hrange.byteWidth hpos) (hsym hmode) hd
    rw [usesObject_symbolic hmode, ho']
    exact ⟨{ s with object := o' }, rfl, rfl, coherent_of_constSync hs hmode⟩

theorem Coherent.writeRegisterConcrete {buf : List (BitVec 8)} (h : Coherent σ n m s)
    (hmeets : s.Meets Γ (.writeRegisterConcrete offset buf)) : ∃ s', s.writeRegisterConcrete offset buf = .ok s' ∧
      s'.concretized = s.concretized ∧ Coherent σ n (m.store offset buf) s' := by
  obtain ⟨hrange, hconc⟩ := hmeets
  unfold Registers.writeRegisterConcrete
  rw [if_pos hrange]
  by_cases hmode : s.runningConcrete = true
  · have hon := hconc hmode
    rw [usesObject_concrete hmode (by rwa [getMinBytesForWidth_mul])]
    exact ⟨_, rfl, rfl, h.overwrite hmode fun i hi => hon i hi.1 hi.2⟩
  · replace hmode := Bool.eq_false_iff.2 hmode
    rw [usesObject_symbolic hmode]
    refine ⟨_, rfl, rfl, coherent_of_constSync ?_ hmode⟩
    exact ObjectState.writeBytes_keeps (fun m o i v ho => ho.writeByte v) buf (h.constSync hmode)

section

variable (hf : Feasible Γ toConstant) (h : Inv Γ n mem s)

include hf h

theorem Inv.readRegisterConcrete {size : Nat} (hmeets : s.Meets Γ (.readRegisterConcrete offset size)) :
    ∃ bs s', s.readRegisterConcrete toConstant offset size = .ok (bs, s') ∧ Inv Γ n mem s' ∧
      s.concretized <+: s'.concretized ∧ ∀ σ ∈ Γ, Sat σ s'.concretized → bs = (mem σ).load offset size := by
  obtain ⟨hrange, hconc⟩ := hmeets
  have hle : offset + size ≤ n := h.size ▸ hrange
  unfold Registers.readRegisterConcrete
  rw [if_pos hrange]
  by_cases hmode : s.runningConcrete = true
  · have hon := hconc hmode
    rw [usesObject_concrete hmode (by rwa [getMinBytesForWidth_mul])]
    refine ⟨_, s, rfl, h, prefix_rfl, fun σ hσ hsat => FlatMemory.load_congr fun i hi hi' => ?_⟩
    exact (h.coherent σ hσ hsat).native_eq hmode (by omega) (hon i hi hi')
  · replace hmode := Bool.eq_false_iff.2 hmode
    rw [usesObject_symbolic hmode]
    obtain ⟨bs, s', hok, hinv, hg, hbs⟩ := h.readBytesConcrete hf hmode hle
    exact ⟨bs, s', hok, hinv, hg.concretized, hbs⟩

theorem Inv.switchToConcrete (hmode : s.runningConcrete = false)
    (force : Bool) : ∃ s', s.switchToConcrete toConstant force = .ok s' ∧ Inv Γ n mem s' ∧
      s.concretized <+: s'.concretized := by
  obtain ⟨s₁, h₁, hinv, hg⟩ := h.forceConcretizations hf hmode force
  unfold Registers.switchToConcrete
  rw [hmode, h₁]
  refine ⟨_, rfl, ⟨hinv.feasible, fun σ hσ hsat => ?_⟩, hg.concretized⟩
  exact (hinv.coherent σ hσ hsat).toConcrete (hg.mode.trans hmode)

/-- A call returns what the array holds, and leaves the registers in step with the array after it. -/
theorem Inv.step {op : Op} (hmeets : s.Meets Γ op) :
    ∃ out s', s.step toConstant op = .ok (out, s') ∧ Inv Γ n (fun σ => op.flat σ (mem σ)) s' ∧
      s.concretized <+: s'.concretized ∧
      ∀ σ ∈ Γ, Sat σ s'.concretized → out.value σ = op.flatOutput (mem σ) := by
  have heach : (∀ σ ∈ Γ, Coherent σ n (mem σ) s → ∃ out s', s.step toConstant op = .ok (out, s') ∧
      s'.concretized = s.concretized ∧ Coherent σ n (op.flat σ (mem σ)) s' ∧ out.value σ = op.flatOutput (mem σ)) →
      ∃ out s', s.step toConstant op = .ok (out, s') ∧ Inv Γ n (fun σ => op.flat σ (mem σ)) s' ∧
        s.concretized <+: s'.concretized ∧
        ∀ σ ∈ Γ, Sat σ s'.concretized → out.value σ = op.flatOutput (mem σ) := by
    intro hr
    obtain ⟨out, s', hok, hcs, hinv, hout⟩ := h.of_each hr
    exact ⟨out, s', hok, hinv, hcs ▸ prefix_rfl, hout⟩
  cases op with
  | readCpuRegister offset width =>
    apply heach
    intro σ _ hcoh
    obtain ⟨e, s', hok, hcs, hcoh', hd⟩ := hcoh.readCpuRegister hmeets
    refine ⟨.expr e, s', by rw [Registers.step, hok]; rfl, hcs, hcoh', ?_⟩
    exact congrArg (some ∘ Sum.inl) hd.evaluate
  | writeCpuRegister offset value =>
    apply heach
    intro σ hσ hcoh
    obtain ⟨s', hok, hcs, hcoh'⟩ := hcoh.writeCpuRegister hσ hmeets
    exact ⟨.none, s', by rw [Registers.step, hok]; rfl, hcs, hcoh', rfl⟩
  | readRegisterConcrete offset size =>
    obtain ⟨bs, s', hok, hinv, hcs, hbs⟩ := h.readRegisterConcrete hf hmeets
    refine ⟨.buf bs, s', by rw [Registers.step, hok]; rfl, hinv, hcs, fun σ hσ hsat => ?_⟩
    exact congrArg (some ∘ Sum.inr) (hbs σ hσ hsat)
  | writeRegisterConcrete offset buf =>
    apply heach
    intro σ _ hcoh
    obtain ⟨s', hok, hcs, hcoh'⟩ := hcoh.writeRegisterConcrete hmeets
    exact ⟨.none, s', by rw [Registers.step, hok]; rfl, hcs, hcoh', rfl⟩
  | switchToConcrete force =>
    obtain ⟨s', hok, hinv, hcs⟩ := h.switchToConcrete hf hmeets force
    exact ⟨.none, s', by rw [Registers.step, hok]; rfl, hinv, hcs, fun _ _ _ => rfl⟩
  | switchToSymbolic =>
    apply heach
    intro σ _ hcoh
    have hmode : s.runningConcrete = true := hmeets
    refine ⟨.none, _, ?_, ?_, hcoh.toSymbolic hmode, rfl⟩
    · rw [Registers.step, Registers.switchToSymbolic, if_pos hmode]
      rfl
    · rfl

end

/-! ## Sequences of calls -/

/-- Each call of the sequence meets the condition in the state that it finds. -/
def RunMeets (toConstant : List (Expr × BitVec 8) → Expr → BitVec 8) (Γ : Set Assignment) : Registers → List Op → Prop
  | _, [] => True
  | s, op :: ops => s.Meets Γ op ∧ ∀ out s', s.step toConstant op = .ok (out, s') → RunMeets toConstant Γ s' ops

theorem RunMeets.cons_of {op : Op} {ops : List Op} {out : Output} {s' : Registers} (hm : s.Meets Γ op)
    (hstep : s.step toConstant op = .ok (out, s')) (h : RunMeets toConstant Γ s' ops) :
    RunMeets toConstant Γ s (op :: ops) := by
  refine ⟨hm, fun out₁ s₁ h₁ => ?_⟩
  obtain ⟨-, rfl⟩ := Prod.mk.inj (Except.ok.inj (hstep.symm.trans h₁))
  exact h

/-- Every call of the sequence returns, and under the assignments that are left in the end each read gives the value last
written to its bytes. -/
theorem run_returns_last_written (hf : Feasible Γ toConstant) (ops : List Op) (h : Inv Γ n mem s)
    (hmeets : RunMeets toConstant Γ s ops) : ∃ outs s', s.run toConstant ops = .ok (outs, s') ∧
      (∃ σ ∈ Γ, Sat σ s'.concretized) ∧
      ∀ σ ∈ Γ, Sat σ s'.concretized → outs.map (Output.value σ) = flatRun σ (mem σ) ops := by
  suffices hrun : ∃ outs s', s.run toConstant ops = .ok (outs, s') ∧ (∃ σ ∈ Γ, Sat σ s'.concretized) ∧
      s.concretized <+: s'.concretized ∧
      ∀ σ ∈ Γ, Sat σ s'.concretized → outs.map (Output.value σ) = flatRun σ (mem σ) ops by
    obtain ⟨outs, s', hok, hleft, -, hout⟩ := hrun
    exact ⟨outs, s', hok, hleft, hout⟩
  induction ops generalizing s mem with
  | nil => exact ⟨[], s, rfl, h.feasible, prefix_rfl, fun _ _ _ => rfl⟩
  | cons op ops ih =>
    obtain ⟨out, s₁, h₁, hinv, hcs₁, hout⟩ := h.step hf hmeets.1
    obtain ⟨outs, s₂, h₂, hleft, hcs₂, houts⟩ := ih hinv (hmeets.2 out s₁ h₁)
    refine ⟨out :: outs, s₂, ?_, hleft, hcs₁.trans hcs₂, fun σ hσ hsat => ?_⟩
    · rw [run, h₁]
      show (s₁.run toConstant ops >>= _) = _
      rw [h₂]
      rfl
    · rw [map_cons, flatRun, hout σ hσ (hsat.of_prefix hcs₂), houts σ hσ hsat]

end Calls

/-! ## One register of one byte, symbolic at first -/

section OneByte

/-- The native byte is zero. -/
def oneByte : Registers := ⟨false, fun _ => 0, .symbolic (byteArray 0 "eax") 0 fun _ => 0, []⟩

theorem oneByte_inv (Γ : Set Assignment) (hne : Γ.Nonempty) : Inv Γ 1 (fun σ => σ.initial (byteArray 0 "eax")) oneByte where
  feasible := hne.imp fun _ hσ => ⟨hσ, nofun⟩
  coherent _ _ _ := coherent_of_constSync (.of_sync (ObjectState.sync_symbolic (byteArray 0 "eax") 0 fun _ => 0)) rfl

/-- The byte is concretized on the way to concrete mode, written there, and read there and after the way back. -/
def oneByteCalls : List Op :=
  [.switchToConcrete true, .readRegisterConcrete 0 1, .writeCpuRegister 0 (.const 9 8), .readRegisterConcrete 0 1,
    .switchToSymbolic, .readCpuRegister 0 8]

theorem run_returns_last_written_oneByte : ∃ outs s',
    oneByte.run (fun _ e => e.eval (fun _ _ => 3) 8) oneByteCalls = .ok (outs, s') ∧
    outs.map (Output.value fun _ _ => 3) =
      [none, some (.inr [3]), none, some (.inr [9]), none, some (.inl (.ofNat 9 8))] := by
  have hf : Feasible {fun _ _ => 3} fun _ e => e.eval (fun _ _ => 3) 8 := by
    rintro cs e ⟨σ, rfl, hsat⟩
    refine ⟨_, rfl, fun p hp => ?_⟩
    obtain hp | hp := mem_append.1 hp
    · exact hsat p hp
    · rw [mem_singleton.1 hp]
  have hon : ∀ {o : ObjectState}, o.isByteConcrete 0 = true → o.ConcreteOn 0 1 := by
    intro o ho i _ hi
    obtain rfl : i = 0 := by omega
    exact ho
  have hmeets : RunMeets (fun _ e => e.eval (fun _ _ => 3) 8) {fun _ _ => 3} oneByte oneByteCalls := by
    refine .cons_of (show oneByte.runningConcrete = false from rfl) rfl ?_
    refine .cons_of ⟨by decide, fun _ => hon rfl⟩ rfl ?_
    refine .cons_of ⟨by decide, by decide, fun σ _ => Nat.succ_pos 7, nofun, fun _ => ⟨rfl, hon rfl⟩⟩ rfl ?_
    refine .cons_of ⟨by decide, fun _ => hon rfl⟩ rfl ?_
    refine .cons_of (Eq.refl true) rfl ?_
    exact .cons_of ⟨by decide, by decide, nofun⟩ rfl trivial
  obtain ⟨outs, s', hok, hleft, hout⟩ := run_returns_last_written hf _ (oneByte_inv _ ⟨_, rfl⟩) hmeets
  obtain ⟨σ, rfl, hsat⟩ := hleft
  exact ⟨outs, s', hok, hout _ rfl hsat⟩

/-- A write in concrete mode to the symbolic byte goes to the object and makes the byte concrete there. The read after it
takes the native byte. -/
theorem writeRegisterConcrete_lost :
    (oneByte.run (fun _ _ => 0) [.switchToConcrete false, .writeRegisterConcrete 0 [5], .readRegisterConcrete 0 1]).map
      (·.1.map (Output.value fun _ _ => 0)) = .ok [none, none, some (.inr [0])] ∧
    flatRun (fun _ _ => 0) (Assignment.initial (fun _ _ => 0) (byteArray 0 "eax"))
      [.switchToConcrete false, .writeRegisterConcrete 0 [5], .readRegisterConcrete 0 1] =
        [none, none, some (.inr [5])] :=
  ⟨rfl, rfl⟩

end OneByte

end Registers

end S2E.Qemu
