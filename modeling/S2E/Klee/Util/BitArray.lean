import Mathlib.Tactic

/-!
# `BitArray`

An array of bits, 32 to a word.

* `BitArray size` : the words that are allocated for a size; a function returns `none` where it leaves them;
* `isAllZeros`, `isAllOnes` : both tests read the word after the last whole one, even where there is none.
-/

namespace S2E.Klee
open BitVec

/-- `(size+31)/32`, in 32 bits. -/
def BitArray.length (size : BitVec 32) : Nat := (size + 31).toNat / 32

structure BitArray (size : BitVec 32) where
  bits : Vector (BitVec 32) (BitArray.length size)

namespace BitArray

variable {size : BitVec 32} {value : Bool}

/-- A word with one bit 32 times. -/
def fill (value : Bool) : BitVec 32 := if value then 0xFFFFFFFF else 0

/-- The constructor from a value. -/
def ofValue (size : BitVec 32) (value : Bool) : BitArray size := ⟨.replicate _ (fill value)⟩

/-- The constructor from an array. -/
def copy (b : BitArray size) : BitArray size := ⟨b.bits⟩

def getBit (ws : List (BitVec 32)) (idx : Nat) : Option Bool := ws[idx / 32]?.map (·.getLsbD (idx % 32))

section

variable (b : BitArray size) (idx : Nat)

def get : Option Bool := getBit b.bits.toList idx

/-- The word of a bit is read and written. -/
def modify (f : BitVec 32 → BitVec 32) : Option (BitArray size) :=
  if h : idx / 32 < length size then some ⟨b.bits.set (idx / 32) (f b.bits[idx / 32])⟩ else none

def set : Option (BitArray size) := b.modify idx (· ||| 1#32 <<< (idx % 32))

def unset : Option (BitArray size) := b.modify idx (· &&& ~~~(1#32 <<< (idx % 32)))

end

/-- The `n` whole words are compared with `word`, then what the mask leaves of the next one with `tail`. -/
def isAll (word mask tail : BitVec 32) : Nat → List (BitVec 32) → Option Bool
  | n + 1, w :: ws => if w ≠ word then some false else isAll word mask tail n ws
  | 0, w :: _ => some (w &&& mask = tail)
  | _, [] => none

/-- `(1 << (size&0x1F)) - 1` -/
def mask (size : BitVec 32) : BitVec 32 := 1#32 <<< (size.toNat % 32) - 1

def isAllZeros (b : BitArray size) : Option Bool := isAll 0 (mask size) 0 (size.toNat / 32) b.bits.toList

def isAllOnes (b : BitArray size) : Option Bool :=
  isAll 0xFFFFFFFF (mask size) (mask size) (size.toNat / 32) b.bits.toList

/-- The operations, with an index below the size. -/
inductive Op (size : BitVec 32)
  | set (idx : Fin size.toNat)
  | unset (idx : Fin size.toNat)
  | copy

def step (b : BitArray size) : Op size → Option (BitArray size)
  | .set idx => b.set idx
  | .unset idx => b.unset idx
  | .copy => some b.copy

/-- All bits below the size are `value`. -/
def All (b : BitArray size) (value : Bool) : Prop := ∀ i < size.toNat, b.get i = some value

/-- A test stays inside the words, and tells whether `P`. -/
def Tells (test : Option Bool) (P : Prop) : Prop := ∃ t, test = some t ∧ (t = true ↔ P)

/-- The operations stay inside the words, and then both tests do and are right. -/
def Right (size : BitVec 32) (value : Bool) (ops : List (Op size)) : Prop :=
  ∃ b, ops.foldlM step (ofValue size value) = some b ∧ Tells b.isAllZeros (b.All false) ∧ Tells b.isAllOnes (b.All true)

theorem getLsbD_fill {k : Nat} (hk : k < 32) : (fill value).getLsbD k = value := by
  cases value with
  | false => exact getLsbD_zero
  | true => exact getLsbD_allOnes.trans (decide_eq_true hk)

theorem getLsbD_mask : ∀ (r : Fin 33) (k : Fin 32), (1#32 <<< r.val - 1).getLsbD k = decide (k.val < r) := by
  decide +kernel

section

variable {w : BitVec 32} {ws : List (BitVec 32)}

theorem masked_eq_iff {r : Nat} (hr : r ≤ 32) :
    w &&& (1#32 <<< r - 1) = fill value &&& (1#32 <<< r - 1) ↔ ∀ k < r, w.getLsbD k = value := by
  have hmask (k : Nat) (hk : k < 32) := getLsbD_mask ⟨r, by omega⟩ ⟨k, hk⟩
  simp only [eq_of_getLsbD_eq_iff, getLsbD_and]
  refine forall_congr' fun k => ⟨fun h hk => ?_, fun h hk => ?_⟩
  · have := h (by omega)
    grind [getLsbD_fill]
  · grind [getLsbD_fill]

theorem eq_fill_iff : w = fill value ↔ ∀ k < 32, w.getLsbD k = value := by
  have h : _ ↔ ∀ k < 32, w.getLsbD k = value := masked_eq_iff le_rfl
  rwa [show 1#32 <<< 32 - 1 = allOnes 32 from rfl, and_allOnes, and_allOnes] at h

theorem getBit_cons {k : Nat} (hk : k < 32) : getBit (w :: ws) k = some (w.getLsbD k) := by
  simp [getBit, Nat.div_eq_of_lt hk, Nat.mod_eq_of_lt hk]

theorem getBit_cons_add (i : Nat) : getBit (w :: ws) (32 + i) = getBit ws i := by
  simp [getBit, Nat.add_div_left]

theorem all_cons {n : Nat} : (∀ i < 32 + n, getBit (w :: ws) i = some value) ↔
    (∀ k < 32, w.getLsbD k = value) ∧ ∀ i < n, getBit ws i = some value := by
  constructor
  · intro h
    refine ⟨fun k hk => ?_, fun i hi => ?_⟩
    · exact Option.some.inj ((getBit_cons hk).symm.trans (h k (by omega)))
    · exact (getBit_cons_add i).symm.trans (h _ (by omega))
  · rintro ⟨hw, hws⟩ i hi
    by_cases hlt : i < 32
    · rw [getBit_cons hlt, hw i hlt]
    · obtain ⟨j, rfl⟩ := Nat.exists_eq_add_of_le (Nat.not_lt.1 hlt)
      rw [getBit_cons_add, hws j (by omega)]

/-- A test is right unless it reads the word after the last, which it does where all bits are as it wants them. -/
theorem isAll_iff (value : Bool) {r n : Nat} (hr : r < 32) (hlen : ws.length = n + if r = 0 then 0 else 1) :
    Tells (isAll (fill value) (1#32 <<< r - 1) (fill value &&& (1#32 <<< r - 1)) n ws)
      (∀ i < 32 * n + r, getBit ws i = some value) ↔ r ≠ 0 ∨ ¬ ∀ i < 32 * n + r, getBit ws i = some value := by
  induction n generalizing ws with
  | zero =>
    cases ws with
    | nil =>
      obtain rfl : r = 0 := by grind
      simp [isAll, Tells]
    | cons w ws =>
      refine iff_of_true ⟨_, rfl, ?_⟩ (.inl (by grind))
      rw [decide_eq_true_iff, masked_eq_iff hr.le]
      grind [getBit_cons]
  | succ n ih =>
    cases ws with
    | nil => grind
    | cons w ws =>
      simp only [show 32 * (n + 1) + r = 32 + (32 * n + r) by ring, all_cons, ← eq_fill_iff]
      by_cases hw : w = fill value
      · simpa [isAll, hw] using ih (by grind)
      · simp [isAll, Tells, hw]

end

section

variable (hlt : size.toNat + 31 < 2 ^ 32)

include hlt

theorem length_eq : length size = (size.toNat + 31) / 32 := by
  rw [length, toNat_add_of_lt hlt]
  rfl

theorem tests_iff (b : BitArray size) : Tells b.isAllZeros (b.All false) ∧ Tells b.isAllOnes (b.All true) ↔
    size.toNat % 32 ≠ 0 ∨ ¬ b.All false ∧ ¬ b.All true := by
  have hwords : b.bits.toList.length = size.toNat / 32 + if size.toNat % 32 = 0 then 0 else 1 := by
    rw [Vector.length_toList, length_eq hlt]
    split <;> omega
  have hiff (value : Bool) := isAll_iff value (Nat.mod_lt size.toNat (by decide)) hwords
  simp only [Nat.div_add_mod] at hiff
  rw [or_and_left]
  refine and_congr ?_ ?_
  · have h := hiff false
    rw [show fill false = 0#32 from rfl, zero_and] at h
    exact h
  · have h := hiff true
    rw [show fill true = allOnes 32 from rfl, allOnes_and] at h
    exact h

theorem exists_step (b : BitArray size) (op : Op size) : ∃ b', b.step op = some b' := by
  have hword (idx : Fin size.toNat) : idx.val / 32 < length size := by
    rw [length_eq hlt]
    omega
  cases op <;> simp [step, set, unset, modify, hword]

theorem exists_run (b : BitArray size) (ops : List (Op size)) : ∃ b', ops.foldlM step b = some b' := by
  induction ops generalizing b with
  | nil => exact ⟨b, rfl⟩
  | cons op ops ih =>
    obtain ⟨b₁, h₁⟩ := exists_step hlt b op
    rw [List.foldlM_cons, h₁]
    exact ih b₁

end

/-- The operations and the tests are right for an array whose size is not among the last 31, if its size is no multiple of
32 or it has both a bit 0 and a bit 1. -/
theorem allTests_right_iff (size : BitVec 32) (value : Bool) (ops : List (Op size)) : Right size value ops ↔
    size.toNat + 31 < 2 ^ 32 ∧ ∀ b, ops.foldlM step (ofValue size value) = some b →
      size.toNat % 32 ≠ 0 ∨ ¬ b.All false ∧ ¬ b.All true := by
  constructor
  · rintro ⟨b, hrun, htests⟩
    have hlt : size.toNat + 31 < 2 ^ 32 := by
      -- Otherwise the sum wraps around, and there is no word at all.
      by_contra hge
      have hnil : b.bits.toList = [] := by
        rw [← List.length_eq_zero_iff, Vector.length_toList, length]
        have := size.isLt
        bv_omega
      obtain ⟨t, ht, -⟩ := htests.1
      rw [isAllZeros, hnil] at ht
      cases h : size.toNat / 32 <;> simp [h, isAll] at ht
    refine ⟨hlt, fun b' hrun' => ?_⟩
    obtain rfl := Option.some.inj (hrun.symm.trans hrun')
    exact (tests_iff hlt b).1 htests
  · rintro ⟨hlt, h⟩
    obtain ⟨b, hrun⟩ := exists_run hlt (ofValue size value) ops
    exact ⟨b, hrun, (tests_iff hlt b).2 (h b hrun)⟩

/-- Both words of an array of 64 bits are 0, and the third is read. -/
theorem whole_words_wrong : ¬ Right 64 false [] := by
  rintro ⟨_, ⟨⟩, ⟨t, ht, -⟩, -⟩
  cases ht

end BitArray

end S2E.Klee
