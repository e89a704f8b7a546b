import Mathlib.Data.BitVec
import Mathlib.Data.Nat.Size
import S2E.Klee.Expr.APInt

/-!
# `Bits.h`

* `Bits64.maxValueOfNBits` : the largest word of `n` bits. The amount `64 - n` of its shift is that of a defined one for up
  to 64 bits only, so that it traps for more; for no bits the function does not shift;
* `Bits64.indexOfSingleBit_twoPow`, `Bits64.isolateRightmostBit_eq` : what the bit tricks find.
-/

namespace S2E.Klee
open BitVec

namespace Bits32

def indexOfSingleBit (x : BitVec 32) : Nat :=
  (if x &&& 0xFFFF0000 ≠ 0 then 16 else 0) + (if x &&& 0xFF00FF00 ≠ 0 then 8 else 0) +
    (if x &&& 0xF0F0F0F0 ≠ 0 then 4 else 0) + (if x &&& 0xCCCCCCCC ≠ 0 then 2 else 0) +
    (if x &&& 0xAAAAAAAA ≠ 0 then 1 else 0)

end Bits32

namespace Bits64

def truncateToNBits (x : BitVec 64) (n : Nat) : BitVec 64 := x &&& (allOnes 64 >>> (64 - n))

def maxValueOfNBits (n : Nat) : Except Trap (BitVec 64) :=
  if n = 0 then .ok 0 else if n ≤ 64 then .ok (allOnes 64 >>> (64 - n)) else .error .assertFailed

def isolateRightmostBit (x : BitVec 64) : BitVec 64 := x &&& -x

def isPowerOfTwo (x : BitVec 64) : Bool := if x = 0 then false else x &&& (x - 1) == 0

def indexOfSingleBit (x : BitVec 64) : Nat :=
  Bits32.indexOfSingleBit ((x ||| x >>> 32).setWidth 32) + (if x &&& 0xFFFFFFFF00000000 ≠ 0 then 32 else 0)

def indexOfRightmostBit (x : BitVec 64) : Nat := indexOfSingleBit (isolateRightmostBit x)

theorem maxValueOfNBits_ok {n : Nat} (h : n ≤ 64) : maxValueOfNBits n = .ok (BitVec.ofNat 64 (2 ^ n - 1)) := by
  unfold maxValueOfNBits
  by_cases h0 : n = 0
  · simp [h0]
  · rw [if_neg h0, if_pos h]
    congr 1
    apply eq_of_getLsbD_eq
    intro i hi
    rw [getLsbD_ushiftRight, getLsbD_allOnes, getLsbD_ofNat, Nat.testBit_two_pow_sub_one,
      decide_eq_true hi, Bool.true_and, decide_eq_decide]
    omega

theorem indexOfSingleBit_twoPow {k : Nat} (hk : k < 64) : indexOfSingleBit (twoPow 64 k) = k := by
  have hall : ∀ k : Fin 64, indexOfSingleBit (twoPow 64 k) = k := by decide
  exact hall ⟨k, hk⟩

theorem toNat_of_isPowerOfTwo {x : BitVec 64} (h : isPowerOfTwo x = true) : x.toNat = 2 ^ indexOfSingleBit x := by
  unfold isPowerOfTwo at h
  split at h
  · cases h
  · rename_i hx
    have hpos : x.toNat ≠ 0 := fun h0 => hx (eq_of_toNat_eq h0)
    have hsub : (x - 1).toNat = x.toNat - 1 :=
      toNat_sub_of_le (show (1 : BitVec 64) ≤ x from Nat.pos_of_ne_zero hpos)
    have hand : x.toNat &&& (x.toNat - 1) = 0 := by
      rw [← hsub, ← toNat_and, beq_iff_eq.1 h]
      rfl
    obtain ⟨k, hk⟩ := (Nat.and_sub_one_eq_zero_iff_isPowerOfTwo hpos).1 hand
    have hk64 : k < 64 := (Nat.pow_lt_pow_iff_right (by decide)).1 (hk ▸ x.isLt)
    have hx : x = twoPow 64 k := by
      apply eq_of_toNat_eq
      rw [toNat_twoPow, Nat.mod_eq_of_lt (hk ▸ x.isLt), hk]
    rw [hx, indexOfSingleBit_twoPow hk64, ← hx, hk]

theorem getLsbD_isolateRightmostBit (x : BitVec 64) (i : Nat) :
    (isolateRightmostBit x).getLsbD i = true ↔ x.getLsbD i = true ∧ ∀ j < i, x.getLsbD j = false := by
  unfold isolateRightmostBit
  rw [getLsbD_and, getLsbD_neg, Bool.and_eq_true]
  refine and_congr_right fun hi => ?_
  have hlt : i < 64 := lt_of_getLsbD hi
  rw [hi, decide_eq_true hlt]
  simp

theorem isolateRightmostBit_eq {x : BitVec 64} {k : Nat} (hk : x.getLsbD k = true)
    (hlow : ∀ j < k, x.getLsbD j = false) : isolateRightmostBit x = twoPow 64 k := by
  have hlt : k < 64 := lt_of_getLsbD hk
  apply eq_of_getLsbD_eq
  intro i hi
  rw [Bool.eq_iff_iff, getLsbD_isolateRightmostBit, getLsbD_twoPow]
  simp only [hlt, decide_true, Bool.true_and, decide_eq_true_eq]
  constructor
  · rintro ⟨hi', hlow'⟩
    by_contra hne
    rcases Nat.lt_or_gt_of_ne hne with h | h
    · grind
    · grind
  · grind

end Bits64

end S2E.Klee
