import Mathlib.Tactic

/-!
# Addresses and power-of-two blocks

* `mask w b` : the mask that clears the low `b` bits of an address of `w` bits;
* `base b a`, `offset b a` : the block of `2 ^ b` addresses that the address `a` is in, and its distance from there.

`a = base b a + offset b a`, and both are known as numbers. `base_add` and `offset_add` : an address a short way further is
in the same block. `or_offset` : the low bits of one address put under an aligned one.
-/

namespace S2E.Lib.Align
open BitVec

open BitVec (toNat_ofNat getLsbD_and getLsbD_not ofNat)

variable {w b : Nat}

def mask (w b : Nat) : BitVec w := ~~~(ofNat w (2 ^ b - 1))

def base (b : Nat) (a : BitVec w) : BitVec w := a &&& mask w b

def offset (b : Nat) (a : BitVec w) : BitVec w := a &&& ~~~(mask w b)

theorem toNat_offset (hb : b ≤ w) (a : BitVec w) : (offset b a).toNat = a.toNat % 2 ^ b := by
  have hpow : 2 ^ b ≤ 2 ^ w := Nat.pow_le_pow_right (by decide) hb
  have hpos : 0 < 2 ^ b := Nat.two_pow_pos b
  rw [offset, mask, BitVec.not_not, BitVec.toNat_and, toNat_ofNat, Nat.mod_eq_of_lt (by omega),
    Nat.and_two_pow_sub_one_eq_mod]

theorem base_and_offset (a a' : BitVec w) : base b a &&& offset b a' = 0#w := by
  apply eq_of_getLsbD_eq
  intro i hi
  simp only [base, offset, getLsbD_and, getLsbD_not, getLsbD_zero, hi, decide_true, Bool.true_and]
  cases (mask w b).getLsbD i <;> simp

theorem base_add_offset (a : BitVec w) : base b a + offset b a = a := by
  rw [add_eq_or_of_and_eq_zero _ _ (base_and_offset a a)]
  apply eq_of_getLsbD_eq
  intro i hi
  simp only [base, offset, getLsbD_or, getLsbD_and, getLsbD_not, hi, decide_true, Bool.true_and]
  cases (mask w b).getLsbD i <;> simp

theorem toNat_base (hb : b ≤ w) (a : BitVec w) : (base b a).toNat = a.toNat - a.toNat % 2 ^ b := by
  have hsub : base b a = a - offset b a := by
    rw [eq_comm, sub_eq_iff_eq_add]
    exact (base_add_offset a).symm
  have hle : (offset b a).toNat ≤ a.toNat := by
    rw [toNat_offset hb]
    exact Nat.mod_le _ _
  rw [hsub, BitVec.toNat_sub_of_le hle, toNat_offset hb]

theorem base_base (a : BitVec w) : base b (base b a) = base b a := by
  rw [base, base, BitVec.and_assoc, BitVec.and_self]

variable {k : Nat} {a p : BitVec w}

/-- What stays inside a block stays inside the larger blocks around it. -/
theorem mod_add_lt_of_le {b' : Nat} (hbb : b ≤ b') {a : Nat} (h : a % 2 ^ b + k < 2 ^ b) : a % 2 ^ b' + k < 2 ^ b' := by
  obtain ⟨c, rfl⟩ := Nat.exists_eq_add_of_le hbb
  rw [pow_add, Nat.mod_mul]
  have hlt : a / 2 ^ b % 2 ^ c < 2 ^ c := Nat.mod_lt _ (Nat.two_pow_pos c)
  have hmul : 2 ^ b * (a / 2 ^ b % 2 ^ c + 1) ≤ 2 ^ b * 2 ^ c := Nat.mul_le_mul_left _ hlt
  rw [Nat.mul_add, Nat.mul_one] at hmul
  omega

section

variable (hb : b ≤ w) (h : a.toNat % 2 ^ b + k < 2 ^ b)

include hb h

theorem toNat_add : (a + ofNat w k).toNat = a.toNat + k := by
  have hlt := mod_add_lt_of_le hb h
  rw [Nat.mod_eq_of_lt a.isLt] at hlt
  rw [BitVec.toNat_add, toNat_ofNat, Nat.mod_eq_of_lt (a := k) (by omega), Nat.mod_eq_of_lt hlt]

theorem mod_add : (a + ofNat w k).toNat % 2 ^ b = a.toNat % 2 ^ b + k := by
  rw [toNat_add hb h, Nat.add_mod, Nat.mod_eq_of_lt (a := k) (by omega), Nat.mod_eq_of_lt h]

theorem base_add : base b (a + ofNat w k) = base b a := by
  apply eq_of_toNat_eq
  rw [toNat_base hb, toNat_base hb, mod_add hb h, toNat_add hb h]
  omega

theorem offset_add : offset b (a + ofNat w k) = offset b a + ofNat w k := by
  have hsum := base_add_offset (b := b) (a + ofNat w k)
  rw [base_add hb h] at hsum
  have hsum' : base b a + (offset b a + ofNat w k) = a + ofNat w k := by
    rw [← BitVec.add_assoc, base_add_offset]
  exact (BitVec.add_right_inj _).1 (hsum.trans hsum'.symm)

end

/-- The low bits of one address under an aligned one. -/
theorem or_offset (hp : base b p = p) (a : BitVec w) : p ||| offset b a = p + offset b a := by
  have hand := base_and_offset p a (b := b)
  rw [hp] at hand
  exact (add_eq_or_of_and_eq_zero _ _ hand).symm

section

variable (hb : b ≤ w) (hp : base b p = p)

include hb hp

/-- An aligned address is a multiple of the length of a block. -/
theorem toNat_mod_of_aligned : p.toNat % 2 ^ b = 0 := by
  have h := toNat_base hb p
  rw [hp] at h
  have hle := Nat.mod_le p.toNat (2 ^ b)
  omega

/-- The low bits of an address in a block. -/
theorem toNat_aligned_add (hk : k < 2 ^ b) : (p + ofNat w k).toNat % 2 ^ b = k := by
  have hmod := toNat_mod_of_aligned hb hp
  rw [mod_add hb (by omega), hmod, Nat.zero_add]

theorem base_aligned_add (hk : k < 2 ^ b) : base b (p + ofNat w k) = p := by
  have hmod := toNat_mod_of_aligned hb hp
  rw [base_add hb (by omega), hp]

end

end S2E.Lib.Align
