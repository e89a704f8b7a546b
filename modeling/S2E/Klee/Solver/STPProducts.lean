import Mathlib.RingTheory.Coprime.Lemmas
import S2E.Klee.Solver.STPTerms

/-!
# Products by constants

Which products `constructMulByConstant` gets right.

* `multDigit` : the places of the sets that `computeMultConstants64` returns, read off the bits of the constant;
  `computeMultConstants64_digit` : these are the places. The rounds keep `DigitInv`;
* `dvd_mul_sub_iff` : a number times a difference of two disjoint sets of bits is a multiple of a power of two only if it
  is one for every single bit.
-/

namespace S2E.Klee

open BitVec (ofNat twoPow)

/-! ## The places of the two sets -/

/-- The bit that is `k` places below `j`. -/
def bitBelow (c : BitVec 64) (k j : Nat) : Bool := decide (k ≤ j) && c.getLsbD (j - k)

/-- A place of one of the two sets: a single one; the first of several ones, unless the zero below it is the end of
several ones; or the zero after several ones. -/
def multDigit (c : BitVec 64) (j : Nat) : Bool :=
  if c.getLsbD j then !bitBelow c 1 j && (!c.getLsbD (j + 1) || !(bitBelow c 2 j && bitBelow c 3 j))
  else bitBelow c 1 j && bitBelow c 2 j

section Digits

variable {c x add sub : BitVec 64} {low high pos : Nat}

theorem bitBelow_of_le {k j : Nat} (h : k ≤ j) : bitBelow c k j = c.getLsbD (j - k) := by
  rw [bitBelow, decide_eq_true h, Bool.true_and]

theorem bitBelow_of_lt {k j : Nat} (h : j < k) : bitBelow c k j = false := by
  rw [bitBelow, decide_eq_false (Nat.not_le.2 h), Bool.false_and]

theorem bitBelow_succ (c : BitVec 64) (k j : Nat) : bitBelow c (k + 1) (j + 1) = bitBelow c k j := by
  simp [bitBelow]

theorem toNat_twoPow_sub (hlt : low < high) (hle : high ≤ 64) :
    (twoPow 64 high - twoPow 64 low).toNat = 2 ^ low * (2 ^ (high - low) - 1) := by
  have hpow : 2 ^ low * 2 ^ (high - low) = 2 ^ high := by rw [← pow_add, Nat.add_sub_cancel' hlt.le]
  have hlow : 2 ^ low < 2 ^ high := Nat.pow_lt_pow_right (by decide) hlt
  have hhigh : 2 ^ high ≤ 2 ^ 64 := Nat.pow_le_pow_right (by decide) hle
  rw [BitVec.toNat_sub, BitVec.toNat_twoPow, BitVec.toNat_twoPow, Nat.mod_eq_of_lt (hlow.trans_le hhigh), Nat.mul_sub,
    hpow, Nat.mul_one, Nat.add_mod_mod]
  have := Nat.two_pow_pos low
  rw [show 2 ^ 64 - 2 ^ low + 2 ^ high = 2 ^ 64 + (2 ^ high - 2 ^ low) by omega, Nat.add_mod_left,
    Nat.mod_eq_of_lt (by omega)]

/-- The bits of a number whose lowest ones are from `low` to `high`. -/
theorem getLsbD_region (hlt : low < high) (hle : high ≤ 64)
    (hrest : ∀ j ≤ high, (x + twoPow 64 low - twoPow 64 high).getLsbD j = false) (i : Nat) :
    x.getLsbD i = ((decide (low ≤ i) && decide (i < high)) || (x + twoPow 64 low - twoPow 64 high).getLsbD i) := by
  have region : ∀ i, (twoPow 64 high - twoPow 64 low).getLsbD i =
      (decide (low ≤ i) && decide (i < high)) := by
    intro i
    rw [← BitVec.testBit_toNat, toNat_twoPow_sub hlt hle, Nat.testBit_two_pow_mul, Nat.testBit_two_pow_sub_one]
    by_cases hi : low ≤ i
    · grind
    · rw [decide_eq_false hi, Bool.false_and, Bool.false_and]
  generalize hy : x + twoPow 64 low - twoPow 64 high = y at hrest ⊢
  have hx : x = (twoPow 64 high - twoPow 64 low) + y := by
    rw [← hy]
    ring
  have disjoint : (twoPow 64 high - twoPow 64 low) &&& y = 0#64 := by
    apply BitVec.eq_of_getLsbD_eq
    intro j _
    rw [BitVec.getLsbD_and, region, BitVec.getLsbD_zero]
    by_cases hj : j ≤ high
    · rw [hrest j hj, Bool.and_false]
    · rw [decide_eq_false (show ¬ j < high by omega), Bool.and_false, Bool.false_and]
  rw [hx, BitVec.add_eq_or_of_and_eq_zero _ _ disjoint, BitVec.getLsbD_or, region]

theorem lowered_iff (h64 : low < 64) : (low ≠ 0 ∧ add &&& (twoPow 64 low >>> 1) ≠ 0) ↔ bitBelow add 1 low = true := by
  by_cases hlow : low = 0
  · simp [hlow, bitBelow]
  · rw [twoPow_shift hlow h64, BitVec.and_twoPow, bitBelow_of_le (by omega)]
    have ne : twoPow 64 (low - 1) ≠ 0 := by
      intro zero
      have bit : (twoPow 64 (low - 1)).getLsbD (low - 1) = true := by grind
      rw [zero] at bit
      simp at bit
    by_cases bit : add.getLsbD (low - 1) = true
    · grind
    · grind

/-- The places of both sets together. Where the zero below the region is in the first set, it goes to the second. -/
theorem MultInv.union (h : MultInv c pos x add sub) (hpos : pos ≤ low) (hlt : low < high) (hle : high ≤ 64) {i : Nat}
    (hi : i < 64) : ((takeRegion low high add sub).1.getLsbD i || (takeRegion low high add sub).2.getLsbD i) =
      (add.getLsbD i || sub.getLsbD i || (decide (low = i) && (decide (high = low + 1) || !bitBelow add 1 low)) ||
        (decide (high = i) && decide (high ≠ low + 1))) := by
  have h64 : low < 64 := by omega
  rw [takeRegion]
  by_cases hone : high = low + 1
  · grind
  rw [if_neg hone]
  have second (a : BitVec 64) : (if high ≠ 64 then a ||| twoPow 64 high else a).getLsbD i =
      (a.getLsbD i || decide (high = i)) := by
    by_cases top : high = 64
    · rw [if_neg (not_not.2 top), decide_eq_false (by omega), Bool.or_false]
    · rw [if_pos top, getLsbD_or_twoPow (by omega)]
  dsimp only
  rw [second]
  by_cases lowered : bitBelow add 1 low = true
  · rw [if_pos ((lowered_iff h64).2 lowered)]
    have hlow : 1 ≤ low := by
      by_contra zero
      rw [bitBelow_of_lt (by omega)] at lowered
      cases lowered
    rw [bitBelow_of_le hlow] at lowered
    rw [twoPow_shift (by omega) h64, getLsbD_xor_twoPow (by omega), getLsbD_xor_twoPow (by omega)]
    by_cases hlast : low - 1 = i
    · subst hlast
      simp [lowered, h.disjoint _ lowered]
    · simp [hlast, hone, bitBelow_of_le hlow, lowered, Bool.or_right_comm]
  · rw [if_neg fun opt => lowered ((lowered_iff h64).1 opt), getLsbD_or_twoPow h64]
    simp [hone, Bool.eq_false_of_not_eq_true lowered, Bool.or_comm, Bool.or_left_comm]

theorem MultInv.add_high (h : MultInv c pos x add sub) (hpos : pos < high) (h64 : high < 64) :
    (takeRegion low high add sub).1.getLsbD high = decide (high ≠ low + 1) := by
  rw [takeRegion]
  by_cases hone : high = low + 1
  · rw [if_pos hone, getLsbD_or_twoPow (by omega), h.add_low high (by omega), decide_eq_false (by omega)]
    simp [hone]
  · grind

/-- What the rounds keep: the bits from `pos` on are left, the one below is a zero, which is in the first set if it is the
end of several ones, and the places below are the ones that `multDigit` says. -/
structure DigitInv (c : BitVec 64) (pos : Nat) (x add sub : BitVec 64) : Prop extends MultInv c pos x add sub where
  same : ∀ i, pos ≤ i → x.getLsbD i = c.getLsbD i
  gap : bitBelow c 1 pos = false
  last : pos ≤ 64 → bitBelow add 1 pos = (bitBelow c 2 pos && bitBelow c 3 pos)
  digit : ∀ j < pos, j < 64 → (add.getLsbD j || sub.getLsbD j) = multDigit c j

theorem DigitInv.init (c : BitVec 64) : DigitInv c 0 c 0 0 where
  toMultInv := MultInv.init c
  same _ _ := rfl
  gap := bitBelow_of_lt Nat.one_pos
  last _ := by rw [bitBelow_of_lt Nat.one_pos, bitBelow_of_lt Nat.two_pos, Bool.false_and]
  digit j hj := absurd hj (Nat.not_lt_zero j)

/-- The bits of the constant around the region. -/
structure Region (c : BitVec 64) (pos low high : Nat) : Prop where
  pos_le : pos ≤ low
  lt : low < high
  le : high ≤ 64
  gap : bitBelow c 1 pos = false
  below : ∀ j, pos ≤ j → j < low → c.getLsbD j = false
  ones : ∀ j, low ≤ j → j < high → c.getLsbD j = true
  zero : c.getLsbD high = false

theorem DigitInv.region (h : DigitInv c pos x add sub) (hpos : pos ≤ low) (hlt : low < high) (hle : high ≤ 64)
    (hrest : ∀ j ≤ high, (x + twoPow 64 low - twoPow 64 high).getLsbD j = false) :
    Region c pos low high := by
  have bits := getLsbD_region hlt hle hrest
  refine ⟨hpos, hlt, hle, h.gap, fun j hj hjl => ?_, fun j hj hjh => ?_, ?_⟩
  · rw [← h.same j hj, bits, hrest j (by omega), decide_eq_false (by omega), Bool.false_and, Bool.false_or]
  · rw [← h.same j (by omega), bits, decide_eq_true hj, decide_eq_true hjh, Bool.true_and, Bool.true_or]
  · rw [← h.same high (by omega), bits, hrest high le_rfl, decide_eq_false (lt_irrefl high), Bool.and_false,
      Bool.or_false]

/-- No one is right below a place from `pos` up to the region. -/
theorem Region.gap_le (h : Region c pos low high) {j : Nat} (hj : pos ≤ j) (hjl : j ≤ low) : bitBelow c 1 j = false := by
  by_cases hp : j = pos
  · rw [hp]
    exact h.gap
  · rw [bitBelow_of_le (by omega)]
    exact h.below _ (by omega) (by omega)

/-- The places from `pos` to the end of the region. -/
theorem Region.digit (h : Region c pos low high) {j : Nat} (hj : pos ≤ j) (hjh : j ≤ high) :
    multDigit c j = ((decide (low = j) && (decide (high = low + 1) || !(bitBelow c 2 low && bitBelow c 3 low))) ||
      (decide (high = j) && decide (high ≠ low + 1))) := by
  have ⟨hpos, hlt, hle, _, below, ones, zero⟩ := h
  rw [multDigit]
  rcases lt_trichotomy j low with before | rfl | after
  · rw [below j hj before, if_neg Bool.false_ne_true, h.gap_le hj before.le]
    simp [before.ne', (before.trans hlt).ne']
  · rw [ones j le_rfl hlt, if_pos rfl, h.gap_le hj le_rfl]
    by_cases hone : high = j + 1
    · grind
    · grind
  · have prev : bitBelow c 1 j = true := by
      rw [bitBelow_of_le (by omega)]
      exact ones _ (by omega) (by omega)
    rw [prev]
    by_cases hend : j = high
    · subst hend
      rw [zero, if_neg Bool.false_ne_true]
      by_cases hone : j = low + 1
      · rw [hone, bitBelow_succ, h.gap_le hpos le_rfl]
        simp
      · rw [bitBelow_of_le (by omega), ones _ (by omega) (by omega)]
        simp [hone, after.ne]
    · grind

/-- The zero below the region is in the first set if it is the end of several ones. -/
theorem DigitInv.last_low (h : DigitInv c pos x add sub) (hr : Region c pos low high) :
    bitBelow add 1 low = (bitBelow c 2 low && bitBelow c 3 low) := by
  have ⟨hpos, hlt, hle, _, _, _, _⟩ := hr
  by_cases hp : low = pos
  · rw [hp]
    exact h.last (by omega)
  · obtain ⟨k, rfl⟩ : ∃ k, low = k + 1 := ⟨low - 1, by omega⟩
    rw [bitBelow_of_le (by omega), h.add_low _ (by omega), bitBelow_succ, hr.gap_le (by omega) (by omega), Bool.false_and]

theorem DigitInv.step (h : DigitInv c pos x add sub) (hx : x ≠ 0) :
    ∃ pos' > pos, DigitInv c pos' (multStep x add sub).1 (multStep x add sub).2.1 (multStep x add sub).2.2 := by
  obtain ⟨low, high, hlt, hle, hlow, hstep, hrest⟩ := multStep_eq hx add sub
  have hpos := h.pos_le hlow
  have hr := h.region hpos hlt hle hrest
  rw [hstep]
  refine ⟨high + 1, by omega, h.afterRegion hpos hlt hle hrest, fun i hi => ?_, ?_, fun h64 => ?_, fun j hj h64 => ?_⟩
  · rw [← h.same i (by omega), getLsbD_region hlt hle hrest i, decide_eq_false (show ¬ i < high by omega), Bool.and_false,
      Bool.false_or]
  · rw [bitBelow_of_le (by omega)]
    exact hr.zero
  · rw [bitBelow_of_le (by omega), Nat.add_sub_cancel, h.add_high (by omega) (by omega), bitBelow_succ, bitBelow_succ,
      bitBelow_of_le (by omega), hr.ones _ (by omega) (by omega), Bool.true_and]
    -- several ones, or a single one after a zero
    by_cases hone : high = low + 1
    · rw [hone, bitBelow_succ, hr.gap_le hpos le_rfl]
      simp
    · rw [bitBelow_of_le (by omega), hr.ones _ (by omega) (by omega), decide_eq_true hone]
  · rw [h.union hpos hlt hle h64]
    by_cases done : j < pos
    · rw [h.digit j done h64, decide_eq_false (show ¬ low = j by omega), decide_eq_false (show ¬ high = j by omega)]
      simp
    · rw [h.add_low j (by omega), h.sub_low j (by omega), hr.digit (by omega) (by omega), h.last_low hr]
      simp

/-- The places of the two sets. -/
theorem computeMultConstants64_digit {c add sub : BitVec 64} (h : computeMultConstants64 c = .ok (add, sub)) {j : Nat}
    (hj : j < 64) : (add.getLsbD j || sub.getLsbD j) = multDigit c j := by
  obtain ⟨pos, inv⟩ := multLoop_induct (n := 64) (fun h => h.rest) DigitInv.step (DigitInv.init c) (by omega)
  have result : multLoop 64 c 0 0 = (add, sub) := by
    unfold computeMultConstants64 at h
    dsimp only at h
    split at h
    · exact Except.ok.inj h
    · cases h
  rw [result] at inv
  by_cases done : j < pos
  · exact inv.digit j done hj
  · -- nothing is left from `pos` on
    have none (i : Nat) (hi : pos ≤ i) : c.getLsbD i = false := by
      rw [← inv.same i hi]
      exact BitVec.getLsbD_zero
    have prev : bitBelow c 1 j = false := by
      by_cases hp : j = pos
      · rw [hp]
        exact inv.gap
      · rw [bitBelow_of_le (by omega)]
        exact none _ (by omega)
    rw [inv.add_low j (by omega), inv.sub_low j (by omega), multDigit, none j (by omega), prev]
    rfl

end Digits

/-! ## Differences of sets of bits -/

theorem isCoprime_two_pow {e : Int} (w : Nat) (h : e % 2 = 1) : IsCoprime ((2 : Int) ^ w) e := by
  apply IsCoprime.pow_left
  exact ⟨-(e / 2), 1, by omega⟩

theorem dvd_mul_sub_iff (w : Nat) {a s : Nat} (disjoint : ∀ k, a.testBit k = true → s.testBit k = false) (v : Int) :
    (2 : Int) ^ w ∣ v * (a - s) ↔ ∀ k, (a.testBit k || s.testBit k) = true → (2 : Int) ^ w ∣ v * 2 ^ k := by
  induction n : a + s using Nat.strong_induction_on generalizing a s v with
  | _ n ih =>
    by_cases both : a % 2 = 0 ∧ s % 2 = 0
    · by_cases zero : a + s = 0
      · obtain ⟨rfl, rfl⟩ : a = 0 ∧ s = 0 := by omega
        simp
      · -- no bit at place zero: half of both
        have halves := ih (a / 2 + s / 2) (by omega) (a := a / 2) (s := s / 2)
          (fun k hk => by rw [Nat.testBit_div_two] at hk ⊢; exact disjoint (k + 1) hk) (v * 2) rfl
        have twice : v * 2 * ((a / 2 : Nat) - (s / 2 : Nat)) = v * (a - s) := by
          have ha : (a : Int) = 2 * (a / 2 : Nat) := by omega
          have hs : (s : Int) = 2 * (s / 2 : Nat) := by omega
          rw [ha, hs]
          ring
        rw [twice] at halves
        rw [halves]
        constructor
        · intro h k hk
          cases k with
          | zero =>
            rw [Nat.testBit_zero, Nat.testBit_zero, both.1, both.2] at hk
            cases hk
          | succ k =>
            rw [Nat.testBit_succ, Nat.testBit_succ] at hk
            have := h k hk
            rwa [mul_assoc, ← pow_succ'] at this
        · intro h k hk
          rw [← Nat.testBit_succ, ← Nat.testBit_succ] at hk
          have := h (k + 1) hk
          rwa [pow_succ', ← mul_assoc] at this
    · -- a bit at place zero of one of them: the difference is odd
      have one : (a.testBit 0 || s.testBit 0) = true := by
        rw [Nat.testBit_zero, Nat.testBit_zero, Bool.or_eq_true, decide_eq_true_eq, decide_eq_true_eq]
        omega
      have odd : ((a : Int) - s) % 2 = 1 := by
        have := disjoint 0
        rw [Nat.testBit_zero, Nat.testBit_zero, decide_eq_true_eq, decide_eq_false_iff_not] at this
        omega
      constructor
      · intro h k _
        exact Dvd.dvd.mul_right ((isCoprime_two_pow w odd).dvd_of_dvd_mul_right h) _
      · intro h
        have := h 0 one
        rw [pow_zero, mul_one] at this
        exact Dvd.dvd.mul_right this _

/-! ## The product -/

namespace STPBuilder

open S2E.Stp S2E.Lib

theorem bitSum_add (bits : BitVec 64) (sb q : Nat) {m : Nat} (hm : m ≤ 2 ^ sb) :
    bitSum bits sb (2 ^ sb * q + m) = bitSum bits sb (2 ^ sb * q) + bits.toNat / 2 ^ (2 ^ sb * q) % 2 ^ m := by
  induction m with
  | zero => rw [Nat.add_zero, pow_zero, Nat.mod_one, Nat.add_zero]
  | succ m ih =>
    have hbit : (bits.getLsbD (2 ^ sb * q + m)).toNat = bits.toNat / 2 ^ (2 ^ sb * q) / 2 ^ m % 2 := by
      rw [Nat.div_div_eq_div_mul, ← pow_add]
      exact Nat.toNat_testBit bits.toNat _
    rw [← Nat.add_assoc, bitSum_succ, ih (by omega), Nat.mod_pow_succ, ← hbit, Nat.mul_add_mod,
      Nat.mod_eq_of_lt (show m < 2 ^ sb by omega), Nat.add_assoc]
    congr 2
    cases bits.getLsbD (2 ^ sb * q + m) <;> simp

/-- With five bits of an amount, the upper half of the places counts as the lower one. -/
theorem bitSum_five (bits : BitVec 64) : bitSum bits 5 64 = bits.toNat % 2 ^ 32 + bits.toNat / 2 ^ 32 := by
  have upper := bitSum_add bits 5 1 (m := 32) (by decide)
  have lower := bitSum_add bits 5 0 (m := 32) (by decide)
  rw [show 2 ^ 5 * 1 + 32 = 64 by norm_num, show 2 ^ 5 * 1 = 32 by norm_num] at upper
  rw [show 2 ^ 5 * 0 + 32 = 32 by norm_num, show 2 ^ 5 * 0 = 0 by norm_num, bitSum, pow_zero, Nat.div_one,
    Nat.zero_add] at lower
  rw [upper, lower, Nat.mod_eq_of_lt (show bits.toNat / 2 ^ 32 < 2 ^ 32 by omega)]

variable {ρ : Array → BitVec 32 → BitVec 8} {t : Term} {w : Nat} {v : BitVec w}

theorem mul_sub_eq_iff (v : BitVec w) (a b c d : Nat) : v * (ofNat w a - ofNat w b) = v * (ofNat w c - ofNat w d) ↔
      (2 : Int) ^ w ∣ v.toNat * ((c - d) - (a - b) : Int) := by
  have sums : v * (ofNat w a - ofNat w b) = v * (ofNat w c - ofNat w d) ↔
      v * ofNat w a + v * ofNat w d = v * ofNat w c + v * ofNat w b := by
    constructor
    · grind
    · grind
  have number (m n : Nat) :
      (v * ofNat w m + v * ofNat w n).toNat = (v.toNat * m + v.toNat * n) % 2 ^ w := by
    rw [BitVec.toNat_add, BitVec.toNat_mul, BitVec.toNat_mul, BitVec.toNat_ofNat, BitVec.toNat_ofNat, Nat.mul_mod_mod,
      Nat.mul_mod_mod, ← Nat.add_mod]
  rw [sums, ← BitVec.toNat_inj, number, number]
  have modeq := Nat.modEq_iff_dvd (n := 2 ^ w) (a := v.toNat * a + v.toNat * d) (b := v.toNat * c + v.toNat * b)
  rw [Nat.ModEq] at modeq
  rw [modeq]
  push_cast
  ring_nf

theorem shiftLeft_eq_zero_iff (v : BitVec w) (k : Nat) : v <<< k = 0 ↔ (2 : Int) ^ w ∣ v.toNat * 2 ^ k := by
  rw [← BitVec.toNat_inj, BitVec.toNat_shiftLeft, Nat.shiftLeft_eq]
  show _ % 2 ^ w = 0 ↔ _
  rw [← Nat.dvd_iff_mod_eq_zero, ← Int.natCast_dvd_natCast]
  push_cast
  rfl

theorem testBit_upper (x : BitVec 64) (h64 : w ≤ 64) (k : Nat) :
    ((Bits64.truncateToNBits x w).toNat / 2 ^ 32).testBit k = (x.getLsbD (k + 32) && decide (k + 32 < w)) := by
  rw [Nat.testBit_div_two_pow, BitVec.testBit_toNat, Nat.add_comm, getLsbD_truncateToNBits x h64]

/-- Which operands are multiplied with the right number. -/
theorem mul_multiplier_iff (h32 : 32 < w) (h64 : w < 64) (x : BitVec 64) (v : BitVec w) :
    v * multiplier w x = v * x.setWidth w ↔
      ∀ j, 32 ≤ j → j < w → multDigit x j = true → v <<< (j - 32) = 0 := by
  obtain ⟨add, sub, hconst, hdiff, hdisjoint⟩ := computeMultConstants64_ok x
  have shiftBits : getShiftBits w = 5 := if_neg h64.ne
  unfold multiplier
  rw [hconst]
  dsimp only
  rw [shiftBits, bitSum_five, bitSum_five, setWidth_of_sub h64.le hdiff, ← ofNat_truncateToNBits add h64.le,
    ← ofNat_truncateToNBits sub h64.le, mul_sub_eq_iff]
  have upperAdd := testBit_upper add h64.le
  have upperSub := testBit_upper sub h64.le
  generalize (Bits64.truncateToNBits add w).toNat = a at upperAdd ⊢
  generalize (Bits64.truncateToNBits sub w).toNat = s at upperSub ⊢
  -- the places from 32 on count 2 ^ 32 - 1 times too little
  have missing : (v.toNat : Int) * ((a - s) - (((a % 2 ^ 32 + a / 2 ^ 32 : Nat) : Int) - (s % 2 ^ 32 + s / 2 ^ 32 : Nat))) =
      v.toNat * ((a / 2 ^ 32 : Nat) - (s / 2 ^ 32 : Nat)) * (2 ^ 32 - 1) := by grind
  have coprime : IsCoprime ((2 : Int) ^ w) (2 ^ 32 - 1) := isCoprime_two_pow w (by decide)
  have cancel : (2 : Int) ^ w ∣ v.toNat * ((a / 2 ^ 32 : Nat) - (s / 2 ^ 32 : Nat)) * (2 ^ 32 - 1) ↔
      (2 : Int) ^ w ∣ v.toNat * ((a / 2 ^ 32 : Nat) - (s / 2 ^ 32 : Nat)) :=
    ⟨coprime.dvd_of_dvd_mul_right, fun h => h.mul_right _⟩
  have disjoint : ∀ k, (a / 2 ^ 32).testBit k = true → (s / 2 ^ 32).testBit k = false := by grind
  rw [missing, cancel, dvd_mul_sub_iff w disjoint]
  have digit (k : Nat) (hk : k + 32 < w) :
      ((a / 2 ^ 32).testBit k || (s / 2 ^ 32).testBit k) = multDigit x (k + 32) := by
    rw [upperAdd, upperSub, decide_eq_true hk, Bool.and_true, Bool.and_true,
      computeMultConstants64_digit hconst (by omega)]
  constructor
  · intro h j hj hjw hd
    rw [shiftLeft_eq_zero_iff]
    apply h
    rw [digit _ (by omega), Nat.sub_add_cancel hj, hd]
  · intro h k hk
    have hkw : k + 32 < w := by
      by_contra out
      rw [upperAdd, upperSub, decide_eq_false out] at hk
      simp at hk
    rw [digit k hkw] at hk
    have := h (k + 32) (by omega) hkw hk
    rwa [Nat.add_sub_cancel, shiftLeft_eq_zero_iff] at this

/-- The constants are a difference of disjoint sets of bits, and no assertion fails. The term is the product if and only
if no shift of the operand wraps around, except for the ones that leave nothing of it. -/
theorem constructMulByConstant_iff (h2 : 2 ≤ w) (h64 : w ≤ 64) (x : BitVec 64) (h : t.Is ρ v) :
    (∃ add sub, computeMultConstants64 x = .ok (add, sub) ∧ add &&& sub = 0 ∧ add - sub = x) ∧
    ∃ p r, constructMulByConstant t w x = .ok p ∧ p.Is ρ r ∧
      (r = v * x.setWidth w ↔ w ≤ 32 ∨ w = 64 ∨ ∀ j, 32 ≤ j → j < w → multDigit x j = true → v <<< (j - 32) = 0) := by
  constructor
  · obtain ⟨add, sub, hconst, hdiff, hdisjoint⟩ := computeMultConstants64_ok x
    refine ⟨add, sub, hconst, ?_, hdiff⟩
    apply BitVec.eq_of_getLsbD_eq
    intro i _
    rw [BitVec.getLsbD_and]
    by_cases hi : add.getLsbD i = true
    · grind
    · grind
  · obtain ⟨p, done, hp⟩ := constructMulByConstant_is h (by omega) h64 x
    refine ⟨p, _, done, hp, ?_⟩
    by_cases wide : w ≤ 32 ∨ w = 64
    · have fits : w ≤ 2 ^ getShiftBits w := by
        rw [getShiftBits]
        split <;> omega
      rw [multiplier_eq h64 fits]
      exact ⟨fun _ => wide.imp_right .inl, fun _ => rfl⟩
    · rw [mul_multiplier_iff (by omega) (by omega), ← or_assoc]
      exact ⟨.inr, fun h => h.resolve_left wide⟩

theorem constructMulByConstant_seven : ∃ p r, constructMulByConstant (bvOne 8) 8 7 = .ok p ∧
    p.Is (fun _ _ => 0) r ∧ r = (1 : BitVec 8) * 7 := by
  have one : (bvOne 8).Is (fun _ _ => 0) (1 : BitVec 8) := bvOne_is (by decide)
  obtain ⟨-, p, r, done, hr, correct⟩ := constructMulByConstant_iff (by decide) (by decide) 7 one
  exact ⟨p, r, done, hr, correct.2 (.inl (by decide))⟩

/-- The shift by 32 bits, at width 40, is taken as no shift. -/
theorem constructMulByConstant_wraps : ∃ p, constructMulByConstant (bvOne 40) 40 0x100000000 = .ok p ∧
    p.Is (fun _ _ => 0) (1 : BitVec 40) ∧ (1 : BitVec 40) * (0x100000000 : BitVec 64).setWidth 40 ≠ 1 :=
  ⟨_, rfl, rfl, by decide⟩

end STPBuilder

end S2E.Klee
