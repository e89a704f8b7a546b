import S2E.Klee.Util.Bits
import S2E.Lib.MagicDivision

/-!
# Constants for products and quotients by constants

`ConstantDivision.cpp`.

* `computeMultConstants64` : a constant as a difference of two sets of bits;
* `computeUDivConstants32`, `computeSDivConstants32` : a divisor as a multiplier and shifts.

A shift by the width of the word, which `exp_base_2` does for a result of zero, gives zero here.
-/

namespace S2E.Klee
open BitVec
open BitVec (ofNat twoPow)

/-! ## `ComputeMultConstants64` -/

/-- The body of the loop, for the part `x` that is left of the multiplicand. -/
def multStep (x add sub : BitVec 64) : BitVec 64 × BitVec 64 × BitVec 64 :=
  let low := Bits64.indexOfRightmostBit x
  let lowbit := twoPow 64 low
  let p := x + lowbit
  let q := Bits64.isolateRightmostBit p
  let high := if q ≠ 0 then Bits64.indexOfSingleBit q else 64
  if high = low + 1 then (p ^^^ q, add ||| lowbit, sub)
  else
    -- `+(1 << x) - (1 << (x + 1))` becomes `-(1 << x)`.
    let r := if low ≠ 0 ∧ add &&& (lowbit >>> 1) ≠ 0 then (add ^^^ lowbit >>> 1, sub ^^^ lowbit >>> 1)
      else (add, sub ||| lowbit)
    (p ^^^ q, if high ≠ 64 then r.1 ||| twoPow 64 high else r.1, r.2)

def multLoop : Nat → BitVec 64 → BitVec 64 → BitVec 64 → BitVec 64 × BitVec 64
  | 0, _, add, sub => (add, sub)
  | n + 1, x, add, sub =>
    if x = 0 then (add, sub)
    else multLoop n (multStep x add sub).1 (multStep x add sub).2.1 (multStep x add sub).2.2

/-- The loop ends before 64 rounds. -/
def computeMultConstants64 (multiplicand : BitVec 64) : Except Trap (BitVec 64 × BitVec 64) :=
  let r := multLoop 64 multiplicand 0 0
  if multiplicand = r.1 - r.2 then return r else throw .assertFailed

section Mult

variable {c x add sub a b : BitVec 64} {k low high pos : Nat}

theorem twoPow_succ (k : Nat) : twoPow 64 (k + 1) = twoPow 64 k + twoPow 64 k := by
  apply eq_of_toNat_eq
  rw [toNat_add, toNat_twoPow, toNat_twoPow, ← Nat.add_mod, pow_succ, Nat.mul_two]

theorem or_twoPow (h : a.getLsbD k = false) : a ||| twoPow 64 k = a + twoPow 64 k := by
  refine (add_eq_or_of_and_eq_zero a _ ?_).symm
  rw [and_twoPow, h]
  rfl

theorem xor_twoPow_of_clear (h : a.getLsbD k = false) : a ^^^ twoPow 64 k = a + twoPow 64 k := by
  rw [← or_twoPow h]
  apply eq_of_getLsbD_eq
  intro i hi
  rw [getLsbD_xor, getLsbD_or, getLsbD_twoPow]
  by_cases hik : k = i
  · grind
  · simp [hik]

theorem xor_twoPow_of_set (h : a.getLsbD k = true) : a ^^^ twoPow 64 k = a - twoPow 64 k := by
  have hclear : (a ^^^ twoPow 64 k).getLsbD k = false := by grind
  have hback := xor_twoPow_of_clear hclear
  rw [xor_assoc, BitVec.xor_self, xor_zero] at hback
  exact eq_sub_of_add_eq hback.symm

theorem isolateRightmostBit_of_odd {m : Nat} (hm : m % 2 = 1) (h : x.toNat = 2 ^ k * m) :
    x.getLsbD k = true ∧ Bits64.isolateRightmostBit x = twoPow 64 k := by
  have hbit : ∀ j, x.getLsbD j = (decide (k ≤ j) && m.testBit (j - k)) := fun j => by
    rw [← testBit_toNat, h, Nat.testBit_two_pow_mul]
  have hk : x.getLsbD k = true := by grind
  refine ⟨hk, Bits64.isolateRightmostBit_eq hk fun j hj => ?_⟩
  rw [hbit, decide_eq_false (Nat.not_le.2 hj), Bool.false_and]

theorem exists_region (hx : x ≠ 0) : ∃ low high, low < high ∧ high ≤ 64 ∧ x.getLsbD low = true ∧
    Bits64.isolateRightmostBit x = twoPow 64 low ∧
    Bits64.isolateRightmostBit (x + twoPow 64 low) = twoPow 64 high ∧
    (x + twoPow 64 low) ^^^ twoPow 64 high = x + twoPow 64 low - twoPow 64 high ∧
    ∀ j ≤ high, ((x + twoPow 64 low) ^^^ twoPow 64 high).getLsbD j = false := by
  have hx' : x.toNat ≠ 0 := fun h => hx (eq_of_toNat_eq h)
  obtain ⟨low, m, hm, hxm⟩ := Nat.exists_eq_two_pow_mul_odd hx'
  obtain ⟨hlow, hisolate⟩ := isolateRightmostBit_of_odd (Nat.odd_iff.1 hm) hxm
  have hlow64 : low < 64 := lt_of_getLsbD hlow
  obtain ⟨j, m', hm', hmj⟩ := Nat.exists_eq_two_pow_mul_odd (Nat.succ_ne_zero m)
  have hj : 0 < j := by grind
  have hsum : x.toNat + 2 ^ low = 2 ^ (low + j) * m' := by grind
  -- A multiple of `2 ^ low` is at least `2 ^ low` away from the next power.
  have hdvd : 2 ^ low ∣ 2 ^ 64 := pow_dvd_pow 2 hlow64.le
  have hle : x.toNat + 2 ^ low ≤ 2 ^ 64 := by
    obtain ⟨z, hz⟩ := hdvd
    have hlt := x.isLt
    rw [hxm, hz] at hlt
    rw [hxm, hz, ← Nat.mul_succ]
    exact Nat.mul_le_mul_left _ (Nat.lt_of_mul_lt_mul_left hlt)
  have hp : (x + twoPow 64 low).toNat = 2 ^ (low + j) * m' % 2 ^ 64 := by
    rw [toNat_add, toNat_twoPow, Nat.add_mod_mod, hsum]
  by_cases hover : 2 ^ (low + j) * m' < 2 ^ 64
  · rw [Nat.mod_eq_of_lt hover] at hp
    obtain ⟨hhigh, hisolate'⟩ := isolateRightmostBit_of_odd (Nat.odd_iff.1 hm') hp
    refine ⟨low, low + j, by omega, (lt_of_getLsbD hhigh).le, hlow, hisolate, hisolate',
      xor_twoPow_of_set hhigh, fun i hi => ?_⟩
    rw [getLsbD_xor, getLsbD_twoPow]
    by_cases hij : i = low + j
    · grind
    · rw [← testBit_toNat, hp, Nat.testBit_two_pow_mul]
      have hlt : ¬ low + j ≤ i := by omega
      have hne : ¬ low + j = i := by omega
      simp [hlt, hne]
  · -- The region goes up to the highest bit.
    have heq : 2 ^ (low + j) * m' = 2 ^ 64 := by omega
    rw [heq, Nat.mod_self] at hp
    have hzero : x + twoPow 64 low = 0 := eq_of_toNat_eq hp
    have htop : twoPow 64 64 = 0 := by decide
    refine ⟨low, 64, hlow64, le_rfl, hlow, hisolate, ?_, ?_, fun i _ => ?_⟩
    · rw [hzero, htop]
      rfl
    · rw [hzero, htop]
      rfl
    · grind

/-- What the loop keeps, when the bits below `pos` are done. -/
structure MultInv (c : BitVec 64) (pos : Nat) (x add sub : BitVec 64) : Prop where
  sum : add - sub + x = c
  disjoint : ∀ i, add.getLsbD i = true → sub.getLsbD i = false
  add_low : ∀ i, pos ≤ i → add.getLsbD i = false
  sub_low : ∀ i, pos ≤ i → sub.getLsbD i = false
  rest : ∀ i < pos, x.getLsbD i = false

theorem getLsbD_or_twoPow {i : Nat} (hk : k < 64) :
    (a ||| twoPow 64 k).getLsbD i = (a.getLsbD i || decide (k = i)) := by
  rw [getLsbD_or, getLsbD_twoPow, decide_eq_true hk, Bool.true_and]

theorem getLsbD_xor_twoPow {i : Nat} (hk : k < 64) :
    (a ^^^ twoPow 64 k).getLsbD i = (a.getLsbD i ^^ decide (k = i)) := by
  rw [getLsbD_xor, getLsbD_twoPow, decide_eq_true hk, Bool.true_and]

theorem twoPow_shift (hlow : low ≠ 0) (h64 : low < 64) : twoPow 64 low >>> 1 = twoPow 64 (low - 1) := by
  apply eq_of_getLsbD_eq
  intro i hi
  rw [getLsbD_ushiftRight, getLsbD_twoPow, getLsbD_twoPow, decide_eq_true h64,
    decide_eq_true (show low - 1 < 64 by omega), Bool.true_and, Bool.true_and]
  exact decide_eq_decide.2 (by omega)

/-- A round that takes a region of more than one bit: the two sets after the subtraction of its lowest bit. -/
theorem MultInv.subtract (h : MultInv c pos x add sub) (hpos : pos ≤ low) (h64 : low < 64) :
    ∃ add' sub', (if low ≠ 0 ∧ add &&& (twoPow 64 low >>> 1) ≠ 0 then
        (add ^^^ twoPow 64 low >>> 1, sub ^^^ twoPow 64 low >>> 1)
        else (add, sub ||| twoPow 64 low)) = (add', sub') ∧
      add' - sub' = add - sub - twoPow 64 low ∧
      (∀ i, add'.getLsbD i = true → sub'.getLsbD i = false) ∧
      (∀ i, low < i → add'.getLsbD i = false) ∧ add'.getLsbD low = false ∧ ∀ i, low < i → sub'.getLsbD i = false := by
  by_cases hopt : low ≠ 0 ∧ add &&& (twoPow 64 low >>> 1) ≠ 0
  · rw [if_pos hopt]
    obtain ⟨hne, hand⟩ := hopt
    rw [twoPow_shift hne h64, and_twoPow] at hand
    have hset : add.getLsbD (low - 1) = true := by grind
    have hclear := h.disjoint _ hset
    refine ⟨_, _, rfl, ?_, fun i hi => ?_, fun i hi => ?_, ?_, fun i hi => ?_⟩
    · have hdouble := twoPow_succ (low - 1)
      rw [Nat.sub_add_cancel (Nat.pos_of_ne_zero hne)] at hdouble
      rw [twoPow_shift hne h64, xor_twoPow_of_set hset, xor_twoPow_of_clear hclear, hdouble]
      ring
    · rw [twoPow_shift hne h64, getLsbD_xor_twoPow (by omega)] at hi ⊢
      by_cases hi' : low - 1 = i
      · grind
      · rw [decide_eq_false hi', Bool.xor_false] at hi ⊢
        exact h.disjoint i hi
    · rw [twoPow_shift hne h64, getLsbD_xor_twoPow (by omega), h.add_low i (by omega),
        decide_eq_false (by omega), Bool.xor_false]
    · rw [twoPow_shift hne h64, getLsbD_xor_twoPow (by omega), h.add_low low hpos, decide_eq_false (by omega),
        Bool.xor_false]
    · rw [twoPow_shift hne h64, getLsbD_xor_twoPow (by omega), h.sub_low i (by omega),
        decide_eq_false (by omega), Bool.xor_false]
  · rw [if_neg hopt]
    refine ⟨_, _, rfl, ?_, fun i hi => ?_, fun i hi => h.add_low i (by omega), h.add_low low hpos, fun i hi => ?_⟩
    · rw [or_twoPow (h.sub_low low hpos)]
      ring
    · have hne : low ≠ i := by
        rintro rfl
        rw [h.add_low low hpos] at hi
        cases hi
      rw [getLsbD_or_twoPow h64, h.disjoint i hi, decide_eq_false hne, Bool.or_false]
    · rw [getLsbD_or_twoPow h64, h.sub_low i (by omega), decide_eq_false (by omega), Bool.or_false]

/-- The two sets after a round that takes the region from `low` to `high`. -/
def takeRegion (low high : Nat) (add sub : BitVec 64) : BitVec 64 × BitVec 64 :=
  let lowbit := twoPow 64 low
  if high = low + 1 then (add ||| lowbit, sub)
  else
    let r := if low ≠ 0 ∧ add &&& (lowbit >>> 1) ≠ 0 then (add ^^^ lowbit >>> 1, sub ^^^ lowbit >>> 1)
      else (add, sub ||| lowbit)
    (if high ≠ 64 then r.1 ||| twoPow 64 high else r.1, r.2)

theorem multStep_eq (hx : x ≠ 0) (add sub : BitVec 64) : ∃ low high, low < high ∧ high ≤ 64 ∧ x.getLsbD low = true ∧
    multStep x add sub = (x + twoPow 64 low - twoPow 64 high, takeRegion low high add sub) ∧
    ∀ j ≤ high, (x + twoPow 64 low - twoPow 64 high).getLsbD j = false := by
  obtain ⟨low, high, hlt, hle, hlow, hisolate, hisolate', hxor, hrest⟩ := exists_region hx
  have h64 : low < 64 := by omega
  have hindex : Bits64.indexOfRightmostBit x = low := by
    unfold Bits64.indexOfRightmostBit
    rw [hisolate, Bits64.indexOfSingleBit_twoPow h64]
  have hhigh : (if twoPow 64 high ≠ 0 then Bits64.indexOfSingleBit (twoPow 64 high) else 64) = high := by
    by_cases h64' : high = 64
    · subst h64'
      decide
    · have hne : twoPow 64 high ≠ 0 := by
        intro hzero
        have hbit : (twoPow 64 high).getLsbD high = true := by grind
        rw [hzero] at hbit
        simp at hbit
      rw [if_pos hne, Bits64.indexOfSingleBit_twoPow (by omega)]
  rw [hxor] at hrest
  refine ⟨low, high, hlt, hle, hlow, ?_, hrest⟩
  unfold multStep takeRegion
  simp only [hindex, hisolate', hhigh, hxor]
  by_cases hone : high = low + 1
  · rw [if_pos hone, if_pos hone]
  · rw [if_neg hone, if_neg hone]

section

variable (h : MultInv c pos x add sub)

include h

theorem MultInv.afterRegion (hpos : pos ≤ low) (hlt : low < high) (hle : high ≤ 64)
    (hrest : ∀ j ≤ high, (x + twoPow 64 low - twoPow 64 high).getLsbD j = false) :
    MultInv c (high + 1) (x + twoPow 64 low - twoPow 64 high) (takeRegion low high add sub).1
      (takeRegion low high add sub).2 := by
  have h64 : low < 64 := by omega
  rw [takeRegion]
  by_cases hone : high = low + 1
  · rw [if_pos hone]
    refine ⟨?_, fun i hi => ?_, fun i hi => ?_, fun i hi => h.sub_low i (by omega), fun i hi => hrest i (by omega)⟩
    · rw [or_twoPow (h.add_low low hpos), hone, twoPow_succ, ← h.sum]
      ring
    · rw [getLsbD_or_twoPow h64, Bool.or_eq_true, decide_eq_true_eq] at hi
      rcases hi with hi | rfl
      · exact h.disjoint i hi
      · exact h.sub_low low hpos
    · rw [getLsbD_or_twoPow h64, h.add_low i (by omega), decide_eq_false (by omega), Bool.or_false]
  · rw [if_neg hone]
    obtain ⟨add', sub', hpair, hdiff, hdisjoint, hadd, haddlow, hsub⟩ := h.subtract hpos h64
    rw [hpair]
    dsimp only
    by_cases h64' : high = 64
    · rw [if_neg (not_not.2 h64')]
      refine ⟨?_, hdisjoint, fun i hi => hadd i (by omega), fun i hi => hsub i (by omega),
        fun i hi => hrest i (by omega)⟩
      have htop : twoPow 64 high = 0 := by
        rw [h64']
        decide
      rw [hdiff, htop, ← h.sum]
      ring
    · rw [if_pos h64']
      have hclear : add'.getLsbD high = false := hadd high (by omega)
      refine ⟨?_, fun i hi => ?_, fun i hi => ?_, fun i hi => hsub i (by omega), fun i hi => hrest i (by omega)⟩
      · rw [or_twoPow hclear, ← h.sum]
        linear_combination hdiff
      · rw [getLsbD_or_twoPow (by omega), Bool.or_eq_true, decide_eq_true_eq] at hi
        rcases hi with hi | rfl
        · exact hdisjoint i hi
        · exact hsub high (by omega)
      · rw [getLsbD_or_twoPow (by omega), hadd i (by omega), decide_eq_false (by omega), Bool.or_false]

theorem MultInv.pos_le (hlow : x.getLsbD low = true) : pos ≤ low := by
  by_contra hgt
  rw [h.rest low (by omega)] at hlow
  cases hlow

theorem MultInv.step (hx : x ≠ 0) :
    ∃ pos' > pos, MultInv c pos' (multStep x add sub).1 (multStep x add sub).2.1 (multStep x add sub).2.2 := by
  obtain ⟨low, high, hlt, hle, hlow, hstep, hrest⟩ := multStep_eq hx add sub
  have hpos := h.pos_le hlow
  rw [hstep]
  exact ⟨high + 1, by omega, h.afterRegion hpos hlt hle hrest⟩

end

/-- What every round keeps, with more bits done, holds in the end, when nothing is left. -/
theorem multLoop_induct {I : Nat → BitVec 64 → BitVec 64 → BitVec 64 → Prop}
    (rest : ∀ {pos x add sub}, I pos x add sub → ∀ i < pos, x.getLsbD i = false)
    (step : ∀ {pos x add sub}, I pos x add sub → x ≠ 0 →
      ∃ pos' > pos, I pos' (multStep x add sub).1 (multStep x add sub).2.1 (multStep x add sub).2.2)
    {n : Nat} (h : I pos x add sub) (hn : 64 ≤ pos + n) :
    ∃ pos', I pos' 0 (multLoop n x add sub).1 (multLoop n x add sub).2 := by
  induction n generalizing pos x add sub with
  | zero =>
    -- Every bit is done.
    have hzero : x = 0 := by
      apply eq_of_getLsbD_eq
      intro i hi
      rw [rest h i (by omega)]
      exact getLsbD_zero.symm
    exact ⟨pos, hzero ▸ h⟩
  | succ n ih =>
    unfold multLoop
    by_cases hx : x = 0
    · grind
    · grind

theorem MultInv.init (c : BitVec 64) : MultInv c 0 c 0 0 := by
  refine ⟨?_, fun i _ => getLsbD_zero, fun i _ => getLsbD_zero, fun i _ => getLsbD_zero,
    fun i hi => absurd hi (Nat.not_lt_zero i)⟩
  rw [sub_self, zero_add]

/-- The assertion holds, and the two sets have no bit in common. -/
theorem computeMultConstants64_ok (c : BitVec 64) : ∃ add sub, computeMultConstants64 c = .ok (add, sub) ∧
    add - sub = c ∧ ∀ i, add.getLsbD i = true → sub.getLsbD i = false := by
  obtain ⟨pos, h⟩ := multLoop_induct (n := 64) MultInv.rest MultInv.step (MultInv.init c) (by omega)
  have hsum := h.sum
  rw [add_zero] at hsum
  refine ⟨_, _, ?_, hsum, h.disjoint⟩
  unfold computeMultConstants64
  exact if_pos hsum.symm

end Mult

/-! ## `ComputeUDivConstants32`, `ComputeSDivConstants32` -/

/-- The number of ones. -/
def ones (x : BitVec 32) : BitVec 32 :=
  let x := x - (x >>> 1 &&& 0x55555555)
  let x := (x >>> 2 &&& 0x33333333) + (x &&& 0x33333333)
  let x := (x >>> 4 + x) &&& 0x0f0f0f0f
  let x := x + x >>> 8
  let x := x + x >>> 16
  x &&& 0x0000003f

/-- The number of leading zeroes. -/
def ldz (x : BitVec 32) : BitVec 32 :=
  let x := x ||| x >>> 1
  let x := x ||| x >>> 2
  let x := x ||| x >>> 4
  let x := x ||| x >>> 8
  let x := x ||| x >>> 16
  32 - ones x

def log2Ceil (x : BitVec 32) : Nat := (32 - ldz (x - 1)).toNat

def expBase2 (n : BitVec 32) : BitVec 32 := ((~~~n &&& (n - 32)) >>> 31) <<< n.toNat

/-- `mprime`, `sh1` and `sh2`. -/
def computeUDivConstants32 (d : BitVec 32) : BitVec 32 × Nat × Nat :=
  let l := log2Ceil d
  let mid := expBase2 (ofNat 32 l) - d
  (ofNat 32 (2 ^ 32 * mid.toNat / d.toNat + 1), min l 1, l - 1)

/-- `mprime`, `dsign` and `shpost`. -/
def computeSDivConstants32 (d : BitVec 32) : BitVec 32 × BitVec 32 × Nat :=
  let absD := d.toInt.natAbs
  let l := if absD = 2 ^ 31 then 31 else max 1 (log2Ceil (ofNat 32 absD))
  let mid := expBase2 (ofNat 32 (l - 1))
  let m : Nat := 2 ^ 32 * mid.toNat / absD + 1
  (BitVec.ofInt 32 ((m : Int) - 2 ^ 32), d.sshiftRight 31, l - 1)

section Log

variable {x y d : BitVec 32} {s : Nat}

/-- A bit of `y` is set where one of the next `s` bits of `x` is. -/
def Smeared (x y : BitVec 32) (s : Nat) : Prop :=
  ∀ i, y.getLsbD i = true ↔ ∃ j, i ≤ j ∧ j < i + s ∧ x.getLsbD j = true

theorem Smeared.refl (x : BitVec 32) : Smeared x x 1 := by
  intro i
  constructor
  · grind
  · grind

theorem Smeared.double (h : Smeared x y s) : Smeared x (y ||| y >>> s) (s + s) := by
  intro i
  rw [getLsbD_or, getLsbD_ushiftRight, Bool.or_eq_true, h i, h (s + i)]
  constructor
  · rintro (⟨j, hij, hj, hx⟩ | ⟨j, hij, hj, hx⟩)
    · exact ⟨j, hij, by omega, hx⟩
    · exact ⟨j, by omega, by omega, hx⟩
  · rintro ⟨j, hij, hj, hx⟩
    by_cases hlt : j < i + s
    · exact .inl ⟨j, hij, hlt, hx⟩
    · exact .inr ⟨j, by omega, by omega, hx⟩

theorem Smeared.eq (h : Smeared x y 32) : y = ofNat 32 (2 ^ x.toNat.size - 1) := by
  apply eq_of_getLsbD_eq
  intro i hi
  rw [getLsbD_ofNat, decide_eq_true hi, Bool.true_and, Nat.testBit_two_pow_sub_one, Bool.eq_iff_iff, h i,
    decide_eq_true_eq, Nat.lt_size]
  constructor
  · rintro ⟨j, hij, -, hj⟩
    rw [← testBit_toNat] at hj
    exact (Nat.pow_le_pow_right Nat.two_pos hij).trans (Nat.ge_two_pow_of_testBit hj)
  · intro hle
    obtain ⟨j, hij, hj⟩ := Nat.exists_ge_and_testBit_of_ge_two_pow hle
    rw [testBit_toNat] at hj
    have := lt_of_getLsbD hj
    exact ⟨j, hij, by omega, hj⟩

theorem size_le (x : BitVec 32) : x.toNat.size ≤ 32 := Nat.size_le.2 x.isLt

theorem ldz_eq (x : BitVec 32) : ldz x = 32 - ofNat 32 x.toNat.size := by
  have hones : ∀ k : Fin 33, ones (ofNat 32 (2 ^ k.1 - 1)) = ofNat 32 k := by decide
  have hsmear := (Smeared.refl x).double.double.double.double.double.eq
  unfold ldz
  dsimp only
  rw [hsmear, hones ⟨x.toNat.size, by have := size_le x; omega⟩]

theorem log2Ceil_eq (d : BitVec 32) : log2Ceil d = (d - 1).toNat.size := by
  unfold log2Ceil
  rw [ldz_eq, sub_sub_cancel, toNat_ofNat, Nat.mod_eq_of_lt]
  exact (size_le (d - 1)).trans_lt (by decide)

theorem log2Ceil_spec (hd : d ≠ 0) : log2Ceil d ≤ 32 ∧ d.toNat ≤ 2 ^ log2Ceil d ∧ 2 ^ log2Ceil d < 2 * d.toNat := by
  have hpos : 0 < d.toNat := Nat.pos_of_ne_zero fun h => hd (eq_of_toNat_eq h)
  have hsub : (d - 1).toNat = d.toNat - 1 := toNat_sub_of_le (show (1 : BitVec 32) ≤ d from hpos)
  rw [log2Ceil_eq]
  refine ⟨size_le (d - 1), ?_, ?_⟩
  · have := Nat.lt_size_self (d - 1).toNat
    omega
  · by_cases hz : (d - 1).toNat.size = 0
    · rw [hz]
      omega
    · have hlow : 2 ^ ((d - 1).toNat.size - 1) ≤ (d - 1).toNat := Nat.lt_size.1 (by omega)
      have hpow : 2 ^ (d - 1).toNat.size = 2 * 2 ^ ((d - 1).toNat.size - 1) := by
        rw [← pow_succ', Nat.sub_add_cancel (Nat.pos_of_ne_zero hz)]
      omega

theorem expBase2_eq {n : Nat} (hn : n ≤ 32) : expBase2 (ofNat 32 n) = ofNat 32 (2 ^ n) := by
  have hall : ∀ k : Fin 33, expBase2 (ofNat 32 k) = ofNat 32 (2 ^ k.1) := by decide
  exact hall ⟨n, by omega⟩

/-- The constants are those of `MagicDivision`. -/
theorem computeUDivConstants32_eq (hd : d ≠ 0) : ∃ l, d.toNat ≤ 2 ^ l ∧ 2 ^ l < 2 * d.toNat ∧
    l ≤ 32 ∧ computeUDivConstants32 d =
      (ofNat 32 (Lib.MagicDivision.multiplier 32 l d.toNat), min l 1, l - 1) := by
  obtain ⟨h32, hle, hlt⟩ := log2Ceil_spec hd
  refine ⟨log2Ceil d, hle, hlt, h32, ?_⟩
  have hd32 := d.isLt
  have hmid : (expBase2 (ofNat 32 (log2Ceil d)) - d).toNat = 2 ^ log2Ceil d - d.toNat := by
    rw [expBase2_eq h32, toNat_sub, toNat_ofNat]
    by_cases h : log2Ceil d = 32
    · rw [h]
      omega
    · grind
  unfold computeUDivConstants32 Lib.MagicDivision.multiplier
  dsimp only
  rw [hmid]

theorem computeSDivConstants32_eq (hd : d ≠ 0) : ∃ l, d.toInt.natAbs ≤ 2 ^ l ∧
    (l = 1 ∨ 2 ^ (l - 1) < d.toInt.natAbs) ∧ 0 < l ∧ l ≤ 31 ∧ computeSDivConstants32 d =
      (BitVec.ofInt 32 (Lib.MagicDivision.reciprocal (31 + l) d.toInt.natAbs - 2 ^ 32), d.sshiftRight 31, l - 1) := by
  have hpos : 0 < d.toInt.natAbs := by
    refine Int.natAbs_pos.2 fun h => hd ?_
    exact eq_of_toInt_eq (h.trans (by decide))
  have hmax : d.toInt.natAbs ≤ 2 ^ 31 := by grind
  have hmid : ∀ l, 0 < l → l ≤ 31 →
      2 ^ 32 * (expBase2 (ofNat 32 (l - 1))).toNat / d.toInt.natAbs + 1 =
        Lib.MagicDivision.reciprocal (31 + l) d.toInt.natAbs := by
    intro l hl0 hl
    have hpow : 2 ^ (l - 1) < 2 ^ 32 := Nat.pow_lt_pow_right (by decide) (by omega)
    rw [expBase2_eq (by omega), toNat_ofNat, Nat.mod_eq_of_lt hpow, ← pow_add, show 32 + (l - 1) = 31 + l by omega]
    rfl
  unfold computeSDivConstants32
  dsimp only
  by_cases htop : d.toInt.natAbs = 2 ^ 31
  · refine ⟨31, htop.le, .inr ?_, by decide, le_rfl, ?_⟩
    · rw [htop]
      decide
    · rw [if_pos htop, ← hmid 31 (by decide) le_rfl]
  · rw [if_neg htop]
    have hne : ofNat 32 d.toInt.natAbs ≠ 0 := by
      intro h
      have := congrArg BitVec.toNat h
      rw [toNat_ofNat, Nat.mod_eq_of_lt (by omega)] at this
      simp at this
      omega
    obtain ⟨-, hle, hlt⟩ := log2Ceil_spec hne
    rw [toNat_ofNat, Nat.mod_eq_of_lt (by omega)] at hle hlt
    generalize log2Ceil (ofNat 32 d.toInt.natAbs) = l at *
    have hl31 : l ≤ 31 := by
      by_contra hgt
      have : 2 ^ 32 ≤ 2 ^ l := Nat.pow_le_pow_right Nat.two_pos (by omega)
      omega
    refine ⟨max 1 l, ?_, ?_, by omega, by omega, ?_⟩
    · exact hle.trans (Nat.pow_le_pow_right Nat.two_pos (by omega))
    · by_cases hl0 : l = 0
      · grind
      · refine .inr ?_
        have hpow : 2 ^ l = 2 * 2 ^ (l - 1) := by rw [← pow_succ', Nat.sub_add_cancel (Nat.pos_of_ne_zero hl0)]
        rw [show max 1 l - 1 = l - 1 by omega]
        omega
    · rw [← hmid (max 1 l) (by omega) (by omega)]

end Log

end S2E.Klee
