import S2E.Klee.Solver.STPBuilder

/-!
# The terms of `STPBuilder`

What the terms for shifts, and for products and quotients by constants, are worth.

* `bvRightShift_is`, `bvLeftShift_is`, `bvVarRightShift_is` : the amount counts modulo a power of two;
* `constructUDivByConstant_is`, `constructSDivByConstant_is` : the quotients.
-/

namespace S2E.Klee.STPBuilder

open S2E.Stp S2E.Lib List
open Bits64 (truncateToNBits)
open MagicDivision (reciprocal multiplier_lt div_eq_shifts tdiv_eq_mul_reciprocal)
open Nat (mod_lt two_pow_pos mod_mod mod_eq_of_lt)
open BitVec (allOnes eq_of_getLsbD_eq eq_of_toNat_eq extractLsb_toNat getLsbD_allOnes le_toInt ofBool ofInt ofNat
  setWidth_eq toInt_lt toNat_append toNat_cast toNat_mul toNat_ofNat toNat_setWidth toNat_ushiftRight getLsbD_sshiftRight
  msb_eq_getLsbD_last ofNat_add isLt toNat_add toNat_udiv ofInt_toInt ofInt_add toNat)

variable {ρ : Array → BitVec 32 → BitVec 8} {t amount : Term} {w : Nat} {v : BitVec w}

theorem bvConst32_is (hw : 0 < w) {value : BitVec 32} (hfits : value.toNat < 2 ^ w) :
    (bvConst32 w value).Is ρ (ofNat w value.toNat) := VCExpr.is_bvConst hw hfits

theorem bvConst64_is (hw : 0 < w) (value : BitVec 64) : (bvConst64 w value).Is ρ (value.setWidth w) := by
  refine (VCExpr.is_bvConst hw (mod_lt _ (two_pow_pos w))).congr rfl ?_
  rw [toNat_ofNat, toNat_setWidth, mod_mod]

theorem bvZero_is (hw : 0 < w) : (bvZero w).Is ρ (0 : BitVec w) := bvConst32_is hw (two_pow_pos w)

theorem bvOne_is (hw : 0 < w) : (bvOne w).Is ρ (1 : BitVec w) := bvConst32_is hw (Nat.one_lt_two_pow (by omega))

theorem bvWord_is (x : BitVec 32) : (bvConst32 32 x).Is ρ x := by
  have h : (bvConst32 32 x).Is ρ _ := bvConst32_is (by decide) x.isLt
  rw [BitVec.ofNat_toNat, setWidth_eq] at h
  exact h

theorem bvBoolExtract_isBool (h : t.Is ρ v) {bit : Nat} (hbit : bit < w) :
    (bvBoolExtract t bit).IsBool ρ (v.getLsbD bit) := by
  have hext : (VCExpr.bvExtract t bit bit).Is ρ (ofBool (v.getLsbD bit)) := by
    refine (h.bvExtract le_rfl hbit).congr (by rw [Nat.sub_self]) ?_
    rw [extractLsb_toNat, BitVec.toNat_ofBool, Nat.sub_self, Nat.shiftRight_eq_div_pow]
    exact (Nat.toNat_testBit v.toNat bit).symm
  have heq := VCExpr.IsBool.eqExpr hext (bvOne_is Nat.one_pos)
  have hbool : ∀ p : Bool, (ofBool p == (1 : BitVec 1)) = p := by decide
  rw [hbool] at heq
  exact heq

/-! ## Shifts -/

theorem bvRightShift_is (h : t.Is ρ v) (hw : 0 < w) (a s : Nat) : (bvRightShift t a s).Is ρ (v >>> (a % 2 ^ s)) := by
  unfold bvRightShift
  dsimp only
  rw [h.getBVLength]
  generalize a % 2 ^ s = k
  by_cases hzero : k = 0
  · grind
  · rw [if_neg hzero]
    by_cases hge : k ≥ w
    · rw [if_pos hge, BitVec.ushiftRight_eq_zero hge]
      exact bvZero_is hw
    · rw [if_neg hge]
      have hext : (VCExpr.bvExtract t (w - 1) k).Is ρ _ := h.bvExtract (by omega) (by omega)
      refine ((bvZero_is (Nat.pos_of_ne_zero hzero)).bvConcatExpr hext).congr (by omega) ?_
      have hlt : v.toNat >>> k < 2 ^ (w - 1 - k + 1) := by
        rw [Nat.shiftRight_eq_div_pow, Nat.div_lt_iff_lt_mul (by positivity), ← pow_add,
          show w - 1 - k + 1 + k = w by omega]
        exact v.isLt
      rw [toNat_append, extractLsb_toNat, toNat_ushiftRight, mod_eq_of_lt hlt]
      show 0 <<< _ ||| _ = _
      rw [Nat.zero_shiftLeft, Nat.zero_or]

theorem bvLeftShift_is (h : t.Is ρ v) (hw : 0 < w) (a s : Nat) : (bvLeftShift t a s).Is ρ (v <<< (a % 2 ^ s)) := by
  unfold bvLeftShift
  dsimp only
  rw [h.getBVLength]
  generalize a % 2 ^ s = k
  by_cases hzero : k = 0
  · grind
  · rw [if_neg hzero]
    by_cases hge : k ≥ w
    · rw [if_pos hge, BitVec.shiftLeft_eq_zero hge]
      exact bvZero_is hw
    · rw [if_neg hge]
      have hext : (VCExpr.bvExtract t (w - k - 1) 0).Is ρ _ := h.bvExtract (by omega) (by omega)
      refine (hext.bvConcatExpr (bvZero_is (Nat.pos_of_ne_zero hzero))).congr (by omega) ?_
      rw [toNat_append, extractLsb_toNat, BitVec.toNat_shiftLeft, Nat.shiftRight_zero]
      show _ ||| 0 = _
      rw [Nat.or_zero, Nat.shiftLeft_eq, Nat.shiftLeft_eq, show w - k - 1 - 0 + 1 = w - k by omega,
        ← Nat.mul_mod_mul_right, ← pow_add, Nat.sub_add_cancel (by omega)]

variable {k l sb : Nat} {r : BitVec w} {add sub : BitVec 64} {d n : BitVec 32}

theorem sshiftRight_of_le (hk : w - 1 ≤ k) : v.sshiftRight k = if v.msb then allOnes w else 0 := by
  apply eq_of_getLsbD_eq
  intro i hi
  have hsign : (v.sshiftRight k).getLsbD i = v.msb := by
    rw [getLsbD_sshiftRight, decide_eq_false (by omega), Bool.not_false, Bool.true_and]
    split
    · rw [msb_eq_getLsbD_last, show k + i = w - 1 by omega]
    · rfl
  rw [hsign]
  cases v.msb with
  | false => exact BitVec.getLsbD_zero.symm
  | true => exact (BitVec.getLsbD_allOnes.trans (decide_eq_true hi)).symm

theorem minusOne_setWidth (hk : k ≤ 64) : (-1 : BitVec 64).setWidth k = allOnes k := by
  apply eq_of_getLsbD_eq
  intro i hi
  have hone : (-1 : BitVec 64) = allOnes 64 := rfl
  rw [hone, BitVec.getLsbD_setWidth, getLsbD_allOnes, getLsbD_allOnes, decide_eq_true hi,
    decide_eq_true (show i < 64 by omega), Bool.true_and]

theorem allOnes_append_extract (hk : 0 < k) (hlt : k < w - 1) (hsign : v.msb = true) :
    (allOnes k ++ v.extractLsb (w - 1) k).toNat = (v.sshiftRight k).toNat := by
  have hwidth : k + (w - 1 - k + 1) = w := by omega
  rw [← toNat_cast hwidth]
  congr 1
  apply eq_of_getLsbD_eq
  intro i hi
  rw [BitVec.getLsbD_cast, BitVec.getLsbD_append, getLsbD_sshiftRight, decide_eq_false (by omega), Bool.not_false,
    Bool.true_and, BitVec.getLsbD_extractLsb, getLsbD_allOnes, hsign]
  by_cases hlow : i < w - 1 - k + 1
  · rw [if_pos hlow, if_pos (by omega), decide_eq_true (by omega), Bool.true_and]
  · rw [if_neg hlow, if_neg (by omega), decide_eq_true (by omega)]

theorem constructAShrByConstant_is {isSigned : Term} (h : t.Is ρ v) (hw : 1 < w) (hs : isSigned.IsBool ρ v.msb)
    (a : Nat) {s : Nat} (hs6 : s ≤ 6) : (constructAShrByConstant t a isSigned s).Is ρ (v.sshiftRight (a % 2 ^ s)) := by
  unfold constructAShrByConstant
  dsimp only
  rw [h.getBVLength]
  have hmod : a % 2 ^ s % 2 ^ s = a % 2 ^ s := mod_mod _ _
  have hright := bvRightShift_is h (by omega) (a % 2 ^ s) s
  have hk64 : a % 2 ^ s < 64 :=
    (mod_lt _ (two_pow_pos s)).trans_le (Nat.pow_le_pow_right Nat.two_pos hs6)
  rw [hmod] at hright
  generalize a % 2 ^ s = k at *
  by_cases hzero : k = 0
  · rw [if_pos hzero, hzero, BitVec.sshiftRight_zero]
    exact h
  · rw [if_neg hzero]
    by_cases hge : k ≥ w - 1
    · rw [if_pos hge, sshiftRight_of_le hge, ← minusOne_setWidth (by omega)]
      exact VCExpr.Is.iteExpr hs (bvConst64_is (by omega) (-1)) (bvZero_is (by omega))
    · rw [if_neg hge]
      have hext : (VCExpr.bvExtract t (w - 1) k).Is ρ _ := h.bvExtract (by omega) (by omega)
      have hfill := (bvConst64_is (show 0 < k by omega) (-1)).bvConcatExpr hext
      rw [minusOne_setWidth (by omega)] at hfill
      have hwidth : k + (w - 1 - k + 1) = w := by omega
      have hite := VCExpr.Is.iteExpr hs (hfill.congr hwidth (toNat_cast hwidth _).symm) hright
      by_cases hsign : v.msb = true
      · rw [if_pos hsign] at hite
        refine hite.congr rfl ?_
        rw [toNat_cast, allOnes_append_extract (by omega) (by omega) hsign]
      · rw [if_neg hsign] at hite
        rw [BitVec.sshiftRight_eq_of_msb_false (Bool.eq_false_iff.2 hsign)]
        exact hite

theorem getShiftBits_le (w : Nat) : 5 ≤ getShiftBits w ∧ getShiftBits w ≤ 6 := by
  unfold getShiftBits
  split <;> decide

theorem shiftCases_succ (shift res : Term) (sb : Nat) (byConstant : Nat → Term) (n : Nat) :
    shiftCases shift sb byConstant (n + 1) res = shiftCases shift sb byConstant n
      (.iteExpr (.eqExpr shift (bvConst32 sb (ofNat 32 n))) (byConstant n) res) := by
  unfold shiftCases
  rw [range_succ, foldr_append]
  rfl

section Cases

variable {shift res : Term} {sb n : Nat} {s : BitVec sb} {byConstant : Nat → Term}

theorem shiftCases_is {g : Nat → BitVec w} (hs : shift.Is ρ s) (hsb : 0 < sb) (hn : n ≤ 2 ^ sb)
    (h32 : n ≤ 2 ^ 32) (hg : ∀ i < n, (byConstant i).Is ρ (g i)) (hr : res.Is ρ r) :
    (shiftCases shift sb byConstant n res).Is ρ (if s.toNat < n then g s.toNat else r) := by
  induction n generalizing res r with
  | zero => exact hr
  | succ n ih =>
    have hword : (ofNat 32 n).toNat = n := by
      rw [toNat_ofNat, mod_eq_of_lt (show n < 2 ^ 32 by omega)]
    have hconst : (bvConst32 sb (ofNat 32 n)).Is ρ _ := bvConst32_is hsb (by omega)
    have hcase := VCExpr.Is.iteExpr (VCExpr.IsBool.eqExpr hs hconst) (hg n (Nat.lt_succ_self n)) hr
    have htest : (s == ofNat sb (ofNat 32 n).toNat) = decide (s.toNat = n) := by grind
    rw [htest] at hcase
    have hrest := ih (by omega) (by omega) (fun i hi => hg i (by omega)) hcase
    rw [shiftCases_succ]
    convert hrest using 1
    by_cases hlt : s.toNat < n
    · rw [if_pos hlt, if_pos (by omega)]
    · rw [if_neg hlt]
      by_cases heq : s.toNat = n
      · rw [if_pos (by omega), decide_eq_true heq, if_pos rfl, heq]
      · rw [if_neg (by omega), decide_eq_false heq, if_neg Bool.false_ne_true]

theorem shiftCases_of_none (h : res.value ρ = none) : (shiftCases shift sb byConstant n res).value ρ = none := by
  induction n generalizing res with
  | zero => exact h
  | succ n ih =>
    rw [shiftCases_succ]
    apply ih
    simp [h]

/-- A case whose amount does not fit is refused. -/
theorem shiftCases_none (hn : 2 ^ sb < n) (h32 : 2 ^ sb < 2 ^ 32) :
    (shiftCases shift sb byConstant n res).value ρ = none := by
  induction n generalizing res with
  | zero => exact absurd hn (Nat.not_lt_zero _)
  | succ n ih =>
    rw [shiftCases_succ]
    by_cases hlt : 2 ^ sb < n
    · exact ih hlt
    · obtain rfl : n = 2 ^ sb := by omega
      apply shiftCases_of_none
      have hconst : (bvConst32 sb (ofNat 32 (2 ^ sb))).value ρ = none := by
        refine VCExpr.bvConst_of_le ?_
        rw [toNat_ofNat, mod_eq_of_lt h32]
      rw [VCExpr.value, VCExpr.value, hconst]
      simp

/-- No term without an amount. -/
theorem shiftCases_of_shift_none (h : shift.value ρ = none) (hn : 0 < n) :
    (shiftCases shift sb byConstant n res).value ρ = none := by
  obtain ⟨n, rfl⟩ : ∃ k, n = k + 1 := ⟨n - 1, by omega⟩
  rw [shiftCases_succ]
  apply shiftCases_of_none
  simp [h]

end Cases

section Variable

variable {m : Nat} {a : BitVec m}

theorem shiftAmount_is (ha : amount.Is ρ a) (hsb : 0 < sb) (hm : sb ≤ m) :
    (shiftAmount amount sb).Is ρ (a.setWidth sb) := by
  have hext : (shiftAmount amount sb).Is ρ _ := ha.bvExtract (Nat.zero_le _) (by omega)
  refine hext.congr (by omega) ?_
  rw [extractLsb_toNat, Nat.shiftRight_zero, toNat_setWidth, show sb - 1 - 0 + 1 = sb by omega]

theorem shiftAmount_none (ha : amount.Is ρ a) (hm : m < sb) : (shiftAmount amount sb).value ρ = none := by
  unfold VCExpr.Is at ha
  simp [shiftAmount, ha, Value.extract]
  omega

/-- The cases up to `n` of a shift by the amount's low bits, where all amounts from `n` on give the same. -/
theorem shiftCases_amount_is {byConstant : Nat → Term} {res : Term} {n : Nat} {g : Nat → BitVec w} {r : BitVec w}
    (hn : n ≤ 2 ^ getShiftBits w) (ha : amount.Is ρ a) (hm : getShiftBits w ≤ m)
    (hg : ∀ i < n, (byConstant i).Is ρ (g (i % 2 ^ getShiftBits w))) (hr : res.Is ρ r)
    (hrest : ∀ i, n ≤ i → i < 2 ^ getShiftBits w → r = g i) :
    (shiftCases (shiftAmount amount (getShiftBits w)) (getShiftBits w) byConstant n res).Is ρ
      (g (a.toNat % 2 ^ getShiftBits w)) := by
  obtain ⟨h5, h6⟩ := getShiftBits_le w
  have h32 : n ≤ 2 ^ 32 := hn.trans (Nat.pow_le_pow_right Nat.two_pos (by omega))
  have hcases := shiftCases_is (shiftAmount_is ha (by omega) hm) (by omega) hn h32 hg hr
  rw [toNat_setWidth, mod_mod] at hcases
  by_cases hlt : a.toNat % 2 ^ getShiftBits w < n
  · rw [if_pos hlt] at hcases
    exact hcases
  · rw [if_neg hlt, hrest _ (Nat.not_lt.1 hlt) (mod_lt _ (two_pow_pos _))] at hcases
    exact hcases

theorem bvVarRightShift_is (h : t.Is ρ v) (hw : 0 < w) (hfits : w ≤ 2 ^ getShiftBits w) (ha : amount.Is ρ a)
    (hm : getShiftBits w ≤ m) : (bvVarRightShift t amount w).Is ρ (v >>> (a.toNat % 2 ^ getShiftBits w)) :=
  shiftCases_amount_is hfits ha hm (fun i _ => bvRightShift_is h hw i _) (bvZero_is hw)
    fun _ hi _ => (BitVec.ushiftRight_eq_zero hi).symm

theorem bvVarLeftShift_is (h : t.Is ρ v) (hw : 0 < w) (hfits : w ≤ 2 ^ getShiftBits w) (ha : amount.Is ρ a)
    (hm : getShiftBits w ≤ m) : (bvVarLeftShift t amount w).Is ρ (v <<< (a.toNat % 2 ^ getShiftBits w)) :=
  shiftCases_amount_is hfits ha hm (fun i _ => bvLeftShift_is h hw i _) (bvZero_is hw)
    fun _ hi _ => (BitVec.shiftLeft_eq_zero hi).symm

/-- One case less than the width. The last one is the shift by `w - 1`. -/
theorem bvVarArithRightShift_is (h : t.Is ρ v) (hw : 1 < w) (hfits : w - 1 ≤ 2 ^ getShiftBits w) (ha : amount.Is ρ a)
    (hm : getShiftBits w ≤ m) :
    (bvVarArithRightShift t amount w).Is ρ (v.sshiftRight (a.toNat % 2 ^ getShiftBits w)) := by
  have h6 := (getShiftBits_le w).2
  have hsign : (bvBoolExtract t (w - 1)).IsBool ρ v.msb := by
    rw [msb_eq_getLsbD_last]
    exact bvBoolExtract_isBool h (by omega)
  refine shiftCases_amount_is hfits ha hm (fun i _ => constructAShrByConstant_is h hw hsign i h6)
    (constructAShrByConstant_is h hw hsign (w - 1) h6) fun i hi hlt => ?_
  rw [mod_eq_of_lt (hi.trans_lt hlt), sshiftRight_of_le le_rfl, sshiftRight_of_le hi]

end Variable

/-! ## Products -/

/-- The sum of the powers of two that the shifts by the places of the bits stand for. -/
def bitSum (bits : BitVec 64) (shiftBits : Nat) : Nat → Nat
  | 0 => 0
  | n + 1 => bitSum bits shiftBits n + if bits.getLsbD n then 2 ^ (n % 2 ^ shiftBits) else 0

theorem bitSum_succ (bits : BitVec 64) (sb n : Nat) :
    bitSum bits sb (n + 1) = bitSum bits sb n + if bits.getLsbD n then 2 ^ (n % 2 ^ sb) else 0 := rfl

/-- What an expression of width `w` is multiplied with, for the constant `x`. -/
def multiplier (w : Nat) (x : BitVec 64) : BitVec w :=
  match computeMultConstants64 x with
  | .ok (add, sub) =>
    BitVec.ofNat w (bitSum (Bits64.truncateToNBits add w) (getShiftBits w) 64) -
      BitVec.ofNat w (bitSum (Bits64.truncateToNBits sub w) (getShiftBits w) 64)
  | .error _ => 0

/-- A sum that has no term yet is zero. -/
def SumIs (ρ : Array → BitVec 32 → BitVec 8) (res : Option Term) (v : BitVec w) : Prop :=
  (res = none ∧ v = 0) ∨ ∃ t, res = some t ∧ t.Is ρ v

theorem mulStep_is {res : Option Term} {j : Nat} (h : t.Is ρ v) (hw : 0 < w)
    (hdisjoint : add.getLsbD j = true → sub.getLsbD j = false) (hr : SumIs ρ res r) :
    ∃ res', mulStep t w add sub res j = .ok res' ∧
      SumIs ρ res' (r + v * (ofNat w (if add.getLsbD j then 2 ^ (j % 2 ^ getShiftBits w) else 0) -
        ofNat w (if sub.getLsbD j then 2 ^ (j % 2 ^ getShiftBits w) else 0))) := by
  have hop := bvLeftShift_is h hw j (getShiftBits w)
  have hpow : v <<< (j % 2 ^ getShiftBits w) = v * ofNat w (2 ^ (j % 2 ^ getShiftBits w)) := by
    apply eq_of_toNat_eq
    rw [BitVec.toNat_shiftLeft, toNat_mul, toNat_ofNat, Nat.shiftLeft_eq, Nat.mul_mod_mod]
  rw [hpow] at hop
  unfold mulStep
  dsimp only
  have hzero : ofNat w 0 = 0 := rfl
  by_cases hadd : add.getLsbD j = true
  · rw [hadd, hdisjoint hadd, if_pos rfl, if_neg Bool.false_ne_true, hzero, sub_zero]
    refine ⟨_, rfl, .inr ⟨_, rfl, ?_⟩⟩
    obtain ⟨rfl, rfl⟩ | ⟨u, rfl, hu⟩ := hr
    · grind
    · exact hu.bvExpr .plus hop
  · rw [Bool.eq_false_iff.2 hadd, if_neg Bool.false_ne_true, hzero, zero_sub, mul_neg]
    by_cases hsub : sub.getLsbD j = true
    · rw [hsub, if_pos rfl]
      refine ⟨_, rfl, .inr ⟨_, rfl, ?_⟩⟩
      obtain ⟨rfl, rfl⟩ | ⟨u, rfl, hu⟩ := hr
      · rw [zero_add]
        exact hop.bvUMinusExpr
      · rw [← sub_eq_add_neg]
        exact hu.bvExpr .minus hop
    · rw [Bool.eq_false_iff.2 hsub, if_neg Bool.false_ne_true, hzero, mul_zero, neg_zero, add_zero]
      exact ⟨_, rfl, hr⟩

theorem mulLoop_is (h : t.Is ρ v) (hw : 0 < w)
    (hdisjoint : ∀ j, add.getLsbD j = true → sub.getLsbD j = false) (n : Nat) {res : Option Term}
    (hr : SumIs ρ res r) : ∃ res', (range n).reverse.foldlM (mulStep t w add sub) res = .ok res' ∧
      SumIs ρ res' (r + v * (ofNat w (bitSum add (getShiftBits w) n) - ofNat w (bitSum sub (getShiftBits w) n))) := by
  induction n generalizing res r with
  | zero =>
    refine ⟨res, rfl, ?_⟩
    convert hr using 1
    unfold bitSum
    ring
  | succ n ih =>
    obtain ⟨res₁, h₁, hr₁⟩ := mulStep_is h hw (hdisjoint n) hr
    obtain ⟨res₂, h₂, hr₂⟩ := ih hr₁
    refine ⟨res₂, ?_, ?_⟩
    · rw [range_succ, reverse_append, reverse_singleton, singleton_append, foldlM_cons, h₁]
      exact h₂
    · rw [bitSum_succ, bitSum_succ, ofNat_add, ofNat_add]
      convert hr₂ using 1
      ring

theorem getLsbD_truncateToNBits (x : BitVec 64) {n : Nat} (hn : n ≤ 64) (i : Nat) :
    (truncateToNBits x n).getLsbD i = (x.getLsbD i && decide (i < n)) := by
  unfold truncateToNBits
  rw [BitVec.getLsbD_and, BitVec.getLsbD_ushiftRight, getLsbD_allOnes]
  congr 1
  exact decide_eq_decide.2 (by omega)

theorem truncateToNBits_disjoint (h64 : w ≤ 64) (h : ∀ j, add.getLsbD j = true → sub.getLsbD j = false) (j : Nat)
    (hj : (truncateToNBits add w).getLsbD j = true) : (truncateToNBits sub w).getLsbD j = false := by
  rw [getLsbD_truncateToNBits _ h64, Bool.and_eq_true] at hj
  rw [getLsbD_truncateToNBits _ h64, h j hj.1, Bool.false_and]

/-- The loop of a product by a constant never fails its assertion. -/
theorem constructMulByConstant_is (h : t.Is ρ v) (hw : 0 < w) (h64 : w ≤ 64) (x : BitVec 64) :
    ∃ p, constructMulByConstant t w x = .ok p ∧ p.Is ρ (v * multiplier w x) := by
  obtain ⟨add, sub, hconst, -, hdisjoint⟩ := computeMultConstants64_ok x
  have hnone : SumIs ρ none (0 : BitVec w) := .inl ⟨rfl, rfl⟩
  obtain ⟨res, hres, hsum⟩ := mulLoop_is h hw (truncateToNBits_disjoint h64 hdisjoint) 64 hnone
  refine ⟨res.getD (bvZero w), ?_, ?_⟩
  · have hrun : constructMulByConstant t w x = ((range 64).reverse.foldlM (mulStep t w
        (truncateToNBits add w) (truncateToNBits sub w)) none).map (·.getD (bvZero w)) := by
      unfold constructMulByConstant
      rw [hconst]
      rfl
    rw [hrun, hres]
    rfl
  · unfold multiplier
    rw [hconst]
    rw [zero_add] at hsum
    obtain ⟨rfl, hz⟩ | ⟨p, rfl, hp⟩ := hsum
    · dsimp only
      rw [hz]
      exact bvZero_is hw
    · exact hp

/-! ## Constants that no shift wraps around -/

theorem bitSum_eq {bits : BitVec 64} (h : ∀ j, bits.getLsbD j = true → j < 2 ^ sb) (n : Nat) :
    bitSum bits sb n = bits.toNat % 2 ^ n := by
  induction n with
  | zero => rw [bitSum, pow_zero, Nat.mod_one]
  | succ n ih =>
    have hbit : (bits.getLsbD n).toNat = bits.toNat / 2 ^ n % 2 := Nat.toNat_testBit bits.toNat n
    rw [bitSum_succ, ih, Nat.mod_pow_succ, ← hbit]
    by_cases hn : bits.getLsbD n = true
    · rw [if_pos hn, hn, mod_eq_of_lt (h n hn), Bool.toNat_true, Nat.mul_one]
    · rw [if_neg hn, Bool.eq_false_iff.2 hn, Bool.toNat_false, Nat.mul_zero]

theorem ofNat_truncateToNBits (x : BitVec 64) (h64 : w ≤ 64) :
    ofNat w (truncateToNBits x w).toNat = x.setWidth w := by
  apply eq_of_getLsbD_eq
  intro i hi
  rw [BitVec.getLsbD_ofNat, decide_eq_true hi, Bool.true_and, BitVec.testBit_toNat, getLsbD_truncateToNBits x h64,
    decide_eq_true hi, Bool.and_true, BitVec.getLsbD_setWidth, decide_eq_true hi, Bool.true_and]

theorem ofNat_bitSum (x : BitVec 64) (h64 : w ≤ 64) (hw : w ≤ 2 ^ getShiftBits w) :
    ofNat w (bitSum (truncateToNBits x w) (getShiftBits w) 64) = x.setWidth w := by
  rw [bitSum_eq fun j hj => by
    rw [getLsbD_truncateToNBits x h64, Bool.and_eq_true, decide_eq_true_eq] at hj
    omega, mod_eq_of_lt (isLt _), ofNat_truncateToNBits x h64]

theorem setWidth_of_sub {x : BitVec 64} (h64 : w ≤ 64) (h : add - sub = x) :
    x.setWidth w = add.setWidth w - sub.setWidth w := by
  have hadd : add.setWidth w = x.setWidth w + sub.setWidth w := by
    rw [← BitVec.setWidth_add _ _ h64, ← h, sub_add_cancel]
  rw [hadd, add_sub_cancel_right]

theorem multiplier_eq (h64 : w ≤ 64) (hw : w ≤ 2 ^ getShiftBits w) (x : BitVec 64) : multiplier w x = x.setWidth w := by
  obtain ⟨add, sub, hconst, hdiff, -⟩ := computeMultConstants64_ok x
  unfold multiplier
  rw [hconst]
  dsimp only
  rw [ofNat_bitSum add h64 hw, ofNat_bitSum sub h64 hw, setWidth_of_sub h64 hdiff]

/-! ## Quotients -/

theorem upperHalf_is {x : BitVec 64} (h : t.Is ρ x) :
    (VCExpr.bvExtract t 63 32).Is ρ (ofNat 32 (x.toNat / 2 ^ 32)) := by
  refine (h.bvExtract (by decide) (by decide)).congr rfl ?_
  rw [extractLsb_toNat, toNat_ofNat, Nat.shiftRight_eq_div_pow]

theorem constructUDivByConstant_is (h : t.Is ρ n) (hd : d ≠ 0) :
    ∃ q, constructUDivByConstant t 32 d = .ok q ∧ q.Is ρ (n / d) := by
  obtain ⟨l, hle, hlt, h32, hconst⟩ := computeUDivConstants32_eq hd
  have hpos : 0 < d.toNat := Nat.pos_of_ne_zero fun h => hd (eq_of_toNat_eq h)
  have hm := multiplier_lt hpos hlt d.isLt
  obtain ⟨hTle, hquot⟩ := div_eq_shifts (N := 32) hpos hle hlt n.isLt
  generalize hmdef : MagicDivision.multiplier 32 l d.toNat = m at *
  have hwide : (VCExpr.bvConcatExpr (bvZero 32) t).Is ρ (n.setWidth 64) := by
    refine ((bvZero_is (by decide)).bvConcatExpr h).congr rfl ?_
    rw [toNat_append, toNat_setWidth, mod_eq_of_lt (by omega)]
    show 0 <<< 32 ||| _ = _
    rw [Nat.zero_shiftLeft, Nat.zero_or]
  obtain ⟨p, hp, hpis⟩ := constructMulByConstant_is hwide (by decide) le_rfl ((ofNat 32 m).setWidth 64)
  have ht1 := upperHalf_is hpis
  have hprod : n.toNat * m < 2 ^ 64 := by
    calc n.toNat * m < 2 ^ 32 * 2 ^ 32 := Nat.mul_lt_mul'' n.isLt hm
      _ = 2 ^ 64 := by norm_num
  rw [multiplier_eq le_rfl (by decide), setWidth_eq, toNat_mul, toNat_setWidth,
    toNat_setWidth, toNat_ofNat, mod_eq_of_lt hm, mod_eq_of_lt (show n.toNat < 2 ^ 64 by omega),
    mod_eq_of_lt (show m < 2 ^ 64 by omega), mod_eq_of_lt hprod] at ht1
  generalize n.toNat * m / 2 ^ 32 = T at *
  have hfirst := bvVarRightShift_is (h.bvExpr .minus ht1) (by decide) (by decide) (bvWord_is (ofNat 32 (min l 1)))
    (by decide)
  have hsecond := bvVarRightShift_is (hfirst.bvExpr .plus ht1) (by decide) (by decide) (bvWord_is (ofNat 32 (l - 1)))
    (by decide)
  refine ⟨_, ?_, hsecond.congr rfl ?_⟩
  · unfold constructUDivByConstant
    rw [if_pos rfl, hconst]
    dsimp only
    rw [hp]
    rfl
  · have hhalf : (n.toNat - T) / 2 ^ min l 1 ≤ n.toNat - T := Nat.div_le_self _ _
    have hsub : (BvOp.eval .minus n (ofNat 32 T)).toNat = n.toNat - T := by
      show (n - ofNat 32 T).toNat = _
      rw [BitVec.toNat_sub, toNat_ofNat]
      omega
    have hamount : ∀ k < 32, (ofNat 32 k).toNat % 2 ^ getShiftBits 32 = k := by
      intro k hk
      rw [toNat_ofNat, show getShiftBits 32 = 5 from rfl]
      omega
    rw [toNat_ushiftRight, hamount _ (by omega)]
    show (_ + ofNat 32 T).toNat >>> _ = _
    rw [toNat_add, toNat_ushiftRight, hamount _ (by omega), hsub, toNat_ofNat,
      Nat.shiftRight_eq_div_pow, Nat.shiftRight_eq_div_pow, mod_eq_of_lt (show T < 2 ^ 32 by omega),
      mod_eq_of_lt (show (n.toNat - T) / 2 ^ min l 1 + T < 2 ^ 32 by omega), hquot, toNat_udiv]

/-! ## Signed quotients -/

theorem sdiv_eq_ofInt (x y : BitVec w) : x.sdiv y = ofInt w (x.toInt.tdiv y.toInt) := by
  apply BitVec.eq_of_toInt_eq
  rw [BitVec.toInt_sdiv, BitVec.toInt_ofInt]

theorem ofNat_upperHalf (x : BitVec 64) : ofNat 32 (x.toNat / 2 ^ 32) = ofInt 32 (x.toInt / 2 ^ 32) := by
  apply eq_of_toNat_eq
  rw [toNat_ofNat, BitVec.toNat_ofInt, BitVec.toInt_eq_toNat_cond]
  split <;> omega

/-- A logical shift of the extended number is an arithmetic one. -/
theorem extractLsb_signExtend_shift (y : BitVec 32) (hk : k < 32) :
    (y.signExtend 64 >>> k).extractLsb 31 0 = y.sshiftRight k := by
  apply eq_of_getLsbD_eq
  intro i hi
  rw [BitVec.getLsbD_extractLsb, BitVec.getLsbD_ushiftRight, BitVec.getLsbD_signExtend, getLsbD_sshiftRight,
    Nat.zero_add, decide_eq_true hi, decide_eq_true (show k + i < 64 by omega), decide_eq_false (Nat.not_le.2 hi)]
  rfl

theorem sshiftRight_eq_ofInt (y : BitVec w) (k : Nat) : y.sshiftRight k = ofInt w (y.toInt / 2 ^ k) := by
  rw [← ofInt_toInt (x := y.sshiftRight k), BitVec.toInt_sshiftRight, Int.shiftRight_eq_div_pow]
  push_cast
  rfl

theorem reciprocal_bounds {a : Nat} (ha : 0 < a) (hle : a ≤ 2 ^ l) (hlow : l = 1 ∨ 2 ^ (l - 1) < a) (hl : 0 < l) :
    2 ^ 31 < reciprocal (31 + l) a ∧ reciprocal (31 + l) a ≤ 2 ^ 32 + 1 ∧
      (l ≠ 1 → reciprocal (31 + l) a ≤ 2 ^ 32) := by
  unfold reciprocal
  have hmin : 2 ^ 31 ≤ 2 ^ (31 + l) / a := by
    rw [Nat.le_div_iff_mul_le ha, pow_add]
    exact Nat.mul_le_mul_left _ hle
  have hsplit : 2 ^ (31 + l) = 2 ^ 32 * 2 ^ (l - 1) := by
    rw [← pow_add]
    congr 1
    omega
  have hmax : 2 ^ (31 + l) / a ≤ 2 ^ 32 := by
    refine Nat.div_le_of_le_mul ?_
    rw [hsplit, Nat.mul_comm]
    refine Nat.mul_le_mul_right _ ?_
    obtain rfl | hlt := hlow
    · exact ha
    · exact hlt.le
  refine ⟨by omega, by omega, fun hne => ?_⟩
  have hstrict : 2 ^ (31 + l) / a < 2 ^ 32 := by
    rw [Nat.div_lt_iff_lt_mul ha, hsplit]
    exact Nat.mul_lt_mul_of_pos_left (hlow.resolve_left hne) (by positivity)
  exact hstrict

theorem bvMinusOne_is : (bvMinusOne 32).Is ρ (-1 : BitVec 32) := bvConst64_is (by decide) (-1)

/-- The number of which the sign is corrected: the floor of the product. -/
theorem shifted_eq {r : Int} (hl : 0 < l) (hlow : 0 < r) (hhigh : l ≠ 1 → r ≤ 2 ^ 32) :
    (ofInt 32 (n.toInt * r / 2 ^ 32)).sshiftRight (l - 1) = ofInt 32 (n.toInt * r / 2 ^ (31 + l)) := by
  by_cases hone : l = 1
  · grind
  · have hmin : -2 ^ 31 ≤ n.toInt := le_toInt n
    have hmax : n.toInt < 2 ^ 31 := toInt_lt
    have hr := hhigh hone
    have hle : -2 ^ 31 ≤ n.toInt * r / 2 ^ 32 := by
      rw [Int.le_ediv_iff_mul_le (by positivity)]
      have hleft := mul_le_mul_of_nonneg_right hmin hlow.le
      linarith
    have hlt : n.toInt * r / 2 ^ 32 < 2 ^ 31 := by
      rw [Int.ediv_lt_iff_lt_mul (by positivity)]
      have hleft := mul_lt_mul_of_pos_right hmax hlow
      linarith
    rw [sshiftRight_eq_ofInt, BitVec.toInt_ofInt_eq_self (by decide) hle hlt, Int.ediv_ediv_of_nonneg (by positivity),
      ← pow_add, show 32 + (l - 1) = 31 + l by omega]

theorem corrected_eq {a : Nat} (ha : 0 < a) (hle : a ≤ 2 ^ l) :
    ofInt 32 (n.toInt * reciprocal (31 + l) a / 2 ^ (31 + l)) -
      (if n.getLsbD 31 then -1 else 0) = ofInt 32 (n.toInt.tdiv a) := by
  have hmin : -2 ^ 31 ≤ n.toInt := le_toInt n
  have hmax : n.toInt < 2 ^ 31 := toInt_lt
  have hsign : n.getLsbD 31 = true ↔ n.toInt < 0 := by
    have hmsb : n.getLsbD 31 = n.msb := (msb_eq_getLsbD_last n).symm
    rw [hmsb, BitVec.msb_eq_toInt, decide_eq_true_iff]
  rw [← tdiv_eq_mul_reciprocal ha hle hmin hmax, ofInt_add, sub_eq_add_neg]
  congr 1
  by_cases hneg : n.toInt < 0
  · grind
  · grind

/-- The sign of the divisor is put in by a complement. -/
theorem divideSign_eq (n d : BitVec 32) : (ofInt 32 (n.toInt.tdiv d.toInt.natAbs) ^^^ d.sshiftRight 31) -
    d.sshiftRight 31 = n.sdiv d := by
  have hdmin : -2 ^ 31 ≤ d.toInt := le_toInt d
  have hdmax : d.toInt < 2 ^ 31 := toInt_lt
  rw [sdiv_eq_ofInt, sshiftRight_eq_ofInt]
  by_cases hneg : d.toInt < 0
  · have hfill : d.toInt / 2 ^ 31 = -1 := by omega
    have hall : ofInt 32 (-1) = allOnes 32 := by decide
    have hone : ∀ x : BitVec 32, x - allOnes 32 = x + 1#32 := by grind
    have habs : d.toInt = -(d.toInt.natAbs : Int) := by omega
    rw [hfill, hall, BitVec.xor_allOnes, hone, ← BitVec.neg_eq_not_add, ← BitVec.ofInt_neg, ← Int.tdiv_neg, ← habs]
  · have hfill : d.toInt / 2 ^ 31 = 0 := by omega
    have habs : d.toInt = (d.toInt.natAbs : Int) := by omega
    rw [hfill, ← habs]
    show (_ ^^^ 0#32) - 0#32 = _
    rw [BitVec.xor_zero, BitVec.sub_zero]

theorem constructSDivByConstant_is (h : t.Is ρ n) (hd : d ≠ 0) :
    ∃ q, constructSDivByConstant t 32 d = .ok q ∧ q.Is ρ (n.sdiv d) := by
  obtain ⟨l, hle, hlow, hl, hl31, hconst⟩ := computeSDivConstants32_eq hd
  have ha : 0 < d.toInt.natAbs := by
    refine Int.natAbs_pos.2 fun h => hd ?_
    exact BitVec.eq_of_toInt_eq (h.trans (by decide))
  obtain ⟨hrmin, hrmax, hr32⟩ := reciprocal_bounds ha hle hlow hl
  have hcorrected := corrected_eq (n := n) ha hle
  generalize hr : reciprocal (31 + l) d.toInt.natAbs = r at *
  have hmin : -2 ^ 31 ≤ n.toInt := le_toInt n
  have hmax : n.toInt < 2 ^ 31 := toInt_lt
  obtain ⟨p, hp, hpis⟩ := constructMulByConstant_is (h.bvSignExtend (show 0 < 64 by decide)) (by decide) le_rfl
    ((ofInt 32 ((r : Int) - 2 ^ 32)).signExtend 64)
  have hmprime : (ofInt 32 ((r : Int) - 2 ^ 32)).toInt = (r : Int) - 2 ^ 32 :=
    BitVec.toInt_ofInt_eq_self (by decide) (by omega) (by omega)
  have hproduct : |n.toInt * (r - 2 ^ 32)| ≤ 2 ^ 31 * 2 ^ 31 := by
    rw [abs_mul]
    exact mul_le_mul (abs_le.2 ⟨hmin, hmax.le⟩) (abs_le.2 ⟨by omega, by omega⟩) (abs_nonneg _) (by positivity)
  obtain ⟨hpmin, hpmax⟩ := abs_le.1 hproduct
  -- The upper half of the product, which does not overflow.
  have hmulsh : (VCExpr.bvExtract p 63 32).Is ρ (ofInt 32 (n.toInt * (r - 2 ^ 32) / 2 ^ 32)) := by
    have hupper := upperHalf_is hpis
    rw [ofNat_upperHalf, multiplier_eq le_rfl (by decide), setWidth_eq, BitVec.toInt_mul,
      BitVec.toInt_signExtend_of_le (by decide), BitVec.toInt_signExtend_of_le (by decide), hmprime,
      Int.bmod_eq_of_le (le_trans (by norm_num) hpmin) (lt_of_le_of_lt hpmax (by norm_num))] at hupper
    exact hupper
  have hsum : (VCExpr.bvExpr .plus 32 t (.bvExtract p 63 32)).Is ρ (ofInt 32 (n.toInt * r / 2 ^ 32)) := by
    have hfloor : n.toInt * r / 2 ^ 32 = n.toInt + n.toInt * (r - 2 ^ 32) / 2 ^ 32 := by grind
    rw [hfloor, ofInt_add, ofInt_toInt]
    exact h.bvExpr .plus hmulsh
  have hshift := bvVarRightShift_is (hsum.bvSignExtend (show 0 < 64 by decide)) (by decide) (by decide)
    (bvWord_is (ofNat 32 (l - 1))) (by decide)
  have hlower := hshift.bvExtract (show 0 ≤ 31 by decide) (by decide)
  have hamount : (ofNat 32 (l - 1)).toNat % 2 ^ getShiftBits 64 = l - 1 := by
    rw [toNat_ofNat, show getShiftBits 64 = 6 from rfl]
    omega
  rw [hamount, extractLsb_signExtend_shift _ (by omega), shifted_eq hl (by omega) fun h => by exact_mod_cast hr32 h]
    at hlower
  have hxsign := VCExpr.Is.iteExpr (bvBoolExtract_isBool h (show 31 < 32 by decide)) bvMinusOne_is (bvZero_is (by decide))
  have hq0 := hlower.bvExpr .minus hxsign
  rw [show BvOp.eval .minus _ _ = _ from hcorrected] at hq0
  have hdsign : (bvConst32 32 (d.sshiftRight 31)).Is ρ (d.sshiftRight 31) := bvWord_is _
  have hfinal := (hq0.bvBitExpr .xor hdsign).bvExpr .minus hdsign
  refine ⟨_, ?_, hfinal.congr rfl (congrArg toNat ?_)⟩
  · unfold constructSDivByConstant
    rw [if_pos rfl, hconst]
    dsimp only
    rw [hp]
    rfl
  · exact divideSign_eq n d

/-! ## The terms by themselves -/

theorem sub_quotient_mul (x y : BitVec w) : x - x / y * y = x % y := by
  refine sub_eq_of_eq_add (eq_of_toNat_eq ?_)
  rw [toNat_add, toNat_mul, toNat_udiv, BitVec.toNat_umod, Nat.add_mod_mod, Nat.mod_add_div',
    mod_eq_of_lt x.isLt]

theorem constructURemByConstant_is (h : t.Is ρ n) (hd : d ≠ 0) :
    ∃ r, constructURemByConstant t 32 (d.setWidth 64) = .ok r ∧ r.Is ρ (n % d) := by
  have hdivisor : (d.setWidth 64).setWidth 32 = d := by
    rw [BitVec.setWidth_setWidth_of_le _ (by decide), setWidth_eq]
  obtain ⟨q, hq, hqis⟩ := constructUDivByConstant_is h hd
  obtain ⟨p, hp, hpis⟩ := constructMulByConstant_is hqis (by decide) (by decide) (d.setWidth 64)
  rw [multiplier_eq (by decide) (by decide), hdivisor] at hpis
  refine ⟨.bvExpr .minus 32 t p, ?_, (h.bvExpr .minus hpis).congr rfl ?_⟩
  · unfold constructURemByConstant
    rw [hdivisor, hq]
    show (constructMulByConstant q 32 (d.setWidth 64)).bind _ = _
    rw [hp]
    rfl
  · show (n - n / d * d).toNat = _
    rw [sub_quotient_mul]

/-- The terms for a quotient and a remainder by a constant, whatever it is but zero. -/
theorem udivByConstant_exact (ρ : Array → BitVec 32 → BitVec 8) (t : Term) (n d : BitVec 32) (h : t.Is ρ n)
    (hd : d ≠ 0) : (∃ q, constructUDivByConstant t 32 d = .ok q ∧ q.Is ρ (n / d)) ∧
      ∃ r, constructURemByConstant t 32 (d.setWidth 64) = .ok r ∧ r.Is ρ (n % d) :=
  ⟨constructUDivByConstant_is h hd, constructURemByConstant_is h hd⟩

theorem udivByConstant_exact_seven :
    (∃ q, constructUDivByConstant (bvConst32 32 100) 32 7 = .ok q ∧ q.Is (fun _ _ => 0) (14 : BitVec 32)) ∧
      ∃ r, constructURemByConstant (bvConst32 32 100) 32 7 = .ok r ∧ r.Is (fun _ _ => 0) (2 : BitVec 32) :=
  udivByConstant_exact (fun _ _ => 0) (bvConst32 32 100) 100 7 (bvWord_is 100) (by decide)

/-- The term for a signed quotient by a constant is the quotient rounded toward zero, where that is no overflow. -/
theorem sdivByConstant_exact (ρ : Array → BitVec 32 → BitVec 8) (t : Term) (n d : BitVec 32) (h : t.Is ρ n)
    (hd : d ≠ 0) (hno : ¬(n.toInt = -2 ^ 31 ∧ d.toInt = -1)) :
    ∃ q, constructSDivByConstant t 32 d = .ok q ∧ ∃ x : BitVec 32, q.Is ρ x ∧ x.toInt = n.toInt.tdiv d.toInt := by
  obtain ⟨q, hq, his⟩ := constructSDivByConstant_is h hd
  refine ⟨q, hq, n.sdiv d, his, ?_⟩
  refine BitVec.toInt_sdiv_of_ne_or_ne n d ?_
  by_contra hboth
  push Not at hboth
  refine hno ⟨?_, ?_⟩
  · rw [hboth.1]
    decide
  · rw [hboth.2]
    decide

theorem sdivByConstant_exact_minimum : ∃ q, constructSDivByConstant (bvConst32 32 0x80000000) 32 (-3) = .ok q ∧
    ∃ x : BitVec 32, q.Is (fun _ _ => 0) x ∧ x.toInt = 715827882 :=
  sdivByConstant_exact (fun _ _ => 0) (bvConst32 32 0x80000000) 0x80000000 (-3) (bvWord_is 0x80000000) (by decide)
    (by decide)

end S2E.Klee.STPBuilder
