import Mathlib.Data.BitVec
import Mathlib.Tactic

/-!
# Binary search over machine words

`bisect test out fuel lo hi` narrows `[lo, hi]` down to one word, with a test that may fail.

* `toNat_midpoint` : the middle of two words is computed without overflow;
* `bisect_least` : if the test decides a property that stays true from some word on, and `hi` has it, the search ends
  after as many rounds as the distance of the two words has bits, at the least word that has it.
-/

namespace S2E.Lib
open BitVec

variable {ε : Type} {w : Nat}

/-- `while (lo < hi)`, with the error of a search that has run out of fuel. -/
def bisect (test : BitVec w → Except ε Bool) (out : ε) : Nat → BitVec w → BitVec w → Except ε (BitVec w)
  | 0, _, _ => .error out
  | fuel + 1, lo, hi =>
    if lo < hi then do
      let mid := lo + (hi - lo) / 2
      if ← test mid then bisect test out fuel lo mid else bisect test out fuel (mid + 1) hi
    else .ok lo

theorem toNat_midpoint {lo hi : BitVec w} (h : lo < hi) :
    (lo + (hi - lo) / 2).toNat = lo.toNat + (hi.toNat - lo.toNat) / 2 := by
  have hlt := lt_def.1 h
  have half : ((hi - lo) / 2).toNat = (hi.toNat - lo.toNat) / 2 := by
    rw [toNat_udiv, toNat_sub_of_le (BitVec.le_of_lt h)]
    match w with
    | 0 => omega
    | 1 =>
      -- the divisor is zero, and so are both quotients
      have zero : (2 : BitVec 1).toNat = 0 := rfl
      rw [zero, Nat.div_zero]
      omega
    | w + 2 =>
      have fits := Nat.pow_le_pow_right Nat.two_pos (show 2 ≤ w + 2 by omega)
      have two : (2#(w + 2)).toNat = 2 := by
        rw [toNat_ofNat]
        exact Nat.mod_eq_of_lt (by omega)
      exact congrArg _ two
  rw [toNat_add, half, Nat.mod_eq_of_lt (by omega)]

theorem bisect_least {test : BitVec w → Except ε Bool} {p : BitVec w → Prop} (out : ε)
    (mono : ∀ {a b}, a ≤ b → p a → p b) {fuel : Nat} {lo hi : BitVec w}
    (decides : ∀ m, lo ≤ m → m < hi → ∃ b, test m = .ok b ∧ (b = true ↔ p m)) (hle : lo ≤ hi) (hhi : p hi)
    (enough : hi.toNat - lo.toNat < 2 ^ fuel) :
    ∃ r, bisect test out (fuel + 1) lo hi = .ok r ∧ lo ≤ r ∧ r ≤ hi ∧ p r ∧ ∀ m, lo ≤ m → m < r → ¬ p m := by
  induction fuel generalizing lo hi with
  | zero =>
    rw [le_def] at hle
    obtain rfl : lo = hi := eq_of_toNat_eq (by omega)
    refine ⟨lo, ?_, BitVec.le_refl lo, BitVec.le_refl lo, hhi, fun m hm hlt => ?_⟩
    · rw [bisect, if_neg (by rw [lt_def]; omega)]
    · grind
  | succ fuel ih =>
    rw [bisect]
    by_cases hlt : lo < hi
    · have middle := toNat_midpoint hlt
      generalize lo + (hi - lo) / 2 = mid at middle
      rw [if_pos hlt]
      rw [lt_def] at hlt
      have lomid : lo ≤ mid := by rw [le_def]; omega
      have midhi : mid < hi := by rw [lt_def]; omega
      obtain ⟨b, tested, hb⟩ := decides mid lomid midhi
      rw [pow_succ] at enough
      cases b with
      | true =>
        have below (m : BitVec w) (hm : lo ≤ m) (hlt : m < mid) := decides m hm (BitVec.lt_trans hlt midhi)
        obtain ⟨r, done, hlo, hr, holds, least⟩ := ih below lomid (hb.1 rfl) (by omega)
        refine ⟨r, ?_, hlo, BitVec.le_trans hr (BitVec.le_of_lt midhi), holds, least⟩
        dsimp only
        rw [tested]
        exact done
      | false =>
        have next : (mid + 1).toNat = mid.toNat + 1 := by
          have := hi.isLt
          rw [lt_def] at midhi
          have one : (1#w).toNat = 1 := by grind
          exact (toNat_add mid 1#w).trans (by rw [one, Nat.mod_eq_of_lt (by omega)])
        have not : ¬ p mid := fun h => absurd (hb.2 h) Bool.false_ne_true
        have above (m : BitVec w) (hm : mid + 1 ≤ m) (hlt : m < hi) : ∃ b, test m = .ok b ∧ (b = true ↔ p m) := by
          refine decides m ?_ hlt
          rw [le_def] at hm lomid ⊢
          omega
        obtain ⟨r, done, hlo, hr, holds, least⟩ :=
          ih above (by rw [le_def, next]; rw [lt_def] at midhi; omega) hhi (by omega)
        rw [le_def, next] at hlo
        refine ⟨r, ?_, ?_, hr, holds, fun m hm hlt h => ?_⟩
        · dsimp only
          rw [tested]
          exact done
        · grind
        · -- a word below the result is at most the middle, or above it
          by_cases hmid : m ≤ mid
          · exact not (mono hmid h)
          · refine least m ?_ hlt h
            rw [le_def] at hmid ⊢
            omega
    · rw [if_neg hlt]
      obtain rfl : lo = hi := by grind
      refine ⟨lo, rfl, BitVec.le_refl lo, BitVec.le_refl lo, hhi, fun m hm hlt => ?_⟩
      rw [le_def] at hm
      rw [lt_def] at hlt
      omega

end S2E.Lib
