import Mathlib.Data.Nat.Bitwise
import Mathlib.Tactic

/-!
# Words that share their high bits

* `Agree k x y` : the words have the same bits from `k` on;
* `lt_of_bit`, `exists_bit_of_lt` : the highest bit in which two words differ decides which is smaller;
* `le_of_bits` : fewer bits make no larger word;
* `or_le_or` : an upper part that is added to two words keeps their order.
-/

namespace S2E.Lib
open BitVec

variable {w k : Nat} {x y z t : BitVec w}

def Agree (k : Nat) (x y : BitVec w) : Prop := ∀ i, k ≤ i → x.getLsbD i = y.getLsbD i

theorem Agree.refl (k : Nat) (x : BitVec w) : Agree k x x := fun _ _ => rfl

theorem Agree.symm (h : Agree k x y) : Agree k y x := fun i hi => (h i hi).symm

theorem Agree.of_le (h : w ≤ k) : Agree k x y := by
  intro i hi
  rw [getLsbD_of_ge _ _ (h.trans hi), getLsbD_of_ge _ _ (h.trans hi)]

theorem Agree.eq (h : Agree 0 x y) : x = y := eq_of_getLsbD_eq fun i _ => h i (Nat.zero_le i)

theorem Agree.of_bit (h : Agree (k + 1) x y) (hk : x.getLsbD k = y.getLsbD k) : Agree k x y := by
  intro i hi
  rcases Nat.eq_or_lt_of_le hi with rfl | hi
  · exact hk
  · exact h i hi

theorem Agree.or {x' y' : BitVec w} (h : Agree k x y) (h' : Agree k x' y') : Agree k (x ||| x') (y ||| y') := by
  intro i hi
  rw [getLsbD_or, getLsbD_or, h i hi, h' i hi]

theorem lt_of_bit (h : Agree (k + 1) x y) (hx : x.getLsbD k = false) (hy : y.getLsbD k = true) : x < y :=
  Nat.lt_of_testBit k hx hy fun j hj => h j hj

theorem le_of_bits (h : ∀ i, x.getLsbD i = true → y.getLsbD i = true) : x ≤ y :=
  le_def.2 (Nat.le_of_testBit h)

theorem exists_bit_of_lt (h : x < y) : ∃ k, x.getLsbD k = false ∧ y.getLsbD k = true ∧ Agree (k + 1) x y := by
  have ne : (x ^^^ y).toNat ≠ 0 := by
    intro h0
    have : x = y := BitVec.xor_eq_zero_iff.1 (eq_of_toNat_eq h0)
    exact absurd h (by rw [this]; exact BitVec.lt_irrefl y)
  obtain ⟨k, hk, above⟩ := Nat.exists_most_significant_bit ne
  have bit : ∀ i, (x ^^^ y).toNat.testBit i = (x.getLsbD i ^^ y.getLsbD i) := fun i => getLsbD_xor
  have agree : Agree (k + 1) x y := by
    intro i hi
    have := above i hi
    rw [bit] at this
    simpa using this
  rw [bit] at hk
  cases hx : x.getLsbD k with
  | false => exact ⟨k, hx, by simpa [hx] using hk, agree⟩
  | true =>
    have hy : y.getLsbD k = false := by simpa [hx] using hk
    exact absurd h (BitVec.not_lt.2 (BitVec.le_of_lt (lt_of_bit agree.symm hy hx)))

theorem bit_of_le (h : Agree (k + 1) x y) (hle : x ≤ y) (hx : x.getLsbD k = true) : y.getLsbD k = true := by
  by_contra hy
  have hy := Bool.eq_false_iff.2 hy
  exact absurd hle (BitVec.not_le.2 (lt_of_bit h.symm hy hx))

theorem or_le_or (h : Agree k x y) (hle : x ≤ y) (ht : ∀ i < k, t.getLsbD i = false) : t ||| x ≤ t ||| y := by
  by_cases hxy : x = y
  · grind
  · have hlt : x < y := lt_def.2 (lt_of_le_of_ne hle fun h => hxy (eq_of_toNat_eq h))
    obtain ⟨j, hx, hy, agree⟩ := exists_bit_of_lt hlt
    have hj : j < k := by
      by_contra hj
      rw [h j (Nat.not_lt.1 hj), hy] at hx
      cases hx
    apply BitVec.le_of_lt
    apply lt_of_bit (Agree.or (Agree.refl _ t) agree)
    · rw [getLsbD_or, ht j hj, hx, Bool.or_false]
    · rw [getLsbD_or, hy, Bool.or_true]

end S2E.Lib
