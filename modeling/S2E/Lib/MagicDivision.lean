import Mathlib.Tactic

/-!
# Division by multiplication

A quotient by a constant is a product with a rounded reciprocal, shifted: the numbers of which the constant is an exact
quotient of powers of two are close enough for the floor not to change.

* `mul_reciprocal_bounds` : the product lies between two multiples of the power;
* `div_eq_mul_reciprocal`, `div_eq_shifts` : unsigned;
* `tdiv_eq_mul_reciprocal` : signed, rounded toward zero.
-/

namespace S2E.Lib.MagicDivision

variable {d k l n N : Nat}

/-- The reciprocal of `d`, rounded up, in units of `2 ^ e`. -/
def reciprocal (e d : Nat) : Nat := 2 ^ e / d + 1

/-- The error of the reciprocal. -/
theorem reciprocal_mul (e : Nat) (hd : 0 < d) : 2 ^ e < reciprocal e d * d ∧ reciprocal e d * d ≤ 2 ^ e + d := by
  have hdiv := Nat.div_add_mod (2 ^ e) d
  have hmod := Nat.mod_lt (2 ^ e) hd
  have hmul : reciprocal e d * d = d * (2 ^ e / d) + d := by
    unfold reciprocal
    ring
  omega

section

variable (hd : 0 < d) (hl : d ≤ 2 ^ l)

include hd hl

theorem mul_reciprocal_bounds (hk : 0 < k) (hN : k ≤ 2 ^ N) : k / d * 2 ^ (N + l) < k * reciprocal (N + l) d ∧
      k * reciprocal (N + l) d ≤ (k / d + 1) * 2 ^ (N + l) ∧
      (k < 2 ^ N → k * reciprocal (N + l) d < (k / d + 1) * 2 ^ (N + l)) := by
  obtain ⟨hlow, hhigh⟩ := reciprocal_mul (N + l) hd
  have hdiv := Nat.div_add_mod k d
  have hmod := Nat.mod_lt k hd
  -- Everything is compared after a multiplication by `d`.
  have hscale : k * reciprocal (N + l) d * d = k * (reciprocal (N + l) d * d) := by ring
  have hup : k * (reciprocal (N + l) d * d) ≤ k * 2 ^ (N + l) + k * d := by
    rw [← Nat.mul_add]
    exact Nat.mul_le_mul_left k hhigh
  have hnext : k + 1 ≤ (k / d + 1) * d := by grind
  have herr : k * reciprocal (N + l) d * d + 2 ^ (N + l) ≤ (k / d + 1) * 2 ^ (N + l) * d + k * d := by
    calc k * reciprocal (N + l) d * d + 2 ^ (N + l) ≤ (k + 1) * 2 ^ (N + l) + k * d := by rw [Nat.succ_mul]; omega
      _ ≤ (k / d + 1) * d * 2 ^ (N + l) + k * d := Nat.add_le_add_right (Nat.mul_le_mul_right _ hnext) _
      _ = _ := by ring
  refine ⟨?_, ?_, fun hlt => ?_⟩
  · refine Nat.lt_of_mul_lt_mul_right (a := d) ?_
    calc k / d * 2 ^ (N + l) * d = d * (k / d) * 2 ^ (N + l) := by ring
      _ ≤ k * 2 ^ (N + l) := Nat.mul_le_mul_right _ (by omega)
      _ < k * (reciprocal (N + l) d * d) := Nat.mul_lt_mul_of_pos_left hlow hk
      _ = k * reciprocal (N + l) d * d := hscale.symm
  · refine Nat.le_of_mul_le_mul_right (c := d) ?_ hd
    have hkd : k * d ≤ 2 ^ (N + l) := by
      rw [pow_add]
      exact Nat.mul_le_mul hN hl
    omega
  · refine Nat.lt_of_mul_lt_mul_right (a := d) ?_
    have hkd : k * d < 2 ^ (N + l) := by
      rw [pow_add]
      exact Nat.mul_lt_mul_of_lt_of_le hlt hl (by positivity)
    omega

/-! ## Unsigned -/

theorem div_eq_mul_reciprocal (hn : n < 2 ^ N) : n * reciprocal (N + l) d / 2 ^ (N + l) = n / d := by
  by_cases hz : n = 0
  · rw [hz, Nat.zero_mul, Nat.zero_div, Nat.zero_div]
  · obtain ⟨hlow, -, hhigh⟩ := mul_reciprocal_bounds hd hl (Nat.pos_of_ne_zero hz) hn.le
    exact Nat.div_eq_of_lt_le hlow.le (hhigh hn)

/-- The multiplier of `N` bits: the reciprocal without its highest bit. -/
def multiplier (N l d : Nat) : Nat := 2 ^ N * (2 ^ l - d) / d + 1

theorem multiplier_add : multiplier N l d + 2 ^ N = reciprocal (N + l) d := by
  have hsplit : 2 ^ (N + l) = 2 ^ N * (2 ^ l - d) + 2 ^ N * d := by
    rw [← Nat.mul_add, Nat.sub_add_cancel hl, pow_add]
  unfold multiplier reciprocal
  rw [hsplit, Nat.add_mul_div_right _ _ hd]
  omega

omit hd hl in
theorem multiplier_le (hd : 0 < d) (hmin : 2 ^ l < 2 * d) : multiplier N l d ≤ 2 ^ N := by
  have hlt : 2 ^ N * (2 ^ l - d) / d < 2 ^ N := by
    rw [Nat.div_lt_iff_lt_mul hd]
    exact Nat.mul_lt_mul_of_pos_left (by omega) (by positivity)
  exact hlt

omit hd hl in
theorem multiplier_lt (hd : 0 < d) (hmin : 2 ^ l < 2 * d) (hN : d < 2 ^ N) : multiplier N l d < 2 ^ N := by
  have hlt : 2 ^ N * (2 ^ l - d) / d < 2 ^ N - 1 := by
    rw [Nat.div_lt_iff_lt_mul hd]
    calc 2 ^ N * (2 ^ l - d) ≤ 2 ^ N * (d - 1) := Nat.mul_le_mul_left _ (by omega)
      _ = 2 ^ N * d - 2 ^ N := by rw [Nat.mul_sub, Nat.mul_one]
      _ < 2 ^ N * d - d := by
        have hpos : 2 ^ N ≤ 2 ^ N * d := Nat.le_mul_of_pos_right _ hd
        omega
      _ = (2 ^ N - 1) * d := by rw [Nat.sub_mul, Nat.one_mul]
  unfold multiplier
  omega

/-- The quotient with no intermediate result of more than `N` bits besides the product. -/
theorem div_eq_shifts (hmin : 2 ^ l < 2 * d) (hn : n < 2 ^ N) : n * multiplier N l d / 2 ^ N ≤ n ∧
      ((n - n * multiplier N l d / 2 ^ N) / 2 ^ min l 1 + n * multiplier N l d / 2 ^ N) / 2 ^ (l - 1) = n / d := by
  have hle : n * multiplier N l d / 2 ^ N ≤ n := by
    refine Nat.div_le_of_le_mul ?_
    rw [Nat.mul_comm]
    exact Nat.mul_le_mul_right n (multiplier_le hd hmin)
  refine ⟨hle, ?_⟩
  have hquot : (n + n * multiplier N l d / 2 ^ N) / 2 ^ l = n / d := by
    have hsum : n + n * multiplier N l d / 2 ^ N = n * reciprocal (N + l) d / 2 ^ N := by
      rw [← multiplier_add hd hl, Nat.mul_add, Nat.add_mul_div_right _ _ (by positivity), Nat.add_comm]
    rw [hsum, Nat.div_div_eq_div_mul, ← pow_add]
    exact div_eq_mul_reciprocal hd hl hn
  generalize n * multiplier N l d / 2 ^ N = t at *
  cases l with
  | zero => grind
  | succ l =>
    rw [← hquot, pow_succ', ← Nat.div_div_eq_div_mul]
    have hhalf : (n - t) / 2 + t = (n + t) / 2 := by omega
    rw [show min (l + 1) 1 = 1 by omega, pow_one, hhalf, Nat.add_sub_cancel]

/-! ## Signed -/

/-- The floor is one too low for the negative numbers. -/
theorem tdiv_eq_mul_reciprocal {z : Int} (hlow : -2 ^ N ≤ z) (hhigh : z < 2 ^ N) :
    z * reciprocal (N + l) d / 2 ^ (N + l) + (if z < 0 then 1 else 0) = z.tdiv d := by
  obtain ⟨k, rfl | rfl⟩ := Int.eq_nat_or_neg z
  · have hk : k < 2 ^ N := by exact_mod_cast hhigh
    rw [if_neg (by omega), Int.add_zero, Int.tdiv_eq_ediv_of_nonneg (Int.natCast_nonneg k)]
    exact_mod_cast div_eq_mul_reciprocal hd hl hk
  · by_cases hz : k = 0
    · subst hz
      simp
    · have hk : k ≤ 2 ^ N := by
        have : (k : Int) ≤ 2 ^ N := by omega
        exact_mod_cast this
      obtain ⟨hlt, hle, -⟩ := mul_reciprocal_bounds hd hl (Nat.pos_of_ne_zero hz) hk
      rw [if_pos (by omega), Int.neg_tdiv, Int.tdiv_eq_ediv_of_nonneg (Int.natCast_nonneg k)]
      have hfloor : -(k : Int) * reciprocal (N + l) d / 2 ^ (N + l) = -((k / d : Nat) : Int) - 1 := by
        have hlt' : ((k / d : Nat) : Int) * 2 ^ (N + l) < k * reciprocal (N + l) d := by exact_mod_cast hlt
        have hle' : (k : Int) * reciprocal (N + l) d ≤ (((k / d : Nat) : Int) + 1) * 2 ^ (N + l) := by
          exact_mod_cast hle
        refine Int.ediv_eq_iff_of_pos (by positivity) |>.2 ⟨?_, ?_⟩
        · nlinarith
        · nlinarith
      rw [hfloor]
      push_cast
      ring

end

end S2E.Lib.MagicDivision
