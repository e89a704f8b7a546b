import S2E.Lib.HighBits

/-!
# Bounds for the bitwise operations of `FastCexSolver`

`minOR`, `maxOR`, `minAND` and `maxAND` scan the bits from the top, and change one bound at most.

* `IsMinOR`, `IsMaxOR`, .. : the least, the largest value over a box;
* `minOR_isMinOR`, `maxOR_isMaxOR` : by induction on the bits that are still to be scanned, for the words of the box that agree
  with the bounds on the bits scanned already;
* `minAND_eq`, `maxAND_eq` : the other two are the complements of these at the complements of the bounds.
-/

namespace S2E.Klee.FastCex
open S2E.Lib
open BitVec (getLsbD_and getLsbD_or twoPow getLsbD_not le_def toNat_not)

/-- The loop of `minOR`, at `m = 1 << (k - 1)` for `k` bits that are still to be scanned. -/
def minORLoop : Nat → BitVec 64 → BitVec 64 → BitVec 64 → BitVec 64 → BitVec 64
  | 0, a, _, c, _ => a ||| c
  | k + 1, a, b, c, d =>
    let m := BitVec.twoPow 64 k
    if ~~~a &&& c &&& m ≠ 0 then
      let temp := (a ||| m) &&& -m
      if temp ≤ b then temp ||| c else minORLoop k a b c d
    else if a &&& ~~~c &&& m ≠ 0 then
      let temp := (c ||| m) &&& -m
      if temp ≤ d then a ||| temp else minORLoop k a b c d
    else minORLoop k a b c d

def minOR (a b c d : BitVec 64) : BitVec 64 := minORLoop 64 a b c d

def maxORLoop : Nat → BitVec 64 → BitVec 64 → BitVec 64 → BitVec 64 → BitVec 64
  | 0, _, b, _, d => b ||| d
  | k + 1, a, b, c, d =>
    let m := BitVec.twoPow 64 k
    if b &&& d &&& m ≠ 0 then
      let temp := (b - m) ||| (m - 1)
      if a ≤ temp then temp ||| d
      else
        let temp := (d - m) ||| (m - 1)
        if c ≤ temp then b ||| temp else maxORLoop k a b c d
    else maxORLoop k a b c d

def maxOR (a b c d : BitVec 64) : BitVec 64 := maxORLoop 64 a b c d

def minANDLoop : Nat → BitVec 64 → BitVec 64 → BitVec 64 → BitVec 64 → BitVec 64
  | 0, a, _, c, _ => a &&& c
  | k + 1, a, b, c, d =>
    let m := BitVec.twoPow 64 k
    if ~~~a &&& ~~~c &&& m ≠ 0 then
      let temp := (a ||| m) &&& -m
      if temp ≤ b then temp &&& c
      else
        let temp := (c ||| m) &&& -m
        if temp ≤ d then a &&& temp else minANDLoop k a b c d
    else minANDLoop k a b c d

def minAND (a b c d : BitVec 64) : BitVec 64 := minANDLoop 64 a b c d

def maxANDLoop : Nat → BitVec 64 → BitVec 64 → BitVec 64 → BitVec 64 → BitVec 64
  | 0, _, b, _, d => b &&& d
  | k + 1, a, b, c, d =>
    let m := BitVec.twoPow 64 k
    if b &&& ~~~d &&& m ≠ 0 then
      let temp := (b &&& ~~~m) ||| (m - 1)
      if a ≤ temp then temp &&& d else maxANDLoop k a b c d
    else if ~~~b &&& d &&& m ≠ 0 then
      let temp := (d &&& ~~~m) ||| (m - 1)
      if c ≤ temp then b &&& temp else maxANDLoop k a b c d
    else maxANDLoop k a b c d

def maxAND (a b c d : BitVec 64) : BitVec 64 := maxANDLoop 64 a b c d

/-! ## The changed bounds -/

section Bits

variable {k : Nat} (hk : k < 64)

include hk

theorem getLsbD_twoPow_eq (i : Nat) : (twoPow 64 k).getLsbD i = decide (k = i) := by
  rw [BitVec.getLsbD_twoPow, decide_eq_true hk, Bool.true_and]

theorem and_twoPow_ne_zero (x : BitVec 64) : x &&& twoPow 64 k ≠ 0 ↔ x.getLsbD k = true := by
  have bit := getLsbD_twoPow_eq hk k
  rw [BitVec.and_twoPow]
  constructor
  · grind
  · grind

theorem getLsbD_neg_twoPow (i : Nat) : (-twoPow 64 k).getLsbD i = (decide (k ≤ i) && decide (i < 64)) := by
  simp only [BitVec.getLsbD_neg, getLsbD_twoPow_eq hk]
  grind

theorem getLsbD_twoPow_sub_one (i : Nat) : (twoPow 64 k - 1).getLsbD i = decide (i < k) := by
  have value : (twoPow 64 k - 1).toNat = 2 ^ k - 1 := by
    have : 2 ^ k < 2 ^ 64 := Nat.pow_lt_pow_right (by decide) hk
    have := Nat.two_pow_pos k
    have one : (1 : BitVec 64).toNat = 1 := rfl
    rw [BitVec.toNat_sub, BitVec.toNat_twoPow_of_lt hk, one]
    omega
  rw [BitVec.getLsbD, value, Nat.testBit_two_pow_sub_one]

/-- The lowest word with the high bits of `a` and the bit `k`. -/
theorem getLsbD_raise (a : BitVec 64) (i : Nat) : ((a ||| twoPow 64 k) &&& -twoPow 64 k).getLsbD i =
      (decide (i = k) || (decide (k < i) && a.getLsbD i)) := by
  rw [getLsbD_and, getLsbD_or, getLsbD_neg_twoPow hk, getLsbD_twoPow_eq hk]
  by_cases hi : i < 64
  · grind
  · grind

/-- The highest word with the high bits of `b` and without the bit `k`. -/
theorem getLsbD_lower (b : BitVec 64) (i : Nat) : ((b &&& ~~~twoPow 64 k) ||| (twoPow 64 k - 1)).getLsbD i =
      (decide (i < k) || (decide (k < i) && b.getLsbD i)) := by
  rw [getLsbD_or, getLsbD_and, getLsbD_not, getLsbD_twoPow_sub_one hk, getLsbD_twoPow_eq hk]
  by_cases hi : i < 64
  · grind
  · grind

theorem sub_twoPow {b : BitVec 64} (hb : b.getLsbD k = true) : b - twoPow 64 k = b &&& ~~~twoPow 64 k := by
  have split : (b &&& ~~~twoPow 64 k) + twoPow 64 k = b := by
    rw [BitVec.add_eq_or_of_and_eq_zero]
    · grind
    · grind
  exact (BitVec.eq_sub_iff_add_eq.2 split).symm

end Bits

/-! ## The least and the largest value of a disjunction -/

section Disjunctions

/-- The least value over the box; `k` is the number of bits in which the words may differ from the lower bounds. -/
structure IsMinOR (k : Nat) (a b c d r : BitVec 64) : Prop where
  attained : ∃ x y, (a ≤ x ∧ x ≤ b) ∧ (c ≤ y ∧ y ≤ d) ∧ x ||| y = r
  least : ∀ x y, a ≤ x → x ≤ b → c ≤ y → y ≤ d → Agree k x a → Agree k y c → r ≤ x ||| y

variable {k : Nat} {a b c d r x : BitVec 64}

theorem IsMinOR.swap (h : IsMinOR k a b c d r) : IsMinOR k c d a b r := by
  obtain ⟨⟨x, y, hx, hy, hr⟩, least⟩ := h
  constructor
  · exact ⟨y, x, hy, hx, by rw [BitVec.or_comm, hr]⟩
  · grind

/-- The words of the box have the scanned bit of the lower bounds. -/
theorem IsMinOR.keep (h : IsMinOR k a b c d r) (hx : ∀ x, a ≤ x → x ≤ b → Agree (k + 1) x a → x.getLsbD k = a.getLsbD k)
    (hy : ∀ y, c ≤ y → y ≤ d → Agree (k + 1) y c → y.getLsbD k = c.getLsbD k) : IsMinOR (k + 1) a b c d r where
  attained := h.attained
  least x y hax hxb hcy hyd ax ay :=
    h.least x y hax hxb hcy hyd (ax.of_bit (hx x hax hxb ax)) (ay.of_bit (hy y hcy hyd ay))

/-- A bit that neither lower bound has: the words that have it are larger. -/
theorem IsMinOR.skip (h : IsMinOR k a b c d r) (hab : a ≤ b) (hcd : c ≤ d)
    (ha : a.getLsbD k = false) (hc : c.getLsbD k = false) : IsMinOR (k + 1) a b c d r where
  attained := h.attained
  least x y hax hxb hcy hyd ax ay := by
    by_cases bit : (x ||| y).getLsbD k = true
    · have first := h.least a c (BitVec.le_refl a) hab (BitVec.le_refl c) hcd (Agree.refl k a) (Agree.refl k c)
      have later : a ||| c < x ||| y := by
        apply lt_of_bit (ax.or ay).symm _ bit
        rw [getLsbD_or, ha, hc, Bool.or_false]
      exact BitVec.le_trans first (BitVec.le_of_lt later)
    · rw [getLsbD_or, Bool.or_eq_true, not_or] at bit
      apply h.least x y hax hxb hcy hyd
      · exact ax.of_bit (by rw [ha, Bool.eq_false_iff.2 bit.1])
      · exact ay.of_bit (by rw [hc, Bool.eq_false_iff.2 bit.2])

/-- Scanning a bit that `c` has and `a` has not. -/
theorem IsMinOR.raise (hk : k < 64) (hcd : c ≤ d) (ha : a.getLsbD k = false)
    (hc : c.getLsbD k = true) (hb : (a ||| twoPow 64 k) &&& -twoPow 64 k ≤ b) :
    IsMinOR (k + 1) a b c d (((a ||| twoPow 64 k) &&& -twoPow 64 k) ||| c) := by
  have bits := getLsbD_raise hk a
  generalize (a ||| twoPow 64 k) &&& -twoPow 64 k = temp at *
  have high : Agree (k + 1) temp a := by
    intro i hi
    rw [bits]
    grind
  have bit : temp.getLsbD k = true := by simp [bits]
  have low : ∀ i < k, temp.getLsbD i = false := by grind
  constructor
  · exact ⟨temp, c, ⟨BitVec.le_of_lt (lt_of_bit high.symm ha bit), hb⟩, ⟨BitVec.le_refl c, hcd⟩, rfl⟩
  · intro x y _ _ hy _ hx' hy'
    have ybit : y.getLsbD k = true := bit_of_le hy'.symm hy hc
    calc temp ||| c ≤ temp ||| y := or_le_or (hy'.symm.of_bit (by rw [hc, ybit])) hy low
      _ ≤ x ||| y := by
        apply le_of_bits
        intro i
        rcases Nat.lt_trichotomy i k with hi | rfl | hi
        · grind
        · simp [getLsbD_or, ybit]
        · rw [getLsbD_or, getLsbD_or, high i hi, hx' i hi]
          exact id

/-- No word of the box has the bit that `a` has not. -/
theorem bit_of_not_raise (hk : k < 64) (ha : a.getLsbD k = false)
    (hb : ¬ (a ||| twoPow 64 k) &&& -twoPow 64 k ≤ b) (hxb : x ≤ b) (ax : Agree (k + 1) x a) :
    x.getLsbD k = a.getLsbD k := by
  rw [ha]
  by_contra bit
  apply hb
  apply BitVec.le_trans _ hxb
  apply le_of_bits
  intro i hi
  rw [getLsbD_raise hk, Bool.or_eq_true, decide_eq_true_eq, Bool.and_eq_true, decide_eq_true_eq] at hi
  rcases hi with rfl | ⟨hi, abit⟩
  · exact Bool.eq_true_of_not_eq_false bit
  · rw [ax i hi, abit]

theorem minORLoop_isMinOR (hk : k ≤ 64) (hab : a ≤ b) (hcd : c ≤ d) : IsMinOR k a b c d (minORLoop k a b c d) := by
  induction k with
  | zero =>
    constructor
    · exact ⟨a, c, ⟨BitVec.le_refl a, hab⟩, ⟨BitVec.le_refl c, hcd⟩, rfl⟩
    · intro x y _ _ _ _ hx hy
      rw [hx.eq, hy.eq]
      exact BitVec.le_refl _
  | succ k ih =>
    have hk : k < 64 := hk
    have rest := ih hk.le
    have gained {x a : BitVec 64} (ha : a.getLsbD k = true) (hax : a ≤ x) (ax : Agree (k + 1) x a) :
        x.getLsbD k = a.getLsbD k := by rw [ha, bit_of_le ax.symm hax ha]
    simp only [minORLoop, and_twoPow_ne_zero hk, getLsbD_and, getLsbD_not, decide_eq_true hk]
    cases ha : a.getLsbD k with
    | false =>
      cases hc : c.getLsbD k with
      | false => simpa using rest.skip hab hcd ha hc
      | true =>
        by_cases raised : (a ||| twoPow 64 k) &&& -twoPow 64 k ≤ b
        · simpa [raised] using IsMinOR.raise hk hcd ha hc raised
        · simpa [raised] using rest.keep (fun x _ hxb ax => bit_of_not_raise hk ha raised hxb ax)
            (fun y hcy _ ay => gained hc hcy ay)
    | true =>
      cases hc : c.getLsbD k with
      | false =>
        by_cases raised : (c ||| twoPow 64 k) &&& -twoPow 64 k ≤ d
        · have h := (IsMinOR.raise hk hab hc ha raised).swap
          rw [BitVec.or_comm] at h
          simpa [raised] using h
        · simpa [raised] using rest.keep (fun x hax _ ax => gained ha hax ax)
            (fun y _ hyd ay => bit_of_not_raise hk hc raised hyd ay)
      | true => simpa using rest.keep (fun x hax _ ax => gained ha hax ax) (fun y hcy _ ay => gained hc hcy ay)

/-- The largest value over the box; `k` is the number of bits in which the words may differ from the upper bounds. -/
structure IsMaxOR (k : Nat) (a b c d r : BitVec 64) : Prop where
  attained : ∃ x y, (a ≤ x ∧ x ≤ b) ∧ (c ≤ y ∧ y ≤ d) ∧ x ||| y = r
  greatest : ∀ x y, a ≤ x → x ≤ b → c ≤ y → y ≤ d → Agree k x b → Agree k y d → x ||| y ≤ r

theorem IsMaxOR.swap (h : IsMaxOR k a b c d r) : IsMaxOR k c d a b r := by
  obtain ⟨⟨x, y, hx, hy, hr⟩, greatest⟩ := h
  constructor
  · exact ⟨y, x, hy, hx, by rw [BitVec.or_comm, hr]⟩
  · grind

theorem IsMaxOR.keep (h : IsMaxOR k a b c d r) (hx : ∀ x, a ≤ x → x ≤ b → Agree (k + 1) x b → x.getLsbD k = b.getLsbD k)
    (hy : ∀ y, c ≤ y → y ≤ d → Agree (k + 1) y d → y.getLsbD k = d.getLsbD k) : IsMaxOR (k + 1) a b c d r where
  attained := h.attained
  greatest x y hax hxb hcy hyd ax ay :=
    h.greatest x y hax hxb hcy hyd (ax.of_bit (hx x hax hxb ax)) (ay.of_bit (hy y hcy hyd ay))

/-- A bit that the upper bounds do not share: a word without it is no better. -/
theorem IsMaxOR.skip (h : IsMaxOR k a b c d r) (hab : a ≤ b) (hcd : c ≤ d)
    (hbd : ¬ (b.getLsbD k = true ∧ d.getLsbD k = true)) : IsMaxOR (k + 1) a b c d r where
  attained := h.attained
  greatest x y hax hxb hcy hyd ax ay := by
    have first := h.greatest b d hab (BitVec.le_refl b) hcd (BitVec.le_refl d) (Agree.refl k b) (Agree.refl k d)
    have xbit := bit_of_le ax hxb
    have ybit := bit_of_le ay hyd
    by_cases bit : (x ||| y).getLsbD k = (b ||| d).getLsbD k
    · rw [getLsbD_or, getLsbD_or] at bit
      apply h.greatest x y hax hxb hcy hyd
      · exact ax.of_bit (by grind)
      · exact ay.of_bit (by grind)
    · rw [getLsbD_or, getLsbD_or] at bit
      have less : x ||| y < b ||| d := by
        apply lt_of_bit (ax.or ay)
        · grind
        · grind
      exact BitVec.le_trans (BitVec.le_of_lt less) first

/-- Scanning a bit that both upper bounds have, if `b` can do without it. -/
theorem IsMaxOR.lower (hk : k < 64) (hcd : c ≤ d) (hb : b.getLsbD k = true)
    (hd : d.getLsbD k = true) (ha : a ≤ (b - twoPow 64 k) ||| (twoPow 64 k - 1)) :
    IsMaxOR (k + 1) a b c d (((b - twoPow 64 k) ||| (twoPow 64 k - 1)) ||| d) := by
  have bits := getLsbD_lower hk b
  rw [← sub_twoPow hk hb] at bits
  generalize (b - twoPow 64 k) ||| (twoPow 64 k - 1) = temp at *
  have high : Agree (k + 1) temp b := by
    intro i hi
    rw [bits]
    grind
  have bit : temp.getLsbD k = false := by simp [bits]
  constructor
  · exact ⟨temp, d, ⟨ha, BitVec.le_of_lt (lt_of_bit high bit hb)⟩, ⟨hcd, BitVec.le_refl d⟩, rfl⟩
  · intro x y _ _ _ _ ax ay
    apply le_of_bits
    intro i
    rcases Nat.lt_trichotomy i k with hi | rfl | hi
    · simp [getLsbD_or, bits, hi]
    · simp [getLsbD_or, hd]
    · rw [getLsbD_or, getLsbD_or, high i hi, ax i hi, ay i hi]
      exact id

/-- Every word of the box has the bit that `b` cannot do without. -/
theorem bit_of_not_lower (hk : k < 64) (hb : b.getLsbD k = true)
    (ha : ¬ a ≤ (b - twoPow 64 k) ||| (twoPow 64 k - 1)) (hax : a ≤ x) (ax : Agree (k + 1) x b) :
    x.getLsbD k = b.getLsbD k := by
  rw [hb]
  by_contra bit
  apply ha
  apply BitVec.le_trans hax
  apply le_of_bits
  intro i hi
  rw [sub_twoPow hk hb, getLsbD_lower hk]
  rcases Nat.lt_trichotomy i k with less | rfl | more
  · simp [less]
  · exact absurd hi bit
  · simp [more, ← ax i more, hi]

theorem maxORLoop_isMaxOR (hk : k ≤ 64) (hab : a ≤ b) (hcd : c ≤ d) : IsMaxOR k a b c d (maxORLoop k a b c d) := by
  induction k with
  | zero =>
    constructor
    · exact ⟨b, d, ⟨hab, BitVec.le_refl b⟩, ⟨hcd, BitVec.le_refl d⟩, rfl⟩
    · intro x y _ _ _ _ hx hy
      rw [hx.eq, hy.eq]
      exact BitVec.le_refl _
  | succ k ih =>
    have hk : k < 64 := hk
    have rest := ih hk.le
    simp only [maxORLoop, and_twoPow_ne_zero hk, getLsbD_and, Bool.and_eq_true]
    by_cases both : b.getLsbD k = true ∧ d.getLsbD k = true
    · rw [if_pos both]
      by_cases hb : a ≤ (b - twoPow 64 k) ||| (twoPow 64 k - 1)
      · rw [if_pos hb]
        exact IsMaxOR.lower hk hcd both.1 both.2 hb
      · rw [if_neg hb]
        by_cases hd : c ≤ (d - twoPow 64 k) ||| (twoPow 64 k - 1)
        · rw [if_pos hd, BitVec.or_comm]
          exact (IsMaxOR.lower hk hab both.2 both.1 hd).swap
        · rw [if_neg hd]
          exact rest.keep (fun x hax _ ax => bit_of_not_lower hk both.1 hb hax ax)
            (fun y hcy _ ay => bit_of_not_lower hk both.2 hd hcy ay)
    · rw [if_neg both]
      exact rest.skip hab hcd both

end Disjunctions

/-! ## Conjunctions are the complements of disjunctions -/

theorem not_le_not {x y : BitVec 64} : ~~~x ≤ ~~~y ↔ y ≤ x := by
  rw [le_def, le_def, toNat_not, toNat_not]
  have := x.isLt
  have := y.isLt
  omega

theorem not_raise (k : Nat) (a : BitVec 64) : ~~~((a ||| twoPow 64 k) &&& -twoPow 64 k) =
      (~~~a &&& ~~~twoPow 64 k) ||| (twoPow 64 k - 1) := by
  rw [BitVec.not_and, BitVec.not_or, BitVec.not_neg]
  rfl

theorem minANDLoop_eq {k : Nat} (hk : k ≤ 64) (a b c d : BitVec 64) :
    minANDLoop k a b c d = ~~~maxORLoop k (~~~b) (~~~a) (~~~d) (~~~c) := by
  induction k with
  | zero => rw [minANDLoop, maxORLoop, BitVec.not_or, BitVec.not_not, BitVec.not_not]
  | succ k ih =>
    have hk : k < 64 := hk
    simp only [minANDLoop, maxORLoop]
    by_cases both : ~~~a &&& ~~~c &&& twoPow 64 k ≠ 0
    · rw [if_pos both, if_pos both]
      rw [and_twoPow_ne_zero hk, getLsbD_and, Bool.and_eq_true] at both
      rw [sub_twoPow hk both.1, sub_twoPow hk both.2, ← not_raise, ← not_raise]
      simp only [not_le_not, ih hk.le, apply_ite (~~~ ·), BitVec.not_or, BitVec.not_not]
    · rw [if_neg both, if_neg both, ih hk.le]

theorem maxANDLoop_eq (k : Nat) (a b c d : BitVec 64) :
    maxANDLoop k a b c d = ~~~minORLoop k (~~~b) (~~~a) (~~~d) (~~~c) := by
  have lower (x : BitVec 64) (k : Nat) : (x &&& ~~~twoPow 64 k) ||| (twoPow 64 k - 1) =
      ~~~((~~~x ||| twoPow 64 k) &&& -twoPow 64 k) := by rw [not_raise, BitVec.not_not]
  have swap (x y : BitVec 64) : x ≤ ~~~y ↔ y ≤ ~~~x := by
    rw [← not_le_not, BitVec.not_not]
  induction k with
  | zero => rw [maxANDLoop, minORLoop, BitVec.not_or, BitVec.not_not, BitVec.not_not]
  | succ k ih =>
    simp only [maxANDLoop, minORLoop, lower, swap, ih, apply_ite (~~~ ·), BitVec.not_or, BitVec.not_not]

/-! ## Boxes -/

/-- `x` is between `a` and `b`, and `y` between `c` and `d`. -/
def Box (a b c d x y : BitVec 64) : Prop := (a ≤ x ∧ x ≤ b) ∧ (c ≤ y ∧ y ≤ d)

section

variable (op : BitVec 64 → BitVec 64 → BitVec 64) (a b c d r : BitVec 64)

/-- `r` is the least value of `op` over the box. -/
def IsMinOver : Prop :=
  (∃ x y, Box a b c d x y ∧ op x y = r) ∧ ∀ x y, Box a b c d x y → r ≤ op x y

/-- `r` is the largest value of `op` over the box. -/
def IsMaxOver : Prop :=
  (∃ x y, Box a b c d x y ∧ op x y = r) ∧ ∀ x y, Box a b c d x y → op x y ≤ r

end

section Boxes

variable {a b c d : BitVec 64} (hab : a ≤ b) (hcd : c ≤ d)

include hab hcd

theorem minOR_isMinOver : IsMinOver (· ||| ·) a b c d (minOR a b c d) := by
  obtain ⟨⟨x, y, hx, hy, hr⟩, least⟩ := minORLoop_isMinOR le_rfl hab hcd
  refine ⟨⟨x, y, ⟨hx, hy⟩, hr⟩, ?_⟩
  intro x y h
  exact least x y h.1.1 h.1.2 h.2.1 h.2.2 (Agree.of_le le_rfl) (Agree.of_le le_rfl)

theorem maxOR_isMaxOver : IsMaxOver (· ||| ·) a b c d (maxOR a b c d) := by
  obtain ⟨⟨x, y, hx, hy, hr⟩, greatest⟩ := maxORLoop_isMaxOR le_rfl hab hcd
  refine ⟨⟨x, y, ⟨hx, hy⟩, hr⟩, ?_⟩
  intro x y h
  exact greatest x y h.1.1 h.1.2 h.2.1 h.2.2 (Agree.of_le le_rfl) (Agree.of_le le_rfl)

omit hab hcd in
theorem Box.not {x y : BitVec 64} (h : Box a b c d x y) : Box (~~~b) (~~~a) (~~~d) (~~~c) (~~~x) (~~~y) :=
  ⟨⟨not_le_not.2 h.1.2, not_le_not.2 h.1.1⟩, ⟨not_le_not.2 h.2.2, not_le_not.2 h.2.1⟩⟩

theorem minAND_isMinOver : IsMinOver (· &&& ·) a b c d (minAND a b c d) := by
  obtain ⟨⟨x, y, box, hr⟩, greatest⟩ := maxOR_isMaxOver (not_le_not.2 hab) (not_le_not.2 hcd)
  rw [minAND, minANDLoop_eq le_rfl]
  constructor
  · refine ⟨~~~x, ~~~y, by simpa only [BitVec.not_not] using box.not, ?_⟩
    rw [← maxOR, ← hr, BitVec.not_or]
  · intro x y h
    have := greatest _ _ h.not
    rw [← not_le_not, BitVec.not_or, BitVec.not_not, BitVec.not_not] at this
    exact this

theorem maxAND_isMaxOver : IsMaxOver (· &&& ·) a b c d (maxAND a b c d) := by
  obtain ⟨⟨x, y, box, hr⟩, least⟩ := minOR_isMinOver (not_le_not.2 hab) (not_le_not.2 hcd)
  rw [maxAND, maxANDLoop_eq]
  constructor
  · refine ⟨~~~x, ~~~y, by simpa only [BitVec.not_not] using box.not, ?_⟩
    rw [← minOR, ← hr, BitVec.not_or]
  · intro x y h
    have := least _ _ h.not
    rw [← not_le_not, BitVec.not_or, BitVec.not_not, BitVec.not_not] at this
    exact this

/-- The four functions return the extreme values over the box. -/
theorem bitBounds_exact : IsMinOver (· ||| ·) a b c d (minOR a b c d) ∧ IsMaxOver (· ||| ·) a b c d (maxOR a b c d) ∧
      IsMinOver (· &&& ·) a b c d (minAND a b c d) ∧ IsMaxOver (· &&& ·) a b c d (maxAND a b c d) :=
  ⟨minOR_isMinOver hab hcd, maxOR_isMaxOver hab hcd, minAND_isMinOver hab hcd, maxAND_isMaxOver hab hcd⟩

end Boxes

theorem bitBounds_exact_small : (minOR 5 9 6 10 = 6 ∧ maxOR 5 9 6 10 = 15 ∧ minAND 5 9 6 10 = 0 ∧ maxAND 5 9 6 10 = 9) ∧
      IsMinOver (· ||| ·) 5 9 6 10 (minOR 5 9 6 10) ∧ IsMaxOver (· ||| ·) 5 9 6 10 (maxOR 5 9 6 10) ∧
      IsMinOver (· &&& ·) 5 9 6 10 (minAND 5 9 6 10) ∧ IsMaxOver (· &&& ·) 5 9 6 10 (maxAND 5 9 6 10) :=
  ⟨by decide +kernel, bitBounds_exact (by decide) (by decide)⟩

end S2E.Klee.FastCex
