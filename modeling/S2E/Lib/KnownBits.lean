import Mathlib.Tactic

/-!
# Known bits and bits that do not matter

Masks of `m` bits speak about values of `w` bits.

* `Knows one zero v` : the bits of `one` are set in `v`, the bits of `zero` are clear. `KnowsOff ignored one zero v` says
  so outside a mask;
* `Fits w one zero` : above the width nothing is claimed to be set and everything is claimed to be clear;
* `AgreeOff ignored v v'` : two values that differ at most on the bits of a mask.

For each operation one lemma computes the known bits of the result from those of the operands (`Knows.and`, ...), and one
computes which bits of the operands the result does not depend on (`AgreeOff.and`, ...).
-/

namespace S2E.Lib
open BitVec

variable {m w k : Nat}

/-- The mask of the bits from `w` on. -/
def highBits (m w : Nat) : BitVec m := BitVec.allOnes m <<< w

@[simp] theorem getLsbD_highBits (m w i : Nat) : (highBits m w).getLsbD i = (decide (w ≤ i) && decide (i < m)) := by
  unfold highBits
  rw [getLsbD_shiftLeft, getLsbD_allOnes, Bool.eq_iff_iff]
  simp only [Bool.and_eq_true, decide_eq_true_eq, Bool.not_eq_true', decide_eq_false_iff_not]
  omega

def KnowsOff (ignored one zero : BitVec m) (v : BitVec w) : Prop :=
  ∀ i < w, ignored.getLsbD i = false →
    (one.getLsbD i = true → v.getLsbD i = true) ∧ (zero.getLsbD i = true → v.getLsbD i = false)

def Knows (one zero : BitVec m) (v : BitVec w) : Prop :=
  ∀ i < w, (one.getLsbD i = true → v.getLsbD i = true) ∧ (zero.getLsbD i = true → v.getLsbD i = false)

structure Fits (w : Nat) (one zero : BitVec m) : Prop where
  one : ∀ i, w ≤ i → one.getLsbD i = false
  zero : ∀ i, w ≤ i → i < m → zero.getLsbD i = true

def AgreeOff (ignored : BitVec m) (v v' : BitVec w) : Prop :=
  ∀ i < w, ignored.getLsbD i = false → v'.getLsbD i = v.getLsbD i

variable {ignored ignored' one zero o₀ z₀ o₁ z₁ : BitVec m} {v v' v'' x x' y y' : BitVec w}

/-! ## The relations -/

attribute [local grind =] getLsbD_and getLsbD_or getLsbD_xor getLsbD_not getLsbD_highBits
  getLsbD_shiftLeft getLsbD_ushiftRight getLsbD_zero getLsbD_one getLsbD_allOnes
  getLsbD_setWidth getLsbD_append getLsbD_extractLsb'

attribute [local grind →] Fits.one Fits.zero

attribute [local grind] Knows KnowsOff AgreeOff

theorem AgreeOff.refl (ignored : BitVec m) (v : BitVec w) : AgreeOff ignored v v := fun _ _ _ => rfl

theorem AgreeOff.of_eq (h : v' = v) : AgreeOff ignored v v' := h ▸ .refl ignored v

theorem AgreeOff.eq (h : AgreeOff 0#m v v') : v' = v :=
  eq_of_getLsbD_eq fun i hi => h i hi (by simp)

theorem Knows.off (h : Knows one zero v) (ignored : BitVec m) : KnowsOff ignored one zero v := fun i hi _ => h i hi

/-- What is known of a value is known of one that agrees with it, outside the mask. -/
theorem Knows.of_agreeOff (h : Knows one zero v) (hv : AgreeOff ignored v v') : KnowsOff ignored one zero v' := by
  intro i hi hI
  rw [hv i hi hI]
  exact h i hi

/-- Masks that claim nothing about the ignored bits. -/
theorem KnowsOff.knows (h : KnowsOff ignored one zero v)
    (hc : (one ||| zero) &&& ignored &&& ~~~(highBits m w) = 0#m) (hw : w ≤ m) : Knows one zero v := by
  intro i hi
  have hbit := congrArg (·.getLsbD i) hc
  grind

theorem Knows.disjoint (h : Knows one zero v) (hf : Fits w one zero) : one &&& zero = 0#m := by
  apply eq_of_getLsbD_eq
  intro i hi
  by_cases hw : i < w <;> grind

theorem Fits.one_and (h : Fits w one zero) : one &&& highBits m w = 0#m := by
  apply eq_of_getLsbD_eq
  grind

theorem Fits.zero_and (h : Fits w one zero) : zero &&& highBits m w = highBits m w := by
  apply eq_of_getLsbD_eq
  grind

/-- Every bit of the masks' length is known or ignored. -/
theorem getLsbD_of_covered (h : ~~~(one ||| ignored) = 0#m) {i : Nat} (hi : i < m) (hI : ignored.getLsbD i = false) :
    one.getLsbD i = true := by
  have hbit := congrArg (·.getLsbD i) h
  grind

section

variable (h : KnowsOff ignored one zero v) (hw : w ≤ m)

include h hw

/-- Where every bit is known or ignored, the known bits are the value. -/
theorem KnowsOff.agreeOff (hc : ~~~(one ||| zero ||| ignored) = 0#m) :
    AgreeOff ignored v ((one &&& ~~~(highBits m w)).setWidth w) := by
  intro i hi hI
  have hcov := getLsbD_of_covered hc (by omega) hI
  grind

/-- Where every bit is known to be set or ignored, it may be claimed that all are set. -/
theorem KnowsOff.allOnes (hc : ~~~(one ||| ignored) = 0#m) : KnowsOff ignored (BitVec.allOnes m) 0#m v := by
  intro i hi hI
  have ho := getLsbD_of_covered hc (by omega) hI
  grind

/-- Where every bit is known to be clear or ignored, it may be claimed that all are clear. -/
theorem KnowsOff.allZeros (hc : ~~~(zero ||| ignored) = 0#m) : KnowsOff ignored 0#m (BitVec.allOnes m) v := by
  intro i hi hI
  have hz := getLsbD_of_covered hc (by omega) hI
  grind

end

/-! ## Bitwise operations -/

section

variable (h₀ : Knows o₀ z₀ x) (h₁ : Knows o₁ z₁ y)

include h₀ h₁

theorem Knows.and : Knows (o₀ &&& o₁) (z₀ ||| z₁) (x &&& y) := by
  intro i hi
  grind

omit h₀ h₁ in
theorem Fits.and (h : Fits w o₀ z₀) : Fits w (o₀ &&& o₁) (z₀ ||| z₁) := by
  constructor <;> grind

/-- A bit that is clear in one operand does not matter in the other; where it is clear in both, it still matters in the
second. -/
theorem AgreeOff.and (hx : AgreeOff (ignored ||| z₁) x x')
    (hy : AgreeOff (ignored ||| (z₀ &&& ~~~z₁)) y y') (hw : w ≤ m) : AgreeOff ignored (x &&& y) (x' &&& y') := by
  intro i hi hI
  have hx := hx i hi
  have hy := hy i hi
  grind

theorem Knows.or : Knows (o₀ ||| o₁) (z₀ &&& z₁) (x ||| y) := by
  intro i hi
  grind

omit h₀ h₁ in
theorem Fits.or (h₀ : Fits w o₀ z₀) (h₁ : Fits w o₁ z₁) : Fits w (o₀ ||| o₁) (z₀ &&& z₁) := by
  constructor <;> grind

theorem AgreeOff.or (hx : AgreeOff (ignored ||| o₁) x x')
    (hy : AgreeOff (ignored ||| (o₀ &&& ~~~o₁)) y y') (hw : w ≤ m) : AgreeOff ignored (x ||| y) (x' ||| y') := by
  intro i hi hI
  have hx := hx i hi
  have hy := hy i hi
  grind

theorem Knows.xor : Knows ((z₀ &&& o₁) ||| (o₀ &&& z₁)) ((o₀ &&& o₁) ||| (z₀ &&& z₁)) (x ^^^ y) := by
  intro i hi
  grind

end

theorem Fits.xor (h₀ : Fits w o₀ z₀) (h₁ : Fits w o₁ z₁) :
    Fits w ((z₀ &&& o₁) ||| (o₀ &&& z₁)) ((o₀ &&& o₁) ||| (z₀ &&& z₁)) := by
  constructor <;> grind

theorem AgreeOff.xor (hx : AgreeOff ignored x x') (hy : AgreeOff ignored y y') :
    AgreeOff ignored (x ^^^ y) (x' ^^^ y') := by
  intro i hi hI
  rw [getLsbD_xor, getLsbD_xor, hx i hi hI, hy i hi hI]

theorem Knows.not (h : Knows one zero x) : Knows (zero &&& ~~~(highBits m w)) (one ||| highBits m w) (~~~x) := by
  intro i hi
  grind

theorem Fits.not : Fits w (zero &&& ~~~(highBits m w)) (one ||| highBits m w) := by
  constructor <;> grind

theorem AgreeOff.not (hx : AgreeOff ignored x x') : AgreeOff ignored (~~~x) (~~~x') := by
  intro i hi hI
  rw [getLsbD_not, getLsbD_not, hx i hi hI]

/-! ## Shifts by a known amount -/

theorem Knows.shl (h : Knows one zero x) (s : Nat) :
    Knows ((one <<< s) &&& ~~~(highBits m w)) ((zero <<< s) ||| highBits m w ||| ~~~(highBits m s)) (x <<< s) := by
  intro i hi
  have hb := h (i - s)
  grind

theorem Fits.shl (s : Nat) :
    Fits w ((one <<< s) &&& ~~~(highBits m w)) ((zero <<< s) ||| highBits m w ||| ~~~(highBits m s)) := by
  constructor <;> grind

theorem AgreeOff.shl {s : Nat} (hx : AgreeOff (((ignored &&& ~~~(highBits m w)) >>> s) ||| highBits m (w - s)) x x') :
    AgreeOff ignored (x <<< s) (x' <<< s) := by
  intro i hi hI
  have hb := hx (i - s)
  by_cases hs : i < s
  · grind
  · rw [show i = s + (i - s) by omega] at hI
    grind

theorem Knows.lshr (h : Knows one zero x) (hf : Fits w one zero) (s : Nat) :
    Knows (one >>> s) ((zero >>> s) ||| highBits m (w - s)) (x >>> s) := by
  intro i hi
  have hb := h (s + i)
  have hone := hf.one (s + i)
  grind

theorem Fits.lshr (h : Fits w one zero) (s : Nat) : Fits w (one >>> s) ((zero >>> s) ||| highBits m (w - s)) where
  one i hi := by rw [getLsbD_ushiftRight, h.one _ (by omega)]
  zero i hi hm := by grind

theorem AgreeOff.lshr {s : Nat} (hx : AgreeOff ((ignored <<< s) ||| ~~~(highBits m s) ||| highBits m w) x x') :
    AgreeOff ignored (x >>> s) (x' >>> s) := by
  intro i hi hI
  have hb := hx (s + i)
  grind

/-! ## Slices and extensions -/

variable {a b : Nat}

theorem Knows.extract {x : BitVec k} (h : Knows one zero x) {off : Nat} (hk : off + w ≤ k) :
    Knows ((one >>> off) &&& ~~~(highBits m w)) ((zero >>> off) ||| highBits m w) (x.extractLsb' off w) := by
  intro i hi
  have hb := h (off + i)
  grind

theorem Fits.extract (off : Nat) : Fits w ((one >>> off) &&& ~~~(highBits m w)) ((zero >>> off) ||| highBits m w) := by
  constructor <;> grind

theorem AgreeOff.extract {x x' : BitVec k} {off : Nat} (hm : k ≤ m)
    (hx : AgreeOff ((ignored <<< off) ||| ~~~(~~~(highBits m w) <<< off)) x x') :
    AgreeOff ignored (x.extractLsb' off w) (x'.extractLsb' off w) := by
  intro i hi hI
  have hb := hx (off + i)
  grind

section Concat

variable {x x' : BitVec a} {y y' : BitVec b}

theorem Knows.concat (h₀ : Knows o₀ z₀ x) (h₁ : Knows o₁ z₁ y) (hf : Fits b o₁ z₁) (hm : a + b ≤ m) :
    Knows ((o₀ <<< b) ||| o₁) ((z₀ <<< b) ||| (z₁ &&& ~~~(highBits m b))) (x ++ y) := by
  intro i hi
  have hx := h₀ (i - b)
  grind

theorem Fits.concat (h₀ : Fits a o₀ z₀) (h₁ : Fits b o₁ z₁) :
    Fits (a + b) ((o₀ <<< b) ||| o₁) ((z₀ <<< b) ||| (z₁ &&& ~~~(highBits m b))) where
  one i hi := by
    have hx := h₀.one (i - b)
    have hy := h₁.one i
    grind
  zero i hi hm := by
    have hx := h₀.zero (i - b)
    grind

theorem AgreeOff.concat (hx : AgreeOff ((ignored >>> b) ||| highBits m a) x x')
    (hy : AgreeOff (ignored ||| highBits m b) y y') : AgreeOff ignored (x ++ y) (x' ++ y') := by
  intro i hi hI
  have hx := hx (i - b)
  have hy := hy i
  grind

end Concat

theorem Knows.ite {p : Prop} [Decidable p] (h₀ : Knows o₀ z₀ x) (h₁ : Knows o₁ z₁ y) :
    Knows (o₀ &&& o₁) ((z₀ &&& z₁) ||| highBits m w) (if p then x else y) := by
  intro i hi
  split <;> grind

theorem Fits.ite (h : Fits w o₀ z₀) : Fits w (o₀ &&& o₁) ((z₀ &&& z₁) ||| highBits m w) := by
  constructor <;> grind

theorem AgreeOff.ite {p : Prop} [Decidable p] (hx : AgreeOff ignored x x') (hy : AgreeOff ignored y y') :
    AgreeOff ignored (if p then x else y) (if p then x' else y') := by
  split
  · exact hx
  · exact hy

theorem Knows.zext {x : BitVec k} (h : Knows one zero x) (hf : Fits k one zero) : Knows one zero (x.setWidth w) := by
  intro i hi
  have hone := hf.one i
  grind

theorem Fits.mono (h : Fits k one zero) (hk : k ≤ w) : Fits w one zero :=
  ⟨fun i hi => h.one i (hk.trans hi), fun i hi => h.zero i (hk.trans hi)⟩

theorem AgreeOff.zext {x x' : BitVec k} (hx : AgreeOff ignored x x') :
    AgreeOff ignored (x.setWidth w) (x'.setWidth w) := by
  intro i hi hI
  grind

/-! ## Sign extension -/

theorem and_bit_ne_zero {c : BitVec m} {i : Nat} : c &&& (1#m <<< i) ≠ 0#m ↔ c.getLsbD i = true := by
  rw [← twoPow_eq, and_twoPow]
  by_cases hc : c.getLsbD i = true
  · have hne : BitVec.twoPow m i ≠ 0#m := by
      intro h
      have hbit := congrArg (·.getLsbD i) h
      simp [lt_of_getLsbD hc] at hbit
    simp [hc, hne]
  · simp [hc]

section SExt

variable {x x' : BitVec k}

theorem getLsbD_sext (x : BitVec k) {i : Nat} (hi : i < w) :
    (x.signExtend w).getLsbD i = if i < k then x.getLsbD i else x.getLsbD (k - 1) := by
  rw [getLsbD_signExtend, decide_eq_true hi, Bool.true_and, msb_eq_getLsbD_last]

theorem Knows.sext (h : Knows one zero x) (hf : Fits k one zero) (hm : w ≤ m) :
    Knows one (zero &&& ~~~(highBits m k &&& ~~~(highBits m w))) (x.signExtend w) := by
  intro i hi
  have hone := hf.one i
  rw [getLsbD_sext x hi]
  grind

theorem Knows.sext_neg (h : Knows one zero x) (hs : one &&& (1#m <<< (k - 1)) ≠ 0#m) (hm : w ≤ m) (hk : 0 < k) :
    Knows (one ||| (highBits m k &&& ~~~(highBits m w))) (zero &&& ~~~(highBits m k &&& ~~~(highBits m w)))
      (x.signExtend w) := by
  intro i hi
  have hx := (h (k - 1) (by omega)).1 (and_bit_ne_zero.1 hs)
  rw [getLsbD_sext x hi]
  grind

theorem Knows.sext_pos (h : Knows one zero x) (hf : Fits k one zero) (hs : zero &&& (1#m <<< (k - 1)) ≠ 0#m)
    (hm : w ≤ m) (hk : 0 < k) :
    Knows one (zero ||| (highBits m k &&& ~~~(highBits m w))) (x.signExtend w) := by
  intro i hi
  have hx := (h (k - 1) (by omega)).2 (and_bit_ne_zero.1 hs)
  have hone := hf.one i
  rw [getLsbD_sext x hi]
  grind

section

variable (h : Fits k one zero) (hk : k ≤ w)

include h hk

theorem Fits.sext : Fits w one (zero &&& ~~~(highBits m k &&& ~~~(highBits m w))) where
  one i hi := h.one i (hk.trans hi)
  zero i hi him := by grind

theorem Fits.sext_neg :
    Fits w (one ||| (highBits m k &&& ~~~(highBits m w))) (zero &&& ~~~(highBits m k &&& ~~~(highBits m w))) := by
  constructor <;> grind

theorem Fits.sext_pos : Fits w one (zero ||| (highBits m k &&& ~~~(highBits m w))) where
  one i hi := h.one i (hk.trans hi)
  zero i hi him := by grind

end

/-- Unless all bits that repeat the sign are ignored, the sign matters. -/
theorem AgreeOff.sext (hm : w ≤ m) (hk : 0 < k)
    (hx : AgreeOff (if highBits m k &&& ~~~(highBits m w) &&& ~~~ignored ≠ 0#m then ignored &&& ~~~(1#m <<< (k - 1))
      else ignored) x x') :
    AgreeOff ignored (x.signExtend w) (x'.signExtend w) := by
  intro i hi hI
  rw [getLsbD_sext x hi, getLsbD_sext x' hi]
  by_cases hik : i < k
  · grind
  · rw [if_neg hik, if_neg hik]
    apply hx (k - 1) (by omega)
    have hne : highBits m k &&& ~~~(highBits m w) &&& ~~~ignored ≠ 0#m := by
      intro h
      have hbit := congrArg (·.getLsbD i) h
      grind
    rw [if_pos hne]
    grind

end SExt

/-! ## Constants and values of which nothing is known -/

theorem Knows.const (v : BitVec w) (hm : w ≤ m) : Knows (v.setWidth m) (~~~(v.setWidth m)) v := by
  intro i hi
  grind

theorem Fits.const (v : BitVec w) : Fits w (v.setWidth m) (~~~(v.setWidth m)) := by
  constructor <;> grind

theorem Knows.top (v : BitVec w) : Knows 0#m (highBits m w) v := by
  intro i hi
  grind

theorem Fits.top : Fits w 0#m (highBits m w) := by
  constructor <;> grind

theorem Knows.clear : Knows 0#m (BitVec.allOnes m) (0#w) := by
  intro i hi
  grind

theorem Fits.clear : Fits w 0#m (BitVec.allOnes m) := by
  constructor <;> grind

end S2E.Lib
