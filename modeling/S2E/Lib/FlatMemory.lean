import Mathlib.Tactic

/-!
# A flat array of bytes

* `read m off n` : the `n` bytes from `off` on, as a little-endian number;
* `write m off n v` : the array after the low `n` bytes of the number `v` are stored from `off` on, the lowest first;
* `load m off n`, `store m off bs` : the bytes of a range as a list;
* `copy m m' n` : the array with the first `n` bytes of another.

`read` and `write` are given byte by byte; `read_succ` and `write_succ` say how they grow.
-/

namespace S2E.Lib
open Function List BitVec
open BitVec (ofNat toNat_ofNat)

abbrev FlatMemory := Nat → BitVec 8

namespace FlatMemory

def read (m : FlatMemory) (off n : Nat) : Nat := ∑ i ∈ Finset.range n, (m (off + i)).toNat * 256 ^ i

def write (m : FlatMemory) (off n v : Nat) : FlatMemory := fun j =>
  if off ≤ j ∧ j < off + n then ofNat 8 (v / 256 ^ (j - off)) else m j

def load (m : FlatMemory) (off n : Nat) : List (BitVec 8) := (range n).map fun i => m (off + i)

def store (m : FlatMemory) (off : Nat) (bs : List (BitVec 8)) : FlatMemory := fun j =>
  if off ≤ j ∧ j < off + bs.length then bs.getD (j - off) 0 else m j

def copy (m m' : FlatMemory) (n : Nat) : FlatMemory := fun j => if j < n then m' j else m j

variable {m m' : FlatMemory} {off n v : Nat}

theorem read_congr (h : ∀ i, off ≤ i → i < off + n → m i = m' i) : m.read off n = m'.read off n := by
  refine Finset.sum_congr rfl fun i hi => ?_
  rw [h (off + i) (Nat.le_add_right off i) (Nat.add_lt_add_left (Finset.mem_range.1 hi) off)]

theorem load_congr (h : ∀ i, off ≤ i → i < off + n → m i = m' i) : m.load off n = m'.load off n := by
  refine map_congr_left fun i hi => ?_
  exact h (off + i) (Nat.le_add_right off i) (Nat.add_lt_add_left (mem_range.1 hi) off)

theorem load_succ : m.load off (n + 1) = m.load off n ++ [m (off + n)] := by
  rw [load, range_succ, map_append]
  rfl

@[simp] theorem store_nil : m.store off [] = m := by
  funext j
  rw [store, if_neg]
  simp only [length_nil]
  omega

theorem store_cons (b : BitVec 8) (bs : List (BitVec 8)) :
    m.store off (b :: bs) = store (update m off b) (off + 1) bs := by
  funext j
  unfold store
  by_cases hj : j = off
  · grind
  · rw [update_of_ne hj]
    by_cases hin : off + 1 ≤ j ∧ j < off + 1 + bs.length
    · grind
    · rw [if_neg hin, if_neg (by rw [length_cons]; omega)]

@[simp] theorem read_zero : m.read off 0 = 0 := Finset.sum_range_zero _

theorem read_succ : m.read off (n + 1) = m.read off n + (m (off + n)).toNat * 256 ^ n := Finset.sum_range_succ _ n

theorem read_one : m.read off 1 = (m off).toNat := by
  rw [read_succ, read_zero]
  simp

theorem two_pow_eight_mul (n : Nat) : 2 ^ (8 * n) = 256 ^ n := pow_mul 2 8 n

theorem read_lt (m : FlatMemory) (off n : Nat) : m.read off n < 256 ^ n := by
  induction n with
  | zero => simp
  | succ n ih =>
    have hb := (m (off + n)).isLt
    calc m.read off (n + 1) = m.read off n + (m (off + n)).toNat * 256 ^ n := read_succ
      _ < 256 ^ n + (m (off + n)).toNat * 256 ^ n := Nat.add_lt_add_right ih _
      _ = ((m (off + n)).toNat + 1) * 256 ^ n := by ring
      _ ≤ 256 * 256 ^ n := Nat.mul_le_mul_right _ hb
      _ = 256 ^ (n + 1) := by ring

/-- One more byte put in front of the value of the bytes below it. -/
theorem append_read : m (off + n) ++ ofNat (8 * n) (m.read off n) =
    ofNat (8 + 8 * n) (m.read off (n + 1)) := by
  have hlt := read_lt m off n
  have hlt' := read_lt m off (n + 1)
  have hp : 2 ^ (8 + 8 * n) = 256 ^ (n + 1) := by rw [← two_pow_eight_mul, Nat.mul_succ, Nat.add_comm]
  apply eq_of_toNat_eq
  rw [toNat_append, toNat_ofNat, toNat_ofNat, hp, two_pow_eight_mul, Nat.mod_eq_of_lt hlt,
    Nat.mod_eq_of_lt hlt', ← Nat.shiftLeft_add_eq_or_of_lt (two_pow_eight_mul n ▸ hlt), Nat.shiftLeft_eq,
    two_pow_eight_mul, read_succ, Nat.add_comm]

@[simp] theorem write_zero : m.write off 0 v = m := by
  funext j
  rw [write, if_neg (by omega)]

theorem write_succ : m.write off (n + 1) v = update (m.write off n v) (off + n) (ofNat 8 (v / 256 ^ n)) := by
  funext j
  by_cases hj : j = off + n
  · subst hj
    rw [update_self, write, if_pos (by omega), Nat.add_sub_cancel_left]
  · rw [update_of_ne hj, write, write]
    by_cases hin : off ≤ j ∧ j < off + n
    · rw [if_pos hin, if_pos (by omega)]
    · rw [if_neg hin, if_neg (by omega)]

theorem write_one : m.write off 1 v = update m off (ofNat 8 v) := by
  rw [write_succ, write_zero]
  simp

theorem store_bytes : m.store off ((range n).map fun i => ofNat 8 (v / 256 ^ i)) = m.write off n v := by
  funext j
  unfold store write
  rw [length_map, length_range]
  by_cases hj : off ≤ j ∧ j < off + n
  · grind
  · rw [if_neg hj, if_neg hj]

theorem read_bytes (h : ∀ i < n, m (off + i) = ofNat 8 (v / 256 ^ i)) : m.read off n = v % 256 ^ n := by
  induction n with
  | zero => rw [read_zero, pow_zero, Nat.mod_one]
  | succ n ih =>
    have hmod : v % 256 ^ (n + 1) = v % 256 ^ n + 256 ^ n * (v / 256 ^ n % 256) := Nat.mod_pow_succ
    rw [read_succ, ih fun i hi => h i (by omega), h n (by omega), toNat_ofNat, hmod, Nat.mul_comm]

/-- The byte of a bit vector that the loop of a write stores at the distance `n`. -/
theorem byte_eq {w : Nat} (x : BitVec w) : ofNat 8 (x.toNat / 256 ^ n) = x.extractLsb' (8 * n) 8 := by
  apply eq_of_toNat_eq
  rw [toNat_ofNat, extractLsb'_toNat, Nat.shiftRight_eq_div_pow, two_pow_eight_mul]

end FlatMemory

end S2E.Lib
