import Mathlib.Tactic

/-!
# Terms of STP

What the C interface of STP builds: formulas, bit-vector terms and arrays of bytes, over variables of any type.

* `VCExpr` : a constructor for each function of the interface (`vc_trueExpr`, `vc_bvConcatExpr`, ...);
* `VCExpr.value` : the standard meaning, with no value for a term that does not typecheck;
* `VCExpr.Is`, `VCExpr.IsBool`, `VCExpr.IsArray` : the value of a term, by its sort, with a lemma for each constructor.
-/

namespace S2E.Stp
open Option

open Option (bind_eq_some_iff)

/-- The functions that take the width of the result. -/
inductive BvOp
  | plus | minus | mult | div | mod | sbvDiv | sbvMod
deriving DecidableEq

inductive BitOp
  | and | or | xor
deriving DecidableEq

inductive BvRel
  | lt | le | sbvLt | sbvLe
deriving DecidableEq

inductive VCExpr (V : Type)
  | trueExpr
  | falseExpr
  /-- A number that fits. -/
  | bvConst (nBits value : Nat)
  /-- A variable of the type of arrays from 32 to 8 bits. -/
  | varExpr (v : V)
  | readExpr (array index : VCExpr V)
  | writeExpr (array index value : VCExpr V)
  | iteExpr (cond thenPart elsePart : VCExpr V)
  | notExpr (e : VCExpr V)
  | andExpr (left right : VCExpr V)
  | orExpr (left right : VCExpr V)
  | iffExpr (left right : VCExpr V)
  | eqExpr (left right : VCExpr V)
  | bvRel (rel : BvRel) (left right : VCExpr V)
  | bvExtract (e : VCExpr V) (hi lo : Nat)
  | bvConcatExpr (left right : VCExpr V)
  | bvSignExtend (e : VCExpr V) (nBits : Nat)
  | bvExpr (op : BvOp) (nBits : Nat) (left right : VCExpr V)
  | bvBitExpr (op : BitOp) (left right : VCExpr V)
  | bvNotExpr (e : VCExpr V)
  | bvUMinusExpr (e : VCExpr V)

inductive Value
  | bool (b : Bool)
  | bv (n : Nat) (v : BitVec n)
  | array (f : BitVec 32 → BitVec 8)

def BvOp.eval : BvOp → {n : Nat} → BitVec n → BitVec n → BitVec n
  | .plus, _, x, y => x + y
  | .minus, _, x, y => x - y
  | .mult, _, x, y => x * y
  | .div, _, x, y => x.smtUDiv y
  | .mod, _, x, y => x % y
  | .sbvDiv, _, x, y => x.smtSDiv y
  | .sbvMod, _, x, y => x.srem y

def BitOp.eval : BitOp → {n : Nat} → BitVec n → BitVec n → BitVec n
  | .and, _, x, y => x &&& y
  | .or, _, x, y => x ||| y
  | .xor, _, x, y => x ^^^ y

def BvRel.eval : BvRel → {n : Nat} → BitVec n → BitVec n → Bool
  | .lt, _, x, y => x.ult y
  | .le, _, x, y => x.ule y
  | .sbvLt, _, x, y => x.slt y
  | .sbvLe, _, x, y => x.sle y

namespace Value

def read : Value → Value → Option Value
  | .array f, .bv n i => if n = 32 then some (.bv 8 (f (i.setWidth 32))) else none
  | _, _ => none

def write : Value → Value → Value → Option Value
  | .array f, .bv n i, .bv m v =>
    if n = 32 ∧ m = 8 then some (.array (Function.update f (i.setWidth 32) (v.setWidth 8))) else none
  | _, _, _ => none

def ite : Value → Value → Value → Option Value
  | .bool c, .bool a, .bool b => some (.bool (if c then a else b))
  | .bool c, .bv n a, .bv m b => if m = n then some (.bv n (if c then a else b.setWidth n)) else none
  | .bool c, .array a, .array b => some (.array (if c then a else b))
  | _, _, _ => none

/-- A connective of formulas. -/
def connect (f : Bool → Bool → Bool) : Value → Value → Option Value
  | .bool a, .bool b => some (.bool (f a b))
  | _, _ => none

/-- A relation between terms of one width. -/
def relate (f : {n : Nat} → BitVec n → BitVec n → Bool) : Value → Value → Option Value
  | .bv n a, .bv m b => if m = n then some (.bool (f a (b.setWidth n))) else none
  | _, _ => none

/-- An operation on terms of one width. -/
def combine (f : {n : Nat} → BitVec n → BitVec n → BitVec n) : Value → Value → Option Value
  | .bv n a, .bv m b => if m = n then some (.bv n (f a (b.setWidth n))) else none
  | _, _ => none

def extract (hi lo : Nat) : Value → Option Value
  | .bv n a => if lo ≤ hi ∧ hi < n then some (.bv (hi - lo + 1) (a.extractLsb hi lo)) else none
  | _ => none

def concat : Value → Value → Option Value
  | .bv n a, .bv m b => some (.bv (n + m) (a ++ b))
  | _, _ => none

/-- The sign is extended, or the lower bits are taken. -/
def signExtend (k : Nat) : Value → Option Value
  | .bv _ a => if k = 0 then none else some (.bv k (a.signExtend k))
  | _ => none

def apply (f : {n : Nat} → BitVec n → BitVec n) : Value → Option Value
  | .bv n a => some (.bv n (f a))
  | _ => none

def not : Value → Option Value
  | .bool a => some (.bool !a)
  | _ => none

/-- The width is the one that the interface was told. -/
def withWidth (k : Nat) : Value → Option Value
  | .bv n a => if n = k then some (.bv n a) else none
  | _ => none

/-! ### Widths of values -/

/-- The width of a bit vector. -/
def width : Value → Option Nat
  | .bv n _ => some n
  | _ => none

variable {u v w z : Value}

theorem width_read (h : u.read v = some z) : z.width = some 8 := by
  unfold read at h
  grind [width]

theorem width_write (h : u.write v w = some z) : z.width = none := by
  unfold write at h
  grind [width]

theorem width_ite (h : u.ite v w = some z) : z.width = v.width := by
  unfold ite at h
  grind [width]

theorem width_not (h : u.not = some z) : z.width = none := by
  unfold not at h
  grind [width]

theorem width_connect {f : Bool → Bool → Bool} (h : u.connect f v = some z) : z.width = none := by
  unfold connect at h
  grind [width]

theorem width_relate {f : {n : Nat} → BitVec n → BitVec n → Bool} (h : u.relate f v = some z) : z.width = none := by
  unfold relate at h
  grind [width]

theorem width_combine {f : {n : Nat} → BitVec n → BitVec n → BitVec n} (h : u.combine f v = some z) :
    z.width = u.width := by
  unfold combine at h
  grind [width]

theorem width_extract {hi lo : Nat} (h : u.extract hi lo = some z) : z.width = some (hi - lo + 1) := by
  unfold extract at h
  grind [width]

theorem width_concat (h : u.concat v = some z) :
    ∃ n m, u.width = some n ∧ v.width = some m ∧ z.width = some (n + m) := by
  unfold concat at h
  split at h
  · cases h
    exact ⟨_, _, rfl, rfl, rfl⟩
  · cases h

theorem width_signExtend {k : Nat} (h : u.signExtend k = some z) : z.width = some k := by
  unfold signExtend at h
  grind [width]

theorem width_apply {f : {n : Nat} → BitVec n → BitVec n} (h : u.apply f = some z) : z.width = u.width := by
  unfold apply at h
  grind [width]

theorem width_withWidth {k : Nat} (h : u.withWidth k = some z) : z.width = some k := by
  unfold withWidth at h
  grind [width]

end Value

namespace VCExpr

variable {V : Type}

@[simp] def value (ρ : V → BitVec 32 → BitVec 8) : VCExpr V → Option Value
  | trueExpr => some (.bool true)
  | falseExpr => some (.bool false)
  | bvConst n v => if n = 0 ∨ 2 ^ n ≤ v then none else some (.bv n (BitVec.ofNat n v))
  | varExpr v => some (.array (ρ v))
  | readExpr a i => (a.value ρ).bind fun a => (i.value ρ).bind fun i => a.read i
  | writeExpr a i v => (a.value ρ).bind fun a => (i.value ρ).bind fun i => (v.value ρ).bind fun v => a.write i v
  | iteExpr c t e => (c.value ρ).bind fun c => (t.value ρ).bind fun t => (e.value ρ).bind fun e => c.ite t e
  | notExpr e => (e.value ρ).bind Value.not
  | andExpr l r => (l.value ρ).bind fun l => (r.value ρ).bind fun r => l.connect and r
  | orExpr l r => (l.value ρ).bind fun l => (r.value ρ).bind fun r => l.connect or r
  | iffExpr l r => (l.value ρ).bind fun l => (r.value ρ).bind fun r => l.connect (· == ·) r
  | eqExpr l r => (l.value ρ).bind fun l => (r.value ρ).bind fun r => l.relate (· == ·) r
  | bvRel rel l r => (l.value ρ).bind fun l => (r.value ρ).bind fun r => l.relate rel.eval r
  | bvExtract e hi lo => (e.value ρ).bind (Value.extract hi lo)
  | bvConcatExpr l r => (l.value ρ).bind fun l => (r.value ρ).bind fun r => l.concat r
  | bvSignExtend e n => (e.value ρ).bind (Value.signExtend n)
  | bvExpr op n l r =>
    (l.value ρ).bind fun l => (r.value ρ).bind fun r => (l.combine op.eval r).bind (Value.withWidth n)
  | bvBitExpr op l r => (l.value ρ).bind fun l => (r.value ρ).bind fun r => l.combine op.eval r
  | bvNotExpr e => (e.value ρ).bind (Value.apply (~~~·))
  | bvUMinusExpr e => (e.value ρ).bind (Value.apply (-·))

/-- `vc_getBVLength`, which is for bit-vector terms. -/
def getBVLength : VCExpr V → Nat
  | bvConst n _ | bvSignExtend _ n | bvExpr _ n _ _ => n
  | readExpr _ _ => 8
  | iteExpr _ t _ => t.getBVLength
  | bvExtract _ hi lo => hi - lo + 1
  | bvConcatExpr l r => l.getBVLength + r.getBVLength
  | bvBitExpr _ l _ => l.getBVLength
  | bvNotExpr e | bvUMinusExpr e => e.getBVLength
  | _ => 0

variable (ρ : V → BitVec 32 → BitVec 8)

/-- The term is a bit vector. -/
def Is (t : VCExpr V) {n : Nat} (v : BitVec n) : Prop := t.value ρ = some (.bv n v)

/-- The term is a formula. -/
def IsBool (t : VCExpr V) (b : Bool) : Prop := t.value ρ = some (.bool b)

def IsArray (t : VCExpr V) (f : BitVec 32 → BitVec 8) : Prop := t.value ρ = some (.array f)

variable {ρ} {a i l r t e c : VCExpr V} {n m : Nat} {x y : BitVec n} {p q : Bool} {f : BitVec 32 → BitVec 8}

theorem Is.congr (h : t.Is ρ x) {z : BitVec m} (hn : n = m) (hx : x.toNat = z.toNat) : t.Is ρ z := by
  subst hn
  rw [← BitVec.eq_of_toNat_eq hx]
  exact h

theorem is_bvConst {v : Nat} (hn : 0 < n) (hv : v < 2 ^ n) : (bvConst n v).Is ρ (BitVec.ofNat n v) :=
  if_neg (by omega)

theorem bvConst_of_le {v : Nat} (hv : 2 ^ n ≤ v) : (bvConst n v).value ρ = none := if_pos (.inr hv)

theorem Is.readExpr (ha : a.IsArray ρ f) {k : BitVec 32} (hi : i.Is ρ k) : (readExpr a i).Is ρ (f k) := by
  unfold Is IsArray at *
  simp [ha, hi, Value.read]

theorem IsArray.writeExpr (ha : a.IsArray ρ f) {k : BitVec 32} (hi : i.Is ρ k) {b : BitVec 8} (he : e.Is ρ b) :
    (writeExpr a i e).IsArray ρ (Function.update f k b) := by
  unfold Is IsArray at *
  simp [ha, hi, he, Value.write]

theorem Is.iteExpr (hc : c.IsBool ρ p) (hl : l.Is ρ x) (hr : r.Is ρ y) : (iteExpr c l r).Is ρ (if p then x else y) := by
  unfold Is IsBool at *
  simp [hc, hl, hr, Value.ite]

theorem IsBool.iteExpr {s : Bool} (hc : c.IsBool ρ s) (hl : l.IsBool ρ p) (hr : r.IsBool ρ q) :
    (iteExpr c l r).IsBool ρ (if s then p else q) := by
  unfold IsBool at *
  simp [hc, hl, hr, Value.ite]

theorem IsBool.notExpr (h : t.IsBool ρ p) : (notExpr t).IsBool ρ !p := by
  unfold IsBool at *
  simp [h, Value.not]

section

variable (hl : l.IsBool ρ p) (hr : r.IsBool ρ q)

include hl hr

theorem IsBool.andExpr : (andExpr l r).IsBool ρ (p && q) := by
  unfold IsBool at *
  simp [hl, hr, Value.connect]

theorem IsBool.orExpr : (orExpr l r).IsBool ρ (p || q) := by
  unfold IsBool at *
  simp [hl, hr, Value.connect]

theorem IsBool.iffExpr : (iffExpr l r).IsBool ρ (p == q) := by
  unfold IsBool at *
  simp [hl, hr, Value.connect]

end

theorem IsBool.eqExpr (hl : l.Is ρ x) (hr : r.Is ρ y) : (eqExpr l r).IsBool ρ (x == y) := by
  unfold Is IsBool at *
  simp [hl, hr, Value.relate]

theorem IsBool.bvRel (rel : BvRel) (hl : l.Is ρ x) (hr : r.Is ρ y) : (bvRel rel l r).IsBool ρ (rel.eval x y) := by
  unfold Is IsBool at *
  simp [hl, hr, Value.relate]

theorem Is.bvExtract (h : t.Is ρ x) {hi lo : Nat} (hlo : lo ≤ hi) (hhi : hi < n) :
    (bvExtract t hi lo).Is ρ (x.extractLsb hi lo) := by
  unfold Is at *
  simp [h, Value.extract, hlo, hhi]

theorem Is.bvConcatExpr (hl : l.Is ρ x) {z : BitVec m} (hr : r.Is ρ z) : (bvConcatExpr l r).Is ρ (x ++ z) := by
  unfold Is at *
  simp [hl, hr, Value.concat]

theorem Is.bvSignExtend (h : t.Is ρ x) (hm : 0 < m) : (bvSignExtend t m).Is ρ (x.signExtend m) := by
  unfold Is at *
  simp [h, Value.signExtend, Nat.ne_of_gt hm]

theorem Is.bvExpr (op : BvOp) (hl : l.Is ρ x) (hr : r.Is ρ y) : (bvExpr op n l r).Is ρ (op.eval x y) := by
  unfold Is at *
  simp [hl, hr, Value.combine, Value.withWidth]

theorem Is.bvBitExpr (op : BitOp) (hl : l.Is ρ x) (hr : r.Is ρ y) : (bvBitExpr op l r).Is ρ (op.eval x y) := by
  unfold Is at *
  simp [hl, hr, Value.combine]

theorem Is.bvNotExpr (h : t.Is ρ x) : (bvNotExpr t).Is ρ (~~~x) := by
  unfold Is at *
  simp [h, Value.apply]

theorem Is.bvUMinusExpr (h : t.Is ρ x) : (bvUMinusExpr t).Is ρ (-x) := by
  unfold Is at *
  simp [h, Value.apply]

/-! ## Widths -/

omit ρ in
theorem exists_of_bind₂ {x y : Option Value} {g : Value → Value → Option Value} {z : Value}
    (h : (x.bind fun u => y.bind fun v => g u v) = some z) : ∃ u v, x = some u ∧ y = some v ∧ g u v = some z := by
  obtain ⟨u, hu, h⟩ := bind_eq_some_iff.1 h
  obtain ⟨v, hv, h⟩ := bind_eq_some_iff.1 h
  exact ⟨u, v, hu, hv, h⟩

/-- Where a term has a bit vector as its value, the interface knows the width. -/
theorem getBVLength_of_value {z : Value} (h : t.value ρ = some z) : ∀ n, z.width = some n → t.getBVLength = n := by
  induction t generalizing z with
  | trueExpr | falseExpr | varExpr v =>
    cases h
    nofun
  | bvConst k v =>
    obtain ⟨-, h⟩ := ite_none_left_eq_some.1 h
    cases h
    exact fun n => some.inj
  | readExpr a i _ _ =>
    obtain ⟨u, v, -, -, h⟩ := exists_of_bind₂ h
    rw [Value.width_read h]
    exact fun n => some.inj
  | writeExpr a i v _ _ _ =>
    obtain ⟨u, -, h⟩ := bind_eq_some_iff.1 h
    obtain ⟨v, w, -, -, h⟩ := exists_of_bind₂ h
    rw [Value.width_write h]
    nofun
  | iteExpr c l r _ ihl _ =>
    obtain ⟨u, -, h⟩ := bind_eq_some_iff.1 h
    obtain ⟨v, w, hv, -, h⟩ := exists_of_bind₂ h
    rw [Value.width_ite h]
    exact ihl hv
  | notExpr e _ =>
    obtain ⟨u, -, h⟩ := bind_eq_some_iff.1 h
    rw [Value.width_not h]
    nofun
  | andExpr l r _ _ | orExpr l r _ _ | iffExpr l r _ _ =>
    obtain ⟨u, v, -, -, h⟩ := exists_of_bind₂ h
    rw [Value.width_connect h]
    nofun
  | eqExpr l r _ _ | bvRel rel l r _ _ =>
    obtain ⟨u, v, -, -, h⟩ := exists_of_bind₂ h
    rw [Value.width_relate h]
    nofun
  | bvExtract e hi lo _ =>
    obtain ⟨u, -, h⟩ := bind_eq_some_iff.1 h
    rw [Value.width_extract h]
    exact fun n => some.inj
  | bvConcatExpr l r ihl ihr =>
    obtain ⟨u, v, hu, hv, h⟩ := exists_of_bind₂ h
    obtain ⟨k, m, hk, hm, hz⟩ := Value.width_concat h
    rw [hz, VCExpr.getBVLength, ihl hu k hk, ihr hv m hm]
    exact fun n => some.inj
  | bvSignExtend e k _ =>
    obtain ⟨u, -, h⟩ := bind_eq_some_iff.1 h
    rw [Value.width_signExtend h]
    exact fun n => some.inj
  | bvExpr op k l r _ _ =>
    obtain ⟨u, v, -, -, h⟩ := exists_of_bind₂ h
    obtain ⟨w, -, h⟩ := bind_eq_some_iff.1 h
    rw [Value.width_withWidth h]
    exact fun n => some.inj
  | bvBitExpr op l r ihl _ =>
    obtain ⟨u, v, hu, -, h⟩ := exists_of_bind₂ h
    rw [Value.width_combine h]
    exact ihl hu
  | bvNotExpr e ih | bvUMinusExpr e ih =>
    obtain ⟨u, hu, h⟩ := bind_eq_some_iff.1 h
    rw [Value.width_apply h]
    exact ih hu

theorem Is.getBVLength (h : t.Is ρ x) : t.getBVLength = n :=
  getBVLength_of_value h n rfl

end VCExpr

end S2E.Stp
