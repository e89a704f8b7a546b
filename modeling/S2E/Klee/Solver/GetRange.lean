import S2E.Klee.Solver.Query
import S2E.Klee.Util.Bits
import S2E.Lib.Bisect

/-!
# `Solver::getRange`

The least and the greatest value of an expression under constraints, by three binary searches: for the number of bits that
are used, for the least value, and for the greatest from there on.

* `ConstantExpr.create` asserts that the value fits the width;
* `SolverImpl.mustBeTrue`, `mayBeTrue`, `evaluate` : the queries of `Solver`, which answer constants without the solver.

All counters are words of 64 bits, and shifts by more than 63 bits trap.
-/

namespace S2E.Klee

open S2E.Lib BitVec Set
open Nat (pow_le_pow_right mod_eq_of_lt two_pow_pos sub_le)
open BitVec (isLt ofNat)

/-- `ConstantExpr::create`. -/
def ConstantExpr.create (v : BitVec 64) (w : Nat) : Except Trap Expr :=
  if 0 < w ∧ w ≤ 64 ∧ v = Bits64.truncateToNBits v w then .ok (.const v.toNat w) else .error .assertFailed

namespace SolverImpl

variable [Options] (solver : SolverImpl)

omit [Options] in
/-- `Solver::evaluate`. -/
def evaluate (q : Query) : Except Trap (Option Validity) :=
  if q.expr.getWidth = 1 then
    match q.expr with
    | .constant c => return some (if c.isTrue then .True else .False)
    | _ => return solver.computeValidity q
  else throw .assertFailed

omit [Options] in
/-- `Solver::mustBeTrue`. -/
def mustBeTrue (q : Query) : Except Trap (Option Bool) :=
  if q.expr.getWidth = 1 then
    match q.expr with
    | .constant c => return some c.isTrue
    | _ => return solver.computeTruth q
  else throw .assertFailed

/-- `Solver::mustBeFalse`. -/
def mustBeFalse (q : Query) : Except Trap (Option Bool) := solver.mustBeTrue q.negateExpr

/-- `Solver::mayBeTrue`. -/
def mayBeTrue (q : Query) : Except Trap (Option Bool) := do
  let res ← solver.mustBeFalse q
  return res.map not

/-- `assert(success && "FIXME: Unhandled solver failure")`. -/
def success {α : Type} (res : Except Trap (Option α)) : Except Trap α := do
  match ← res with
  | some a => return a
  | none => throw .assertFailed

section

variable (q : Query)

/-- The value of `e` has no bit from `mid` on. -/
def usesAtMost (mid : BitVec 64) : Except Trap Bool := do
  let width := q.expr.getWidth
  let amount ← ConstantExpr.create mid width
  let zero ← ConstantExpr.create 0 width
  success (solver.mustBeTrue (q.withExpr (EqExpr.create (LShrExpr.create q.expr amount) zero)))

def mayBeZero : Except Trap Bool := do
  let zero ← ConstantExpr.create 0 q.expr.getWidth
  success (solver.mayBeTrue (q.withExpr (EqExpr.create q.expr zero)))

def mayBeAtMost (mid : BitVec 64) : Except Trap Bool := do
  let bound ← ConstantExpr.create mid q.expr.getWidth
  success (solver.mayBeTrue (q.withExpr (UleExpr.create q.expr bound)))

def mustBeAtMost (mid : BitVec 64) : Except Trap Bool := do
  let bound ← ConstantExpr.create mid q.expr.getWidth
  success (solver.mustBeTrue (q.withExpr (UleExpr.create q.expr bound)))

/-- The least value, of `bits` bits. -/
def searchMin (bits : BitVec 64) : Except Trap (BitVec 64) := do
  -- check common case
  if ← solver.mayBeZero q then return 0
  else do
    let hi ← Bits64.maxValueOfNBits bits.toNat
    bisect (solver.mayBeAtMost q) .outOfFuel 65 0 hi

/-- The bounds of an expression that is no constant and wider than one bit. -/
def searchRange : Except Trap (BitVec 64 × BitVec 64) := do
  -- binary search for # of useful bits
  let bits ← bisect (solver.usesAtMost q) .outOfFuel 65 0 (ofNat 64 q.expr.getWidth)
  let min ← solver.searchMin q bits
  let hi ← Bits64.maxValueOfNBits bits.toNat
  let max ← bisect (solver.mustBeAtMost q) .outOfFuel 65 min hi
  return (min, max)

end

/-- The bounds of a boolean expression. -/
def validityRange : Validity → BitVec 64 × BitVec 64
  | .True => (1, 1)
  | .False => (0, 0)
  | .Unknown => (0, 1)

def bounds (q : Query) : Except Trap (BitVec 64 × BitVec 64) :=
  if q.expr.getWidth = 1 then do
    let result ← success (solver.evaluate q)
    return validityRange result
  else
    match q.expr with
    -- `getZExtValue` asserts that the value is one of 64 bits
    | .constant c => if c.width ≤ 64 then .ok (c.bits.setWidth 64, c.bits.setWidth 64) else .error .assertFailed
    | _ => solver.searchRange q

/-- `Solver::getRange`. -/
def getRange (q : Query) : Except Trap (Expr × Expr) := do
  let (min, max) ← solver.bounds q
  let least ← ConstantExpr.create min q.expr.getWidth
  let greatest ← ConstantExpr.create max q.expr.getWidth
  return (least, greatest)

end SolverImpl

/-! ## Constants -/

theorem ConstantExpr.create_ok {v : BitVec 64} {w : Nat} (h0 : 0 < w) (h64 : w ≤ 64) (hv : v.toNat < 2 ^ w) :
    create v w = .ok (.const v.toNat w) := by
  refine if_pos ⟨h0, h64, ?_⟩
  rw [Bits64.truncateToNBits]
  apply eq_of_getLsbD_eq
  intro i hi
  rw [getLsbD_and, getLsbD_ushiftRight, getLsbD_allOnes]
  by_cases hiw : i < w
  · rw [decide_eq_true (by omega), Bool.and_true]
  · rw [← testBit_toNat, Nat.testBit_lt_two_pow (hv.trans_le (pow_le_pow_right Nat.two_pos (by omega))),
      Bool.false_and]

/-! ## Equalities that are built

What `EqExpr::create` makes of a read of a constant array is right where the read is in bounds. One direction holds
everywhere. The other lemmas are at the setting of the options in which `InBounds` asks for nothing. -/

section Equality

open Expr

theorem foldl_or_imp {f : Nat → Expr} {σ : Assignment} {Q : Nat → Prop}
    (hf : ∀ i, (f i).WF ∧ (f i).getWidth = 1 ∧ ((f i).Holds σ → Q i)) :
    ∀ (L : List Nat) (acc : Expr), acc.WF → acc.getWidth = 1 →
      (L.foldl (fun res i => OrExpr.create res (f i)) acc).Holds σ → acc.Holds σ ∨ ∃ i ∈ L, Q i
  | [], acc, _, _, h => .inl h
  | i :: L, acc, hacc, hw, h => by
    obtain ⟨hwf, hfw, hQ⟩ := hf i
    have hor : (bin .or acc (f i)).WF := ⟨hacc, hwf, hfw.trans hw.symm, fun h => nomatch h⟩
    have hs := OrExpr.create_simplifies hor
    rcases foldl_or_imp hf L _ (hs.wf hor) (hs.width.trans hw) h with h | ⟨j, hj, hQj⟩
    · have bit : ∀ x y : BitVec 1, x ||| y = 1#1 ↔ x = 1#1 ∨ y = 1#1 := by decide
      rw [hs.holds_iff hor hw, Expr.Holds, eval, BinKind.eval, bit] at h
      exact h.imp_right fun h => ⟨i, List.mem_cons_self, hQ h⟩
    · exact .inr ⟨j, List.mem_cons_of_mem i hj, hQj⟩

theorem eqConst_imp {c : APInt} {e rest : Expr} {σ : Assignment} (h : (cmp .eq (.constant c) e).WF)
    (hr : rest.Holds σ → (cmp .eq (.constant c) e).Holds σ) (hh : (eqConst e c rest).Holds σ) :
    (cmp .eq (.constant c) e).Holds σ := by
  unfold eqConst at hh
  split at hh
  · exact (((eq_swap h).trans (fold_cmp .eq _ _)).holds_iff h rfl σ).1 hh
  · exact hr hh

theorem const_eq_holds (v : Nat) {w : Nat} (r : Expr) (σ : Assignment) :
    (cmp .eq (.const v w) r).Holds σ ↔ ofNat w v = r.eval σ w := by
  show (cmp .eq (.constant ⟨w, ofNat w v⟩) r).eval σ 1 = 1#1 ↔ _
  rw [eval_eq_constant]
  exact (by decide : ∀ b : Bool, ofBool b = 1#1 ↔ b = true) _ |>.trans beq_iff_eq

theorem eqConst_wf [Options] {c : APInt} {e : Expr} (h : (cmp .eq (.constant c) e).WF) :
    (eqConst e c (eqExprCreatePartialR c e)).WF ∧ (eqConst e c (eqExprCreatePartialR c e)).getWidth = 1 := by
  have hs := eqConst_simplifies h (eqExprCreatePartialR_simplifies c e h)
  exact ⟨hs.wf h, hs.width⟩

theorem eqExprCreate_imp {l r : Expr} {σ : Assignment} (h : (cmp .eq l r).WF) (hh : (eqExprCreate l r).Holds σ) :
    (cmp .eq l r).Holds σ :=
  (eqExprCreate_simplifies.holds_iff h rfl σ).1 hh

/-- What is left of a read of a constant array is true only if one of the matches is the index, which is then in bounds. -/
theorem tryConstArrayOpt_imp {cl : APInt} {root : Array} {head : Updates} {index : Expr} {eqIndex : Nat → Expr}
    {σ : Assignment} (h : (cmp .eq (.constant cl) (.read root head index)).WF)
    (hf : ∀ i, (eqIndex i).WF ∧ (eqIndex i).getWidth = 1 ∧
      ((eqIndex i).Holds σ → (cmp .eq (.const i index.getWidth) index).Holds σ))
    (hh : (tryConstArrayOpt cl root head index eqIndex).Holds σ) :
    (cmp .eq (.constant cl) (.read root head index)).Holds σ := by
  unfold tryConstArrayOpt at hh
  split at hh
  · exact eqExprCreate_imp h hh
  split at hh
  · exact eqExprCreate_imp h hh
  · rename_i hs hlen
    obtain hzero | ⟨i, hi, hindex⟩ := foldl_or_imp hf (root.matches cl) (.const 0 1) Nat.zero_lt_one rfl hh
    · cases hzero
    · obtain ⟨w, c⟩ := cl
      obtain rfl : 8 = w := h.2.2
      rw [Bool.not_eq_true, Bool.or_eq_false_iff, decide_eq_false_iff_not, ne_eq, Decidable.not_not] at hs
      obtain ⟨hsym, rfl⟩ := hs
      have hsame : ofNat 32 i = index.eval σ 32 := by rwa [h.2.1.2.2.1, const_eq_holds] at hindex
      have hsize : (index.eval σ 32).toNat < root.size := by
        have := (Array.mem_matches.1 hi).1
        rw [← hsame, toNat_ofNat, Nat.mod_eq_of_lt (this.trans root.size_lt)]
        exact this
      have hbyte := (Array.exists_matches_iff hsym σ hsize).1 ⟨i, hi, hsame⟩
      rw [Expr.Holds, eval_eq_constant, hbyte]
      simp only [eval, Updates.eval, setWidth_eq, beq_self_eq_true]
      rfl

/-- The equality that is built is true only where the operands are equal, also under an assignment that reads a constant
array out of bounds: what is left of the read is then false. -/
theorem eqExprCreatePartialR_imp (opt hash : Bool) {σ : Assignment} (cl : APInt) (r : Expr)
    (h : (cmp .eq (.constant cl) r).WF) (hh : (@eqExprCreatePartialR ⟨opt, hash⟩ cl r).Holds σ) :
    (cmp .eq (.constant cl) r).Holds σ := by
  by_cases hw : cl.width = 1
  · rw [eqExprCreatePartialR_bool _ ⟨false, true⟩ cl r hw h.2.1 (h.2.2.trans hw)] at hh
    exact ((eqExprCreatePartialR_simplifies cl r h).holds_iff h rfl σ).1 hh
  unfold eqExprCreatePartialR at hh
  rw [if_neg hw] at hh
  split at hh
  · rename_i src w
    dsimp only at hh
    split at hh
    · have hs := eq_sext h ‹_›
      exact (hs.holds_iff h rfl σ).1 (eqConst_imp (hs.wf h) (eqExprCreatePartialR_imp opt hash _ src (hs.wf h)) hh)
    · cases hh
  · rename_i src w
    dsimp only at hh
    split at hh
    · have hs := eq_zext h ‹_›
      exact (hs.holds_iff h rfl σ).1 (eqConst_imp (hs.wf h) (eqExprCreatePartialR_imp opt hash _ src (hs.wf h)) hh)
    · cases hh
  · have hs := eq_add h
    exact (hs.holds_iff h rfl σ).1 (eqExprCreatePartialR_imp opt hash _ _ (hs.wf h) hh)
  · have hs := eq_sub h
    exact (hs.holds_iff h rfl σ).1 (eqExprCreatePartialR_imp opt hash _ _ (hs.wf h) hh)
  · rename_i root head index
    split at hh
    · refine tryConstArrayOpt_imp h (fun i => ?_) hh
      have hwf : (cmp .eq (.const i index.getWidth) index).WF := ⟨index.width_pos h.2.1.2.1, h.2.1.2.1, rfl⟩
      have hi := @eqConst_wf ⟨opt, hash⟩ _ _ hwf
      exact ⟨hi.1, hi.2, eqConst_imp hwf (eqExprCreatePartialR_imp opt hash _ index hwf)⟩
    · exact eqExprCreate_imp h hh
  · exact eqExprCreate_imp h hh
termination_by sizeOf r

end Equality

/-! ## Queries -/

variable {c : APInt} {q : Query} {m : BitVec 64}

section Queries

variable {Γ : Set Assignment} {solver : SolverImpl} {σ : Assignment} {e : Expr}

theorem Expr.holds_constant (hc : c.width = 1) : (constant c).Holds σ ↔ c.isTrue = true := by
  obtain ⟨w, bits⟩ := c
  obtain rfl : w = 1 := hc
  simp only [Expr.Holds, eval, APInt.isTrue, APInt.getZExtValue, setWidth_eq, beq_iff_eq]
  rw [← toNat_inj]
  rfl

theorem Query.valid_constant (hq : q.expr = .constant c) (hc : c.width = 1)
    (hsat : (Models Γ q.constraints).Nonempty) : q.Valid Γ ↔ c.isTrue = true := by
  obtain ⟨σ, hσ⟩ := hsat
  simp only [Query.Valid, hq, Expr.holds_constant hc]
  exact ⟨fun h => h σ hσ, fun h _ _ => h⟩

theorem SolverImpl.Exact.mustBeTrue (hs : solver.Exact Γ) (hsat : (Models Γ q.constraints).Nonempty)
    (hw : q.expr.getWidth = 1) : ∃ b, solver.mustBeTrue q = .ok (some b) ∧ (b = true ↔ q.Valid Γ) := by
  rw [SolverImpl.mustBeTrue, if_pos hw]
  split
  · rename_i c hc
    rw [hc] at hw
    exact ⟨c.isTrue, rfl, (Query.valid_constant hc hw hsat).symm⟩
  · obtain ⟨b, done, hb⟩ := hs.truth q
    rw [done]
    exact ⟨b, rfl, hb⟩

theorem SolverImpl.Exact.evaluate (hs : solver.Exact Γ) (hsat : (Models Γ q.constraints).Nonempty)
    (hw : q.expr.getWidth = 1) : ∃ v, solver.evaluate q = .ok (some v) ∧ q.HasValidity Γ v := by
  rw [SolverImpl.evaluate, if_pos hw]
  split
  · rename_i c hc
    rw [hc] at hw
    have valid := Query.valid_constant hc hw hsat
    refine ⟨_, rfl, ?_⟩
    by_cases one : c.isTrue = true
    · rw [if_pos one]
      exact valid.2 one
    · rw [if_neg one]
      refine ⟨fun h => one (valid.1 h), fun σ _ h => one ?_⟩
      rw [hc] at h
      exact (Expr.holds_constant hw).1 h
  · obtain ⟨v, done, hv⟩ := hs.validity q
    rw [done]
    exact ⟨v, rfl, hv⟩

theorem eval_const (v w : Nat) (σ : Assignment) : (Expr.const v w).eval σ w = ofNat w v := by
  simp only [Expr.eval, APInt.ofNat, setWidth_eq]

theorem cmp_const_ok (k : CmpKind) {P : NodeCond} (he : e.Ok P) (v : Nat) : (Expr.cmp k e (.const v e.getWidth)).Ok P :=
  ⟨he, Expr.width_pos e he.wf, rfl⟩

theorem lshr_const_ok {P : NodeCond} (he : e.Ok P) (v : Nat) : (Expr.bin .lshr e (.const v e.getWidth)).Ok P :=
  ⟨he, Expr.width_pos e he.wf, rfl, fun h => nomatch h⟩

variable [Options]

theorem SolverImpl.Exact.mayBeTrue (hs : solver.Exact Γ) (hsat : (Models Γ q.constraints).Nonempty)
    (h : q.expr.WF) (hw : q.expr.getWidth = 1) :
    ∃ b, solver.mayBeTrue q = .ok (some b) ∧ (b = true ↔ ∃ σ ∈ Models Γ q.constraints, q.expr.Holds σ) := by
  obtain ⟨b, done, hb⟩ := hs.mustBeTrue (q := q.negateExpr) hsat (Expr.createIsZero_simplifies h hw).width
  refine ⟨!b, ?_, ?_⟩
  · rw [SolverImpl.mayBeTrue, SolverImpl.mustBeFalse, done]
    rfl
  · rw [Query.negateExpr_valid h hw] at hb
    rw [Bool.not_eq_true', ← Bool.not_eq_true, hb, Query.Refuted]
    push Not
    rfl

/-- The three conditions are allocated as they are asked for. -/
theorem UleExpr.create_eq (hn : e.isConstant = false) (hw : e.getWidth ≠ 1) (r : Expr) :
    UleExpr.create e r = .cmp .ule e r := by
  unfold UleExpr.create cmpcreate
  split
  · cases hn
  · exact if_neg hw

theorem LShrExpr.create_eq (hn : e.isConstant = false) (hw : e.getWidth ≠ 1) (r : Expr) :
    LShrExpr.create e r = .bin .lshr e r := by
  unfold LShrExpr.create bcreate
  split
  · cases hn
  · exact if_neg hw

theorem EqExpr.create_lshr (hc : c.width ≠ 1) (r : Expr) :
    EqExpr.create (.bin .lshr e r) (.constant c) = .cmp .eq (.constant c) (.bin .lshr e r) := by
  rw [EqExpr.create_constant]
  unfold eqConst eqExprCreatePartialR
  rw [if_neg hc]
  refine if_neg fun h => ?_
  cases h

omit [Options] in
theorem ule_const_holds {v : Nat} (hv : v < 2 ^ e.getWidth) :
    (Expr.cmp .ule e (.const v e.getWidth)).Holds σ ↔ (e.value σ).toNat ≤ v := by
  rw [Expr.Holds, Expr.eval_cmp rfl, eval_const, CmpKind.eval]
  refine (by decide : ∀ b : Bool, ofBool b = 1#1 ↔ b = true) _ |>.trans ?_
  rw [ule_iff_le, le_def, toNat_ofNat, mod_eq_of_lt hv]

omit [Options] in
theorem shifted_zero_holds {m : Nat} (hm : m < 2 ^ e.getWidth) :
    (Expr.cmp .eq (.const 0 e.getWidth) (.bin .lshr e (.const m e.getWidth))).Holds σ ↔ (e.value σ).toNat < 2 ^ m := by
  have value : (Expr.bin .lshr e (.const m e.getWidth)).eval σ e.getWidth = e.value σ >>> m := by
    rw [Expr.eval, eval_const]
    show _ >>> ofNat _ m = _
    rw [ushiftRight_eq', toNat_ofNat, mod_eq_of_lt hm]
  rw [const_eq_holds, value, eq_comm, ← toNat_inj, toNat_ushiftRight, Nat.shiftRight_eq_div_pow, toNat_ofNat, Nat.zero_mod,
    Nat.div_eq_zero_iff]
  have := two_pow_pos m
  omega

end Queries

/-! ## The searches -/

/-- The values of the expression in the models of the constraints. -/
def Query.values (Γ : Set Assignment) (q : Query) : Set Nat :=
  {n | ∃ σ ∈ Models Γ q.constraints, (q.expr.value σ).toNat = n}

section Search

variable {Γ : Set Assignment} {solver : SolverImpl} {q : Query} (hs : solver.Exact Γ)
  (hsat : (Models Γ q.constraints).Nonempty)

theorem Query.forall_values {p : Nat → Prop} :
    (∀ n ∈ q.values Γ, p n) ↔ ∀ σ ∈ Models Γ q.constraints, p (q.expr.value σ).toNat := forall_mem_image

theorem Query.exists_values {p : Nat → Prop} :
    (∃ n ∈ q.values Γ, p n) ↔ ∃ σ ∈ Models Γ q.constraints, p (q.expr.value σ).toNat := exists_mem_image

include hs hsat

theorem SolverImpl.Exact.must {c : Expr} (hw : c.getWidth = 1) :
    ∃ b, success (solver.mustBeTrue (q.withExpr c)) = .ok b ∧
      (b = true ↔ ∀ σ ∈ Models Γ q.constraints, c.Holds σ) := by
  obtain ⟨b, done, hb⟩ := hs.mustBeTrue (q := q.withExpr c) hsat hw
  rw [done]
  exact ⟨b, rfl, hb⟩

variable [Options] (wf : q.expr.WF) (hn : q.expr.isConstant = false) (hw : q.expr.getWidth ≠ 1)
  (h64 : q.expr.getWidth ≤ 64)

theorem SolverImpl.Exact.may {c : Expr} (h : c.WF) (hw : c.getWidth = 1) :
    ∃ b, success (solver.mayBeTrue (q.withExpr c)) = .ok b ∧
      (b = true ↔ ∃ σ ∈ Models Γ q.constraints, c.Holds σ) := by
  obtain ⟨b, done, hb⟩ := hs.mayBeTrue (q := q.withExpr c) hsat h hw
  rw [done]
  exact ⟨b, rfl, hb⟩

include wf h64

/-- Zero is a value if the answer is yes. The answer may be no although it is: the search then finds it. -/
theorem mayBeZero_sound : ∃ b, solver.mayBeZero q = .ok b ∧ (b = true → 0 ∈ q.values Γ) := by
  have cmp := EqExpr.create_simplifies (cmp_const_ok .eq wf 0)
  obtain ⟨b, done, exact⟩ := hs.may hsat (cmp.wf (cmp_const_ok .eq wf 0)) cmp.width
  refine ⟨b, ?_, fun hb => ?_⟩
  · rw [SolverImpl.mayBeZero, ConstantExpr.create_ok (Expr.width_pos _ wf) h64 (two_pow_pos _)]
    exact done
  · obtain ⟨σ, hσ, holds⟩ := exact.1 hb
    have swapped : (Expr.cmp .eq (.const 0 q.expr.getWidth) q.expr).WF := ⟨Expr.width_pos _ wf, wf, rfl⟩
    rw [EqExpr.create_constant] at holds
    have equal := eqConst_imp swapped (eqExprCreatePartialR_imp _ _ _ _ swapped) holds
    rw [const_eq_holds] at equal
    refine ⟨σ, hσ, ?_⟩
    rw [Expr.value, ← equal]
    exact Nat.zero_mod _

include hn hw

theorem usesAtMost_exact (hm : m.toNat < 2 ^ q.expr.getWidth) :
    ∃ b, solver.usesAtMost q m = .ok b ∧ (b = true ↔ ∀ n ∈ q.values Γ, n < 2 ^ m.toNat) := by
  have h0 := Expr.width_pos q.expr wf
  obtain ⟨b, done, exact⟩ := hs.must hsat
    (c := .cmp .eq (.const 0 q.expr.getWidth) (.bin .lshr q.expr (.const m.toNat q.expr.getWidth))) rfl
  refine ⟨b, ?_, ?_⟩
  · rw [SolverImpl.usesAtMost, ConstantExpr.create_ok h0 h64 hm, ConstantExpr.create_ok h0 h64 (two_pow_pos _)]
    show SolverImpl.success (solver.mustBeTrue (q.withExpr (EqExpr.create (LShrExpr.create _ _) (.constant _)))) = _
    rw [LShrExpr.create_eq hn hw, EqExpr.create_lshr hw]
    exact done
  · rw [exact, Query.forall_values]
    exact forall₂_congr fun σ _ => shifted_zero_holds hm

theorem mayBeAtMost_exact (hm : m.toNat < 2 ^ q.expr.getWidth) :
    ∃ b, solver.mayBeAtMost q m = .ok b ∧ (b = true ↔ ∃ n ∈ q.values Γ, n ≤ m.toNat) := by
  obtain ⟨b, done, exact⟩ := hs.may hsat (cmp_const_ok .ule wf m.toNat) rfl
  refine ⟨b, ?_, ?_⟩
  · rw [SolverImpl.mayBeAtMost, ConstantExpr.create_ok (Expr.width_pos _ wf) h64 hm]
    show SolverImpl.success (solver.mayBeTrue (q.withExpr (UleExpr.create _ _))) = _
    rw [UleExpr.create_eq hn hw]
    exact done
  · rw [exact, Query.exists_values]
    exact exists_congr fun σ => and_congr_right fun _ => ule_const_holds hm

theorem mustBeAtMost_exact (hm : m.toNat < 2 ^ q.expr.getWidth) :
    ∃ b, solver.mustBeAtMost q m = .ok b ∧ (b = true ↔ ∀ n ∈ q.values Γ, n ≤ m.toNat) := by
  obtain ⟨b, done, exact⟩ := hs.must hsat (c := .cmp .ule q.expr (.const m.toNat q.expr.getWidth)) rfl
  refine ⟨b, ?_, ?_⟩
  · rw [SolverImpl.mustBeAtMost, ConstantExpr.create_ok (Expr.width_pos _ wf) h64 hm]
    show SolverImpl.success (solver.mustBeTrue (q.withExpr (UleExpr.create _ _))) = _
    rw [UleExpr.create_eq hn hw]
    exact done
  · rw [exact, Query.forall_values]
    exact forall₂_congr fun σ _ => ule_const_holds hm

theorem search_bits : ∃ bits, bisect (solver.usesAtMost q) .outOfFuel 65 0 (ofNat 64 q.expr.getWidth) = .ok bits ∧
    bits.toNat ≤ q.expr.getWidth ∧ ∀ n ∈ q.values Γ, n < 2 ^ bits.toNat := by
  have width : (ofNat 64 q.expr.getWidth).toNat = q.expr.getWidth := by grind
  have mono {a b : BitVec 64} (hab : a ≤ b) (h : ∀ n ∈ q.values Γ, n < 2 ^ a.toNat) (n : Nat) (hn : n ∈ q.values Γ) :
      n < 2 ^ b.toNat := (h n hn).trans_le (pow_le_pow_right Nat.two_pos hab)
  have decides (m : BitVec 64) (_ : 0 ≤ m) (hm : m < ofNat 64 q.expr.getWidth) := by
    rw [lt_def, width] at hm
    exact usesAtMost_exact hs hsat wf hn hw h64 (hm.trans Nat.lt_two_pow_self)
  have all : ∀ n ∈ q.values Γ, n < 2 ^ (ofNat 64 q.expr.getWidth).toNat := by
    rw [width]
    rintro n ⟨σ, _, rfl⟩
    exact isLt _
  obtain ⟨bits, done, -, hle, small, -⟩ := bisect_least .outOfFuel mono decides (Nat.zero_le _) all
    ((sub_le _ _).trans_lt (isLt _))
  rw [le_def, width] at hle
  exact ⟨bits, done, hle, small⟩

variable {top : BitVec 64} (htop : top.toNat < 2 ^ q.expr.getWidth) (hall : ∀ n ∈ q.values Γ, n ≤ top.toNat)

include htop hall

theorem search_min : ∃ r, bisect (solver.mayBeAtMost q) .outOfFuel 65 0 top = .ok r ∧ r ≤ top ∧
    IsLeast (q.values Γ) r.toNat := by
  have mono {a b : BitVec 64} (hab : a ≤ b) : (∃ n ∈ q.values Γ, n ≤ a.toNat) → ∃ n ∈ q.values Γ, n ≤ b.toNat := by
    rintro ⟨n, hn, hle⟩
    exact ⟨n, hn, hle.trans hab⟩
  have decides (m : BitVec 64) (_ : 0 ≤ m) (hm : m < top) :=
    mayBeAtMost_exact hs hsat wf hn hw h64 ((lt_def.1 hm).trans htop)
  have some : ∃ n ∈ q.values Γ, n ≤ top.toNat := by
    obtain ⟨σ, hσ⟩ := hsat
    exact ⟨_, ⟨σ, hσ, rfl⟩, hall _ ⟨σ, hσ, rfl⟩⟩
  obtain ⟨r, done, -, hle, ⟨n, hn, hnr⟩, least⟩ := bisect_least .outOfFuel mono decides (Nat.zero_le _) some
    ((sub_le _ _).trans_lt (isLt _))
  refine ⟨r, done, hle, ?_⟩
  have lower : ∀ k ∈ q.values Γ, r.toNat ≤ k := by
    intro k hk
    by_contra hlt
    have small : k < 2 ^ 64 := by have := r.isLt; omega
    have word : (ofNat 64 k).toNat = k := by rw [toNat_ofNat, mod_eq_of_lt small]
    refine least (ofNat 64 k) (Nat.zero_le _) ?_ ⟨k, hk, word.ge⟩
    rw [lt_def, word]
    omega
  rw [le_antisymm (lower n hn) hnr]
  exact ⟨hn, fun k hk => (hnr.trans (lower k hk))⟩

theorem search_max {low : BitVec 64} (hlow : IsLeast (q.values Γ) low.toNat) :
    ∃ r, bisect (solver.mustBeAtMost q) .outOfFuel 65 low top = .ok r ∧ r ≤ top ∧ IsGreatest (q.values Γ) r.toNat := by
  have mono {a b : BitVec 64} (hab : a ≤ b) (h : ∀ n ∈ q.values Γ, n ≤ a.toNat) (n : Nat) (hn : n ∈ q.values Γ) :
      n ≤ b.toNat := (h n hn).trans hab
  have decides (m : BitVec 64) (_ : low ≤ m) (hm : m < top) :=
    mustBeAtMost_exact hs hsat wf hn hw h64 ((lt_def.1 hm).trans htop)
  obtain ⟨r, done, hlo, hle, upper, least⟩ := bisect_least .outOfFuel mono decides (hall _ hlow.1) hall
    ((sub_le _ _).trans_lt (isLt _))
  refine ⟨r, done, hle, ?_, upper⟩
  rw [le_def] at hlo
  by_cases same : r.toNat = low.toNat
  · rw [same]
    exact hlow.1
  · -- one less is no bound
    have before : (r - 1).toNat = r.toNat - 1 := by
      rw [toNat_sub_of_le (by rw [le_def]; show 1 ≤ _; omega)]
      rfl
    have not := least (r - 1) (by rw [le_def, before]; omega) (by rw [lt_def, before]; omega)
    push Not at not
    obtain ⟨n, hn, hlt⟩ := not
    have := upper n hn
    rw [show r.toNat = n by omega]
    exact hn

end Search

section Range

variable [Options] {Γ : Set Assignment} {solver : SolverImpl} {q : Query}

theorem searchRange_exact (hs : solver.Exact Γ) (hsat : (Models Γ q.constraints).Nonempty) (wf : q.expr.WF)
    (hn : q.expr.isConstant = false) (hw : q.expr.getWidth ≠ 1) (h64 : q.expr.getWidth ≤ 64) :
    ∃ lo hi, solver.searchRange q = .ok (lo, hi) ∧ IsLeast (q.values Γ) lo.toNat ∧ IsGreatest (q.values Γ) hi.toNat := by
  obtain ⟨bits, bitsDone, hbits, small⟩ := search_bits hs hsat wf hn hw h64
  have pow : 2 ^ bits.toNat ≤ 2 ^ q.expr.getWidth := pow_le_pow_right Nat.two_pos hbits
  have word : 2 ^ bits.toNat ≤ 2 ^ 64 := pow_le_pow_right Nat.two_pos (hbits.trans h64)
  have pos := two_pow_pos bits.toNat
  have value : (ofNat 64 (2 ^ bits.toNat - 1)).toNat = 2 ^ bits.toNat - 1 := by grind
  have hall : ∀ n ∈ q.values Γ, n ≤ (ofNat 64 (2 ^ bits.toNat - 1)).toNat := by grind
  have htop : (ofNat 64 (2 ^ bits.toNat - 1)).toNat < 2 ^ q.expr.getWidth := by omega
  have topDone := Bits64.maxValueOfNBits_ok (hbits.trans h64)
  generalize ofNat 64 (2 ^ bits.toNat - 1) = top at hall htop topDone
  obtain ⟨lo, loDone, hlo⟩ : ∃ lo, solver.searchMin q bits = .ok lo ∧ IsLeast (q.values Γ) lo.toNat := by
    obtain ⟨z, zeroDone, hz⟩ := mayBeZero_sound hs hsat wf h64
    rw [SolverImpl.searchMin, zeroDone]
    cases z with
    | true => exact ⟨0, rfl, hz rfl, fun n _ => Nat.zero_le n⟩
    | false =>
      obtain ⟨r, done, -, least⟩ := search_min hs hsat wf hn hw h64 htop hall
      refine ⟨r, ?_, least⟩
      show (Bits64.maxValueOfNBits bits.toNat >>= _) = _
      rw [topDone]
      exact done
  obtain ⟨hi, hiDone, -, greatest⟩ := search_max hs hsat wf hn hw h64 htop hall hlo
  refine ⟨lo, hi, ?_, hlo, greatest⟩
  rw [SolverImpl.searchRange, bitsDone]
  show (solver.searchMin q bits >>= _) = _
  rw [loDone, topDone]
  show (bisect (solver.mustBeAtMost q) .outOfFuel 65 lo top >>= _) = _
  rw [hiDone]
  rfl

omit [Options] in
theorem validityRange_exact (hsat : (Models Γ q.constraints).Nonempty) (hw : q.expr.getWidth = 1) {v : Validity}
    (h : q.HasValidity Γ v) : IsLeast (q.values Γ) (SolverImpl.validityRange v).1.toNat ∧
      IsGreatest (q.values Γ) (SolverImpl.validityRange v).2.toNat := by
  have bit (σ : Assignment) : (q.expr.value σ).toNat = if q.expr.Holds σ then 1 else 0 := by
    rw [Expr.value, hw]
    exact (by decide : ∀ x : BitVec 1, x.toNat = if x = 1#1 then 1 else 0) _
  have mem {σ : Assignment} (hσ : σ ∈ Models Γ q.constraints) : (if q.expr.Holds σ then 1 else 0) ∈ q.values Γ :=
    ⟨σ, hσ, bit σ⟩
  have constant {c : Nat} (hc : ∀ σ ∈ Models Γ q.constraints, (if q.expr.Holds σ then 1 else 0) = c) :
      IsLeast (q.values Γ) c ∧ IsGreatest (q.values Γ) c := by
    have all : ∀ n ∈ q.values Γ, n = c := by
      rintro _ ⟨σ, hσ, rfl⟩
      rw [bit, hc σ hσ]
    obtain ⟨σ, hσ⟩ := hsat
    have value := mem hσ
    rw [hc σ hσ] at value
    exact ⟨⟨value, fun n hn => (all n hn).ge⟩, value, fun n hn => (all n hn).le⟩
  cases v with
  | True => exact constant fun σ hσ => if_pos (h σ hσ)
  | False => exact constant fun σ hσ => if_neg (h.2 σ hσ)
  | Unknown =>
    obtain ⟨notValid, notRefuted⟩ := h
    simp only [Query.Valid, Query.Refuted] at notValid notRefuted
    push Not at notValid notRefuted
    obtain ⟨σ, hσ, fails⟩ := notValid
    obtain ⟨τ, hτ, holds⟩ := notRefuted
    have zero := mem hσ
    have one := mem hτ
    rw [if_neg fails] at zero
    rw [if_pos holds] at one
    refine ⟨⟨zero, fun n _ => Nat.zero_le n⟩, one, ?_⟩
    rintro _ ⟨σ, -, rfl⟩
    rw [bit]
    split <;> decide

omit [Options] in
theorem constant_exact (hsat : (Models Γ q.constraints).Nonempty) (hc : q.expr = .constant c)
    (h64 : c.width ≤ 64) : IsLeast (q.values Γ) (c.bits.setWidth 64).toNat ∧
      IsGreatest (q.values Γ) (c.bits.setWidth 64).toNat := by
  have word : (c.bits.setWidth 64).toNat = c.bits.toNat := toNat_setWidth_of_le h64
  have single (n : Nat) (hn : n ∈ q.values Γ) : n = (c.bits.setWidth 64).toNat := by
    obtain ⟨σ, -, rfl⟩ := hn
    rw [word, hc]
    simp only [Expr.value, Expr.eval, Expr.getWidth, setWidth_eq]
  obtain ⟨σ, hσ⟩ := hsat
  have value : (c.bits.setWidth 64).toNat ∈ q.values Γ := by
    rw [← single _ ⟨σ, hσ, rfl⟩]
    exact ⟨σ, hσ, rfl⟩
  exact ⟨⟨value, fun n hn => (single n hn).ge⟩, value, fun n hn => (single n hn).le⟩

/-- The least and the greatest value, under constraints that have a model. -/
theorem getRange_exact (hs : solver.Exact Γ) (hsat : (Models Γ q.constraints).Nonempty) (wf : q.expr.WF)
    (h64 : q.expr.getWidth ≤ 64) :
    ∃ lo hi, solver.getRange q = .ok (.const lo q.expr.getWidth, .const hi q.expr.getWidth) ∧
      IsLeast (q.values Γ) lo ∧ IsGreatest (q.values Γ) hi := by
  have h0 := Expr.width_pos q.expr wf
  have fits {v : BitVec 64} (hv : v.toNat ∈ q.values Γ) : v.toNat < 2 ^ q.expr.getWidth := by
    obtain ⟨σ, -, value⟩ := hv
    rw [← value]
    exact isLt _
  obtain ⟨lo, hi, done, least, greatest⟩ : ∃ lo hi, solver.bounds q = .ok (lo, hi) ∧
      IsLeast (q.values Γ) lo.toNat ∧ IsGreatest (q.values Γ) hi.toNat := by
    rw [SolverImpl.bounds]
    by_cases hw : q.expr.getWidth = 1
    · obtain ⟨v, answer, hv⟩ := hs.evaluate hsat hw
      rw [if_pos hw, answer]
      exact ⟨_, _, rfl, validityRange_exact hsat hw hv⟩
    · rw [if_neg hw]
      split
      · rename_i c hc
        have h64' : c.width ≤ 64 := by
          rw [hc] at h64
          exact h64
        rw [if_pos h64']
        exact ⟨_, _, rfl, constant_exact hsat hc h64'⟩
      · rename_i hn
        exact searchRange_exact hs hsat wf (by cases hq : q.expr <;> first | rfl | exact (hn _ hq).elim) hw h64
  refine ⟨lo.toNat, hi.toNat, ?_, least, greatest⟩
  rw [SolverImpl.getRange, done]
  show (ConstantExpr.create lo q.expr.getWidth >>= _) = _
  rw [ConstantExpr.create_ok h0 h64 (fits least.1), ConstantExpr.create_ok h0 h64 (fits greatest.1)]
  rfl

end Range

theorem getRange_symbolicByte : ∃ lo hi, (exactSolver univ).getRange ⟨[], symbolicByte 0 "x"⟩ =
    .ok (.const lo 8, .const hi 8) ∧
    IsLeast (Query.values univ ⟨[], symbolicByte 0 "x"⟩) lo ∧
    IsGreatest (Query.values univ ⟨[], symbolicByte 0 "x"⟩) hi :=
  getRange_exact (q := ⟨[], symbolicByte 0 "x"⟩) (exactSolver_exact univ)
    ⟨fun _ _ => 0, trivial, fun _ h => (nomatch h)⟩ (symbolicByte_ok trivial) (by decide)

end S2E.Klee
