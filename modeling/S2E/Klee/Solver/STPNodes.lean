import S2E.Klee.Solver.STPTerms

/-!
# When the term of a node has the value of the node

* `Means` : a term has a value, as a formula or a bit vector by the width;
* `constantTerm_means`, `extractTerm_means`, ... : when the term that `constructActual` makes of a node has the value of
  the node, given that the terms of the kids do.
-/

namespace S2E.Klee.STPBuilder

open S2E.Stp S2E.Lib BitVec Option
open BitVec (ofNat ofBool allOnes sdiv)

/-- The arrays of STP under an assignment. -/
def env (σ : Assignment) : Array → BitVec 32 → BitVec 8 := fun root i => σ root i.toNat

/-- A value of width one is a truth value. -/
def ofBits {w : Nat} (v : BitVec w) : Value := if w = 1 then .bool (v.getLsbD 0) else .bv w v

def Means (σ : Assignment) (t : Term) {w : Nat} (v : BitVec w) : Prop := t.value (env σ) = some (ofBits v)

variable {k : Nat} {b : BitVec 1}

section Nodes

variable {σ : Assignment} {t l r c : Term} {w n m : Nat} {v : BitVec w} {x y : BitVec n}

theorem means_iff_isBool : Means σ t b ↔ t.IsBool (env σ) (b.getLsbD 0) := Iff.rfl

theorem means_iff_is (hw : w ≠ 1) : Means σ t v ↔ t.Is (env σ) v := by
  unfold Means ofBits VCExpr.Is
  rw [if_neg hw]

theorem ofBits_inj {u : BitVec w} (h : ofBits u = ofBits v) : u = v := by
  unfold ofBits at h
  by_cases hw : w = 1
  · grind
  · grind

theorem Means.iff_eq {u : BitVec w} (h : Means σ t u) : Means σ t v ↔ u = v := by
  constructor
  · intro h'
    exact ofBits_inj (some.inj (h.symm.trans h'))
  · rintro rfl
    exact h

theorem not_means_of_is {z : BitVec m} (h : t.Is (env σ) z) (hm : m ≠ w ∨ w = 1) : ¬Means σ t v := by
  intro h'
  have heq := some.inj (h.symm.trans h')
  unfold ofBits at heq
  split at heq
  · cases heq
  · grind

theorem not_means_of_none (h : t.value (env σ) = none) : ¬Means σ t v := by
  intro h'
  rw [Means, h] at h'
  cases h'

theorem getLsbD_eq_true : b.getLsbD 0 = true ↔ b = 1#1 := by
  revert b
  decide

theorem eq_zero_of_ne_one (h : b ≠ 1#1) : b = 0#1 := by
  revert b
  decide

/-! ## Constants -/

theorem append_word (bits : BitVec w) (a : Nat) :
    ((bits >>> a).setWidth 64 ++ bits.setWidth a).toNat = (bits.setWidth (a + 64)).toNat := by
  rw [toNat_append, toNat_setWidth, toNat_setWidth, toNat_setWidth, toNat_ushiftRight, Nat.shiftRight_eq_div_pow,
    ← Nat.shiftLeft_add_eq_or_of_lt (Nat.mod_lt _ (Nat.two_pow_pos a)), Nat.shiftLeft_eq, pow_add, Nat.mod_mul]
  ring

theorem lshr_word {bits : BitVec w} (h64 : 64 < w) (k : Nat) :
    APInt.bin .lshr ⟨w, bits >>> (64 * k)⟩ (.ofNat 64 w) = ⟨w, bits >>> (64 * (k + 1))⟩ := by
  have hamount : ((ofNat w 64).setWidth w).toNat = 64 := by
    rw [setWidth_eq, toNat_ofNat]
    exact Nat.mod_eq_of_lt (h64.trans Nat.lt_two_pow_self)
  show APInt.mk w (bits >>> (64 * k) >>> ((ofNat w 64).setWidth w).toNat) = _
  rw [hamount, ← shiftRight_add]
  rfl

theorem word_is (bits : BitVec w) (h64 : 64 < w) : (bvConst64 (min 64 w) (APInt.extract ⟨w, bits⟩ 0 64).bits).Is
    (env σ) (bits.setWidth 64) := by
  have hmin : min 64 w = 64 := by omega
  have hbits : (APInt.extract ⟨w, bits⟩ 0 64).bits = bits.setWidth 64 := by
    show (bits.sshiftRight 0).setWidth 64 = _
    rw [sshiftRight_zero]
  have hword : (bvConst64 64 (bits.setWidth 64)).Is (env σ) _ := bvConst64_is (by decide) (bits.setWidth 64)
  rw [setWidth_eq] at hword
  rw [hmin, hbits]
  exact hword

/-- The loop over the words of a constant, when `k + 1` of them are there. -/
theorem wideConstant_is {bits : BitVec w} (h64 : 64 < w) {i : Nat} {res : Term}
    (hres : res.Is (env σ) (bits.setWidth (64 * (k + 1)))) :
    (wideConstant i ⟨w, bits >>> (64 * k)⟩ res).Is (env σ) (bits.setWidth (64 * (k + 1 + i))) := by
  induction i generalizing k res with
  | zero => exact hres
  | succ i ih =>
    unfold wideConstant
    dsimp only
    rw [lshr_word h64, show k + 1 + (i + 1) = k + 1 + 1 + i by omega]
    refine ih (((word_is _ h64).bvConcatExpr hres).congr (by omega) ?_)
    exact append_word bits (64 * (k + 1))

/-- The last words of a constant are missing if they are not whole. -/
theorem constantTerm_means (c : APInt) (hc : 0 < c.width) :
    Means σ (constantTerm c) c.bits ↔ c.width ≤ 64 ∨ 64 ∣ c.width := by
  obtain ⟨w, bits⟩ := c
  unfold constantTerm
  dsimp only at hc ⊢
  by_cases hone : w = 1
  · subst hone
    rw [if_pos rfl]
    refine iff_of_true ?_ (.inl (by decide))
    have hall : ∀ b : BitVec 1, Means σ (if (APInt.mk 1 b).isTrue then .trueExpr else .falseExpr) b := by
      intro b
      have hb : b = 0#1 ∨ b = 1#1 := by
        revert b
        decide
      obtain rfl | rfl := hb <;> rfl
    exact hall bits
  · rw [if_neg hone]
    by_cases h32 : w ≤ 32
    · rw [if_pos h32]
      refine iff_of_true ((means_iff_is hone).2 ?_) (.inl (by omega))
      have hlt : bits.toNat < 2 ^ 32 := bits.isLt.trans_le (Nat.pow_le_pow_right Nat.two_pos h32)
      have hbits : (bits.setWidth 32).toNat = bits.toNat := by rw [toNat_setWidth, Nat.mod_eq_of_lt hlt]
      refine (bvConst32_is hc (hbits ▸ bits.isLt)).congr rfl ?_
      rw [toNat_ofNat, hbits, Nat.mod_eq_of_lt bits.isLt]
    · rw [if_neg h32]
      by_cases h64 : w ≤ 64
      · rw [if_pos h64]
        refine iff_of_true ((means_iff_is hone).2 ?_) (.inl h64)
        refine (bvConst64_is hc (bits.setWidth 64)).congr rfl ?_
        rw [setWidth_setWidth_of_le _ h64, setWidth_eq]
      · rw [if_neg h64]
        have hfirst : (bvConst64 (min 64 w) (APInt.extract ⟨w, bits⟩ 0 64).bits).Is (env σ) _ := word_is bits (by omega)
        rw [show min 64 w = 64 by omega] at hfirst
        have hwide : (wideConstant (w / 64 - 1) ⟨w, bits⟩ (bvConst64 64 (APInt.extract ⟨w, bits⟩ 0 64).bits)).Is
            (env σ) (bits.setWidth (64 * (w / 64))) := by
          have hall : (wideConstant (w / 64 - 1) ⟨w, bits >>> (64 * 0)⟩ _).Is (env σ)
            (bits.setWidth (64 * (0 + 1 + (w / 64 - 1)))) := wideConstant_is (by omega) hfirst
          rw [show 0 + 1 + (w / 64 - 1) = w / 64 by omega, Nat.mul_zero, ushiftRight_zero] at hall
          exact hall
        constructor
        · intro hmeans
          by_contra hno
          push Not at hno
          have hne : 64 * (w / 64) ≠ w := fun h => hno.2 ⟨w / 64, h.symm⟩
          exact not_means_of_is hwide (.inl hne) hmeans
        · rintro (hle | hdvd)
          · omega
          · rw [means_iff_is hone]
            refine hwide.congr (Nat.mul_div_cancel' hdvd) ?_
            rw [toNat_setWidth, Nat.mul_div_cancel' hdvd, Nat.mod_eq_of_lt bits.isLt]

/-! ## Casts -/

/-- A term for one bit is the lowest bit, whatever the offset. -/
theorem extractTerm_means {off : Nat} (h : Means σ t x) (hk : 0 < k) (hoff : off + k ≤ n) :
    Means σ (extractTerm t off k) (x.extractLsb' off k) ↔ (k = 1 → n ≠ 1 ∧ x.getLsbD off = x.getLsbD 0) := by
  unfold extractTerm
  by_cases hone : k = 1
  · subst hone
    rw [if_pos rfl]
    by_cases hn : n = 1
    · subst hn
      refine iff_of_false (not_means_of_none ?_) fun hcond => (hcond rfl).1 rfl
      have hbool := means_iff_isBool.1 h
      unfold VCExpr.IsBool at hbool
      simp [bvBoolExtract, hbool, Value.extract]
    · have hbit := bvBoolExtract_isBool ((means_iff_is hn).1 h) (show 0 < n by omega)
      have hlow : Means σ (bvBoolExtract t 0) (ofBool (x.getLsbD 0)) := by
        rw [means_iff_isBool]
        convert hbit using 1
        cases x.getLsbD 0 <;> rfl
      have hext : x.extractLsb' off 1 = ofBool (x.getLsbD off) := by grind
      rw [hlow.iff_eq, hext]
      have hinj : ∀ p q : Bool, ofBool p = ofBool q ↔ q = p := by decide
      rw [hinj]
      exact ⟨fun heq _ => ⟨hn, heq⟩, fun hcond => (hcond rfl).2⟩
  · rw [if_neg hone]
    refine iff_of_true ((means_iff_is hone).2 ?_) fun h1 => absurd h1 hone
    have hext := ((means_iff_is (by omega)).1 h).bvExtract (show off ≤ off + k - 1 by omega) (by omega)
    refine hext.congr (by omega) ?_
    rw [extractLsb_toNat, extractLsb'_toNat, show off + k - 1 - off + 1 = k by omega]

theorem zextTerm_means (h : Means σ t x) (hn : 0 < n) (hk : n ≤ k) :
    Means σ (zextTerm t n k) (x.setWidth k) ↔ n < k := by
  unfold zextTerm
  by_cases hone : n = 1
  · subst hone
    rw [if_pos rfl]
    have hite := VCExpr.Is.iteExpr (means_iff_isBool.1 h) (bvOne_is (show 0 < k by omega))
      (bvZero_is (show 0 < k by omega))
    by_cases hk1 : k = 1
    · exact iff_of_false (not_means_of_is hite (.inr hk1)) (by omega)
    · refine iff_of_true ((means_iff_is hk1).2 (hite.congr rfl ?_)) (by omega)
      by_cases hx : x = 1#1
      · rw [if_pos (getLsbD_eq_true.2 hx), hx, toNat_setWidth]
        rfl
      · rw [if_neg fun hbit => hx (getLsbD_eq_true.1 hbit), eq_zero_of_ne_one hx, toNat_setWidth]
        exact (Nat.zero_mod _).symm
  · rw [if_neg hone]
    have hx := (means_iff_is hone).1 h
    by_cases hlt : n < k
    · refine iff_of_true ((means_iff_is (by omega)).2 ?_) hlt
      refine ((bvZero_is (show 0 < k - n by omega)).bvConcatExpr hx).congr (by omega) ?_
      have hle : x.toNat < 2 ^ k := x.isLt.trans (Nat.pow_lt_pow_right (by decide) hlt)
      rw [toNat_append, toNat_setWidth, Nat.mod_eq_of_lt hle]
      show 0 <<< n ||| _ = _
      rw [Nat.zero_shiftLeft, Nat.zero_or]
    · refine iff_of_false (not_means_of_none ?_) hlt
      obtain rfl : k = n := by omega
      rw [Nat.sub_self]
      rfl

/-- The word of ones fills a bit vector of at most 64 bits. -/
theorem minusOne_eq_allOnes : (-1 : BitVec 64).setWidth k = allOnes k ↔ k ≤ 64 := by
  refine ⟨fun h => ?_, minusOne_setWidth⟩
  by_contra hk
  have hbit := congrArg (·.getLsbD 64) h
  rw [getLsbD_setWidth, getLsbD_of_ge _ _ le_rfl, Bool.and_false, getLsbD_allOnes,
    decide_eq_true (show 64 < k by omega)] at hbit
  exact Bool.false_ne_true hbit

theorem signExtend_one (k : Nat) : (1#1).signExtend k = allOnes k := by
  apply eq_of_getLsbD_eq
  intro i hi
  rw [getLsbD_signExtend, getLsbD_allOnes, decide_eq_true hi, Bool.true_and]
  split
  · grind
  · rfl

theorem sextTerm_means (h : Means σ t x) (hn : 0 < n) (hk : n ≤ k) :
    Means σ (sextTerm t n k) (x.signExtend k) ↔ (n = 1 → k ≠ 1 ∧ (k ≤ 64 ∨ x.getLsbD 0 = false)) := by
  unfold sextTerm
  by_cases hone : n = 1
  · subst hone
    rw [if_pos rfl]
    have hite := VCExpr.Is.iteExpr (means_iff_isBool.1 h) (bvConst64_is (show 0 < k by omega) (-1))
      (bvZero_is (show 0 < k by omega))
    by_cases hk1 : k = 1
    · exact iff_of_false (not_means_of_is hite (.inr hk1)) fun hcond => (hcond rfl).1 hk1
    · refine ((means_iff_is hk1).2 hite).iff_eq.trans ?_
      by_cases hx : x = 1#1
      · rw [if_pos (getLsbD_eq_true.2 hx), hx, signExtend_one, minusOne_eq_allOnes]
        exact ⟨fun hle _ => ⟨hk1, .inl hle⟩, fun hcond => (hcond rfl).2.resolve_right (by decide)⟩
      · grind
  · rw [if_neg hone]
    refine iff_of_true ((means_iff_is (by omega)).2 ?_) fun h1 => absurd h1 hone
    exact ((means_iff_is hone).1 h).bvSignExtend (by omega)

/-- A formula cannot be concatenated. -/
theorem bvConcatExpr_means {y : BitVec m} (hl : Means σ l x) (hr : Means σ r y) (hn : 0 < n) (hm : 0 < m) :
    Means σ (.bvConcatExpr l r) (x ++ y) ↔ n ≠ 1 ∧ m ≠ 1 := by
  by_cases hn1 : n = 1
  · subst hn1
    refine iff_of_false (not_means_of_none ?_) fun hcond => hcond.1 rfl
    have hbool := means_iff_isBool.1 hl
    unfold VCExpr.IsBool at hbool
    unfold Means at hr
    simp [hbool, hr, Value.concat]
  · by_cases hm1 : m = 1
    · subst hm1
      refine iff_of_false (not_means_of_none ?_) fun hcond => hcond.2 rfl
      have hbits := (means_iff_is hn1).1 hl
      have hbool := means_iff_isBool.1 hr
      unfold VCExpr.IsBool at hbool
      unfold VCExpr.Is at hbits
      simp [hbool, hbits, Value.concat]
    · refine iff_of_true ((means_iff_is (by omega)).2 ?_) ⟨hn1, hm1⟩
      exact ((means_iff_is hn1).1 hl).bvConcatExpr ((means_iff_is hm1).1 hr)

/-! ## Operators of either sort -/

theorem iteExpr_means (hc : Means σ c b) (hl : Means σ l x) (hr : Means σ r y) :
    Means σ (.iteExpr c l r) (if b = 1#1 then x else y) := by
  have hcond := means_iff_isBool.1 hc
  by_cases hn : n = 1
  · subst hn
    rw [means_iff_isBool] at *
    convert hcond.iteExpr hl hr using 1
    simp only [getLsbD_eq_true]
    split <;> rfl
  · rw [means_iff_is hn] at *
    convert VCExpr.Is.iteExpr hcond hl hr using 1
    simp only [getLsbD_eq_true]

theorem notTerm_means (h : Means σ t x) : Means σ (notTerm t n) (~~~x) := by
  unfold notTerm
  by_cases hn : n = 1
  · subst hn
    rw [if_pos rfl, means_iff_isBool]
    convert (means_iff_isBool.1 h).notExpr using 1
    rw [getLsbD_not, decide_eq_true Nat.one_pos, Bool.true_and]
  · rw [if_neg hn, means_iff_is hn]
    exact ((means_iff_is hn).1 h).bvNotExpr

/-- A connective of formulas at width one, a bitwise operation otherwise. -/
theorem bitTerm_means (op : BitOp) {formula : Term} (hl : Means σ l x) (hr : Means σ r y)
    (hformula : n = 1 → formula.IsBool (env σ) ((op.eval x y).getLsbD 0)) :
    Means σ (if n = 1 then formula else .bvBitExpr op l r) (op.eval x y) := by
  by_cases hn : n = 1
  · subst hn
    rw [if_pos rfl, means_iff_isBool]
    exact hformula rfl
  · rw [if_neg hn, means_iff_is hn]
    exact ((means_iff_is hn).1 hl).bvBitExpr op ((means_iff_is hn).1 hr)

section

variable (hl : Means σ l x) (hr : Means σ r y)

include hl hr

theorem andTerm_means : Means σ (andTerm l r n) (x &&& y) := by
  apply bitTerm_means .and hl hr
  rintro rfl
  rw [BitOp.eval, getLsbD_and]
  exact (means_iff_isBool.1 hl).andExpr (means_iff_isBool.1 hr)

theorem orTerm_means : Means σ (orTerm l r n) (x ||| y) := by
  apply bitTerm_means .or hl hr
  rintro rfl
  rw [BitOp.eval, getLsbD_or]
  exact (means_iff_isBool.1 hl).orExpr (means_iff_isBool.1 hr)

theorem xorTerm_means : Means σ (xorTerm l r n) (x ^^^ y) := by
  apply bitTerm_means .xor hl hr
  rintro rfl
  have hright := means_iff_isBool.1 hr
  rw [BitOp.eval, getLsbD_xor]
  convert (means_iff_isBool.1 hl).iteExpr hright.notExpr hright using 1
  cases x.getLsbD 0 <;> simp

end

/-! ## Comparisons -/

theorem means_ofBool {p : Bool} : Means σ t (ofBool p) ↔ t.IsBool (env σ) p := by
  rw [means_iff_isBool]
  cases p <;> rfl

theorem beq_eq_getLsbD (x y : BitVec 1) : (x == y) = (x.getLsbD 0 == y.getLsbD 0) := by
  revert x y
  decide

theorem eqTerm_means {e : Expr} (hl : Means σ l x) (hr : Means σ r y) (he : e.getWidth = n)
    (hx : e.eval σ n = x) : Means σ (eqTerm e l r n) (ofBool (x == y)) := by
  rw [means_ofBool]
  unfold eqTerm
  by_cases hn : n = 1
  · subst hn
    rw [if_pos rfl, beq_eq_getLsbD]
    rw [means_iff_isBool] at hl hr
    cases e with
    | constant c =>
      obtain ⟨k, bits⟩ := c
      obtain rfl : k = 1 := he
      obtain rfl : bits = x := (setWidth_eq bits).symm.trans hx
      dsimp only
      by_cases hb : bits = 1#1
      · subst hb
        rw [if_pos (by decide), show (1#1).getLsbD 0 = true from rfl, Bool.true_beq]
        exact hr
      · rw [eq_zero_of_ne_one hb, if_neg (by decide), show (0#1).getLsbD 0 = false from rfl, Bool.false_beq]
        exact hr.notExpr
    | _ => exact hl.iffExpr hr
  · rw [if_neg hn]
    exact VCExpr.IsBool.eqExpr ((means_iff_is hn).1 hl) ((means_iff_is hn).1 hr)

theorem bvRel_means (rel : BvRel) (hn : n ≠ 1) (hl : Means σ l x) (hr : Means σ r y) :
    Means σ (.bvRel rel l r) (ofBool (rel.eval x y)) := by
  rw [means_iff_is hn] at hl hr
  exact means_ofBool.2 (VCExpr.IsBool.bvRel rel hl hr)

/-! ## Arithmetic -/

theorem bvExpr_means (op : BvOp) (hn : n ≠ 1) (hl : Means σ l x) (hr : Means σ r y) :
    Means σ (.bvExpr op n l r) (op.eval x y) := by
  rw [means_iff_is hn] at *
  exact hl.bvExpr op hr

section

variable (hy : y ≠ 0)

include hy

theorem smtUDiv_eq : x.smtUDiv y = x.udiv y := by
  rw [smtUDiv, if_neg (by simpa using hy)]

theorem udiv_eval : BinKind.udiv.eval x y = BvOp.div.eval x y := by
  show (if y = 0 then x else x / y) = x.smtUDiv y
  rw [if_neg hy, smtUDiv_eq hy]
  rfl

theorem sdiv_eval : BinKind.sdiv.eval x y = BvOp.sbvDiv.eval x y := by
  show (if y = 0 then x else x.sdiv y) = x.smtSDiv y
  have hneg : y.neg ≠ 0 := neg_ne_zero.2 hy
  rw [if_neg hy]
  unfold sdiv smtSDiv
  rw [smtUDiv_eq hy, smtUDiv_eq hy, smtUDiv_eq hneg, smtUDiv_eq hneg]

theorem urem_eval : BinKind.urem.eval x y = BvOp.mod.eval x y := if_neg hy

theorem srem_eval : BinKind.srem.eval x y = BvOp.sbvMod.eval x y := if_neg hy

end

/-! ## Products and quotients by constants -/

theorem smallConstant_eq (σ : Assignment) {e : Expr} {d : BitVec 64} (h : smallConstant e = some d) (he : e.getWidth = n) :
    n ≤ 64 ∧ d = (e.eval σ n).setWidth 64 := by
  unfold smallConstant at h
  split at h
  · split at h
    · rename_i c hc
      obtain rfl : c.width = n := he
      refine ⟨hc, ?_⟩
      rw [← some.inj h]
      exact congrArg (·.setWidth 64) (setWidth_eq c.bits).symm
    · cases h
  · cases h

theorem constructMulByConstant_means (hn : n ≠ 1) (hpos : 0 < n) (h64 : n ≤ 64) (hr : Means σ r y) (d : BitVec 64) :
    ∃ p, constructMulByConstant r n d = .ok p ∧ Means σ p (y * multiplier n d) := by
  obtain ⟨p, hp, his⟩ := constructMulByConstant_is ((means_iff_is hn).1 hr) hpos h64 d
  exact ⟨p, hp, (means_iff_is hn).2 his⟩

/-- The shift that stands for a division by a power of two does not wrap around. -/
def DividesByShift (x : BitVec n) (divisor : Expr) : Prop :=
  ∀ d, smallConstant divisor = some d → Bits64.isPowerOfTwo d = true →
    x >>> (Bits64.indexOfSingleBit d % 2 ^ getShiftBits n) = x >>> Bits64.indexOfSingleBit d

variable {b : STPBuilder} {e : Expr} {T : Except Trap Term}

theorem udivByConstant_means (hT : b.udivByConstant (l, n) e = some T) (hn : n ≠ 1) (hpos : 0 < n) (hl : Means σ l x)
    (he : e.getWidth = n) (hy : e.eval σ n ≠ 0) :
    ∃ q, T = .ok q ∧ (Means σ q (BinKind.udiv.eval x (e.eval σ n)) ↔ DividesByShift x e) := by
  have heval : BinKind.udiv.eval x (e.eval σ n) = x / e.eval σ n := if_neg hy
  have hleft := (means_iff_is hn).1 hl
  rw [heval]
  unfold udivByConstant at hT
  split at hT
  · rename_i d hd
    obtain ⟨h64, hdeq⟩ := smallConstant_eq σ hd he
    have hdnat : d.toNat = (e.eval σ n).toNat := by rw [hdeq, toNat_setWidth_of_le h64]
    split at hT
    · rename_i hpow
      obtain rfl := some.inj hT
      refine ⟨_, rfl, ?_⟩
      have hshift := bvRightShift_is hleft hpos (Bits64.indexOfSingleBit d) (getShiftBits n)
      have hquot : x / e.eval σ n = x >>> Bits64.indexOfSingleBit d := by
        apply eq_of_toNat_eq
        rw [toNat_udiv, toNat_ushiftRight, Nat.shiftRight_eq_div_pow, ← hdnat, Bits64.toNat_of_isPowerOfTwo hpow]
      rw [((means_iff_is hn).2 hshift).iff_eq, hquot]
      constructor
      · intro heq d' hd' _
        obtain rfl := some.inj (hd.symm.trans hd')
        exact heq
      · intro hall
        exact hall d hd hpow
    · rename_i hpow
      split at hT
      · rename_i hopt
        obtain rfl : n = 32 := by grind
        obtain rfl := some.inj hT
        have hdivisor : d.setWidth 32 = e.eval σ 32 := by
          rw [hdeq, setWidth_setWidth_of_le _ (by decide), setWidth_eq]
        obtain ⟨q, hq, his⟩ := constructUDivByConstant_is hleft (hdivisor ▸ hy)
        refine ⟨q, hq, iff_of_true ((means_iff_is hn).2 (hdivisor ▸ his)) ?_⟩
        intro d' hd' hpow'
        obtain rfl := some.inj (hd.symm.trans hd')
        exact absurd hpow' hpow
      · cases hT
  · cases hT

theorem sdivByConstant_means (hT : b.sdivByConstant (l, n) e = some T) (hl : Means σ l x)
    (he : e.getWidth = n) (hy : e.eval σ n ≠ 0) :
    ∃ q, T = .ok q ∧ Means σ q (BinKind.sdiv.eval x (e.eval σ n)) := by
  have heval : BinKind.sdiv.eval x (e.eval σ n) = x.sdiv (e.eval σ n) := if_neg hy
  rw [heval]
  unfold sdivByConstant at hT
  split at hT
  · rename_i c
    split at hT
    · rename_i hopt
      obtain rfl : n = 32 := by grind
      obtain rfl := some.inj hT
      obtain ⟨q, hq, his⟩ := constructSDivByConstant_is ((means_iff_is (by decide)).1 hl) hy
      exact ⟨q, hq, (means_iff_is (by decide)).2 his⟩
    · cases hT
  · cases hT

theorem uremByConstant_means (hT : b.uremByConstant (l, n) e = some T) (hn : n ≠ 1) (hpos : 0 < n) (hl : Means σ l x)
    (he : e.getWidth = n) (hy : e.eval σ n ≠ 0) :
    ∃ q, T = .ok q ∧ Means σ q (BinKind.urem.eval x (e.eval σ n)) := by
  have heval : BinKind.urem.eval x (e.eval σ n) = x % e.eval σ n := if_neg hy
  have hleft := (means_iff_is hn).1 hl
  rw [heval]
  simp only [means_iff_is hn]
  unfold uremByConstant at hT
  split at hT
  · rename_i d hd
    obtain ⟨h64, hdeq⟩ := smallConstant_eq σ hd he
    have hdnat : d.toNat = (e.eval σ n).toNat := by rw [hdeq, toNat_setWidth_of_le h64]
    dsimp only at hT
    split at hT
    · rename_i hpow
      -- The divisor is a power of two below the width.
      have hdpow := Bits64.toNat_of_isPowerOfTwo hpow
      have hlt : Bits64.indexOfSingleBit d < n := by
        refine (Nat.pow_lt_pow_iff_right (by decide)).1 (?_ : 2 ^ _ < 2 ^ n)
        rw [← hdpow, hdnat]
        exact (e.eval σ n).isLt
      have hrem : (x % e.eval σ n).toNat = x.toNat % 2 ^ Bits64.indexOfSingleBit d := by
        rw [toNat_umod, ← hdnat, hdpow]
      split at hT
      · rename_i hzero
        obtain rfl := some.inj hT
        refine ⟨_, rfl, (bvZero_is hpos).congr rfl ?_⟩
        rw [hrem, hzero, pow_zero, Nat.mod_one]
        rfl
      · rename_i hzero
        obtain rfl := some.inj hT
        have hlow := hleft.bvExtract (Nat.zero_le (Bits64.indexOfSingleBit d - 1)) (by omega)
        refine ⟨_, rfl, ((bvZero_is (by omega)).bvConcatExpr hlow).congr (by omega) ?_⟩
        rw [hrem, toNat_append, extractLsb_toNat, Nat.shiftRight_zero,
          show Bits64.indexOfSingleBit d - 1 - 0 + 1 = Bits64.indexOfSingleBit d by omega]
        show 0 <<< _ ||| _ = _
        rw [Nat.zero_shiftLeft, Nat.zero_or]
    · split at hT
      · rename_i hopt
        obtain rfl : n = 32 := by grind
        obtain rfl := some.inj hT
        rw [hdeq]
        exact constructURemByConstant_is hleft hy
      · cases hT
  · cases hT

/-! ## Shifts -/

def shiftBy (k : BinKind) (x : BitVec n) (amount : Nat) : BitVec n :=
  match k with
  | .shl => x <<< amount
  | .lshr => x >>> amount
  | _ => x.sshiftRight amount

theorem shiftBy_add (k : BinKind) (x : BitVec n) (a d : Nat) : shiftBy k x (a + d) = shiftBy k (shiftBy k x a) d := by
  cases k with
  | shl => exact shiftLeft_add x a d
  | lshr => exact shiftRight_add x a d
  | _ => exact sshiftRight_add

theorem shiftBy_of_le (k : BinKind) (x : BitVec n) {a : Nat} (h : n ≤ a) : shiftBy k x a = shiftBy k x n := by
  unfold shiftBy
  split
  · rw [shiftLeft_eq_zero h, shiftLeft_eq_zero le_rfl]
  · rw [ushiftRight_eq_zero h, ushiftRight_eq_zero le_rfl]
  · rw [sshiftRight_of_le (by omega), sshiftRight_of_le (by omega)]

theorem shiftBy_mul_of_fixed {k : BinKind} {d : Nat} (h : shiftBy k x d = x) (j : Nat) : shiftBy k x (d * j) = x := by
  induction j with
  | zero =>
    rw [Nat.mul_zero]
    unfold shiftBy
    split
    · exact shiftLeft_zero x
    · exact ushiftRight_zero x
    · exact sshiftRight_zero
  | succ j ih => rw [Nat.mul_succ, shiftBy_add, ih, h]

/-- The amount may be taken modulo a number if it is below, or if the rest already shifts everything out. -/
theorem shiftBy_mod_eq_iff (k : BinKind) (x : BitVec n) (a : Nat) {b : Nat} (hb : 0 < b) :
    shiftBy k x (a % b) = shiftBy k x a ↔ a < b ∨ shiftBy k x (a % b) = shiftBy k x n := by
  by_cases hlt : a < b
  · exact iff_of_true (by rw [Nat.mod_eq_of_lt hlt]) (.inl hlt)
  · have hmod := Nat.mod_lt a hb
    have hsplit : a = a % b + (a - a % b) := by omega
    constructor
    · intro h
      refine .inr ?_
      have hfixed : shiftBy k (shiftBy k x (a % b)) (a - a % b) = shiftBy k x (a % b) := by
        rw [← shiftBy_add, ← hsplit, h]
      rw [← shiftBy_mul_of_fixed hfixed n, ← shiftBy_add]
      refine shiftBy_of_le k x (Nat.le_add_left_of_le ?_)
      exact Nat.le_mul_of_pos_left n (by omega)
    · rintro (h | h)
      · exact absurd h hlt
      · rw [hsplit, shiftBy_add, ← hsplit, h, ← shiftBy_add, shiftBy_of_le k x (Nat.le_add_right n _)]

def isShift : BinKind → Bool
  | .shl | .lshr | .ashr => true
  | _ => false

theorem shift_eval {k : BinKind} (hk : isShift k = true) (x y : BitVec n) : k.eval x y = shiftBy k x y.toNat := by
  cases k <;> first | rfl | cases hk

/-- What `constructActual` makes of a shift by a constant. -/
def shiftConstantTerm (k : BinKind) (left : Term) (amount width : Nat) : Term :=
  match k with
  | .shl => bvLeftShift left amount (getShiftBits width)
  | .lshr => bvRightShift left amount (getShiftBits width)
  | _ => constructAShrByConstant left amount (bvBoolExtract left (width - 1)) (getShiftBits width)

/-- What it makes of any other shift. -/
def shiftTerm (k : BinKind) (left amount : Term) (width : Nat) : Term :=
  match k with
  | .shl => bvVarLeftShift left amount width
  | .lshr => bvVarRightShift left amount width
  | _ => bvVarArithRightShift left amount width

theorem shiftConstantTerm_means (k : BinKind) (hn : 1 < n) (hl : Means σ l x) (a : Nat) :
    Means σ (shiftConstantTerm k l a n) (shiftBy k x (a % 2 ^ getShiftBits n)) := by
  rw [means_iff_is (by omega)] at *
  have hsign : (bvBoolExtract l (n - 1)).IsBool (env σ) x.msb := by
    rw [msb_eq_getLsbD_last]
    exact bvBoolExtract_isBool hl (by omega)
  cases k with
  | shl => exact bvLeftShift_is hl (by omega) a _
  | lshr => exact bvRightShift_is hl (by omega) a _
  | _ => exact constructAShrByConstant_is hl hn hsign a (getShiftBits_le n).2

/-- The amounts with a case of their own. -/
def shiftCaseCount (k : BinKind) (width : Nat) : Nat :=
  match k with
  | .shl | .lshr => width
  | _ => width - 1

/-- The amount has as many bits as are taken of it, and every case has an amount that fits them. -/
def CasesFit (k : BinKind) (width : Nat) : Prop :=
  getShiftBits width ≤ width ∧ shiftCaseCount k width ≤ 2 ^ getShiftBits width

theorem shiftTerm_means {k : BinKind} (hfits : CasesFit k n) (hn : 1 < n) (hl : Means σ l x) (hr : Means σ r y) :
    Means σ (shiftTerm k l r n) (shiftBy k x (y.toNat % 2 ^ getShiftBits n)) := by
  obtain ⟨hbits, hcount⟩ := hfits
  rw [means_iff_is (by omega)] at *
  cases k with
  | shl => exact bvVarLeftShift_is hl (by omega) hcount hr hbits
  | lshr => exact bvVarRightShift_is hl (by omega) hcount hr hbits
  | _ => exact bvVarArithRightShift_is hl hn hcount hr hbits

theorem not_shiftTerm_means {k : BinKind} (hfits : ¬CasesFit k n) (hn : 1 < n) (hr : Means σ r y) :
    ¬Means σ (shiftTerm k l r n) (shiftBy k x y.toNat) := by
  rw [means_iff_is (by omega)] at hr
  apply not_means_of_none
  have hcases : ∃ byConstant res, shiftTerm k l r n =
      shiftCases (shiftAmount r (getShiftBits n)) (getShiftBits n) byConstant (shiftCaseCount k n) res := by
    cases k <;> exact ⟨_, _, rfl⟩
  obtain ⟨byConstant, res, hterm⟩ := hcases
  rw [hterm]
  have hpos : 0 < shiftCaseCount k n := by
    unfold shiftCaseCount
    split <;> omega
  by_cases hbits : getShiftBits n ≤ n
  · have hcount : 2 ^ getShiftBits n < shiftCaseCount k n := by
      by_contra hle
      exact hfits ⟨hbits, by omega⟩
    exact shiftCases_none hcount (Nat.pow_lt_pow_right (by decide) (by have := getShiftBits_le n; omega))
  · exact shiftCases_of_shift_none (shiftAmount_none hr (by omega)) hpos

/-! ## Arrays -/

theorem initialWrites_isArray (σ : Assignment) (root : Array) (hk : k ≤ root.size) :
    ((List.range k).foldl (fun prev i => VCExpr.writeExpr prev (constantTerm (.ofNat i 32))
      (constantTerm ⟨8, root.constantValues.getD i 0⟩)) (.varExpr root)).IsArray (env σ)
      fun i => if i.toNat < k then root.constantValues.getD i.toNat 0 else σ root i.toNat := by
  induction k with
  | zero => rfl
  | succ k ih =>
    have hsize := root.size_lt
    have hindex : (constantTerm (.ofNat k 32)).Is (env σ) (ofNat 32 k) :=
      (means_iff_is (by decide)).1 ((constantTerm_means (.ofNat k 32) (by decide : 0 < 32)).2 (.inl (by decide : 32 ≤ 64)))
    have hvalue : (constantTerm ⟨8, root.constantValues.getD k 0⟩).Is (env σ) (root.constantValues.getD k 0) :=
      (means_iff_is (by decide)).1 ((constantTerm_means ⟨8, _⟩ (by decide : 0 < 8)).2 (.inl (by decide : 8 ≤ 64)))
    rw [List.range_succ, List.foldl_append]
    have hwrite := (ih (by omega)).writeExpr hindex hvalue
    unfold VCExpr.IsArray at *
    refine hwrite.trans (congrArg (some ∘ Value.array) ?_)
    funext i
    by_cases hi : i = ofNat 32 k
    · grind
    · have hne : i.toNat ≠ k := by
        intro h
        exact hi (by rw [← h, ofNat_toNat, setWidth_eq])
      rw [Function.update_of_ne hi]
      by_cases hlt : i.toNat < k
      · rw [if_pos hlt, if_pos (by omega)]
      · rw [if_neg hlt, if_neg (by omega)]

theorem initialTerm_isArray (σ : Assignment) (root : Array) :
    (initialTerm root).IsArray (env σ) fun i => σ.initial root i.toNat := by
  unfold initialTerm
  by_cases hc : root.isConstantArray = true
  · rw [if_pos hc]
    have hlen : root.constantValues.length = root.size := by
      refine root.valid.resolve_left fun h => ?_
      simp [Array.isConstantArray, Array.isSymbolicArray, h] at hc
    convert initialWrites_isArray σ root le_rfl using 2
    rename_i i
    unfold Assignment.initial
    by_cases hi : i.toNat < root.size
    · grind
    · grind
  · rw [if_neg hc]
    have hnil : root.constantValues = [] := by
      simpa [Array.isConstantArray, Array.isSymbolicArray] using hc
    unfold VCExpr.IsArray Assignment.initial
    rw [hnil]
    rfl

end Nodes

end S2E.Klee.STPBuilder
