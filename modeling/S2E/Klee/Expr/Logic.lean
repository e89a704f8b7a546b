import S2E.Klee.Expr.Simplifies

/-!
# `AndExpr::create`, `OrExpr::create`, `EqExpr::create`

`eqExprCreatePartialR` rewrites an equality with a constant: boolean negation, sign and zero extension, sums with a
constant and reads of constant arrays. It recurses through the right operand only.
-/

namespace S2E.Klee
open List

open BitVec (eq_of_toNat_eq ofBool ofNat setWidth_eq)
open Expr (bin cmp const constant eval eval_cmp getWidth weight)

/-! ## Values of constants -/

variable {w : Nat} {b l r : Expr} {root : Array} {c cl : APInt} {k : BinKind}

theorem eval_of_isAllOnes (h : c.isAllOnes = true) (σ : Assignment) :
    (constant c).eval σ c.width = BitVec.allOnes c.width := by
  apply eq_of_toNat_eq
  simpa [eval, APInt.isAllOnes, APInt.getZExtValue] using h

theorem eval_of_isZero (h : c.isZero = true) (σ : Assignment) : (constant c).eval σ c.width = 0#c.width := by
  apply eq_of_toNat_eq
  simpa [eval, APInt.isZero, APInt.getZExtValue] using h

theorem bool_eq_one : ∀ x : BitVec 1, ofBool (1#1 == x) = x := by decide

theorem bool_not_not : ∀ x : BitVec 1, ofBool (0#1 == ofBool (0#1 == x)) = x := by decide

theorem bool_not_or : ∀ x y : BitVec 1, ofBool (0#1 == (x ||| y)) = ofBool (0#1 == x) &&& ofBool (0#1 == y) := by decide

theorem Expr.eval_constant (c : BitVec w) (σ : Assignment) : (constant ⟨w, c⟩).eval σ w = c := by
  simp only [eval, setWidth_eq]

theorem Expr.eval_eq_constant (c : BitVec w) (r : Expr) (σ : Assignment) :
    (cmp .eq (.constant ⟨w, c⟩) r).eval σ 1 = ofBool (c == r.eval σ w) := by
  rw [eval_cmp (w := w) rfl, eval_constant]
  rfl

theorem eq_ofNat_of_not_isTrue (hw : cl.width = 1) (hc : cl.isTrue = false) : cl = .ofNat 0 1 := by
  obtain ⟨w, c⟩ := cl
  subst hw
  have hne : c.toNat ≠ 1 := by simpa [APInt.isTrue, APInt.getZExtValue] using hc
  have : c = 0#1 := eq_of_toNat_eq (by simp; omega)
  subst this
  rfl

theorem setWidth_signExtend {k : Nat} (hk : k ≤ w) (x : BitVec k) : (x.signExtend w).setWidth k = x := by
  rw [← BitVec.signExtend_eq_setWidth_of_le _ hk]
  ext i hi
  simp [BitVec.getElem_signExtend, hi, Nat.lt_of_lt_of_le hi hk]

theorem setWidth_zeroExtend {k : Nat} (hk : k ≤ w) (x : BitVec k) : (x.setWidth w).setWidth k = x := by
  rw [BitVec.setWidth_setWidth_of_le _ hk, setWidth_eq]

/-! ## Constant arrays -/

/-- The indices at which a constant array holds the constant. -/
def Array.matches (root : Array) (cl : APInt) : List Nat :=
  (range root.size).filter (fun i => cl = ⟨8, root.constantValues.getD i 0⟩)

theorem Array.mem_matches {i : Nat} : i ∈ root.matches cl ↔ i < root.size ∧ cl = ⟨8, root.constantValues.getD i 0⟩ := by
  simp [Array.matches]

theorem Array.length_constantValues (h : root.isSymbolicArray = false) : root.constantValues.length = root.size := by
  refine root.valid.resolve_left fun h0 => ?_
  simp [isSymbolicArray, h0] at h

/-- A constant array holds the constant at an index in bounds exactly when the index is one of the matches. -/
theorem Array.exists_matches_iff {c : BitVec 8} (h : root.isSymbolicArray = false) (σ : Assignment)
    {i : BitVec 32} (hi : i.toNat < root.size) :
    (∃ j ∈ root.matches ⟨8, c⟩, ofNat 32 j = i) ↔ c = σ.initial root i.toNat := by
  have hlen := root.length_constantValues h
  have hval : σ.initial root i.toNat = root.constantValues.getD i.toNat 0 := by
    simp [Assignment.initial, getD_eq_getElem?_getD, getElem?_eq_getElem (hlen ▸ hi)]
  rw [hval]
  constructor
  · rintro ⟨j, hj, rfl⟩
    rw [mem_matches] at hj
    have : j % 4294967296 = j := Nat.mod_eq_of_lt (hj.1.trans root.size_lt)
    simpa [this] using hj.2
  · intro hc
    exact ⟨i.toNat, mem_matches.2 ⟨hi, by rw [hc]⟩, by simp⟩

variable [Options]

/-! ## And, Or -/

def andExprCreatePartial (l : Expr) (cr : APInt) : Expr :=
  if cr.isAllOnes then l else if cr.isZero then .constant cr else .bin .and l (.constant cr)

def andExprCreatePartialR (cl : APInt) (r : Expr) : Expr := andExprCreatePartial r cl

def AndExpr.create : Expr → Expr → Expr :=
  bcreateR .and andExprCreatePartial andExprCreatePartialR (.bin .and)

def orExprCreatePartial (l : Expr) (cr : APInt) : Expr :=
  if cr.isAllOnes then .constant cr else if cr.isZero then l else .bin .or l (.constant cr)

def orExprCreatePartialR (cl : APInt) (r : Expr) : Expr := orExprCreatePartial r cl

def OrExpr.create : Expr → Expr → Expr :=
  bcreateR .or orExprCreatePartial orExprCreatePartialR (.bin .or)

theorem bin_swap (hk : k.isDiv = false) (hc : ∀ w (x y : BitVec w), k.eval x y = k.eval y x)
    (h : (bin k l r).WF) : (bin k l r).Simplifies (.bin k r l) where
  width := h.2.2.1
  ok P hP := ⟨hP.2.1, hP.1, hP.2.2.1.symm, by simp [hk]⟩
  eval σ _ := by simp only [getWidth, eval]; rw [hc]
  weight := by simp only [weight]; omega

theorem bin_left
    (he : ∀ σ, (bin k l r).InBounds σ → k.eval (l.eval σ l.getWidth) (r.eval σ l.getWidth) = l.eval σ l.getWidth) :
    (bin k l r).Simplifies l where
  width := rfl
  ok P hP := hP.1
  eval σ hσ := by simp only [getWidth, eval]; exact (he σ hσ).symm
  weight := by simp only [weight]; omega

theorem bin_right (h : (bin k l r).WF)
    (he : ∀ σ, (bin k l r).InBounds σ → k.eval (l.eval σ l.getWidth) (r.eval σ l.getWidth) = r.eval σ l.getWidth) :
    (bin k l r).Simplifies r where
  width := h.2.2.1
  ok P hP := hP.2.1
  eval σ hσ := by simp only [getWidth, eval]; exact (he σ hσ).symm
  weight := by simp only [weight]; omega

theorem andExprCreatePartial_simplifies {cr : APInt} (h : (bin .and l (.constant cr)).WF) :
    (bin .and l (.constant cr)).Simplifies (andExprCreatePartial l cr) := by
  have hw : cr.width = l.getWidth := h.2.2.1
  unfold andExprCreatePartial
  split
  · rename_i h1
    refine bin_left (fun σ _ => ?_)
    rw [← hw, eval_of_isAllOnes h1]
    exact BitVec.and_allOnes
  · split
    · rename_i h1
      refine bin_right h (fun σ _ => ?_)
      rw [← hw, eval_of_isZero h1]
      exact BitVec.and_zero
    · exact .refl _

theorem orExprCreatePartial_simplifies {cr : APInt} (h : (bin .or l (.constant cr)).WF) :
    (bin .or l (.constant cr)).Simplifies (orExprCreatePartial l cr) := by
  have hw : cr.width = l.getWidth := h.2.2.1
  unfold orExprCreatePartial
  split
  · rename_i h1
    refine bin_right h (fun σ _ => ?_)
    rw [← hw, eval_of_isAllOnes h1]
    exact BitVec.or_allOnes
  · split
    · rename_i h1
      refine bin_left (fun σ _ => ?_)
      rw [← hw, eval_of_isZero h1]
      exact BitVec.or_zero
    · exact .refl _

theorem AndExpr.create_simplifies (h : (bin .and l r).WF) : (bin .and l r).Simplifies (create l r) := by
  refine bcreateR_simplifies h ?_ ?_ (.refl _)
  · rintro cr rfl
    exact andExprCreatePartial_simplifies h
  · rintro cl rfl
    have hs := bin_swap (k := .and) rfl (fun _ x y => BitVec.and_comm x y) h
    exact hs.trans (andExprCreatePartial_simplifies (hs.wf h))

theorem OrExpr.create_simplifies (h : (bin .or l r).WF) : (bin .or l r).Simplifies (create l r) := by
  refine bcreateR_simplifies h ?_ ?_ (.refl _)
  · rintro cr rfl
    exact orExprCreatePartial_simplifies h
  · rintro cl rfl
    have hs := bin_swap (k := .or) rfl (fun _ x y => BitVec.or_comm x y) h
    exact hs.trans (orExprCreatePartial_simplifies (hs.wf h))

/-! ## Eq -/

/-- `EqExpr_create`. -/
def eqExprCreate (l r : Expr) : Expr := if l = r then .const 1 1 else .cmp .eq l r

/-- `TryConstArrayOpt` for the read of `root` at `index` through the updates `head`; `eqIndex i` is the equality of the
index with `i`. The loop over the array gives up at the 101st match. -/
def tryConstArrayOpt (cl : APInt) (root : Array) (head : Updates) (index : Expr) (eqIndex : Nat → Expr) : Expr :=
  if root.isSymbolicArray || head ≠ .nil then eqExprCreate (.constant cl) (.read root head index)
  else if (root.matches cl).length > 100 then eqExprCreate (.constant cl) (.read root head index)
  else (root.matches cl).foldl (fun res i => OrExpr.create res (eqIndex i)) (.const 0 1)

/-- `EqExpr::create(e, c)` with a constant right operand, `rest` being what a non-constant `e` gives. -/
def eqConst (e : Expr) (c : APInt) (rest : Expr) : Expr :=
  match e with
  | .constant ce => .constant (ce.cmp .eq c)
  | _ => rest

/-- `EqExpr_createPartialR`. -/
def eqExprCreatePartialR (cl : APInt) (r : Expr) : Expr :=
  if cl.width = 1 then
    if cl.isTrue then r
    else
      match r with
      -- 0 == (0 == A) => A
      | .cmp .eq (.constant ce) right =>
        if ce.width = 1 ∧ ce.isFalse then right else eqExprCreate (.constant cl) r
      -- not(or(a, b)) => and(not a, not b)
      | .bin .or a b =>
        AndExpr.create (eqConst a (.ofNat 0 a.getWidth) (eqExprCreatePartialR (.ofNat 0 a.getWidth) a))
          (eqConst b (.ofNat 0 b.getWidth) (eqExprCreatePartialR (.ofNat 0 b.getWidth) b))
      | _ => eqExprCreate (.constant cl) r
  else
    match r with
    | .sext src _ =>
      let trunc := cl.zext src.getWidth
      if cl = trunc.sext cl.width then eqConst src trunc (eqExprCreatePartialR trunc src) else .const 0 1
    | .zext src _ =>
      let trunc := cl.zext src.getWidth
      if cl = trunc.zext cl.width then eqConst src trunc (eqExprCreatePartialR trunc src) else .const 0 1
    -- c0 = c1 + b => c0 - c1 = b
    | .bin .add (.constant k) b => eqExprCreatePartialR (cl.bin .sub k) b
    -- c0 = c1 - b => c1 - c0 = b
    | .bin .sub (.constant k) b => eqExprCreatePartialR (k.bin .sub cl) b
    | .read root head index =>
      if Options.constArrayOpt then
        tryConstArrayOpt cl root head index (fun i =>
          eqConst index (.ofNat i index.getWidth) (eqExprCreatePartialR (.ofNat i index.getWidth) index))
      else eqExprCreate (.constant cl) r
    | _ => eqExprCreate (.constant cl) r

/-- `EqExpr::create` (`CMPCREATE_T`). -/
def EqExpr.create : Expr → Expr → Expr
  | .constant cl, .constant cr => .constant (cl.cmp .eq cr)
  | .constant cl, r => eqExprCreatePartialR cl r
  | l, .constant cr => eqExprCreatePartialR cr l
  | l, r => eqExprCreate l r

/-- `Expr::createIsZero`. -/
def Expr.createIsZero (e : Expr) : Expr := EqExpr.create e (.const 0 e.getWidth)

/-! ## Equality rules -/

theorem EqExpr.create_constant (e : Expr) (c : APInt) :
    create e (.constant c) = eqConst e c (eqExprCreatePartialR c e) := by
  cases e <;> rfl

theorem cmp_const {k : CmpKind} {b : BitVec 1} (he : ∀ σ, (cmp k l r).InBounds σ → (cmp k l r).eval σ 1 = b) :
    (cmp k l r).Simplifies (.constant ⟨1, b⟩) where
  width := rfl
  ok P _ := Nat.zero_lt_one
  eval σ hσ := (Expr.eval_constant b σ).trans (he σ hσ).symm
  weight := by
    have := l.weight_pos
    simp only [weight]
    omega

theorem eqExprCreate_simplifies : (cmp .eq l r).Simplifies (eqExprCreate l r) := by
  unfold eqExprCreate
  split
  · rename_i h
    subst h
    exact cmp_const (fun σ _ => by rw [eval_cmp rfl]; simp [CmpKind.eval])
  · exact .refl _

theorem cmp_swap (k k' : CmpKind) (hw : k'.weight ≤ k.weight)
    (he : ∀ (w : Nat) (x y : BitVec w), k'.eval y x = k.eval x y) (h : (cmp k l r).WF) :
    (cmp k l r).Simplifies (.cmp k' r l) where
  width := rfl
  ok P hP := ⟨hP.2.1, hP.1, hP.2.2.symm⟩
  eval σ _ := by
    have hw : r.getWidth = l.getWidth := h.2.2
    simp only [getWidth]
    rw [eval_cmp hw, eval_cmp rfl, he]
  weight := by simp only [weight]; omega

theorem eq_swap (h : (cmp .eq l r).WF) : (cmp .eq l r).Simplifies (.cmp .eq r l) :=
  cmp_swap .eq .eq le_rfl (fun _ _ _ => BEq.comm) h

theorem eqConst_simplifies {e : Expr} {rest : Expr} (h : (cmp .eq (.constant c) e).WF)
    (hr : (cmp .eq (.constant c) e).Simplifies rest) :
    (cmp .eq (.constant c) e).Simplifies (eqConst e c rest) := by
  unfold eqConst
  split
  · exact (eq_swap h).trans (fold_cmp .eq _ _)
  · exact hr

/-- An equality with a constant replaced by an equivalent one that is no heavier. -/
theorem eq_to_eq {w' : Nat} {c : BitVec w} {c' : BitVec w'} {r' : Expr}
    (hok : ∀ P, (cmp .eq (.constant ⟨w, c⟩) r).Ok P → (cmp .eq (.constant ⟨w', c'⟩) r').Ok P)
    (he : ∀ σ, (cmp .eq (.constant ⟨w, c⟩) r).InBounds σ → (c' = r'.eval σ w' ↔ c = r.eval σ w))
    (hw : r'.weight ≤ r.weight) :
    (cmp .eq (.constant ⟨w, c⟩) r).Simplifies (.cmp .eq (.constant ⟨w', c'⟩) r') where
  width := rfl
  ok := hok
  eval σ hσ := by
    simp only [getWidth]
    rw [Expr.eval_eq_constant, Expr.eval_eq_constant]
    congr 1
    rw [Bool.eq_iff_iff, beq_iff_eq, beq_iff_eq]
    exact he σ hσ
  weight := by simp only [weight]; omega

theorem eq_true_left (hw : cl.width = 1) (hc : cl.isTrue = true)
    (h : (cmp .eq (.constant cl) r).WF) : (cmp .eq (.constant cl) r).Simplifies r where
  width := h.2.2.trans hw
  ok P hP := hP.2.1
  eval σ _ := by
    obtain ⟨w, c⟩ := cl
    subst hw
    have hc : c = 1#1 := eq_of_toNat_eq (by simpa [APInt.isTrue, APInt.getZExtValue] using hc)
    subst hc
    simp only [getWidth]
    rw [Expr.eval_eq_constant, bool_eq_one]
  weight := by simp only [weight]; omega

theorem eq_false_eq_false {right : Expr} (h : (cmp .eq (.const 0 1) (.cmp .eq (.const 0 1) right)).WF) :
    (cmp .eq (.const 0 1) (.cmp .eq (.const 0 1) right)).Simplifies right where
  width := h.2.1.2.2
  ok P hP := hP.2.1.2.1
  eval σ _ := by
    simp only [getWidth, const, APInt.ofNat]
    rw [Expr.eval_eq_constant, Expr.eval_eq_constant]
    exact (bool_not_not _).symm
  weight := by simp only [weight]; omega

theorem eq_false_or {a : Expr} : (cmp .eq (.const 0 1) (.bin .or a b)).Simplifies
      (.bin .and (.cmp .eq (.const 0 1) a) (.cmp .eq (.const 0 1) b)) where
  width := rfl
  ok P hP := by
    have ha : a.getWidth = 1 := hP.2.2
    have hb : b.getWidth = 1 := hP.2.1.2.2.1.trans ha
    exact ⟨⟨Nat.zero_lt_one, hP.2.1.1, ha⟩, ⟨Nat.zero_lt_one, hP.2.1.2.1, hb⟩, rfl, by simp [BinKind.isDiv]⟩
  eval σ _ := by
    simp only [getWidth, const, APInt.ofNat]
    rw [Expr.eval_eq_constant, eval, Expr.eval_eq_constant, Expr.eval_eq_constant]
    exact (bool_not_or _ _).symm
  weight := by simp only [weight, BinKind.weight, CmpKind.weight]; omega

/-! The equality of a constant with an extension `r` of `src`; `ext` is the extension, on values and on constants. -/

section Extension

variable (ext : {k : Nat} → (w : Nat) → BitVec k → BitVec w) {cl : APInt} {r src : Expr}

section

variable (hext : ∀ {k w : Nat}, k ≤ w → ∀ x : BitVec k, (ext w x).setWidth k = x)
  (hr : ∀ σ, r.eval σ cl.width = ext cl.width (src.eval σ src.getWidth))

include hext hr

theorem eq_ext (hw : src.weight ≤ r.weight) (hok : ∀ P, r.Ok P → src.Ok P) (hle : src.getWidth ≤ cl.width)
    (hc : cl = ⟨cl.width, ext cl.width (cl.bits.setWidth src.getWidth)⟩) :
    (cmp .eq (.constant cl) r).Simplifies (.cmp .eq (.constant (cl.zext src.getWidth)) src) := by
  obtain ⟨w, c⟩ := cl
  refine eq_to_eq ?_ ?_ hw
  · intro P hP
    have hs := hok P hP.2.1
    exact ⟨Expr.width_pos _ hs.wf, hs, rfl⟩
  · grind

theorem eq_ext_ne (hle : src.getWidth ≤ cl.width) (hc : cl ≠ ⟨cl.width, ext cl.width (cl.bits.setWidth src.getWidth)⟩) :
    (cmp .eq (.constant cl) r).Simplifies (.const 0 1) := by
  obtain ⟨w, c⟩ := cl
  refine cmp_const (fun σ _ => ?_)
  have hne : c ≠ ext w (src.eval σ src.getWidth) := by grind
  rw [Expr.eval_eq_constant, hr, beq_false_of_ne hne]
  rfl

end

end Extension

theorem eq_sext {src : Expr} {w : Nat} (h : (cmp .eq (.constant cl) (.sext src w)).WF)
    (hc : cl = (cl.zext src.getWidth).sext cl.width) :
    (cmp .eq (.constant cl) (.sext src w)).Simplifies (.cmp .eq (.constant (cl.zext src.getWidth)) src) := by
  have hw : w = cl.width := h.2.2
  exact eq_ext (fun w x => x.signExtend w) setWidth_signExtend (fun σ => hw ▸ Expr.eval_sext rfl σ)
    (by simp only [weight]; omega) (fun P hP => hP.1) (hw ▸ h.2.1.2) hc

theorem eq_zext {src : Expr} {w : Nat} (h : (cmp .eq (.constant cl) (.zext src w)).WF)
    (hc : cl = (cl.zext src.getWidth).zext cl.width) :
    (cmp .eq (.constant cl) (.zext src w)).Simplifies (.cmp .eq (.constant (cl.zext src.getWidth)) src) := by
  have hw : w = cl.width := h.2.2
  exact eq_ext (fun w x => x.setWidth w) setWidth_zeroExtend (fun σ => hw ▸ Expr.eval_zext rfl σ)
    (by simp only [weight]; omega) (fun P hP => hP.1) (hw ▸ h.2.1.2) hc

theorem eq_add {k : APInt} (h : (cmp .eq (.constant cl) (.bin .add (.constant k) b)).WF) :
    (cmp .eq (.constant cl) (.bin .add (.constant k) b)).Simplifies (.cmp .eq (.constant (cl.bin .sub k)) b) := by
  obtain ⟨w, c⟩ := cl
  obtain ⟨w', c'⟩ := k
  obtain rfl : w' = w := h.2.2
  refine eq_to_eq (fun P hP => ⟨hP.1, hP.2.1.2.1, hP.2.1.2.2.1⟩) (fun σ _ => ?_) (by simp only [weight]; omega)
  simp only [eval, BinKind.eval, setWidth_eq]
  grind

theorem eq_sub {k : APInt} (h : (cmp .eq (.constant cl) (.bin .sub (.constant k) b)).WF) :
    (cmp .eq (.constant cl) (.bin .sub (.constant k) b)).Simplifies (.cmp .eq (.constant (k.bin .sub cl)) b) := by
  obtain ⟨w, c⟩ := cl
  obtain ⟨w', c'⟩ := k
  obtain rfl : w' = w := h.2.2
  refine eq_to_eq (fun P hP => ⟨hP.2.1.1, hP.2.1.2.1, hP.2.1.2.2.1⟩) (fun σ _ => ?_) (by simp only [weight]; omega)
  simp only [eval, BinKind.eval, setWidth_eq]
  grind

/-! ## Reads of constant arrays -/

/-- The disjunction that the loop of `TryConstArrayOpt` builds. -/
theorem foldl_or {index : Expr} {f : Nat → Expr} (hi : index.WF) (hw : index.getWidth = 32)
    (hf : ∀ i, (cmp .eq (.const i 32) index).Simplifies (f i)) :
    ∀ (L : List Nat) (acc : Expr), acc.WF → acc.getWidth = 1 →
      let res := L.foldl (fun res i => OrExpr.create res (f i)) acc
      res.getWidth = 1 ∧ (∀ P, index.Ok P → acc.Ok P → res.Ok P) ∧
      (∀ σ, index.InBounds σ → acc.InBounds σ → (res.Holds σ ↔ acc.Holds σ ∨ ∃ i ∈ L, ofNat 32 i = index.eval σ 32)) ∧
      res.weight ≤ acc.weight + L.length * (index.weight + 6) := by
  have hok : ∀ P i, index.Ok P → (cmp .eq (.const i 32) index).Ok P := fun P i h =>
    ⟨Nat.zero_lt_succ 31, h, hw⟩
  intro L
  induction L with
  | nil => exact fun acc _ ha => ⟨ha, fun _ _ h => h, fun _ _ _ => by simp, by simp⟩
  | cons i L ih =>
    intro acc hacc ha
    have hfw : (f i).getWidth = 1 := (hf i).width
    have hplain : ∀ P, index.Ok P → acc.Ok P → (bin .or acc (f i)).Ok P := fun P h h' =>
      ⟨h', (hf i).ok P (hok P i h), hfw.trans ha.symm, by simp [BinKind.isDiv]⟩
    have hs := OrExpr.create_simplifies (hplain _ hi hacc)
    obtain ⟨h1, h2, h3, h4⟩ := ih (OrExpr.create acc (f i)) (hs.wf (hplain _ hi hacc)) (hs.width.trans ha)
    refine ⟨h1, fun P h h' => h2 P h (hs.ok P (hplain P h h')), fun σ h h' => ?_, ?_⟩
    · have hb := hplain _ h h'
      have hv : (f i).eval σ 1 = ofBool (ofNat 32 i == index.eval σ 32) := by
        rw [(hf i).eval_at (w := 1) (hok _ i h) rfl]
        exact Expr.eval_eq_constant _ _ σ
      have hbool : ∀ b : Bool, ofBool b = 1#1 ↔ b = true := by decide
      have hor : ∀ x y : BitVec 1, x ||| y = 1#1 ↔ x = 1#1 ∨ y = 1#1 := by decide
      rw [foldl_cons, h3 σ h (hs.ok _ hb), Expr.Holds, hs.eval_at hb ha, eval, BinKind.eval, hor, hv, hbool]
      simp [or_assoc]
    · have hle := hs.weight
      have hfi := (hf i).weight
      simp only [weight, BinKind.weight, CmpKind.weight] at hle hfi
      simp only [foldl_cons, length_cons, Nat.succ_mul]
      omega

theorem tryConstArrayOpt_simplifies {head : Updates} {index : Expr} {f : Nat → Expr}
    (hopt : Options.constArrayOpt = true) (h : (cmp .eq (.constant cl) (.read root head index)).WF)
    (hf : ∀ i, (cmp .eq (.const i index.getWidth) index).Simplifies (f i)) :
    (cmp .eq (.constant cl) (.read root head index)).Simplifies (tryConstArrayOpt cl root head index f) := by
  unfold tryConstArrayOpt
  split
  · exact eqExprCreate_simplifies
  · rename_i hs
    simp only [Bool.or_eq_true, decide_eq_true_eq, not_or, Bool.not_eq_true, ne_eq, Decidable.not_not] at hs
    obtain ⟨hsym, rfl⟩ := hs
    split
    · exact eqExprCreate_simplifies
    · rename_i hlen
      obtain ⟨w, c⟩ := cl
      obtain rfl : 8 = w := h.2.2
      have hw : index.getWidth = 32 := h.2.1.2.2.1
      rw [hw] at hf
      obtain ⟨h1, h2, h3, h4⟩ := foldl_or h.2.1.2.1 hw hf (root.matches ⟨8, c⟩) (.const 0 1) Nat.zero_lt_one rfl
      refine ⟨h1, fun P hP => h2 P hP.2.1.2.1 Nat.zero_lt_one, fun σ hσ => ?_, ?_⟩
      · have hi : (index.eval σ 32).toNat < root.size := hσ.2.1.2.2.2 hopt (by simp [Array.isConstantArray, hsym])
        have hiff := h3 σ hσ.2.1.2.1 Nat.zero_lt_one
        rw [Array.exists_matches_iff hsym σ hi] at hiff
        have hzero : ¬ (const 0 1).Holds σ := by simp [eval, APInt.ofNat]
        have hbool : ∀ (x : BitVec 1) (b : Bool), (x = 1#1 ↔ b = true) → x = ofBool b := by decide
        simp only [getWidth]
        rw [Expr.eval_eq_constant]
        refine hbool _ _ ?_
        simpa [hzero, eval, Updates.eval] using hiff
      · have := index.weight_pos
        have : (root.matches ⟨8, c⟩).length * (index.weight + 6) ≤ 100 * (index.weight + 6) :=
          Nat.mul_le_mul_right _ (by omega)
        simp only [weight] at h4 ⊢
        omega

/-! ## Soundness of `EqExpr::create` -/

theorem eqExprCreatePartialR_simplifies (cl : APInt) (r : Expr) (h : (cmp .eq (.constant cl) r).WF) :
    (cmp .eq (.constant cl) r).Simplifies (eqExprCreatePartialR cl r) := by
  fun_induction eqExprCreatePartialR cl r with
  | case1 r cl hw hc => exact eq_true_left hw hc h
  | case2 cl hw hc ce right he =>
    obtain rfl := eq_ofNat_of_not_isTrue hw (Bool.eq_false_iff.2 hc)
    have : ce = .ofNat 0 1 := by
      refine eq_ofNat_of_not_isTrue he.1 ?_
      have hz : ce.getZExtValue = 0 := by simpa [APInt.isFalse] using he.2
      simp [APInt.isTrue, hz]
    subst this
    exact eq_false_eq_false h
  | case4 cl hw hc a b iha ihb =>
    obtain rfl := eq_ofNat_of_not_isTrue hw (Bool.eq_false_iff.2 hc)
    have hs := eq_false_or (a := a) (b := b)
    have hwf := hs.wf h
    have haw : a.getWidth = 1 := hwf.1.2.2
    have hbw : b.getWidth = 1 := hwf.2.1.2.2
    rw [haw] at iha ⊢
    rw [hbw] at ihb ⊢
    have ha := eqConst_simplifies hwf.1 (iha hwf.1)
    have hb := eqConst_simplifies hwf.2.1 (ihb hwf.2.1)
    have hand := hs.trans (Expr.Simplifies.bin (k := .and) rfl ha hb hwf)
    exact hand.trans (AndExpr.create_simplifies (hand.wf h))
  | case6 cl _ src w trunc hc ih =>
    have hs := eq_sext h hc
    exact hs.trans (eqConst_simplifies (hs.wf h) (ih (hs.wf h)))
  | case7 cl _ src w trunc hc =>
    have hw : w = cl.width := h.2.2
    exact eq_ext_ne (fun w x => x.signExtend w) setWidth_signExtend (fun σ => hw ▸ Expr.eval_sext rfl σ)
      (hw ▸ h.2.1.2) hc
  | case8 cl _ src w trunc hc ih =>
    have hs := eq_zext h hc
    exact hs.trans (eqConst_simplifies (hs.wf h) (ih (hs.wf h)))
  | case9 cl _ src w trunc hc =>
    have hw : w = cl.width := h.2.2
    exact eq_ext_ne (fun w x => x.setWidth w) setWidth_zeroExtend (fun σ => hw ▸ Expr.eval_zext rfl σ)
      (hw ▸ h.2.1.2) hc
  | case10 cl _ k b ih =>
    have hs := eq_add h
    exact hs.trans (ih (hs.wf h))
  | case11 cl _ k b ih =>
    have hs := eq_sub h
    exact hs.trans (ih (hs.wf h))
  | case12 cl _ root head index hopt ih =>
    refine tryConstArrayOpt_simplifies hopt h (fun i => ?_)
    have hwf : (cmp .eq (.const i index.getWidth) index).WF :=
      ⟨Expr.width_pos _ h.2.1.2.1, h.2.1.2.1, rfl⟩
    exact eqConst_simplifies hwf (ih i hwf)
  | case3 | case5 | case13 | case14 => exact eqExprCreate_simplifies

theorem EqExpr.create_simplifies (h : (cmp .eq l r).WF) : (cmp .eq l r).Simplifies (create l r) := by
  unfold create
  split
  · exact fold_cmp .eq _ _
  · exact eqExprCreatePartialR_simplifies _ _ h
  · have hs := eq_swap h
    exact hs.trans (eqExprCreatePartialR_simplifies _ _ (hs.wf h))
  · exact eqExprCreate_simplifies

end S2E.Klee
