import S2E.Klee.Expr.Logic

/-!
# `XorExpr::create`, `AddExpr::create`, `SubExpr::create`, `MulExpr::create`

Sums and differences are reassociated so that their constants meet. The functions with a constant left operand recurse
through the right operand; the general ones consume the size of both operands.
-/

namespace S2E.Klee
open BitVec

open Expr (bin eval getWidth weight)

theorem bool_not_eq_xor : ∀ x : BitVec 1, ofBool (0#1 == x) = 1#1 ^^^ x := by decide

theorem eval_of_isOne {c : APInt} (h : c.isOne = true) (hw : 0 < c.width) (σ : Assignment) :
    (Expr.constant c).eval σ c.width = 1#c.width := by
  obtain ⟨w, c⟩ := c
  have hc : c.toNat = 1 := by simpa [APInt.isOne, APInt.getZExtValue] using h
  rw [Expr.eval_constant]
  apply eq_of_toNat_eq
  rw [hc, toNat_ofNat, Nat.mod_eq_of_lt (Nat.one_lt_two_pow (Nat.pos_iff_ne_zero.1 hw))]

variable [Options]

/-! ## Rules -/

variable {K l r : Expr} {cl cr : APInt}

/-- A binary node replaced by another one over operands of the same width. -/
theorem bin_to_bin {k k' : BinKind} {l' r' : Expr} (hk : k'.isDiv = false) (hl : l'.getWidth = l.getWidth)
    (hok : ∀ P, (bin k l r).Ok P → l'.Ok P ∧ r'.Ok P ∧ r'.getWidth = l'.getWidth)
    (he : ∀ σ, k'.eval (l'.eval σ l.getWidth) (r'.eval σ l.getWidth) = k.eval (l.eval σ l.getWidth) (r.eval σ l.getWidth))
    (hw : (bin k' l' r').weight ≤ (bin k l r).weight) :
    (bin k l r).Simplifies (.bin k' l' r') where
  width := hl
  ok P hP := ⟨(hok P hP).1, (hok P hP).2.1, (hok P hP).2.2, by simp [hk]⟩
  eval σ _ := by simpa only [getWidth, eval] using he σ
  weight := hw

/-- At width one a sum, a difference and a product are logical nodes. -/
theorem bool_to_bin (k k' : BinKind) (hk : k'.isDiv = false) (hkw : k'.weight = k.weight)
    (he : ∀ x y : BitVec 1, k'.eval x y = k.eval x y) (h1 : l.getWidth = 1) :
    (bin k l r).Simplifies (.bin k' l r) := by
  refine bin_to_bin hk rfl (fun P hP => ⟨hP.1, hP.2.1, hP.2.2.1⟩) ?_ ?_
  · grind
  · simp only [weight, hkw, le_refl]

/-- `K::create(cl, r)` with a constant left operand, `rest` being what a non-constant `r` gives. -/
def constBin (kind : BinKind) (cl : APInt) (r rest : Expr) : Expr :=
  match r with
  | .constant cr => .constant (cl.bin kind cr)
  | _ => rest

theorem constBin_simplifies {k : BinKind} {rest : Expr} (h : (bin k (.constant cl) r).Simplifies rest) :
    (bin k (.constant cl) r).Simplifies (constBin k cl r rest) := by
  unfold constBin
  split
  · exact fold_bin k _ _
  · exact h

theorem add_swap {e : Expr} (hs : e.Simplifies (.bin .add l r)) (h : e.WF) : e.Simplifies (.bin .add r l) :=
  hs.trans (bin_swap rfl (fun _ x y => BitVec.add_comm x y) (hs.wf h))

/-! Reassociation: the kinds are parameters, and `he` is the law of arithmetic. What is asked of the kinds is decided where
they are known. -/

section Reassociation

variable (k₁ k₂ k₃ k₄ : BinKind) {a b : Expr}

/-- `A op (B op c) = (A op B) op c` for constants `A` and `B`. -/
theorem reassoc_const {A B : APInt} (h : (bin k₁ (.constant A) (.bin k₂ (.constant B) b)).WF)
    (hk : k₃.isDiv = false := by rfl) (hw : k₃.weight ≤ k₁.weight + k₂.weight := by decide)
    (he : ∀ (w : Nat) (x y z : BitVec w), k₃.eval (k₄.eval x y) z = k₁.eval x (k₂.eval y z) := by
      simp only [BinKind.eval]; grind) :
    (bin k₁ (.constant A) (.bin k₂ (.constant B) b)).Simplifies (.bin k₃ (.constant (A.bin k₄ B)) b) := by
  obtain ⟨w, x⟩ := A
  obtain ⟨w', y⟩ := B
  obtain rfl : w' = w := h.2.2.1
  refine bin_to_bin hk rfl (fun P hP => ⟨hP.1, hP.2.1.2.1, hP.2.1.2.2.1⟩) (fun σ => ?_) (by simp only [weight]; omega)
  simp only [getWidth, eval, APInt.bin, setWidth_eq]
  exact he _ _ _ _

/-- `(K op a) op b = K op (a op b)`. -/
theorem reassoc_left (hk₃ : k₃.isDiv = false := by rfl) (hk₄ : k₄.isDiv = false := by rfl)
    (hw : k₃.weight + k₄.weight ≤ k₁.weight + k₂.weight := by decide)
    (he : ∀ (w : Nat) (x y z : BitVec w), k₃.eval x (k₄.eval y z) = k₂.eval (k₁.eval x y) z := by
      simp only [BinKind.eval]; grind) :
    (bin k₂ (.bin k₁ K a) b).Simplifies (.bin k₃ K (.bin k₄ a b)) := by
  refine bin_to_bin hk₃ rfl (fun P hP => ?_) (fun σ => he _ _ _ _) (by simp only [weight]; omega)
  have ha : a.getWidth = K.getWidth := hP.1.2.2.1
  have hb : b.getWidth = K.getWidth := hP.2.2.1
  exact ⟨hP.1.1, ⟨hP.1.2.1, hP.2.1, hb.trans ha.symm, by simp [hk₄]⟩, ha⟩

/-- `a op (K op b) = (a op b) op K`. -/
theorem reassoc_out (hk₃ : k₃.isDiv = false := by rfl) (hk₄ : k₄.isDiv = false := by rfl)
    (hw : k₃.weight + k₄.weight ≤ k₁.weight + k₂.weight := by decide)
    (he : ∀ (w : Nat) (x y z : BitVec w), k₃.eval (k₄.eval y z) x = k₂.eval y (k₁.eval x z) := by
      simp only [BinKind.eval]; grind) :
    (bin k₂ a (.bin k₁ K b)).Simplifies (.bin k₃ (.bin k₄ a b) K) := by
  refine bin_to_bin hk₃ rfl (fun P hP => ?_) (fun σ => he _ _ _ _) (by simp only [weight]; omega)
  have hb : b.getWidth = K.getWidth := hP.2.1.2.2.1
  have ha : K.getWidth = a.getWidth := hP.2.2.1
  exact ⟨⟨hP.1, hP.2.1.2.1, hb.trans ha, by simp [hk₄]⟩, hP.2.1.1, ha⟩

/-- `l - c => l + (-c)`, the constant to the left. -/
theorem sub_const (h : (bin .sub l (.constant cr)).WF) :
    (bin .sub l (.constant cr)).Simplifies (.bin .add (.constant ((APInt.ofNat 0 cr.width).bin .sub cr)) l) := by
  obtain ⟨w, c⟩ := cr
  have hw : w = l.getWidth := h.2.2.1
  subst hw
  refine bin_to_bin rfl rfl (fun P hP => ⟨hP.2.1, hP.1, rfl⟩) (fun σ => ?_) (by simp only [weight, BinKind.weight]; omega)
  simp only [eval, APInt.bin, APInt.ofNat, BinKind.eval, setWidth_eq]
  grind

theorem sub_self_node (h : l.WF) : (bin .sub l l).Simplifies (.const 0 l.getWidth) where
  width := rfl
  ok P _ := Expr.width_pos l h
  eval σ _ := by
    simp only [getWidth, APInt.ofNat, Expr.const]
    rw [Expr.eval_constant]
    exact (BitVec.sub_self _).symm
  weight := by
    have := l.weight_pos
    simp only [weight]
    omega

end Reassociation

/-! ## Mul -/

def mulExprCreatePartialR (cl : APInt) (r : Expr) : Expr :=
  if cl.width = 1 then andExprCreatePartialR cl r
  else if cl.isOne then r
  else if cl.isZero then .constant cl
  else .bin .mul (.constant cl) r

def mulExprCreatePartial (l : Expr) (cr : APInt) : Expr := mulExprCreatePartialR cr l

def mulExprCreate (l r : Expr) : Expr := if l.getWidth = 1 then .bin .and l r else .bin .mul l r

def MulExpr.create : Expr → Expr → Expr := bcreateR .mul mulExprCreatePartial mulExprCreatePartialR mulExprCreate

theorem mulExprCreatePartialR_simplifies (h : (bin .mul (.constant cl) r).WF) :
    (bin .mul (.constant cl) r).Simplifies (mulExprCreatePartialR cl r) := by
  unfold mulExprCreatePartialR
  split
  · rename_i hw
    have hs := bool_to_bin .mul .and rfl rfl (fun _ _ => mul_eq_and.symm) (l := .constant cl) (r := r) hw
    have hc := bin_swap (k := .and) rfl (fun _ x y => and_comm x y) (hs.wf h)
    exact hs.trans (hc.trans (andExprCreatePartial_simplifies (hc.wf (hs.wf h))))
  · split
    · rename_i h1
      refine bin_right h (fun σ _ => ?_)
      simp only [getWidth]
      rw [eval_of_isOne h1 h.1]
      exact BitVec.one_mul _
    · split
      · rename_i hz
        refine bin_left (fun σ _ => ?_)
        simp only [getWidth]
        rw [eval_of_isZero hz]
        exact zero_mul
      · exact .refl _

theorem MulExpr.create_simplifies (h : (bin .mul l r).WF) : (bin .mul l r).Simplifies (create l r) := by
  refine bcreateR_simplifies h ?_ ?_ ?_
  · rintro cr rfl
    have hs := bin_swap (k := .mul) rfl (fun _ x y => BitVec.mul_comm x y) h
    exact hs.trans (mulExprCreatePartialR_simplifies (hs.wf h))
  · rintro cl rfl
    exact mulExprCreatePartialR_simplifies h
  · unfold mulExprCreate
    split
    · rename_i hw
      exact bool_to_bin .mul .and rfl rfl (fun _ _ => mul_eq_and.symm) hw
    · exact .refl _

/-! ## Xor -/

def xorExprCreatePartialR (cl : APInt) (r : Expr) : Expr :=
  if cl.isZero then r
  else if cl.width = 1 then eqExprCreatePartialR (.ofNat 0 1) r
  else .bin .xor (.constant cl) r

def xorExprCreatePartial (l : Expr) (cr : APInt) : Expr := xorExprCreatePartialR cr l

def XorExpr.create : Expr → Expr → Expr :=
  bcreateR .xor xorExprCreatePartial xorExprCreatePartialR (.bin .xor)

/-! ## Add, Sub -/

mutual

def addExprCreatePartialR (cl : APInt) (r : Expr) : Expr :=
  if cl.width = 1 then xorExprCreatePartialR cl r
  else if cl.isZero then r
  else
    match r with
    -- A + (B+c) == (A+B) + c
    | .bin .add (.constant b) c => constBin .add (cl.bin .add b) c (addExprCreatePartialR (cl.bin .add b) c)
    -- A + (B-c) == (A+B) - c
    | .bin .sub (.constant b) c => constBin .sub (cl.bin .add b) c (subExprCreatePartialR (cl.bin .add b) c)
    | _ => .bin .add (.constant cl) r
termination_by structural r

def subExprCreatePartialR (cl : APInt) (r : Expr) : Expr :=
  if cl.width = 1 then xorExprCreatePartialR cl r
  else
    match r with
    -- A - (B+c) == (A-B) - c
    | .bin .add (.constant b) c => constBin .sub (cl.bin .sub b) c (subExprCreatePartialR (cl.bin .sub b) c)
    -- A - (B-c) == (A-B) + c
    | .bin .sub (.constant b) c => constBin .add (cl.bin .sub b) c (addExprCreatePartialR (cl.bin .sub b) c)
    | _ => .bin .sub (.constant cl) r
termination_by structural r

end

def addExprCreatePartial (l : Expr) (cr : APInt) : Expr := addExprCreatePartialR cr l

/-- `l - c => l + (-c)`. -/
def subExprCreatePartial (l : Expr) (cr : APInt) : Expr :=
  addExprCreatePartial l ((APInt.ofNat 0 cr.width).bin .sub cr)

/-- `AddExpr::create` of a constant and an expression. -/
def addConst (cl : APInt) (r : Expr) : Expr := constBin .add cl r (addExprCreatePartialR cl r)

/-- `SubExpr::create` of a constant and an expression. -/
def subConst (cl : APInt) (r : Expr) : Expr := constBin .sub cl r (subExprCreatePartialR cl r)

/-- `SubExpr::create` of an expression and a constant. -/
def subByConst (l : Expr) (cr : APInt) : Expr :=
  match l with
  | .constant cl => .constant (cl.bin .sub cr)
  | _ => subExprCreatePartial l cr

mutual

def AddExpr.create (l r : Expr) : Expr :=
  match l, r with
  | .constant cl, r => addConst cl r
  | l, .constant cr => addExprCreatePartial l cr
  | l, r =>
    if l.getWidth = 1 then .bin .xor l r
    else
      match l, r with
      -- (k+a)+b = k+(a+b)
      | .bin .add (.constant k) a, r => addConst k (AddExpr.create a r)
      -- (k-a)+b = k+(b-a)
      | .bin .sub (.constant k) a, r => addConst k (SubExpr.create r a)
      -- a + (k+b) = k+(a+b)
      | l, .bin .add (.constant k) b => addConst k (AddExpr.create l b)
      -- a + (k-b) = k+(a-b)
      | l, .bin .sub (.constant k) b => addConst k (SubExpr.create l b)
      | l, r => .bin .add l r
termination_by sizeOf l + sizeOf r

def SubExpr.create (l r : Expr) : Expr :=
  match l, r with
  | .constant cl, r => subConst cl r
  | l, .constant cr => subExprCreatePartial l cr
  | l, r =>
    if l.getWidth = 1 then .bin .xor l r
    else if l = r then .const 0 l.getWidth
    else
      match l, r with
      -- (k+a)-b = k+(a-b)
      | .bin .add (.constant k) a, r => addConst k (SubExpr.create a r)
      -- (k-a)-b = k-(a+b)
      | .bin .sub (.constant k) a, r => subConst k (AddExpr.create a r)
      -- a - (k+b) = (a-b) - k
      | l, .bin .add (.constant k) b => subByConst (SubExpr.create l b) k
      -- a - (k-b) = (a+b) - k
      | l, .bin .sub (.constant k) b => subByConst (AddExpr.create l b) k
      | l, r => .bin .sub l r
termination_by sizeOf l + sizeOf r

end

/-! ## Soundness -/

theorem xorExprCreatePartialR_simplifies (h : (bin .xor (.constant cl) r).WF) :
    (bin .xor (.constant cl) r).Simplifies (xorExprCreatePartialR cl r) := by
  unfold xorExprCreatePartialR
  split
  · rename_i hz
    refine bin_right h (fun σ _ => ?_)
    simp only [getWidth]
    rw [eval_of_isZero hz]
    exact zero_xor
  · rename_i hz
    split
    · rename_i hw
      have hs : (bin .xor (.constant cl) r).Simplifies (.cmp .eq (.const 0 1) r) := by
        obtain ⟨w, c⟩ := cl
        subst hw
        have hc : c = 1#1 := by
          have hne : c.toNat ≠ 0 := by simpa [APInt.isZero, APInt.getZExtValue] using hz
          exact eq_of_toNat_eq (by simp; omega)
        subst hc
        refine ⟨rfl, fun P hP => ⟨Nat.zero_lt_one, hP.2.1, hP.2.2.1⟩, fun σ _ => ?_, le_rfl⟩
        simp only [getWidth, Expr.const, APInt.ofNat]
        rw [Expr.eval_eq_constant, eval, Expr.eval_constant]
        exact bool_not_eq_xor _
      exact hs.trans (eqExprCreatePartialR_simplifies _ _ (hs.wf h))
    · exact .refl _

theorem XorExpr.create_simplifies (h : (bin .xor l r).WF) : (bin .xor l r).Simplifies (create l r) := by
  refine bcreateR_simplifies h ?_ ?_ (.refl _)
  · rintro cr rfl
    have hs := bin_swap (k := .xor) rfl (fun _ x y => BitVec.xor_comm x y) h
    exact hs.trans (xorExprCreatePartialR_simplifies (hs.wf h))
  · rintro cl rfl
    exact xorExprCreatePartialR_simplifies h

/-! ### Add, Sub -/

mutual

theorem addExprCreatePartialR_simplifies (cl : APInt) (r : Expr) (h : (bin .add (.constant cl) r).WF) :
    (bin .add (.constant cl) r).Simplifies (addExprCreatePartialR cl r) := by
  unfold addExprCreatePartialR
  split
  · rename_i hw
    have hs := bool_to_bin .add .xor rfl rfl (fun _ _ => add_eq_xor.symm) (l := .constant cl) (r := r) hw
    exact hs.trans (xorExprCreatePartialR_simplifies (hs.wf h))
  · split
    · rename_i hz
      refine bin_right h (fun σ _ => ?_)
      simp only [getWidth]
      rw [eval_of_isZero hz]
      exact BitVec.zero_add _
    · split
      · rename_i b c
        have hs := reassoc_const _ _ .add .add h
        exact hs.trans (constBin_simplifies (addExprCreatePartialR_simplifies _ c (hs.wf h)))
      · rename_i b c
        have hs := reassoc_const _ _ .sub .add h
        exact hs.trans (constBin_simplifies (subExprCreatePartialR_simplifies _ c (hs.wf h)))
      · exact .refl _
termination_by sizeOf r

theorem subExprCreatePartialR_simplifies (cl : APInt) (r : Expr) (h : (bin .sub (.constant cl) r).WF) :
    (bin .sub (.constant cl) r).Simplifies (subExprCreatePartialR cl r) := by
  unfold subExprCreatePartialR
  split
  · rename_i hw
    have hs := bool_to_bin .sub .xor rfl rfl (fun _ _ => sub_eq_xor.symm) (l := .constant cl) (r := r) hw
    exact hs.trans (xorExprCreatePartialR_simplifies (hs.wf h))
  · split
    · rename_i b c
      have hs := reassoc_const _ _ .sub .sub h
      exact hs.trans (constBin_simplifies (subExprCreatePartialR_simplifies _ c (hs.wf h)))
    · rename_i b c
      have hs := reassoc_const _ _ .add .sub h
      exact hs.trans (constBin_simplifies (addExprCreatePartialR_simplifies _ c (hs.wf h)))
    · exact .refl _
termination_by sizeOf r

end

theorem addConst_simplifies (h : (bin .add (.constant cl) r).WF) :
    (bin .add (.constant cl) r).Simplifies (addConst cl r) :=
  constBin_simplifies (addExprCreatePartialR_simplifies cl r h)

theorem subConst_simplifies (h : (bin .sub (.constant cl) r).WF) :
    (bin .sub (.constant cl) r).Simplifies (subConst cl r) :=
  constBin_simplifies (subExprCreatePartialR_simplifies cl r h)

theorem addExprCreatePartial_simplifies (h : (bin .add l (.constant cr)).WF) :
    (bin .add l (.constant cr)).Simplifies (addExprCreatePartial l cr) := by
  have hs := add_swap (.refl _) h
  exact hs.trans (addExprCreatePartialR_simplifies cr l (hs.wf h))

theorem subExprCreatePartial_simplifies (h : (bin .sub l (.constant cr)).WF) :
    (bin .sub l (.constant cr)).Simplifies (subExprCreatePartial l cr) := by
  have hs := sub_const h
  exact hs.trans (addExprCreatePartialR_simplifies _ l (hs.wf h))

theorem subByConst_simplifies (h : (bin .sub l (.constant cr)).WF) :
    (bin .sub l (.constant cr)).Simplifies (subByConst l cr) := by
  unfold subByConst
  split
  · exact fold_bin .sub _ _
  · exact subExprCreatePartial_simplifies h

/-! One reassociation of the general functions: the inner call returned `inner`, the outer call meets a constant. -/

section Outer

variable {k : APInt} {x y inner : Expr} {kind : BinKind}

theorem addConst_inner (h : (bin .add (.constant k) (.bin kind x y)).WF) (hi : (bin kind x y).Simplifies inner) :
    (bin .add (.constant k) (.bin kind x y)).Simplifies (addConst k inner) := by
  have hs := Expr.Simplifies.bin (k := .add) rfl (.refl (.constant k)) hi h
  exact hs.trans (addConst_simplifies (hs.wf h))

theorem subConst_inner (h : (bin .sub (.constant k) (.bin kind x y)).WF) (hi : (bin kind x y).Simplifies inner) :
    (bin .sub (.constant k) (.bin kind x y)).Simplifies (subConst k inner) := by
  have hs := Expr.Simplifies.bin (k := .sub) rfl (.refl (.constant k)) hi h
  exact hs.trans (subConst_simplifies (hs.wf h))

theorem subByConst_inner (h : (bin .sub (.bin kind x y) (.constant k)).WF) (hi : (bin kind x y).Simplifies inner) :
    (bin .sub (.bin kind x y) (.constant k)).Simplifies (subByConst inner k) := by
  have hs := Expr.Simplifies.bin (k := .sub) rfl hi (.refl (.constant k)) h
  exact hs.trans (subByConst_simplifies (hs.wf h))

end Outer

mutual

theorem AddExpr.create_simplifies (l r : Expr) (h : (bin .add l r).WF) :
    (bin .add l r).Simplifies (AddExpr.create l r) := by
  unfold AddExpr.create
  split
  · exact addConst_simplifies h
  · exact addExprCreatePartial_simplifies h
  · split
    · rename_i hw
      exact bool_to_bin .add .xor rfl rfl (fun _ _ => add_eq_xor.symm) hw
    · split
      · rename_i k a _ _
        have hs := reassoc_left .add .add .add .add (K := .constant k) (a := a) (b := r)
        exact hs.trans (addConst_inner (hs.wf h) (AddExpr.create_simplifies a r (hs.wf h).2.1))
      · rename_i k a _ _
        have hs := add_swap ((add_swap (.refl _) h).trans (reassoc_out _ _ .add .sub)) h
        exact hs.trans (addConst_inner (hs.wf h) (SubExpr.create_simplifies r a (hs.wf h).2.1))
      · rename_i k b _ _ _
        have hs := add_swap (reassoc_out _ _ .add .add) h
        exact hs.trans (addConst_inner (hs.wf h) (AddExpr.create_simplifies l b (hs.wf h).2.1))
      · rename_i k b _ _ _
        have hs := add_swap (reassoc_out _ _ .add .sub) h
        exact hs.trans (addConst_inner (hs.wf h) (SubExpr.create_simplifies l b (hs.wf h).2.1))
      · exact .refl _
termination_by sizeOf l + sizeOf r

theorem SubExpr.create_simplifies (l r : Expr) (h : (bin .sub l r).WF) :
    (bin .sub l r).Simplifies (SubExpr.create l r) := by
  unfold SubExpr.create
  split
  · exact subConst_simplifies h
  · exact subExprCreatePartial_simplifies h
  · split
    · rename_i hw
      exact bool_to_bin .sub .xor rfl rfl (fun _ _ => sub_eq_xor.symm) hw
    · split
      · rename_i he
        subst he
        exact sub_self_node h.1
      · split
        · rename_i k a _ _ _
          have hs := reassoc_left .add .sub .add .sub (K := .constant k) (a := a) (b := r)
          exact hs.trans (addConst_inner (hs.wf h) (SubExpr.create_simplifies a r (hs.wf h).2.1))
        · rename_i k a _ _ _
          have hs := reassoc_left .sub .sub .sub .add (K := .constant k) (a := a) (b := r)
          exact hs.trans (subConst_inner (hs.wf h) (AddExpr.create_simplifies a r (hs.wf h).2.1))
        · rename_i k b _ _ _ _
          have hs := reassoc_out .add .sub .sub .sub (K := .constant k) (a := l) (b := b)
          exact hs.trans (subByConst_inner (hs.wf h) (SubExpr.create_simplifies l b (hs.wf h).1))
        · rename_i k b _ _ _ _
          have hs := reassoc_out .sub .sub .sub .add (K := .constant k) (a := l) (b := b)
          exact hs.trans (subByConst_inner (hs.wf h) (AddExpr.create_simplifies l b (hs.wf h).1))
        · exact .refl _
termination_by sizeOf l + sizeOf r

end

end S2E.Klee
