import S2E.Klee.Expr.Syntax

/-!
# What a `create` function does to the plain node

`Expr.Simplifies e e'` : `e'` may stand for `e`. It has the width of `e`, it meets every node condition that `e` meets,
it has the value of `e` under every assignment that keeps the constant-array indices of `e` in bounds, and it is no
heavier. The relation is transitive and a congruence for the nodes that the `create` functions build, so that each of
their rules is one step and each function a chain of steps.
-/

namespace S2E.Klee

variable [Options]

structure Expr.Simplifies (e e' : Expr) : Prop where
  width : e'.getWidth = e.getWidth
  ok : ∀ P, e.Ok P → e'.Ok P
  eval : ∀ σ, e.InBounds σ → e'.eval σ e.getWidth = e.eval σ e.getWidth
  weight : e'.weight ≤ e.weight

variable {a b l l' r r' : Expr}

namespace Expr.Simplifies

theorem refl (e : Expr) : e.Simplifies e := ⟨rfl, fun _ h => h, fun _ _ => rfl, le_rfl⟩

theorem trans {c : Expr} (h₁ : a.Simplifies b) (h₂ : b.Simplifies c) : a.Simplifies c where
  width := h₂.width.trans h₁.width
  ok P h := h₂.ok P (h₁.ok P h)
  eval σ h := by
    have h2 := h₂.eval σ (h₁.ok _ h)
    rw [h₁.width] at h2
    rw [h2, h₁.eval σ h]
  weight := h₂.weight.trans h₁.weight

theorem wf (h : a.Simplifies b) (ha : a.WF) : b.WF := h.ok _ ha

theorem eval_at (h : a.Simplifies b) {σ : Assignment} (ha : a.InBounds σ) {w : Nat}
    (hw : a.getWidth = w) : b.eval σ w = a.eval σ w := by
  subst hw
  exact h.eval σ ha

theorem bin {k : BinKind} (hk : k.isDiv = false) (hl : l.Simplifies l') (hr : r.Simplifies r')
    (h : (Expr.bin k l r).WF) : (Expr.bin k l r).Simplifies (.bin k l' r') where
  width := hl.width
  ok P hP := ⟨hl.ok P hP.1, hr.ok P hP.2.1, by rw [hr.width, hl.width]; exact hP.2.2.1, by simp [hk]⟩
  eval σ hσ := by
    simp only [Expr.getWidth, Expr.eval]
    rw [hl.eval σ hσ.1, hr.eval_at hσ.2.1 h.2.2.1]
  weight := by
    have h1 := hl.weight
    have h2 := hr.weight
    simp only [Expr.weight]
    omega

theorem cmp {k : CmpKind} (hl : l.Simplifies l') (hr : r.Simplifies r')
    (h : (Expr.cmp k l r).WF) : (Expr.cmp k l r).Simplifies (.cmp k l' r') where
  width := rfl
  ok P hP := ⟨hl.ok P hP.1, hr.ok P hP.2.1, by rw [hr.width, hl.width]; exact hP.2.2⟩
  eval σ hσ := by
    simp only [Expr.getWidth, Expr.eval]
    rw [hl.width, hl.eval σ hσ.1, hr.eval_at hσ.2.1 h.2.2]
  weight := by
    have h1 := hl.weight
    have h2 := hr.weight
    simp only [Expr.weight]
    omega

theorem concat (hl : l.Simplifies l') (hr : r.Simplifies r') : (Expr.concat l r).Simplifies (.concat l' r') where
  width := by simp only [Expr.getWidth, hl.width, hr.width]
  ok P hP := ⟨hl.ok P hP.1, hr.ok P hP.2⟩
  eval σ hσ := by
    simp only [Expr.getWidth, Expr.eval]
    rw [hl.width, hr.width, hl.eval σ hσ.1, hr.eval σ hσ.2]
  weight := by
    have h1 := hl.weight
    have h2 := hr.weight
    simp only [Expr.weight]
    omega

end Expr.Simplifies

/-! ## Folding two constants -/

theorem fold_bin (k : BinKind) (a b : APInt) :
    (Expr.bin k (.constant a) (.constant b)).Simplifies (.constant (a.bin k b)) where
  width := rfl
  ok P h := h.1
  eval σ _ := by simp [Expr.getWidth, Expr.eval, APInt.bin]
  weight := by simp [Expr.weight]; omega

theorem fold_cmp (k : CmpKind) (a b : APInt) :
    (Expr.cmp k (.constant a) (.constant b)).Simplifies (.constant (a.cmp k b)) where
  width := rfl
  ok P _ := Nat.zero_lt_one
  eval σ _ := by simp [Expr.getWidth, Expr.eval, APInt.cmp]
  weight := by simp [Expr.weight]; omega

/-! ## The dispatch on constant operands -/

/-- `BCREATE_R`. -/
def bcreateR (k : BinKind) (createPartial : Expr → APInt → Expr) (createPartialR : APInt → Expr → Expr)
    (create : Expr → Expr → Expr) : Expr → Expr → Expr
  | .constant cl, .constant cr => .constant (cl.bin k cr)
  | .constant cl, r => createPartialR cl r
  | l, .constant cr => createPartial l cr
  | l, r => create l r

theorem bcreateR_simplifies {k : BinKind} {createPartial : Expr → APInt → Expr}
    {createPartialR : APInt → Expr → Expr} {create : Expr → Expr → Expr} (h : (Expr.bin k l r).WF)
    (hL : ∀ cr, r = .constant cr → (Expr.bin k l r).Simplifies (createPartial l cr))
    (hR : ∀ cl, l = .constant cl → (Expr.bin k l r).Simplifies (createPartialR cl r))
    (hC : (Expr.bin k l r).Simplifies (create l r)) :
    (Expr.bin k l r).Simplifies (bcreateR k createPartial createPartialR create l r) := by
  unfold bcreateR
  split
  · exact fold_bin k _ _
  · exact hR _ rfl
  · exact hL _ rfl
  · exact hC

end S2E.Klee
