import S2E.Klee.Expr.Nodes

/-!
# Constant folding

`Expr.Folded e` : no arithmetic node of `e` has two constant operands. The `create` functions keep to it
(`Expr.create_folded`), so that it holds of every expression that the program builds. What it is needed for is
`AddExpr.create_isConstant`: a sum with a constant is symbolic when the other operand is.
-/

namespace S2E.Klee

mutual

def Expr.Folded : Expr → Prop
  | .constant _ => True
  | .notOptimized e | .not e | .extract e _ _ | .zext e _ | .sext e _ => e.Folded
  | .read _ head index => head.Folded ∧ index.Folded
  | .select c t f => c.Folded ∧ t.Folded ∧ f.Folded
  | .concat l r | .cmp _ l r => l.Folded ∧ r.Folded
  | .bin _ l r => l.Folded ∧ r.Folded ∧ (l.isConstant = true → r.isConstant = false)

def Updates.Folded : Updates → Prop
  | .nil => True
  | .cons index value next => index.Folded ∧ value.Folded ∧ next.Folded

end

/-- What the `create` function of a node is given is folded. -/
def Expr.FoldedBelow : Expr → Prop
  | .read _ head index => head.Folded ∧ index.Folded
  | e => ∀ k ∈ e.kids, k.Folded

/-! ## As a property of nodes -/

/-- An arithmetic node has an operand that is not constant. -/
def Expr.FoldedNode : Expr → Prop
  | .bin _ l r => l.isConstant = true → r.isConstant = false
  | _ => True

theorem foldedNode_invariant : CreateInvariant Expr.FoldedNode where
  fresh {e} h := by
    cases e with
    | bin k l r => exact h.1
    | _ => trivial
  right h := h rfl

mutual

theorem Expr.folded_iff : ∀ e : Expr, e.Folded ↔ e.Forall Expr.FoldedNode
  | .constant _ => (and_iff_right trivial).symm
  | .notOptimized e | .not e | .extract e _ _ | .zext e _ | .sext e _ => e.folded_iff.trans (and_iff_right trivial).symm
  | .read _ head index => (and_congr head.folded_iff index.folded_iff).trans (and_iff_right trivial).symm
  | .select c t f => (and_congr c.folded_iff (and_congr t.folded_iff f.folded_iff)).trans (and_iff_right trivial).symm
  | .concat l r | .cmp _ l r => (and_congr l.folded_iff r.folded_iff).trans (and_iff_right trivial).symm
  | .bin _ l r => by
    simp only [Expr.Folded, l.folded_iff, r.folded_iff]
    exact and_rotate.symm.trans (and_congr_right fun _ => Iff.rfl)

theorem Updates.folded_iff : ∀ u : Updates, u.Folded ↔ u.Below Expr.FoldedNode
  | .nil => Iff.rfl
  | .cons index value next => and_congr index.folded_iff (and_congr value.folded_iff next.folded_iff)

end

theorem ZExtExpr.create_folded {e : Expr} {w : Nat} (h : e.Folded) : (create e w).Folded :=
  (Expr.folded_iff _).2 (create_forall foldedNode_invariant ((Expr.folded_iff e).1 h))

variable [Options]

/-- The `create` functions build no arithmetic node over two constants. -/
theorem Expr.create_folded {e e' : Expr} (h : e.FoldedBelow) (hc : e.create = .ok e') : e'.Folded := by
  rw [folded_iff]
  apply create_forall foldedNode_invariant ?_ hc
  cases e with
  | read root head index => exact ⟨head.folded_iff.1 h.1, index.folded_iff.1 h.2⟩
  | _ => exact below_of_kids (fun k hk => k.folded_iff.1 (h k hk)) nofun

/-! ## Sums with a constant -/

omit [Options] in
theorem constBin_of_not_isConstant {k : BinKind} {cl : APInt} {r rest : Expr} (h : r.isConstant = false) :
    constBin k cl r rest = rest := by
  cases r with
  | constant c => cases h
  | _ => rfl

mutual

/-- Beyond width one a sum of a constant and a symbolic operand is symbolic. -/
theorem addExprCreatePartialR_isConstant (cl : APInt) (r : Expr) (hw : cl.width ≠ 1) (hr : r.Folded)
    (hn : r.isConstant = false) : (addExprCreatePartialR cl r).isConstant = false := by
  unfold addExprCreatePartialR
  rw [if_neg hw]
  split
  · exact hn
  · split
    · rw [constBin_of_not_isConstant (hr.2.2 rfl)]
      exact addExprCreatePartialR_isConstant _ _ hw hr.2.1 (hr.2.2 rfl)
    · rw [constBin_of_not_isConstant (hr.2.2 rfl)]
      exact subExprCreatePartialR_isConstant _ _ hw hr.2.1 (hr.2.2 rfl)
    · rfl
termination_by sizeOf r

theorem subExprCreatePartialR_isConstant (cl : APInt) (r : Expr) (hw : cl.width ≠ 1) (hr : r.Folded)
    (hn : r.isConstant = false) : (subExprCreatePartialR cl r).isConstant = false := by
  unfold subExprCreatePartialR
  rw [if_neg hw]
  split
  · rw [constBin_of_not_isConstant (hr.2.2 rfl)]
    exact subExprCreatePartialR_isConstant _ _ hw hr.2.1 (hr.2.2 rfl)
  · rw [constBin_of_not_isConstant (hr.2.2 rfl)]
    exact addExprCreatePartialR_isConstant _ _ hw hr.2.1 (hr.2.2 rfl)
  · rfl
termination_by sizeOf r

end

theorem AddExpr.create_isConstant {l : Expr} {cr : APInt} (hw : cr.width ≠ 1) (hl : l.Folded)
    (hn : l.isConstant = false) : (create l (.constant cr)).isConstant = false := by
  have h := addExprCreatePartialR_isConstant cr l hw hl hn
  cases l with
  | constant c => cases hn
  | _ => simpa only [create, addExprCreatePartial] using h

end S2E.Klee
