import S2E.Klee.Expr.Create

/-!
# Queries

`Query` is that of `Solver.h`: a set of constraints and an expression. `Models Γ cs` : the assignments of `Γ` under which
every constraint holds. The solvers ask whether the expression is true in all models, in some, or in none.
-/

namespace S2E.Klee

structure Query where
  constraints : List Expr
  expr : Expr
deriving DecidableEq

/-- `Solver::Validity`. -/
inductive Validity
  | True | False | Unknown
deriving DecidableEq

def Query.withExpr (q : Query) (e : Expr) : Query := ⟨q.constraints, e⟩

def Query.withFalse (q : Query) : Query := q.withExpr (.const 0 1)

def Query.negateExpr [Options] (q : Query) : Query := q.withExpr q.expr.createIsZero

def Models (Γ : Set Assignment) (constraints : List Expr) : Set Assignment :=
  {σ ∈ Γ | ∀ c ∈ constraints, c.Holds σ}

section

variable (Γ : Set Assignment) (q : Query)

/-- The expression is true in every model. -/
def Query.Valid : Prop := ∀ σ ∈ Models Γ q.constraints, q.expr.Holds σ

/-- The expression is false in every model. -/
def Query.Refuted : Prop := ∀ σ ∈ Models Γ q.constraints, ¬ q.expr.Holds σ

/-- The answer of `computeValidity` that is right for the query. -/
def Query.HasValidity : Validity → Prop
  | .True => q.Valid Γ
  | .False => ¬ q.Valid Γ ∧ q.Refuted Γ
  | .Unknown => ¬ q.Valid Γ ∧ ¬ q.Refuted Γ

end

variable {e : Expr} {q : Query} {Γ : Set Assignment}

/-- Whether the expression is true in all models, and whether it is false in all, decides the answer. -/
theorem Query.hasValidity_congr {q' : Query} (hv : q.Valid Γ ↔ q'.Valid Γ)
    (hr : q.Refuted Γ ↔ q'.Refuted Γ) (v : Validity) : q.HasValidity Γ v ↔ q'.HasValidity Γ v := by
  cases v with
  | True => exact hv
  | False => exact and_congr (not_congr hv) hr
  | Unknown => exact and_congr (not_congr hv) (not_congr hr)

theorem Query.hasValidity_unique {v v' : Validity} (h : q.HasValidity Γ v) (h' : q.HasValidity Γ v') : v = v' := by
  cases v <;> cases v' <;> first | rfl | simp_all [Query.HasValidity]

/-- With a model at hand, an expression is not both true and false in all. -/
theorem Query.Refuted.not_valid (h : q.Refuted Γ) (hsat : (Models Γ q.constraints).Nonempty) : ¬ q.Valid Γ := by
  obtain ⟨σ, hσ⟩ := hsat
  exact fun hv => h σ hσ (hv σ hσ)

/-- The part of `SolverImpl` that decides a query; `none` is the return value `false`, a failure. -/
structure SolverImpl where
  computeValidity : Query → Option Validity
  computeTruth : Query → Option Bool

/-- The solver answers every query, and answers it right. -/
structure SolverImpl.Exact (Γ : Set Assignment) (solver : SolverImpl) : Prop where
  validity : ∀ q, ∃ v, solver.computeValidity q = some v ∧ q.HasValidity Γ v
  truth : ∀ q, ∃ b, solver.computeTruth q = some b ∧ (b = true ↔ q.Valid Γ)

open Classical in
/-- The solver that looks at all models. -/
noncomputable def exactSolver (Γ : Set Assignment) : SolverImpl where
  computeValidity q := some (if q.Valid Γ then .True else if q.Refuted Γ then .False else .Unknown)
  computeTruth q := some (decide (q.Valid Γ))

theorem exactSolver_exact (Γ : Set Assignment) : (exactSolver Γ).Exact Γ where
  validity q := by
    refine ⟨_, rfl, ?_⟩
    split
    · assumption
    · rename_i hv
      split
      · exact ⟨hv, by assumption⟩
      · exact ⟨hv, by assumption⟩
  truth q := ⟨_, rfl, by simp only [decide_eq_true_eq]⟩

/-! ## Negation -/

/-- The option for constant arrays does not matter for a boolean expression. -/
theorem eqExprCreatePartialR_bool (I J : Options) (cl : APInt) (r : Expr) (hc : cl.width = 1) (h : r.WF)
    (hw : r.getWidth = 1) : @eqExprCreatePartialR I cl r = @eqExprCreatePartialR J cl r := by
  unfold eqExprCreatePartialR
  rw [if_pos hc, if_pos hc]
  split
  · rfl
  · split
    · rfl
    · rename_i a b
      have hb : b.getWidth = 1 := h.2.2.1.trans hw
      rw [eqExprCreatePartialR_bool I J _ a hw h.1 hw, eqExprCreatePartialR_bool I J _ b hb h.2.1 hb]
    · rfl
termination_by sizeOf r

theorem Expr.createIsZero_bool (I J : Options) (h : e.WF) (hw : e.getWidth = 1) :
    @createIsZero I e = @createIsZero J e := by
  unfold createIsZero
  rw [@EqExpr.create_constant I, @EqExpr.create_constant J, eqExprCreatePartialR_bool I J _ e hw h hw]

variable [Options]

/-- The negation of a boolean expression is true where the expression is false, under every assignment. -/
theorem Expr.createIsZero_holds (h : e.WF) (hw : e.getWidth = 1) (σ : Assignment) :
    e.createIsZero.Holds σ ↔ ¬ e.Holds σ := by
  let off : Options := ⟨false, true⟩
  have hin : @Expr.InBounds off σ (.cmp .eq e (.const 0 1)) :=
    Expr.Ok.mono (fun _ _ _ h => by cases h) (fun _ _ _ => trivial) _ (h.isZero hw)
  have hv : (@createIsZero off e).eval σ 1 = BitVec.ofBool (e.eval σ 1 == 0#1) := by
    rw [@Expr.Simplifies.eval_at off _ _ (@createIsZero_simplifies e off h hw) σ hin 1 rfl, eval_isZero hw]
  unfold Expr.Holds
  rw [createIsZero_bool _ off h hw, hv]
  exact (by decide : ∀ x : BitVec 1, BitVec.ofBool (x == 0#1) = 1#1 ↔ ¬ x = 1#1) _

theorem Query.negateExpr_valid (h : q.expr.WF) (hw : q.expr.getWidth = 1) (Γ : Set Assignment) :
    q.negateExpr.Valid Γ ↔ q.Refuted Γ :=
  forall₂_congr fun σ _ => Expr.createIsZero_holds h hw σ

theorem Query.negateExpr_refuted (h : q.expr.WF) (hw : q.expr.getWidth = 1) (Γ : Set Assignment) :
    q.negateExpr.Refuted Γ ↔ q.Valid Γ :=
  forall₂_congr fun σ _ => (not_congr (Expr.createIsZero_holds h hw σ)).trans not_not

end S2E.Klee
