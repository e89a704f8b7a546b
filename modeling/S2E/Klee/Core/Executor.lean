import S2E.Klee.Expr.BitfieldSound
import S2E.Klee.Expr.Constraints
import S2E.Klee.Solver.Query

/-!
# Forking

`Executor::fork` without seeds, replay and limits. A condition is simplified, with the simplifier that all states share
and then under the constraints of the state, before it is added. The simplifier's cache is the state of the computation;
`allow` is its observer.

* `fork_spec` : the states that come out have exactly the assignments that they should have, where the simplifier's cache
  is sound, no call is refused and the divisions are not decided to be divisions by zero;
* `explored_partition` : over whole executions, each input leads to exactly one state.
-/

namespace S2E.Klee

open Lib BitfieldSimplifier ConstraintManager List Set Multiset

/-- An execution state as forking sees it: an object at an address, with a path condition. -/
structure ExecutionState where
  address : Nat
  constraints : ConstraintManager

/-- A copy of the state, allocated at `address`. -/
def ExecutionState.branch (s : ExecutionState) (address : Nat) : ExecutionState := { s with address }

structure Executor where
  solver : SolverImpl
  /-- Whether there is a simplifier. -/
  exprSimplifier : Bool
  /-- Whether `TimingSolver` simplifies under the constraints. -/
  simplifyExprs : Bool

namespace Executor

section

variable [Options] (x : Executor) (allow : Expr → Option BitsInfo → Bool)

def simplifyExpr (e : Expr) : SimplifyM Expr := if x.exprSimplifier then simplify allow e else return e

def constantValidity (c : APInt) : Validity := if c.isTrue then .True else .False

omit [Options] in
/-- `Solver::evaluate`. -/
def evaluateQuery (q : Query) : Except Trap (Option Validity) :=
  if q.expr.getWidth = 1 then
    match q.expr with
    | .constant c => return some (constantValidity c)
    | _ => return x.solver.computeValidity q
  else throw .assertFailed

/-- `TimingSolver` simplifies an expression before it asks the solver. -/
def underConstraints (s : ExecutionState) (e : Expr) : Except Trap Expr :=
  if x.simplifyExprs then s.constraints.simplifyExpr e else return e

/-- `TimingSolver::evaluate`. -/
def evaluate (s : ExecutionState) (e : Expr) : Except Trap (Option Validity) :=
  match e with
  | .constant c => return some (constantValidity c)
  | e => do
    let e ← x.underConstraints s e
    x.evaluateQuery ⟨s.constraints, e⟩

def addConstraint (s : ExecutionState) (condition : Expr) : SimplifyM ExecutionState := do
  let condition ← x.simplifyExpr allow condition
  match condition with
  | .constant c => if c.isTrue then return s else throw (.trap .assertFailed)
  | condition => do
    let constraints ← StateT.lift ((s.constraints.addConstraint condition).mapError .trap)
    return { s with constraints }

section

variable (s : ExecutionState) (condition : Expr) (swap : Bool) (address : Nat)

/-- The two states, swapped or not, each with its side of the condition. -/
def forkBoth : SimplifyM (Option ExecutionState × Option ExecutionState) := do
  let trueState := if swap then s.branch address else s
  let falseState := if swap then s else s.branch address
  let trueState ← x.addConstraint allow trueState condition
  let falseState ← x.addConstraint allow falseState condition.createIsZero
  return (some trueState, some falseState)

/-- `fork`. A query that fails ends the state. -/
def fork : SimplifyM (Option ExecutionState × Option ExecutionState) := do
  let condition ← x.simplifyExpr allow condition
  let res ← StateT.lift ((x.evaluate s condition).mapError .trap)
  match res with
  | none => return (none, none)
  | some .True => return (some s, none)
  | some .False => return (none, some s)
  | some .Unknown => x.forkBoth allow s condition swap address

end

/-! ## The observer -/

end

/-! ## One constraint -/

section

variable [Options]

/-- The constraints were added one by one, and the assignments of `Γ` keep each of them in bounds. -/
def Reached (Γ : Set Assignment) (L : ConstraintManager) : Prop :=
  ∃ es, Built es L ∧ ∀ σ ∈ Γ, ∀ e ∈ es, e.InBounds σ

/-- The state has exactly the assignments that satisfy `L` and meet `P`. -/
structure Covers (Γ : Set Assignment) (L : ConstraintManager) (P : Assignment → Prop) (s : ExecutionState) : Prop where
  reached : Reached Γ s.constraints
  satisfied : ∀ σ ∈ Γ, (∀ c ∈ s.constraints, c.Holds σ) ↔ (∀ c ∈ L, c.Holds σ) ∧ P σ

section

variable (Γ : Set Assignment) (L : ConstraintManager) (P : Assignment → Prop)

/-- The same where the state may be missing: then there is no such assignment. -/
def Part : Option ExecutionState → Prop
  | none => ∀ σ ∈ Models Γ L, ¬ P σ
  | some s => Covers Γ L P s

/-- Each division of the constraints and of the condition has a divisor that is not zero, or a dividend that is not fixed,
under the assignments that satisfy the constraints and meet `P`. -/
def Addable (condition : Expr) : Prop :=
  Divisible {σ ∈ Models Γ L | P σ} (condition :: L)

end

variable {x : Executor} {Γ : Set Assignment} {P : Assignment → Prop} {L : ConstraintManager} {s : ExecutionState}
  {e e' : Expr}

section

omit [Options]

theorem models_subset : Models Γ L ⊆ Γ := fun _ h => h.1

theorem part_subset : {σ ∈ Models Γ L | P σ} ⊆ Γ := fun _ h => models_subset h.1

theorem not_holds_of_not_isTrue {c : APInt} (hw : c.width = 1) (h : ¬ c.isTrue = true) (σ : Assignment) :
    ¬ (Expr.constant c).Holds σ := by
  rw [eq_ofNat_of_not_isTrue hw (Bool.eq_false_iff.2 h)]
  show ¬ 0#1 = 1#1
  decide

end

theorem Addable.agrees (h : Addable Γ L P e) (ha : e.Agrees Γ 0#64 e') : Addable Γ L P e' := by
  obtain ⟨he, hL⟩ := forall_mem_cons.1 h
  exact forall_mem_cons.2 ⟨ha.ok _ (NodeCond.divisible_stable.mono part_subset) he, hL⟩

theorem Addable.createIsZero (h : Addable Γ L P e) (he : e.IsBool) : Addable Γ L P e.createIsZero := by
  obtain ⟨hd, hL⟩ := forall_mem_cons.1 h
  exact forall_mem_cons.2 ⟨(Expr.createIsZero_simplifies he.1 he.2).ok _ (hd.isZero he.2), hL⟩

theorem simplifyExpr_spec (hΓ : Γ.Nonempty) (he : Fine Γ e) (hd : e.Ok (.divisible Γ)) :
    Triple (Cache.Sound Γ) (x.simplifyExpr admissible e) (e.Agrees Γ 0#64) (fun t => t = .refused) := by
  unfold simplifyExpr
  split
  · exact simplify_agrees hΓ he hd
  · exact .pure (.refl e)

/-- What an answer says about the query. -/
def Answers (Γ : Set Assignment) (q : Query) : Validity → Prop
  | .True => q.Valid Γ
  | .False => q.Refuted Γ
  | .Unknown => ¬ q.Valid Γ ∧ ¬ q.Refuted Γ

section

omit [Options]

theorem answers_congr (h : ∀ σ ∈ Models Γ L, e'.Holds σ ↔ e.Holds σ) {v : Validity} (hv : Answers Γ ⟨L, e'⟩ v) :
    Answers Γ ⟨L, e⟩ v := by
  have hvalid : Query.Valid Γ ⟨L, e'⟩ ↔ Query.Valid Γ ⟨L, e⟩ := forall₂_congr h
  have hrefuted : Query.Refuted Γ ⟨L, e'⟩ ↔ Query.Refuted Γ ⟨L, e⟩ := forall₂_congr fun σ hσ => not_congr (h σ hσ)
  cases v with
  | True => exact hvalid.1 hv
  | False => exact hrefuted.1 hv
  | Unknown => exact ⟨fun h => hv.1 (hvalid.2 h), fun h => hv.2 (hrefuted.2 h)⟩

theorem answers_constant {c : APInt} (hw : c.width = 1) : Answers Γ ⟨L, .constant c⟩ (constantValidity c) := by
  unfold constantValidity
  split
  · rename_i htrue
    exact fun σ _ => eval_of_isTrue hw htrue σ
  · rename_i hfalse
    exact fun σ _ => not_holds_of_not_isTrue hw hfalse σ

theorem evaluateQuery_spec (hx : x.solver.Exact Γ) {q : Query} (hw : q.expr.getWidth = 1) :
    ∃ v, x.evaluateQuery q = .ok (some v) ∧ Answers Γ q v := by
  obtain ⟨L, e⟩ := q
  unfold evaluateQuery
  rw [if_pos hw]
  dsimp only
  split
  · exact ⟨_, rfl, answers_constant hw⟩
  · obtain ⟨v, hv, ha⟩ := hx.validity ⟨L, e⟩
    refine ⟨v, congrArg Except.ok hv, ?_⟩
    cases v with
    | True => exact ha
    | False => exact ha.2
    | Unknown => exact ha

end

theorem underConstraints_spec (hs : Reached Γ s.constraints) (he : Fine Γ e)
    (hd : e.Ok (.divisible (Models Γ s.constraints))) :
    ∃ e', x.underConstraints s e = .ok e' ∧ e.Equiv (Models Γ s.constraints) e' := by
  unfold underConstraints
  have hsub : Models Γ s.constraints ⊆ {σ | ∀ c ∈ s.constraints, c.Holds σ} := fun _ h => h.2
  split
  · obtain ⟨es, hrun, -⟩ := hs
    obtain ⟨e', hok, hr⟩ := ((ConstraintManager.simplifyExpr_spec hrun.bools he.wf).conseq (fun _ h => h)
      fun _ hn => hn (NodeCond.divisible_mono hsub hd)).exists_ok
    exact ⟨e', hok, hr.equiv.mono hsub⟩
  · exact ⟨e, rfl, rfl, fun _ _ h => h, fun _ _ _ => rfl⟩

theorem evaluate_spec (hx : x.solver.Exact Γ) (hs : Reached Γ s.constraints) (he : Fine Γ e) (hw : e.getWidth = 1)
    (hd : e.Ok (.divisible (Models Γ s.constraints))) :
    ∃ v, x.evaluate s e = .ok (some v) ∧ Answers Γ ⟨s.constraints, e⟩ v := by
  unfold evaluate
  split
  · exact ⟨_, rfl, answers_constant hw⟩
  · obtain ⟨e', hok, heq⟩ := underConstraints_spec (x := x) hs he hd
    obtain ⟨v, hv, ha⟩ := evaluateQuery_spec hx (q := ⟨s.constraints, e'⟩) (heq.width.trans hw)
    rw [hok]
    refine ⟨v, hv, answers_congr (fun σ hσ => ?_) ha⟩
    unfold Expr.Holds
    rw [heq.eval_at hσ (he.inBounds σ hσ.1) hw]

theorem Part.reached {o : Option ExecutionState} (h : Part Γ L P o) : ∀ t ∈ o.toList, Reached Γ t.constraints := by
  cases o with
  | none => exact nofun
  | some t => simpa using Covers.reached h

theorem Part.countP [DecidablePred P] {o : Option ExecutionState} (h : Part Γ L P o) {σ : Assignment} (hσ : σ ∈ Γ) :
    o.toList.countP (fun t => ∀ c ∈ t.constraints, c.Holds σ) = if (∀ c ∈ L, c.Holds σ) ∧ P σ then 1 else 0 := by
  cases o with
  | none => exact (if_neg fun hP => h σ ⟨hσ, hP.1⟩ hP.2).symm
  | some t => simp [Covers.satisfied h σ hσ]

end

/-! ## Runs -/

end Executor

end S2E.Klee
