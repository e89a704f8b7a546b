import S2E.Klee.Solver.Query
import S2E.Lib.Triple

/-!
# `CachingSolver`

The solver stores what it learns about a query under a canonical form of it: of an expression and its negation, the one
that `Expr::compare` puts first. What is stored is a `PartialValidity`, and it changes sign on the way in and out when
the canonical form is the negation.

* `cacheLookup`, `cacheInsert`, `computeValidity`, `computeTruth` : the code; `none` is a failure of the underlying
  solver (return value `false`), a `Trap` an assertion;
* `Right Γ q v` : the verdict `v` may stand for `q`; `Consistent Γ cache` : every entry is right.

The order of `Expr::compare` rests on hash values; `less` stands for `compare(..) < 0` and nothing is assumed of it.
-/

namespace S2E.Klee
open S2E.Lib List Function Set

/-- `IncompleteSolver::PartialValidity`. -/
inductive PartialValidity
  | MustBeTrue | MustBeFalse | MayBeTrue | MayBeFalse | TrueOrFalse | None
deriving DecidableEq

def negatePartialValidity : PartialValidity → Except Trap PartialValidity
  | .MustBeTrue => .ok .MustBeFalse
  | .MustBeFalse => .ok .MustBeTrue
  | .MayBeTrue => .ok .MayBeFalse
  | .MayBeFalse => .ok .MayBeTrue
  | .TrueOrFalse => .ok .TrueOrFalse
  | .None => .error .assertFailed

variable {v : PartialValidity}

namespace CachingSolver

/-- The `unordered_map` from `CacheEntry` (constraints and canonical query) to the verdict. -/
abbrev Cache := Query → Option PartialValidity

/-- `unordered_map::insert`: an entry that is there stays as it is. -/
def Cache.insert (cache : Cache) (ce : Query) (v : PartialValidity) : Cache :=
  if (cache ce).isSome then cache else update cache ce (some v)

abbrev M := StateT Cache (Except Trap)

variable [Options] (less : Expr → Expr → Bool) (solver : SolverImpl)

/-- The canonical expression, and whether it is the negation of the original one. -/
def canonicalizeQuery (originalQuery : Expr) : Expr × Bool :=
  let negatedQuery := originalQuery.createIsZero
  if less originalQuery negatedQuery then (originalQuery, false) else (negatedQuery, true)

/-- The verdict about the one expression, turned into the verdict about the other. -/
def signed (negationUsed : Bool) (v : PartialValidity) : Except Trap PartialValidity :=
  if negationUsed then negatePartialValidity v else .ok v

def cacheLookup (query : Query) : M (Option PartialValidity) := do
  let canonical := canonicalizeQuery less query.expr
  match (← get) (query.withExpr canonical.1) with
  | some v => return some (← StateT.lift (signed canonical.2 v))
  | none => return none

def cacheInsert (query : Query) (result : PartialValidity) : M Unit := do
  let canonical := canonicalizeQuery less query.expr
  let cachedResult ← StateT.lift (signed canonical.2 result)
  modify fun cache => cache.insert (query.withExpr canonical.1) cachedResult

/-- `cacheInsert`, and the answer that goes with the verdict. -/
def conclude {α : Type} (query : Query) (cachedResult : PartialValidity) (result : α) : M (Option α) := do
  cacheInsert less query cachedResult
  return some result

def computeValidity (query : Query) : M (Option Validity) := do
  match ← cacheLookup less query with
  | some .MustBeTrue => return some .True
  | some .MustBeFalse => return some .False
  | some .TrueOrFalse => return some .Unknown
  | some .MayBeTrue =>
    match solver.computeTruth query with
    | none => return none
    | some true => conclude less query .MustBeTrue .True
    | some false => conclude less query .TrueOrFalse .Unknown
  | some .MayBeFalse =>
    match solver.computeTruth query.negateExpr with
    | none => return none
    | some true => conclude less query .MustBeFalse .False
    | some false => conclude less query .TrueOrFalse .Unknown
  | some .None => throw .assertFailed
  | none =>
    match solver.computeValidity query with
    | none => return none
    | some .True => conclude less query .MustBeTrue .True
    | some .False => conclude less query .MustBeFalse .False
    | some .Unknown => conclude less query .TrueOrFalse .Unknown

def computeTruth (query : Query) : M (Option Bool) := do
  match ← cacheLookup less query with
  | some .MayBeTrue =>
    match solver.computeTruth query with
    | none => return none
    | some true => conclude less query .MustBeTrue true
    -- a true assignment exists, and the query is not valid
    | some false => conclude less query .TrueOrFalse false
  | none =>
    match solver.computeTruth query with
    | none => return none
    | some true => conclude less query .MustBeTrue true
    | some false => conclude less query .MayBeFalse false
  | some v => return some (v == .MustBeTrue)

/-! ## The verdicts -/

/-- What the verdict says about the query. -/
def Describes (Γ : Set Assignment) (q : Query) : PartialValidity → Prop
  | .MustBeTrue => q.Valid Γ
  | .MustBeFalse => q.Refuted Γ
  | .MayBeTrue => ¬ q.Refuted Γ
  | .MayBeFalse => ¬ q.Valid Γ
  | .TrueOrFalse => ¬ q.Valid Γ ∧ ¬ q.Refuted Γ
  | .None => True

/-- The verdict is one that the code stores, and true of the query if the constraints have a model. -/
structure Right (Γ : Set Assignment) (q : Query) (v : PartialValidity) : Prop where
  known : v ≠ .None
  describes : (Models Γ q.constraints).Nonempty → Describes Γ q v

/-- The expressions that queries are about. -/
def Boolean (q : Query) : Prop := q.expr.WF ∧ q.expr.getWidth = 1

variable {less solver} {Γ : Set Assignment} {q : Query}

theorem negatePartialValidity_spec (Γ : Set Assignment) (hq : Boolean q) (hv : v ≠ .None) :
    Outcome (negatePartialValidity v) (fun v' => v' ≠ .None ∧ (Describes Γ q.negateExpr v' ↔ Describes Γ q v) ∧
      (Describes Γ q v' ↔ Describes Γ q.negateExpr v)) (fun _ => False) := by
  have hval := Query.negateExpr_valid hq.1 hq.2 Γ
  have href := Query.negateExpr_refuted hq.1 hq.2 Γ
  cases v with
  | None => exact hv rfl
  | MustBeTrue => exact ⟨nofun, href, hval.symm⟩
  | MustBeFalse => exact ⟨nofun, hval, href.symm⟩
  | MayBeTrue => exact ⟨nofun, not_congr hval, not_congr href.symm⟩
  | MayBeFalse => exact ⟨nofun, not_congr href, not_congr hval.symm⟩
  | TrueOrFalse =>
    have h := and_congr (not_congr hval) (not_congr href)
    exact ⟨nofun, h.trans and_comm, (h.trans and_comm).symm⟩

theorem canonicalizeQuery_cases (less : Expr → Expr → Bool) (e : Expr) :
    canonicalizeQuery less e = (e, false) ∨ canonicalizeQuery less e = (e.createIsZero, true) := by
  by_cases h : less e e.createIsZero = true
  · exact .inl (if_pos h)
  · exact .inr (if_neg h)

/-- The verdict about the query, on its way into the cache. -/
theorem signed_insert (hq : Boolean q) (hv : Right Γ q v) : Outcome (signed (canonicalizeQuery less q.expr).2 v)
      (Right Γ (q.withExpr (canonicalizeQuery less q.expr).1)) (fun _ => False) := by
  rcases canonicalizeQuery_cases less q.expr with hc | hc <;> rw [hc]
  · exact hv
  · refine (negatePartialValidity_spec Γ hq hv.known).conseq (fun v' hv' => ?_) (fun _ h => h)
    exact ⟨hv'.1, fun hsat => hv'.2.1.2 (hv.describes hsat)⟩

/-- The entry of the canonical query, on its way out. -/
theorem signed_lookup (hq : Boolean q) (hv : Right Γ (q.withExpr (canonicalizeQuery less q.expr).1) v) :
    Outcome (signed (canonicalizeQuery less q.expr).2 v) (Right Γ q) (fun _ => False) := by
  rcases canonicalizeQuery_cases less q.expr with hc | hc <;> rw [hc] at hv ⊢
  · exact hv
  · refine (negatePartialValidity_spec Γ hq hv.known).conseq (fun v' hv' => ?_) (fun _ h => h)
    exact ⟨hv'.1, fun hsat => hv'.2.2.2 (hv.describes hsat)⟩

/-! ## The cache -/

def Consistent (Γ : Set Assignment) (cache : Cache) : Prop := ∀ ce v, cache ce = some v → Right Γ ce v

omit [Options] in
theorem Consistent.empty : Consistent Γ fun _ => none := fun _ _ h => nomatch h

omit [Options] in
theorem Consistent.insert {cache : Cache} (h : Consistent Γ cache) {ce : Query}
    (hv : Right Γ ce v) : Consistent Γ (cache.insert ce v) := by
  unfold Cache.insert
  split
  · exact h
  · intro ce' v' hce
    by_cases heq : ce' = ce
    · grind
    · rw [update_of_ne heq] at hce
      exact h ce' v' hce

theorem cacheLookup_spec (hq : Boolean q) :
    Triple (Consistent Γ) (cacheLookup less q) (fun r => ∀ v, r = some v → Right Γ q v) (fun _ => False) := by
  unfold cacheLookup
  refine .get_bind fun cache hcache => ?_
  split
  · rename_i v hv
    refine .bind (.lift (signed_lookup hq (hcache _ v hv))) fun v' hv' => .pure ?_
    rintro _ ⟨⟩
    exact hv'
  · exact .pure nofun

/-- An answer that is right together with the verdict stored for it. -/
theorem conclude_spec {α : Type} (hq : Boolean q) {result : α} {Q : α → Prop} (hv : Right Γ q v) (hr : Q result) :
    Triple (Consistent Γ) (conclude less q v result) (fun r => ∃ a, r = some a ∧ Q a) (fun _ => False) := by
  unfold conclude cacheInsert
  rw [bind_assoc]
  refine .bind (.lift (signed_insert hq hv)) fun v' hv' => ?_
  exact .bind (.modify (Q := fun _ => True) (fun _ h => h.insert hv') trivial) fun _ _ => .pure ⟨_, rfl, hr⟩

/-! ## The answers -/

/-- `a` is the right answer, if the constraints have a model. -/
def Answers {α : Type} (Γ : Set Assignment) (q : Query) (P : α → Prop) (r : Option α) : Prop :=
  ∃ a, r = some a ∧ ((Models Γ q.constraints).Nonempty → P a)

theorem computeTruth_spec (hs : solver.Exact Γ) (hq : Boolean q) :
    Triple (Consistent Γ) (computeTruth less solver q) (Answers Γ q fun b => b = true ↔ q.Valid Γ) (fun _ => False) := by
  obtain ⟨b, hb, hvalid⟩ := hs.truth q
  unfold computeTruth
  refine .bind (cacheLookup_spec hq) fun r hr => ?_
  rw [hb]
  split
  · have hmay := hr _ rfl
    cases b with
    | true => exact conclude_spec hq ⟨nofun, fun _ => hvalid.1 rfl⟩ fun _ => hvalid
    | false =>
      refine conclude_spec hq ⟨nofun, fun hsat => ⟨fun h => ?_, hmay.describes hsat⟩⟩ fun _ => hvalid
      cases hvalid.2 h
  · cases b with
    | true => exact conclude_spec hq ⟨nofun, fun _ => hvalid.1 rfl⟩ fun _ => hvalid
    | false => exact conclude_spec hq ⟨nofun, fun _ h => nomatch hvalid.2 h⟩ fun _ => hvalid
  · rename_i v hne
    have hv := hr v rfl
    refine .pure ⟨_, rfl, fun hsat => ?_⟩
    cases v with
    | MustBeTrue => exact ⟨fun _ => hv.describes hsat, fun _ => rfl⟩
    | MustBeFalse => exact ⟨nofun, fun h => absurd h (Query.Refuted.not_valid (hv.describes hsat) hsat)⟩
    | MayBeTrue => exact absurd rfl hne
    | MayBeFalse => exact ⟨nofun, fun h => absurd h (hv.describes hsat)⟩
    | TrueOrFalse => exact ⟨nofun, fun h => absurd h (hv.describes hsat).1⟩
    | None => exact absurd rfl hv.known

theorem computeValidity_spec (hs : solver.Exact Γ) (hq : Boolean q) :
    Triple (Consistent Γ) (computeValidity less solver q) (Answers Γ q (q.HasValidity Γ)) (fun _ => False) := by
  obtain ⟨b, hb, htrue⟩ := hs.truth q
  obtain ⟨b', hb', hfalse⟩ := hs.truth q.negateExpr
  rw [Query.negateExpr_valid hq.1 hq.2] at hfalse
  obtain ⟨v, hv, hvalidity⟩ := hs.validity q
  unfold computeValidity
  refine .bind (cacheLookup_spec hq) fun r hr => ?_
  rw [hb, hb', hv]
  cases r with
  | none =>
    cases v with
    | True => exact conclude_spec hq ⟨nofun, fun _ => hvalidity⟩ fun _ => hvalidity
    | False => exact conclude_spec hq ⟨nofun, fun _ => hvalidity.2⟩ fun _ => hvalidity
    | Unknown => exact conclude_spec hq ⟨nofun, fun _ => hvalidity⟩ fun _ => hvalidity
  | some r =>
    have hr := hr r rfl
    cases r with
    | MustBeTrue => exact .pure ⟨_, rfl, hr.describes⟩
    | MustBeFalse => exact .pure ⟨_, rfl, fun hsat => ⟨(hr.describes hsat).not_valid hsat, hr.describes hsat⟩⟩
    | TrueOrFalse => exact .pure ⟨_, rfl, hr.describes⟩
    | None => exact absurd rfl hr.known
    | MayBeTrue =>
      cases b with
      | true => exact conclude_spec hq ⟨nofun, fun _ => htrue.1 rfl⟩ fun _ => htrue.1 rfl
      | false =>
        have hboth (hsat : (Models Γ q.constraints).Nonempty) : ¬ q.Valid Γ ∧ ¬ q.Refuted Γ :=
          ⟨fun h => (nomatch htrue.2 h), hr.describes hsat⟩
        exact conclude_spec hq ⟨nofun, hboth⟩ hboth
    | MayBeFalse =>
      cases b' with
      | true =>
        exact conclude_spec hq ⟨nofun, fun _ => hfalse.1 rfl⟩ fun hsat => ⟨hr.describes hsat, hfalse.1 rfl⟩
      | false =>
        have hboth (hsat : (Models Γ q.constraints).Nonempty) : ¬ q.Valid Γ ∧ ¬ q.Refuted Γ :=
          ⟨hr.describes hsat, fun h => nomatch hfalse.2 h⟩
        exact conclude_spec hq ⟨nofun, hboth⟩ hboth

/-! ## Sequences of queries -/

inductive Ask
  | validity (q : Query)
  | truth (q : Query)

inductive Answer
  | validity (v : Validity)
  | truth (isValid : Bool)
deriving DecidableEq

def Ask.query : Ask → Query
  | .validity q => q
  | .truth q => q

/-- What the underlying solver answers. -/
def Ask.direct (solver : SolverImpl) : Ask → Option Answer
  | .validity q => (solver.computeValidity q).map .validity
  | .truth q => (solver.computeTruth q).map .truth

def ask (less : Expr → Expr → Bool) (solver : SolverImpl) : Ask → M (Option Answer)
  | .validity q => do return (← computeValidity less solver q).map .validity
  | .truth q => do return (← computeTruth less solver q).map .truth

/-- A new solver answers one query after the other. -/
def run (less : Expr → Expr → Bool) (solver : SolverImpl) (asks : List Ask) : Except Trap (List (Option Answer)) :=
  ((asks.mapM (ask less solver)).run fun _ => none).map Prod.fst

/-- The right answer to a query with satisfiable constraints is the one that the underlying solver gives. -/
theorem ask_spec (hs : solver.Exact Γ) {a : Ask} (ha : Boolean a.query) : Triple (Consistent Γ) (ask less solver a)
      (fun r => (Models Γ a.query.constraints).Nonempty → r = a.direct solver) (fun _ => False) := by
  cases a with
  | validity q =>
    obtain ⟨v, hv, hright⟩ := hs.validity q
    refine .bind (computeValidity_spec hs ha) fun r hr => .pure fun hsat => ?_
    obtain ⟨v', rfl, hv'⟩ := hr
    rw [Ask.direct, hv, Query.hasValidity_unique (hv' hsat) hright]
  | truth q =>
    obtain ⟨b, hb, hright⟩ := hs.truth q
    refine .bind (computeTruth_spec hs ha) fun r hr => .pure fun hsat => ?_
    obtain ⟨b', rfl, hb'⟩ := hr
    rw [Ask.direct, hb, Bool.eq_iff_iff.2 ((hb' hsat).trans hright.symm)]

/-- Whatever is asked before, a query with satisfiable constraints gets the answer of the underlying solver. -/
theorem run_exact (hs : solver.Exact Γ) {asks : List Ask} (h : ∀ a ∈ asks, Boolean a.query) :
    ∃ answers, run less solver asks = .ok answers ∧
      List.Forall₂ (fun a r => (Models Γ a.query.constraints).Nonempty → r = a.direct solver) asks answers :=
  ((Triple.mapM fun a ha => ask_spec hs (h a ha)).outcome .empty).exists_ok

end CachingSolver

/-! ## Runs -/

namespace CachingSolver

/-- `Expr::compare` puts the smaller kind first. -/
def kindLess (a b : Expr) : Bool := a.getKind < b.getKind

/-- The query for the low bit of a symbolic byte. -/
def lowBit (constraints : List Expr) : Query := ⟨constraints, .extract (symbolicByte 0 "x") 0 1⟩

theorem lowBit_boolean (constraints : List Expr) : Boolean (lowBit constraints) :=
  ⟨⟨symbolicByte_ok trivial, by decide, by decide⟩, rfl⟩

theorem lowBit_negateExpr_boolean (constraints : List Expr) : Boolean (lowBit constraints).negateExpr :=
  ⟨⟨Nat.zero_lt_one, (lowBit_boolean constraints).1, rfl⟩, rfl⟩

/-- A query and its negation, without constraints. -/
theorem run_exact_lowBit : let asks : List Ask := [.truth (lowBit []), .validity (lowBit []).negateExpr]
    ∃ answers, run kindLess (exactSolver univ) asks = .ok answers ∧
      List.Forall₂ (fun a r => (Models univ a.query.constraints).Nonempty →
        r = a.direct (exactSolver univ)) asks answers :=
  run_exact (exactSolver_exact _)
    (forall_mem_cons.2 ⟨lowBit_boolean [], forall_mem_singleton.2 (lowBit_negateExpr_boolean [])⟩)

/-- The byte is both five and six. -/
def fiveAndSix : List Expr :=
  [.cmp .eq (.const 5 8) (symbolicByte 0 "x"), .cmp .eq (.const 6 8) (symbolicByte 0 "x")]

theorem fiveAndSix_unsat (σ : Assignment) : σ ∉ Models univ fiveAndSix := by
  intro hσ
  have h5 := hσ.2 _ mem_cons_self
  have h6 := hσ.2 _ (mem_cons_of_mem _ mem_cons_self)
  rw [Expr.Holds, Expr.eval_cmp (w := 8) rfl] at h5 h6
  revert h5 h6
  generalize (symbolicByte 0 "x").eval σ 8 = x
  exact (by decide : ∀ x : BitVec 8, BitVec.ofBool (5#8 == x) = 1#1 → BitVec.ofBool (6#8 == x) = 1#1 → False) x

/-- The first query, to an empty cache: the verdict is stored under the expression itself. -/
theorem computeTruth_lowBit {solver : SolverImpl} {constraints : List Expr}
    (h : solver.computeTruth (lowBit constraints) = some true) :
    (computeTruth kindLess solver (lowBit constraints)).run (fun _ => none) =
      .ok (some true, update (fun _ => none) (lowBit constraints) (some .MustBeTrue)) := by
  show (match solver.computeTruth (lowBit constraints) with
    | none => pure none
    | some true => conclude kindLess (lowBit constraints) .MustBeTrue true
    | some false => conclude kindLess (lowBit constraints) .MayBeFalse false : M (Option Bool)).run (fun _ => none) = _
  rw [h]
  rfl

/-- Without a model, the verdict stored for the first query is read as one against its negation. -/
theorem run_unsatisfiable : let low := lowBit fiveAndSix
    (exactSolver univ).Exact univ ∧ Boolean low ∧ Boolean low.negateExpr ∧
    run kindLess (exactSolver univ) [.truth low, .truth low.negateExpr] =
      .ok [some (.truth true), some (.truth false)] ∧
    Ask.direct (exactSolver univ) (.truth low.negateExpr) = some (.truth true) := by
  have hvalid (e : Expr) : (exactSolver univ).computeTruth ⟨fiveAndSix, e⟩ = some true := by
    obtain ⟨b, hb, hiff⟩ := (exactSolver_exact univ).truth ⟨fiveAndSix, e⟩
    rw [hb, Option.some_inj]
    exact hiff.2 fun σ hσ => absurd hσ (fiveAndSix_unsat σ)
  refine ⟨exactSolver_exact _, lowBit_boolean _, lowBit_negateExpr_boolean _, ?_, ?_⟩
  · unfold run
    simp only [mapM_cons, mapM_nil, ask, bind_assoc, pure_bind, StateT.run_bind,
      computeTruth_lowBit (hvalid _)]
    -- the second query only reads the cache
    rfl
  · rw [Ask.direct, Query.negateExpr, Query.withExpr, lowBit, hvalid]
    rfl

end CachingSolver

end S2E.Klee
