import S2E.Klee.ADT.MapOfSets
import S2E.Klee.Expr.Evaluator
import S2E.Klee.Expr.FindReads
import S2E.Klee.Solver.Caching

/-!
# `CexCachingSolver`

The solver keeps the counterexamples that it was given: for a set of expressions, an assignment that makes all of them
true, or none. A query is looked up under its constraints and its negated expression.

* `searchForAssignment`, `lookupAssignment`, `getAssignment`, `computeValidity`, `computeTruth`, `computeValue` : the
  code; `none` is a failure (return value `false`), a `Trap` an assertion or a division by zero;
* `Stored key a` : what an entry says about its set; `Inv` : every entry does, and every assignment of the table gives
  no byte beyond the end of an array. A superset, a subset and an assignment that satisfies the set answer for it;
* `getAssignment_spec` : the assignment returned is a counterexample, and none is returned only if there is none.

An unbound byte is zero in an `Assignment`, so that the assignments meant are those of `boundedAssignments`. The orders
of `Expr::compare` and of the table decide which entry is found; nothing is assumed of them.
-/

namespace S2E.Klee

open S2E.Lib List

/-- The bytes of an array. -/
def Array.bytes (σ : Assignment) (a : Array) : List (BitVec 8) := (range a.size).map (σ a)

/-- The constructor of `Assignment` from two vectors. The bindings are a map from the addresses. -/
def Bindings.ofObjects (objects : List Array) (values : List (List (BitVec 8))) : Bindings :=
  ⟨false, (objects.zip values).foldl (fun m p => setInsert (fun a b => a.1.addr < b.1.addr) p m) []⟩

/-- The part of `SolverImpl` that finds counterexamples: the bytes of the objects under one, or that there is none. -/
structure ValuesSolver where
  computeInitialValues : Query → List Array → Option (Option (List (List (BitVec 8))))

/-- The assignment is a counterexample: a model that falsifies the expression. -/
def Query.Falsifies (Γ : Set Assignment) (q : Query) (σ : Assignment) : Prop :=
  σ ∈ Models Γ q.constraints ∧ ¬ q.expr.Holds σ

open Bindings (ofObjects)

theorem Query.valid_iff {Γ : Set Assignment} {q : Query} : q.Valid Γ ↔ ∀ σ, ¬ q.Falsifies Γ σ :=
  forall_congr' fun _ => by rw [Query.Falsifies, not_and_not_right]

/-- The solver answers every query, and answers it right. -/
def ValuesSolver.Exact (Γ : Set Assignment) (solver : ValuesSolver) : Prop :=
  ∀ q objects, ∃ r, solver.computeInitialValues q objects = some r ∧
    (∀ values, r = some values → ∃ σ, q.Falsifies Γ σ ∧ values = objects.map (Array.bytes σ)) ∧
    (r = none → q.Valid Γ)

open Query (valid_iff)

namespace CexCachingSolver

/-- `CexCacheTryAll` and `CexCacheExperimental`. -/
structure CacheOptions where
  tryAll : Bool
  experimental : Bool

structure State where
  cache : MapOfSets.Node Expr (Option Bindings)
  assignmentsTable : List Bindings

abbrev M := StateT State (Except Trap)

variable {s : State} {key key' : List Expr} {σ : Assignment} {a : Option Bindings}

section

variable [Options] (opts : CacheOptions) (less : Expr → Expr → Bool) (lessThan : Bindings → Bindings → Bool)
  (solver : ValuesSolver)

/-- `NullOrSatisfyingAssignment`. -/
def nullOrSatisfying (key : List Expr) : Option Bindings → Except Trap Bool
  | none => .ok true
  | some a => a.satisfies key

/-- The loop over the table. -/
def firstSatisfying (key : List Expr) : List Bindings → Except Trap (Option Bindings)
  | [] => .ok none
  | a :: rest => do if ← a.satisfies key then return some a else firstSatisfying key rest

def searchForAssignment (key : List Expr) : M (Option (Option Bindings)) := do
  let s ← get
  match s.cache.lookup key with
  | some result => return some result
  | none =>
    -- an assignment for a superset is one for the set
    match s.cache.findSuperset Option.isSome key with
    | some result => return some result
    | none =>
      if opts.tryAll then
        match ← StateT.lift (s.cache.findSubset less (fun a => .ok a.isNone) key) with
        | some result => return some result
        | none => return (← StateT.lift (firstSatisfying key s.assignmentsTable)).map some
      -- a subset without an assignment leaves the set without one
      else StateT.lift (s.cache.findSubset less (nullOrSatisfying key) key)

/-- `KeyType(constraints.begin(), constraints.end())`. -/
def constraintsKey (constraints : List Expr) : List Expr := constraints.foldl (fun key c => setInsert less c key) []

/-- The key that `lookupAssignment` constructs, unless the negated expression is false. -/
def keyOf (query : Query) : Option (List Expr) :=
  match query.expr.createIsZero with
  | .constant CE => if CE.isFalse then none else some (constraintsKey less query.constraints)
  | neg => some (setInsert less neg (constraintsKey less query.constraints))

/-- `lookupAssignment`: the key where nothing is found. -/
def lookupAssignment (query : Query) : M (Option Bindings ⊕ List Expr) := do
  match keyOf less query with
  | none => return .inl none
  | some key =>
    match ← searchForAssignment opts less key with
    | some result => return .inl result
    | none => return .inr key

def getAssignment (query : Query) : M (Option (Option Bindings)) := do
  match ← lookupAssignment opts less query with
  | .inl result => return some result
  | .inr key =>
    let objects := findSymbolicObjects key
    match solver.computeInitialValues query objects with
    | none => return none
    | some none =>
      modify fun s => { s with cache := s.cache.insert less none key }
      return some none
    | some (some values) =>
      let binding := Bindings.ofObjects objects values
      modify fun s => ⟨s.cache.insert less (some binding) key, setInsert lessThan binding s.assignmentsTable⟩
      return some (some binding)

/-- `cast<ConstantExpr>`. -/
def constantOf : Expr → Except Trap APInt
  | .constant CE => .ok CE
  | _ => .error .assertFailed

section

variable (query : Query)

def computeValidity : M (Option Validity) := do
  match ← getAssignment opts less lessThan solver query.withFalse with
  | none => return none
  | some none => throw .assertFailed
  | some (some a) =>
    let q ← StateT.lift (a.evaluate query.expr)
    let CE ← StateT.lift (constantOf q)
    if CE.isTrue then
      match ← getAssignment opts less lessThan solver query with
      | none => return none
      | some a => return some (if a.isNone then .True else .Unknown)
    else
      match ← getAssignment opts less lessThan solver query.negateExpr with
      | none => return none
      | some a => return some (if a.isNone then .False else .Unknown)

/-- `CexCacheExperimental`: whether the negation is known to have no counterexample. -/
def knownRefuted : M Bool := do
  if opts.experimental then
    match ← lookupAssignment opts less query.negateExpr with
    | .inl none => return true
    | _ => return false
  else return false

/-- What is known to be refuted is a failure, not the answer `false`. -/
def computeTruth : M (Option Bool) := do
  if ← knownRefuted opts less query then return none
  else
    match ← getAssignment opts less lessThan solver query with
    | none => return none
    | some a => return some a.isNone

def computeValue : M (Option APInt) := do
  match ← getAssignment opts less lessThan solver query.withFalse with
  | none => return none
  | some none => throw .assertFailed
  | some (some a) =>
    let result ← StateT.lift (a.evaluate query.expr)
    return some (← StateT.lift (constantOf result))

def computeInitialValues (objects : List Array) : M (Option (Option (List (List (BitVec 8))))) := do
  match ← getAssignment opts less lessThan solver query with
  | none => return none
  | some none => return some none
  | some (some a) =>
    return some (some (objects.map fun os => (a.bindings.lookup os).getD (replicate os.size 0)))

end

end

/-! ## What an entry says -/

/-- An assignment that the solver keeps. -/
structure Bound (a : Bindings) : Prop where
  noFreeValues : a.allowFreeValues = false
  bounded : a.total ∈ boundedAssignments
  sizes : ∀ os bytes, a.bindings.lookup os = some bytes → bytes.length = os.size

def Stored (key : List Expr) : Option Bindings → Prop
  | some a => Bound a ∧ ∀ e ∈ key, e.Holds a.total
  | none => ∀ σ ∈ boundedAssignments, ¬ ∀ e ∈ key, e.Holds σ

structure Inv (s : State) : Prop where
  cache : s.cache.All Stored
  table : ∀ a ∈ s.assignmentsTable, Bound a

theorem Inv.empty : Inv ⟨.empty, []⟩ := ⟨MapOfSets.Node.empty_all _, fun _ h => nomatch h⟩

theorem Stored.subset (h : Stored key' a) (ha : a.isSome = true) (hsub : ∀ e ∈ key, e ∈ key') : Stored key a := by
  cases a with
  | none => cases ha
  | some a => exact ⟨h.1, fun e he => h.2 e (hsub e he)⟩

theorem Stored.superset (h : Stored key' none) (hsub : ∀ e ∈ key', e ∈ key) : Stored key none :=
  fun σ hσ hall => h σ hσ fun e he => hall e (hsub e he)

/-! ## Bindings -/

section Bindings

variable {σ : Assignment} {objects : List Array}

theorem mem_ofObjects {f : Array → List (BitVec 8)} {p : Array × List (BitVec 8)} :
    p ∈ (ofObjects objects (objects.map f)).bindings ↔ p.1 ∈ objects ∧ p.2 = f p.1 := by
  show p ∈ foldl _ [] _ ↔ _
  rw [mem_foldl_setInsert, ← map_prod_left_eq_zip]
  simp only [mem_map, not_mem_nil, or_false]
  constructor
  · grind
  · grind

theorem lookup_ofObjects (f : Array → List (BitVec 8)) (a : Array) :
    (ofObjects objects (objects.map f)).bindings.lookup a = if a ∈ objects then some (f a) else none := by
  cases hl : (ofObjects objects (objects.map f)).bindings.lookup a with
  | some bytes =>
    obtain ⟨l₁, l₂, heq, -⟩ := lookup_eq_some_iff.1 hl
    obtain ⟨ha, hb⟩ := mem_ofObjects.1 (show (a, bytes) ∈ _ by rw [heq]; simp)
    rw [if_pos ha, show bytes = f a from hb]
  | none =>
    split
    · rename_i ha
      have := lookup_eq_none_iff.1 hl (a, f a) (mem_ofObjects.2 ⟨ha, rfl⟩)
      simp at this
    · rfl

theorem ofObjects_total_of_mem (hσ : σ ∈ boundedAssignments) {a : Array} (ha : a ∈ objects) (i : Nat) :
    (ofObjects objects (objects.map (Array.bytes σ))).total a i = σ a i := by
  unfold Bindings.total
  rw [lookup_ofObjects, if_pos ha, Option.getD_some, Array.bytes, getD_eq_getElem?_getD]
  by_cases hi : i < a.size
  · simp [hi]
  · rw [hσ a i (Nat.not_lt.1 hi)]
    simp [Nat.not_lt.1 hi]

theorem ofObjects_bound (σ : Assignment) (objects : List Array) :
    Bound (ofObjects objects (objects.map (Array.bytes σ))) where
  noFreeValues := rfl
  bounded a i hi := by
    unfold Bindings.total
    rw [lookup_ofObjects]
    split
    · simp [Array.bytes, getD_eq_getElem?_getD, hi]
    · simp
  sizes os bytes h := by
    rw [lookup_ofObjects] at h
    split at h
    · obtain rfl := Option.some.inj h
      simp [Array.bytes]
    · cases h

end Bindings

/-! ## Usable expressions -/

variable [Options]

/-- A boolean expression that the evaluator can be given. -/
structure Usable (e : Expr) : Prop where
  width : e.getWidth = 1
  ok : e.Ok .literalDivisors
  inBounds : ∀ σ ∈ boundedAssignments, e.InBounds σ

structure Proper (q : Query) : Prop where
  constraints : ∀ c ∈ q.constraints, Usable c
  expr : Usable q.expr

variable {e : Expr} {q : Query} {opts : CacheOptions} {less : Expr → Expr → Bool}
  {lessThan : Bindings → Bindings → Bool} {solver : ValuesSolver} {key : List Expr}

theorem Usable.createIsZero (h : Usable e) : Usable e.createIsZero := by
  have hs := Expr.createIsZero_simplifies h.ok.wf h.width
  exact ⟨hs.width, hs.ok _ (h.ok.isZero h.width), fun σ hσ => hs.ok _ ((h.inBounds σ hσ).isZero h.width)⟩

theorem Proper.negateExpr (h : Proper q) : Proper q.negateExpr := ⟨h.constraints, h.expr.createIsZero⟩

theorem proper_withFalse (h : ∀ c ∈ q.constraints, Usable c) : Proper q.withFalse :=
  ⟨h, rfl, Nat.zero_lt_one, fun _ _ => Nat.zero_lt_one⟩

omit [Options] in
theorem mem_constraintsKey {constraints : List Expr} : e ∈ constraintsKey less constraints ↔ e ∈ constraints := by
  unfold constraintsKey
  simp [mem_foldl_setInsert]

omit [Options] in
theorem holds_constant_iff {CE : APInt} (hw : CE.width = 1) (σ : Assignment) :
    (Expr.constant CE).Holds σ ↔ CE.isFalse = false := by
  obtain ⟨w, b⟩ := CE
  subst hw
  rw [Expr.Holds, Expr.eval_constant]
  exact (by decide : ∀ b : BitVec 1, b = 1#1 ↔ APInt.isFalse ⟨1, b⟩ = false) b

/-- Where there is no key the query is valid; else the assignments of the key are the counterexamples. -/
theorem keyOf_spec (hq : Proper q) : (keyOf less q = none → q.Valid boundedAssignments) ∧
    ∀ key, keyOf less q = some key → (∀ e ∈ key, Usable e) ∧
      ∀ σ ∈ boundedAssignments, ((∀ e ∈ key, e.Holds σ) ↔ q.Falsifies boundedAssignments σ) := by
  have hneg : ∀ σ, q.expr.createIsZero.Holds σ ↔ ¬ q.expr.Holds σ :=
    fun σ => Expr.createIsZero_holds hq.expr.ok.wf hq.expr.width σ
  have hwidth := hq.expr.createIsZero.width
  have hmodels : ∀ σ ∈ boundedAssignments, (∀ c ∈ q.constraints, c.Holds σ) ↔ σ ∈ Models boundedAssignments q.constraints :=
    fun σ hσ => ⟨fun h => ⟨hσ, h⟩, fun h => h.2⟩
  unfold keyOf
  split
  · rename_i CE hCE
    rw [hCE] at hwidth
    split
    · rename_i hf
      refine ⟨fun _ => valid_iff.2 fun σ hσ => ?_, fun key h => by cases h⟩
      have := (hneg σ).2 hσ.2
      rw [hCE, holds_constant_iff hwidth, hf] at this
      cases this
    · rename_i hf
      refine ⟨fun h => (by cases h), fun key h => ?_⟩
      obtain rfl := Option.some.inj h
      refine ⟨fun e he => hq.constraints e (mem_constraintsKey.1 he), fun σ hσ => ?_⟩
      have hfalse : ¬ q.expr.Holds σ := by
        rw [← hneg, hCE, holds_constant_iff hwidth]
        exact Bool.eq_false_iff.2 hf
      simp only [mem_constraintsKey]
      rw [hmodels σ hσ]
      exact ⟨fun h => ⟨h, hfalse⟩, fun h => h.1⟩
  · refine ⟨fun h => (by cases h), fun key h => ?_⟩
    obtain rfl := Option.some.inj h
    constructor
    · intro e he
      rcases mem_setInsert.1 he with rfl | he
      · exact hq.expr.createIsZero
      · exact hq.constraints e (mem_constraintsKey.1 he)
    · intro σ hσ
      simp only [mem_setInsert, mem_constraintsKey, forall_eq_or_imp]
      rw [hneg, hmodels σ hσ]
      exact and_comm

/-! ## Satisfying assignments -/

/-- An assignment that satisfies the expressions makes them true. -/
theorem satisfies_spec {a : Bindings} (ha : Bound a) (hkey : ∀ e ∈ key, Usable e) :
    Outcome (a.satisfies key) (fun b => b = true → ∀ e ∈ key, e.Holds a.total) (fun _ => False) := by
  refine Triple.outcome (I := Visited.Sound (Expr.Evaluates a.total)) ?_ (fun p hp => nomatch hp)
  induction key with
  | nil => exact .pure fun _ e he => nomatch he
  | cons e es ih =>
    have he := hkey e mem_cons_self
    unfold Bindings.satisfiesAll
    refine .bind ((exprEvaluator_visit (a.evaluateByte_eq ha.noFreeValues) (e.weight + 1) e he.ok.wf).conseq
      (fun _ h => h) fun _ h => h (Nat.lt_succ_self _) he.ok) fun v hv => ?_
    split
    · rename_i ht
      refine (ih fun x hx => hkey x (mem_cons_of_mem e hx)).conseq (fun b hb hbt x hx => ?_) fun _ h => h
      rcases mem_cons.1 hx with rfl | hx
      · -- the result is the constant one, and it may stand for the expression
        have heval := hv.equiv.eval_at rfl (he.inBounds _ ha.bounded) he.width
        cases v with
        | constant CE => exact heval.symm.trans (eval_of_isTrue (hv.equiv.width.trans he.width) ht _)
        | _ => cases ht
      · exact hb hbt x hx
    · exact .pure fun h => nomatch h

theorem firstSatisfying_spec (hkey : ∀ e ∈ key, Usable e) : ∀ {table : List Bindings}, (∀ a ∈ table, Bound a) →
    Outcome (firstSatisfying key table) (fun r => ∀ a, r = some a → Stored key (some a)) (fun _ => False)
  | [], _ => fun _ h => nomatch h
  | a :: rest, h => by
    have ha := h a mem_cons_self
    refine Outcome.bind (satisfies_spec ha hkey) fun b hb => ?_
    cases b with
    | true =>
      intro a' ha'
      obtain rfl := Option.some.inj ha'
      exact ⟨ha, hb rfl⟩
    | false => exact firstSatisfying_spec hkey fun x hx => h x (mem_cons_of_mem a hx)

/-! ## Lookups -/

theorem searchForAssignment_spec (hkey : ∀ e ∈ key, Usable e) :
    Triple Inv (searchForAssignment opts less key) (fun r => ∀ a, r = some a → Stored key a) (fun _ => False) := by
  unfold searchForAssignment
  refine .get_bind fun s hs => ?_
  split
  · rename_i result hl
    refine .pure fun a ha => ?_
    obtain rfl := Option.some.inj ha
    exact MapOfSets.Node.lookup_all key s.cache hs.cache hl
  · split
    · rename_i result hsup
      refine .pure fun a ha => ?_
      obtain rfl := Option.some.inj ha
      obtain ⟨hsome, key', hst, hsub⟩ := MapOfSets.Node.findSuperset_all s.cache key hs.cache hsup
      exact hst.subset hsome hsub
    · split
      · refine .bind (.lift ((MapOfSets.Node.findSubset_all s.cache key hs.cache).conseq (fun _ h => h)
          fun t ht => ?_)) fun r hr => ?_
        · grind
        · cases r with
          | some result =>
            refine .pure fun a ha => ?_
            obtain rfl := Option.some.inj ha
            obtain ⟨hnone, key', hst, hsub⟩ := hr _ rfl
            cases result with
            | none => exact hst.superset hsub
            | some a => cases hnone
          | none =>
            refine .bind (.lift (firstSatisfying_spec hkey hs.table)) fun r hr => .pure fun a ha => ?_
            obtain ⟨b, hb, rfl⟩ := Option.map_eq_some_iff.1 ha
            exact hr b hb
      · refine .lift ((MapOfSets.Node.findSubset_all s.cache key hs.cache).conseq (fun r hr a ha => ?_) fun t ht => ?_)
        · obtain ⟨hp, key', hst, hsub⟩ := hr a ha
          cases a with
          | none => exact hst.superset hsub
          | some a => exact ⟨hst.1, (satisfies_spec hst.1 hkey).of_ok hp rfl⟩
        · obtain ⟨key', a, hst, hp⟩ := ht
          cases a with
          | none => cases hp
          | some a =>
            have := satisfies_spec hst.1 hkey
            rw [show a.satisfies key = .error t from hp] at this
            exact this

/-- The answer is a counterexample, or there is none. -/
def RightFor (q : Query) : Option Bindings → Prop
  | some a => Bound a ∧ q.Falsifies boundedAssignments a.total
  | none => q.Valid boundedAssignments

section

variable (hk : ∀ σ ∈ boundedAssignments, ((∀ e ∈ key, e.Holds σ) ↔ q.Falsifies boundedAssignments σ))

include hk

omit [Options]

theorem Stored.rightFor (h : Stored key a) : RightFor q a := by
  cases a with
  | some a => exact ⟨h.1, (hk _ h.1.bounded).1 h.2⟩
  | none => exact valid_iff.2 fun σ hσ => h σ hσ.1.1 ((hk σ hσ.1.1).2 hσ)

theorem RightFor.stored (h : RightFor q a) : Stored key a := by
  cases a with
  | some a => exact ⟨h.1, (hk _ h.1.bounded).2 h.2⟩
  | none => exact fun σ hσ hall => valid_iff.1 h σ ((hk σ hσ).1 hall)

end

/-- What `lookupAssignment` finds is right, and the key that it returns is that of the query. -/
theorem lookupAssignment_spec (hq : Proper q) : Triple Inv (lookupAssignment opts less q)
      (fun r => (∀ a, r = .inl a → RightFor q a) ∧ ∀ key, r = .inr key → keyOf less q = some key) (fun _ => False) := by
  obtain ⟨hvalid, hkey⟩ : (keyOf less q = none → _) ∧ _ := keyOf_spec hq
  unfold lookupAssignment
  split
  · rename_i hk
    refine .pure ⟨fun a ha => ?_, fun key h => nomatch h⟩
    obtain rfl := Sum.inl.inj ha
    exact hvalid hk
  · rename_i key hk
    obtain ⟨husable, hiff⟩ := hkey key hk
    refine .bind (searchForAssignment_spec husable) fun r hr => ?_
    cases r with
    | some result =>
      refine .pure ⟨fun a ha => ?_, fun key h => nomatch h⟩
      obtain rfl := Sum.inl.inj ha
      exact (hr _ rfl).rightFor hiff
    | none =>
      refine .pure ⟨fun a ha => (nomatch ha), fun key' h => ?_⟩
      obtain rfl := Sum.inr.inj h
      exact hk

/-- The values of the underlying solver make a counterexample. -/
theorem ofObjects_falsifies (hkey : ∀ e ∈ key, Usable e)
    (hk : ∀ σ ∈ boundedAssignments, ((∀ e ∈ key, e.Holds σ) ↔ q.Falsifies boundedAssignments σ))
    (hσ : q.Falsifies boundedAssignments σ) : q.Falsifies boundedAssignments
      (ofObjects (findSymbolicObjects key) ((findSymbolicObjects key).map (Array.bytes σ))).total := by
  have hb := (ofObjects_bound σ (findSymbolicObjects key)).bounded
  rw [← hk _ hb]
  intro e he
  have hover := findSymbolicObjects_over (fun x hx => (hkey x hx).ok.wf) e he
  rw [Expr.Holds, Expr.eval_eq_of_agree hover hb hσ.1.1 (fun a ha i => ofObjects_total_of_mem hσ.1.1 ha i) 1]
  exact (hk σ hσ.1.1).2 hσ e he

omit [Options] in
theorem Inv.store (hs : Inv s) (h : Stored key a) : (s.cache.insert less a key).All Stored :=
  MapOfSets.Node.insert_all key s.cache hs.cache h

section

variable (hs : solver.Exact boundedAssignments)

include hs

theorem getAssignment_spec (hq : Proper q) :
    Triple Inv (getAssignment opts less lessThan solver q) (fun r => ∃ a, r = some a ∧ RightFor q a)
      (fun _ => False) := by
  unfold getAssignment
  refine .bind (lookupAssignment_spec hq) fun r hr => ?_
  cases r with
  | inl a => exact .pure ⟨a, rfl, hr.1 a rfl⟩
  | inr key =>
    obtain ⟨husable, hiff⟩ := (keyOf_spec hq).2 key (hr.2 key rfl)
    obtain ⟨r, hsolve, hvalues, hnone⟩ := hs q (findSymbolicObjects key)
    dsimp only
    rw [hsolve]
    cases r with
    | none =>
      have hright : RightFor q none := hnone rfl
      refine .bind (.modify (Q := fun _ => True) (fun s h => ⟨h.store (hright.stored hiff), h.table⟩) trivial)
        fun _ _ => .pure ⟨none, rfl, hright⟩
    | some values =>
      obtain ⟨σ, hσ, rfl⟩ := hvalues values rfl
      have hbound := ofObjects_bound σ (findSymbolicObjects key)
      have hright : RightFor q (some (ofObjects (findSymbolicObjects key)
          ((findSymbolicObjects key).map (Array.bytes σ)))) := ⟨hbound, ofObjects_falsifies husable hiff hσ⟩
      refine .bind (.modify (Q := fun _ => True) (fun s h => ⟨h.store (hright.stored hiff), fun a ha => ?_⟩) trivial)
        fun _ _ => .pure ⟨_, rfl, hright⟩
      rcases mem_setInsert.1 ha with rfl | ha
      · exact hbound
      · exact h.table a ha

/-! ## The answers -/

/-- The constraints have a model, and in each the evaluator gets to a value of the expression. -/
structure Evaluable (q : Query) : Prop where
  constraints : ∀ c ∈ q.constraints, Usable c
  ok : q.expr.Ok .literalDivisors
  nonempty : (Models boundedAssignments q.constraints).Nonempty
  value : ∀ σ ∈ Models boundedAssignments q.constraints, q.expr.Reduces σ ∧ q.expr.DivOk σ

/-- The assignment for the query with the expression `false` is a model; the expression evaluates to a constant there. -/
theorem evaluate_model (h : Evaluable q) {β : Type} {R : β → Prop}
    {f : APInt → M (Option β)} (hf : ∀ σ ∈ Models boundedAssignments q.constraints,
      Triple Inv (f ⟨q.expr.getWidth, q.expr.value σ⟩) (fun r => ∃ b, r = some b ∧ R b) (fun _ => False)) :
    Triple Inv (do
      match ← getAssignment opts less lessThan solver q.withFalse with
      | none => return none
      | some none => throw .assertFailed
      | some (some a) =>
        let e ← StateT.lift (a.evaluate q.expr)
        let CE ← StateT.lift (constantOf e)
        f CE) (fun r => ∃ b, r = some b ∧ R b) (fun _ => False) := by
  refine .bind (getAssignment_spec hs (proper_withFalse h.constraints)) fun r hr => ?_
  obtain ⟨a, rfl, ha⟩ := hr
  cases a with
  | none =>
    -- a model falsifies the expression `false`
    obtain ⟨σ, hσ⟩ := h.nonempty
    refine absurd ⟨hσ, ?_⟩ (valid_iff.1 ha σ)
    show ¬ (Expr.const 0 1).eval σ 1 = 1#1
    rw [Expr.const, APInt.ofNat, Expr.eval_constant]
    decide
  | some a =>
    have hmodel : a.total ∈ Models boundedAssignments q.constraints := ha.2.1
    have hval := h.value a.total hmodel
    refine .bind (.lift ((Bindings.evaluate_spec ha.1.noFreeValues h.ok.wf).conseq (fun _ hv => hv)
      fun _ ht => ht h.ok)) fun e he => ?_
    rw [he.value hval.1 hval.2]
    have hconst : Outcome (constantOf (q.expr.valueOf a.total))
      (fun CE => CE = ⟨q.expr.getWidth, q.expr.value a.total⟩) (fun _ => False) := rfl
    refine .bind (.lift hconst) fun CE hCE => ?_
    rw [hCE]
    exact hf a.total hmodel

theorem computeValidity_spec (hq : Proper q) (h : Evaluable q) :
    Triple Inv (computeValidity opts less lessThan solver q)
      (fun r => ∃ v, r = some v ∧ q.HasValidity boundedAssignments v) (fun _ => False) := by
  refine evaluate_model hs h fun σ hσ => ?_
  have hval : (⟨q.expr.getWidth, q.expr.value σ⟩ : APInt).isTrue = true ↔ q.expr.Holds σ := by
    rw [show (⟨q.expr.getWidth, q.expr.value σ⟩ : APInt) = ⟨1, q.expr.eval σ 1⟩ from
      Expr.constant.inj (Expr.valueOf_eq hq.expr.width)]
    exact (by decide : ∀ b : BitVec 1, APInt.isTrue ⟨1, b⟩ = true ↔ b = 1#1) _
  split
  · rename_i ht
    have hnot : ¬ q.Refuted boundedAssignments := fun hr => hr σ hσ (hval.1 ht)
    refine .bind (getAssignment_spec hs hq) fun r hr => ?_
    obtain ⟨a, rfl, ha⟩ := hr
    refine .pure ⟨_, rfl, ?_⟩
    cases a with
    | none => exact ha
    | some a => exact ⟨fun hv => valid_iff.1 hv _ ha.2, hnot⟩
  · rename_i ht
    have hnot : ¬ q.Valid boundedAssignments := fun hv => ht (hval.2 (hv σ hσ))
    refine .bind (getAssignment_spec hs hq.negateExpr) fun r hr => ?_
    obtain ⟨a, rfl, ha⟩ := hr
    refine .pure ⟨_, rfl, ?_⟩
    have hneg := Query.negateExpr_valid hq.expr.ok.wf hq.expr.width boundedAssignments
    cases a with
    | none => exact ⟨hnot, hneg.1 ha⟩
    | some a => exact ⟨hnot, fun hr => valid_iff.1 (hneg.2 hr) _ ha.2⟩

omit hs in
theorem knownRefuted_spec (hq : Proper q) : Triple Inv (knownRefuted opts less q)
      (fun b => b = true → opts.experimental = true ∧ q.Refuted boundedAssignments) (fun _ => False) := by
  unfold knownRefuted
  split
  · rename_i hexp
    refine .bind (lookupAssignment_spec hq.negateExpr) fun r hr => ?_
    split
    · -- no counterexample to the negation: the expression is false in every model
      exact .pure fun _ => ⟨hexp, (Query.negateExpr_valid hq.expr.ok.wf hq.expr.width _).1 (hr.1 none rfl)⟩
    · exact .pure fun h => nomatch h
  · exact .pure fun h => nomatch h

theorem computeTruth_spec (hq : Proper q) (h : opts.experimental = true → ¬ q.Refuted boundedAssignments) :
    Triple Inv (computeTruth opts less lessThan solver q)
      (fun r => ∃ b, r = some b ∧ (b = true ↔ q.Valid boundedAssignments)) (fun _ => False) := by
  refine .bind (knownRefuted_spec hq) fun b hb => ?_
  split
  · grind
  · refine .bind (getAssignment_spec hs hq) fun r hr => ?_
    obtain ⟨a, rfl, ha⟩ := hr
    refine .pure ⟨_, rfl, ?_⟩
    cases a with
    | none => exact ⟨fun _ => ha, fun _ => rfl⟩
    | some a => exact ⟨fun h => (nomatch h), fun hv => absurd ha.2 (valid_iff.1 hv _)⟩

/-- The value is that of the expression in a model. -/
theorem computeValue_spec (h : Evaluable q) : Triple Inv (computeValue opts less lessThan solver q)
      (fun r => ∃ c, r = some c ∧ ∃ σ ∈ Models boundedAssignments q.constraints, c = ⟨q.expr.getWidth, q.expr.value σ⟩)
      (fun _ => False) :=
  evaluate_model hs h fun σ hσ => .pure ⟨_, rfl, σ, hσ, rfl⟩

omit [Options] hs in
theorem Bound.bytes_eq {a : Bindings} (h : Bound a) (os : Array) :
    (a.bindings.lookup os).getD (replicate os.size 0) = os.bytes a.total := by
  unfold Array.bytes Bindings.total
  cases hl : a.bindings.lookup os with
  | none =>
    rw [Option.getD_none]
    exact (ext_getElem (by simp) fun i h₁ h₂ => by simp)
  | some bytes =>
    have hlen := h.sizes os bytes hl
    refine ext_getElem (by simpa using hlen) fun i h₁ h₂ => ?_
    have hi : i < bytes.length := by simpa using h₁
    simp [getD_eq_getElem?_getD, getElem?_eq_getElem hi]

/-- The values are the bytes of a counterexample, so that one solver may stand on another. -/
theorem computeInitialValues_spec (hq : Proper q) (objects : List Array) :
    Triple Inv (computeInitialValues opts less lessThan solver q objects)
      (fun r => ∃ v, r = some v ∧ (∀ values, v = some values →
          ∃ σ, q.Falsifies boundedAssignments σ ∧ values = objects.map (Array.bytes σ)) ∧
        (v = none → q.Valid boundedAssignments)) (fun _ => False) := by
  refine .bind (getAssignment_spec hs hq) fun r hr => ?_
  obtain ⟨a, rfl, ha⟩ := hr
  cases a with
  | none => exact .pure ⟨none, rfl, fun _ h => (nomatch h), fun _ => ha⟩
  | some a =>
    refine .pure ⟨_, rfl, fun values hv => ⟨a.total, ha.2, ?_⟩, fun h => nomatch h⟩
    obtain rfl := Option.some.inj hv
    exact map_congr_left fun os _ => ha.1.bytes_eq os

/-! ## Sequences of queries -/

inductive Ask
  | assignment (q : Query)
  | truth (q : Query)
  | validity (q : Query)
  | value (q : Query)
  | initialValues (q : Query) (objects : List Array)

def Ask.query : Ask → Query
  | .assignment q | .truth q | .validity q | .value q | .initialValues q _ => q

inductive Answer
  | assignment (a : Option Bindings)
  | truth (isValid : Bool)
  | validity (v : Validity)
  | value (c : APInt)
  | initialValues (values : Option (List (List (BitVec 8))))
deriving DecidableEq

def ask (opts : CacheOptions) (less : Expr → Expr → Bool) (lessThan : Bindings → Bindings → Bool)
    (solver : ValuesSolver) : Ask → M (Option Answer)
  | .assignment q => do return (← getAssignment opts less lessThan solver q).map .assignment
  | .truth q => do return (← computeTruth opts less lessThan solver q).map .truth
  | .validity q => do return (← computeValidity opts less lessThan solver q).map .validity
  | .value q => do return (← computeValue opts less lessThan solver q).map .value
  | .initialValues q objects => do
    return (← computeInitialValues opts less lessThan solver q objects).map .initialValues

/-- A new solver is asked one thing after the other. -/
def run (opts : CacheOptions) (less : Expr → Expr → Bool) (lessThan : Bindings → Bindings → Bool)
    (solver : ValuesSolver) (asks : List Ask) : Except Trap (List (Option Answer)) :=
  ((asks.mapM (ask opts less lessThan solver)).run ⟨.empty, []⟩).map Prod.fst

/-- The answers that are right. -/
def Right : Ask → Answer → Prop
  | .assignment q, .assignment a => RightFor q a
  | .truth q, .truth b => b = true ↔ q.Valid boundedAssignments
  | .validity q, .validity v => q.HasValidity boundedAssignments v
  | .value q, .value c => ∃ σ ∈ Models boundedAssignments q.constraints, c = ⟨q.expr.getWidth, q.expr.value σ⟩
  | .initialValues q objects, .initialValues v =>
    (∀ values, v = some values → ∃ σ, q.Falsifies boundedAssignments σ ∧ values = objects.map (Array.bytes σ)) ∧
      (v = none → q.Valid boundedAssignments)
  | _, _ => False

/-- What is asked of a query for the answer to be right. -/
def Answerable (opts : CacheOptions) : Ask → Prop
  | .assignment q | .initialValues q _ => Proper q
  | .truth q => Proper q ∧ (opts.experimental = true → ¬ q.Refuted boundedAssignments)
  | .validity q => Proper q ∧ Evaluable q
  | .value q => Evaluable q

/-- No constant of more than 64 bits is looked at. -/
structure Admissible (opts : CacheOptions) (a : Ask) : Prop where
  answerable : Answerable opts a
  narrow : ∀ e ∈ a.query.expr :: a.query.constraints, e.Narrow

theorem ask_spec {a : Ask} (ha : Answerable opts a) :
    Triple Inv (ask opts less lessThan solver a) (fun r => ∃ answer, r = some answer ∧ Right a answer)
      (fun _ => False) := by
  cases a with
  | assignment q =>
    refine .bind (getAssignment_spec hs ha) fun r hr => .pure ?_
    obtain ⟨v, rfl, hv⟩ := hr
    exact ⟨_, rfl, hv⟩
  | truth q =>
    refine .bind (computeTruth_spec hs ha.1 ha.2) fun r hr => .pure ?_
    obtain ⟨v, rfl, hv⟩ := hr
    exact ⟨_, rfl, hv⟩
  | validity q =>
    refine .bind (computeValidity_spec hs ha.1 ha.2) fun r hr => .pure ?_
    obtain ⟨v, rfl, hv⟩ := hr
    exact ⟨_, rfl, hv⟩
  | value q =>
    refine .bind (computeValue_spec hs ha) fun r hr => .pure ?_
    obtain ⟨v, rfl, hv⟩ := hr
    exact ⟨_, rfl, hv⟩
  | initialValues q objects =>
    refine .bind (computeInitialValues_spec hs ha objects) fun r hr => .pure ?_
    obtain ⟨v, rfl, hv⟩ := hr
    exact ⟨_, rfl, hv⟩

end

/-- Whatever is asked before, every answer is right. -/
theorem run_right (hs : solver.Exact boundedAssignments) {asks : List Ask} (h : ∀ a ∈ asks, Admissible opts a) :
    ∃ answers, run opts less lessThan solver asks = .ok answers ∧
      List.Forall₂ (fun a r => ∃ answer, r = some answer ∧ Right a answer) asks answers :=
  ((Triple.mapM fun a ha => ask_spec hs (h a ha).answerable).outcome .empty).exists_ok

/-- A query that is not in the cache and that the underlying solver finds valid. -/
theorem getAssignment_run_none (hl : (lookupAssignment opts less q).run s = .ok (.inr key, s))
    (hsolve : solver.computeInitialValues q (findSymbolicObjects key) = some none) :
    (getAssignment opts less lessThan solver q).run s = .ok (some none, { s with cache := s.cache.insert less none key }) := by
  unfold getAssignment
  rw [run_bind_ok hl]
  dsimp only
  rw [hsolve]
  rfl

end CexCachingSolver

open Classical in
/-- The solver that looks at all assignments. -/
noncomputable def exactValues (Γ : Set Assignment) : ValuesSolver where
  computeInitialValues q objects :=
    some (if h : ∃ σ, q.Falsifies Γ σ then some (objects.map (Array.bytes h.choose)) else none)

theorem exactValues_exact (Γ : Set Assignment) : (exactValues Γ).Exact Γ := by
  intro q objects
  refine ⟨_, rfl, fun values hv => ?_, fun hn => ?_⟩
  · split at hv
    · grind
    · cases hv
  · split at hn
    · cases hn
    · rename_i h
      exact valid_iff.2 fun σ hσ => h ⟨σ, hσ⟩

namespace CexCachingSolver

/-! ## Runs -/

/-- The byte is the number. -/
def byteIs (n : Nat) : Expr := .cmp .eq (.const n 8) (symbolicByte 0 "x")

theorem byteIs_usable (n : Nat) : Usable (byteIs n) where
  width := rfl
  ok := ⟨Nat.zero_lt_succ 7, symbolicByte_ok trivial, rfl⟩
  inBounds σ _ := ⟨Nat.zero_lt_succ 7, symbolicByte_inBounds σ 0 "x", rfl⟩

theorem byteIs_narrow (n : Nat) : (byteIs n).Narrow :=
  ⟨show 1 ≤ 64 by decide, ⟨show 8 ≤ 64 by decide, trivial⟩, symbolicByte_narrow 0 "x"⟩

theorem byteIs_holds {n : Nat} : (byteIs n).Holds σ ↔ σ (byteArray 0 "x") 0 = BitVec.ofNat 8 n := by
  rw [Expr.Holds, byteIs, Expr.const, APInt.ofNat, Expr.eval_eq_constant]
  have hread : (symbolicByte 0 "x").eval σ 8 = σ (byteArray 0 "x") 0 := rfl
  rw [hread]
  have hb : ∀ b : Bool, BitVec.ofBool b = 1#1 ↔ b = true := by decide
  exact (hb _).trans (beq_iff_eq.trans eq_comm)

/-- With the byte five: is it six? -/
def sixGivenFive : Query := ⟨[byteIs 5], byteIs 6⟩

theorem sixGivenFive_proper : Proper sixGivenFive :=
  ⟨forall_mem_singleton.2 (byteIs_usable 5), byteIs_usable 6⟩

theorem five_mem_models : (fun a i => if i < a.size then 5 else 0 : Assignment) ∈ Models boundedAssignments [byteIs 5] := by
  refine ⟨fun a i hi => if_neg (Nat.not_lt.2 hi), forall_mem_singleton.2 (byteIs_holds.2 rfl)⟩

theorem sixGivenFive_refuted : sixGivenFive.Refuted boundedAssignments := by
  intro σ hσ h6
  have h5 := byteIs_holds.1 (hσ.2 (byteIs 5) mem_cons_self)
  rw [byteIs_holds.1 h6] at h5
  exact absurd h5 (by decide)

/-- The negation of the query is asked for, and a value of the byte. -/
theorem run_right_sixGivenFive :
    let asks : List Ask := [.truth sixGivenFive.negateExpr, .assignment sixGivenFive, .value ⟨[byteIs 5], symbolicByte 0 "x"⟩]
    ∃ answers, run ⟨false, true⟩ CachingSolver.kindLess (fun _ _ => false) (exactValues boundedAssignments) asks =
        .ok answers ∧
      List.Forall₂ (fun a r => ∃ answer, r = some answer ∧ Right a answer) asks answers := by
  refine run_right (exactValues_exact _) ?_
  have hproper := sixGivenFive_proper
  have h5 := forall_mem_singleton.2 (byteIs_narrow 5)
  have hneg : sixGivenFive.negateExpr.expr.Narrow :=
    ⟨by decide, ⟨by decide, trivial⟩, byteIs_narrow 6⟩
  refine forall_mem_cons.2 ⟨⟨⟨hproper.negateExpr, fun _ hr => ?_⟩, forall_mem_cons.2 ⟨hneg, h5⟩⟩, ?_⟩
  · rw [Query.negateExpr_refuted hproper.expr.ok.wf rfl] at hr
    exact sixGivenFive_refuted.not_valid ⟨_, five_mem_models⟩ hr
  refine forall_mem_cons.2 ⟨⟨hproper, forall_mem_cons.2 ⟨byteIs_narrow 6, h5⟩⟩, forall_mem_singleton.2 ⟨?_, ?_⟩⟩
  · refine ⟨hproper.constraints, symbolicByte_ok trivial, ⟨_, five_mem_models⟩, fun σ _ => ?_⟩
    exact ⟨⟨trivial, trivial⟩, trivial, trivial⟩
  · exact forall_mem_cons.2 ⟨(byteIs_narrow 5).2.2, h5⟩

/-- With the experimental option: after the negation was found valid, the query has the failure for an answer. -/
theorem run_experimental : (exactValues boundedAssignments).Exact boundedAssignments ∧ Proper sixGivenFive ∧
    (Models boundedAssignments sixGivenFive.constraints).Nonempty ∧ Right (.truth sixGivenFive) (.truth false) ∧
    run ⟨false, true⟩ CachingSolver.kindLess (fun _ _ => false) (exactValues boundedAssignments)
      [.truth sixGivenFive.negateExpr, .truth sixGivenFive] = .ok [some (.truth true), none] := by
  have hproper := sixGivenFive_proper
  have hnot : ¬ sixGivenFive.Valid boundedAssignments := sixGivenFive_refuted.not_valid ⟨_, five_mem_models⟩
  refine ⟨exactValues_exact _, hproper, ⟨_, five_mem_models⟩, ⟨fun h => (nomatch h), fun h => absurd h hnot⟩, ?_⟩
  have hsolve : (exactValues boundedAssignments).computeInitialValues sixGivenFive.negateExpr
      (findSymbolicObjects [byteIs 5, byteIs 6]) = some none := by
    refine congrArg some (dif_neg fun ⟨σ, hσ⟩ => ?_)
    exact Query.valid_iff.1 ((Query.negateExpr_valid hproper.expr.ok.wf rfl _).2 sixGivenFive_refuted) σ hσ
  have hget : (getAssignment ⟨false, true⟩ CachingSolver.kindLess (fun _ _ => false) (exactValues boundedAssignments)
      sixGivenFive.negateExpr).run ⟨.empty, []⟩ = .ok (some none,
        ⟨.insert CachingSolver.kindLess none [byteIs 5, byteIs 6] .empty, []⟩) := getAssignment_run_none rfl hsolve
  generalize exactValues boundedAssignments = solver at hget ⊢
  have hfirst : (computeTruth ⟨false, true⟩ CachingSolver.kindLess (fun _ _ => false) solver
      sixGivenFive.negateExpr).run ⟨.empty, []⟩ = .ok (some true,
        ⟨.insert CachingSolver.kindLess none [byteIs 5, byteIs 6] .empty, []⟩) := by
    unfold computeTruth
    rw [run_bind_ok (show (knownRefuted ⟨false, true⟩ CachingSolver.kindLess sixGivenFive.negateExpr).run ⟨.empty, []⟩ =
      .ok (false, ⟨.empty, []⟩) from rfl)]
    show (getAssignment _ _ _ _ _ >>= _).run _ = _
    rw [run_bind_ok hget]
    rfl
  -- the entry stored for the first query answers the lookup of the second
  have hsecond : (computeTruth ⟨false, true⟩ CachingSolver.kindLess (fun _ _ => false) solver sixGivenFive).run
      ⟨.insert CachingSolver.kindLess none [byteIs 5, byteIs 6] .empty, []⟩ = .ok (none,
        ⟨.insert CachingSolver.kindLess none [byteIs 5, byteIs 6] .empty, []⟩) := rfl
  unfold run
  simp only [mapM_cons, mapM_nil, ask, bind_assoc, pure_bind]
  rw [run_bind_ok hfirst, run_bind_ok hsecond]
  rfl

end CexCachingSolver

end S2E.Klee
