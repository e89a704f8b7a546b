import S2E.Klee.ADT.ImmutableTree
import S2E.Klee.Expr.Denotes
import S2E.Klee.Solver.GetRange
import S2E.Lib.Triple

/-!
# `AddressSpace::resolve` and `resolveOne`

The objects that a pointer may point into. The objects are in a map, by their addresses (`Bound`). For a pointer that is
no constant the search starts at an example of its value and goes down, then up, until the solver says that the pointer is
on this side of all that is left.

* `getBoundsCheckPointer` : the condition that a pointer is in an object. An object of size 0 has its own address;
* `resolveOne`, `resolve` : the source;
* `May V`, `Must V` : an object has one, or all, of the values `V` of the pointer.
-/

namespace S2E.Klee.Resolution

open Lib List Option
open Query (exists_values forall_values values)
open BitVec (toNat_setWidth_of_le toNat_inj lt_def toNat_ofNat ofNat isLt toNat)

structure MemoryObject where
  address : BitVec 64
  size : BitVec 32
deriving DecidableEq

/-- `SolverImpl` with the query for a value. -/
structure TimingSolver extends SolverImpl where
  computeValue : Query → Option APInt

/-- The solver is right, also about a value that the expression may have. -/
structure TimingSolver.Exact (Γ : Set Assignment) (solver : TimingSolver) : Prop where
  truth : solver.toSolverImpl.Exact Γ
  value : ∀ q, (Models Γ q.constraints).Nonempty →
    ∃ σ ∈ Models Γ q.constraints, solver.computeValue q = some ⟨q.expr.getWidth, q.expr.value σ⟩

def TimingSolver.getValue (solver : TimingSolver) (q : Query) : Option APInt :=
  match q.expr with
  | .constant c => some c
  | _ => solver.computeValue q

section Code

variable [Options] (pointerWidth : Nat)

namespace MemoryObject

variable (mo : MemoryObject)

omit [Options] in
def getBaseExpr : Except Trap Expr := ConstantExpr.create mo.address pointerWidth

omit [Options] in
def getSizeExpr : Except Trap Expr := ConstantExpr.create (mo.size.setWidth 64) pointerWidth

def getOffsetExpr (pointer : Expr) : Except Trap Expr := do
  let base ← mo.getBaseExpr pointerWidth
  return SubExpr.create pointer base

def getBoundsCheckOffset (offset : Expr) : Except Trap Expr :=
  if mo.size = 0 then return EqExpr.create offset (.const 0 pointerWidth)
  else do
    let size ← mo.getSizeExpr pointerWidth
    return UltExpr.create offset size

def getBoundsCheckPointer (pointer : Expr) : Except Trap Expr := do
  let offset ← mo.getOffsetExpr pointerWidth pointer
  mo.getBoundsCheckOffset pointerWidth offset

end MemoryObject

variable {O : Type}

section

variable (objects : List (MemoryObject × O)) (address : BitVec 64)

omit [Options] in
/-- What is below `upper_bound` in the map. -/
def before : List (MemoryObject × O) :=
  objects.takeWhile fun e => e.1.address ≤ address

omit [Options] in
/-- What is from `upper_bound` on. -/
def after : List (MemoryObject × O) :=
  objects.dropWhile fun e => e.1.address ≤ address

omit [Options] in
def lookupPrevious : Option (MemoryObject × O) :=
  (before objects address).getLast?

omit [Options] in
/-- `resolveOne` for a constant. -/
def resolveOneAt : Option (MemoryObject × O) :=
  match lookupPrevious objects address with
  | some (mo, os) =>
    if mo.size = 0 ∧ address = mo.address ∨ address - mo.address < mo.size.setWidth 64 then some (mo, os) else none
  | none => none

omit [Options] in
/-- The cheap search. -/
def resolveExample : Option (MemoryObject × O) :=
  match lookupPrevious objects address with
  | some (mo, os) => if address - mo.address < mo.size.setWidth 64 then some (mo, os) else none
  | none => none

end

variable (solver : TimingSolver) (constraints : List Expr) (p : Expr)

/-- The search backwards of `resolveOne`. The solver fails (`none`), an object is found, or the loop is left. -/
def findBackwards : List (MemoryObject × O) → Except Trap (Option (Option (MemoryObject × O)))
  | [] => return some none
  | (mo, os) :: rest => do
    let inBounds ← mo.getBoundsCheckPointer pointerWidth p
    match ← solver.mayBeTrue ⟨constraints, inBounds⟩ with
    | none => return none
    | some true => return some (some (mo, os))
    | some false => do
      let base ← mo.getBaseExpr pointerWidth
      match ← solver.mustBeTrue ⟨constraints, UgeExpr.create p base⟩ with
      | none => return none
      | some true => return some none
      | some false => findBackwards rest

def findForwards : List (MemoryObject × O) → Except Trap (Option (Option (MemoryObject × O)))
  | [] => return some none
  | (mo, os) :: rest => do
    let base ← mo.getBaseExpr pointerWidth
    match ← solver.mustBeTrue ⟨constraints, UltExpr.create p base⟩ with
    | none => return none
    | some true => return some none
    | some false => do
      let inBounds ← mo.getBoundsCheckPointer pointerWidth p
      match ← solver.mayBeTrue ⟨constraints, inBounds⟩ with
      | none => return none
      | some true => return some (some (mo, os))
      | some false => findForwards rest

/-- `resolveOne`. The result is `none` if the solver fails, and otherwise has the object if there is success. -/
def resolveOne (objects : List (MemoryObject × O)) : Except Trap (Option (Option (MemoryObject × O))) :=
  match p with
  | .constant c => return some (resolveOneAt objects (c.bits.setWidth 64))
  | p =>
    match solver.getValue ⟨constraints, p⟩ with
    | none => return none
    | some cex =>
      let address := cex.bits.setWidth 64
      match resolveExample objects address with
      | some e => return some (some e)
      | none => do
        match ← findBackwards pointerWidth solver constraints p (before objects address).reverse with
        | none => return none
        | some (some e) => return some (some e)
        | some none => findForwards pointerWidth solver constraints p (after objects address)

/-- `resolve` has returned, or it is still searching and has found `rl`. -/
inductive Progress (O : Type)
  | returned (incomplete : Bool) (rl : List (MemoryObject × O))
  | searching (rl : List (MemoryObject × O))

/-- The part of a round that both loops have: the object is added if the pointer may be in it. -/
def addResolution (maxResolutions : Nat) (rl : List (MemoryObject × O)) (e : MemoryObject × O) :
    Except Trap (Progress O) := do
  let inBounds ← e.1.getBoundsCheckPointer pointerWidth p
  match ← solver.mayBeTrue ⟨constraints, inBounds⟩ with
  | none => return .returned true rl
  | some false => return .searching rl
  | some true =>
    let rl := rl ++ [e]
    -- fast path check
    if rl.length = 1 then do
      match ← solver.mustBeTrue ⟨constraints, inBounds⟩ with
      | none => return .returned true rl
      | some true => return .returned false rl
      | some false => return .searching rl
    else if rl.length = maxResolutions then return .returned true rl
    else return .searching rl

/-- `timeout_us && timeout_us < timer.check()`, where `clock n` is the time at the `n`-th check. -/
def timedOut (timeout : Nat) (clock : Nat → Nat) (checks : Nat) : Bool := timeout != 0 && decide (timeout < clock checks)

variable (maxResolutions timeout : Nat) (clock : Nat → Nat)

def searchBackwards : Nat → List (MemoryObject × O) → List (MemoryObject × O) → Except Trap (Progress O)
  | _, rl, [] => return .searching rl
  | checks, rl, e :: rest =>
    if timedOut timeout clock checks then return .returned true rl
    else do
      match ← addResolution pointerWidth solver constraints p maxResolutions rl e with
      | .returned incomplete rl => return .returned incomplete rl
      | .searching rl => do
        let base ← e.1.getBaseExpr pointerWidth
        match ← solver.mustBeTrue ⟨constraints, UgeExpr.create p base⟩ with
        | none => return .returned true rl
        | some true => return .searching rl
        | some false => searchBackwards (checks + 1) rl rest

def searchForwards : Nat → List (MemoryObject × O) → List (MemoryObject × O) → Except Trap (Progress O)
  | _, rl, [] => return .searching rl
  | checks, rl, e :: rest =>
    if timedOut timeout clock checks then return .returned true rl
    else do
      let base ← e.1.getBaseExpr pointerWidth
      match ← solver.mustBeTrue ⟨constraints, UltExpr.create p base⟩ with
      | none => return .returned true rl
      | some true => return .searching rl
      | some false => do
        match ← addResolution pointerWidth solver constraints p maxResolutions rl e with
        | .returned incomplete rl => return .returned incomplete rl
        | .searching rl => searchForwards (checks + 1) rl rest

/-- `resolve`: whether the list is incomplete, and the list. -/
def resolve (objects : List (MemoryObject × O)) : Except Trap (Bool × List (MemoryObject × O)) :=
  match p with
  | .constant c => return (false, (resolveOneAt objects (c.bits.setWidth 64)).toList)
  | p =>
    match solver.getValue ⟨constraints, p⟩ with
    | none => return (true, [])
    | some cex => do
      let address := cex.bits.setWidth 64
      match ← searchBackwards pointerWidth solver constraints p maxResolutions timeout clock 0 []
          (before objects address).reverse with
      | .returned incomplete rl => return (incomplete, rl)
      | .searching rl => do
        match ← searchForwards pointerWidth solver constraints p maxResolutions timeout clock
            (before objects address).length rl (after objects address) with
        | .returned incomplete rl => return (incomplete, rl)
        | .searching rl => return (false, rl)

end Code

/-! ## Addresses -/

namespace MemoryObject

variable {mo mo' : MemoryObject} {a : Nat} {pointerWidth : Nat}

/-- The addresses of an object. -/
def Contains (mo : MemoryObject) (a : Nat) : Prop :=
  a = mo.address.toNat ∨ mo.address.toNat ≤ a ∧ a < mo.address.toNat + mo.size.toNat

/-- The object lies in the memory that a pointer can reach. -/
def Within (pointerWidth : Nat) (mo : MemoryObject) : Prop :=
  mo.address.toNat < 2 ^ pointerWidth ∧ mo.address.toNat + mo.size.toNat ≤ 2 ^ pointerWidth

/-- One object is before another one. -/
def Before (mo mo' : MemoryObject) : Prop :=
  mo.address.toNat < mo'.address.toNat ∧ mo.address.toNat + mo.size.toNat ≤ mo'.address.toNat

theorem Contains.le (h : mo.Contains a) : mo.address.toNat ≤ a := by
  rcases h with h | h <;> omega

theorem Before.lt (h : mo.Before mo') (ha : mo.Contains a) : a < mo'.address.toNat := by
  obtain ⟨h₁, h₂⟩ := h
  rcases ha with ha | ha <;> omega

theorem Before.not_contains (h : mo.Before mo') (ha : mo.Contains a) : ¬ mo'.Contains a := fun ha' =>
  absurd ha'.le (Nat.not_le.mpr (h.lt ha))

theorem before_of_disjoint (hlt : mo.address < mo'.address) (hdis : ∀ a, mo.Contains a → ¬ mo'.Contains a) :
    mo.Before mo' := by
  have hlt : mo.address.toNat < mo'.address.toNat := hlt
  refine ⟨hlt, ?_⟩
  by_contra hover
  exact hdis mo'.address.toNat (.inr ⟨hlt.le, by omega⟩) (.inl rfl)

theorem sub_lt_iff {address : BitVec 64} (hle : mo.address ≤ address) :
    mo.size = 0 ∧ address = mo.address ∨ address - mo.address < mo.size.setWidth 64 ↔ mo.Contains address.toNat := by
  have hle : mo.address.toNat ≤ address.toNat := hle
  have hsize : (mo.size.setWidth 64).toNat = mo.size.toNat :=
    toNat_setWidth_of_le (by decide)
  have hzero : mo.size = 0 ↔ mo.size.toNat = 0 := by rw [← toNat_inj]; rfl
  have heq : address = mo.address ↔ address.toNat = mo.address.toNat := by rw [← toNat_inj]
  rw [lt_def, BitVec.toNat_sub_of_le hle, hsize, hzero, heq, Contains]
  omega

end MemoryObject

open MemoryObject

/-! ## The map -/

section Map

variable {O : Type} {e : MemoryObject × O} {objects : List (MemoryObject × O)} {address : BitVec 64}

/-- The entries of the map, in order. -/
def Ordered (objects : List (MemoryObject × O)) : Prop := objects.Pairwise fun e e' => e.1.Before e'.1

/-- In the order in which they are looked at. -/
theorem before_reverse_append_after_perm (objects : List (MemoryObject × O)) (address : BitVec 64) :
    ((before objects address).reverse ++ after objects address).Perm objects := by
  have hsplit : before objects address ++ after objects address = objects := takeWhile_append_dropWhile
  exact ((reverse_perm _).append_right _).trans (.of_eq hsplit)

theorem mem_before_or_after : e ∈ objects ↔ e ∈ (before objects address).reverse ∨ e ∈ after objects address := by
  rw [← (before_reverse_append_after_perm objects address).mem_iff, mem_append]

theorem lookupPrevious_mem (h : lookupPrevious objects address = some e) : e ∈ objects ∧ e.1.address ≤ address := by
  have hmem : e ∈ before objects address := mem_of_getLast? h
  exact ⟨(takeWhile_sublist _).subset hmem, of_decide_eq_true (all_eq_true.mp all_takeWhile e hmem)⟩

section

variable (h : Ordered objects)

include h

theorem Ordered.pairwise_before (address : BitVec 64) :
    (before objects address).reverse.Pairwise fun e e' => e'.1.Before e.1 :=
  pairwise_reverse.mpr (h.sublist (takeWhile_sublist _))

theorem Ordered.pairwise_after (address : BitVec 64) : (after objects address).Pairwise fun e e' => e.1.Before e'.1 :=
  h.sublist (dropWhile_sublist _)

theorem Ordered.nodup : objects.Nodup := h.imp fun hb heq => hb.1.ne (congrArg (·.1.address.toNat) heq)

theorem Ordered.before_or_eq {e' : MemoryObject × O} (he : e ∈ objects) (he' : e' ∈ objects) :
    e.1.Before e'.1 ∨ e = e' ∨ e'.1.Before e.1 :=
  Pairwise.forall_of_forall_of_flip (R := fun e e' => e.1.Before e'.1 ∨ e = e' ∨ e'.1.Before e.1)
    (fun _ _ => .inr (.inl rfl)) (h.imp .inl) (h.imp fun hb => .inr (.inr hb)) he he'

theorem Ordered.eq_of_contains {e' : MemoryObject × O} {a : Nat} (he : e ∈ objects)
    (he' : e' ∈ objects) (ha : e.1.Contains a) (ha' : e'.1.Contains a) : e = e' := by
  rcases h.before_or_eq he he' with hb | heq | hb
  · exact absurd ha' (hb.not_contains ha)
  · exact heq
  · exact absurd ha (hb.not_contains ha')

theorem Ordered.lookupPrevious_eq_getLast (address : BitVec 64) :
    lookupPrevious objects address = (objects.filter (·.1.address.toNat ≤ address.toNat)).getLast? := by
  rw [← ImmutableTree.takeWhile_eq_filter (h.imp And.left)]
  rfl

/-- The object of an address is the last one that does not start after it. -/
theorem Ordered.lookupPrevious_eq (he : e ∈ objects)
    (ha : e.1.Contains address.toNat) : lookupPrevious objects address = some e := by
  rw [h.lookupPrevious_eq_getLast, ImmutableTree.getLast?_filter (h.imp And.left)]
  refine ⟨he, ha.le, fun x hx hle => ?_⟩
  rcases h.before_or_eq he hx with hb | rfl | hb
  · exact absurd hle (Nat.not_le.mpr (hb.lt ha))
  · exact le_rfl
  · exact hb.1.le

/-- A constant address is resolved to the object that has it. -/
theorem Ordered.resolveOneAt_eq_some_iff :
    resolveOneAt objects address = some e ↔ e ∈ objects ∧ e.1.Contains address.toNat := by
  constructor
  · intro hres
    unfold resolveOneAt at hres
    cases hprev : lookupPrevious objects address with
    | none => simp [hprev] at hres
    | some e' =>
      obtain ⟨hmem, hle⟩ := lookupPrevious_mem hprev
      simp only [hprev, sub_lt_iff hle, ite_none_right_eq_some, some.injEq] at hres
      obtain ⟨hc, rfl⟩ := hres
      exact ⟨hmem, hc⟩
  · rintro ⟨he, ha⟩
    have hprev := h.lookupPrevious_eq he ha
    obtain ⟨_, hle⟩ := lookupPrevious_mem hprev
    rw [resolveOneAt, hprev]
    exact if_pos ((sub_lt_iff hle).mpr ha)

end

theorem resolveExample_contains (h : resolveExample objects address = some e) :
    e ∈ objects ∧ e.1.Contains address.toNat := by
  unfold resolveExample at h
  cases hprev : lookupPrevious objects address with
  | none => simp [hprev] at h
  | some e' =>
    obtain ⟨hmem, hle⟩ := lookupPrevious_mem hprev
    simp only [hprev, ite_none_right_eq_some, some.injEq] at h
    obtain ⟨hc, rfl⟩ := h
    exact ⟨hmem, (sub_lt_iff hle).mp (.inr hc)⟩

/-- `MemoryObjectLT`. -/
def key (e : MemoryObject × O) : Nat := e.1.address.toNat

/-- The maps that are built with objects that have no address of those that are bound elsewhere. -/
inductive Bound : ImmutableTree (MemoryObject × O) → Prop
  | empty : Bound .terminator
  | bindObject {t e} : Bound t → (∀ e' ∈ t.toList, key e' ≠ key e → ∀ a, e'.1.Contains a → ¬ e.1.Contains a) →
    Bound (t.replace key e)
  | unbindObject {t} {e : MemoryObject × O} : Bound t → Bound (t.remove key (key e))

variable {t : ImmutableTree (MemoryObject × O)}

theorem Bound.disjoint (h : Bound t) : t.Ordered key ∧ ∀ e ∈ t.toList, ∀ e' ∈ t.toList,
    key e ≠ key e' → ∀ a, e.1.Contains a → ¬ e'.1.Contains a := by
  induction h with
  | empty => exact ⟨.nil, nofun⟩
  | bindObject _ hnew ih =>
    refine ⟨ih.1.replace _, ?_⟩
    simp only [ImmutableTree.mem_replace ih.1]
    rintro e (rfl | ⟨he, hne⟩) e' (rfl | ⟨he', hne'⟩) hkey
    · exact absurd rfl hkey
    · exact fun a ha ha' => hnew e' he' hne' a ha' ha
    · exact hnew e he hne
    · exact ih.2 e he e' he' hkey
  | unbindObject _ ih =>
    refine ⟨ih.1.remove _, ?_⟩
    simp only [ImmutableTree.mem_remove ih.1]
    exact fun e he e' he' => ih.2 e he.1 e' he'.1

/-- The objects of the tree are in the order that the searches need, and its `lookup_previous` is that of the list. -/
theorem lookupPrevious_bound (h : Bound t) : Ordered t.toList ∧ ∀ address : BitVec 64,
    t.lookupPrevious key address.toNat = lookupPrevious t.toList address := by
  obtain ⟨hord, hdis⟩ := h.disjoint
  have hobjects : Ordered t.toList := hord.imp_of_mem fun he he' hlt => before_of_disjoint hlt (hdis _ he _ he' hlt.ne)
  refine ⟨hobjects, fun address => ?_⟩
  rw [hobjects.lookupPrevious_eq_getLast, ImmutableTree.lookupPrevious_eq _ hord]
  rfl

end Map

/-! ## The questions to the solver -/

theorem sub_mod_lt_iff {M b v s : Nat} (hb : b < M) (hv : v < M) (hs : b + s ≤ M) :
    (M - b + v) % M < s ↔ b ≤ v ∧ v < b + s := by
  by_cases hle : b ≤ v
  · rw [show M - b + v = v - b + M by omega, Nat.add_mod_right, Nat.mod_eq_of_lt (by omega)]
    omega
  · rw [Nat.mod_eq_of_lt (by omega)]
    omega

section Queries

variable [Options] {pointerWidth : Nat} {mo : MemoryObject} {p : Expr} {σ : Assignment}

/-- What a comparison says, under an assignment that keeps the reads of its operands in bounds. -/
theorem create_holds (k : CmpKind) {l r : Expr} (h : (Expr.cmp k l r).InBounds σ) :
    (k.create l r).Holds σ ↔ k.eval (l.value σ) (r.eval σ l.getWidth) = true := by
  rw [Expr.Holds, (CmpKind.create_simplifies k h.wf).eval_at (w := 1) h rfl, Expr.eval_cmp rfl]
  cases k.eval (l.value σ) (r.eval σ l.getWidth) <;> decide

theorem eq_const_holds {e : Expr} (he : e.InBounds σ) {v w : Nat} (hw : e.getWidth = w) (hv : v < 2 ^ w) :
    (EqExpr.create e (.const v w)).Holds σ ↔ (e.eval σ w).toNat = v := by
  subst hw
  refine (create_holds .eq (cmp_const_ok .eq he v)).trans ?_
  rw [eval_const, CmpKind.eval, beq_iff_eq, ← toNat_inj, toNat_ofNat, Nat.mod_eq_of_lt hv]

theorem ult_const_holds {e : Expr} (he : e.InBounds σ) {v w : Nat} (hw : e.getWidth = w) (hv : v < 2 ^ w) :
    (UltExpr.create e (.const v w)).Holds σ ↔ (e.eval σ w).toNat < v := by
  subst hw
  refine (create_holds .ult (cmp_const_ok .ult he v)).trans ?_
  rw [eval_const, CmpKind.eval, BitVec.ult_iff_lt, lt_def, toNat_ofNat, Nat.mod_eq_of_lt hv]

theorem uge_const_holds {e : Expr} (he : e.InBounds σ) {v w : Nat} (hw : e.getWidth = w) (hv : v < 2 ^ w) :
    (UgeExpr.create e (.const v w)).Holds σ ↔ v ≤ (e.eval σ w).toNat := by
  subst hw
  refine (create_holds .uge (cmp_const_ok .uge he v)).trans ?_
  rw [eval_const, CmpKind.eval, BitVec.ule_iff_le, BitVec.le_def, toNat_ofNat, Nat.mod_eq_of_lt hv]

/-- The width of a pointer. -/
structure PointerWidth (pointerWidth : Nat) : Prop where
  size_le : 32 ≤ pointerWidth
  le : pointerWidth ≤ 64

variable (hw : PointerWidth pointerWidth) (hmo : mo.Within pointerWidth)

include hw hmo

omit [Options] in
theorem getBaseExpr_eq : mo.getBaseExpr pointerWidth = .ok (.const mo.address.toNat pointerWidth) :=
  ConstantExpr.create_ok (by have := hw.size_le; omega) hw.le hmo.1

omit [Options] hmo in
theorem getSizeExpr_eq : mo.getSizeExpr pointerWidth = .ok (.const mo.size.toNat pointerWidth) := by
  have hsize : (mo.size.setWidth 64).toNat = mo.size.toNat :=
    toNat_setWidth_of_le (by decide)
  rw [getSizeExpr, ConstantExpr.create_ok (by have := hw.size_le; omega) hw.le, hsize]
  rw [hsize]
  exact mo.size.isLt.trans_le (Nat.pow_le_pow_right Nat.two_pos hw.size_le)

theorem getOffsetExpr_denotes (hp : p.WF) (hpw : p.getWidth = pointerWidth) :
    ∃ e, mo.getOffsetExpr pointerWidth p = .ok e ∧ e.WF ∧ e.getWidth = pointerWidth ∧
      ∀ σ, p.InBounds σ → e.Denotes σ (p.eval σ pointerWidth - ofNat pointerWidth mo.address.toNat) := by
  have hpos : 0 < pointerWidth := hpw ▸ Expr.width_pos p hp
  have hok : (Expr.bin .sub p (.const mo.address.toNat pointerWidth)).WF := ⟨hp, hpos, hpw.symm, fun h => nomatch h⟩
  have hs := SubExpr.create_simplifies p (.const mo.address.toNat pointerWidth) hok
  refine ⟨SubExpr.create p (.const mo.address.toNat pointerWidth), ?_, hs.wf hok, hs.width.trans hpw, fun σ hσ => ?_⟩
  · rw [getOffsetExpr, getBaseExpr_eq hw hmo]
    rfl
  · exact SubExpr.create_denotes ⟨hσ, hpw, rfl⟩ (Expr.denotes_const σ _ hpos)

theorem getBoundsCheckPointer_holds (hp : p.WF) (hpw : p.getWidth = pointerWidth) :
    ∃ c, mo.getBoundsCheckPointer pointerWidth p = .ok c ∧ c.WF ∧ c.getWidth = 1 ∧
      ∀ σ, p.InBounds σ → (c.Holds σ ↔ mo.Contains (p.value σ).toNat) := by
  subst hpw
  obtain ⟨e, heq, he, hew, hden⟩ := getOffsetExpr_denotes hw hmo hp rfl
  have hpos := Expr.width_pos p hp
  obtain ⟨hlt, hle⟩ := hmo
  -- the offset, as a number
  have hoff : ∀ σ, p.InBounds σ → ∀ {s : Nat}, mo.address.toNat + s ≤ 2 ^ p.getWidth →
      ((e.eval σ p.getWidth).toNat < s ↔ mo.address.toNat ≤ (p.value σ).toNat ∧
        (p.value σ).toNat < mo.address.toNat + s) := by
    intro σ hσ s hs
    rw [(hden σ hσ).eval, BitVec.toNat_sub, toNat_ofNat, Nat.mod_eq_of_lt hlt]
    exact sub_mod_lt_iff hlt (isLt _) hs
  have hwf : ∀ k v, (Expr.cmp k e (.const v p.getWidth)).WF := fun k v => ⟨he, hpos, hew.symm⟩
  unfold getBoundsCheckPointer getBoundsCheckOffset
  rw [heq]
  by_cases hsize : mo.size = 0
  · refine ⟨EqExpr.create e (.const 0 p.getWidth), ?_, (EqExpr.create_simplifies (hwf _ _)).wf (hwf _ _),
      (EqExpr.create_simplifies (hwf .eq _)).width, fun σ hσ => ?_⟩
    · show (if mo.size = 0 then _ else _) = _
      rw [if_pos hsize]
      rfl
    · rw [eq_const_holds (hden σ hσ).inBounds hew (Nat.two_pow_pos _), ← Nat.lt_one_iff, hoff σ hσ (by omega), Contains,
        hsize]
      simp only [BitVec.ofNat_eq_ofNat, toNat_ofNat, Nat.zero_mod]
      omega
  · refine ⟨UltExpr.create e (.const mo.size.toNat p.getWidth), ?_,
      (CmpKind.create_simplifies .ult (hwf _ _)).wf (hwf _ _), (CmpKind.create_simplifies .ult (hwf .ult _)).width,
      fun σ hσ => ?_⟩
    · show (if mo.size = 0 then _ else _) = _
      rw [if_neg hsize, getSizeExpr_eq hw]
      rfl
    · have hfits : mo.size.toNat < 2 ^ p.getWidth :=
        mo.size.isLt.trans_le (Nat.pow_le_pow_right Nat.two_pos hw.size_le)
      have hne : mo.size.toNat ≠ 0 := fun h => hsize (BitVec.eq_of_toNat_eq h)
      rw [ult_const_holds (hden σ hσ).inBounds hew hfits, hoff σ hσ hle, Contains]
      omega

end Queries

/-! ## Values of the pointer -/

/-- The object has one of the values. -/
def May (V : Set Nat) (mo : MemoryObject) : Prop := ∃ v ∈ V, mo.Contains v

/-- It has them all. -/
def Must (V : Set Nat) (mo : MemoryObject) : Prop := ∀ v ∈ V, mo.Contains v

section Search

variable [Options] {Γ : Set Assignment} {solver : TimingSolver} {constraints : List Expr} {p : Expr} {pointerWidth : Nat}
  {mo : MemoryObject} {O : Type}

/-- What the results are proved for: an exact solver, a satisfiable path condition, and a pointer. -/
structure Setting (Γ : Set Assignment) (solver : TimingSolver) (constraints : List Expr) (p : Expr) (pointerWidth : Nat) :
    Prop where
  width : PointerWidth pointerWidth
  exact : solver.Exact Γ
  sat : (Models Γ constraints).Nonempty
  inBounds : ∀ σ ∈ Models Γ constraints, p.InBounds σ
  getWidth : p.getWidth = pointerWidth

variable (h : Setting Γ solver constraints p pointerWidth)

include h

theorem Setting.wf : p.WF := by
  obtain ⟨σ, hσ⟩ := h.sat
  exact (h.inBounds σ hσ).wf

section

variable (hmo : mo.Within pointerWidth)

include hmo

theorem Setting.bounds : ∃ c, mo.getBoundsCheckPointer pointerWidth p = .ok c ∧
    (∃ b, solver.mayBeTrue ⟨constraints, c⟩ = .ok (some b) ∧ (b = true ↔ May (values Γ ⟨constraints, p⟩) mo)) ∧
    ∃ b, solver.mustBeTrue ⟨constraints, c⟩ = .ok (some b) ∧ (b = true ↔ Must (values Γ ⟨constraints, p⟩) mo) := by
  obtain ⟨c, hc, hcwf, hcw, hholds⟩ := getBoundsCheckPointer_holds h.width hmo h.wf h.getWidth
  obtain ⟨b, hb, hbiff⟩ := h.exact.truth.mayBeTrue (q := ⟨constraints, c⟩) h.sat hcwf hcw
  obtain ⟨b', hb', hbiff'⟩ := h.exact.truth.mustBeTrue (q := ⟨constraints, c⟩) h.sat hcw
  refine ⟨c, hc, ⟨b, hb, hbiff.trans ?_⟩, b', hb', hbiff'.trans ?_⟩
  · rw [May, exists_values]
    exact exists_congr fun σ => and_congr_right fun hσ => hholds σ (h.inBounds σ hσ)
  · rw [Must, forall_values]
    exact forall₂_congr fun σ hσ => hholds σ (h.inBounds σ hσ)

theorem Setting.compare (k : CmpKind) {R : Nat → Prop}
    (hR : ∀ σ, p.InBounds σ → ((k.create p (.const mo.address.toNat p.getWidth)).Holds σ ↔ R (p.value σ).toNat)) :
    ∃ base, mo.getBaseExpr pointerWidth = .ok base ∧ ∃ b, solver.mustBeTrue ⟨constraints, k.create p base⟩ = .ok (some b) ∧
      (b = true ↔ ∀ v ∈ values Γ ⟨constraints, p⟩, R v) := by
  have hw := h.getWidth
  subst hw
  have hcmp := CmpKind.create_simplifies k (cmp_const_ok k h.wf mo.address.toNat)
  obtain ⟨b, hb, hbiff⟩ := h.exact.truth.mustBeTrue
    (q := ⟨constraints, k.create p (.const mo.address.toNat p.getWidth)⟩) h.sat hcmp.width
  refine ⟨_, getBaseExpr_eq h.width hmo, b, hb, hbiff.trans ?_⟩
  rw [forall_values]
  exact forall₂_congr fun σ hσ => hR σ (h.inBounds σ hσ)

theorem Setting.above : ∃ base, mo.getBaseExpr pointerWidth = .ok base ∧
    ∃ b, solver.mustBeTrue ⟨constraints, UgeExpr.create p base⟩ = .ok (some b) ∧
      (b = true ↔ ∀ v ∈ values Γ ⟨constraints, p⟩, mo.address.toNat ≤ v) :=
  h.compare hmo .uge fun _ hσ => uge_const_holds hσ rfl (h.getWidth ▸ hmo.1)

theorem Setting.below : ∃ base, mo.getBaseExpr pointerWidth = .ok base ∧
    ∃ b, solver.mustBeTrue ⟨constraints, UltExpr.create p base⟩ = .ok (some b) ∧
      (b = true ↔ ∀ v ∈ values Γ ⟨constraints, p⟩, v < mo.address.toNat) :=
  h.compare hmo .ult fun _ hσ => ult_const_holds hσ rfl (h.getWidth ▸ hmo.1)

end

/-! ## `resolveOne` -/

/-- What a search for one object in a list returns. -/
def Finds (V : Set Nat) (l : List (MemoryObject × O)) (r : Except Trap (Option (Option (MemoryObject × O)))) : Prop :=
  ∃ o, r = .ok (some o) ∧ (∀ e, o = some e → e ∈ l ∧ May V e.1) ∧ (o = none → ∀ e ∈ l, ¬ May V e.1)

section Finds

omit [Options] h

variable {V : Set Nat} {e : MemoryObject × O} {rest l : List (MemoryObject × O)}
  {r : Except Trap (Option (Option (MemoryObject × O)))}

theorem Finds.found (he : May V e.1) : Finds V (e :: rest) (.ok (some (some e))) := by
  refine ⟨some e, rfl, ?_, by simp⟩
  rintro _ ⟨⟩
  exact ⟨mem_cons_self, he⟩

theorem Finds.nothing (hno : ∀ e ∈ l, ¬ May V e.1) : Finds V l (.ok (some none)) :=
  ⟨none, rfl, by simp, fun _ => hno⟩

theorem Finds.cons (hno : ¬ May V e.1) (hr : Finds V rest r) : Finds V (e :: rest) r := by
  obtain ⟨o, ho, hsome, hnone⟩ := hr
  refine ⟨o, ho, fun e' he' => ⟨mem_cons_of_mem _ (hsome e' he').1, (hsome e' he').2⟩, fun hn e' he' => ?_⟩
  rcases mem_cons.mp he' with rfl | he'
  · exact hno
  · exact hnone hn e' he'

theorem not_may_of_below (hbefore : ∀ e' ∈ rest, e'.1.Before mo) (hV : ∀ v ∈ V, mo.address.toNat ≤ v) :
    ∀ e ∈ rest, ¬ May V e.1 := by
  rintro e he ⟨v, hv, hc⟩
  exact absurd (hV v hv) (Nat.not_le.mpr ((hbefore e he).lt hc))

theorem not_may_of_above (hafter : ∀ e' ∈ rest, mo.Before e'.1) (hV : ∀ v ∈ V, v < mo.address.toNat) :
    ¬ May V mo ∧ ∀ e ∈ rest, ¬ May V e.1 := by
  constructor
  · rintro ⟨v, hv, hc⟩
    exact absurd hc.le (Nat.not_le.mpr (hV v hv))
  · rintro e he ⟨v, hv, hc⟩
    have := hc.le
    have := (hafter e he).1
    have := hV v hv
    omega

end Finds

section

variable {l : List (MemoryObject × O)} (hin : ∀ e ∈ l, e.1.Within pointerWidth)

include hin

theorem findBackwards_finds (hord : l.Pairwise fun e e' => e'.1.Before e.1) :
    Finds (values Γ ⟨constraints, p⟩) l (findBackwards pointerWidth solver constraints p l) := by
  induction l with
  | nil => exact .nothing (by simp)
  | cons e rest ih =>
    obtain ⟨mo, os⟩ := e
    obtain ⟨hfirst, hrest⟩ := pairwise_cons.mp hord
    obtain ⟨hmo, hin⟩ := forall_mem_cons.mp hin
    obtain ⟨c, hc, ⟨may, hmay, hmayiff⟩, -⟩ := h.bounds hmo
    obtain ⟨base, hbase, must, hmust, hmustiff⟩ := h.above hmo
    simp only [findBackwards, hc, hmay, hbase, hmust, ok_bind]
    cases may with
    | true => exact .found (hmayiff.mp rfl)
    | false =>
      have hno : ¬ May (values Γ ⟨constraints, p⟩) mo := fun hmay' => nomatch hmayiff.mpr hmay'
      refine .cons hno ?_
      cases must with
      | true => exact .nothing (not_may_of_below hfirst (hmustiff.mp rfl))
      | false => exact ih hin hrest

theorem findForwards_finds (hord : l.Pairwise fun e e' => e.1.Before e'.1) :
    Finds (values Γ ⟨constraints, p⟩) l (findForwards pointerWidth solver constraints p l) := by
  induction l with
  | nil => exact .nothing (by simp)
  | cons e rest ih =>
    obtain ⟨mo, os⟩ := e
    obtain ⟨hfirst, hrest⟩ := pairwise_cons.mp hord
    obtain ⟨hmo, hin⟩ := forall_mem_cons.mp hin
    obtain ⟨c, hc, ⟨may, hmay, hmayiff⟩, -⟩ := h.bounds hmo
    obtain ⟨base, hbase, must, hmust, hmustiff⟩ := h.below hmo
    simp only [findForwards, hbase, hmust, hc, hmay, ok_bind]
    cases must with
    | true =>
      obtain ⟨hno, hnone⟩ := not_may_of_above hfirst (hmustiff.mp rfl)
      exact .cons hno (.nothing hnone)
    | false =>
      cases may with
      | true => exact .found (hmayiff.mp rfl)
      | false =>
        exact .cons (fun hmay' => nomatch hmayiff.mpr hmay') (ih hin hrest)

/-! ## `resolve` -/

open Classical in
/-- What a search for all objects does: `rl` is followed by those of the list that the pointer may be in, or the first that
is found has all its values. -/
def Lists (V : Set Nat) (rl l : List (MemoryObject × O)) (r : Except Trap (Progress O)) : Prop :=
  r = .ok (.searching (rl ++ l.filter fun e => May V e.1)) ∨
    ∃ e ∈ l, Must V e.1 ∧ r = .ok (.returned false [e])

section Lists

omit [Options] h hin

variable {V : Set Nat} {e : MemoryObject × O} {rl rl' rest l : List (MemoryObject × O)} {r : Except Trap (Progress O)}

theorem Lists.nothing (hno : ∀ e ∈ l, ¬ May V e.1) : Lists V rl l (.ok (.searching rl)) := by
  left
  rw [filter_eq_nil_iff.mpr (by simpa using hno), append_nil]

theorem Lists.skip (hno : ¬ May V e.1) (hr : Lists V rl rest r) : Lists V rl (e :: rest) r := by
  rcases hr with rfl | ⟨e', he', hmust, rfl⟩
  · left
    rw [filter_cons_of_neg (by simpa using hno)]
  · exact .inr ⟨e', mem_cons_of_mem _ he', hmust, rfl⟩

theorem Lists.add (hmay : May V e.1) (hr : Lists V (rl ++ [e]) rest r) : Lists V rl (e :: rest) r := by
  rcases hr with rfl | ⟨e', he', hmust, rfl⟩
  · left
    rw [filter_cons_of_pos (by simpa using hmay), append_assoc, singleton_append]
  · exact .inr ⟨e', mem_cons_of_mem _ he', hmust, rfl⟩

end Lists

omit hin in
/-- An object is looked at: it is added if the pointer may be in it, and if it is the only one so far that the pointer must
be in, the search is over. -/
theorem addResolution_cases {e : MemoryObject × O} (hmo : e.1.Within pointerWidth) (rl : List (MemoryObject × O)) :
    ∃ r, addResolution pointerWidth solver constraints p 0 rl e = .ok r ∧
      (¬ May (values Γ ⟨constraints, p⟩) e.1 ∧ r = .searching rl ∨
        May (values Γ ⟨constraints, p⟩) e.1 ∧ r = .searching (rl ++ [e]) ∨
        Must (values Γ ⟨constraints, p⟩) e.1 ∧ r = .returned false [e]) := by
  obtain ⟨c, hc, ⟨may, hmay, hmayiff⟩, must, hmust, hmustiff⟩ := h.bounds hmo
  simp only [addResolution, hc, hmay, ok_bind]
  cases may with
  | false => exact ⟨_, rfl, .inl ⟨fun hmay' => (nomatch hmayiff.mpr hmay'), rfl⟩⟩
  | true =>
    have hzero : (rl ++ [e]).length ≠ 0 := by simp
    dsimp only
    split_ifs with hone
    · have hnil : rl = [] := by simpa using hone
      subst hnil
      simp only [hmust, ok_bind]
      cases must with
      | false => exact ⟨_, rfl, .inr (.inl ⟨hmayiff.mp rfl, rfl⟩)⟩
      | true => exact ⟨_, rfl, .inr (.inr ⟨hmustiff.mp rfl, rfl⟩)⟩
    · exact ⟨_, rfl, .inr (.inl ⟨hmayiff.mp rfl, rfl⟩)⟩

theorem searchBackwards_lists (clock : Nat → Nat) (checks : Nat) (rl : List (MemoryObject × O))
    (hord : l.Pairwise fun e e' => e'.1.Before e.1) :
    Lists (values Γ ⟨constraints, p⟩) rl l
      (searchBackwards pointerWidth solver constraints p 0 0 clock checks rl l) := by
  induction l generalizing checks rl with
  | nil => exact .nothing (by simp)
  | cons e rest ih =>
    obtain ⟨hfirst, hrest⟩ := pairwise_cons.mp hord
    obtain ⟨hmo, hin⟩ := forall_mem_cons.mp hin
    obtain ⟨r, hr, hcases⟩ := addResolution_cases h hmo rl
    obtain ⟨base, hbase, must, hmust, hmustiff⟩ := h.above hmo
    -- what is done after the object was added or not
    have hgo : ∀ rl', Lists (values Γ ⟨constraints, p⟩) rl' rest (match must with
        | true => .ok (.searching rl')
        | false => searchBackwards pointerWidth solver constraints p 0 0 clock (checks + 1) rl' rest) := by
      intro rl'
      cases must with
      | true => exact .nothing (not_may_of_below hfirst (hmustiff.mp rfl))
      | false => exact ih hin _ rl' hrest
    simp only [searchBackwards, timedOut, bne_self_eq_false, Bool.false_and, Bool.false_eq_true, if_false, hr, ok_bind]
    rcases hcases with ⟨hno, rfl⟩ | ⟨hmay, rfl⟩ | ⟨hmust', rfl⟩
    · simp only [hbase, hmust, ok_bind]
      exact .skip hno (by cases must <;> exact hgo _)
    · simp only [hbase, hmust, ok_bind]
      exact .add hmay (by cases must <;> exact hgo _)
    · exact .inr ⟨e, mem_cons_self, hmust', rfl⟩

theorem searchForwards_lists (clock : Nat → Nat) (checks : Nat) (rl : List (MemoryObject × O))
    (hord : l.Pairwise fun e e' => e.1.Before e'.1) :
    Lists (values Γ ⟨constraints, p⟩) rl l
      (searchForwards pointerWidth solver constraints p 0 0 clock checks rl l) := by
  induction l generalizing checks rl with
  | nil => exact .nothing (by simp)
  | cons e rest ih =>
    obtain ⟨hfirst, hrest⟩ := pairwise_cons.mp hord
    obtain ⟨hmo, hin⟩ := forall_mem_cons.mp hin
    obtain ⟨r, hr, hcases⟩ := addResolution_cases h hmo rl
    obtain ⟨base, hbase, must, hmust, hmustiff⟩ := h.below hmo
    simp only [searchForwards, timedOut, bne_self_eq_false, Bool.false_and, Bool.false_eq_true, if_false, hbase, hmust,
      ok_bind]
    cases must with
    | true =>
      obtain ⟨hno, hnone⟩ := not_may_of_above hfirst (hmustiff.mp rfl)
      exact .skip hno (.nothing hnone)
    | false =>
      simp only [hr, ok_bind]
      have hrec := fun rl' => ih hin (checks + 1) rl' hrest
      rcases hcases with ⟨hno, rfl⟩ | ⟨hmay, rfl⟩ | ⟨hmust', rfl⟩
      · exact .skip hno (hrec _)
      · exact .add hmay (hrec _)
      · exact .inr ⟨e, mem_cons_self, hmust', rfl⟩

end

end Search

/-! ## The results -/

section Results

variable [Options] {Γ : Set Assignment} {solver : TimingSolver} {constraints : List Expr} {p : Expr} {pointerWidth : Nat}
  {O : Type} {objects : List (MemoryObject × O)}

/-- The pointer may point into the object under the constraints. -/
def MayPointInto (Γ : Set Assignment) (constraints : List Expr) (p : Expr) (mo : MemoryObject) : Prop :=
  ∃ σ ∈ Models Γ constraints, mo.Contains (p.value σ).toNat

omit [Options] in
theorem may_values_iff {mo : MemoryObject} :
    May (values Γ ⟨constraints, p⟩) mo ↔ MayPointInto Γ constraints p mo := exists_values

variable (h : Setting Γ solver constraints p pointerWidth) (hord : Ordered objects)
  (hin : ∀ e ∈ objects, e.1.Within pointerWidth)

include h

theorem Setting.getValue (hne : ∀ c, p = .constant c → False) : ∃ cex, solver.getValue ⟨constraints, p⟩ = some cex ∧
    (cex.bits.setWidth 64).toNat ∈ values Γ ⟨constraints, p⟩ := by
  obtain ⟨σ, hσ, hval⟩ := h.exact.value ⟨constraints, p⟩ h.sat
  refine ⟨⟨p.getWidth, p.value σ⟩, ?_, σ, hσ, (toNat_setWidth_of_le ?_).symm⟩
  · unfold TimingSolver.getValue
    split
    · grind
    · exact hval
  · exact h.getWidth ▸ h.width.le

theorem Setting.mayPointInto_constant {c : APInt} (hc : p = .constant c) {mo : MemoryObject} :
    MayPointInto Γ constraints p mo ↔ mo.Contains (c.bits.setWidth 64).toNat := by
  subst hc
  have hwidth : c.width ≤ 64 := (show c.width = pointerWidth from h.getWidth) ▸ h.width.le
  have hval : ∀ σ, ((Expr.constant c).value σ).toNat = (c.bits.setWidth 64).toNat := by
    intro σ
    rw [toNat_setWidth_of_le hwidth]
    exact congrArg toNat (Expr.eval_constant c.bits σ)
  obtain ⟨σ, hσ⟩ := h.sat
  constructor
  · rintro ⟨σ', _, hcon⟩
    rwa [hval] at hcon
  · intro hcon
    refine ⟨σ, hσ, ?_⟩
    rwa [hval]

include hord hin

theorem resolveOne_finds : ∃ o, resolveOne pointerWidth solver constraints p objects = .ok (some o) ∧
    (∀ e, o = some e → e ∈ objects ∧ MayPointInto Γ constraints p e.1) ∧
    (o = none → ∀ e ∈ objects, ¬ MayPointInto Γ constraints p e.1) := by
  unfold resolveOne
  split
  · rename_i c
    refine ⟨_, rfl, fun e he => ?_, fun hno e he hmay => ?_⟩
    · rw [h.mayPointInto_constant rfl]
      exact hord.resolveOneAt_eq_some_iff.mp he
    · rw [h.mayPointInto_constant rfl] at hmay
      rw [hord.resolveOneAt_eq_some_iff.mpr ⟨he, hmay⟩] at hno
      cases hno
  · rename_i _ hne
    obtain ⟨cex, hcex, hmem⟩ := h.getValue hne
    simp only [hcex, ← may_values_iff]
    generalize cex.bits.setWidth 64 = address at hmem ⊢
    cases hex : resolveExample objects address with
    | some e =>
      obtain ⟨he, hcon⟩ := resolveExample_contains hex
      refine ⟨some e, rfl, ?_, by simp⟩
      rintro _ ⟨⟩
      exact ⟨he, _, hmem, hcon⟩
    | none =>
      obtain ⟨o, ho, hsome, hnone⟩ := findBackwards_finds h
        (fun e he => hin e (mem_before_or_after.mpr (.inl he))) (hord.pairwise_before address)
      obtain ⟨o', ho', hsome', hnone'⟩ := findForwards_finds h (fun e he => hin e (mem_before_or_after.mpr (.inr he)))
        (hord.pairwise_after address)
      cases o with
      | some e =>
        refine ⟨some e, by rw [ho]; rfl, ?_, by simp⟩
        rintro _ ⟨⟩
        obtain ⟨he, hmay⟩ := hsome e rfl
        exact ⟨mem_before_or_after.mpr (.inl he), hmay⟩
      | none =>
        refine ⟨o', by rw [ho]; exact ho', fun e he => ?_, fun hno e he => ?_⟩
        · exact ⟨mem_before_or_after.mpr (.inr (hsome' e he).1), (hsome' e he).2⟩
        · rcases mem_before_or_after.mp he with he | he
          · exact hnone rfl e he
          · exact hnone' hno e he

open Classical in
theorem resolve_lists (clock : Nat → Nat) :
    ∃ rl, resolve pointerWidth solver constraints p 0 0 clock objects = .ok (false, rl) ∧ rl.Nodup ∧
      ∀ e, e ∈ rl ↔ e ∈ objects ∧ MayPointInto Γ constraints p e.1 := by
  unfold resolve
  split
  · rename_i c
    refine ⟨_, rfl, ?_, fun e => ?_⟩
    · cases resolveOneAt objects (c.bits.setWidth 64) <;> simp
    · rw [h.mayPointInto_constant rfl, mem_toList]
      exact hord.resolveOneAt_eq_some_iff
  · rename_i _ hne
    obtain ⟨cex, hcex, hmem⟩ := h.getValue hne
    simp only [hcex, ← may_values_iff]
    generalize cex.bits.setWidth 64 = address at hmem ⊢
    -- if the pointer must be in an object, that is the only one it may be in
    have honly : ∀ e ∈ objects, Must (values Γ ⟨constraints, p⟩) e.1 →
        [e].Nodup ∧ ∀ e', e' ∈ [e] ↔ e' ∈ objects ∧ May (values Γ ⟨constraints, p⟩) e'.1 := by
      refine fun e he hmust => ⟨nodup_singleton e, fun e' => ?_⟩
      rw [mem_singleton]
      constructor
      · rintro rfl
        exact ⟨he, _, hmem, hmust _ hmem⟩
      · rintro ⟨he', v, hv, hcon⟩
        exact hord.eq_of_contains he' he hcon (hmust v hv)
    have hback := searchBackwards_lists h
      (fun e he => hin e (mem_before_or_after.mpr (.inl he))) clock 0 [] (hord.pairwise_before address)
    rcases hback with hback | ⟨e, he, hmust, hback⟩
    · obtain ⟨rl, hrl⟩ : ∃ rl, rl = (before objects address).reverse.filter
          fun e => decide (May (values Γ ⟨constraints, p⟩) e.1) := ⟨_, rfl⟩
      rw [nil_append, ← hrl] at hback
      have hforw := searchForwards_lists h (fun e he => hin e (mem_before_or_after.mpr (.inr he))) clock
        (before objects address).length rl (hord.pairwise_after address)
      rcases hforw with hforw | ⟨e, he, hmust, hforw⟩
      · have hperm := before_reverse_append_after_perm objects address
        have hnd := (hperm.nodup_iff.mpr hord.nodup).filter
          fun e => decide (May (values Γ ⟨constraints, p⟩) e.1)
        refine ⟨_, ?_, hnd, fun e => ?_⟩
        · simp only [filter_append, ← hrl, hback, hforw, ok_bind]
          rfl
        · rw [mem_filter, hperm.mem_iff, decide_eq_true_eq]
      · obtain ⟨hnd, hiff⟩ := honly e (mem_before_or_after.mpr (.inr he)) hmust
        refine ⟨[e], ?_, hnd, hiff⟩
        simp only [hback, hforw, ok_bind]
        rfl
    · obtain ⟨hnd, hiff⟩ := honly e (mem_before_or_after.mpr (.inl he)) hmust
      refine ⟨[e], ?_, hnd, hiff⟩
      rw [hback]
      rfl

end Results

/-- For disjoint objects in the order of their addresses, a pointer, a satisfiable path condition and an exact solver, with
neither a bound nor a timeout: `resolve` returns false and lists the objects that the pointer may point into, each once.
`resolveOne` succeeds if there is such an object, and returns one. -/
theorem resolve_exact [Options] {O : Type} (objects : List (MemoryObject × O)) (pointerWidth : Nat)
    (hsorted : objects.Pairwise fun e e' => e.1.address < e'.1.address)
    (hdisjoint : objects.Pairwise fun e e' => ∀ a, e.1.Contains a → ¬ e'.1.Contains a)
    (hin : ∀ e ∈ objects, e.1.Within pointerWidth) (Γ : Set Assignment) (solver : TimingSolver)
    (constraints : List Expr) (p : Expr) (h : Setting Γ solver constraints p pointerWidth) (clock : Nat → Nat) :
    (∃ rl, resolve pointerWidth solver constraints p 0 0 clock objects = .ok (false, rl) ∧ rl.Nodup ∧
      ∀ e, e ∈ rl ↔ e ∈ objects ∧ MayPointInto Γ constraints p e.1) ∧
    ∃ result, resolveOne pointerWidth solver constraints p objects = .ok (some result) ∧
      (result.isSome = true ↔ ∃ e ∈ objects, MayPointInto Γ constraints p e.1) ∧
      ∀ e, result = some e → e ∈ objects ∧ MayPointInto Γ constraints p e.1 := by
  have hord : Ordered objects := by
    refine (hsorted.and hdisjoint).imp fun hb => before_of_disjoint hb.1 hb.2
  refine ⟨resolve_lists h hord hin clock, ?_⟩
  obtain ⟨result, hres, hsome, hnone⟩ := resolveOne_finds h hord hin
  refine ⟨result, hres, ?_, hsome⟩
  cases result with
  | none => simpa using hnone rfl
  | some e => exact iff_of_true rfl ⟨e, hsome e rfl⟩

open Classical in
/-- The solver that looks at all models. -/
noncomputable def allModels (Γ : Set Assignment) : TimingSolver where
  toSolverImpl := exactSolver Γ
  computeValue q :=
    if h : (Models Γ q.constraints).Nonempty then some ⟨q.expr.getWidth, q.expr.value h.some⟩ else none

theorem allModels_exact (Γ : Set Assignment) : (allModels Γ).Exact Γ where
  truth := exactSolver_exact Γ
  value _ h := ⟨h.some, h.some_mem, dif_pos h⟩

/-- A byte as an address. -/
def bytePointer : Expr := .zext (symbolicByte 0 "pointer") 32

theorem bytePointer_setting : Setting Set.univ (allModels Set.univ) [] bytePointer 32 where
  width := ⟨le_rfl, by decide⟩
  exact := allModels_exact _
  sat := ⟨fun _ _ => 0, trivial, by simp⟩
  inBounds σ _ := ⟨symbolicByte_inBounds σ 0 "pointer", by decide⟩
  getWidth := rfl

/-- An object of ten bytes and one of none. -/
def twoObjects : List (MemoryObject × Unit) := [(⟨100, 10⟩, ()), (⟨200, 0⟩, ())]

theorem lookupPrevious_bound_twoObjects : ∃ t : ImmutableTree _, t.toList = twoObjects ∧ Ordered t.toList ∧
    ∀ address : BitVec 64, t.lookupPrevious key address.toNat = lookupPrevious t.toList address := by
  have h : Bound ((ImmutableTree.replace key (⟨200, 0⟩, ()) .terminator).replace key (⟨100, 10⟩, ())) := by
    refine .bindObject (.bindObject .empty nofun) ?_
    simp [ImmutableTree.replace, Contains]
    omega
  exact ⟨_, rfl, lookupPrevious_bound h⟩

theorem resolve_exact_twoObjects :
    (∃ rl, resolve 32 (allModels Set.univ) [] bytePointer 0 0 id twoObjects = .ok (false, rl) ∧ rl.Nodup ∧
      ∀ e, e ∈ rl ↔ e ∈ twoObjects ∧ MayPointInto Set.univ [] bytePointer e.1) ∧
    ∃ result, resolveOne 32 (allModels Set.univ) [] bytePointer twoObjects = .ok (some result) ∧
      (result.isSome = true ↔ ∃ e ∈ twoObjects, MayPointInto Set.univ [] bytePointer e.1) ∧
      ∀ e, result = some e → e ∈ twoObjects ∧ MayPointInto Set.univ [] bytePointer e.1 := by
  refine resolve_exact twoObjects 32 ?_ ?_ ?_ Set.univ (allModels Set.univ) [] bytePointer bytePointer_setting id
  · simp [twoObjects]
  · simp only [twoObjects, pairwise_cons, mem_singleton, forall_eq, Contains]
    refine ⟨fun a ha => ?_, by simp, .nil⟩
    simp only [BitVec.ofNat_eq_ofNat, BitVec.toNat_ofNat, Nat.reducePow, Nat.reduceMod] at ha ⊢
    omega
  · simp [twoObjects, Within]

/-- The index being beyond the array, the pointer is 1, the address of an object without bytes. It is not found. -/
theorem resolve_misses_object : let Γ : Set Assignment := {fun _ _ => 1}
    MayPointInto Γ [] (.zext tableByte 32) ⟨1, 0⟩ ∧
      @resolve ⟨true, true⟩ 32 Unit (allModels Γ) [] (.zext tableByte 32) 0 0 id [(⟨1, 0⟩, ())] = .ok (false, []) := by
  intro Γ
  let on : Options := ⟨true, true⟩
  have hmodel : (fun _ _ => 1) ∈ Models Γ [] := ⟨rfl, nofun⟩
  refine ⟨⟨_, hmodel, .inl rfl⟩, ?_⟩
  have hvalue : (allModels Γ).getValue ⟨[], .zext tableByte 32⟩ = some ⟨32, 1⟩ := by
    obtain ⟨σ, ⟨rfl, -⟩, hσ⟩ := (allModels_exact Γ).value ⟨[], .zext tableByte 32⟩ ⟨_, hmodel⟩
    exact hσ
  have hoffset : SubExpr.create (.zext tableByte 32) (.const 1 32) =
      .bin .add (.const (2 ^ 32 - 1) 32) (.zext tableByte 32) := by
    unfold SubExpr.create
    show addExprCreatePartialR (APInt.bin .sub (.ofNat 0 32) (.ofNat 1 32)) _ = _
    unfold addExprCreatePartialR
    rfl
  have hbounds : MemoryObject.getBoundsCheckPointer 32 ⟨1, 0⟩ (.zext tableByte 32) = .ok (.const 0 1) := by
    show Except.ok (EqExpr.create (SubExpr.create (.zext tableByte 32) (.const 1 32)) (.const 0 32)) = _
    rw [hoffset, EqExpr.create_constant]
    unfold eqConst eqExprCreatePartialR
    exact congrArg Except.ok (eq_tableByte (.inl rfl))
  -- the search ends at the object, since no value of the pointer is below it
  have hmust : (allModels Γ).mustBeTrue ⟨[], UgeExpr.create (.zext tableByte 32) (.const 1 32)⟩ = .ok (some true) := by
    obtain ⟨b, done, hb⟩ := (exactSolver_exact Γ).mustBeTrue
      (q := ⟨[], UgeExpr.create (.zext tableByte 32) (.const 1 32)⟩) ⟨_, hmodel⟩ rfl
    rw [hb.2] at done
    · exact done
    · rintro σ ⟨rfl, -⟩
      rfl
  have hadd : addResolution 32 (allModels Γ) [] (.zext tableByte 32) 0 [] (⟨1, 0⟩, ()) = .ok (.searching []) := by
    unfold addResolution
    rw [hbounds]
    rfl
  have hback : searchBackwards 32 (allModels Γ) [] (.zext tableByte 32) 0 0 id 0 [] [(⟨1, 0⟩, ())] =
      .ok (.searching []) := by
    unfold searchBackwards
    rw [if_neg (by decide), hadd]
    simp only [ok_bind, show MemoryObject.getBaseExpr 32 ⟨1, 0⟩ = .ok (.const 1 32) from rfl, hmust]
    rfl
  simp only [resolve, hvalue]
  show (searchBackwards 32 _ _ _ 0 0 id 0 [] [(⟨1, 0⟩, ())] >>= _) = _
  rw [hback]
  rfl

end S2E.Klee.Resolution
