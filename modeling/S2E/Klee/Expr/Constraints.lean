import S2E.Klee.Expr.Visitor

/-!
# `ConstraintManager`

* `simplifyExpr` : an expression rewritten by the equalities that the constraints state;
* `addConstraintInternal`, `rewriteConstraints` : a constraint is split at its conjunctions, and an equality with a
  constant rewrites the constraints that are there. Each of them that changes is added again, to the vector that is
  being rebuilt. The recursion is bounded by `fuel`.
-/

namespace S2E.Klee

open S2E.Lib List
open Expr (bin cmp constant eval)

/-- The constraints of a `ConstraintManager`. -/
abbrev ConstraintManager := List Expr

variable {e right : Expr} {cl : APInt} {es : List Expr} {σ : Assignment} {Γ : Set Assignment} {L : ConstraintManager}

namespace ConstraintManager

/-- The weight of all constraints. -/
def weight (constraints : ConstraintManager) : Nat := (constraints.map Expr.weight).sum

@[simp] theorem weight_cons : weight (e :: L) = e.weight + weight L := by simp [weight]

@[simp] theorem weight_append {M : ConstraintManager} : weight (L ++ M) = weight L + weight M := by simp [weight]

end ConstraintManager

variable {L' constraints : ConstraintManager}

section

variable [Options]

def ExprReplaceVisitor (src dst : Expr) : ExprVisitor where
  visitExpr e := if e = src then .changeTo dst else .doChildren
  visitExprPost e := if e = src then .changeTo dst else .doChildren

def ExprReplaceVisitor2 (replacements : List (Expr × Expr)) : ExprVisitor where
  recursive := true
  visitExprPost e :=
    match replacements.lookup e with
    | some r => .changeTo r
    | none => .doChildren

namespace ConstraintManager

/-- The map that `simplifyExpr` builds; `insert` keeps the first entry of a key. -/
def equalities (constraints : ConstraintManager) : List (Expr × Expr) :=
  constraints.map fun c =>
    match c with
    | .cmp .eq (.constant cl) right => (right, .constant cl)
    | c => (c, .const 1 1)

def simplifyExpr (constraints : ConstraintManager) (e : Expr) : Except Trap Expr :=
  if e.isConstant then .ok e
  else (((ExprReplaceVisitor2 constraints.equalities).visit (e.weight + 1) e).run []).map Prod.fst

/-- The loop of `rewriteConstraints` over the old vector; `constraints` is the new one and `changed` the result. -/
def rewriteLoop (visit : Expr → VisitM Expr) (addConstraint : ConstraintManager → Expr → Except Trap ConstraintManager) :
    List Expr → ConstraintManager → Bool → VisitM (ConstraintManager × Bool)
  | [], constraints, changed => pure (constraints, changed)
  | ce :: old, constraints, changed => do
    let e ← visit ce
    if e ≠ ce then
      let constraints ← StateT.lift (addConstraint constraints e)
      rewriteLoop visit addConstraint old constraints true
    else rewriteLoop visit addConstraint old (constraints ++ [ce]) changed

def rewriteConstraints (visitor : ExprVisitor)
    (addConstraint : ConstraintManager → Expr → Except Trap ConstraintManager) (constraints : ConstraintManager) :
    Except Trap (ConstraintManager × Bool) :=
  ((rewriteLoop (fun e => visitor.visit (e.weight + 1) e) addConstraint constraints [] false).run []).map Prod.fst

def addConstraintInternal : Nat → ConstraintManager → Expr → Except Trap ConstraintManager
  | 0, _, _ => .error .outOfFuel
  | fuel + 1, constraints, e =>
    match e with
    | .constant c => if c.isTrue then .ok constraints else .error .falseConstraint
    | .bin .and left right => do
      let constraints ← addConstraintInternal fuel constraints left
      addConstraintInternal fuel constraints right
    | .cmp .eq (.constant cl) right => do
      let (constraints, _) ←
        rewriteConstraints (ExprReplaceVisitor right (.constant cl)) (addConstraintInternal fuel) constraints
      .ok (constraints ++ [e])
    | e => .ok (constraints ++ [e])

def addConstraint (constraints : ConstraintManager) (e : Expr) : Except Trap ConstraintManager := do
  let e ← constraints.simplifyExpr e
  addConstraintInternal (constraints.weight + e.weight + 1) constraints e

end ConstraintManager

/-! ## What adding a constraint keeps -/

/-- A boolean expression. -/
def Expr.IsBool (e : Expr) : Prop := e.WF ∧ e.getWidth = 1

namespace ConstraintManager

/-- The assignment keeps every constraint in bounds and makes it true. -/
def Satisfied (σ : Assignment) (L : ConstraintManager) : Prop := ∀ c ∈ L, c.InBounds σ ∧ c.Holds σ

/-- The assignment keeps some constraint in bounds and makes it false. -/
def Falsified (σ : Assignment) (L : ConstraintManager) : Prop := ∃ c ∈ L, c.InBounds σ ∧ ¬ c.Holds σ

def Divisible (Γ : Set Assignment) (L : ConstraintManager) : Prop := ∀ c ∈ L, c.Ok (.divisible Γ)

/-- No set of assignments that satisfy the constraints vouches for their divisions. -/
def Refused (L : ConstraintManager) : Prop :=
  ∀ Γ : Set Assignment, Γ.Nonempty → (∀ σ ∈ Γ, Satisfied σ L) → ¬ Divisible Γ L

/-- The constraints `L'` may stand for `L`. A vector that is being rebuilt is, at each moment, related in this way to the
constraints that it is built from: those kept, those still to be looked at and those still to be added. -/
structure Keeps (L L' : ConstraintManager) : Prop where
  bools : (∀ c ∈ L, c.IsBool) → ∀ c ∈ L', c.IsBool
  weight : ConstraintManager.weight L' ≤ ConstraintManager.weight L
  satisfied : ∀ σ, Satisfied σ L → Satisfied σ L'
  falsified : ∀ σ, Falsified σ L → Falsified σ L'
  divisible : ∀ Γ, (∀ σ ∈ Γ, Satisfied σ L) → Divisible Γ L → Divisible Γ L'

section Keeps

variable {σ : Assignment} {L L' L'' M : ConstraintManager} {e e' : Expr}

theorem satisfied_append : Satisfied σ (L ++ M) ↔ Satisfied σ L ∧ Satisfied σ M := forall_mem_append

theorem satisfied_cons : Satisfied σ (e :: L) ↔ (e.InBounds σ ∧ e.Holds σ) ∧ Satisfied σ L := forall_mem_cons

theorem falsified_cons : Falsified σ (e :: L) ↔ (e.InBounds σ ∧ ¬ e.Holds σ) ∨ Falsified σ L := by
  simp [Falsified]

theorem falsified_append : Falsified σ (L ++ M) ↔ Falsified σ L ∨ Falsified σ M := by
  simp only [Falsified, mem_append, or_and_right, exists_or]

namespace Keeps

theorem trans (h₁ : Keeps L L') (h₂ : Keeps L' L'') : Keeps L L'' where
  bools h := h₂.bools (h₁.bools h)
  weight := h₂.weight.trans h₁.weight
  satisfied σ h := h₂.satisfied σ (h₁.satisfied σ h)
  falsified σ h := h₂.falsified σ (h₁.falsified σ h)
  divisible Γ hΓ h := h₂.divisible Γ (fun σ hσ => h₁.satisfied σ (hΓ σ hσ)) (h₁.divisible Γ hΓ h)

theorem of_perm (h : L.Perm L') : Keeps L L' where
  bools hb c hc := hb c (h.mem_iff.2 hc)
  weight := ((h.map Expr.weight).sum_eq).ge
  satisfied _ hs c hc := hs c (h.mem_iff.2 hc)
  falsified _ := fun ⟨c, hc, hf⟩ => ⟨c, h.mem_iff.1 hc, hf⟩
  divisible _ _ hd c hc := hd c (h.mem_iff.2 hc)

theorem frame (h : Keeps L L') (M : ConstraintManager) : Keeps (L ++ M) (L' ++ M) where
  bools hb := by
    rw [forall_mem_append] at hb ⊢
    exact ⟨h.bools hb.1, hb.2⟩
  weight := by
    have := h.weight
    simp only [weight_append]
    omega
  satisfied σ hs := by
    rw [satisfied_append] at hs ⊢
    exact ⟨h.satisfied σ hs.1, hs.2⟩
  falsified σ hf := by
    rw [falsified_append] at hf ⊢
    exact hf.imp_left (h.falsified σ)
  divisible Γ hΓ hd := by
    unfold Divisible at hd ⊢
    rw [forall_mem_append] at hd ⊢
    exact ⟨h.divisible Γ (fun σ hσ => (satisfied_append.1 (hΓ σ hσ)).1) hd.1, hd.2⟩

theorem refused (h : Keeps L L') (hr : Refused L') : Refused L := fun Γ hne hΓ hd =>
  hr Γ hne (fun σ hσ => h.satisfied σ (hΓ σ hσ)) (h.divisible Γ hΓ hd)

end Keeps

theorem Refused.append (h : Refused L) (M : ConstraintManager) : Refused (L ++ M) := fun Γ hne hΓ hd =>
  h Γ hne (fun σ hσ => (satisfied_append.1 (hΓ σ hσ)).1) (forall_mem_append.1 hd).1

theorem keeps_true {c : APInt} (hb : (constant c).IsBool) (hc : c.isTrue = true) : Keeps (.constant c :: L) L where
  bools h := (forall_mem_cons.1 h).2
  weight := by simp
  satisfied _ hs := (satisfied_cons.1 hs).2
  falsified σ hf := (falsified_cons.1 hf).resolve_left fun h => h.2 (eval_of_isTrue hb.2 hc σ)
  divisible _ _ hd := (forall_mem_cons.1 hd).2

theorem keeps_and {l r : Expr} (hb : (bin .and l r).IsBool) : Keeps (.bin .and l r :: L) (l :: r :: L) := by
  have hand : ∀ x y : BitVec 1, x &&& y = 1#1 ↔ x = 1#1 ∧ y = 1#1 := by decide
  have hholds : ∀ σ, (bin .and l r).Holds σ ↔ l.Holds σ ∧ r.Holds σ := fun σ => by
    rw [Expr.Holds, eval]
    exact hand _ _
  have hl : l.IsBool := ⟨hb.1.1, hb.2⟩
  have hr : r.IsBool := ⟨hb.1.2.1, hb.1.2.2.1.trans hb.2⟩
  refine ⟨fun h => ?_, ?_, fun σ hs => ?_, fun σ hf => ?_, fun Γ hΓ hd => ?_⟩
  · exact forall_mem_cons.2 ⟨hl, forall_mem_cons.2 ⟨hr, (forall_mem_cons.1 h).2⟩⟩
  · simp only [weight_cons, Expr.weight]
    omega
  · rw [satisfied_cons, hholds] at hs
    obtain ⟨⟨hbd, h1, h2⟩, hs⟩ := hs
    exact satisfied_cons.2 ⟨⟨hbd.1, h1⟩, satisfied_cons.2 ⟨⟨hbd.2.1, h2⟩, hs⟩⟩
  · rw [falsified_cons, hholds] at hf
    rw [falsified_cons, falsified_cons]
    rcases hf with ⟨hbd, hn⟩ | hf
    · rcases not_and_or.1 hn with hn | hn
      · exact .inl ⟨hbd.1, hn⟩
      · exact .inr (.inl ⟨hbd.2.1, hn⟩)
    · exact .inr (.inr hf)
  · have h := forall_mem_cons.1 hd
    exact forall_mem_cons.2 ⟨h.1.1, forall_mem_cons.2 ⟨h.1.2.1, h.2⟩⟩

/-- What the visitor of an equality with a constant makes of an expression. -/
def ReplacedBy (cl : APInt) (right e e' : Expr) : Prop :=
  e.Rewrites {σ | (Expr.cmp .eq (.constant cl) right).Holds σ} e' ∧ (e' = e ∨ ∀ P, e.Ok P → right.Ok P)

/-- A constraint is rewritten by an equality that is a constraint too. An assignment that falsifies the equality and
keeps the constraint in bounds keeps the equality in bounds if the constraint has changed: the falsified constraint is
then the equality itself. -/
theorem keeps_rewrite (he : (cmp .eq (.constant cl) right).IsBool) {ce : Expr}
    (hce : ce.IsBool) (h : ReplacedBy cl right ce e') :
    Keeps [.cmp .eq (.constant cl) right, ce] [.cmp .eq (.constant cl) right, e'] := by
  have heq := h.1.equiv
  refine ⟨fun hb => ?_, ?_, fun σ hs => ?_, fun σ hf => ?_, fun Γ hΓ hd => ?_⟩
  · simp only [forall_mem_cons] at hb ⊢
    exact ⟨hb.1, ⟨h.1.wf hb.2.1.1, heq.width.trans hb.2.1.2⟩, hb.2.2⟩
  · have := h.1.weight_le
    simp only [weight_cons]
    omega
  · rw [satisfied_cons, satisfied_cons] at hs ⊢
    obtain ⟨h1, ⟨hbd, hv⟩, h2⟩ := hs
    refine ⟨h1, ⟨heq.inBounds σ h1.2 hbd, ?_⟩, h2⟩
    rw [Expr.Holds, heq.eval_at h1.2 hbd hce.2]
    exact hv
  · rw [falsified_cons, falsified_cons] at hf ⊢
    rcases hf with hf | ⟨hbd, hv⟩ | hf
    · exact .inl hf
    · by_cases hσ : (cmp .eq (.constant cl) right).Holds σ
      · refine .inr (.inl ⟨heq.inBounds σ hσ hbd, ?_⟩)
        rw [Expr.Holds, heq.eval_at hσ hbd hce.2]
        exact hv
      · rcases h.2 with rfl | hpart
        · exact .inr (.inl ⟨hbd, hv⟩)
        · exact .inl ⟨⟨he.1.1, hpart _ hbd, he.1.2.2⟩, hσ⟩
    · exact .inr (.inr hf)
  · have hsub : Γ ⊆ {σ | (cmp .eq (.constant cl) right).Holds σ} :=
      fun σ hσ => (satisfied_cons.1 (hΓ σ hσ)).1.2
    unfold Divisible at hd ⊢
    simp only [forall_mem_cons] at hd ⊢
    exact ⟨hd.1, h.1.ok (NodeCond.divisible_stable.mono hsub) hd.2.1, hd.2.2⟩

end Keeps

end ConstraintManager

/-! ## The visitors -/

/-- The operand of an equality with a constant is replaced by the constant. -/
theorem lighter_of_eq
    (hΓ : ∀ σ ∈ Γ, (cmp .eq (.constant cl) right).Holds σ) (he : (cmp .eq (.constant cl) right).IsBool)
    (hc : right.isConstant = false) : right.Lighter Γ (.constant cl) where
  width := he.1.2.2.symm
  ok P _ _ := he.1.1
  eval σ hσ _ := by
    obtain ⟨w, c⟩ := cl
    obtain rfl : right.getWidth = w := he.1.2.2
    have hbool : ∀ b : Bool, BitVec.ofBool b = 1#1 ↔ b = true := by decide
    have := hΓ σ hσ
    rw [Expr.Holds, Expr.eval_eq_constant, hbool, beq_iff_eq] at this
    rw [Expr.eval_constant, this]
  weight := Expr.one_lt_weight hc

theorem lighter_of_holds {c : Expr} (hΓ : ∀ σ ∈ Γ, c.Holds σ) (hb : c.getWidth = 1)
    (hc : c.isConstant = false) : c.Lighter Γ (.const 1 1) where
  width := hb.symm
  ok P _ _ := Nat.zero_lt_one
  eval σ hσ _ := by
    rw [hb, hΓ σ hσ, Expr.const, APInt.ofNat, Expr.eval_constant]
  weight := Expr.one_lt_weight hc

theorem ExprReplaceVisitor.rule (he : (cmp .eq (.constant cl) right).IsBool) :
    (ExprReplaceVisitor right (.constant cl)).Rule (ConstraintManager.ReplacedBy cl right)
      (fun a => a.Ok (.divisible {σ | (cmp .eq (.constant cl) right).Holds σ})) := by
  have hrepl : ∀ {e a : Expr}, e.isConstant = false →
      (if e = right then Action.changeTo (.constant cl) else .doChildren) = .changeTo a →
      e.Lighter {σ | (cmp .eq (.constant cl) right).Holds σ} a ∧ ∀ P, e.Ok P → right.Ok P := by
    intro e a hc ha
    split at ha
    · rename_i heq
      subst heq
      obtain rfl : constant cl = a := by simpa using ha
      exact ⟨lighter_of_eq (fun _ h => h) he hc, fun _ h => h⟩
    · cases ha
  exact .of_lighter (fun _ _ => rfl) (fun _ => hrepl) (fun _ => hrepl)

theorem ExprReplaceVisitor2.rule (hb : ∀ c ∈ constraints, c.IsBool) : (ExprReplaceVisitor2 constraints.equalities).Rule
      (fun a b => a.Rewrites {σ | ∀ c ∈ constraints, c.Holds σ} b ∧ (b = a ∨ ∀ P, a.Ok P → True))
      (fun a => a.Ok (.divisible {σ | ∀ c ∈ constraints, c.Holds σ})) := by
  refine .of_lighter (fun _ _ => rfl) (fun _ _ ha => by cases ha) fun {e a} _ hc ha => ⟨?_, fun _ _ => trivial⟩
  simp only [ExprReplaceVisitor2] at ha
  split at ha
  · rename_i r hr
    obtain rfl : r = a := by simpa using ha
    obtain ⟨l₁, l₂, hl, -⟩ := lookup_eq_some_iff.1 hr
    have hmem : (e, r) ∈ constraints.equalities := by rw [hl]; simp
    obtain ⟨c, hcm, hce⟩ := mem_map.1 hmem
    split at hce
    · rename_i cl right
      obtain ⟨rfl, rfl⟩ : right = e ∧ constant cl = r := by simpa using hce
      exact lighter_of_eq (fun σ hσ => hσ _ hcm) (hb _ hcm) hc
    · obtain ⟨rfl, rfl⟩ : c = e ∧ Expr.const 1 1 = r := by simpa using hce
      exact lighter_of_holds (fun σ hσ => hσ _ hcm) (hb _ hcm).2 hc
  · cases ha

namespace ConstraintManager

/-! ## `simplifyExpr` -/

theorem simplifyExpr_spec (hb : ∀ c ∈ constraints, c.IsBool) (he : e.WF) :
    Outcome (constraints.simplifyExpr e) (e.Rewrites {σ | ∀ c ∈ constraints, c.Holds σ})
      (fun _ => ¬ e.Ok (.divisible {σ | ∀ c ∈ constraints, c.Holds σ})) := by
  unfold simplifyExpr
  split
  · exact .refl e
  · have hrule := ExprReplaceVisitor2.rule hb
    refine ((ExprVisitor.visit_spec hrule (e.weight + 1) e he).outcome (s := []) ?_).conseq (fun _ h => h.1)
      (fun _ h => h (Nat.lt_succ_self _))
    exact fun p hp => by cases hp

/-! ## `rewriteConstraints`, `addConstraintInternal` -/

/-- The loop: the constraints kept so far, those that are left and the new equality. -/
theorem rewriteLoop_spec {cl : APInt} {right : Expr} (he : (cmp .eq (.constant cl) right).IsBool) {n : Nat}
    {add : ConstraintManager → Expr → Except Trap ConstraintManager}
    (hadd : ∀ L e, (∀ c ∈ e :: L, c.IsBool) →
      Outcome (add L e) (Keeps (e :: L)) (fun _ => weight (e :: L) < n → Refused (e :: L))) :
    ∀ (old L : ConstraintManager) (changed : Bool), (∀ c ∈ old, c.IsBool) → (∀ c ∈ L, c.IsBool) →
      Triple (Visited.Sound (ReplacedBy cl right))
        (rewriteLoop (fun e => (ExprReplaceVisitor right (.constant cl)).visit (e.weight + 1) e) add old L changed)
        (fun r => Keeps (.cmp .eq (.constant cl) right :: (L ++ old)) (.cmp .eq (.constant cl) right :: r.1))
        (fun _ => weight (.cmp .eq (.constant cl) right :: (L ++ old)) ≤ n →
          Refused (.cmp .eq (.constant cl) right :: (L ++ old)))
  | [], L, changed, _, _ => by
    rw [append_nil]
    exact .pure (.of_perm (.refl _))
  | ce :: old, L, changed, hold, hL => by
    obtain ⟨hce, hold⟩ := forall_mem_cons.1 hold
    have hrule := ExprReplaceVisitor.rule he
    unfold rewriteLoop
    refine .bind ((ExprVisitor.visit_spec hrule (ce.weight + 1) ce hce.1).conseq (fun _ h => h) ?_) fun e' he' => ?_
    · -- the visitor refuses the constraint
      intro _ hN _ Γ _ hΓ hd
      have hsub : Γ ⊆ {σ | (cmp .eq (.constant cl) right).Holds σ} := fun σ hσ => (satisfied_cons.1 (hΓ σ hσ)).1.2
      exact hN (Nat.lt_succ_self _) (NodeCond.divisible_mono hsub (hd ce (by simp)))
    split
    · rename_i hne
      have hperm : ∀ x : Expr, (cmp .eq (.constant cl) right :: (L ++ x :: old)).Perm
          ([.cmp .eq (.constant cl) right, x] ++ (L ++ old)) := fun x =>
        List.Perm.cons _ perm_middle
      have hk₁ : Keeps (.cmp .eq (.constant cl) right :: (L ++ ce :: old))
          ((e' :: L) ++ (.cmp .eq (.constant cl) right :: old)) := by
        refine ((Keeps.of_perm (hperm ce)).trans ((keeps_rewrite he hce he').frame _)).trans (.of_perm ?_)
        simp only [cons_append, nil_append]
        exact (List.Perm.swap _ _ _).trans (List.Perm.cons _ perm_middle.symm)
      have hlt : e'.weight < ce.weight := he'.1.eq_or_lt.resolve_left hne
      have hL' : ∀ c ∈ e' :: L, c.IsBool :=
        forall_mem_cons.2 ⟨⟨he'.1.wf hce.1, he'.1.equiv.width.trans hce.2⟩, hL⟩
      refine .bind (.lift ((hadd L e' hL').conseq (fun _ h => h) ?_)) fun L₁ hk₂ => ?_
      · intro _ hr hn
        refine hk₁.refused ((hr ?_).append _)
        have := (cmp .eq (.constant cl) right).weight_pos
        simp only [weight_cons, weight_append] at hn ⊢
        omega
      · have hk : Keeps (.cmp .eq (.constant cl) right :: (L ++ ce :: old))
            (.cmp .eq (.constant cl) right :: (L₁ ++ old)) :=
          (hk₁.trans (hk₂.frame _)).trans (.of_perm perm_middle)
        refine (rewriteLoop_spec he hadd old L₁ true hold (hk₂.bools hL')).conseq (fun _ h => hk.trans h) ?_
        exact fun _ hr hn => hk.refused (hr (hk.weight.trans hn))
    · have := rewriteLoop_spec he hadd old (L ++ [ce]) changed hold
        (forall_mem_append.2 ⟨hL, by simpa using hce⟩)
      rwa [append_assoc, singleton_append] at this

theorem rewriteConstraints_spec (he : (cmp .eq (.constant cl) right).IsBool) {n : Nat}
    {add : ConstraintManager → Expr → Except Trap ConstraintManager} (hadd : ∀ L e, (∀ c ∈ e :: L, c.IsBool) →
      Outcome (add L e) (Keeps (e :: L)) (fun _ => weight (e :: L) < n → Refused (e :: L))) (hL : ∀ c ∈ L, c.IsBool) :
    Outcome (rewriteConstraints (ExprReplaceVisitor right (.constant cl)) add L)
      (fun r => Keeps (.cmp .eq (.constant cl) right :: L) (.cmp .eq (.constant cl) right :: r.1))
      (fun _ => weight (.cmp .eq (.constant cl) right :: L) ≤ n → Refused (.cmp .eq (.constant cl) right :: L)) :=
  (rewriteLoop_spec he hadd L [] false hL (by simp)).outcome (fun p hp => by cases hp)

theorem addConstraintInternal_spec : ∀ (n : Nat) (L : ConstraintManager) (e : Expr), (∀ c ∈ e :: L, c.IsBool) →
    Outcome (addConstraintInternal n L e) (Keeps (e :: L)) (fun _ => weight (e :: L) < n → Refused (e :: L))
  | 0, _, _, _ => fun h => absurd h (Nat.not_lt_zero _)
  | n + 1, L, e, hb => by
    obtain ⟨he, hL⟩ := forall_mem_cons.1 hb
    unfold addConstraintInternal
    split
    · rename_i c
      split
      · rename_i hc
        exact keeps_true he hc
      · rename_i hc
        intro _ Γ hne hΓ _
        obtain ⟨σ, hσ⟩ := hne
        have := (satisfied_cons.1 (hΓ σ hσ)).1.2
        rw [Expr.Holds, eval_of_not_isTrue he.2 (Bool.eq_false_iff.2 hc)] at this
        exact absurd this (by decide)
    · rename_i l r
      have hk : Keeps (.bin .and l r :: L) ((l :: L) ++ [r]) := by
        refine (keeps_and he).trans (.of_perm (List.Perm.cons _ ?_))
        exact (perm_append_singleton r L).symm
      have hb' := forall_mem_append.1 (hk.bools hb)
      refine .bind ((addConstraintInternal_spec n L l hb'.1).conseq (fun _ h => h) ?_) fun L₁ hk₁ => ?_
      · intro _ hr hn
        refine hk.refused ((hr ?_).append _)
        have := r.weight_pos
        simp only [weight_cons, Expr.weight] at hn ⊢
        omega
      · have hk' : Keeps (.bin .and l r :: L) (r :: L₁) :=
          (hk.trans (hk₁.frame [r])).trans (.of_perm (perm_append_singleton r L₁))
        refine (addConstraintInternal_spec n L₁ r (hk'.bools hb)).conseq (fun _ h => hk'.trans h) ?_
        intro _ hr hn
        refine hk'.refused (hr ?_)
        have hw₁ := hk₁.weight
        simp only [weight_cons, Expr.weight, BinKind.weight] at hw₁ hn ⊢
        omega
    · rename_i cl right
      refine .bind ((rewriteConstraints_spec he (addConstraintInternal_spec n) hL).conseq (fun _ h => h) ?_) ?_
      · exact fun _ hr hn => hr (Nat.le_of_lt_succ hn)
      · rintro ⟨L₁, _⟩ hk
        exact hk.trans (.of_perm (perm_append_singleton _ L₁).symm)
    · exact .of_perm (perm_append_singleton _ L).symm

/-! ## `addConstraint` -/

/-- The constraints that a constraint manager may hold after the expressions `es` (the last first) were added. -/
inductive Built : List Expr → ConstraintManager → Prop
  | nil : Built [] []
  | add {es : List Expr} {L L' : ConstraintManager} {e : Expr} (hrun : Built es L) (he : e.IsBool)
      (hadd : L.addConstraint e = .ok L') : Built (e :: es) L'

/-- What a step keeps: the assignments that satisfy, and those that falsify. -/
structure Exact (e : Expr) (L L' : ConstraintManager) : Prop where
  bools : ∀ c ∈ L', c.IsBool
  satisfied : ∀ σ, Satisfied σ (e :: L) → Satisfied σ L'
  falsified : ∀ σ, Falsified σ L → Falsified σ L'
  refuted : ∀ σ, Satisfied σ L → e.InBounds σ → ¬ e.Holds σ → Falsified σ L'

theorem addConstraint_spec (hb : ∀ c ∈ e :: L, c.IsBool) :
    Outcome (L.addConstraint e) (Exact e L) (fun _ => Refused (e :: L)) := by
  obtain ⟨he, hL⟩ := forall_mem_cons.1 hb
  unfold addConstraint
  refine .bind ((simplifyExpr_spec hL he.1).conseq (fun _ h => h) ?_) fun e' he' => ?_
  · intro _ hN Γ _ hΓ hd
    exact hN (NodeCond.divisible_mono (fun σ hσ c hc => (hΓ σ hσ c (mem_cons_of_mem e hc)).2) (hd e (by simp)))
  have heq := he'.equiv
  have hb' : ∀ c ∈ e' :: L, c.IsBool := forall_mem_cons.2 ⟨⟨he'.wf he.1, heq.width.trans he.2⟩, hL⟩
  have hall : ∀ {σ}, Satisfied σ L → ∀ c ∈ L, c.Holds σ := fun h c hc => (h c hc).2
  have hsat : ∀ σ, Satisfied σ (e :: L) → Satisfied σ (e' :: L) := by
    intro σ hs
    obtain ⟨⟨hbd, hv⟩, hs⟩ := satisfied_cons.1 hs
    refine satisfied_cons.2 ⟨⟨heq.inBounds σ (hall hs) hbd, ?_⟩, hs⟩
    rw [Expr.Holds, heq.eval_at (hall hs) hbd he.2]
    exact hv
  refine (addConstraintInternal_spec _ L e' hb').conseq (fun L' hk => ⟨hk.bools hb', ?_, ?_, ?_⟩) ?_
  · exact fun σ hs => hk.satisfied σ (hsat σ hs)
  · exact fun σ hf => hk.falsified σ (falsified_cons.2 (.inr hf))
  · intro σ hs hbd hv
    refine hk.falsified σ (falsified_cons.2 (.inl ⟨heq.inBounds σ (hall hs) hbd, ?_⟩))
    rw [Expr.Holds, heq.eval_at (hall hs) hbd he.2]
    exact hv
  · intro _ hr Γ hne hΓ hd
    refine hr ?_ Γ hne (fun σ hσ => hsat σ (hΓ σ hσ)) ?_
    · simp only [weight_cons]
      omega
    · have hsub : Γ ⊆ {σ | ∀ c ∈ L, c.Holds σ} := fun σ hσ => hall (satisfied_cons.1 (hΓ σ hσ)).2
      obtain ⟨hd1, hd2⟩ := forall_mem_cons.1 hd
      exact forall_mem_cons.2 ⟨he'.ok (NodeCond.divisible_stable.mono hsub) hd1, hd2⟩

theorem Built.bools (h : Built es L) : ∀ c ∈ L, c.IsBool := by
  induction h with
  | nil => simp
  | add _ he hadd ih => exact ((addConstraint_spec (forall_mem_cons.2 ⟨he, ih⟩)).of_ok hadd).bools

section

variable (h : Built es L) (hb : ∀ e ∈ es, e.InBounds σ)

include h hb

/-- Along a run, an assignment that keeps every expression added in bounds satisfies the constraints or falsifies one. -/
theorem Built.decided : Satisfied σ L ∨ Falsified σ L := by
  induction h with
  | nil => exact .inl (by simp [Satisfied])
  | @add es L L' e hrun he hadd ih =>
    obtain ⟨hbe, hb⟩ := forall_mem_cons.1 hb
    have hx := (addConstraint_spec (forall_mem_cons.2 ⟨he, hrun.bools⟩)).of_ok hadd
    rcases ih hb with hs | hf
    · by_cases hv : e.Holds σ
      · exact .inl (hx.satisfied σ (satisfied_cons.2 ⟨⟨hbe, hv⟩, hs⟩))
      · exact .inr (hx.refuted σ hs hbe hv)
    · exact .inr (hx.falsified σ hf)

theorem Built.satisfied (hv : ∀ c ∈ L, c.Holds σ) : Satisfied σ L :=
  (h.decided hb).resolve_right fun ⟨c, hc, _, hn⟩ => hn (hv c hc)

omit h hb in
theorem Exact.holds_iff (hx : Exact e L L') (hrun : Built es L)
    (hb : ∀ x ∈ es, x.InBounds σ) (hbe : e.InBounds σ) : (∀ c ∈ L', c.Holds σ) ↔ (∀ c ∈ L, c.Holds σ) ∧ e.Holds σ := by
  constructor
  · intro hv'
    have hnf : ¬ Falsified σ L' := fun ⟨c, hc, _, hn⟩ => hn (hv' c hc)
    rcases hrun.decided hb with hs | hf
    · by_contra hn
      exact hnf (hx.refuted σ hs hbe fun hve => hn ⟨fun c hc => (hs c hc).2, hve⟩)
    · exact absurd (hx.falsified σ hf) hnf
  · intro ⟨hv, hve⟩
    have hs := hx.satisfied σ (satisfied_cons.2 ⟨⟨hbe, hve⟩, hrun.satisfied hb hv⟩)
    exact fun c hc => (hs c hc).2

/-- A set that was reached by adding constraints has the assignments that satisfy each of them. -/
theorem Built.holds_iff : (∀ c ∈ L, c.Holds σ) ↔ ∀ e ∈ es, e.Holds σ := by
  induction h with
  | nil => simp
  | @add es L L' e hrun he hadd ih =>
    obtain ⟨hbe, hb⟩ := forall_mem_cons.1 hb
    have hx := (addConstraint_spec (forall_mem_cons.2 ⟨he, hrun.bools⟩)).of_ok hadd
    rw [hx.holds_iff hrun hb hbe, ih hb, forall_mem_cons, and_comm]

end

theorem Built.foldlM {l : List Expr} (h : Built es L) (hl : ∀ e ∈ l, e.IsBool)
    (hadd : l.foldlM addConstraint L = .ok L') : Built (l.reverse ++ es) L' := by
  induction l generalizing es L with
  | nil =>
    cases hadd
    exact h
  | cons e l ih =>
    obtain ⟨he, hl⟩ := forall_mem_cons.1 hl
    rw [foldlM_cons] at hadd
    obtain ⟨L₁, h₁, h₂⟩ := exists_of_bind_ok hadd
    rw [reverse_cons, append_assoc]
    exact ih (h.add he h₁) hl h₂

/-- The constraint is added if the divisions are vouched for by assignments that satisfy the constraints and it. -/
theorem addConstraint_ok (hb : ∀ c ∈ e :: L, c.IsBool)
    (hne : Γ.Nonempty) (hΓ : ∀ σ ∈ Γ, Satisfied σ (e :: L)) (hdiv : Divisible Γ (e :: L)) :
    ∃ L', L.addConstraint e = .ok L' ∧ Exact e L L' :=
  ((addConstraint_spec hb).conseq (fun _ h => h) fun _ hr => hr Γ hne hΓ hdiv).exists_ok

/-- The constraints after a run of `addConstraint` on expressions of at most 64 bits. -/
structure Run (es : List Expr) (L : ConstraintManager) : Prop where
  built : Built es L
  narrow : ∀ e ∈ es, e.Narrow

/-- `addConstraint` on a set reached by adding constraints: if every division of the constraints and of the new one has,
under some assignment that satisfies all of them, a divisor that is not zero, or a dividend that is not fixed, the
constraint is added, and the new set, reached in turn, has exactly the assignments that satisfied the old one and the
constraint. -/
theorem addConstraint_exact {es : List Expr} {L : ConstraintManager} {e : Expr} (hrun : Run es L) (he : e.IsBool)
    (hn : e.Narrow)
    (hsat : ∃ σ, (∀ x ∈ es, x.InBounds σ) ∧ e.InBounds σ ∧ (∀ c ∈ L, c.Holds σ) ∧ e.Holds σ)
    (hdiv : Divisible {σ | Satisfied σ (e :: L)} (e :: L)) :
    ∃ L', L.addConstraint e = .ok L' ∧ Run (e :: es) L' ∧ ∀ σ, (∀ x ∈ es, x.InBounds σ) → e.InBounds σ →
      ((∀ c ∈ L', c.Holds σ) ↔ (∀ c ∈ L, c.Holds σ) ∧ e.Holds σ) := by
  obtain ⟨hrun, hns⟩ := hrun
  obtain ⟨σ₀, hb₀, hbe₀, hv₀, hve₀⟩ := hsat
  have hs₀ : Satisfied σ₀ (e :: L) := satisfied_cons.2 ⟨⟨hbe₀, hve₀⟩, hrun.satisfied hb₀ hv₀⟩
  obtain ⟨L', hok, hx⟩ :=
    addConstraint_ok (forall_mem_cons.2 ⟨he, hrun.bools⟩) ⟨σ₀, hs₀⟩ (fun _ h => h) hdiv
  refine ⟨L', hok, ⟨hrun.add he hok, forall_mem_cons.2 ⟨hn, hns⟩⟩, fun σ hb hbe => ?_⟩
  exact hx.holds_iff hrun hb hbe

end ConstraintManager

end

/-! ## A division that is not evaluated

`x == 0 ? 5 : 10 / x` has the value 5 where `x == 0` holds, and no division is evaluated there. Rewriting it by that
equality visits the division all the same. -/

def byteRead : Expr := symbolicByte 0 "x"

def byteIsZero : Expr := .cmp .eq (.const 0 8) byteRead

def guardedQuotient : Expr := .select byteIsZero (.const 5 8) (.bin .udiv (.const 10 8) byteRead)

theorem byteIsZero_isBool : byteIsZero.IsBool := ⟨⟨Nat.zero_lt_succ 7, symbolicByte_ok trivial, rfl⟩, rfl⟩

theorem byteIsZero_narrow : byteIsZero.Narrow :=
  ⟨by decide, ⟨by decide, trivial⟩, symbolicByte_narrow 0 "x"⟩

theorem byteIsZero_built : ConstraintManager.Built [byteIsZero] [byteIsZero] := .add .nil byteIsZero_isBool rfl

theorem guardedQuotient_wf : guardedQuotient.WF :=
  ⟨byteIsZero_isBool.1, Nat.zero_lt_succ 7,
    ⟨Nat.zero_lt_succ 7, symbolicByte_ok trivial, rfl, fun _ => trivial⟩, rfl, rfl⟩

theorem guardedQuotient_eval (h : byteIsZero.Holds σ) : guardedQuotient.eval σ 8 = 5#8 := by
  have h' : byteIsZero.eval σ 1 = 1#1 := h
  rw [guardedQuotient, eval, if_pos h']
  rfl

/-- `10 / (7 + x)`. -/
def byteQuotient : Expr := .bin .udiv (.const 10 8) (.bin .add (.const 7 8) byteRead)

theorem byteQuotient_ok (P : NodeCond) (hr : P.read (byteArray 0 "x") (.const 0 32))
    (hd : P.div (.const 10 8) (.bin .add (.const 7 8) byteRead)) : byteQuotient.Ok P :=
  ⟨Nat.zero_lt_succ 7, ⟨Nat.zero_lt_succ 7, symbolicByte_ok hr, rfl, fun h => absurd h (by decide)⟩, rfl, fun _ => hd⟩

theorem byteQuotient_inBounds (σ : Assignment) : byteQuotient.InBounds σ :=
  byteQuotient_ok _ (fun _ h => absurd h (by decide)) trivial

/-- The divisor is 7 where `x == 0` holds. -/
theorem byteQuotient_divisible (h : (fun _ _ => 0) ∈ Γ) : byteQuotient.Ok (.divisible Γ) := by
  refine byteQuotient_ok _ trivial (.inl ⟨_, h, ?_, by decide⟩)
  exact ⟨Nat.zero_lt_succ 7, symbolicByte_inBounds _ _ _, rfl, fun h => absurd h (by decide)⟩

namespace ConstraintManager

theorem addConstraint_exact_byteQuotient :
    ∃ L', addConstraint [byteIsZero] (.cmp .eq (.const 1 8) byteQuotient) = .ok L' ∧
      Run [.cmp .eq (.const 1 8) byteQuotient, byteIsZero] L' ∧
      ∀ σ, (∀ x ∈ [byteIsZero], x.InBounds σ) → (Expr.cmp .eq (.const 1 8) byteQuotient).InBounds σ →
        ((∀ c ∈ L', c.Holds σ) ↔
          (∀ c ∈ [byteIsZero], c.Holds σ) ∧ (Expr.cmp .eq (.const 1 8) byteQuotient).Holds σ) := by
  have hzero : byteIsZero.InBounds (fun _ _ => 0) := ⟨Nat.zero_lt_succ 7, symbolicByte_inBounds _ _ _, rfl⟩
  have hquot : (Expr.cmp .eq (.const 1 8) byteQuotient).InBounds (fun _ _ => 0) :=
    ⟨Nat.zero_lt_succ 7, byteQuotient_inBounds _, rfl⟩
  have hnarrow : (Expr.cmp .eq (.const 1 8) byteQuotient).Narrow :=
    ⟨by decide, ⟨by decide, trivial⟩, by decide, ⟨by decide, trivial⟩, by decide, ⟨by decide, trivial⟩,
      symbolicByte_narrow 0 "x"⟩
  refine addConstraint_exact ⟨byteIsZero_built, forall_mem_singleton.2 byteIsZero_narrow⟩
    ⟨⟨Nat.zero_lt_succ 7, byteQuotient_ok _ trivial trivial, rfl⟩, rfl⟩ hnarrow
    ⟨fun _ _ => 0, by simpa using hzero, hquot, by simp; decide, by decide⟩ ?_
  have hmem : (fun _ _ => 0) ∈ {σ | Satisfied σ [.cmp .eq (.const 1 8) byteQuotient, byteIsZero]} := by
    refine satisfied_cons.2 ⟨⟨hquot, by decide⟩, satisfied_cons.2 ⟨⟨hzero, by decide⟩, ?_⟩⟩
    simp [Satisfied]
  refine forall_mem_cons.2 ⟨⟨Nat.zero_lt_succ 7, byteQuotient_divisible hmem, rfl⟩, ?_⟩
  exact forall_mem_singleton.2 ⟨Nat.zero_lt_succ 7, symbolicByte_ok trivial, rfl⟩

/-- `addConstraint` divides by zero on a constraint that every assignment of the constraints satisfies. -/
theorem addConstraint_divideByZero :
    Built [byteIsZero] [byteIsZero] ∧ (Expr.cmp .eq (.const 5 8) guardedQuotient).IsBool ∧
    (∃ σ, byteIsZero.Holds σ) ∧
    (∀ σ, byteIsZero.Holds σ → (Expr.cmp .eq (.const 5 8) guardedQuotient).Holds σ) ∧
    addConstraint [byteIsZero] (.cmp .eq (.const 5 8) guardedQuotient) = .error .divideByZero := by
  refine ⟨byteIsZero_built, ⟨⟨Nat.zero_lt_succ 7, guardedQuotient_wf, rfl⟩, rfl⟩, ⟨fun _ _ => 0, by decide⟩, ?_, rfl⟩
  intro σ h
  rw [Expr.Holds, Expr.const, APInt.ofNat, Expr.eval_eq_constant, guardedQuotient_eval h]
  rfl

end ConstraintManager

end S2E.Klee
