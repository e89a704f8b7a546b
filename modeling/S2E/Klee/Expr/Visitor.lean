import S2E.Lib.Triple
import S2E.Klee.Expr.Rewrites

/-!
# `ExprVisitor`

* `ExprVisitor` : what a visitor overrides. A visitor that looks at the kids itself is given the function that visits;
* `visitActual`, `visit` : the traversal with its table of visited expressions. The recursion is bounded by `fuel`;
* `ExprVisitor.Rule v R N` : the relation `R` holds between a node and what the visitor makes of it, provided that it
  holds between the kids and theirs; on a node that meets `N` the visitor does not stop;
* `ExprVisitor.visit_spec` : then `R` holds between an expression and the result of the visit, whatever the table of
  visited expressions holds, and fuel above the weight is enough.
-/

namespace S2E.Klee

open S2E.Lib

/-- `ExprVisitor::Action`. -/
inductive Action
  | skipChildren
  | doChildren
  | changeTo (argument : Expr)

/-- `ExprVisitor::visited`: the most recent entry first. -/
abbrev Visited := List (Expr × Expr)

abbrev VisitM := StateT Visited (Except Trap)

structure ExprVisitor where
  recursive : Bool := false
  visitExpr : Expr → Action := fun _ => .doChildren
  /-- `visitNotOptimized`, ..., `visitSge`. -/
  visitKind : (Expr → VisitM Expr) → Expr → VisitM Action := fun _ _ => pure .doChildren
  visitExprPost : Expr → Action := fun _ => .skipChildren

/-- `visited.insert`: an entry that is there stays. -/
def Visited.insert (visited : Visited) (e res : Expr) : Visited :=
  if (visited.lookup e).isSome then visited else (e, res) :: visited

/-- Every entry of the table relates an expression to what the visitor makes of it. -/
def Visited.Sound (R : Expr → Expr → Prop) (visited : Visited) : Prop := ∀ p ∈ visited, p.1.WF → R p.1 p.2

theorem Visited.Sound.insert {R : Expr → Expr → Prop} {visited : Visited} (h : visited.Sound R) {e res : Expr}
    (hr : e.WF → R e res) : (visited.insert e res).Sound R := by
  unfold Visited.insert
  split
  · exact h
  · intro p hp
    rcases List.mem_cons.1 hp with rfl | hp
    · exact hr
    · exact h p hp

theorem Visited.Sound.lookup {R : Expr → Expr → Prop} {visited : Visited} (h : visited.Sound R) {e res : Expr}
    (hl : visited.lookup e = some res) (he : e.WF) : R e res := by
  obtain ⟨l₁, l₂, rfl, -⟩ := List.lookup_eq_some_iff.1 hl
  exact h (e, res) (by simp) he

section

variable [Options]

/-- The last step of `visitActual`. -/
def ExprVisitor.post (v : ExprVisitor) (e : Expr) : Expr :=
  if e.isConstant then e
  else
    match v.visitExprPost e with
    | .changeTo argument => argument
    | _ => e

/-- The `DoChildren` case of `visitActual`. -/
def ExprVisitor.visitKids (v : ExprVisitor) (visit : Expr → VisitM Expr) (e : Expr) : VisitM Expr := do
  let kids ← e.kids.mapM visit
  if kids = e.kids then return v.post e
  let e' ← StateT.lift (e.rebuild kids)
  if v.recursive then return v.post (← visit e') else return v.post e'

def ExprVisitor.visitActual (v : ExprVisitor) (visit : Expr → VisitM Expr) (e : Expr) : VisitM Expr :=
  if e.isConstant then pure e
  else
    match v.visitExpr e with
    | .skipChildren => pure e
    | .changeTo argument => pure argument
    | .doChildren => do
      match ← v.visitKind visit e with
      | .skipChildren => pure e
      | .changeTo argument => pure argument
      | .doChildren => v.visitKids visit e

def ExprVisitor.visit (v : ExprVisitor) : Nat → Expr → VisitM Expr
  | 0, _ => throw .outOfFuel
  | fuel + 1, e => do
    if !Options.useVisitorHash || e.isConstant then v.visitActual (v.visit fuel) e
    else
      match (← get).lookup e with
      | some res => pure res
      | none =>
        let res ← v.visitActual (v.visit fuel) e
        modify (·.insert e res)
        pure res

/-! ## Correctness of a visit -/

/-- What is asked of a visitor that has no function of its own for any kind. -/
structure ExprVisitor.Rule (v : ExprVisitor) (R : Expr → Expr → Prop) (N : Expr → Prop) : Prop where
  refl : ∀ e, R e e
  trans : ∀ {a b c}, R a b → R b c → R a c
  wf : ∀ {a b}, R a b → a.WF → b.WF
  eq_or_lt : ∀ {a b}, R a b → b = a ∨ b.weight < a.weight
  safe : ∀ {a b}, R a b → N a → N b
  safe_kid : ∀ {e k}, N e → k ∈ e.kids → N k
  rebuild : ∀ {e kids e'}, e.WF → List.Forall₂ R e.kids kids → kids ≠ e.kids → e.rebuild kids = .ok e' →
    R e e' ∧ e'.weight < e.weight
  rebuild_ok : ∀ {e kids}, e.WF → N e → List.Forall₂ R e.kids kids → kids ≠ e.kids → ∃ e', e.rebuild kids = .ok e'
  visitExpr : ∀ {e a}, e.WF → e.isConstant = false → v.visitExpr e = .changeTo a → R e a
  visitKind : ∀ visit e, v.visitKind visit e = pure .doChildren
  visitExprPost : ∀ {e a}, e.WF → e.isConstant = false → v.visitExprPost e = .changeTo a → R e a

section Spec

variable {v : ExprVisitor} {R : Expr → Expr → Prop} {N : Expr → Prop}

theorem ExprVisitor.Rule.post (hv : v.Rule R N) {e : Expr} (he : e.WF) : R e (v.post e) := by
  unfold ExprVisitor.post
  split
  · exact hv.refl e
  · rename_i hc
    split
    · rename_i a ha
      exact hv.visitExprPost he (Bool.eq_false_iff.2 hc) ha
    · exact hv.refl e

/-- One level: `visit` is correct on everything lighter than `e`. -/
theorem ExprVisitor.Rule.visitKids (hv : v.Rule R N) {visit : Expr → VisitM Expr} {e : Expr} (he : e.WF) {n : Nat}
    (ih : ∀ x, x.WF → Triple (Visited.Sound R) (visit x) (R x) (fun _ => x.weight < n → ¬ N x)) :
    Triple (Visited.Sound R) (v.visitKids visit e) (R e) (fun _ => e.weight ≤ n → ¬ N e) := by
  unfold ExprVisitor.visitKids
  refine .bind (.mapM fun k hk => (ih k (he.kid hk)).conseq (fun _ h => h) fun _ h hn hN => ?_) fun kids hkids => ?_
  · exact h (lt_of_lt_of_le (Expr.weight_kid_lt hk) hn) (hv.safe_kid hN hk)
  split
  · exact .pure (hv.post he)
  · rename_i hne
    refine .bind (Q := fun e' => R e e' ∧ e'.weight < e.weight) (.lift ?_) fun e' he' => ?_
    · cases hc : e.rebuild kids with
      | ok e' => exact hv.rebuild he hkids hne hc
      | error t =>
        intro _ hN
        obtain ⟨e', hc'⟩ := hv.rebuild_ok he hN hkids hne
        rw [hc] at hc'
        cases hc'
    · split
      · refine .bind ((ih e' (hv.wf he'.1 he)).conseq (fun _ h => h) fun _ h hn hN => ?_) fun e'' he'' => ?_
        · exact h (lt_of_lt_of_le he'.2 hn) (hv.safe he'.1 hN)
        · have := hv.trans he'.1 he''
          exact .pure (hv.trans this (hv.post (hv.wf this he)))
      · exact .pure (hv.trans he'.1 (hv.post (hv.wf he'.1 he)))

theorem ExprVisitor.Rule.visitActual (hv : v.Rule R N) {visit : Expr → VisitM Expr} {e : Expr} (he : e.WF) {n : Nat}
    (ih : ∀ x, x.WF → Triple (Visited.Sound R) (visit x) (R x) (fun _ => x.weight < n → ¬ N x)) :
    Triple (Visited.Sound R) (v.visitActual visit e) (R e) (fun _ => e.weight ≤ n → ¬ N e) := by
  unfold ExprVisitor.visitActual
  split
  · exact .pure (hv.refl e)
  · rename_i hc
    split
    · exact .pure (hv.refl e)
    · rename_i a ha
      exact .pure (hv.visitExpr he (Bool.eq_false_iff.2 hc) ha)
    · rw [hv.visitKind]
      exact hv.visitKids he ih

/-- The table and the fuel: what a visitor makes of a node is right as soon as one level of it is. -/
theorem ExprVisitor.visit_of_visitActual (hact : ∀ {visit : Expr → VisitM Expr} {n : Nat} {e : Expr}, e.WF →
      (∀ x, x.WF → Triple (Visited.Sound R) (visit x) (R x) (fun _ => x.weight < n → ¬ N x)) →
      Triple (Visited.Sound R) (v.visitActual visit e) (R e) (fun _ => e.weight ≤ n → ¬ N e)) :
    ∀ (n : Nat) (e : Expr), e.WF → Triple (Visited.Sound R) (v.visit n e) (R e) (fun _ => e.weight < n → ¬ N e)
  | 0, _, _ => .throw fun h => absurd h (Nat.not_lt_zero _)
  | n + 1, e, he => by
    have hlevel := (hact he (visit_of_visitActual hact n)).conseq (fun _ h => h)
      fun _ h (hn : e.weight < n + 1) => h (Nat.le_of_lt_succ hn)
    unfold ExprVisitor.visit
    split
    · exact hlevel
    · refine .get_bind fun visited hvis => ?_
      split
      · rename_i res hres
        exact .pure (hvis.lookup hres he)
      · refine .bind hlevel fun res hres => ?_
        exact .bind (.modify (Q := fun _ => True) (fun _ h => h.insert fun _ => hres) trivial) fun _ _ => .pure hres

theorem ExprVisitor.visit_spec (hv : v.Rule R N) (n : Nat) (e : Expr) (he : e.WF) :
    Triple (Visited.Sound R) (v.visit n e) (R e) (fun _ => e.weight < n → ¬ N e) :=
  visit_of_visitActual (fun he ih => hv.visitActual he ih) n e he

end Spec

/-! ## Visitors that replace -/

/-- A visitor that only replaces, by expressions that are lighter under `Γ`. `part` is what every node that is changed
has among its parts. -/
theorem ExprVisitor.Rule.of_lighter {v : ExprVisitor} {Γ : Set Assignment} {part : NodeCond → Prop}
    (hkind : ∀ visit e, v.visitKind visit e = pure .doChildren)
    (hexpr : ∀ {e a}, e.WF → e.isConstant = false → v.visitExpr e = .changeTo a → e.Lighter Γ a ∧ ∀ P, e.Ok P → part P)
    (hpost : ∀ {e a}, e.WF → e.isConstant = false → v.visitExprPost e = .changeTo a →
      e.Lighter Γ a ∧ ∀ P, e.Ok P → part P) :
    v.Rule (fun a b => a.Rewrites Γ b ∧ (b = a ∨ ∀ P, a.Ok P → part P)) (fun a => a.Ok (.divisible Γ)) where
  refl e := ⟨.refl e, .inl rfl⟩
  trans h₁ h₂ := by
    refine ⟨h₁.1.trans h₂.1, ?_⟩
    rcases h₁.2 with rfl | h
    · exact h₂.2
    · exact .inr h
  wf h := h.1.wf
  eq_or_lt h := h.1.eq_or_lt
  safe h := h.1.ok NodeCond.divisible_stable
  safe_kid h := h.kid
  rebuild he hk hne hc := by
    have hl := Expr.Lighter.rebuild he (hk.imp fun _ _ h => h.1) hne hc
    obtain ⟨k, hmem, k', hk', hR⟩ := forall₂_changed hk hne
    exact ⟨⟨.inr hl, .inr fun P hP => hR.2.resolve_left hk' P (hP.kid hmem)⟩, hl.weight⟩
  rebuild_ok he hN hk hne :=
    Expr.create_ok_of_divisible
      ((Expr.Lighter.withKids he (hk.imp fun _ _ h => h.1) hne).ok _ NodeCond.divisible_stable hN)
  visitExpr he hc ha := ⟨.inr (hexpr he hc ha).1, .inr (hexpr he hc ha).2⟩
  visitKind := hkind
  visitExprPost he hc ha := ⟨.inr (hpost he hc ha).1, .inr (hpost he hc ha).2⟩

end

end S2E.Klee
