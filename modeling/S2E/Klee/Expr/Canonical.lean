import S2E.Klee.Expr.Nodes

/-!
# Canonical expressions

The rules of `Expr.h` for expressions that are built through the `create` functions.

* `Expr.CanonicalNode` : the rules for one node, `Expr.Canonical` : for all of them;
* `Expr.Built.wf`, `Expr.Built.canonical` : what is built is well formed and canonical;
* `Expr.createAsserting` : `create` with the assertion that a constant that is asked whether it is zero has at most 64
  bits;
* `Expr.create_returns` : the functions return. `AddExpr.create` and `SubExpr.create` recur on the operands of their
  operands; a call with a constant operand recurs on the other one (`addConst_eq_create` and the two after it say that
  these are the calls of the source).
-/

namespace S2E.Klee

/-- The rules for one node. -/
def Expr.CanonicalNode : Expr → Prop
  | .bin k l r =>
    -- not all operands are constant
    (l.isConstant = true → r.isConstant = false) ∧
    -- a constant is on the left, so that none is subtracted
    (k.isSum = true ∨ k = .mul ∨ k = .xor → r.isConstant = false) ∧
    -- the constant of a chain of sums and differences is at its root
    (k.isSum = true → l.hasOffset = false ∧ r.hasOffset = false) ∧
    (k.isLogic = false → l.getWidth ≠ 1 ∧ r.getWidth ≠ 1)
  | .cmp k l r =>
    (k = .eq ∧ r.isConstant = false) ∨
      ((k = .ult ∨ k = .ule ∨ k = .slt ∨ k = .sle) ∧ l.getWidth ≠ 1 ∧ r.getWidth ≠ 1)
  | _ => True

def Expr.Canonical (e : Expr) : Prop := e.Forall Expr.CanonicalNode

/-- The operands of a well-formed node have the same width. -/
theorem Expr.fresh_iff_canonicalNode {e : Expr} (h : e.WF) : e.Fresh ↔ e.CanonicalNode := by
  cases e with
  | bin k l r =>
    have hw : r.getWidth = l.getWidth := h.2.2.1
    simp only [Fresh, CanonicalNode, hw, and_self]
  | cmp k l r =>
    have hw : r.getWidth = l.getWidth := h.2.2
    simp only [Fresh, CanonicalNode, hw, and_self]
  | _ => exact Iff.rfl

theorem fresh_invariant : CreateInvariant Expr.Fresh := ⟨id, fun h => h.1 rfl⟩

variable [Options]

/-! ## The calls of the source

`AddExpr_create` and `SubExpr_create` pass the constant of a chain and what they have made of the rest of it to
`AddExpr::create` or `SubExpr::create` again. -/

theorem addConst_eq_create (k : APInt) (e : Expr) : addConst k e = AddExpr.create (.constant k) e := by
  rw [AddExpr.create]

theorem subConst_eq_create (k : APInt) (e : Expr) : subConst k e = SubExpr.create (.constant k) e := by
  rw [SubExpr.create]

theorem subByConst_eq_create (e : Expr) (k : APInt) : subByConst e k = SubExpr.create e (.constant k) := by
  cases e <;> rw [SubExpr.create] <;> first | rfl | (intros; contradiction)

/-! ## Constants of more than 64 bits -/

/-- `SubExpr::create` of a wide constant and the expression comes to `AddExpr_createPartialR`: `A - (B-c) == (A-B) + c`. -/
def subConstAsks : Expr → Bool
  | .bin .add (.constant _) c => subConstAsks c
  | .bin .sub (.constant _) c => !c.isConstant
  | _ => false

mutual

/-- `AddExpr::create` of wide operands comes to `AddExpr_createPartialR`, which asks a constant whether it is zero. -/
def AddExpr.asks (l r : Expr) : Bool :=
  match l, r with
  | .constant _, r => !r.isConstant
  | _, .constant _ => true
  | .bin .add (.constant _) a, r => AddExpr.asks a r || !(AddExpr.create a r).isConstant
  | .bin .sub (.constant _) a, r => SubExpr.asks r a || !(SubExpr.create r a).isConstant
  | l, .bin .add (.constant _) b => AddExpr.asks l b || !(AddExpr.create l b).isConstant
  | l, .bin .sub (.constant _) b => SubExpr.asks l b || !(SubExpr.create l b).isConstant
  | _, _ => false
termination_by sizeOf l + sizeOf r

/-- So does `SubExpr::create`. -/
def SubExpr.asks (l r : Expr) : Bool :=
  match l, r with
  | .constant _, r => subConstAsks r
  | _, .constant _ => true
  | l, r =>
    if l = r then false
    else
      match l, r with
      | .bin .add (.constant _) a, r => SubExpr.asks a r || !(SubExpr.create a r).isConstant
      | .bin .sub (.constant _) a, r => AddExpr.asks a r || subConstAsks (AddExpr.create a r)
      | l, .bin .add (.constant _) b => SubExpr.asks l b || !(SubExpr.create l b).isConstant
      | l, .bin .sub (.constant _) b => AddExpr.asks l b || !(AddExpr.create l b).isConstant
      | _, _ => false
termination_by sizeOf l + sizeOf r

end

/-- The kinds of `BCREATE_R`, which have functions for one constant operand. -/
def BinKind.isPartial : BinKind → Bool
  | .add | .sub | .mul | .and | .or | .xor => true
  | _ => false

/-- `getZExtValue` is called on a constant of more than 64 bits. -/
def Expr.asksWide : Expr → Bool
  | .bin k l r => 64 < l.getWidth &&
    match k with
    | .add => AddExpr.asks l r
    | .sub => SubExpr.asks l r
    | .mul | .and | .or | .xor => l.isConstant != r.isConstant
    | _ => false
  | _ => false

/-- `create` with the assertion of `getZExtValue`. In `AndExpr` and `OrExpr`, `isAllOnes` comes first, whose shift is
undefined at such a width. -/
def Expr.createAsserting (e : Expr) : Except Trap Expr := if e.asksWide then .error .assertFailed else e.create

theorem Expr.create_of_createAsserting {e e' : Expr} (h : e.createAsserting = .ok e') : e.create = .ok e' := by
  unfold createAsserting at h
  split at h
  · cases h
  · exact h

/-! ## What is built -/

/-- What a `create` function returns is well formed if its operands are and have the widths it asks for. -/
theorem Expr.create_wf {e e' : Expr} (h : e.Plain .any) (hc : e.create = .ok e') : e'.WF := by
  have hfull : e.WF → e'.WF := fun hwf => (create_simplifies hwf hc).wf hwf
  cases e with
  | zext src w | sext src w =>
    by_cases hw : w < src.getWidth
    · obtain rfl : ExtractExpr.create src 0 w = e' := by
        simpa [create, ZExtExpr.create, SExtExpr.create, hw, Nat.ne_of_lt hw] using hc
      have hext : (extract src 0 w).WF := ⟨h.1, h.2, by omega⟩
      exact (ExtractExpr.create_simplifies hext).wf hext
    · exact hfull ⟨h.1, Nat.not_lt.1 hw⟩
  | _ => exact hfull h

mutual

/-- Built through `create` functions only, each of them called as its assertions ask. -/
inductive Expr.Built : Expr → Prop
  | create {e e' : Expr} (kids : ∀ k ∈ e.kids, k.Built)
      (updates : ∀ root head index, e = .read root head index → head.Built) (plain : e.Plain .any)
      (returns : e.createAsserting = .ok e') : e'.Built

/-- `UpdateList::extend`. -/
inductive Updates.Built : Updates → Prop
  | nil : Updates.Built .nil
  | cons {index value : Expr} {next : Updates} (hindex : index.Built) (hvalue : value.Built) (hnext : next.Built) :
      Updates.Built (.cons index value next)

end

mutual

theorem Expr.Built.forall_fresh : ∀ {e : Expr}, e.Built → e.Forall Expr.Fresh
  | _, .create kids updates _ returns => by
    apply Expr.create_forall fresh_invariant ?_ (Expr.create_of_createAsserting returns)
    exact Expr.below_of_kids (fun k hk => (kids k hk).forall_fresh)
      fun root head index he => (updates root head index he).below_fresh

theorem Updates.Built.below_fresh : ∀ {u : Updates}, u.Built → u.Below Expr.Fresh
  | _, .nil => trivial
  | _, .cons hindex hvalue hnext => ⟨hindex.forall_fresh, hvalue.forall_fresh, hnext.below_fresh⟩

end

theorem Expr.Built.wf {e : Expr} : e.Built → e.WF
  | .create _ _ plain returns => Expr.create_wf plain (Expr.create_of_createAsserting returns)

theorem Expr.Built.canonical {e : Expr} (h : e.Built) : e.Canonical := by
  apply (Expr.forall_congr ?_ h.wf).1 h.forall_fresh
  intro e he _
  exact Expr.fresh_iff_canonicalNode he

/-- `create` returns for operands of at most 64 bits, unless it divides a constant by the constant zero. What it returns for
operands that are built is built. -/
theorem Expr.create_returns {e : Expr} (kids : ∀ k ∈ e.kids, k.Built)
    (updates : ∀ root head index, e = .read root head index → head.Built) (plain : e.Plain .any)
    (narrow : ∀ k l r, e = .bin k l r → k.isPartial = true → l.getWidth ≤ 64) :
    (∃ e', e.createAsserting = .ok e' ∧ e'.Built) ∨
      ∃ k cl cr, k.isDiv = true ∧ e = .bin k (.constant cl) (.constant cr) ∧ cr.isZero = true := by
  have hasks : e.asksWide = false := by
    cases e with
    | bin k l r =>
      cases hk : k.isPartial with
      | true => simp only [asksWide, Nat.not_lt.2 (narrow k l r rfl hk), decide_false, Bool.false_and]
      | false => cases k <;> first | exact Bool.and_false _ | cases hk
    | _ => rfl
  have heq : e.createAsserting = e.create := by rw [createAsserting, hasks, if_neg Bool.false_ne_true]
  cases hc : e.create with
  | ok e' => exact .inl ⟨e', heq.trans hc, .create kids updates plain (heq.trans hc)⟩
  | error t => exact .inr (create_error hc)

end S2E.Klee
