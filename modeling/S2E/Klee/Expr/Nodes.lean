import S2E.Klee.Expr.Create

/-!
# The nodes of what `create` returns

* `Expr.create_forall` : a property that the allocated nodes have, and that keeps constants out of the right of a
  constant, passes from the operands to what `create` returns. Every node of the result is a node of an operand or a
  fresh one.
-/

namespace S2E.Klee

variable {w : Nat} {e e' l r : Expr} {cl cr : APInt} {k : BinKind} {create : Expr → Expr → Expr}

section Congr

variable {P Q : Expr → Prop} {N : NodeCond}

theorem Expr.forall_congr_of_below (hnode : e.Below P → (P e ↔ Q e)) (h : e.Below P ↔ e.Below Q) :
    P e ∧ e.Below P ↔ Q e ∧ e.Below Q := by
  rw [← h]
  exact and_congr_left hnode

mutual

theorem Expr.below_congr (hnode : ∀ e : Expr, e.Ok N → e.Below P → (P e ↔ Q e)) :
    ∀ e : Expr, e.Ok N → (e.Below P ↔ e.Below Q)
  | .constant _, _ => Iff.rfl
  | .notOptimized e, h | .not e, h => Expr.forall_congr_of_below (hnode e h) (Expr.below_congr hnode e h)
  | .extract e _ _, h | .zext e _, h | .sext e _, h =>
    Expr.forall_congr_of_below (hnode e h.1) (Expr.below_congr hnode e h.1)
  | .read _ head index, h => and_congr (Updates.below_congr hnode head h.1)
    (Expr.forall_congr_of_below (hnode index h.2.1) (Expr.below_congr hnode index h.2.1))
  | .select c t f, h => and_congr (Expr.forall_congr_of_below (hnode c h.1) (Expr.below_congr hnode c h.1))
    (and_congr (Expr.forall_congr_of_below (hnode t h.2.1) (Expr.below_congr hnode t h.2.1))
      (Expr.forall_congr_of_below (hnode f h.2.2.1) (Expr.below_congr hnode f h.2.2.1)))
  | .concat l r, h => and_congr (Expr.forall_congr_of_below (hnode l h.1) (Expr.below_congr hnode l h.1))
    (Expr.forall_congr_of_below (hnode r h.2) (Expr.below_congr hnode r h.2))
  | .bin _ l r, h | .cmp _ l r, h => and_congr (Expr.forall_congr_of_below (hnode l h.1) (Expr.below_congr hnode l h.1))
    (Expr.forall_congr_of_below (hnode r h.2.1) (Expr.below_congr hnode r h.2.1))

theorem Updates.below_congr (hnode : ∀ e : Expr, e.Ok N → e.Below P → (P e ↔ Q e)) :
    ∀ u : Updates, u.Ok N → (u.Below P ↔ u.Below Q)
  | .nil, _ => Iff.rfl
  | .cons index value next, h =>
    and_congr (Expr.forall_congr_of_below (hnode index h.1) (Expr.below_congr hnode index h.1))
      (and_congr (Expr.forall_congr_of_below (hnode value h.2.1) (Expr.below_congr hnode value h.2.1))
        (Updates.below_congr hnode next h.2.2.2.2))

end

theorem Expr.forall_congr (hnode : ∀ e : Expr, e.Ok N → e.Below P → (P e ↔ Q e)) (h : e.Ok N) :
    e.Forall P ↔ e.Forall Q := forall_congr_of_below (hnode e h) (below_congr hnode e h)

end Congr

theorem Expr.below_of_kids {P : Expr → Prop} (hk : ∀ k ∈ e.kids, k.Forall P)
    (hu : ∀ root head index, e = .read root head index → head.Below P) : e.Below P := by
  cases e with
  | constant c => trivial
  | read root head index => exact ⟨hu root head index rfl, hk index List.mem_cons_self⟩
  | _ =>
    simp only [kids, List.forall_mem_cons, List.not_mem_nil, false_imp_iff, implies_true, and_true] at hk
    exact hk

/-! ## Fresh nodes -/

/-- `Add` and `Sub`. -/
def BinKind.isSum : BinKind → Bool
  | .add | .sub => true
  | _ => false

/-- `And`, `Or` and `Xor`. -/
def BinKind.isLogic : BinKind → Bool
  | .and | .or | .xor => true
  | _ => false

/-- A sum or a difference with a constant on the left. -/
def Expr.hasOffset : Expr → Bool
  | .bin k (.constant _) _ => k.isSum
  | _ => false

/-- What is known where a node is allocated. -/
def Expr.Fresh : Expr → Prop
  | .bin k l r =>
    (l.isConstant = true → r.isConstant = false) ∧
    (k.isSum = true ∨ k = .mul ∨ k = .xor → r.isConstant = false) ∧
    (k.isSum = true → l.hasOffset = false ∧ r.hasOffset = false) ∧
    (k.isLogic = false → l.getWidth ≠ 1)
  | .cmp k l r => (k = .eq ∧ r.isConstant = false) ∨ ((k = .ult ∨ k = .ule ∨ k = .slt ∨ k = .sle) ∧ l.getWidth ≠ 1)
  | _ => True

/-- What `create` needs of a property of nodes to keep it. -/
structure CreateInvariant (P : Expr → Prop) : Prop where
  fresh : ∀ {e : Expr}, e.Fresh → P e
  right : ∀ {k : BinKind} {c : APInt} {r : Expr}, P (.bin k (.constant c) r) → r.isConstant = false

theorem Expr.isConstant_eq_false (h : ∀ c, e = .constant c → False) : e.isConstant = false := by
  cases e with
  | constant c => exact (h c rfl).elim
  | _ => rfl

theorem Expr.hasOffset_eq_false (hadd : ∀ k a, e = .bin .add (.constant k) a → False)
    (hsub : ∀ k a, e = .bin .sub (.constant k) a → False) : e.hasOffset = false := by
  unfold hasOffset
  split
  · rename_i k c r
    cases k with
    | add => exact (hadd c r rfl).elim
    | sub => exact (hsub c r rfl).elim
    | _ => rfl
  · rfl

section Create

variable {P : Expr → Prop} (hP : CreateInvariant P)

include hP

theorem CreateInvariant.constant (c : APInt) : (Expr.constant c).Forall P := ⟨hP.fresh trivial, trivial⟩

theorem CreateInvariant.bin (h : (Expr.bin k l r).Fresh) (hl : l.Forall P) (hr : r.Forall P) :
    (Expr.bin k l r).Forall P := ⟨hP.fresh h, hl, hr⟩

-- What `create` returns is a ladder of tests, with operands, constants and fresh nodes at its ends.
attribute [local grind] Expr.Forall Expr.Below Expr.Fresh Expr.isConstant Expr.hasOffset Expr.getWidth BinKind.isSum
  BinKind.isLogic BinKind.isDiv
attribute [local grind ←] CreateInvariant.constant CreateInvariant.bin Expr.isConstant_eq_false Expr.hasOffset_eq_false

/-! ## The dispatch on constant operands -/

theorem constBin_forall {rest : Expr} (h : r.isConstant = false → rest.Forall P) : (constBin k cl r rest).Forall P := by
  unfold constBin
  grind

/-- `BCREATE_R` calls the functions of one constant operand with another operand that is not one. -/
theorem bcreateR_forall {createPartial : Expr → APInt → Expr} {createPartialR : APInt → Expr → Expr}
    (hL : ∀ cr, l.isConstant = false → (createPartial l cr).Forall P)
    (hR : ∀ cl, r.isConstant = false → (createPartialR cl r).Forall P)
    (hC : l.isConstant = false → r.isConstant = false → (create l r).Forall P) :
    (bcreateR k createPartial createPartialR create l r).Forall P := by
  unfold bcreateR
  grind

/-! ## And, Or, Mul -/

theorem andExprCreatePartial_forall (hl : l.Forall P) (hn : l.isConstant = false) :
    (andExprCreatePartial l cr).Forall P := by
  unfold andExprCreatePartial
  grind

theorem orExprCreatePartial_forall (hl : l.Forall P) (hn : l.isConstant = false) :
    (orExprCreatePartial l cr).Forall P := by
  unfold orExprCreatePartial
  grind

section

variable (hl : l.Forall P) (hr : r.Forall P)

include hl hr

theorem AndExpr.create_forall : (AndExpr.create l r).Forall P :=
  bcreateR_forall hP (fun _ => andExprCreatePartial_forall hP hl) (fun _ => andExprCreatePartial_forall hP hr)
    fun _ _ => by grind

theorem OrExpr.create_forall : (OrExpr.create l r).Forall P :=
  bcreateR_forall hP (fun _ => orExprCreatePartial_forall hP hl) (fun _ => orExprCreatePartial_forall hP hr)
    fun _ _ => by grind

omit hl hr in
theorem mulExprCreatePartialR_forall (hr : r.Forall P) (hn : r.isConstant = false) :
    (mulExprCreatePartialR cl r).Forall P := by
  unfold mulExprCreatePartialR
  grind [andExprCreatePartialR, andExprCreatePartial_forall]

theorem MulExpr.create_forall : (MulExpr.create l r).Forall P := by
  refine bcreateR_forall hP (fun _ => mulExprCreatePartialR_forall hP hl)
    (fun _ => mulExprCreatePartialR_forall hP hr) ?_
  intro hnl hnr
  unfold mulExprCreate
  grind

/-! ## Eq -/

theorem eqExprCreate_forall (hn : r.isConstant = false) : (eqExprCreate l r).Forall P := by
  have hnew : (Expr.cmp .eq l r).Forall P := ⟨hP.fresh (.inl ⟨rfl, hn⟩), hl, hr⟩
  unfold eqExprCreate
  grind

end

theorem eqConst_forall {c : APInt} {rest : Expr} (h : e.isConstant = false → rest.Forall P) :
    (eqConst e c rest).Forall P := by
  unfold eqConst
  grind

theorem tryConstArrayOpt_forall {root : Array} {head : Updates} {index : Expr} {f : Nat → Expr}
    (hr : (Expr.read root head index).Forall P) (hf : ∀ i, (f i).Forall P) :
    (tryConstArrayOpt cl root head index f).Forall P := by
  have heq := eqExprCreate_forall hP (hP.constant cl) hr rfl
  unfold tryConstArrayOpt
  split
  · exact heq
  · split
    · exact heq
    · exact List.foldlRecOn _ _ (hP.constant _) fun res hres i _ => OrExpr.create_forall hP hres (hf i)

variable [Options]

theorem eqExprCreatePartialR_forall (cl : APInt) (r : Expr) (h : r.Forall P) (hn : r.isConstant = false) :
    (eqExprCreatePartialR cl r).Forall P := by
  have hc (c : APInt) := hP.constant c
  fun_induction eqExprCreatePartialR cl r with
  | case1 => exact h
  | case2 => exact h.2.2
  | case3 => exact eqExprCreate_forall hP (hc _) h hn
  | case4 cl hw _ a b iha ihb =>
    exact AndExpr.create_forall hP (eqConst_forall hP (iha h.2.1)) (eqConst_forall hP (ihb h.2.2))
  | case5 => exact eqExprCreate_forall hP (hc _) h hn
  | case6 cl hw src _ trunc ht ih => exact eqConst_forall hP (ih h.2)
  | case7 => exact hc _
  | case8 cl hw src _ trunc ht ih => exact eqConst_forall hP (ih h.2)
  | case9 => exact hc _
  | case10 cl hw k b ih => exact ih h.2.2 (hP.right h.1)
  | case11 cl hw k b ih => exact ih h.2.2 (hP.right h.1)
  | case12 cl hw root head index ho ih =>
    exact tryConstArrayOpt_forall hP h fun i => eqConst_forall hP (ih i h.2.2)
  | case13 => exact eqExprCreate_forall hP (hc _) h hn
  | case14 => exact eqExprCreate_forall hP (hc _) h hn

theorem EqExpr.create_forall (hl : l.Forall P) (hr : r.Forall P) : (EqExpr.create l r).Forall P := by
  have hR := eqExprCreatePartialR_forall hP
  have hC := eqExprCreate_forall hP hl hr
  unfold EqExpr.create
  grind

theorem Expr.createIsZero_forall (h : e.Forall P) : e.createIsZero.Forall P :=
  EqExpr.create_forall hP h (hP.constant _)

/-! ## Xor, Add, Sub -/

theorem xorExprCreatePartialR_forall (hr : r.Forall P) (hn : r.isConstant = false) :
    (xorExprCreatePartialR cl r).Forall P := by
  have hR := eqExprCreatePartialR_forall hP
  unfold xorExprCreatePartialR
  grind

theorem XorExpr.create_forall (hl : l.Forall P) (hr : r.Forall P) : (XorExpr.create l r).Forall P :=
  bcreateR_forall hP (fun _ => xorExprCreatePartialR_forall hP hl) (fun _ => xorExprCreatePartialR_forall hP hr)
    fun _ _ => by grind

mutual

theorem addExprCreatePartialR_forall (cl : APInt) (r : Expr) (hr : r.Forall P) (hn : r.isConstant = false) :
    (addExprCreatePartialR cl r).Forall P := by
  unfold addExprCreatePartialR
  split
  · exact xorExprCreatePartialR_forall hP hr hn
  · rename_i hw
    split
    · exact hr
    · split
      · exact constBin_forall hP (addExprCreatePartialR_forall _ _ hr.2.2)
      · exact constBin_forall hP (subExprCreatePartialR_forall _ _ hr.2.2)
      · grind
termination_by sizeOf r

theorem subExprCreatePartialR_forall (cl : APInt) (r : Expr) (hr : r.Forall P) (hn : r.isConstant = false) :
    (subExprCreatePartialR cl r).Forall P := by
  unfold subExprCreatePartialR
  split
  · exact xorExprCreatePartialR_forall hP hr hn
  · rename_i hw
    split
    · exact constBin_forall hP (subExprCreatePartialR_forall _ _ hr.2.2)
    · exact constBin_forall hP (addExprCreatePartialR_forall _ _ hr.2.2)
    · grind
termination_by sizeOf r

end

theorem addConst_forall (hr : r.Forall P) : (addConst cl r).Forall P :=
  constBin_forall hP (addExprCreatePartialR_forall hP cl r hr)

theorem subConst_forall (hr : r.Forall P) : (subConst cl r).Forall P :=
  constBin_forall hP (subExprCreatePartialR_forall hP cl r hr)

theorem subByConst_forall (hl : l.Forall P) : (subByConst l cr).Forall P := by
  unfold subByConst
  split
  · exact hP.constant _
  · exact addExprCreatePartialR_forall hP _ _ hl (by grind)

mutual

theorem AddExpr.create_forall (l r : Expr) (hl : l.Forall P) (hr : r.Forall P) : (AddExpr.create l r).Forall P := by
  unfold AddExpr.create
  split
  · exact addConst_forall hP hr
  · exact addExprCreatePartialR_forall hP _ _ hl (by grind)
  · rename_i hnl hnr
    split
    · exact hP.bin (by grind) hl hr
    · rename_i hw
      split
      · exact addConst_forall hP (AddExpr.create_forall _ _ hl.2.2 hr)
      · exact addConst_forall hP (SubExpr.create_forall _ _ hr hl.2.2)
      · exact addConst_forall hP (AddExpr.create_forall _ _ hl hr.2.2)
      · exact addConst_forall hP (SubExpr.create_forall _ _ hl hr.2.2)
      · exact hP.bin (by grind) hl hr
termination_by sizeOf l + sizeOf r

theorem SubExpr.create_forall (l r : Expr) (hl : l.Forall P) (hr : r.Forall P) : (SubExpr.create l r).Forall P := by
  unfold SubExpr.create
  split
  · exact subConst_forall hP hr
  · exact addExprCreatePartialR_forall hP _ _ hl (by grind)
  · rename_i hnl hnr
    split
    · exact hP.bin (by grind) hl hr
    · rename_i hw
      split
      · exact hP.constant _
      · split
        · exact addConst_forall hP (SubExpr.create_forall _ _ hl.2.2 hr)
        · exact subConst_forall hP (AddExpr.create_forall _ _ hl.2.2 hr)
        · exact subByConst_forall hP (SubExpr.create_forall _ _ hl hr.2.2)
        · exact subByConst_forall hP (AddExpr.create_forall _ _ hl hr.2.2)
        · exact hP.bin (by grind) hl hr
termination_by sizeOf l + sizeOf r

end

/-! ## Extract, Concat, ZExt, SExt -/

section Slice

omit [Options]

theorem zextWiden_forall (h : e.Forall P) : (zextWiden e w).Forall P := by
  have hnew {x : Expr} (hx : x.Forall P) : (Expr.zext x w).Forall P := ⟨hP.fresh trivial, hx⟩
  unfold zextWiden
  grind

theorem concatWith_forall {ext : Expr → Nat → Nat → Expr}
    (hext : ∀ e off w, e.Forall P → (ext e off w).Forall P) (hl : l.Forall P) (hr : r.Forall P) :
    (concatWith ext l r).Forall P := by
  have hnew : (Expr.concat l r).Forall P := ⟨hP.fresh trivial, hl, hr⟩
  unfold concatWith
  grind

theorem extractStep_forall {ext : Expr → Nat → Nat → Expr} (hext : ∀ e off w, e.Forall P → (ext e off w).Forall P)
    (e : Expr) (off w : Nat) (h : e.Forall P) : (extractStep ext e off w).Forall P := by
  have hnew : (Expr.extract e off w).Forall P := ⟨hP.fresh trivial, h⟩
  unfold extractStep
  grind [zextWiden_forall, concatWith_forall]

theorem extractFuel_forall (fuel : Nat) : ∀ (e : Expr) (off w : Nat), e.Forall P →
    (extractFuel fuel e off w).Forall P := by
  induction fuel with
  | zero => exact fun e off w h => ⟨hP.fresh trivial, h⟩
  | succ fuel ih => exact extractStep_forall hP ih

theorem ExtractExpr.create_forall {off : Nat} (h : e.Forall P) :
    (ExtractExpr.create e off w).Forall P := extractFuel_forall hP _ e off w h

theorem ConcatExpr.create_forall (hl : l.Forall P) (hr : r.Forall P) : (ConcatExpr.create l r).Forall P :=
  concatWith_forall hP (fun _ _ _ => ExtractExpr.create_forall hP) hl hr

theorem ZExtExpr.create_forall (h : e.Forall P) : (ZExtExpr.create e w).Forall P := by
  unfold ZExtExpr.create
  grind [ExtractExpr.create_forall, zextWiden_forall]

theorem SExtExpr.create_forall (h : e.Forall P) : (SExtExpr.create e w).Forall P := by
  have hnew : (Expr.sext e w).Forall P := ⟨hP.fresh trivial, h⟩
  unfold SExtExpr.create
  grind [ExtractExpr.create_forall]

end Slice

/-! ## Not, shifts, divisions, comparisons -/

section Dispatch

omit [Options]

theorem bcreate_forall
    (h : (l.isConstant = true → r.isConstant = false) → (create l r).Forall P) : (bcreate k create l r).Forall P := by
  unfold bcreate
  grind

theorem cmpcreate_forall {k : CmpKind} (h : (create l r).Forall P) : (cmpcreate k create l r).Forall P := by
  unfold cmpcreate
  grind

theorem ashrExprCreate_forall (hl : l.Forall P) (hr : r.Forall P)
    (hn : l.isConstant = true → r.isConstant = false) : (ashrExprCreate l r).Forall P := by
  unfold ashrExprCreate
  grind

theorem divExprCreate_forall (hk : k.isDiv = true) (hl : l.Forall P) (hr : r.Forall P)
    (hn : l.isConstant = true → r.isConstant = false) : (divExprCreate k l r).Forall P := by
  unfold divExprCreate
  cases k <;> grind

theorem divCreate_forall (hk : k.isDiv = true) (hl : l.Forall P) (hr : r.Forall P)
    (h : divCreate k l r = .ok e') : e'.Forall P := by
  unfold divCreate at h
  split at h
  · rename_i cl cr
    cases hb : cl.bin? k cr with
    | error t =>
      rw [hb] at h
      cases h
    | ok c =>
      rw [hb] at h
      cases h
      exact hP.constant _
  · cases h
    exact divExprCreate_forall hP hk hl hr (by grind)

theorem NotExpr.create_forall (h : e.Forall P) : (NotExpr.create e).Forall P := by
  have hnew : (Expr.not e).Forall P := ⟨hP.fresh trivial, h⟩
  unfold NotExpr.create
  grind

end Dispatch

theorem shiftExprCreate_forall (hs : k.isSum = false) (hm : k ≠ .mul) (hx : k ≠ .xor)
    (hl : l.Forall P) (hr : r.Forall P) (hn : l.isConstant = true → r.isConstant = false) :
    (shiftExprCreate k l r).Forall P := by
  unfold shiftExprCreate
  grind [AndExpr.create_forall, Expr.createIsZero_forall]

omit [Options] in
/-- An order of booleans is a formula, one of wider operands a fresh node. -/
theorem order_forall {k : CmpKind} (hk : k = .ult ∨ k = .ule ∨ k = .slt ∨ k = .sle) (hl : l.Forall P)
    (hr : r.Forall P) (he : e.Forall P) : (if l.getWidth = 1 then e else .cmp k l r).Forall P := by
  split
  · exact he
  · exact ⟨hP.fresh (.inr ⟨hk, ‹_›⟩), hl, hr⟩

section

variable (hl : l.Forall P) (hr : r.Forall P)

include hl hr

theorem ultExprCreate_forall : (ultExprCreate l r).Forall P :=
  order_forall hP (by simp) hl hr (AndExpr.create_forall hP (Expr.createIsZero_forall hP hl) hr)

theorem uleExprCreate_forall : (uleExprCreate l r).Forall P :=
  order_forall hP (by simp) hl hr (OrExpr.create_forall hP (Expr.createIsZero_forall hP hl) hr)

theorem sltExprCreate_forall : (sltExprCreate l r).Forall P :=
  order_forall hP (by simp) hl hr (AndExpr.create_forall hP hl (Expr.createIsZero_forall hP hr))

theorem sleExprCreate_forall : (sleExprCreate l r).Forall P :=
  order_forall hP (by simp) hl hr (OrExpr.create_forall hP hl (Expr.createIsZero_forall hP hr))

end

/-! ## Select, Read -/

theorem SelectExpr.create_forall {c t f : Expr} (hc : c.Forall P) (ht : t.Forall P) (hf : f.Forall P) :
    (SelectExpr.create c t f).Forall P := by
  have hz := Expr.createIsZero_forall hP hc
  have hnew : (Expr.select c t f).Forall P := ⟨hP.fresh trivial, hc, ht, hf⟩
  unfold SelectExpr.create
  grind [OrExpr.create_forall, AndExpr.create_forall]

omit hP in
theorem readUpdates_forall {index v : Expr} : ∀ {u : Updates}, u.Below P → readUpdates index u = some v → v.Forall P
  | .nil, _, h => by cases h
  | .cons i value next, hu, h => by
    unfold readUpdates at h
    split at h
    · split at h
      · cases h
        exact hu.2.1
      · exact readUpdates_forall hu.2.2 h
    · cases h

theorem ReadExpr.create_forall {root : Array} {head : Updates} {index : Expr} (hh : head.Below P)
    (hi : index.Forall P) : (ReadExpr.create root head index).Forall P := by
  unfold ReadExpr.create
  cases h : readUpdates index head with
  | none => exact ⟨hP.fresh trivial, hh, hi⟩
  | some v => exact readUpdates_forall hh h

/-! ## All kinds -/

theorem CmpKind.create_forall (k : CmpKind) (hl : l.Forall P) (hr : r.Forall P) : (k.create l r).Forall P := by
  cases k with
  | eq => exact EqExpr.create_forall hP hl hr
  | ne => exact EqExpr.create_forall hP (hP.constant _) (EqExpr.create_forall hP hl hr)
  | ult => exact cmpcreate_forall hP (ultExprCreate_forall hP hl hr)
  | ule => exact cmpcreate_forall hP (uleExprCreate_forall hP hl hr)
  | ugt => exact cmpcreate_forall hP (ultExprCreate_forall hP hr hl)
  | uge => exact cmpcreate_forall hP (uleExprCreate_forall hP hr hl)
  | slt => exact cmpcreate_forall hP (sltExprCreate_forall hP hl hr)
  | sle => exact cmpcreate_forall hP (sleExprCreate_forall hP hl hr)
  | sgt => exact cmpcreate_forall hP (sltExprCreate_forall hP hr hl)
  | sge => exact cmpcreate_forall hP (sleExprCreate_forall hP hr hl)

theorem BinKind.create_forall (k : BinKind) (hl : l.Forall P) (hr : r.Forall P)
    (h : k.create l r = .ok e') : e'.Forall P := by
  cases k with
  | add => cases h; exact AddExpr.create_forall hP l r hl hr
  | sub => cases h; exact SubExpr.create_forall hP l r hl hr
  | mul => cases h; exact MulExpr.create_forall hP hl hr
  | and => cases h; exact AndExpr.create_forall hP hl hr
  | or => cases h; exact OrExpr.create_forall hP hl hr
  | xor => cases h; exact XorExpr.create_forall hP hl hr
  | shl => cases h; exact bcreate_forall hP (shiftExprCreate_forall hP rfl (by decide) (by decide) hl hr)
  | lshr => cases h; exact bcreate_forall hP (shiftExprCreate_forall hP rfl (by decide) (by decide) hl hr)
  | ashr => cases h; exact bcreate_forall hP (ashrExprCreate_forall hP hl hr)
  | udiv | sdiv | urem | srem => exact divCreate_forall hP rfl hl hr h

/-- Every node that `create` returns is a node of an operand or has been allocated by one of the functions. -/
theorem Expr.create_forall (h : e.Below P) (hc : e.create = .ok e') : e'.Forall P := by
  cases e with
  | constant c => cases hc; exact hP.constant c
  | notOptimized x => cases hc; exact ⟨hP.fresh trivial, h⟩
  | read root head index => cases hc; exact ReadExpr.create_forall hP h.1 h.2
  | select c t f => cases hc; exact SelectExpr.create_forall hP h.1 h.2.1 h.2.2
  | concat l r => cases hc; exact ConcatExpr.create_forall hP h.1 h.2
  | extract x off w => cases hc; exact ExtractExpr.create_forall hP h
  | not x => cases hc; exact NotExpr.create_forall hP h
  | zext x w => cases hc; exact ZExtExpr.create_forall hP h
  | sext x w => cases hc; exact SExtExpr.create_forall hP h
  | bin k l r => exact k.create_forall hP h.1 h.2 hc
  | cmp k l r => cases hc; exact k.create_forall hP h.1 h.2

end Create

end S2E.Klee
