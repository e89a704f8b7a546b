import S2E.Klee.Expr.Visitor

/-!
# `ExprEvaluator` and `Assignment`

* `Bindings` : the class `Assignment`, a table of arrays with their bytes. `Bindings.total` reads an unbound byte as
  zero;
* `exprEvaluator`, `Bindings.evaluate`, `Bindings.satisfies` : the visitor that replaces the reads by bytes, and its two
  uses. Divisions are protected: a divisor that evaluates to zero stays as it was;
* `Expr.Evaluates σ e res` : `res` may stand for `e` under `σ`, and it is the constant of the value of `e` where the
  evaluated part of `e` reduces (`Expr.Reduces`) and divides by zero nowhere (`Expr.DivOk`);
* `exprEvaluator_visit` : the relation between an expression and the result of the visit, and that the visit returns
  where no divisor is the literal zero (`NodeCond.literalDivisors`).
-/

namespace S2E.Klee

open S2E.Lib List
open BitVec (setWidth_eq)
open Expr (bin const create eval_constant kids read rebuild weight withKids)

/-- `klee::Assignment`. -/
structure Bindings where
  allowFreeValues : Bool := false
  bindings : List (Array × List (BitVec 8)) := []
deriving DecidableEq

/-- The bytes of the assignment, zero where none is bound. -/
def Bindings.total (a : Bindings) : Assignment := fun root i => ((a.bindings.lookup root).getD []).getD i 0

def Expr.isRead : Expr → Bool
  | .read _ _ _ => true
  | _ => false

/-- `Expr::isTrue`. -/
def Expr.isTrue : Expr → Bool
  | .constant CE => CE.isTrue
  | _ => false

/-- The condition under which `ExprEvaluator::visitExpr` builds the node again. -/
def Expr.isOverConstants (e : Expr) : Bool := !e.kids.isEmpty && !e.isRead && e.kids.all Expr.isConstant

section

variable [Options]

/-- `Assignment::evaluate(array, index)`. -/
def Bindings.evaluateByte (a : Bindings) (array : Array) (index : Nat) : Expr :=
  match (a.bindings.lookup array).bind (·[index]?) with
  | some byte => .constant ⟨8, byte⟩
  | none => if a.allowFreeValues then ReadExpr.create array .nil (.const index 32) else .const 0 8

section

variable (getInitialValue : Array → Nat → Expr) (visit : Expr → VisitM Expr)

/-- `ExprEvaluator::evalRead`. -/
def evalRead (root : Array) (index : Nat) : Updates → VisitM Expr
  | .nil =>
    if root.isConstantArray && index < root.size then pure (.constant ⟨8, root.constantValues.getD index 0⟩)
    else pure (getInitialValue root index)
  | .cons i value next => do
    match ← visit i with
    | .constant CE => if CE.getZExtValue = index then visit value else evalRead root index next
    -- the update may or may not be at the index: read at this version
    | _ => pure (ReadExpr.create root (.cons i value next) (.const index 32))

/-- `ExprEvaluator::visitRead`. -/
def visitRead (root : Array) (head : Updates) (index : Expr) : VisitM Action := do
  match ← visit index with
  | .constant CE => return .changeTo (← evalRead getInitialValue visit root CE.getZExtValue head)
  | _ => return .doChildren

/-- The divisor that `protectedDivOperation` uses. -/
def protectedDivisor (right r : Expr) : Expr :=
  match r with
  | .constant CE => if CE.isZero then right else r
  | _ => r

/-- `ExprEvaluator::protectedDivOperation`. -/
def protectedDivOperation (kind : BinKind) (left right : Expr) : VisitM Action := do
  let l ← visit left
  let r ← visit right
  let r := protectedDivisor right r
  if l ≠ left ∨ r ≠ right then return .changeTo (← StateT.lift ((Expr.bin kind left right).rebuild [l, r]))
  else return .skipChildren

/-- `ExprEvaluator`. Its `visitExpr` can stop, on a division of two constants, so that it is the first step of `visitKind`
here. -/
def exprEvaluator : ExprVisitor where
  visitKind visit e :=
    if e.isOverConstants then do return .changeTo (← StateT.lift (e.rebuild e.kids))
    else
      match e with
      | .read root head index => visitRead getInitialValue visit root head index
      | .bin kind left right => if kind.isDiv then protectedDivOperation visit kind left right else pure .doChildren
      | _ => pure .doChildren

end

/-- `Assignment::evaluate(e)`. -/
def Bindings.evaluate (a : Bindings) (e : Expr) : Except Trap Expr :=
  (((exprEvaluator a.evaluateByte).visit (e.weight + 1) e).run []).map Prod.fst

/-- The loop of `Assignment::satisfies`: one visitor for all the expressions. -/
def Bindings.satisfiesAll (a : Bindings) : List Expr → VisitM Bool
  | [] => pure true
  | e :: es => do
    let v ← (exprEvaluator a.evaluateByte).visit (e.weight + 1) e
    if v.isTrue then a.satisfiesAll es else pure false

/-- `Assignment::satisfies`. -/
def Bindings.satisfies (a : Bindings) (es : List Expr) : Except Trap Bool := ((a.satisfiesAll es).run []).map Prod.fst

end

/-! ## What the evaluator needs -/

/-- No divisor is the literal zero. -/
def NodeCond.literalDivisors : NodeCond where
  read _ _ := True
  div _ r := ∀ CE, r = .constant CE → CE.isZero = false

mutual

/-- The part of the expression that is evaluated under the assignment has no `NotOptimized`, which the evaluator does not
open, and no `Select` that it leaves as it is: one whose condition and chosen operand are constants and whose other
operand is not. -/
def Expr.Reduces (σ : Assignment) : Expr → Prop
  | .constant _ => True
  | .notOptimized _ => False
  | .not e | .extract e _ _ | .zext e _ | .sext e _ => e.Reduces σ
  | .read _ head index => index.Reduces σ ∧ head.Reduces σ (index.eval σ 32)
  | .select c t f =>
    c.Reduces σ ∧
      if c.eval σ 1 = 1#1 then t.Reduces σ ∧ (c.isConstant = true → t.isConstant = true → f.isConstant = true)
      else f.Reduces σ ∧ (c.isConstant = true → f.isConstant = true → t.isConstant = true)
  | .concat l r | .cmp _ l r | .bin _ l r => l.Reduces σ ∧ r.Reduces σ

def Updates.Reduces (σ : Assignment) : Updates → BitVec 32 → Prop
  | .nil, _ => True
  | .cons index value next, i =>
    index.Reduces σ ∧ if i = index.eval σ 32 then value.Reduces σ else next.Reduces σ i

end

/-- The constant that an expression evaluates to. -/
def Expr.valueOf (σ : Assignment) (e : Expr) : Expr := .constant ⟨e.getWidth, e.value σ⟩

theorem Expr.valueOf_constant (σ : Assignment) (c : APInt) : (constant c).valueOf σ = .constant c := by
  obtain ⟨w, b⟩ := c
  simp only [valueOf, getWidth, eval, setWidth_eq]

variable {a b c e index right : Expr} {Γ : Set Assignment}

theorem Expr.valueOf_eq {σ : Assignment} {w : Nat} (h : e.getWidth = w) : e.valueOf σ = .constant ⟨w, e.eval σ w⟩ := by
  subst h
  rfl

/-! ## Nodes over constants -/

section

variable {σ : Assignment} {e : Expr}

theorem Expr.eq_constant_of_isConstant (h : e.isConstant = true) : ∃ c, e = .constant c := by
  cases e with
  | constant c => exact ⟨c, rfl⟩
  | _ => cases h

/-- A node over constants, other than a read, meets every condition on reads. -/
theorem Expr.Ok.of_constants {P : NodeCond} (hdiv : ∀ l r, P.div l r) (h : e.WF) (hr : e.isRead = false)
    (hk : ∀ k ∈ e.kids, k.isConstant = true) : e.Ok P := by
  have hkid : ∀ k ∈ e.kids, k.Ok P := by
    intro k hmem
    obtain ⟨c, rfl⟩ := Expr.eq_constant_of_isConstant (hk k hmem)
    exact h.kid hmem
  cases e with
  | constant c => exact h
  | read root head index => cases hr
  | notOptimized x | not x => exact hkid x (by simp [kids])
  | extract x off w | zext x w | sext x w => exact ⟨hkid x (by simp [kids]), h.2⟩
  | select c t f =>
    exact ⟨hkid c (by simp [kids]), hkid t (by simp [kids]), hkid f (by simp [kids]), h.2.2.2⟩
  | concat l r => exact ⟨hkid l (by simp [kids]), hkid r (by simp [kids])⟩
  | cmp k l r => exact ⟨hkid l (by simp [kids]), hkid r (by simp [kids]), h.2.2⟩
  | bin k l r =>
    exact ⟨hkid l (by simp [kids]), hkid r (by simp [kids]), h.2.2.1, fun _ => hdiv _ _⟩

theorem ExtractExpr.create_constant (c : APInt) (off w : Nat) : ∃ c', create (.constant c) off w = .constant c' := by
  show ∃ c', extractStep (extractFuel 0) (.constant c) off w = _
  unfold extractStep
  split
  · exact ⟨c, rfl⟩
  · exact ⟨_, rfl⟩

variable [Options]

theorem BinKind.create_constant (k : BinKind) {cl cr : APInt} (h : k.isDiv = true → cr.isZero = false) :
    k.create (.constant cl) (.constant cr) = .ok (.constant (cl.bin k cr)) := by
  have hdiv : k.isDiv = true → divCreate k (.constant cl) (.constant cr) = .ok (.constant (cl.bin k cr)) := by
    intro hk
    simp [divCreate, APInt.bin?, h hk, Except.map]
  cases k with
  | add =>
    rw [create, AddExpr.create]
    rfl
  | sub =>
    rw [create, SubExpr.create]
    rfl
  | udiv | sdiv | urem | srem => exact hdiv rfl
  | _ => rfl

/-- A node over constants is folded, `NotOptimized` and a division by zero apart. -/
theorem Expr.create_constants (hr : e.isRead = false) (hred : e.Reduces σ) (hd : e.DivOk σ)
    (hk : ∀ k ∈ e.kids, k.isConstant = true) : ∃ c, e.create = .ok (.constant c) := by
  have hkid : ∀ k ∈ e.kids, ∃ c, k = .constant c := fun k hmem => eq_constant_of_isConstant (hk k hmem)
  cases e with
  | constant c => exact ⟨c, rfl⟩
  | read root head index => cases hr
  | notOptimized x => exact hred.elim
  | not x =>
    obtain ⟨c, rfl⟩ := hkid x (by simp [kids])
    exact ⟨_, rfl⟩
  | extract x off w =>
    obtain ⟨c, rfl⟩ := hkid x (by simp [kids])
    obtain ⟨c', hc'⟩ := ExtractExpr.create_constant c off w
    exact ⟨c', congrArg _ hc'⟩
  | zext x w =>
    obtain ⟨c, rfl⟩ := hkid x (by simp [kids])
    simp only [create, ZExtExpr.create, zextWiden]
    split
    · obtain ⟨c', hc'⟩ := ExtractExpr.create_constant c 0 w
      exact ⟨c', congrArg _ hc'⟩
    · split
      · exact ⟨c, rfl⟩
      · exact ⟨_, rfl⟩
  | sext x w =>
    obtain ⟨c, rfl⟩ := hkid x (by simp [kids])
    simp only [create, SExtExpr.create]
    split
    · exact ⟨c, rfl⟩
    · split
      · obtain ⟨c', hc'⟩ := ExtractExpr.create_constant c 0 w
        exact ⟨c', congrArg _ hc'⟩
      · exact ⟨_, rfl⟩
  | select c t f =>
    obtain ⟨c, rfl⟩ := hkid c (by simp [kids])
    obtain ⟨t, rfl⟩ := hkid t (by simp [kids])
    obtain ⟨f, rfl⟩ := hkid f (by simp [kids])
    by_cases hc : c.isTrue = true
    · exact ⟨t, by simp [create, SelectExpr.create, hc]⟩
    · exact ⟨f, by simp [create, SelectExpr.create, hc]⟩
  | concat l r =>
    obtain ⟨l, rfl⟩ := hkid l (by simp [kids])
    obtain ⟨r, rfl⟩ := hkid r (by simp [kids])
    exact ⟨_, rfl⟩
  | cmp k l r =>
    obtain ⟨l, rfl⟩ := hkid l (by simp [kids])
    obtain ⟨r, rfl⟩ := hkid r (by simp [kids])
    cases k <;> exact ⟨_, rfl⟩
  | bin k l r =>
    obtain ⟨l, rfl⟩ := hkid l (by simp [kids])
    obtain ⟨r, rfl⟩ := hkid r (by simp [kids])
    refine ⟨_, k.create_constant fun hk => ?_⟩
    rw [Bool.eq_false_iff]
    intro hz
    exact hd.2.2 hk (eval_of_isZero hz σ)

/-- A node over constants is folded to its value. -/
theorem Expr.create_eq_valueOf (h : e.WF) (hr : e.isRead = false) (hred : e.Reduces σ) (hd : e.DivOk σ)
    (hk : ∀ k ∈ e.kids, k.isConstant = true) : e.create = .ok (e.valueOf σ) := by
  obtain ⟨c, hc⟩ := create_constants hr hred hd hk
  have hs := create_simplifies h hc
  have hb : e.InBounds σ := h.of_constants (fun _ _ => trivial) hr hk
  rw [hc, ← valueOf_constant σ c, valueOf_eq hs.width, hs.eval σ hb]
  rfl

/-! ## The relation -/

structure Expr.Evaluates (σ : Assignment) (e res : Expr) : Prop where
  wf : res.WF
  equiv : e.Equiv {σ} res
  constant : e.isConstant = true → res = e
  value : e.Reduces σ → e.DivOk σ → res = e.valueOf σ

theorem Expr.Equiv.trans (h₁ : a.Equiv Γ b) (h₂ : b.Equiv Γ c) : a.Equiv Γ c where
  width := h₂.width.trans h₁.width
  inBounds σ hσ h := h₂.inBounds σ hσ (h₁.inBounds σ hσ h)
  eval σ hσ h := (h₂.eval_at hσ (h₁.inBounds σ hσ h) h₁.width).trans (h₁.eval σ hσ h)

theorem Expr.Simplifies.equiv (h : a.Simplifies b) : a.Equiv Γ b :=
  ⟨h.width, fun _ _ => h.ok _, fun σ _ => h.eval σ⟩

/-- What the evaluator builds from the results for the kids may stand for the node. -/
theorem Expr.Evaluates.rebuild {kids : List Expr} {e' : Expr} (h : e.WF)
    (hk : List.Forall₂ (fun k k' => k'.WF ∧ k.Equiv {σ} k') e.kids kids) (hc : e.rebuild kids = .ok e') :
    e'.WF ∧ e.Equiv {σ} e' := by
  have hwf : (e.withKids kids).WF :=
    h.withKids_equiv NodeCond.any_stable (hk.imp fun _ _ h => ⟨h.2, h.1⟩)
  have hs := Expr.create_simplifies hwf hc
  refine ⟨hs.wf hwf, Expr.Equiv.trans ⟨?_, ?_, ?_⟩ hs.equiv⟩
  · exact Expr.withKids_width (hk.imp fun _ _ h => h.2.width)
  · intro τ hτ hb
    refine hb.withKids_equiv (NodeCond.inBounds_stable hτ) ?_
    rw [forall₂_iff_get] at hk ⊢
    exact ⟨hk.1, fun i h₁ h₂ => ⟨(hk.2 i h₁ h₂).2, (hk.2 i h₁ h₂).2.inBounds τ hτ (hb.kid (get_mem _ _))⟩⟩
  · intro τ hτ hb
    exact Expr.eval_withKids h (hk.imp fun _ _ h => h.2) hτ hb

theorem Expr.Evaluates.of_constant {c : APInt} (h : (Expr.constant c).WF) :
    (Expr.constant c).Evaluates σ (.constant c) where
  wf := h
  equiv := .refl _
  constant _ := rfl
  value _ _ := (Expr.valueOf_constant σ c).symm

/-! ## Results for the kids -/

section Kids

variable {kids : List Expr}

/-- The node over the values of its kids is folded to its own value. -/
theorem Expr.rebuild_valueOf (h : e.WF) (hr : e.isRead = false) (hred : e.Reduces σ) (hd : e.DivOk σ)
    (hk : kids = e.kids.map (·.valueOf σ)) : e.rebuild kids = .ok (e.valueOf σ) := by
  have hsame : List.Forall₂ (fun k k' : Expr => k'.getWidth = k.getWidth ∧
      k'.eval σ k.getWidth = k.eval σ k.getWidth) e.kids kids := by
    rw [hk, forall₂_map_right_iff, forall₂_same]
    exact fun k _ => ⟨rfl, eval_constant _ σ⟩
  have hwidth : (e.withKids kids).getWidth = e.getWidth := withKids_width (hsame.imp fun _ _ h => h.1)
  have hval : (e.withKids kids).valueOf σ = e.valueOf σ := by
    rw [valueOf_eq hwidth, eval_withKids_of_eval h hsame]
    rfl
  have hwf : (e.withKids kids).WF := by
    refine h.withKids ?_ (fun _ _ _ _ _ _ => trivial) (fun _ _ _ _ _ _ _ _ => trivial)
    rw [hk, forall₂_map_right_iff, forall₂_same]
    exact fun k hmem => ⟨rfl, k.width_pos (h.kid hmem)⟩
  have hcreate : ∀ k ∈ (e.withKids kids).kids, k.isConstant = true := by
    subst hk
    cases e <;> simp [withKids, kids, valueOf, isConstant]
  have hread : (e.withKids kids).isRead = false := by
    subst hk
    cases e <;> first | rfl | cases hr
  have hred' : (e.withKids kids).Reduces σ := by
    subst hk
    cases e with
    | notOptimized x => exact hred.elim
    | read root head index => cases hr
    | _ => simp [withKids, kids, valueOf, Expr.Reduces, isConstant]
  have hd' : (e.withKids kids).DivOk σ := by
    subst hk
    cases e with
    | read root head index => cases hr
    | bin k l r =>
      refine ⟨trivial, trivial, fun hk => ?_⟩
      have hv : (r.valueOf σ).eval σ r.getWidth = r.eval σ r.getWidth := eval_constant _ σ
      exact fun hz => hd.2.2 hk (hv ▸ hz)
    | _ => simp [withKids, kids, valueOf, Expr.DivOk]
  rw [rebuild, create_eq_valueOf hwf hread hred' hd' hcreate, hval]

def Expr.isSelect : Expr → Bool
  | .select _ _ _ => true
  | _ => false

/-- All the kids of a node that is not a `Select` are evaluated. -/
theorem Expr.Evaluates.kids_eq (hs : e.isSelect = false) (hr : e.isRead = false) (hred : e.Reduces σ) (hd : e.DivOk σ)
    (hk : List.Forall₂ (Expr.Evaluates σ) e.kids kids) : kids = e.kids.map (·.valueOf σ) := by
  cases over_kids hk with
  | constant => rfl
  | notOptimized => exact hred.elim
  | read => cases hr
  | select => cases hs
  | extract hx | not hx | zext hx | sext hx => simp [kids, hx.value hred hd]
  | concat hl hr' | cmp hl hr' => simp [kids, hl.value hred.1 hd.1, hr'.value hred.2 hd.2]
  | bin hl hr' => simp [kids, hl.value hred.1 hd.1, hr'.value hred.2 hd.2.1]

/-- The condition of a `Select` and the operand that it chooses are evaluated. -/
theorem Expr.Evaluates.select {t f c' t' f' : Expr} (hred : (Expr.select c t f).Reduces σ)
    (hd : (Expr.select c t f).DivOk σ) (hc : c.Evaluates σ c') (ht : t.Evaluates σ t') (hf : f.Evaluates σ f') :
    c' = c.valueOf σ ∧ if c.eval σ 1 = 1#1 then t' = t.valueOf σ else f' = f.valueOf σ := by
  refine ⟨hc.value hred.1 hd.1, ?_⟩
  have hr := hred.2
  have hdiv := hd.2
  split
  · rename_i h
    rw [if_pos h] at hr hdiv
    exact ht.value hr.1 hdiv
  · rename_i h
    rw [if_neg h] at hr hdiv
    exact hf.value hr.1 hdiv

/-- A node that is evaluated and whose kids the visit leaves as they are is over constants. -/
theorem Expr.Evaluates.isConstant_kids (hr : e.isRead = false) (hred : e.Reduces σ) (hd : e.DivOk σ)
    (hk : List.Forall₂ (Expr.Evaluates σ) e.kids e.kids) : ∀ k ∈ e.kids, k.isConstant = true := by
  by_cases hs : e.isSelect = true
  · cases e with
    | select c t f =>
      obtain ⟨_, _, _, heq, hc, ht, hf⟩ := forall₂_three hk
      obtain ⟨rfl, rfl, rfl⟩ : _ ∧ _ ∧ _ := by simpa [kids] using heq
      obtain ⟨hcv, hv⟩ := select hred hd hc ht hf
      have hcc : c.isConstant = true := by rw [hcv]; rfl
      have hother := hred.2
      split at hv
      · rename_i h
        rw [if_pos h] at hother
        have htc : t.isConstant = true := by rw [hv]; rfl
        simp [kids, hcc, htc, hother.2 hcc htc]
      · rename_i h
        rw [if_neg h] at hother
        have hfc : f.isConstant = true := by rw [hv]; rfl
        simp [kids, hcc, hfc, hother.2 hcc hfc]
    | _ => cases hs
  · have hmap := kids_eq (Bool.eq_false_iff.2 hs) hr hred hd hk
    intro k hmem
    rw [hmap] at hmem
    obtain ⟨x, -, rfl⟩ := mem_map.1 hmem
    rfl

/-- What the evaluator builds from the results for the kids of a node that is evaluated. -/
theorem Expr.Evaluates.rebuild_eq (h : e.WF) (hr : e.isRead = false) (hred : e.Reduces σ) (hd : e.DivOk σ)
    (hk : List.Forall₂ (Expr.Evaluates σ) e.kids kids) : e.rebuild kids = .ok (e.valueOf σ) := by
  by_cases hs : e.isSelect = true
  · cases e with
    | select c t f =>
      obtain ⟨c', t', f', rfl, hc, ht, hf⟩ := forall₂_three hk
      obtain ⟨rfl, hv⟩ := select hred hd hc ht hf
      have hc1 : c.getWidth = 1 := h.2.2.2.1
      show Except.ok (SelectExpr.create (c.valueOf σ) t' f') = _
      rw [Expr.valueOf_eq hc1, SelectExpr.create, Expr.valueOf]
      simp only [Expr.getWidth, Expr.eval]
      by_cases hone : c.eval σ 1 = 1#1
      · rw [if_pos hone] at hv
        rw [if_pos hone, hone, hv]
        rfl
      · have hzero : c.eval σ 1 = 0#1 := by
          have : ∀ x : BitVec 1, x ≠ 1#1 → x = 0#1 := by decide
          exact this _ hone
        rw [if_neg hone] at hv
        rw [if_neg hone, hzero, hv, Expr.valueOf_eq h.2.2.2.2]
        rfl
    | _ => cases hs
  · exact Expr.rebuild_valueOf h hr hred hd (kids_eq (Bool.eq_false_iff.2 hs) hr hred hd hk)

end Kids

/-! ## The visit -/

def Expr.isDivision : Expr → Bool
  | .bin k _ _ => k.isDiv
  | _ => false

/-- What a decision of the evaluator about a node says. The kids are left to the traversal of a node that is not a
division and, if the node is evaluated, not over constants. -/
def Action.Right (σ : Assignment) (e : Expr) : Action → Prop
  | .skipChildren => e.Evaluates σ e
  | .changeTo argument => e.Evaluates σ argument
  | .doChildren =>
    e.isDivision = false ∧ (e.Reduces σ → e.DivOk σ → e.isRead = false ∧ ¬ ∀ k ∈ e.kids, k.isConstant = true)

section Visit

variable {getInitialValue : Array → Nat → Expr} {visit : Expr → VisitM Expr} {n : Nat}

/-- The update at a constant index is the one read. -/
theorem Expr.Evaluates.index_eq {CE : APInt} (h : index.Evaluates σ (.constant CE))
    (hw : index.getWidth = 32) (hv : index.InBounds σ ∨ index.Reduces σ ∧ index.DivOk σ) :
    CE = ⟨32, index.eval σ 32⟩ := by
  rcases hv with hb | ⟨hred, hd⟩
  · have hwidth : CE.width = 32 := h.equiv.width.trans hw
    obtain ⟨w, b⟩ := CE
    subst hwidth
    have heval := h.equiv.eval_at rfl hb hw
    rw [eval_constant] at heval
    rw [heval]
  · have hval := h.value hred hd
    rw [Expr.valueOf_eq hw] at hval
    exact Expr.constant.inj hval

/-- The initial byte: that of a constant array in bounds, else that of the assignment. -/
theorem evalRead_nil (hinit : ∀ root i, getInitialValue root i = .constant ⟨8, σ root i⟩) (root : Array) (index : Nat) :
    evalRead getInitialValue visit root index .nil = pure (.constant ⟨8, σ.initial root index⟩) := by
  rw [evalRead, hinit]
  by_cases hc : root.isConstantArray = true
  · have hlen : root.constantValues.length = root.size :=
      root.length_constantValues (by simpa [Array.isConstantArray] using hc)
    by_cases hlt : index < root.size
    · simp [hc, hlt, Assignment.initial, getD_eq_getElem?_getD, hlen]
    · have hnone : root.constantValues[index]? = none := getElem?_eq_none (by omega)
      simp [hlt, Assignment.initial, getD_eq_getElem?_getD, hnone]
  · have hnil : root.constantValues = [] := by simpa [Array.isConstantArray, Array.isSymbolicArray] using hc
    simp [hc, Assignment.initial, hnil]

/-- `res` may stand for the read of the updates at the index `i`, and it is the constant of the value where the part of the
updates that decides it reduces. -/
structure Updates.ReadsAs (σ : Assignment) (root : Array) (i : BitVec 32) (u : Updates) (res : Expr) : Prop where
  wf : res.WF
  equiv : (Expr.read root u (.constant ⟨32, i⟩)).Equiv {σ} res
  value : u.Reduces σ i → u.DivOk σ i → res = .constant ⟨8, u.eval σ root i⟩

namespace Updates.ReadsAs

variable {root : Array} {i : BitVec 32} {index value res : Expr} {next : Updates}

theorem nil : Updates.ReadsAs σ root i .nil (.constant ⟨8, σ.initial root i.toNat⟩) := by
  refine ⟨Nat.zero_lt_succ 7, ⟨rfl, fun _ _ _ => Nat.zero_lt_succ 7, fun τ hτ _ => ?_⟩, fun _ _ => rfl⟩
  obtain rfl : τ = σ := hτ
  simp only [Expr.getWidth, Expr.eval, Updates.eval, setWidth_eq]

theorem hit (hu : (Updates.cons index value next).WF) (hv : value.Evaluates σ res)
    (hhit : index.InBounds σ ∨ index.Reduces σ ∧ index.DivOk σ → i = index.eval σ 32) :
    Updates.ReadsAs σ root i (.cons index value next) res := by
  refine ⟨hv.wf, ⟨?_, ?_, ?_⟩, ?_⟩
  · exact hv.equiv.width.trans hu.2.2.2.1
  · exact fun τ hτ hb => hv.equiv.inBounds τ hτ hb.1.2.1
  · intro τ hτ hb
    obtain rfl : τ = σ := hτ
    simp only [Expr.getWidth, Expr.eval, Updates.eval, setWidth_eq]
    rw [if_pos (hhit (.inl hb.1.1))]
    exact hv.equiv.eval_at rfl hb.1.2.1 hu.2.2.2.1
  · intro hred hd
    have h := hhit (.inr ⟨hred.1, hd.1⟩)
    have hr := hred.2
    have hdv := hd.2
    rw [if_pos h] at hr hdv
    rw [hv.value hr hdv, Expr.valueOf_eq hu.2.2.2.1, Updates.eval, if_pos h]

theorem miss (hv : next.ReadsAs σ root i res)
    (hmiss : index.InBounds σ ∨ index.Reduces σ ∧ index.DivOk σ → i ≠ index.eval σ 32) :
    Updates.ReadsAs σ root i (.cons index value next) res := by
  refine ⟨hv.wf, ⟨hv.equiv.width, ?_, ?_⟩, ?_⟩
  · exact fun τ hτ hb => hv.equiv.inBounds τ hτ ⟨hb.1.2.2.2.2, hb.2⟩
  · intro τ hτ hb
    have h := hv.equiv.eval τ hτ ⟨hb.1.2.2.2.2, hb.2⟩
    obtain rfl : τ = σ := hτ
    simp only [Expr.getWidth, Expr.eval, Updates.eval, setWidth_eq] at h ⊢
    rw [h, if_neg (hmiss (.inl hb.1.1))]
  · intro hred hd
    have h := hmiss (.inr ⟨hred.1, hd.1⟩)
    have hr := hred.2
    have hdv := hd.2
    rw [if_neg h] at hr hdv
    rw [hv.value hr hdv, Updates.eval, if_neg h]

end Updates.ReadsAs

variable (ih : ∀ x : Expr, x.WF → Triple (Visited.Sound (Expr.Evaluates σ)) (visit x) (x.Evaluates σ)
  (fun _ => x.weight < n → ¬ x.Ok .literalDivisors))

include ih

theorem evalRead_spec (hinit : ∀ root i, getInitialValue root i = .constant ⟨8, σ root i⟩) {root : Array}
    {i : BitVec 32} : ∀ {u : Updates}, u.WF →
      Triple (Visited.Sound (Expr.Evaluates σ)) (evalRead getInitialValue visit root i.toNat u) (u.ReadsAs σ root i)
        (fun _ => u.weight < n → ¬ u.Ok .literalDivisors)
  | .nil, _ => by
    rw [evalRead_nil hinit]
    exact .pure .nil
  | .cons index value next, hu => by
    unfold evalRead
    refine .bind ((ih index hu.1).conseq (fun _ h => h) fun _ h hn hok => ?_) fun res hres => ?_
    · exact h (by simp only [Updates.weight] at hn; omega) hok.1
    split
    · rename_i CE
      have hidx := hres.index_eq hu.2.2.1
      split
      · rename_i heq
        have hhit : index.InBounds σ ∨ index.Reduces σ ∧ index.DivOk σ → i = index.eval σ 32 := by
          intro hv
          rw [hidx hv] at heq
          exact (BitVec.eq_of_toNat_eq heq).symm
        refine (ih value hu.2.1).conseq (fun res hv => .hit hu hv hhit) fun _ h hn hok => ?_
        exact h (by simp only [Updates.weight] at hn; omega) hok.2.1
      · rename_i hne
        have hmiss : index.InBounds σ ∨ index.Reduces σ ∧ index.DivOk σ → i ≠ index.eval σ 32 := by
          intro hv h
          rw [hidx hv, ← h] at hne
          exact hne rfl
        refine (evalRead_spec hinit hu.2.2.2.2).conseq (fun res hv => .miss hv hmiss) fun _ h hn hok => ?_
        exact h (by simp only [Updates.weight] at hn; omega) hok.2.2.2.2
    · rename_i hnc
      have hwf : (read root (.cons index value next) (.constant ⟨32, i⟩)).WF :=
        ⟨hu, Nat.zero_lt_succ 31, rfl, trivial⟩
      have hs := ReadExpr.create_simplifies hwf
      have hconst : const i.toNat 32 = .constant ⟨32, i⟩ := by simp [const, APInt.ofNat]
      rw [hconst]
      refine .pure ⟨hs.wf hwf, hs.equiv, fun hred hd => ?_⟩
      exact absurd (hres.value hred.1 hd.1) (hnc _)

theorem visitRead_spec (hinit : ∀ root i, getInitialValue root i = .constant ⟨8, σ root i⟩) {root : Array}
    {head : Updates} (he : (read root head index).WF) :
    Triple (Visited.Sound (Expr.Evaluates σ)) (visitRead getInitialValue visit root head index)
      (Action.Right σ (.read root head index))
      (fun _ => (read root head index).weight ≤ n → ¬ (read root head index).Ok .literalDivisors) := by
  have hpos := index.weight_pos
  unfold visitRead
  refine .bind ((ih index he.2.1).conseq (fun _ h => h) fun _ h hn hok => ?_) fun res hres => ?_
  · exact h (by simp only [weight] at hn; omega) hok.2.1
  split
  · rename_i CE
    have hwidth : CE.width = 32 := hres.equiv.width.trans he.2.2.1
    obtain ⟨w, i⟩ := CE
    subst hwidth
    -- the read at the constant stands for the read at the index
    have hread : (read root head index).Equiv {σ} (.read root head (.constant ⟨32, i⟩)) := by
      refine ⟨rfl, fun τ hτ hb => ?_, fun τ hτ hb => ?_⟩
      · refine ⟨hb.1, Nat.zero_lt_succ 31, rfl, ?_⟩
        exact (NodeCond.inBounds_stable hτ).read hb.2.1 he.2.2.1 hres.equiv hb.2.2.2
      · have heval := hres.equiv.eval_at hτ hb.2.1 he.2.2.1
        rw [eval_constant] at heval
        simp only [Expr.getWidth, Expr.eval, setWidth_eq, heval]
    refine .bind ((evalRead_spec ih hinit he.1).conseq (fun _ h => h) fun _ h hn hok => ?_) fun v hv => .pure ?_
    · exact h (by simp only [weight] at hn; omega) hok.1
    refine ⟨hv.wf, hread.trans hv.equiv, fun hc => (by cases hc), fun hred hd => ?_⟩
    have hidx : i = index.eval σ 32 := by
      have := hres.index_eq he.2.2.1 (.inr ⟨hred.1, hd.1⟩)
      simpa using this
    rw [hv.value (hidx ▸ hred.2) (hidx ▸ hd.2), hidx]
    simp only [Expr.valueOf, Expr.getWidth, Expr.eval, setWidth_eq]
  · rename_i hnc
    refine .pure ⟨rfl, fun hred hd => ?_⟩
    exact absurd (hres.value hred.1 hd.1) (hnc _)

omit ih in
/-- The divisor that is used may stand for the divisor, and it is not the literal zero unless the divisor is. -/
theorem Expr.Evaluates.protectedDivisor {r : Expr} (hwf : right.WF) (h : right.Evaluates σ r) :
    (protectedDivisor right r).WF ∧ right.Equiv {σ} (protectedDivisor right r) ∧
    (right.Reduces σ → right.DivOk σ → right.eval σ right.getWidth ≠ 0 →
      Klee.protectedDivisor right r = right.valueOf σ) ∧ ((∀ CE, right = .constant CE → CE.isZero = false) →
      ∀ CE, Klee.protectedDivisor right r = .constant CE → CE.isZero = false) := by
  unfold Klee.protectedDivisor
  split
  · rename_i CE
    split
    · rename_i hz
      refine ⟨hwf, .refl _, fun hred hd hne => ?_, fun hlit => hlit⟩
      have hval := h.value hred hd
      refine absurd ?_ hne
      rw [Expr.valueOf, Expr.constant.injEq] at hval
      subst hval
      exact (eval_constant _ σ).symm.trans (eval_of_isZero hz σ)
    · rename_i hz
      refine ⟨h.wf, h.equiv, fun hred hd _ => h.value hred hd, fun _ CE' hCE' => ?_⟩
      obtain rfl := Expr.constant.inj hCE'
      exact Bool.eq_false_iff.2 hz
  · rename_i hnc
    exact ⟨h.wf, h.equiv, fun hred hd _ => h.value hred hd, fun _ CE hCE => absurd hCE (hnc CE)⟩

theorem protectedDivOperation_spec {kind : BinKind} {left : Expr} (he : (bin kind left right).WF)
    (hk : kind.isDiv = true) (hover : (bin kind left right).isOverConstants = false) :
    Triple (Visited.Sound (Expr.Evaluates σ)) (protectedDivOperation visit kind left right)
      (Action.Right σ (.bin kind left right))
      (fun _ => (bin kind left right).weight ≤ n → ¬ (bin kind left right).Ok .literalDivisors) := by
  have hl0 := left.weight_pos
  have hr0 := right.weight_pos
  unfold protectedDivOperation
  refine .bind ((ih left he.1).conseq (fun _ h => h) fun _ h hn hok => ?_) fun l hl => ?_
  · exact h (by simp only [weight] at hn; omega) hok.1
  refine .bind ((ih right he.2.1).conseq (fun _ h => h) fun _ h hn hok => ?_) fun r hr => ?_
  · exact h (by simp only [weight] at hn; omega) hok.2.1
  obtain ⟨hwf, hequiv, hval, hlit⟩ := hr.protectedDivisor he.2.1
  have hkids : (bin kind left right).Reduces σ → (bin kind left right).DivOk σ →
      [l, protectedDivisor right r] = (bin kind left right).kids.map (·.valueOf σ) := by
    intro hred hd
    simp [kids, hl.value hred.1 hd.1, hval hred.2 hd.2.1 (hd.2.2 hk)]
  dsimp only
  split
  · refine .bind (Q := Expr.Evaluates σ (.bin kind left right)) (.lift ?_) fun e' he' => .pure he'
    cases hc : (bin kind left right).rebuild [l, protectedDivisor right r] with
    | error t =>
      intro _ hok
      obtain ⟨k, cl, cr, -, heq, hz⟩ := Expr.create_error hc
      obtain ⟨-, -, heq⟩ := Expr.bin.inj heq
      rw [hlit (hok.2.2.2 hk) cr heq] at hz
      cases hz
    | ok e' =>
      have hboth : List.Forall₂ (fun k k' => k'.WF ∧ k.Equiv {σ} k') (bin kind left right).kids
          [l, protectedDivisor right r] := .cons ⟨hl.wf, hl.equiv⟩ (.cons ⟨hwf, hequiv⟩ .nil)
      have hreb := Expr.Evaluates.rebuild he hboth hc
      refine ⟨hreb.1, hreb.2, fun h => (by cases h), fun hred hd => ?_⟩
      rw [Expr.rebuild_valueOf he rfl hred hd (hkids hred hd)] at hc
      exact (Except.ok.inj hc).symm
  · rename_i hsame
    obtain ⟨rfl, hright⟩ : l = left ∧ protectedDivisor right r = right := by
      constructor
      · grind
      · grind
    refine .pure ⟨he, .refl _, fun h => (by cases h), fun hred hd => ?_⟩
    -- both operands are constants, and the node was built again before
    have hk := hkids hred hd
    rw [hright] at hk
    obtain ⟨h1, h2⟩ : l = l.valueOf σ ∧ right = right.valueOf σ := by simpa [kids] using hk
    rw [h1, h2] at hover
    cases hover

omit ih in
theorem exprEvaluator_post (e : Expr) : (exprEvaluator getInitialValue).post e = e := by
  unfold ExprVisitor.post
  split <;> rfl

theorem exprEvaluator_visitKids (he : e.WF) (hright : Action.Right σ e .doChildren) :
    Triple (Visited.Sound (Expr.Evaluates σ)) ((exprEvaluator getInitialValue).visitKids visit e) (e.Evaluates σ)
      (fun _ => e.weight ≤ n → ¬ e.Ok .literalDivisors) := by
  unfold ExprVisitor.visitKids
  refine .bind (.mapM fun k hk => (ih k (he.kid hk)).conseq (fun _ h => h) fun _ h hn hok => ?_) fun kids hkids => ?_
  · exact h (lt_of_lt_of_le (Expr.weight_kid_lt hk) hn) (hok.kid hk)
  split
  · rename_i heq
    subst heq
    rw [exprEvaluator_post]
    refine .pure ⟨he, .refl _, fun _ => rfl, fun hred hd => ?_⟩
    obtain ⟨hr, hopen⟩ := hright.2 hred hd
    exact absurd (Expr.Evaluates.isConstant_kids hr hred hd hkids) hopen
  · rename_i hne
    refine .bind (Q := e.Evaluates σ) (.lift ?_) fun e' he' => ?_
    · cases hc : e.rebuild kids with
      | error t =>
        obtain ⟨k, cl, cr, hk, heq, -⟩ := Expr.create_error hc
        cases Expr.over_kids hkids with
        | bin hl hr =>
          obtain ⟨rfl, -⟩ := Expr.bin.inj heq
          rw [Action.Right, Expr.isDivision, hk] at hright
          cases hright.1
        | _ => cases heq
      | ok e' =>
        have hreb := Expr.Evaluates.rebuild he (hkids.imp fun _ _ h => ⟨h.wf, h.equiv⟩) hc
        refine ⟨hreb.1, hreb.2, fun h => ?_, fun hred hd => ?_⟩
        · obtain ⟨c, rfl⟩ := Expr.eq_constant_of_isConstant h
          cases hkids
          exact absurd rfl hne
        · rw [Expr.Evaluates.rebuild_eq he (hright.2 hred hd).1 hred hd hkids] at hc
          exact (Except.ok.inj hc).symm
    · rw [exprEvaluator_post]
      exact .pure he'

section

variable (hinit : ∀ root i, getInitialValue root i = .constant ⟨8, σ root i⟩) (he : e.WF)

include hinit he

theorem exprEvaluator_visitKind (hnc : e.isConstant = false) :
    Triple (Visited.Sound (Expr.Evaluates σ)) ((exprEvaluator getInitialValue).visitKind visit e) (Action.Right σ e)
      (fun _ => e.weight ≤ n → ¬ e.Ok .literalDivisors) := by
  simp only [exprEvaluator]
  split
  · rename_i hover
    obtain ⟨⟨-, hr⟩, hk⟩ : (_ ∧ e.isRead = false) ∧ ∀ k ∈ e.kids, k.isConstant = true := by
      simpa [Expr.isOverConstants] using hover
    have hself : ∀ k ∈ e.kids, k.WF ∧ k.Equiv {σ} k := fun k hmem => ⟨he.kid hmem, .refl k⟩
    refine .bind (Q := e.Evaluates σ) (.lift ?_) fun e' he' => .pure he'
    have hkids : e.withKids e.kids = e := by cases e <;> rfl
    cases hc : e.rebuild e.kids with
    | error t =>
      intro _ hok
      rw [rebuild, hkids] at hc
      obtain ⟨k, cl, cr, hdiv, rfl, hz⟩ := Expr.create_error hc
      rw [hok.2.2.2 hdiv cr rfl] at hz
      cases hz
    | ok e' =>
      have hreb := Expr.Evaluates.rebuild he (forall₂_same.2 hself) hc
      refine ⟨hreb.1, hreb.2, fun h => ?_, fun hred hd => ?_⟩
      · grind
      · rw [rebuild, hkids, Expr.create_eq_valueOf he hr hred hd hk] at hc
        exact (Except.ok.inj hc).symm
  · rename_i hover
    -- the kids of any other node that is not over constants are visited
    have hopen : e.isRead = false → e.isDivision = false → Action.Right σ e .doChildren := by
      intro hr hdiv
      refine ⟨hdiv, fun _ _ => ⟨hr, fun hk => hover ?_⟩⟩
      have hkids : e.kids.isEmpty = false := by
        cases e with
        | constant c => cases hnc
        | _ => rfl
      simp only [Expr.isOverConstants, hkids, hr, Bool.not_false, Bool.true_and, all_eq_true]
      exact hk
    cases e with
    | read root head index => exact visitRead_spec ih hinit he
    | bin kind left right =>
      dsimp only
      split
      · rename_i hk
        exact protectedDivOperation_spec ih he hk (Bool.eq_false_iff.2 hover)
      · rename_i hk
        exact .pure (hopen rfl (Bool.eq_false_iff.2 hk))
    | _ => exact .pure (hopen rfl rfl)

theorem exprEvaluator_visitActual :
    Triple (Visited.Sound (Expr.Evaluates σ)) ((exprEvaluator getInitialValue).visitActual visit e) (e.Evaluates σ)
      (fun _ => e.weight ≤ n → ¬ e.Ok .literalDivisors) := by
  unfold ExprVisitor.visitActual
  split
  · rename_i hc
    obtain ⟨c, rfl⟩ := Expr.eq_constant_of_isConstant hc
    exact .pure (.of_constant he)
  · rename_i hc
    show Triple _ (_ >>= _) _ _
    refine .bind (exprEvaluator_visitKind ih hinit he (Bool.eq_false_iff.2 hc)) fun act hact => ?_
    cases act with
    | skipChildren => exact .pure hact
    | changeTo argument => exact .pure hact
    | doChildren => exact exprEvaluator_visitKids ih he hact

end

end Visit

theorem exprEvaluator_visit {getInitialValue : Array → Nat → Expr}
    (hinit : ∀ root i, getInitialValue root i = .constant ⟨8, σ root i⟩) (n : Nat) (e : Expr) (he : e.WF) :
    Triple (Visited.Sound (Expr.Evaluates σ)) ((exprEvaluator getInitialValue).visit n e) (e.Evaluates σ)
      (fun _ => e.weight < n → ¬ e.Ok .literalDivisors) :=
  ExprVisitor.visit_of_visitActual (fun he ih => exprEvaluator_visitActual ih hinit he) n e he

/-! ## `Assignment` -/

/-- Without free values every byte is a constant. -/
theorem Bindings.evaluateByte_eq {a : Bindings} (ha : a.allowFreeValues = false) (root : Array) (i : Nat) :
    a.evaluateByte root i = .constant ⟨8, a.total root i⟩ := by
  unfold evaluateByte total
  cases a.bindings.lookup root with
  | none => simp [ha, const, APInt.ofNat]
  | some bytes =>
    rw [Option.bind_some, Option.getD_some, getD_eq_getElem?_getD]
    cases bytes[i]? with
    | none => simp [ha, const, APInt.ofNat]
    | some byte => rfl

/-- The evaluation returns where no divisor is the literal zero, with an expression that may stand for the one given. -/
theorem Bindings.evaluate_spec {a : Bindings} (ha : a.allowFreeValues = false) (he : e.WF) :
    Outcome (a.evaluate e) (e.Evaluates a.total) (fun _ => ¬ e.Ok .literalDivisors) := by
  refine ((exprEvaluator_visit (a.evaluateByte_eq ha) (e.weight + 1) e he).outcome (s := []) ?_).conseq (fun _ h => h) ?_
  · intro p hp
    cases hp
  · exact fun _ h => h (Nat.lt_succ_self _)

end

end S2E.Klee
