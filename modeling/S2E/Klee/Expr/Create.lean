import S2E.Klee.Expr.Linear
import S2E.Klee.Expr.Slice

/-!
# The `create` function of every kind

* `Expr.create e` : the `create` function of the class of `e` applied to what the node `e` holds, so that `e` is the
  plain node of the call. Only the four division kinds can stop: they fold two constants through `APInt`;
* `Expr.create_simplifies` : what `create` returns may stand for the plain node.
-/

namespace S2E.Klee

open BitVec (ofBool)
open Expr (bin cmp const constant eval eval_cmp eval_constant getWidth read select weight)

/-! ## Booleans -/

variable {e e' l r : Expr} {k : BinKind}

theorem Expr.eval_isZero (h : e.getWidth = 1) (σ : Assignment) :
    (cmp .eq e (.const 0 1)).eval σ 1 = ofBool (e.eval σ 1 == 0#1) := by
  rw [eval_cmp h, const, APInt.ofNat, eval_constant]
  rfl

theorem Expr.Ok.isZero {P : NodeCond} (he : e.Ok P) (h : e.getWidth = 1) :
    (cmp .eq e (.const 0 1)).Ok P := ⟨he, Nat.zero_lt_one, h.symm⟩

theorem eval_of_isTrue {c : APInt} (hw : c.width = 1) (h : c.isTrue = true) (σ : Assignment) :
    (constant c).eval σ 1 = 1#1 := by
  obtain ⟨w, c⟩ := c
  subst hw
  rw [eval_constant]
  exact BitVec.eq_of_toNat_eq (by simpa [APInt.isTrue, APInt.getZExtValue] using h)

theorem eval_of_not_isTrue {c : APInt} (hw : c.width = 1) (h : c.isTrue = false) (σ : Assignment) :
    (constant c).eval σ 1 = 0#1 := by
  rw [eq_ofNat_of_not_isTrue hw h, APInt.ofNat, eval_constant]

/-! ## Divisions -/

/-- `UDivExpr_create`, `SDivExpr_create`, `URemExpr_create`, `SRemExpr_create`: at width one the divisor must be one. -/
def divExprCreate (kind : BinKind) (l r : Expr) : Expr :=
  if l.getWidth = 1 then
    match kind with
    | .urem | .srem => .const 0 1
    | _ => l
  else .bin kind l r

/-- `BCREATE` for the divisions. -/
def divCreate (kind : BinKind) : Expr → Expr → Except Trap Expr
  | .constant cl, .constant cr => (cl.bin? kind cr).map .constant
  | l, r => .ok (divExprCreate kind l r)

def UDivExpr.create : Expr → Expr → Except Trap Expr := divCreate .udiv

def SDivExpr.create : Expr → Expr → Except Trap Expr := divCreate .sdiv

def URemExpr.create : Expr → Expr → Except Trap Expr := divCreate .urem

def SRemExpr.create : Expr → Expr → Except Trap Expr := divCreate .srem

/-- A division stops on two constants of which the right one is zero, and then only. -/
theorem divCreate_error {t : Trap} (h : divCreate k l r = .error t) :
    ∃ cl cr, l = .constant cl ∧ r = .constant cr ∧ cr.isZero = true := by
  unfold divCreate at h
  split at h
  · rename_i cl cr
    refine ⟨cl, cr, rfl, rfl, ?_⟩
    unfold APInt.bin? at h
    split at h
    · grind
    · simp [Except.map] at h
  · simp at h

section

variable [Options]

/-! ## Rules at width one -/

section Logic

variable {b : BinKind} {l r : Expr}

theorem bin_zero (h1 : l.getWidth = 1)
    (he : ∀ σ, k.eval (l.eval σ 1) (r.eval σ 1) = 0#1) : (bin k l r).Simplifies (.const 0 1) where
  width := h1.symm
  ok P _ := Nat.zero_lt_one
  eval σ _ := by
    simp only [getWidth]
    rw [h1, const, APInt.ofNat, eval_constant, eval, he]
  weight := by
    have := l.weight_pos
    simp only [weight]
    omega

theorem cmp_bool_left {k : CmpKind} (hb : b.isDiv = false) (hw : b.weight + 2 ≤ k.weight)
    (he : ∀ x y : BitVec 1, b.eval (ofBool (x == 0#1)) y = ofBool (k.eval x y)) (h1 : l.getWidth = 1) :
    (cmp k l r).Simplifies (.bin b (.cmp .eq l (.const 0 1)) r) where
  width := rfl
  ok P hP := ⟨hP.1.isZero h1, hP.2.1, hP.2.2.trans h1, by simp [hb]⟩
  eval σ _ := by
    simp only [getWidth]
    rw [eval, Expr.eval_isZero h1, eval_cmp h1]
    exact he _ _
  weight := by simp only [weight, CmpKind.weight] at hw ⊢; omega

theorem cmp_bool_right {k : CmpKind} (hb : b.isDiv = false) (hw : b.weight + 2 ≤ k.weight)
    (he : ∀ x y : BitVec 1, b.eval x (ofBool (y == 0#1)) = ofBool (k.eval x y))
    (h : (cmp k l r).WF) (h1 : l.getWidth = 1) :
    (cmp k l r).Simplifies (.bin b l (.cmp .eq r (.const 0 1))) where
  width := h1
  ok P hP := ⟨hP.1, hP.2.1.isZero (hP.2.2.trans h1), h1.symm, by simp [hb]⟩
  eval σ _ := by
    simp only [getWidth]
    rw [eval, Expr.eval_isZero (h.2.2.trans h1), eval_cmp h1]
    exact he _ _
  weight := by simp only [weight, CmpKind.weight] at hw ⊢; omega

theorem bin_bool_right (hb : b.isDiv = false) (hw : b.weight + 2 ≤ k.weight)
    (he : ∀ x y : BitVec 1, b.eval x (ofBool (y == 0#1)) = k.eval x y)
    (h : (bin k l r).WF) (h1 : l.getWidth = 1) :
    (bin k l r).Simplifies (.bin b l (.cmp .eq r (.const 0 1))) where
  width := rfl
  ok P hP := ⟨hP.1, hP.2.1.isZero (hP.2.2.1.trans h1), h1.symm, by simp [hb]⟩
  eval σ _ := by
    simp only [getWidth]
    rw [h1, eval, Expr.eval_isZero (h.2.2.1.trans h1)]
    exact he _ _
  weight := by simp only [weight, CmpKind.weight] at hw ⊢; omega

end Logic

theorem divExprCreate_simplifies (hk : k.isDiv = true) : (bin k l r).Simplifies (divExprCreate k l r) := by
  have hdiv : ∀ x y : BitVec 1, (if y = 0 then x else x / y) = x := by decide
  have hsdiv : ∀ x y : BitVec 1, (if y = 0 then x else x.sdiv y) = x := by decide
  have hurem : ∀ x y : BitVec 1, (if y = 0 then 0 else x % y) = 0#1 := by decide
  have hsrem : ∀ x y : BitVec 1, (if y = 0 then 0 else x.srem y) = 0#1 := by decide
  unfold divExprCreate
  split
  · rename_i h1
    cases k with
    | udiv => exact bin_left (fun σ _ => by rw [h1]; exact hdiv _ _)
    | sdiv => exact bin_left (fun σ _ => by rw [h1]; exact hsdiv _ _)
    | urem => exact bin_zero h1 (fun σ => hurem _ _)
    | srem => exact bin_zero h1 (fun σ => hsrem _ _)
    | _ => simp [BinKind.isDiv] at hk
  · exact .refl _

theorem divCreate_simplifies (hk : k.isDiv = true) (h : divCreate k l r = .ok e') : (bin k l r).Simplifies e' := by
  unfold divCreate at h
  split at h
  · rename_i cl cr
    unfold APInt.bin? at h
    split at h
    · simp [Except.map] at h
    · obtain rfl : constant (cl.bin k cr) = e' := by simpa [Except.map] using h
      exact fold_bin k cl cr
  · obtain rfl : divExprCreate k l r = e' := by simpa using h
    exact divExprCreate_simplifies hk

/-! ## Rules of Select -/

section Select

variable {c t f : Expr}

theorem select_true (he : ∀ σ, c.eval σ 1 = 1#1) : (select c t f).Simplifies t where
  width := rfl
  ok P hP := hP.2.1
  eval σ _ := by simp only [getWidth, eval, he, if_true]
  weight := by simp only [weight]; omega

theorem select_false (he : ∀ σ, c.eval σ 1 ≠ 1#1) (h : (select c t f).WF) : (select c t f).Simplifies f where
  width := h.2.2.2.2
  ok P hP := hP.2.2.1
  eval σ _ := by simp only [getWidth, eval, he, if_false]
  weight := by simp only [weight]; omega

theorem select_same : (select c t t).Simplifies t where
  width := rfl
  ok P hP := hP.2.1
  eval σ _ := by simp only [getWidth, eval, ite_self]
  weight := by simp only [weight]; omega

/-- A boolean `Select` as a logical node. -/
theorem select_to_bin {b : BinKind} (hb : b.isDiv = false) (hw : (bin b l r).weight ≤ (select c t f).weight)
    (ht : t.getWidth = 1) (hl : l.getWidth = 1) (hr : r.getWidth = 1)
    (hok : ∀ P, (select c t f).Ok P → l.Ok P ∧ r.Ok P)
    (he : ∀ σ, b.eval (l.eval σ 1) (r.eval σ 1) = if c.eval σ 1 = 1#1 then t.eval σ 1 else f.eval σ 1) :
    (select c t f).Simplifies (.bin b l r) where
  width := hl.trans ht.symm
  ok P hP := ⟨(hok P hP).1, (hok P hP).2, hr.trans hl.symm, by simp [hb]⟩
  eval σ _ := by
    simp only [getWidth]
    rw [ht, eval, eval]
    exact he σ
  weight := hw

end Select

/-! ## The dispatch on two constants -/

/-- `BCREATE` for a kind that cannot stop. -/
def bcreate (kind : BinKind) (create : Expr → Expr → Expr) : Expr → Expr → Expr
  | .constant cl, .constant cr => .constant (cl.bin kind cr)
  | l, r => create l r

theorem bcreate_simplifies {create : Expr → Expr → Expr}
    (h : (bin k l r).Simplifies (create l r)) : (bin k l r).Simplifies (bcreate k create l r) := by
  unfold bcreate
  split
  · exact fold_bin k _ _
  · exact h

/-- `CMPCREATE`. -/
def cmpcreate (kind : CmpKind) (create : Expr → Expr → Expr) : Expr → Expr → Expr
  | .constant cl, .constant cr => .constant (cl.cmp kind cr)
  | l, r => create l r

theorem cmpcreate_simplifies {k : CmpKind} {create : Expr → Expr → Expr}
    (h : (cmp k l r).Simplifies (create l r)) : (cmp k l r).Simplifies (cmpcreate k create l r) := by
  unfold cmpcreate
  split
  · exact fold_cmp k _ _
  · exact h

def ashrExprCreate (l r : Expr) : Expr := if l.getWidth = 1 then l else .bin .ashr l r

theorem ashrExprCreate_simplifies : (bin .ashr l r).Simplifies (ashrExprCreate l r) := by
  have he : ∀ x y : BitVec 1, x.sshiftRight' y = x := by decide
  unfold ashrExprCreate
  split
  · rename_i h1
    exact bin_left (fun σ _ => by rw [h1]; exact he _ _)
  · exact .refl _

theorem cmp_ne : (cmp .ne l r).Simplifies (.cmp .eq (.const 0 1) (.cmp .eq l r)) where
  width := rfl
  ok P hP := ⟨Nat.zero_lt_one, hP, rfl⟩
  eval σ _ := by
    have hb : ∀ b : Bool, ofBool (0#1 == ofBool b) = ofBool (!b) := by decide
    simp only [getWidth, const, APInt.ofNat]
    rw [Expr.eval_eq_constant, eval_cmp rfl, eval_cmp rfl]
    exact hb _
  weight := by simp only [weight, CmpKind.weight]; omega

/-! ## Not -/

def NotExpr.create : Expr → Expr
  | .constant CE => .constant CE.not
  | e => .not e

def NotOptimizedExpr.create (src : Expr) : Expr := .notOptimized src

theorem NotExpr.create_simplifies : (Expr.not e).Simplifies (create e) := by
  unfold create
  split
  · rename_i c
    obtain ⟨w, c⟩ := c
    refine ⟨rfl, fun P hP => hP, fun σ _ => ?_, by simp [weight]⟩
    simp only [getWidth, APInt.not]
    rw [eval_constant, eval, eval_constant]
  · exact .refl _

/-! ## Select, Read -/

def SelectExpr.create (c t f : Expr) : Expr :=
  match c with
  | .constant CE => if CE.isTrue then t else f
  | c =>
    if t = f then t
    else if t.getWidth = 1 then
      match t, f with
      | .constant CE, f => if CE.isTrue then OrExpr.create c f else AndExpr.create c.createIsZero f
      | t, .constant CE => if CE.isTrue then OrExpr.create c.createIsZero t else AndExpr.create c t
      | t, f => .select c t f
    else .select c t f

/-- The loop of `ReadExpr::create`: the value of the first update whose index is known to be `index`, provided that the
indices before it are known to differ. -/
def readUpdates (index : Expr) : Updates → Option Expr
  | .nil => none
  | .cons i value next =>
    match EqExpr.create index i with
    | .constant CE => if CE.isTrue then some value else readUpdates index next
    | _ => none

def ReadExpr.create (root : Array) (head : Updates) (index : Expr) : Expr :=
  (readUpdates index head).getD (.read root head index)

/-! ## Shifts -/

/-- `ShlExpr_create`, `LShrExpr_create`: at width one, `l & !r`. -/
def shiftExprCreate (kind : BinKind) (l r : Expr) : Expr :=
  if l.getWidth = 1 then AndExpr.create l r.createIsZero else .bin kind l r

def ShlExpr.create : Expr → Expr → Expr := bcreate .shl (shiftExprCreate .shl)

def LShrExpr.create : Expr → Expr → Expr := bcreate .lshr (shiftExprCreate .lshr)

def AShrExpr.create : Expr → Expr → Expr := bcreate .ashr ashrExprCreate

/-! ## Comparisons -/

/-- `!l && r`. -/
def ultExprCreate (l r : Expr) : Expr :=
  if l.getWidth = 1 then AndExpr.create l.createIsZero r else .cmp .ult l r

/-- `!(l && !r)`. -/
def uleExprCreate (l r : Expr) : Expr :=
  if l.getWidth = 1 then OrExpr.create l.createIsZero r else .cmp .ule l r

/-- `l && !r`. -/
def sltExprCreate (l r : Expr) : Expr :=
  if l.getWidth = 1 then AndExpr.create l r.createIsZero else .cmp .slt l r

/-- `!(!l && r)`. -/
def sleExprCreate (l r : Expr) : Expr :=
  if l.getWidth = 1 then OrExpr.create l r.createIsZero else .cmp .sle l r

def UltExpr.create : Expr → Expr → Expr := cmpcreate .ult ultExprCreate

def UleExpr.create : Expr → Expr → Expr := cmpcreate .ule uleExprCreate

def SltExpr.create : Expr → Expr → Expr := cmpcreate .slt sltExprCreate

def SleExpr.create : Expr → Expr → Expr := cmpcreate .sle sleExprCreate

def NeExpr.create (l r : Expr) : Expr := EqExpr.create (.const 0 1) (EqExpr.create l r)

def UgtExpr.create (l r : Expr) : Expr := UltExpr.create r l

def UgeExpr.create (l r : Expr) : Expr := UleExpr.create r l

def SgtExpr.create (l r : Expr) : Expr := SltExpr.create r l

def SgeExpr.create (l r : Expr) : Expr := SleExpr.create r l

/-! ## All kinds -/

def BinKind.create : BinKind → Expr → Expr → Except Trap Expr
  | .add, l, r => .ok (AddExpr.create l r)
  | .sub, l, r => .ok (SubExpr.create l r)
  | .mul, l, r => .ok (MulExpr.create l r)
  | .udiv, l, r => UDivExpr.create l r
  | .sdiv, l, r => SDivExpr.create l r
  | .urem, l, r => URemExpr.create l r
  | .srem, l, r => SRemExpr.create l r
  | .and, l, r => .ok (AndExpr.create l r)
  | .or, l, r => .ok (OrExpr.create l r)
  | .xor, l, r => .ok (XorExpr.create l r)
  | .shl, l, r => .ok (ShlExpr.create l r)
  | .lshr, l, r => .ok (LShrExpr.create l r)
  | .ashr, l, r => .ok (AShrExpr.create l r)

def CmpKind.create : CmpKind → Expr → Expr → Expr
  | .eq => EqExpr.create
  | .ne => NeExpr.create
  | .ult => UltExpr.create
  | .ule => UleExpr.create
  | .ugt => UgtExpr.create
  | .uge => UgeExpr.create
  | .slt => SltExpr.create
  | .sle => SleExpr.create
  | .sgt => SgtExpr.create
  | .sge => SgeExpr.create

def Expr.create : Expr → Except Trap Expr
  | .constant c => .ok (.constant c)
  | .notOptimized e => .ok (NotOptimizedExpr.create e)
  | .read root head index => .ok (ReadExpr.create root head index)
  | .select c t f => .ok (SelectExpr.create c t f)
  | .concat l r => .ok (ConcatExpr.create l r)
  | .extract e off w => .ok (ExtractExpr.create e off w)
  | .not e => .ok (NotExpr.create e)
  | .zext e w => .ok (ZExtExpr.create e w)
  | .sext e w => .ok (SExtExpr.create e w)
  | .bin k l r => k.create l r
  | .cmp k l r => .ok (k.create l r)

/-- `Expr::rebuild`. -/
def Expr.rebuild (e : Expr) (kids : List Expr) : Except Trap Expr := (e.withKids kids).create

/-! ## Soundness: booleans -/

theorem Expr.createIsZero_simplifies (he : e.WF) (h : e.getWidth = 1) :
    (cmp .eq e (.const 0 1)).Simplifies e.createIsZero := by
  rw [createIsZero, h]
  exact EqExpr.create_simplifies (he.isZero h)

/-! The logical nodes that the rules at width one build: `create` is `AndExpr::create` or `OrExpr::create`. -/

section Logic

variable {b : BinKind} {create : Expr → Expr → Expr} {l r : Expr}

section

variable (hb : b.isDiv = false) (hc : ∀ {l r}, (bin b l r).WF → (bin b l r).Simplifies (create l r))

include hb hc

theorem logic_isZero_left (h : (bin b (.cmp .eq l (.const 0 1)) r).WF) :
    (bin b (.cmp .eq l (.const 0 1)) r).Simplifies (create l.createIsZero r) := by
  have hs := Expr.Simplifies.bin hb (Expr.createIsZero_simplifies h.1.1 h.1.2.2.symm) (.refl r) h
  exact hs.trans (hc (hs.wf h))

theorem logic_isZero_right (h : (bin b l (.cmp .eq r (.const 0 1))).WF) :
    (bin b l (.cmp .eq r (.const 0 1))).Simplifies (create l r.createIsZero) := by
  have hs := Expr.Simplifies.bin hb (.refl l) (Expr.createIsZero_simplifies h.2.1.1 h.2.1.2.2.symm) h
  exact hs.trans (hc (hs.wf h))

end

end Logic

/-! ## Soundness: shifts, comparisons -/

theorem shiftExprCreate_simplifies (hw : 3 ≤ k.weight)
    (he : ∀ x y : BitVec 1, x &&& ofBool (y == 0#1) = k.eval x y) (h : (bin k l r).WF) :
    (bin k l r).Simplifies (shiftExprCreate k l r) := by
  unfold shiftExprCreate
  split
  · rename_i h1
    have hs := bin_bool_right (b := .and) rfl hw he h h1
    exact hs.trans (logic_isZero_right rfl AndExpr.create_simplifies (hs.wf h))
  · exact .refl _

theorem ultExprCreate_simplifies (h : (cmp .ult l r).WF) : (cmp .ult l r).Simplifies (ultExprCreate l r) := by
  unfold ultExprCreate
  split
  · rename_i h1
    have hs := cmp_bool_left (b := .and) (k := .ult) (r := r) rfl (by decide) (by decide) h1
    exact hs.trans (logic_isZero_left rfl AndExpr.create_simplifies (hs.wf h))
  · exact .refl _

theorem uleExprCreate_simplifies (h : (cmp .ule l r).WF) : (cmp .ule l r).Simplifies (uleExprCreate l r) := by
  unfold uleExprCreate
  split
  · rename_i h1
    have hs := cmp_bool_left (b := .or) (k := .ule) (r := r) rfl (by decide) (by decide) h1
    exact hs.trans (logic_isZero_left rfl OrExpr.create_simplifies (hs.wf h))
  · exact .refl _

theorem sltExprCreate_simplifies (h : (cmp .slt l r).WF) : (cmp .slt l r).Simplifies (sltExprCreate l r) := by
  unfold sltExprCreate
  split
  · rename_i h1
    have hs := cmp_bool_right (b := .and) rfl (by decide) (by decide) h h1
    exact hs.trans (logic_isZero_right rfl AndExpr.create_simplifies (hs.wf h))
  · exact .refl _

theorem sleExprCreate_simplifies (h : (cmp .sle l r).WF) : (cmp .sle l r).Simplifies (sleExprCreate l r) := by
  unfold sleExprCreate
  split
  · rename_i h1
    have hs := cmp_bool_right (b := .or) rfl (by decide) (by decide) h h1
    exact hs.trans (logic_isZero_right rfl OrExpr.create_simplifies (hs.wf h))
  · exact .refl _

theorem CmpKind.create_simplifies (k : CmpKind) (h : (cmp k l r).WF) : (cmp k l r).Simplifies (k.create l r) := by
  cases k with
  | eq => exact EqExpr.create_simplifies h
  | ne =>
    have hs := cmp_ne.trans (.cmp (.refl _) (EqExpr.create_simplifies h) (cmp_ne.wf h))
    exact hs.trans (EqExpr.create_simplifies (hs.wf h))
  | ult => exact cmpcreate_simplifies (ultExprCreate_simplifies h)
  | ule => exact cmpcreate_simplifies (uleExprCreate_simplifies h)
  | slt => exact cmpcreate_simplifies (sltExprCreate_simplifies h)
  | sle => exact cmpcreate_simplifies (sleExprCreate_simplifies h)
  | ugt =>
    have hs := cmp_swap .ugt .ult le_rfl (fun _ _ _ => rfl) h
    exact hs.trans (cmpcreate_simplifies (ultExprCreate_simplifies (hs.wf h)))
  | uge =>
    have hs := cmp_swap .uge .ule le_rfl (fun _ _ _ => rfl) h
    exact hs.trans (cmpcreate_simplifies (uleExprCreate_simplifies (hs.wf h)))
  | sgt =>
    have hs := cmp_swap .sgt .slt le_rfl (fun _ _ _ => rfl) h
    exact hs.trans (cmpcreate_simplifies (sltExprCreate_simplifies (hs.wf h)))
  | sge =>
    have hs := cmp_swap .sge .sle le_rfl (fun _ _ _ => rfl) h
    exact hs.trans (cmpcreate_simplifies (sleExprCreate_simplifies (hs.wf h)))

/-! ## Soundness: Select, Read -/

theorem SelectExpr.create_simplifies {c t f : Expr} (h : (select c t f).WF) :
    (select c t f).Simplifies (create c t f) := by
  have hc1 : c.getWidth = 1 := h.2.2.2.1
  unfold create
  split
  · rename_i CE
    split
    · rename_i ht
      exact select_true (eval_of_isTrue hc1 ht)
    · rename_i ht
      refine select_false (fun σ => ?_) h
      rw [eval_of_not_isTrue hc1 (Bool.eq_false_iff.2 ht)]
      decide
  · split
    · rename_i heq
      subst heq
      exact select_same
    · split
      · rename_i ht1
        have hf1 : f.getWidth = 1 := h.2.2.2.2.trans ht1
        split
        · rename_i CE _
          split
          · rename_i hCE
            have hb : ∀ x y : BitVec 1, x ||| y = if x = 1#1 then 1#1 else y := by decide
            have hs := select_to_bin (b := .or) (l := c) (r := f) rfl
              (by simp only [weight, BinKind.weight]; omega) ht1 hc1 hf1 (fun P hP => ⟨hP.1, hP.2.2.1⟩)
              (fun σ => by rw [eval_of_isTrue ht1 hCE]; exact hb _ _)
            exact hs.trans (OrExpr.create_simplifies (hs.wf h))
          · rename_i hCE
            have hb : ∀ x y : BitVec 1, ofBool (x == 0#1) &&& y = if x = 1#1 then 0#1 else y := by decide
            have hs := select_to_bin (b := .and) (l := .cmp .eq c (.const 0 1)) (r := f) rfl
              (by simp only [weight, BinKind.weight, CmpKind.weight]; omega) ht1 rfl hf1
              (fun P hP => ⟨hP.1.isZero hc1, hP.2.2.1⟩)
              (fun σ => by
                rw [eval_of_not_isTrue ht1 (Bool.eq_false_iff.2 hCE), Expr.eval_isZero hc1]
                exact hb _ _)
            exact hs.trans (logic_isZero_left rfl AndExpr.create_simplifies (hs.wf h))
        · rename_i CE _
          split
          · rename_i hCE
            have hb : ∀ x y : BitVec 1, ofBool (x == 0#1) ||| y = if x = 1#1 then y else 1#1 := by decide
            have hs := select_to_bin (b := .or) (l := .cmp .eq c (.const 0 1)) (r := t) rfl
              (by simp only [weight, BinKind.weight, CmpKind.weight]; omega) ht1 rfl ht1
              (fun P hP => ⟨hP.1.isZero hc1, hP.2.1⟩)
              (fun σ => by rw [eval_of_isTrue hf1 hCE, Expr.eval_isZero hc1]; exact hb _ _)
            exact hs.trans (logic_isZero_left rfl OrExpr.create_simplifies (hs.wf h))
          · rename_i hCE
            have hb : ∀ x y : BitVec 1, x &&& y = if x = 1#1 then y else 0#1 := by decide
            have hs := select_to_bin (b := .and) (l := c) (r := t) rfl
              (by simp only [weight, BinKind.weight]; omega) ht1 hc1 ht1 (fun P hP => ⟨hP.1, hP.2.1⟩)
              (fun σ => by rw [eval_of_not_isTrue hf1 (Bool.eq_false_iff.2 hCE)]; exact hb _ _)
            exact hs.trans (AndExpr.create_simplifies (hs.wf h))
        · exact .refl _
      · exact .refl _

/-- What the loop over the updates returns is the value read. -/
theorem readUpdates_sound {index v : Expr} (hi : index.WF) (hw : index.getWidth = 32) :
    ∀ {u : Updates}, u.WF → readUpdates index u = some v →
      v.getWidth = 8 ∧ (∀ P, u.Ok P → v.Ok P) ∧ v.weight ≤ u.weight ∧
        ∀ σ root, index.InBounds σ → u.InBounds σ → v.eval σ 8 = u.eval σ root (index.eval σ 32)
  | .nil, _, h => by simp [readUpdates] at h
  | .cons i value next, hu, h => by
    have hs := EqExpr.create_simplifies (l := index) (r := i) ⟨hi, hu.1, hu.2.2.1.trans hw.symm⟩
    -- the constant that the comparison folds to is its value
    have hcmp : ∀ σ, index.InBounds σ → i.InBounds σ →
        (EqExpr.create index i).eval σ 1 = ofBool (index.eval σ 32 == i.eval σ 32) := by
      intro σ h1 h2
      rw [hs.eval_at (w := 1) ⟨h1, h2, hu.2.2.1.trans hw.symm⟩ rfl, eval_cmp hw]
      rfl
    have hbool : ∀ b : Bool, ofBool b = 1#1 ↔ b = true := by decide
    simp only [readUpdates] at h
    split at h
    · rename_i CE hCE
      have hCE1 : CE.width = 1 := by have := hs.width; rwa [hCE] at this
      rw [hCE] at hcmp
      split at h
      · rename_i ht
        obtain rfl : value = v := by simpa using h
        refine ⟨hu.2.2.2.1, fun P hP => hP.2.1, by simp only [Updates.weight]; omega, fun σ root h1 h2 => ?_⟩
        have := hcmp σ h1 h2.1
        rw [eval_of_isTrue hCE1 ht, eq_comm, hbool, beq_iff_eq] at this
        rw [Updates.eval, if_pos this]
      · rename_i ht
        obtain ⟨h1, h2, h3, h4⟩ := readUpdates_sound hi hw hu.2.2.2.2 h
        refine ⟨h1, fun P hP => h2 P hP.2.2.2.2, by simp only [Updates.weight]; omega, fun σ root h5 h6 => ?_⟩
        have := hcmp σ h5 h6.1
        rw [eval_of_not_isTrue hCE1 (Bool.eq_false_iff.2 ht)] at this
        have hne : index.eval σ 32 ≠ i.eval σ 32 := by grind
        rw [Updates.eval, if_neg hne]
        exact h4 σ root h5 h6.2.2.2.2
    · simp at h

theorem ReadExpr.create_simplifies {root : Array} {head : Updates} {index : Expr} (h : (read root head index).WF) :
    (read root head index).Simplifies (create root head index) := by
  unfold create
  cases hv : readUpdates index head with
  | none => exact .refl _
  | some v =>
    obtain ⟨h1, h2, h3, h4⟩ := readUpdates_sound h.2.1 h.2.2.1 h.1 hv
    refine ⟨h1, fun P hP => h2 P hP.1, fun σ hσ => ?_, ?_⟩
    · simp only [getWidth, Option.getD_some, eval, BitVec.setWidth_eq]
      exact h4 σ root hσ.2.1 hσ.1
    · simp only [Option.getD_some, weight]
      omega

/-! ## Soundness: all kinds -/

theorem BinKind.create_simplifies (k : BinKind) (h : (bin k l r).WF)
    (hc : k.create l r = .ok e') : (bin k l r).Simplifies e' := by
  have hok : ∀ {e₁ : Expr}, (Except.ok e₁ : Except Trap Expr) = .ok e' → e₁ = e' := fun h => by simpa using h
  cases k with
  | add => exact hok hc ▸ AddExpr.create_simplifies l r h
  | sub => exact hok hc ▸ SubExpr.create_simplifies l r h
  | mul => exact hok hc ▸ MulExpr.create_simplifies h
  | udiv => exact divCreate_simplifies rfl hc
  | sdiv => exact divCreate_simplifies rfl hc
  | urem => exact divCreate_simplifies rfl hc
  | srem => exact divCreate_simplifies rfl hc
  | and => exact hok hc ▸ AndExpr.create_simplifies h
  | or => exact hok hc ▸ OrExpr.create_simplifies h
  | xor => exact hok hc ▸ XorExpr.create_simplifies h
  | shl => exact hok hc ▸ bcreate_simplifies (shiftExprCreate_simplifies (by decide) (by decide) h)
  | lshr => exact hok hc ▸ bcreate_simplifies (shiftExprCreate_simplifies (by decide) (by decide) h)
  | ashr => exact hok hc ▸ bcreate_simplifies ashrExprCreate_simplifies

theorem Expr.create_simplifies (h : e.WF) (hc : e.create = .ok e') : e.Simplifies e' := by
  have hok : ∀ {e₁ : Expr}, (Except.ok e₁ : Except Trap Expr) = .ok e' → e₁ = e' := fun h => by simpa using h
  cases e with
  | constant c => exact hok hc ▸ .refl _
  | notOptimized e => exact hok hc ▸ .refl _
  | read root head index => exact hok hc ▸ ReadExpr.create_simplifies h
  | select c t f => exact hok hc ▸ SelectExpr.create_simplifies h
  | concat l r => exact hok hc ▸ ConcatExpr.create_simplifies h
  | extract e off w => exact hok hc ▸ ExtractExpr.create_simplifies h
  | not e => exact hok hc ▸ NotExpr.create_simplifies
  | zext e w => exact hok hc ▸ ZExtExpr.create_simplifies h
  | sext e w => exact hok hc ▸ SExtExpr.create_simplifies h
  | bin k l r => exact k.create_simplifies h hc
  | cmp k l r => exact hok hc ▸ k.create_simplifies h

/-- `create` stops on the division of a constant by the constant zero, and nowhere else. -/
theorem Expr.create_error {t : Trap} (h : e.create = .error t) :
    ∃ k cl cr, k.isDiv = true ∧ e = .bin k (.constant cl) (.constant cr) ∧ cr.isZero = true := by
  cases e with
  | bin k l r =>
    have hdiv : k.isDiv = true ∧ divCreate k l r = .error t := by
      cases k with
      | udiv | sdiv | urem | srem => exact ⟨rfl, h⟩
      | _ => simp [create, BinKind.create] at h
    obtain ⟨cl, cr, rfl, rfl, hz⟩ := divCreate_error hdiv.2
    exact ⟨k, cl, cr, hdiv.1, rfl, hz⟩
  | _ => simp [create] at h

/-! ## The plain node and what `create` returns -/

mutual

/-- No division evaluated under the assignment has a zero divisor: of a `Select` the chosen operand is evaluated, of an
update list the part up to the update that is read. -/
def Expr.DivOk (σ : Assignment) : Expr → Prop
  | .constant _ => True
  | .notOptimized e | .not e | .extract e _ _ | .zext e _ | .sext e _ => e.DivOk σ
  | .read _ head index => index.DivOk σ ∧ head.DivOk σ (index.eval σ 32)
  | .select c t f => c.DivOk σ ∧ if c.eval σ 1 = 1#1 then t.DivOk σ else f.DivOk σ
  | .concat l r | .cmp _ l r => l.DivOk σ ∧ r.DivOk σ
  | .bin k l r => l.DivOk σ ∧ r.DivOk σ ∧ (k.isDiv = true → r.eval σ r.getWidth ≠ 0)

def Updates.DivOk (σ : Assignment) : Updates → BitVec 32 → Prop
  | .nil, _ => True
  | .cons index value next, i =>
    index.DivOk σ ∧ if i = index.eval σ 32 then value.DivOk σ else next.DivOk σ i

end

/-- The operands are well formed and `create` accepts them. An extension may be asked for a width below that of its
operand: it then truncates. -/
def Expr.Plain (P : NodeCond) : Expr → Prop
  | .zext e w | .sext e w => e.Ok P ∧ 0 < w
  | e => e.Ok P

theorem Expr.create_plain (h : e.Plain .any) (hc : e.create = .ok e') :
    e'.getWidth = e.getWidth ∧ ∀ σ, e.Plain (.inBounds σ) →
      e'.InBounds σ ∧ e'.eval σ e.getWidth = e.eval σ e.getWidth := by
  have hfull : e.WF → (∀ σ, e.Plain (.inBounds σ) → e.InBounds σ) → e'.getWidth = e.getWidth ∧
      ∀ σ, e.Plain (.inBounds σ) → e'.InBounds σ ∧ e'.eval σ e.getWidth = e.eval σ e.getWidth := fun hwf hb =>
    have hs := create_simplifies hwf hc
    ⟨hs.width, fun σ hσ => ⟨hs.ok _ (hb σ hσ), hs.eval σ (hb σ hσ)⟩⟩
  cases e with
  | zext src w =>
    by_cases hw : w < src.getWidth
    · obtain rfl : ExtractExpr.create src 0 w = e' := by simpa [create, ZExtExpr.create, hw] using hc
      obtain ⟨h1, h2⟩ := ExtractExpr.create_truncate h.1 h.2 hw
      refine ⟨h1, fun σ hσ => ⟨(h2 σ hσ.1).1, ?_⟩⟩
      exact (h2 σ hσ.1).2.trans (eval_zext rfl σ).symm
    · exact hfull ⟨h.1, Nat.not_lt.1 hw⟩ fun σ hσ => ⟨hσ.1, Nat.not_lt.1 hw⟩
  | sext src w =>
    by_cases hw : w < src.getWidth
    · obtain rfl : ExtractExpr.create src 0 w = e' := by
        simpa [create, SExtExpr.create, hw, Nat.ne_of_lt hw] using hc
      obtain ⟨h1, h2⟩ := ExtractExpr.create_truncate h.1 h.2 hw
      refine ⟨h1, fun σ hσ => ⟨(h2 σ hσ.1).1, ?_⟩⟩
      have hv := (h2 σ hσ.1).2
      rw [← BitVec.signExtend_eq_setWidth_of_le _ (Nat.le_of_lt hw)] at hv
      exact hv.trans (eval_sext rfl σ).symm
    · exact hfull ⟨h.1, Nat.not_lt.1 hw⟩ fun σ hσ => ⟨hσ.1, Nat.not_lt.1 hw⟩
  | _ => exact hfull h fun _ hσ => hσ

/-- What `create` returns has the width of the plain node, and it returns, with the value of the plain node, under every
assignment that evaluates no division by zero and keeps the constant-array indices in bounds. -/
theorem create_eq_plain (e : Expr) (h : e.Plain .any) : (∀ e', e.create = .ok e' → e'.getWidth = e.getWidth) ∧
    ∀ σ, e.Plain (.inBounds σ) → e.DivOk σ →
      ∃ e', e.create = .ok e' ∧ e'.InBounds σ ∧ e'.getWidth = e.getWidth ∧
        e'.eval σ e.getWidth = e.eval σ e.getWidth := by
  refine ⟨fun e' hc => (Expr.create_plain h hc).1, fun σ hσ hd => ?_⟩
  cases hc : e.create with
  | error t =>
    obtain ⟨k, cl, cr, hk, rfl, hz⟩ := Expr.create_error hc
    exact absurd (eval_of_isZero hz σ) (hd.2.2 hk)
  | ok e' =>
    obtain ⟨hw, hv⟩ := Expr.create_plain h hc
    exact ⟨e', rfl, (hv σ hσ).1, hw, (hv σ hσ).2⟩

end

/-- The setting for the examples. The options are initialised to `⟨true, true⟩`. -/
instance (priority := low) : Options := ⟨false, true⟩

/-- In this setting `InBounds` asks for nothing. -/
theorem Expr.WF.inBounds {e : Expr} (h : e.WF) (σ : Assignment) : e.InBounds σ :=
  Expr.Ok.mono (fun _ _ _ h => by cases h) (fun _ _ _ => trivial) e h

theorem Expr.Simplifies.holds_iff {e e' : Expr} (hs : e.Simplifies e') (h : e.WF) (hw : e.getWidth = 1)
    (σ : Assignment) : e'.Holds σ ↔ e.Holds σ := by
  rw [Expr.Holds, hs.eval_at (h.inBounds σ) hw]

/-- A quotient of two constants. -/
theorem create_eq_plain_udiv :
    ∃ e', (Expr.bin .udiv (.const 200 8) (.const 7 8)).create = .ok e' ∧ e'.InBounds (fun _ _ => 0) ∧ e'.getWidth = 8 ∧
      e'.eval (fun _ _ => 0) 8 = (Expr.bin .udiv (.const 200 8) (.const 7 8)).eval (fun _ _ => 0) 8 :=
  (create_eq_plain (.bin .udiv (.const 200 8) (.const 7 8))
    ⟨Nat.zero_lt_succ 7, Nat.zero_lt_succ 7, rfl, fun _ => trivial⟩).2 (fun _ _ => 0)
    ⟨Nat.zero_lt_succ 7, Nat.zero_lt_succ 7, rfl, fun _ => trivial⟩ ⟨trivial, trivial, fun _ => by decide⟩

/-- A constant array of one byte, read at a symbolic index. -/
def tableByte : Expr :=
  .read { byteArray 1 "table" with constantValues := [5], valid := .inr rfl } .nil (.zext (symbolicByte 0 "index") 32)

/-- No byte of the array is 1, so that nothing is left of the equality: also where the index is beyond the array. -/
theorem eq_tableByte {w : Nat} (hw : w = 32 ∨ w = 64) :
    @eqExprCreatePartialR ⟨true, true⟩ (.ofNat 1 w) (.zext tableByte w) = .const 0 1 := by
  have hbyte : @eqExprCreatePartialR ⟨true, true⟩ (.ofNat 1 8) tableByte = .const 0 1 := by
    unfold eqExprCreatePartialR
    rfl
  rcases hw with rfl | rfl
  all_goals
    unfold eqExprCreatePartialR
    exact hbyte

end S2E.Klee
