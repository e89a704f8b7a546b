import S2E.Klee.Expr.APInt

/-!
# Expressions, their widths and their values

* `Array`, `Updates`, `Expr` : the classes of `Expr.h`. A node holds what the class holds; reference counts and the
  cached hash are left out, and two references are equal when the trees are (`Expr::compare`);
* `Expr.eval σ e w` : the value of `e` under the assignment `σ`, read at width `w` (the callers pass the width of `e`);
* `Expr.Ok P e` : `e` is well typed, every read node meets `P.read` and every division node meets `P.div`. `Expr.WF`
  and `Expr.InBounds σ` are instances;
* `Expr.weight` : a measure that no `create` function increases (`Create.lean`) and that every replacement of a kid by a
  lighter one decreases. It bounds the recursion of the visitors and of the bit field simplifier.
-/

namespace S2E.Klee
open BitVec

open List (mem_singleton mem_cons not_mem_nil map_cons map_nil sum_cons sum_nil)

/-- The command-line options that the expression library reads. -/
class Options where
  /-- `-const-array-opt`. -/
  constArrayOpt : Bool
  /-- `-use-visitor-hash`. -/
  useVisitorHash : Bool

/-- `klee::Array`. `addr` is the identity of the object; a constant array has one value for each index. -/
structure Array where
  addr : Nat
  name : String
  size : Nat
  constantValues : List (BitVec 8)
  valid : constantValues = [] ∨ constantValues.length = size
  size_lt : size < 2 ^ 32
deriving DecidableEq

def Array.isSymbolicArray (a : Array) : Bool := a.constantValues.isEmpty

def Array.isConstantArray (a : Array) : Bool := !a.isSymbolicArray

mutual

inductive Expr
  | constant (c : APInt)
  | notOptimized (src : Expr)
  | read (root : Array) (head : Updates) (index : Expr)
  | select (cond trueExpr falseExpr : Expr)
  | concat (left right : Expr)
  | extract (expr : Expr) (offset width : Nat)
  | not (expr : Expr)
  | zext (src : Expr) (width : Nat)
  | sext (src : Expr) (width : Nat)
  | bin (kind : BinKind) (left right : Expr)
  | cmp (kind : CmpKind) (left right : Expr)

/-- `UpdateNode`: the most recent update first. -/
inductive Updates
  | nil
  | cons (index value : Expr) (next : Updates)

end

deriving instance DecidableEq for Expr, Updates

/-- `ConstantExpr::alloc(v, w)`. -/
abbrev Expr.const (v w : Nat) : Expr := .constant (.ofNat v w)

def Expr.isConstant : Expr → Bool
  | .constant _ => true
  | _ => false

def Expr.getWidth : Expr → Nat
  | .constant c => c.width
  | .notOptimized e => e.getWidth
  | .read _ _ _ => 8
  | .select _ t _ => t.getWidth
  | .concat l r => l.getWidth + r.getWidth
  | .extract _ _ w => w
  | .not e => e.getWidth
  | .zext _ w => w
  | .sext _ w => w
  | .bin _ l _ => l.getWidth
  | .cmp _ _ _ => 1

/-- `Expr::getKind`, as the number that `Expr::Kind` gives it. -/
def Expr.getKind : Expr → Nat
  | .constant _ => 0
  | .notOptimized _ => 1
  | .read .. => 3
  | .select .. => 4
  | .concat .. => 5
  | .extract .. => 6
  | .zext .. => 7
  | .sext .. => 8
  | .not _ => 16
  | .bin k _ _ => if k.ctorIdx < 7 then 9 + k.ctorIdx else 10 + k.ctorIdx
  | .cmp k _ _ => 23 + k.ctorIdx

/-- `getKid(0)`, ..., `getKid(getNumKids() - 1)`. The updates of a read are not kids. -/
def Expr.kids : Expr → List Expr
  | .constant _ => []
  | .notOptimized e | .not e | .extract e _ _ | .zext e _ | .sext e _ | .read _ _ e => [e]
  | .select c t f => [c, t, f]
  | .concat l r | .bin _ l r | .cmp _ l r => [l, r]

/-- The same node over other kids, with no simplification (`alloc`). -/
def Expr.withKids : Expr → List Expr → Expr
  | .notOptimized _, [e] => .notOptimized e
  | .read root head _, [e] => .read root head e
  | .select _ _ _, [c, t, f] => .select c t f
  | .concat _ _, [l, r] => .concat l r
  | .extract _ off w, [e] => .extract e off w
  | .not _, [e] => .not e
  | .zext _ w, [e] => .zext e w
  | .sext _ w, [e] => .sext e w
  | .bin k _ _, [l, r] => .bin k l r
  | .cmp k _ _, [l, r] => .cmp k l r
  | e, _ => e

/-! ## Values -/

/-- The bytes of every array. -/
abbrev Assignment := Array → Nat → BitVec 8

/-- The initial contents of an array: its constants, and outside them the bytes of the assignment. -/
def Assignment.initial (σ : Assignment) (root : Array) (i : Nat) : BitVec 8 :=
  root.constantValues.getD i (σ root i)

mutual

def Expr.eval (σ : Assignment) : Expr → (w : Nat) → BitVec w
  | .constant c, w => c.bits.setWidth w
  | .notOptimized e, w => e.eval σ w
  | .read root head index, w => (head.eval σ root (index.eval σ 32)).setWidth w
  | .select c t f, w => if c.eval σ 1 = 1#1 then t.eval σ w else f.eval σ w
  | .concat l r, w => (l.eval σ l.getWidth ++ r.eval σ r.getWidth).setWidth w
  | .extract e off k, w => ((e.eval σ e.getWidth).extractLsb' off k).setWidth w
  | .not e, w => ~~~(e.eval σ w)
  | .zext e k, w => ((e.eval σ e.getWidth).setWidth k).setWidth w
  | .sext e k, w => ((e.eval σ e.getWidth).signExtend k).setWidth w
  | .bin k l r, w => k.eval (l.eval σ w) (r.eval σ w)
  | .cmp k l r, w => (ofBool (k.eval (l.eval σ l.getWidth) (r.eval σ l.getWidth))).setWidth w

/-- The byte at index `i` of the array `root` after the updates. -/
def Updates.eval (σ : Assignment) (root : Array) : Updates → BitVec 32 → BitVec 8
  | .nil, i => σ.initial root i.toNat
  | .cons index value next, i =>
    if i = index.eval σ 32 then value.eval σ 8 else next.eval σ root i

end

variable {k w : Nat} {e : Expr}

theorem Expr.eval_cmp {k : CmpKind} {l r : Expr} (hw : l.getWidth = w) (σ : Assignment) :
    (cmp k l r).eval σ 1 = ofBool (k.eval (l.eval σ w) (r.eval σ w)) := by
  subst hw
  simp only [eval, setWidth_eq]

theorem Expr.eval_concat {l r : Expr} {a b : Nat} (ha : l.getWidth = a) (hb : r.getWidth = b) (σ : Assignment)
    (w : Nat) : (concat l r).eval σ w = (l.eval σ a ++ r.eval σ b).setWidth w := by
  subst ha hb
  simp only [eval]

section

variable (hw : e.getWidth = w) (σ : Assignment)

include hw σ

theorem Expr.eval_extract {off : Nat} : (extract e off k).eval σ k = (e.eval σ w).extractLsb' off k := by
  subst hw
  simp only [eval, setWidth_eq]

theorem Expr.eval_zext : (zext e k).eval σ k = (e.eval σ w).setWidth k := by
  subst hw
  simp only [eval, setWidth_eq]

theorem Expr.eval_sext : (sext e k).eval σ k = (e.eval σ w).signExtend k := by
  subst hw
  simp only [eval, setWidth_eq]

end

/-- The value of an expression. -/
abbrev Expr.value (σ : Assignment) (e : Expr) : BitVec e.getWidth := e.eval σ e.getWidth

/-- The assignment makes the boolean expression true. -/
abbrev Expr.Holds (σ : Assignment) (e : Expr) : Prop := e.eval σ 1 = 1#1

/-! ## Well-formed expressions -/

/-- What is asked of the read nodes and of the division nodes of an expression. -/
structure NodeCond where
  read : Array → Expr → Prop
  div : Expr → Expr → Prop

variable {P : NodeCond}

mutual

def Expr.Ok (P : NodeCond) : Expr → Prop
  | .constant c => 0 < c.width
  | .notOptimized e => e.Ok P
  | .read root head index => head.Ok P ∧ index.Ok P ∧ index.getWidth = 32 ∧ P.read root index
  | .select c t f => c.Ok P ∧ t.Ok P ∧ f.Ok P ∧ c.getWidth = 1 ∧ f.getWidth = t.getWidth
  | .concat l r => l.Ok P ∧ r.Ok P
  | .extract e off w => e.Ok P ∧ 0 < w ∧ off + w ≤ e.getWidth
  | .not e => e.Ok P
  | .zext e w => e.Ok P ∧ e.getWidth ≤ w
  | .sext e w => e.Ok P ∧ e.getWidth ≤ w
  | .bin k l r => l.Ok P ∧ r.Ok P ∧ r.getWidth = l.getWidth ∧ (k.isDiv = true → P.div l r)
  | .cmp _ l r => l.Ok P ∧ r.Ok P ∧ r.getWidth = l.getWidth

def Updates.Ok (P : NodeCond) : Updates → Prop
  | .nil => True
  | .cons index value next =>
    index.Ok P ∧ value.Ok P ∧ index.getWidth = 32 ∧ value.getWidth = 8 ∧ next.Ok P

end

/-- The trivial condition. -/
def NodeCond.any : NodeCond := ⟨fun _ _ => True, fun _ _ => True⟩

/-- A read of a constant array has its index in bounds. Only the expansion of an equality over a constant array relies on
it, so that nothing is asked where that is off. -/
def NodeCond.inBounds [Options] (σ : Assignment) : NodeCond where
  read root index :=
    Options.constArrayOpt = true → root.isConstantArray = true → (index.eval σ 32).toNat < root.size
  div _ _ := True

/-- The widths fit (the `type mismatch` and `invalid extract` assertions hold at every node). -/
abbrev Expr.WF (e : Expr) : Prop := e.Ok .any

abbrev Updates.WF (u : Updates) : Prop := u.Ok .any

/-- Every constant-array index is in bounds under the assignment. -/
abbrev Expr.InBounds [Options] (σ : Assignment) (e : Expr) : Prop := e.Ok (.inBounds σ)

abbrev Updates.InBounds [Options] (σ : Assignment) (u : Updates) : Prop := u.Ok (.inBounds σ)

mutual

theorem Expr.Ok.mono {P Q : NodeCond} (hr : ∀ root i, P.read root i → Q.read root i)
    (hd : ∀ l r, P.div l r → Q.div l r) : ∀ e : Expr, e.Ok P → e.Ok Q
  | .constant _, h => h
  | .notOptimized e, h | .not e, h => Expr.Ok.mono hr hd e h
  | .read _ head index, h =>
    ⟨Updates.Ok.mono hr hd head h.1, Expr.Ok.mono hr hd index h.2.1, h.2.2.1, hr _ _ h.2.2.2⟩
  | .select c t f, h =>
    ⟨Expr.Ok.mono hr hd c h.1, Expr.Ok.mono hr hd t h.2.1, Expr.Ok.mono hr hd f h.2.2.1, h.2.2.2⟩
  | .concat l r, h => ⟨Expr.Ok.mono hr hd l h.1, Expr.Ok.mono hr hd r h.2⟩
  | .extract e _ _, h | .zext e _, h | .sext e _, h => ⟨Expr.Ok.mono hr hd e h.1, h.2⟩
  | .bin _ l r, h =>
    ⟨Expr.Ok.mono hr hd l h.1, Expr.Ok.mono hr hd r h.2.1, h.2.2.1, fun k => hd _ _ (h.2.2.2 k)⟩
  | .cmp _ l r, h => ⟨Expr.Ok.mono hr hd l h.1, Expr.Ok.mono hr hd r h.2.1, h.2.2⟩

theorem Updates.Ok.mono {P Q : NodeCond} (hr : ∀ root i, P.read root i → Q.read root i)
    (hd : ∀ l r, P.div l r → Q.div l r) : ∀ u : Updates, u.Ok P → u.Ok Q
  | .nil, h => h
  | .cons i v next, h =>
    ⟨Expr.Ok.mono hr hd i h.1, Expr.Ok.mono hr hd v h.2.1, h.2.2.1, h.2.2.2.1, Updates.Ok.mono hr hd next h.2.2.2.2⟩

end

theorem Expr.Ok.wf (h : e.Ok P) : e.WF :=
  mono (fun _ _ _ => trivial) (fun _ _ _ => trivial) e h

theorem Expr.Ok.kid {k : Expr} (h : e.Ok P) (hk : k ∈ e.kids) : k.Ok P := by
  cases e with
  | constant c => simp [Expr.kids] at hk
  | read root head index =>
    simp only [Expr.kids, mem_singleton] at hk
    exact hk ▸ h.2.1
  | notOptimized e | not e =>
    simp only [Expr.kids, mem_singleton] at hk
    exact hk ▸ h
  | extract e _ _ | zext e _ | sext e _ =>
    simp only [Expr.kids, mem_singleton] at hk
    exact hk ▸ h.1
  | select c t f =>
    simp only [Expr.kids, mem_cons, not_mem_nil, or_false] at hk
    rcases hk with rfl | rfl | rfl
    exacts [h.1, h.2.1, h.2.2.1]
  | concat l r =>
    simp only [Expr.kids, mem_cons, not_mem_nil, or_false] at hk
    rcases hk with rfl | rfl
    exacts [h.1, h.2]
  | bin _ l r | cmp _ l r =>
    simp only [Expr.kids, mem_cons, not_mem_nil, or_false] at hk
    rcases hk with rfl | rfl
    exacts [h.1, h.2.1]

theorem Expr.width_pos : ∀ e : Expr, e.WF → 0 < e.getWidth
  | .constant _, h => h
  | .notOptimized e, h | .not e, h => width_pos e h
  | .read _ _ _, _ => Nat.zero_lt_succ 7
  | .select _ t _, h => width_pos t h.2.1
  | .concat l _, h => Nat.add_pos_left (width_pos l h.1) _
  | .extract _ _ _, h => h.2.1
  | .zext e _, h | .sext e _, h => lt_of_lt_of_le (width_pos e h.1) h.2
  | .bin _ l _, h => width_pos l h.1
  | .cmp _ _ _, _ => Nat.zero_lt_one

/-! ## Subexpressions -/

mutual

/-- The property of every part of an expression but itself. The updates of a read are parts. -/
def Expr.Below (P : Expr → Prop) : Expr → Prop
  | .constant _ => True
  | .notOptimized e | .not e | .extract e _ _ | .zext e _ | .sext e _ => P e ∧ e.Below P
  | .read _ head index => head.Below P ∧ P index ∧ index.Below P
  | .select c t f => (P c ∧ c.Below P) ∧ (P t ∧ t.Below P) ∧ P f ∧ f.Below P
  | .concat l r | .bin _ l r | .cmp _ l r => (P l ∧ l.Below P) ∧ P r ∧ r.Below P

def Updates.Below (P : Expr → Prop) : Updates → Prop
  | .nil => True
  | .cons index value next => (P index ∧ index.Below P) ∧ (P value ∧ value.Below P) ∧ next.Below P

end

/-- The property of an expression and of every part of it. -/
def Expr.Forall (P : Expr → Prop) (e : Expr) : Prop := P e ∧ e.Below P

/-- No part has more than 64 bits: where the source asks of a constant whether it is zero, one or all ones, the answer is
that of `APInt`. -/
def Expr.Narrow (e : Expr) : Prop := e.Forall fun e => e.getWidth ≤ 64

/-! ## A symbolic byte -/

/-- A symbolic array of one byte. -/
def byteArray (addr : Nat) (name : String) : Array := ⟨addr, name, 1, [], .inl rfl, by decide⟩

def symbolicByte (addr : Nat) (name : String) : Expr := .read (byteArray addr name) .nil (.const 0 32)

theorem symbolicByte_ok {addr : Nat} {name : String} (h : P.read (byteArray addr name) (.const 0 32)) :
    (symbolicByte addr name).Ok P :=
  ⟨trivial, Nat.zero_lt_succ 31, rfl, h⟩

theorem symbolicByte_inBounds [Options] (σ : Assignment) (addr : Nat) (name : String) :
    (symbolicByte addr name).InBounds σ :=
  symbolicByte_ok fun _ h => by cases h

theorem symbolicByte_narrow (addr : Nat) (name : String) : (symbolicByte addr name).Narrow :=
  ⟨show 8 ≤ 64 by decide, trivial, show 32 ≤ 64 by decide, trivial⟩

/-! ## Weights -/

/-- The cost of a binary node beyond its operands. -/
def BinKind.weight : BinKind → Nat
  | .or | .shl | .lshr => 4
  | _ => 1

/-- The cost of a comparison beyond its operands. -/
def CmpKind.weight : CmpKind → Nat
  | .eq => 1
  | _ => 8

mutual

def Expr.weight : Expr → Nat
  | .constant _ => 1
  | .notOptimized e => e.weight + 1
  | .read _ head index => 1000 * index.weight + head.weight
  | .select c t f => c.weight + t.weight + f.weight + 8
  | .concat l r => l.weight + r.weight + 1
  | .extract e _ _ => 2 * e.weight
  | .not e => e.weight + 1
  | .zext e _ | .sext e _ => 2 * e.weight + 1
  | .bin k l r => l.weight + r.weight + k.weight
  | .cmp k l r => l.weight + r.weight + k.weight

def Updates.weight : Updates → Nat
  | .nil => 0
  | .cons index value next => index.weight + value.weight + next.weight

end

theorem BinKind.weight_pos (k : BinKind) : 0 < k.weight := by cases k <;> decide

theorem CmpKind.weight_pos (k : CmpKind) : 0 < k.weight := by cases k <;> decide

theorem Expr.weight_pos : ∀ e : Expr, 0 < e.weight
  | .constant _ | .notOptimized _ | .select .. | .concat .. | .not _ | .zext .. | .sext .. => by simp [weight]
  | .read _ _ e | .extract e _ _ => by have := weight_pos e; simp only [weight]; omega
  | .bin k _ _ | .cmp k _ _ => by have := k.weight_pos; simp only [weight]; omega

theorem Expr.one_lt_weight (h : e.isConstant = false) : 1 < e.weight := by
  cases e with
  | constant c => simp [isConstant] at h
  | select c t f => simp only [weight]; omega
  | bin k l r | cmp k l r => have := l.weight_pos; have := k.weight_pos; simp only [weight]; omega
  | notOptimized e | read _ _ e | concat e _ | extract e | not e | zext e | sext e =>
    have := e.weight_pos
    simp only [weight]
    omega

theorem Expr.weight_kids_lt (e : Expr) : (e.kids.map weight).sum < e.weight := by
  cases e with
  | bin k _ _ | cmp k _ _ =>
    have := k.weight_pos
    simp only [kids, weight, map_cons, map_nil, sum_cons, sum_nil]
    omega
  | extract x _ _ | read _ _ x =>
    have := x.weight_pos
    simp only [kids, weight, map_cons, map_nil, sum_cons, sum_nil]
    omega
  | _ =>
    simp only [kids, weight, map_cons, map_nil, sum_cons, sum_nil]
    omega

theorem Expr.weight_kid_lt {k : Expr} (h : k ∈ e.kids) : k.weight < e.weight :=
  (List.le_sum_of_mem (List.mem_map_of_mem h)).trans_lt e.weight_kids_lt

end S2E.Klee
