import S2E.Klee.Expr.Syntax
import S2E.Lib.LexKeys

/-!
# `Expr::compare` and the stored hashes

The rest of the development takes two expressions to be equal when their trees are. In the code that is what
`Expr::compare` has to decide, over objects that have an address and a stored `hashValue`.

* `ExprObject`, `ExprNode`, `UpdateObject` : the objects; `toExpr` is the tree of an object;
* `ExprNode.computeHash` : the member `hashValue` after `computeHash`. `NotExpr::computeHash` assigns to a local variable
  of that name, so that the object keeps the word that was in its memory before;
* `ExprObject.compare` : equal addresses, then kind, hash, contents and kids. `key` lists all that it looks at in the
  order in which it looks, so that `compare` is the lexicographic order of the keys (`compare_decides`).
-/

namespace S2E.Klee

open S2E.Lib List
open Ordering (then_assoc then_eq_eq)

mutual

/-- `Expr`: its address, the member `hashValue` and the members of the class. -/
inductive ExprObject
  | mk (addr : Nat) (hashValue : BitVec 32) (node : ExprNode)

inductive ExprNode
  | constant (value : APInt)
  | notOptimized (src : ExprObject)
  | read (root : Array) (head : UpdateObject) (index : ExprObject)
  | select (cond trueExpr falseExpr : ExprObject)
  | concat (left right : ExprObject)
  | extract (expr : ExprObject) (offset width : Nat)
  | not (expr : ExprObject)
  | zext (src : ExprObject) (width : Nat)
  | sext (src : ExprObject) (width : Nat)
  | bin (kind : BinKind) (left right : ExprObject)
  | cmp (kind : CmpKind) (left right : ExprObject)

/-- `UpdateNode`, with the nodes that `next` leads to. -/
inductive UpdateObject
  | nil
  | cons (addr : Nat) (hashValue : BitVec 32) (index value : ExprObject) (next : UpdateObject)

end

mutual

/-- The tree without addresses and hashes. -/
def ExprObject.toExpr : ExprObject → Expr
  | .mk _ _ n => n.toExpr

def ExprNode.toExpr : ExprNode → Expr
  | .constant c => .constant c
  | .notOptimized e => .notOptimized e.toExpr
  | .read root head index => .read root head.toUpdates index.toExpr
  | .select c t f => .select c.toExpr t.toExpr f.toExpr
  | .concat l r => .concat l.toExpr r.toExpr
  | .extract e off w => .extract e.toExpr off w
  | .not e => .not e.toExpr
  | .zext e w => .zext e.toExpr w
  | .sext e w => .sext e.toExpr w
  | .bin k l r => .bin k l.toExpr r.toExpr
  | .cmp k l r => .cmp k l.toExpr r.toExpr

def UpdateObject.toUpdates : UpdateObject → Updates
  | .nil => .nil
  | .cons _ _ index value next => .cons index.toExpr value.toExpr next.toUpdates

end

def ExprNode.getKind (n : ExprNode) : Nat := n.toExpr.getKind

/-! ## Hashes -/

def ExprObject.hash : ExprObject → BitVec 32
  | .mk _ hashValue _ => hashValue

/-- `UpdateNode::hash`; no node adds nothing. -/
def UpdateObject.hash : UpdateObject → BitVec 32
  | .nil => 0#32
  | .cons _ hashValue _ _ _ => hashValue

/-- `Expr::MAGIC_HASH_CONSTANT`. -/
def magicHashConstant : BitVec 32 := 39#32

/-- `UpdateNode::computeHash`. -/
def UpdateObject.computeHash (index value : ExprObject) (next : UpdateObject) : BitVec 32 :=
  index.hash ^^^ value.hash ^^^ next.hash

/-- `UpdateList::hash`. The bytes of the name are signed. -/
def UpdateObject.listHash (root : Array) (head : UpdateObject) : BitVec 32 :=
  root.name.toByteArray.data.toList.foldl (fun res c => res * magicHashConstant + c.toBitVec.signExtend 32) 0#32 ^^^
    head.hash

/-- `Expr::computeHash`, from the hashes of the kids. -/
def hashOfKids (kind : Nat) (kids : List (BitVec 32)) : BitVec 32 :=
  kids.foldl (fun (res kid : BitVec 32) => (res <<< 1) ^^^ (kid * magicHashConstant))
    (BitVec.ofNat 32 kind * magicHashConstant)

/-- The member `hashValue` after `computeHash`, where it is `hashValue` before. `getHashValue` is the hash of
`llvm::APInt`. -/
def ExprNode.computeHash (getHashValue : APInt → BitVec 32) (hashValue : BitVec 32) (n : ExprNode) : BitVec 32 :=
  match n with
  | .constant c => getHashValue c ^^^ (BitVec.ofNat 32 c.width * magicHashConstant)
  | .read root head index => (index.hash * magicHashConstant) ^^^ head.listHash root
  | .extract e off w =>
    (BitVec.ofNat 32 off * magicHashConstant) ^^^ (BitVec.ofNat 32 w * magicHashConstant) ^^^
      (e.hash * magicHashConstant)
  | .zext e w | .sext e w => (BitVec.ofNat 32 w * magicHashConstant) ^^^ (e.hash * magicHashConstant)
  -- the assignment is to a local variable
  | .not _ => hashValue
  | .notOptimized e => hashOfKids n.getKind [e.hash]
  | .select c t f => hashOfKids n.getKind [c.hash, t.hash, f.hash]
  | .concat l r | .bin _ l r | .cmp _ l r => hashOfKids n.getKind [l.hash, r.hash]

/-- `alloc`: `new`, then `computeHash`. `before` is the word that the memory of `hashValue` held. -/
def ExprObject.alloc (getHashValue : APInt → BitVec 32) (addr : Nat) (before : BitVec 32) (n : ExprNode) : ExprObject :=
  .mk addr (n.computeHash getHashValue before) n

/-! ## Comparison -/

/-- `UpdateNode::getSize`. -/
def UpdateObject.getSize : UpdateObject → Nat
  | .nil => 0
  | .cons _ _ _ _ next => 1 + next.getSize

mutual

def ExprObject.compare : ExprObject → ExprObject → Ordering
  | .mk p hashValue n, .mk q hashValue' m =>
    if p = q then .eq
    else (Ord.compare n.getKind m.getKind).then ((Ord.compare hashValue.toNat hashValue'.toNat).then
      ((n.compareContents m).then (n.compareKids m)))
termination_by structural a => a

/-- `compareContents`, for two nodes of the same kind. -/
def ExprNode.compareContents : ExprNode → ExprNode → Ordering
  | .constant c, .constant c' => (Ord.compare c.width c'.width).then (Ord.compare c.bits.toNat c'.bits.toNat)
  | .read root head _, .read root' head' _ =>
    -- `UpdateList::compare`
    (Ord.compare root.name root'.name).then ((Ord.compare root.addr root'.addr).then
      ((Ord.compare head.getSize head'.getSize).then (head.compareNodes head')))
  | .extract _ off w, .extract _ off' w' => (Ord.compare off off').then (Ord.compare w w')
  | .not e, .not e' => e.compare e'
  | .zext _ w, .zext _ w' | .sext _ w, .sext _ w' => Ord.compare w w'
  | _, _ => .eq
termination_by structural n => n

/-- The loop of `Expr::compare` over the kids. -/
def ExprNode.compareKids : ExprNode → ExprNode → Ordering
  | .notOptimized e, .notOptimized e' | .read _ _ e, .read _ _ e' | .extract e _ _, .extract e' _ _ | .not e, .not e'
  | .zext e _, .zext e' _ | .sext e _, .sext e' _ => e.compare e'
  | .select c t f, .select c' t' f' => (c.compare c').then ((t.compare t').then (f.compare f'))
  | .concat l r, .concat l' r' | .bin _ l r, .bin _ l' r' | .cmp _ l r, .cmp _ l' r' =>
    (l.compare l').then (r.compare r')
  | _, _ => .eq
termination_by structural n => n

/-- The loop of `UpdateList::compare`, for two lists of the same size. -/
def UpdateObject.compareNodes : UpdateObject → UpdateObject → Ordering
  | .cons p _ index value next, .cons q _ index' value' next' =>
    if p = q then .eq
    else ((index.compare index').then (value.compare value')).then (next.compareNodes next')
  | _, _ => .eq
termination_by structural u => u

end

/-! ## Allocated objects -/

/-- The objects in memory, by address. -/
structure Heap where
  expr : Nat → ExprObject
  update : Nat → UpdateObject
  array : Nat → Array

section Allocated

variable (getHashValue : APInt → BitVec 32) (H : Heap)

mutual

/-- The object is the one at its address, it has been through `computeHash`, and so have the objects that it refers
to. -/
def ExprObject.Allocated : ExprObject → Prop
  | .mk p hashValue n =>
    H.expr p = .mk p hashValue n ∧ (∃ before, hashValue = n.computeHash getHashValue before) ∧ n.Allocated

def ExprNode.Allocated : ExprNode → Prop
  | .constant _ => True
  | .notOptimized e | .extract e _ _ | .not e | .zext e _ | .sext e _ => e.Allocated
  | .read root head index => H.array root.addr = root ∧ head.Allocated ∧ index.Allocated
  | .select c t f => c.Allocated ∧ t.Allocated ∧ f.Allocated
  | .concat l r | .bin _ l r | .cmp _ l r => l.Allocated ∧ r.Allocated

def UpdateObject.Allocated : UpdateObject → Prop
  | .nil => True
  | .cons p hashValue index value next =>
    H.update p = .cons p hashValue index value next ∧ hashValue = UpdateObject.computeHash index value next ∧
      index.Allocated ∧ value.Allocated ∧ next.Allocated

end

end Allocated

/-! ## Nodes of one kind -/

/-- Two nodes of the same class, with the same operation. -/
inductive ExprNode.SameKind : ExprNode → ExprNode → Prop
  | constant {c c'} : SameKind (.constant c) (.constant c')
  | notOptimized {e e'} : SameKind (.notOptimized e) (.notOptimized e')
  | read {root head index root' head' index'} : SameKind (.read root head index) (.read root' head' index')
  | select {c t f c' t' f'} : SameKind (.select c t f) (.select c' t' f')
  | concat {l r l' r'} : SameKind (.concat l r) (.concat l' r')
  | extract {e off w e' off' w'} : SameKind (.extract e off w) (.extract e' off' w')
  | not {e e'} : SameKind (.not e) (.not e')
  | zext {e w e' w'} : SameKind (.zext e w) (.zext e' w')
  | sext {e w e' w'} : SameKind (.sext e w) (.sext e' w')
  | bin {k l r l' r'} : SameKind (.bin k l r) (.bin k l' r')
  | cmp {k l r l' r'} : SameKind (.cmp k l r) (.cmp k l' r')

open UpdateObject (compareNodes getSize toUpdates)

theorem BinKind.ctorIdx_lt (k : BinKind) : k.ctorIdx < 13 := by cases k <;> decide

variable {addr x y : Nat} {s t : String} {k : BinKind} {a b l r : ExprObject}

theorem BinKind.ctorIdx_inj {k' : BinKind} (h : k.ctorIdx = k'.ctorIdx) : k = k' := by
  rw [← ofNat_ctorIdx k, h, ofNat_ctorIdx]

theorem CmpKind.ctorIdx_inj {k k' : CmpKind} (h : k.ctorIdx = k'.ctorIdx) : k = k' := by
  rw [← ofNat_ctorIdx k, h, ofNat_ctorIdx]

theorem ExprNode.getKind_bin : (bin k l r).getKind = if k.ctorIdx < 7 then 9 + k.ctorIdx else 10 + k.ctorIdx := rfl

theorem ExprNode.getKind_bin_bounds :
    9 ≤ (bin k l r).getKind ∧ (bin k l r).getKind < 23 ∧ (bin k l r).getKind ≠ 16 := by
  have := k.ctorIdx_lt
  rw [getKind_bin]
  split <;> omega

theorem ExprNode.getKind_cmp {k : CmpKind} : (cmp k l r).getKind = 23 + k.ctorIdx := rfl

theorem ExprNode.sameKind_of_getKind {n m : ExprNode} (h : n.getKind = m.getKind) : n.SameKind m := by
  cases n with
  | bin k l r =>
    have hk := getKind_bin_bounds (k := k) (l := l) (r := r)
    cases m with
    | bin k' l' r' =>
      have hkk : k = k' := by
        rw [getKind_bin, getKind_bin] at h
        apply BinKind.ctorIdx_inj
        split at h <;> split at h <;> omega
      subst hkk
      exact .bin
    | _ =>
      rw [h] at hk
      simp only [getKind, toExpr, Expr.getKind] at hk
      omega
  | cmp k l r =>
    rw [getKind_cmp] at h
    cases m with
    | cmp k' l' r' =>
      have hkk : k = k' := CmpKind.ctorIdx_inj (Nat.add_left_cancel h)
      subst hkk
      exact .cmp
    | bin k' l' r' =>
      have := getKind_bin_bounds (k := k') (l := l') (r := r')
      omega
    | _ =>
      simp only [getKind, toExpr, Expr.getKind] at h
      omega
  | _ =>
    cases m with
    | bin k' l' r' =>
      have := getKind_bin_bounds (k := k') (l := l') (r := r')
      rw [← h] at this
      simp only [getKind, toExpr, Expr.getKind] at this
      omega
    | cmp k' l' r' =>
      rw [getKind_cmp] at h
      simp only [getKind, toExpr, Expr.getKind] at h
      omega
    | _ =>
      first
        | constructor
        | simp only [getKind, toExpr, Expr.getKind] at h
          omega

/-! ## The order -/

/-- What one comparison looks at: a number or a name. -/
abbrev Atom := Nat × String

namespace Atom

def number (x : Nat) : Atom := (x, "")

def name (s : String) : Atom := (0, s)

def compare (a b : Atom) : Ordering := compareLex (compareOn Prod.fst) (compareOn Prod.snd) a b

instance : Std.TransCmp compare := inferInstanceAs (Std.TransCmp (compareLex (compareOn Prod.fst) (compareOn Prod.snd)))

variable {o : Ordering} {k l : List Atom}

theorem compare_number : compare (number x) (number y) = Ord.compare x y := by
  simp [compare, number, compareLex, compareOn]

theorem compare_name : compare (name s) (name t) = Ord.compare s t := by
  simp [compare, name, compareLex, compareOn]

theorem decides_number (h : x = y → Decides compare o k l) :
    Decides compare ((Ord.compare x y).then o) (number x :: k) (number y :: l) := by
  rw [← compare_number]
  apply Decides.cons
  rw [compare_number, Nat.compare_eq_eq]
  exact h

theorem decides_name (h : Decides compare o k l) :
    Decides compare ((Ord.compare s t).then o) (name s :: k) (name t :: l) := by
  rw [← compare_name]
  exact Decides.cons fun _ => h

end Atom

open ExprNode (compareContents compareKids computeHash sameKind_of_getKind)

mutual

/-- What `compare` looks at, in its order. -/
def ExprObject.key : ExprObject → List Atom
  | .mk _ hashValue n => .number n.getKind :: .number hashValue.toNat :: n.key

def ExprNode.key : ExprNode → List Atom
  | .constant c => [.number c.width, .number c.bits.toNat]
  | .notOptimized e | .not e => e.key
  | .read root head index => .name root.name :: .number root.addr :: .number head.getSize :: (head.key ++ index.key)
  | .select c t f => c.key ++ (t.key ++ f.key)
  | .extract e off w => .number off :: .number w :: e.key
  | .zext e w | .sext e w => .number w :: e.key
  | .concat l r | .bin _ l r | .cmp _ l r => l.key ++ r.key

def UpdateObject.key : UpdateObject → List Atom
  | .nil => []
  | .cons _ _ index value next => index.key ++ (value.key ++ next.key)

end

section Order

variable {getHashValue : APInt → BitVec 32} {H : Heap}

mutual

theorem ExprObject.compare_decides : ∀ {a b : ExprObject}, a.Allocated getHashValue H → b.Allocated getHashValue H →
    Decides Atom.compare (a.compare b) a.key b.key
  | .mk p hashValue n, .mk q hashValue' m, ha, hb => by
    by_cases hpq : p = q
    · -- the same object
      have hab : ExprObject.mk p hashValue n = .mk q hashValue' m := by rw [← ha.1, ← hb.1, hpq]
      rw [hab, ExprObject.compare, if_pos rfl]
      exact .refl _
    · rw [ExprObject.compare, if_neg hpq, ExprObject.key, ExprObject.key]
      apply Atom.decides_number
      intro hkind
      apply Atom.decides_number
      intro _
      exact ExprNode.compare_decides (sameKind_of_getKind hkind) ha.2.2 hb.2.2

theorem ExprNode.compare_decides : ∀ {n m : ExprNode}, n.SameKind m → n.Allocated getHashValue H →
    m.Allocated getHashValue H → Decides Atom.compare ((n.compareContents m).then (n.compareKids m)) n.key m.key
  | .constant c, m, h, _, _ => by
    cases h
    rw [compareContents, compareKids, then_assoc]
    · exact Atom.decides_number fun _ => Atom.decides_number fun _ => .nil
    all_goals nofun
  | .notOptimized e, m, h, hn, hm => by
    cases h
    exact ExprObject.compare_decides hn hm
  | .read root head index, m, h, hn, hm => by
    cases h
    simp only [compareContents, compareKids, then_assoc]
    apply Atom.decides_name
    apply Atom.decides_number
    intro _
    apply Atom.decides_number
    intro hsize
    exact (UpdateObject.compare_decides hsize hn.2.1 hm.2.1).append (ExprObject.compare_decides hn.2.2 hm.2.2)
  | .select c v f, m, h, hn, hm => by
    cases h
    exact (ExprObject.compare_decides hn.1 hm.1).append
      ((ExprObject.compare_decides hn.2.1 hm.2.1).append (ExprObject.compare_decides hn.2.2 hm.2.2))
  | .extract e off w, m, h, hn, hm => by
    cases h
    rw [compareContents, compareKids, then_assoc]
    exact Atom.decides_number fun _ => Atom.decides_number fun _ => ExprObject.compare_decides hn hm
  | .not e, m, h, hn, hm => by
    cases h
    exact (ExprObject.compare_decides hn hm).twice
  | .zext e w, m, h, hn, hm
  | .sext e w, m, h, hn, hm => by
    cases h
    exact Atom.decides_number fun _ => ExprObject.compare_decides hn hm
  | .concat l r, m, h, hn, hm
  | .bin _ l r, m, h, hn, hm
  | .cmp _ l r, m, h, hn, hm => by
    cases h
    exact (ExprObject.compare_decides hn.1 hm.1).append (ExprObject.compare_decides hn.2 hm.2)

theorem UpdateObject.compare_decides : ∀ {u v : UpdateObject}, u.getSize = v.getSize → u.Allocated getHashValue H →
    v.Allocated getHashValue H → Decides Atom.compare (u.compareNodes v) u.key v.key
  | .nil, .nil, _, _, _ => .nil
  | .nil, .cons _ _ _ _ next, h, _, _ => by
    rw [getSize, getSize] at h
    omega
  | .cons _ _ _ _ next, .nil, h, _, _ => by
    rw [getSize, getSize] at h
    omega
  | .cons p hashValue index value next, .cons q hashValue' index' value' next', h, hu, hv => by
    by_cases hpq : p = q
    · have huv : UpdateObject.cons p hashValue index value next = .cons q hashValue' index' value' next' := by
        rw [← hu.1, ← hv.1, hpq]
      rw [huv, compareNodes, if_pos rfl]
      exact .refl _
    · have hsize : next.getSize = next'.getSize := Nat.add_left_cancel h
      rw [compareNodes, if_neg hpq, then_assoc]
      exact (ExprObject.compare_decides hu.2.2.1 hv.2.2.1).append
        ((ExprObject.compare_decides hu.2.2.2.1 hv.2.2.2.1).append
          (UpdateObject.compare_decides hsize hu.2.2.2.2 hv.2.2.2.2))

end

end Order

/-! ## Equality -/

mutual

/-- The number of `Not` nodes. -/
def Expr.notCount : Expr → Nat
  | .constant _ => 0
  | .notOptimized e | .extract e _ _ | .zext e _ | .sext e _ => e.notCount
  | .not e => e.notCount + 1
  | .read _ head index => head.notCount + index.notCount
  | .select c t f => c.notCount + (t.notCount + f.notCount)
  | .concat l r | .bin _ l r | .cmp _ l r => l.notCount + r.notCount

def Updates.notCount : Updates → Nat
  | .nil => 0
  | .cons index value next => index.notCount + (value.notCount + next.notCount)

end

mutual

/-- The words that `hashValue` holds in the `Not` nodes of an object. -/
def ExprObject.notWords : ExprObject → List (BitVec 32)
  | .mk _ hashValue n => n.notWords hashValue

def ExprNode.notWords : ExprNode → BitVec 32 → List (BitVec 32)
  | .constant _, _ => []
  | .notOptimized e, _ | .extract e _ _, _ | .zext e _, _ | .sext e _, _ => e.notWords
  | .not e, hashValue => hashValue :: e.notWords
  | .read _ head index, _ => head.notWords ++ index.notWords
  | .select c t f, _ => c.notWords ++ (t.notWords ++ f.notWords)
  | .concat l r, _ | .bin _ l r, _ | .cmp _ l r, _ => l.notWords ++ r.notWords

def UpdateObject.notWords : UpdateObject → List (BitVec 32)
  | .nil => []
  | .cons _ _ index value next => index.notWords ++ (value.notWords ++ next.notWords)

end

mutual

theorem ExprObject.length_notWords : ∀ a : ExprObject, a.notWords.length = a.toExpr.notCount
  | .mk _ hashValue n => n.length_notWords hashValue

theorem ExprNode.length_notWords : ∀ (n : ExprNode) (hashValue : BitVec 32),
    (n.notWords hashValue).length = n.toExpr.notCount
  | .constant _, _ => rfl
  | .notOptimized e, _ | .extract e _ _, _ | .zext e _, _ | .sext e _, _ => e.length_notWords
  | .not e, hashValue => congrArg (· + 1) e.length_notWords
  | .read _ head index, _ => by
    simp only [ExprNode.notWords, ExprNode.toExpr, Expr.notCount, length_append, head.length_notWords, index.length_notWords]
  | .select c t f, _ => by
    simp only [ExprNode.notWords, ExprNode.toExpr, Expr.notCount, length_append, c.length_notWords, t.length_notWords,
      f.length_notWords]
  | .concat l r, _ | .bin _ l r, _ | .cmp _ l r, _ => by
    simp only [ExprNode.notWords, ExprNode.toExpr, Expr.notCount, length_append, l.length_notWords, r.length_notWords]

theorem UpdateObject.length_notWords : ∀ u : UpdateObject, u.notWords.length = u.toUpdates.notCount
  | .nil => rfl
  | .cons _ _ index value next => by
    simp only [UpdateObject.notWords, toUpdates, Updates.notCount, length_append, index.length_notWords,
      value.length_notWords, next.length_notWords]

end

/-- Where the trees are the same, the words of an object are those of its first part, then the others. -/
theorem ExprObject.notWords_append {s t : List (BitVec 32)} (h : a.toExpr = b.toExpr)
    (hw : a.notWords ++ s = b.notWords ++ t) : a.notWords = b.notWords ∧ s = t := by
  apply append_inj hw
  rw [a.length_notWords, b.length_notWords, h]

theorem UpdateObject.notWords_append {u v : UpdateObject} {s t : List (BitVec 32)} (h : u.toUpdates = v.toUpdates)
    (hw : u.notWords ++ s = v.notWords ++ t) : u.notWords = v.notWords ∧ s = t := by
  apply append_inj hw
  rw [u.length_notWords, v.length_notWords, h]

section Equality

variable {getHashValue : APInt → BitVec 32} {H : Heap}

theorem APInt.eq_of_compare {c c' : APInt} (hw : Ord.compare c.width c'.width = .eq)
    (hb : Ord.compare c.bits.toNat c'.bits.toNat = .eq) : c = c' := by
  obtain ⟨w, x⟩ := c
  obtain ⟨w', x'⟩ := c'
  obtain rfl : w = w' := Nat.compare_eq_eq.1 hw
  have hx : x = x' := BitVec.eq_of_toNat_eq (Nat.compare_eq_eq.1 hb)
  rw [hx]

mutual

/-- Where `compare` finds no difference, the trees and the words in the `Not` nodes are the same. -/
theorem ExprObject.same_of_compare : ∀ {a b : ExprObject}, a.Allocated getHashValue H → b.Allocated getHashValue H →
    a.compare b = .eq → a.toExpr = b.toExpr ∧ a.notWords = b.notWords
  | .mk p hashValue n, .mk q hashValue' m, ha, hb, h => by
    by_cases hpq : p = q
    · have hab : ExprObject.mk p hashValue n = .mk q hashValue' m := by rw [← ha.1, ← hb.1, hpq]
      rw [hab]
      exact ⟨rfl, rfl⟩
    · rw [ExprObject.compare, if_neg hpq] at h
      simp only [then_eq_eq, Nat.compare_eq_eq] at h
      obtain ⟨hkind, hhash, hcontents, hkids⟩ := h
      obtain rfl := BitVec.eq_of_toNat_eq hhash
      exact ExprNode.same_of_compare (sameKind_of_getKind hkind) ha.2.2 hb.2.2 hcontents hkids hashValue

theorem ExprNode.same_of_compare : ∀ {n m : ExprNode}, n.SameKind m → n.Allocated getHashValue H →
    m.Allocated getHashValue H → n.compareContents m = .eq → n.compareKids m = .eq → ∀ hashValue,
    n.toExpr = m.toExpr ∧ n.notWords hashValue = m.notWords hashValue
  | .constant c, m, h, _, _, hcontents, _, _ => by
    cases h
    obtain ⟨hw, hb⟩ := then_eq_eq.1 hcontents
    rw [APInt.eq_of_compare hw hb]
    exact ⟨rfl, rfl⟩
  | .notOptimized e, m, h, hn, hm, _, hkids, _ => by
    cases h
    obtain ⟨he, hw⟩ := ExprObject.same_of_compare hn hm hkids
    exact ⟨congrArg Expr.notOptimized he, hw⟩
  | .read root head index, m, h, hn, hm, hcontents, hkids, _ => by
    cases h with
    | @read _ _ _ root' head' index' =>
    obtain ⟨-, hcontents⟩ := then_eq_eq.1 hcontents
    obtain ⟨haddr, hcontents⟩ := then_eq_eq.1 hcontents
    obtain ⟨hsize, hnodes⟩ := then_eq_eq.1 hcontents
    have hroot : root = root' := by rw [← hn.1, ← hm.1, Nat.compare_eq_eq.1 haddr]
    obtain ⟨hu, huw⟩ := UpdateObject.same_of_compare (Nat.compare_eq_eq.1 hsize) hn.2.1 hm.2.1 hnodes
    obtain ⟨hi, hiw⟩ := ExprObject.same_of_compare hn.2.2 hm.2.2 hkids
    simp only [ExprNode.toExpr, ExprNode.notWords, hroot, hu, huw, hi, hiw, and_self]
  | .select c t f, m, h, hn, hm, _, hkids, _ => by
    cases h
    obtain ⟨hc, hkids⟩ := then_eq_eq.1 hkids
    obtain ⟨ht, hf⟩ := then_eq_eq.1 hkids
    obtain ⟨hce, hcw⟩ := ExprObject.same_of_compare hn.1 hm.1 hc
    obtain ⟨hte, htw⟩ := ExprObject.same_of_compare hn.2.1 hm.2.1 ht
    obtain ⟨hfe, hfw⟩ := ExprObject.same_of_compare hn.2.2 hm.2.2 hf
    simp only [ExprNode.toExpr, ExprNode.notWords, hce, hcw, hte, htw, hfe, hfw, and_self]
  | .extract e off w, m, h, hn, hm, hcontents, hkids, _ => by
    cases h
    obtain ⟨hoff, hwidth⟩ := then_eq_eq.1 hcontents
    obtain ⟨he, hw⟩ := ExprObject.same_of_compare hn hm hkids
    simp only [ExprNode.toExpr, ExprNode.notWords, Nat.compare_eq_eq.1 hoff, Nat.compare_eq_eq.1 hwidth, he, hw,
      and_self]
  | .not e, m, h, hn, hm, _, hkids, _ => by
    cases h
    obtain ⟨he, hw⟩ := ExprObject.same_of_compare hn hm hkids
    simp only [ExprNode.toExpr, ExprNode.notWords, he, hw, and_self]
  | .zext e w, m, h, hn, hm, hcontents, hkids, _
  | .sext e w, m, h, hn, hm, hcontents, hkids, _ => by
    cases h
    obtain ⟨he, hw⟩ := ExprObject.same_of_compare hn hm hkids
    simp only [ExprNode.toExpr, ExprNode.notWords, Nat.compare_eq_eq.1 hcontents, he, hw, and_self]
  | .concat l r, m, h, hn, hm, _, hkids, _
  | .bin _ l r, m, h, hn, hm, _, hkids, _
  | .cmp _ l r, m, h, hn, hm, _, hkids, _ => by
    cases h
    obtain ⟨hl, hr⟩ := then_eq_eq.1 hkids
    obtain ⟨hle, hlw⟩ := ExprObject.same_of_compare hn.1 hm.1 hl
    obtain ⟨hre, hrw⟩ := ExprObject.same_of_compare hn.2 hm.2 hr
    simp only [ExprNode.toExpr, ExprNode.notWords, hle, hlw, hre, hrw, and_self]

theorem UpdateObject.same_of_compare : ∀ {u v : UpdateObject}, u.getSize = v.getSize → u.Allocated getHashValue H →
    v.Allocated getHashValue H → u.compareNodes v = .eq → u.toUpdates = v.toUpdates ∧ u.notWords = v.notWords
  | .nil, .nil, _, _, _, _ => ⟨rfl, rfl⟩
  | .nil, .cons _ _ _ _ next, h, _, _, _ => by
    rw [getSize, getSize] at h
    omega
  | .cons _ _ _ _ next, .nil, h, _, _, _ => by
    rw [getSize, getSize] at h
    omega
  | .cons p hashValue index value next, .cons q hashValue' index' value' next', h, hu, hv, hnodes => by
    by_cases hpq : p = q
    · have huv : UpdateObject.cons p hashValue index value next = .cons q hashValue' index' value' next' := by
        rw [← hu.1, ← hv.1, hpq]
      rw [huv]
      exact ⟨rfl, rfl⟩
    · rw [compareNodes, if_neg hpq] at hnodes
      obtain ⟨hnode, hnext⟩ := then_eq_eq.1 hnodes
      obtain ⟨hi, hv'⟩ := then_eq_eq.1 hnode
      obtain ⟨hie, hiw⟩ := ExprObject.same_of_compare hu.2.2.1 hv.2.2.1 hi
      obtain ⟨hve, hvw⟩ := ExprObject.same_of_compare hu.2.2.2.1 hv.2.2.2.1 hv'
      obtain ⟨hne, hnw⟩ := UpdateObject.same_of_compare (Nat.add_left_cancel h) hu.2.2.2.2 hv.2.2.2.2 hnext
      simp only [toUpdates, UpdateObject.notWords, hie, hiw, hve, hvw, hne, hnw, and_self]

end

theorem ExprNode.computeHash_idem (n : ExprNode) (hashValue : BitVec 32) :
    n.computeHash getHashValue (n.computeHash getHashValue hashValue) = n.computeHash getHashValue hashValue := by
  cases n <;> rfl

mutual

/-- The same tree with the same words in the `Not` nodes has the same hash, and `compare` finds no difference. -/
theorem ExprObject.compare_of_same : ∀ {a b : ExprObject}, a.Allocated getHashValue H → b.Allocated getHashValue H →
    a.toExpr = b.toExpr → a.notWords = b.notWords → a.hash = b.hash ∧ a.compare b = .eq
  | .mk p hashValue n, .mk q hashValue' m, ha, hb, he, hw => by
    have hkind : n.getKind = m.getKind := congrArg Expr.getKind he
    obtain ⟨hhash, hcontents, hkids⟩ :=
      ExprNode.compare_of_same (sameKind_of_getKind hkind) ha.2.2 hb.2.2 he hw
    obtain ⟨before, hn⟩ := ha.2.1
    obtain ⟨before', hm⟩ := hb.2.1
    have heq : hashValue = hashValue' := by
      rw [hn, hm, n.computeHash_idem, m.computeHash_idem, ← hn, ← hm] at hhash
      exact hhash
    subst heq
    refine ⟨rfl, ?_⟩
    rw [ExprObject.compare, hkind, hcontents, hkids]
    simp

theorem ExprNode.compare_of_same : ∀ {n m : ExprNode} {hashValue hashValue' : BitVec 32}, n.SameKind m →
    n.Allocated getHashValue H → m.Allocated getHashValue H → n.toExpr = m.toExpr →
    n.notWords hashValue = m.notWords hashValue' →
    n.computeHash getHashValue hashValue = m.computeHash getHashValue hashValue' ∧ n.compareContents m = .eq ∧
      n.compareKids m = .eq
  | .constant c, m, _, _, hk, _, _, he, _ => by
    cases hk
    injection he with he
    subst he
    exact ⟨rfl, by simp [compareContents], rfl⟩
  | .notOptimized e, m, _, _, hk, hn, hm, he, hw => by
    cases hk
    injection he with he
    obtain ⟨hh, hc⟩ := ExprObject.compare_of_same hn hm he hw
    refine ⟨?_, rfl, hc⟩
    rw [computeHash, computeHash, hh]
    rfl
  | .read root head index, m, _, _, hk, hn, hm, he, hw => by
    cases hk
    injection he with hroot hu hi
    obtain ⟨huw, hiw⟩ := UpdateObject.notWords_append hu hw
    obtain ⟨hsize, huh, huc⟩ := UpdateObject.compare_of_same hn.2.1 hm.2.1 hu huw
    obtain ⟨hih, hic⟩ := ExprObject.compare_of_same hn.2.2 hm.2.2 hi hiw
    subst hroot
    refine ⟨?_, ?_, hic⟩
    · simp only [computeHash, UpdateObject.listHash, hih, huh]
    · simp [compareContents, hsize, huc]
  | .select c t f, m, _, _, hk, hn, hm, he, hw => by
    cases hk
    injection he with hc ht hf
    obtain ⟨hcw, hw⟩ := ExprObject.notWords_append hc hw
    obtain ⟨htw, hfw⟩ := ExprObject.notWords_append ht hw
    obtain ⟨hch, hcc⟩ := ExprObject.compare_of_same hn.1 hm.1 hc hcw
    obtain ⟨hth, htc⟩ := ExprObject.compare_of_same hn.2.1 hm.2.1 ht htw
    obtain ⟨hfh, hfc⟩ := ExprObject.compare_of_same hn.2.2 hm.2.2 hf hfw
    refine ⟨?_, rfl, ?_⟩
    · rw [computeHash, computeHash, hch, hth, hfh]
      rfl
    · rw [compareKids, hcc, htc, hfc]
      rfl
  | .extract e off w, m, _, _, hk, hn, hm, he, hw => by
    cases hk
    injection he with he hoff hwidth
    obtain ⟨hh, hc⟩ := ExprObject.compare_of_same hn hm he hw
    subst hoff hwidth
    refine ⟨?_, ?_, hc⟩
    · rw [computeHash, computeHash, hh]
    · simp [compareContents]
  | .not e, m, _, _, hk, hn, hm, he, hw => by
    cases hk
    injection he with he
    injection hw with hhash hw
    obtain ⟨-, hc⟩ := ExprObject.compare_of_same hn hm he hw
    exact ⟨hhash, hc, hc⟩
  | .zext e w, m, _, _, hk, hn, hm, he, hw
  | .sext e w, m, _, _, hk, hn, hm, he, hw => by
    cases hk
    injection he with he hwidth
    obtain ⟨hh, hc⟩ := ExprObject.compare_of_same hn hm he hw
    subst hwidth
    refine ⟨?_, ?_, hc⟩
    · rw [computeHash, computeHash, hh]
    · simp [compareContents]
  | .concat l r, m, _, _, hk, hn, hm, he, hw
  | .bin _ l r, m, _, _, hk, hn, hm, he, hw
  | .cmp _ l r, m, _, _, hk, hn, hm, he, hw => by
    cases hk
    obtain ⟨hl, hr⟩ : _ ∧ _ := by simpa [ExprNode.toExpr] using he
    obtain ⟨hlw, hrw⟩ := ExprObject.notWords_append hl hw
    obtain ⟨hlh, hlc⟩ := ExprObject.compare_of_same hn.1 hm.1 hl hlw
    obtain ⟨hrh, hrc⟩ := ExprObject.compare_of_same hn.2 hm.2 hr hrw
    refine ⟨?_, rfl, ?_⟩
    · rw [computeHash, computeHash, hlh, hrh]
      rfl
    · rw [compareKids, hlc, hrc]
      rfl

theorem UpdateObject.compare_of_same : ∀ {u v : UpdateObject}, u.Allocated getHashValue H →
    v.Allocated getHashValue H → u.toUpdates = v.toUpdates → u.notWords = v.notWords →
    u.getSize = v.getSize ∧ u.hash = v.hash ∧ u.compareNodes v = .eq
  | .nil, .nil, _, _, _, _ => ⟨rfl, rfl, rfl⟩
  | .nil, .cons .., _, _, h, _ => by cases h
  | .cons .., .nil, _, _, h, _ => by cases h
  | .cons p hashValue index value next, .cons q hashValue' index' value' next', hu, hv, h, hw => by
    injection h with hi hv' hn
    obtain ⟨hiw, hw⟩ := ExprObject.notWords_append hi hw
    obtain ⟨hvw, hnw⟩ := ExprObject.notWords_append hv' hw
    obtain ⟨hih, hic⟩ := ExprObject.compare_of_same hu.2.2.1 hv.2.2.1 hi hiw
    obtain ⟨hvh, hvc⟩ := ExprObject.compare_of_same hu.2.2.2.1 hv.2.2.2.1 hv' hvw
    obtain ⟨hsize, hnh, hnc⟩ := UpdateObject.compare_of_same hu.2.2.2.2 hv.2.2.2.2 hn hnw
    refine ⟨congrArg (1 + ·) hsize, ?_, ?_⟩
    · rw [UpdateObject.hash, UpdateObject.hash, hu.2.1, hv.2.1, UpdateObject.computeHash, UpdateObject.computeHash,
        hih, hvh, hnh]
    · rw [compareNodes, hic, hvc, hnc]
      simp

end

/-- `compare` finds no difference exactly if the trees and the words in the `Not` nodes are the same. -/
theorem ExprObject.compare_eq_iff (ha : a.Allocated getHashValue H)
    (hb : b.Allocated getHashValue H) : a.compare b = .eq ↔ a.toExpr = b.toExpr ∧ a.notWords = b.notWords :=
  ⟨same_of_compare ha hb, fun ⟨he, hw⟩ => (compare_of_same ha hb he hw).2⟩

end Equality

/-! ## The laws -/

/-- What the maps and sets of expressions rely on: a total order, in which only the same trees are equal, and equal trees
have the same hash. -/
structure ExprObject.CompareLaws (a b c : ExprObject) : Prop where
  swap : b.compare a = (a.compare b).swap
  trans : (a.compare b).isLE → (b.compare c).isLE → (a.compare c).isLE
  eq_iff : a.compare b = .eq ↔ a.toExpr = b.toExpr
  hash : a.toExpr = b.toExpr → a.hash = b.hash

/-- The laws hold of three objects exactly if the first two are different trees or have the same words left in their
`Not` nodes. -/
theorem ExprObject.compareLaws_iff {getHashValue : APInt → BitVec 32} {H : Heap} {a b c : ExprObject}
    (ha : a.Allocated getHashValue H) (hb : b.Allocated getHashValue H) (hc : c.Allocated getHashValue H) :
    CompareLaws a b c ↔ (a.toExpr = b.toExpr → a.notWords = b.notWords) := by
  constructor
  · intro h he
    exact ((compare_eq_iff ha hb).1 (h.eq_iff.2 he)).2
  · intro h
    have hab := compare_decides ha hb
    exact
      { swap := hab.swap (compare_decides hb ha)
        trans := hab.isLE_trans (compare_decides hb hc) (compare_decides ha hc)
        eq_iff := (compare_eq_iff ha hb).trans (and_iff_left_of_imp h)
        hash := fun he => (compare_of_same ha hb he (h he)).1 }

/-! ## Two negations of one byte -/

/-- A hash for the runs below. -/
def lowWord (c : APInt) : BitVec 32 := c.bits.setWidth 32

def zeroObject : ExprObject := .alloc lowWord 1 0#32 (.constant (.ofNat 0 32))

/-- A read of the byte, as an object at `addr`. -/
def byteObject (addr : Nat) : ExprObject := .alloc lowWord addr 0#32 (.read (byteArray 0 "x") .nil zeroObject)

/-- Its negation, in memory that held `before`. -/
def notObject (addr : Nat) (before : BitVec 32) : ExprObject := .alloc lowWord addr before (.not (byteObject 2))

def byteHeap : Heap where
  expr p := match p with
    | 1 => zeroObject
    | 2 => byteObject 2
    | 3 => byteObject 3
    | 4 => notObject 4 5#32
    | _ => notObject 5 7#32
  update _ := .nil
  array _ := byteArray 0 "x"

theorem zeroObject_allocated : zeroObject.Allocated lowWord byteHeap := ⟨rfl, ⟨0#32, rfl⟩, trivial⟩

theorem byteObject_allocated (h : byteHeap.expr addr = byteObject addr) :
    (byteObject addr).Allocated lowWord byteHeap := ⟨h, ⟨0#32, rfl⟩, rfl, trivial, zeroObject_allocated⟩

theorem notObject_allocated {before : BitVec 32} (h : byteHeap.expr addr = notObject addr before) :
    (notObject addr before).Allocated lowWord byteHeap := ⟨h, ⟨before, rfl⟩, byteObject_allocated rfl⟩

/-- Two reads of the byte that have been built separately. -/
theorem compareLaws_bytes : ExprObject.CompareLaws (byteObject 2) (byteObject 3) (notObject 4 5#32) :=
  (ExprObject.compareLaws_iff (byteObject_allocated rfl) (byteObject_allocated rfl) (notObject_allocated rfl)).2
    fun _ => rfl

/-- Two negations of the same object differ where the memory they were built in did. -/
theorem compare_nots : ((notObject 4 5#32).Allocated lowWord byteHeap ∧ (notObject 5 7#32).Allocated lowWord byteHeap) ∧
      (notObject 4 5#32).toExpr = (notObject 5 7#32).toExpr ∧ (notObject 4 5#32).hash ≠ (notObject 5 7#32).hash ∧
      (notObject 4 5#32).compare (notObject 5 7#32) = .lt :=
  ⟨⟨notObject_allocated rfl, notObject_allocated rfl⟩, rfl, by decide, by decide⟩

end S2E.Klee
