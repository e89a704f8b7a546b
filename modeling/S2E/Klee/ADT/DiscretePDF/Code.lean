import Mathlib.Algebra.Order.Ring.Defs
import S2E.Lib.ParentTree

/-!
# `DiscretePDF`

Items with weights, in a search tree whose nodes hold the sum of the weights below them. The weights are exact numbers.
The tree is kept in shape by colours and rotations, in place and along parent pointers.

The functions of the source, on the nodes in memory: a null pointer that is followed is a fault, and so is an assertion.
Loops and recursion stop with a fault after as many rounds as `next`, the number of nodes ever made, allows.
-/

namespace S2E.Klee.DiscretePDF

open Lib Lib.ParentTree

/-- `m_mark` is set in a red node. -/
structure NodeData (κ K : Type) where
  mark : Bool
  key : κ
  weight : K
  sumWeights : K

abbrev PDF (κ K : Type) := ParentTree.Heap (NodeData κ K)

abbrev PdfM (κ K : Type) := HeapM (NodeData κ K)

/-- `DiscretePDF()` -/
def empty (κ K : Type) : PDF κ K := ⟨fun _ => none, 0, none⟩

variable {κ K : Type}

def isBlack (a : Nat) : PdfM κ K Bool := do
  let c ← load a
  return !c.data.mark

/-- `leftIsBlack`, `rightIsBlack` -/
def nullOrBlack : Ptr → PdfM κ K Bool
  | none => return true
  | some a => isBlack a

def setMark (b : Bool) (a : Nat) : PdfM κ K Unit := update a fun c => { c with data := { c.data with mark := b } }

def setMarkAt (b : Bool) : Ptr → PdfM κ K Unit
  | none => return ()
  | some a => setMark b a

/-- A pointer that is followed. -/
def deref : Ptr → PdfM κ K Nat
  | none => throw .dangling
  | some a => return a

section Sums

variable [Add K] [Zero K]

def sumAt : Ptr → PdfM κ K K
  | none => return 0
  | some a => do
    let c ← load a
    return c.data.sumWeights

def setSum (a : Nat) : PdfM κ K Unit := do
  let c ← load a
  let l ← sumAt c.left
  let r ← sumAt c.right
  update a fun c => { c with data := { c.data with sumWeights := c.data.weight + l + r } }

/-- The first half of `rotate`: the links of a node, its parent and the subtree that passes from one to the other. -/
def swing (n p : Nat) (cn cp : Cell (NodeData κ K)) : PdfM κ K Unit := do
  update n fun c => { c with parent := cp.parent }
  update p fun c => { c with parent := some n }
  if cp.left = some n then do
    update p fun c => { c with left := cn.right }
    update n fun c => { c with right := some p }
    updateAt cn.right fun c => { c with parent := some p }
  else do
    update p fun c => { c with right := cn.left }
    update n fun c => { c with left := some p }
    updateAt cn.left fun c => { c with parent := some p }

/-- What pointed to `p` points to `n`. -/
def relink (pp : Ptr) (p n : Nat) : PdfM κ K Unit :=
  match pp with
  | none => writeSlot (some n) .root
  | some pp => do
    let c ← load pp
    if c.left = some p then writeSlot (some n) (.left pp)
    else writeSlot (some n) (.right pp)

def rotate (n : Nat) : PdfM κ K Unit := do
  let cn ← load n
  let p ← deref cn.parent
  let cp ← load p
  swing n p cn cp
  setSum n
  setSum p
  relink cp.parent p n

def split (n : Nat) : PdfM κ K Unit := do
  let c ← load n
  setMarkAt false c.left
  setMarkAt false c.right
  match c.parent with
  | none => return ()
  | some p => do
    setMark true n
    let cp ← load p
    if cp.data.mark = false then return ()
    else do
      let pp ← deref cp.parent
      setMark true pp
      let cpp ← load pp
      -- same direction
      if (cp.left = some n ∧ cpp.left = some p) ∨ (cp.right = some n ∧ cpp.right = some p) then do
        rotate p
        setMark false p
      else do
        rotate n
        rotate n
        setMark false n

def sibling (n : Nat) : PdfM κ K Ptr := do
  let c ← load n
  let p ← deref c.parent
  let cp ← load p
  return if cp.left = some n then cp.right else cp.left

/-- A red sibling is turned up, and its child becomes the sibling. -/
def blackSibling (n p : Nat) : PdfM κ K Ptr := do
  let s ← sibling n
  if ← nullOrBlack s then return s
  else do
    let s ← deref s
    setMark true p
    setMark false s
    rotate s
    sibling n

/-- The red child of the sibling is turned to the far side. -/
def straighten (n p s : Nat) : PdfM κ K Nat := do
  let cp ← load p
  let cs ← load s
  let leftBlack ← nullOrBlack cs.left
  let rightBlack ← nullOrBlack cs.right
  if cp.left = some n ∧ rightBlack = true then do
    rotate (← deref cs.left)
    setMark true s
    let s' ← deref (← load s).parent
    setMark false s'
    return s'
  else if cp.right = some n ∧ leftBlack = true then do
    rotate (← deref cs.right)
    setMark true s
    let s' ← deref (← load s).parent
    setMark false s'
    return s'
  else return s

/-- The sibling, whose far child is red, is turned up over `p`, which stays the parent of `n`. -/
def turnSibling (n p s : Nat) : PdfM κ K Unit := do
  let s ← straighten n p s
  rotate s
  let cp ← load p
  (if cp.data.mark then setMark true s else return ())
  let cs ← load s
  setMark false (← deref cs.left)
  setMark false (← deref cs.right)

def lengthen : Nat → Nat → PdfM κ K Unit
  | 0, _ => throw .outOfFuel
  | fuel + 1, n => do
    let c ← load n
    if c.data.mark then setMark false n
    else
      match c.parent with
      | none => return ()
      | some p => do
        let s ← blackSibling n p
        match s with
        | none => lengthen fuel p
        | some s => do
          let cs ← load s
          let leftBlack ← nullOrBlack cs.left
          let rightBlack ← nullOrBlack cs.right
          if leftBlack && rightBlack then do
            let cp ← load p
            if cp.data.mark then do
              setMark true s
              setMark false p
            else do
              setMark true s
              lengthen fuel p
          else turnSibling n p s

def propogateSumsUp : Nat → Ptr → PdfM κ K Unit
  | _, none => return ()
  | 0, some _ => throw .outOfFuel
  | fuel + 1, some n => do
    setSum n
    let c ← load n
    propogateSumsUp fuel c.parent

end Sums

section Keys

variable [LinearOrder κ]

/-- The loop of `lookup`, from the place of a subtree. -/
def lookupFrom (item : κ) : Nat → Slot → PdfM κ K Slot
  | 0, _ => throw .outOfFuel
  | fuel + 1, np => do
    match ← readSlot np with
    | none => return np
    | some n => do
      let c ← load n
      if c.data.key = item then return np
      else lookupFrom item fuel (if item < c.data.key then .left n else .right n)

def lookup (item : κ) : PdfM κ K Slot := do
  lookupFrom item ((← get).next + 1) .root

def inTree (item : κ) : PdfM κ K Bool := do
  let n ← readSlot (← lookup item)
  return n.isSome

variable [Add K] [Zero K]

/-- Both children are red. -/
def fourNode (n : Nat) : PdfM κ K Bool := do
  let c ← load n
  let leftBlack ← nullOrBlack c.left
  let rightBlack ← nullOrBlack c.right
  return !leftBlack && !rightBlack

def splitFourNode (n : Nat) : PdfM κ K Unit := do
  if ← fourNode n then split n else return ()

/-- The loop of `insert`: the parent of the new node. -/
def insertFrom (item : κ) : Nat → Ptr → Ptr → PdfM κ K Ptr
  | 0, _, _ => throw .outOfFuel
  | _ + 1, p, none => return p
  | fuel + 1, _, some n => do
    splitFourNode n
    let c ← load n
    if c.data.key = item then throw .assertFailed
    else insertFrom item fuel (some n) (if item < c.data.key then c.left else c.right)

/-- The new node takes its place below `p`. -/
def hang (item : κ) (n : Nat) : Ptr → PdfM κ K Unit
  | none => writeSlot (some n) .root
  | some p => do
    let c ← load p
    writeSlot (some n) (if item < c.data.key then .left p else .right p)
    split n

def insert (item : κ) (weight : K) : PdfM κ K Unit := do
  let h ← get
  let p ← insertFrom item (2 * h.next + 2) none h.root
  let n ← new ⟨p, none, none, ⟨false, item, weight, 0⟩⟩
  hang item n p
  propogateSumsUp ((← get).next) (some n)

def update (item : κ) (weight : K) : PdfM κ K Unit := do
  match ← readSlot (← lookup item) with
  | none => throw .assertFailed
  | some n => do
    ParentTree.update n fun c => { c with data := { c.data with weight := weight } }
    propogateSumsUp ((← get).next) (some n)

/-- The place of the rightmost node below. -/
def leftMax : Nat → Slot → PdfM κ K Slot
  | 0, _ => throw .outOfFuel
  | fuel + 1, np => do
    let n ← deref (← readSlot np)
    let c ← load n
    if c.right = none then return np
    else leftMax fuel (.right n)

/-- The node that leaves the tree has one child at most. -/
def unlink (np : Slot) (n : Nat) : PdfM κ K Unit := do
  let c ← load n
  let child := if c.left = none then c.right else c.left
  writeSlot child np
  match child with
  | none => return ()
  | some b => do
    ParentTree.update b fun cb => { cb with parent := c.parent }
    if c.data.mark then return ()
    else lengthen ((← get).next + 1) b

def remove (item : κ) : PdfM κ K Unit := do
  let np ← lookup item
  match ← readSlot np with
  | none => throw .assertFailed
  | some n => do
    let c ← load n
    if c.left = none then do
      unlink np n
      propogateSumsUp ((← get).next) c.parent
      free n
    else do
      let leftMaxp ← leftMax ((← get).next + 1) (.left n)
      let m ← deref (← readSlot leftMaxp)
      let cm ← load m
      ParentTree.update n fun c => { c with data := { c.data with key := cm.data.key, weight := cm.data.weight } }
      unlink leftMaxp m
      propogateSumsUp ((← get).next) cm.parent
      free m

end Keys

section Choose

variable [Ring K] [LinearOrder K]

/-- The loop of `choose`, at a node, with what is left of the weight. -/
def chooseFrom : Nat → K → Nat → PdfM κ K κ
  | 0, _, _ => throw .outOfFuel
  | fuel + 1, w, n => do
    let c ← load n
    let l ← sumAt c.left
    if c.left ≠ none ∧ w < l then do
      chooseFrom fuel w (← deref c.left)
    else do
      let w := if c.left = none then w else w - l
      if w < c.data.weight ∨ c.right = none then return c.data.key
      else chooseFrom fuel (w - c.data.weight) (← deref c.right)

def choose (p : K) : PdfM κ K κ := do
  if p < 0 ∨ 1 ≤ p then throw .assertFailed
  else
    match (← get).root with
    | none => throw .assertFailed
    | some n => do
      let c ← load n
      chooseFrom (← get).next (c.data.sumWeights * p) n

end Choose

end S2E.Klee.DiscretePDF
