import Mathlib.Data.Tree.Basic
import S2E.Lib.Triple

/-!
# Binary trees in memory, with parent pointers

A tree is changed in place, at a node somewhere inside. It is described as that subtree and the way down to it.

* `Rep h p t` : the cells of the tree `t`, labelled with its addresses, below a parent `p`;
* `Frame`, `RepPath h fs q` : the nodes on the way, with the subtrees beside it; `q` is what the last of them, or the root
  pointer, points to;
* `HoldsAt h q t fs` : the heap is the tree `t` at the end of the way `fs`, each node at an address of its own.
  `Holds h t fs` : the way leads to `t`, as it does unless pointers are being changed;
* `holds_child` : the same tree, seen from a child;
* `setData`, `swing`, `writeSlot_runs`, `new_runs`, `splice`, `free_runs` : what changes of cells do to the tree.
-/

namespace S2E.Lib.ParentTree
open Function

abbrev Ptr := Option Nat

structure Cell (β : Type) where
  parent : Ptr
  left : Ptr
  right : Ptr
  data : β

/-- The cells, the first address that was never used and the pointer to the tree. -/
structure Heap (β : Type) where
  cells : Nat → Option (Cell β)
  next : Nat
  root : Ptr

inductive Fault
  | dangling | assertFailed | exception | outOfFuel
deriving DecidableEq

abbrev HeapM (β : Type) := StateT (Heap β) (Except Fault)

inductive Side
  | left | right
deriving DecidableEq

/-- A place that holds a pointer. -/
inductive Slot
  | root
  | left (a : Nat)
  | right (a : Nat)

variable {β γ : Type}

def Heap.set (h : Heap β) (a : Nat) (c : Option (Cell β)) : Heap β := { h with cells := update h.cells a c }

section Set

variable (h : Heap β) (a : Nat) (c : Option (Cell β))

@[simp] theorem Heap.set_cells_self : (h.set a c).cells a = c := update_self ..

theorem Heap.set_cells_of_ne {b : Nat} (hne : b ≠ a) : (h.set a c).cells b = h.cells b := update_of_ne hne ..

end Set

def load (a : Nat) : HeapM β (Cell β) := do
  match (← get).cells a with
  | some c => return c
  | none => throw .dangling

def update (a : Nat) (f : Cell β → Cell β) : HeapM β Unit := do
  let c ← load a
  modify fun h => h.set a (some (f c))

/-- An update behind a pointer that may be null. -/
def updateAt (p : Ptr) (f : Cell β → Cell β) : HeapM β Unit :=
  match p with
  | none => return ()
  | some a => update a f

def readSlot : Slot → HeapM β Ptr
  | .root => return (← get).root
  | .left a => return (← load a).left
  | .right a => return (← load a).right

def writeSlot (q : Ptr) : Slot → HeapM β Unit
  | .root => modify fun h => { h with root := q }
  | .left a => update a fun c => { c with left := q }
  | .right a => update a fun c => { c with right := q }

def new (c : Cell β) : HeapM β Nat := do
  let h ← get
  set { h.set h.next (some c) with next := h.next + 1 }
  return h.next

def free (a : Nat) : HeapM β Unit := modify fun h => h.set a none

section Runs

variable {h : Heap β} {a : Nat} {c : Cell β} {Q : γ → Heap β → Prop}

section

variable (hc : h.cells a = some c)

include hc

theorem load_runs : Runs (load a) h fun c' h' => c' = c ∧ h' = h := by
  refine ⟨c, h, ?_, rfl, rfl⟩
  simp [load, hc]
  rfl

theorem load_bind {f : Cell β → HeapM β γ} (hf : Runs (f c) h Q) : Runs (load a >>= f) h Q := by
  refine (load_runs hc).bind ?_
  rintro _ _ ⟨rfl, rfl⟩
  exact hf

theorem load_outcome {f : Cell β → HeapM β γ} {R : γ × Heap β → Prop} {E : Fault → Prop}
    (hf : Outcome ((f c).run h) R E) : Outcome ((load a >>= f).run h) R E := by
  refine (load_runs hc).outcome_bind ?_
  rintro _ _ ⟨rfl, rfl⟩
  exact hf

theorem update_bind {g : Cell β → Cell β} {f : Unit → HeapM β γ}
    (hf : Runs (f ()) (h.set a (some (g c))) Q) : Runs (update a g >>= f) h Q := by
  unfold update
  rw [bind_assoc]
  exact load_bind hc hf

theorem update_runs {g : Cell β → Cell β} {Q : Unit → Heap β → Prop}
    (hq : Q () (h.set a (some (g c)))) : Runs (update a g) h Q := load_bind hc ⟨(), _, rfl, hq⟩

end

end Runs

/-- Two cells of a heap have been changed. -/
structure Patched (h h' : Heap β) (a b : Nat) (ca cb : Cell β) : Prop where
  ne : a ≠ b
  fst : h'.cells a = some ca
  snd : h'.cells b = some cb
  same : ∀ i, i ≠ a → i ≠ b → h'.cells i = h.cells i
  root : h'.root = h.root
  next : h'.next = h.next

section Patched

variable {h h' : Heap β} {a b : Nat} {ca cb : Cell β} {g : Cell β → Cell β} {f : Unit → HeapM β γ}
  {Q : γ → Heap β → Prop}

theorem Patched.refl (hne : a ≠ b) (ha : h.cells a = some ca) (hb : h.cells b = some cb) : Patched h h a b ca cb :=
  ⟨hne, ha, hb, fun _ _ _ => rfl, rfl, rfl⟩

theorem Patched.update_fst (hp : Patched h h' a b ca cb)
    (hf : ∀ h₁, Patched h h₁ a b (g ca) cb → Runs (f ()) h₁ Q) : Runs (update a g >>= f) h' Q := by
  refine update_bind hp.fst (hf _ ⟨hp.ne, h'.set_cells_self _ _, ?_, fun i hia hib => ?_, hp.root, hp.next⟩)
  · exact (h'.set_cells_of_ne _ _ hp.ne.symm).trans hp.snd
  · exact (h'.set_cells_of_ne _ _ hia).trans (hp.same i hia hib)

theorem Patched.update_snd (hp : Patched h h' a b ca cb)
    (hf : ∀ h₁, Patched h h₁ a b ca (g cb) → Runs (f ()) h₁ Q) : Runs (update b g >>= f) h' Q := by
  refine update_bind hp.snd (hf _ ⟨hp.ne, ?_, h'.set_cells_self _ _, fun i hia hib => ?_, hp.root, hp.next⟩)
  · exact (h'.set_cells_of_ne _ _ hp.ne).trans hp.fst
  · exact (h'.set_cells_of_ne _ _ hib).trans (hp.same i hia hib)

end Patched

/-! ## Trees in memory -/

/-- A tree with the addresses of its nodes. -/
abbrev Shape (β : Type) := BinaryTree (Nat × β)

def ptr : Shape β → Ptr
  | .nil => none
  | .node x _ _ => some x.1

def Rep (h : Heap β) : Ptr → Shape β → Prop
  | _, .nil => True
  | p, .node x l r => h.cells x.1 = some ⟨p, ptr l, ptr r, x.2⟩ ∧ Rep h (some x.1) l ∧ Rep h (some x.1) r

/-- How often an address occurs in a tree. -/
def occ (a : Nat) : Shape β → Nat
  | .nil => 0
  | .node x l r => (if x.1 = a then 1 else 0) + occ a l + occ a r

def Side.other : Side → Side
  | .left => .right
  | .right => .left

/-- A node with `s` on the side `d` and `t` on the other. -/
def branch (d : Side) (x : Nat × β) (s t : Shape β) : Shape β :=
  match d with
  | .left => .node x s t
  | .right => .node x t s

def Cell.along (d : Side) (parent s t : Ptr) (data : β) : Cell β :=
  match d with
  | .left => ⟨parent, s, t, data⟩
  | .right => ⟨parent, t, s, data⟩

/-- A node on the way down, the side on which the way goes on, and the subtree on the other side. -/
structure Frame (β : Type) where
  side : Side
  node : Nat × β
  sibling : Shape β

/-- The parent of what is at the end of the way. -/
def up : List (Frame β) → Ptr
  | [] => none
  | f :: _ => some f.node.1

/-- The place that points there. -/
def slotOf : List (Frame β) → Slot
  | [] => .root
  | ⟨.left, x, _⟩ :: _ => .left x.1
  | ⟨.right, x, _⟩ :: _ => .right x.1

def RepPath (h : Heap β) : List (Frame β) → Ptr → Prop
  | [], q => h.root = q
  | f :: fs, q => h.cells f.node.1 = some (.along f.side (up fs) q (ptr f.sibling) f.node.2) ∧
      Rep h (some f.node.1) f.sibling ∧ RepPath h fs (some f.node.1)

def occPath (a : Nat) : List (Frame β) → Nat
  | [] => 0
  | f :: fs => (if f.node.1 = a then 1 else 0) + occ a f.sibling + occPath a fs

def nodesOnPath : List (Frame β) → Nat
  | [] => 0
  | f :: fs => f.sibling.numNodes + 1 + nodesOnPath fs

/-- The subtree from which a way leads down to `t`. -/
def plug (t : Shape β) : List (Frame β) → Shape β
  | [] => t
  | f :: fs => plug (branch f.side f.node t f.sibling) fs

structure HoldsAt (h : Heap β) (q : Ptr) (t : Shape β) (fs : List (Frame β)) : Prop where
  rep : Rep h (up fs) t
  path : RepPath h fs q
  once : ∀ a, occ a t + occPath a fs ≤ 1
  fresh : ∀ a, 0 < occ a t + occPath a fs → a < h.next
  size : t.numNodes + nodesOnPath fs ≤ h.next

abbrev Holds (h : Heap β) (t : Shape β) (fs : List (Frame β)) : Prop := HoldsAt h (ptr t) t fs

section Shapes

variable (a : Nat) (d : Side) (x : Nat × β) (l r s t : Shape β) (f : Frame β) (fs : List (Frame β))

@[simp] theorem ptr_nil : ptr (.nil : Shape β) = none := rfl

@[simp] theorem ptr_node : ptr (.node x l r) = some x.1 := rfl

@[simp] theorem ptr_branch : ptr (branch d x s t) = some x.1 := by cases d <;> rfl

@[simp] theorem occ_nil : occ a (.nil : Shape β) = 0 := rfl

@[simp] theorem occ_node : occ a (.node x l r) = (if x.1 = a then 1 else 0) + occ a l + occ a r := rfl

@[simp] theorem occ_branch : occ a (branch d x s t) = (if x.1 = a then 1 else 0) + occ a s + occ a t := by
  cases d with
  | left => rfl
  | right => exact Nat.add_right_comm _ _ _

@[simp] theorem occPath_nil : occPath a ([] : List (Frame β)) = 0 := rfl

@[simp] theorem occPath_cons :
    occPath a (f :: fs) = (if f.node.1 = a then 1 else 0) + occ a f.sibling + occPath a fs := rfl

@[simp] theorem numNodes_branch : (branch d x s t).numNodes = s.numNodes + t.numNodes + 1 := by
  cases d with
  | left => rfl
  | right => exact congrArg (· + 1) (Nat.add_comm _ _)

@[simp] theorem nodesOnPath_cons : nodesOnPath (f :: fs) = f.sibling.numNodes + 1 + nodesOnPath fs := rfl

@[simp] theorem Cell.along_parent (p a b : Ptr) (data : β) : (Cell.along d p a b data).parent = p := by cases d <;> rfl

@[simp] theorem Cell.along_data (p a b : Ptr) (data : β) : (Cell.along d p a b data).data = data := by cases d <;> rfl

theorem branch_other : branch d.other x s t = branch d x t s := by cases d <;> rfl

theorem slotOf_append {f' : Frame β} (gs : List (Frame β)) (hside : f'.side = f.side) (haddr : f'.node.1 = f.node.1) :
    slotOf (gs ++ f' :: fs) = slotOf (gs ++ f :: fs) := by
  match gs, f, f' with
  | [], ⟨.left, _, _⟩, ⟨.left, _, _⟩ => exact congrArg Slot.left haddr
  | [], ⟨.right, _, _⟩, ⟨.right, _, _⟩ => exact congrArg Slot.right haddr
  | ⟨.left, _, _⟩ :: _, _, _ => rfl
  | ⟨.right, _, _⟩ :: _, _, _ => rfl

theorem up_append {f' : Frame β} (gs : List (Frame β)) (haddr : f'.node.1 = f.node.1) :
    up (gs ++ f' :: fs) = up (gs ++ f :: fs) := by
  cases gs with
  | nil => exact congrArg some haddr
  | cons g gs => rfl

theorem plug_append (gs : List (Frame β)) : plug t (fs ++ gs) = plug (plug t fs) gs := by
  induction fs generalizing t with
  | nil => rfl
  | cons f fs ih => exact ih _

theorem exists_branch {q : Nat} (ht : ptr t = some q) : ∃ x s u, t = branch d x s u ∧ x.1 = q := by
  cases t with
  | nil => cases ht
  | node x l r =>
    obtain rfl : x.1 = q := Option.some.inj ht
    cases d with
    | left => exact ⟨x, l, r, rfl, rfl⟩
    | right => exact ⟨x, r, l, rfl, rfl⟩

end Shapes

section Rep

variable {h h' : Heap β} {p q : Ptr} {d : Side} {x y : Nat × β} {l r s t u : Shape β} {f : Frame β}
  {fs : List (Frame β)}

theorem rep_branch : Rep h p (branch d x s t) ↔
    h.cells x.1 = some (.along d p (ptr s) (ptr t) x.2) ∧ Rep h (some x.1) s ∧ Rep h (some x.1) t := by
  cases d with
  | left => exact Iff.rfl
  | right => exact and_congr_right fun _ => and_comm

theorem occ_of_ptr {a : Nat} (hp : ptr t = some a) : 0 < occ a t := by
  cases t with
  | nil => cases hp
  | node x l r =>
    obtain rfl : x.1 = a := Option.some.inj hp
    simp only [occ_node, if_true]
    omega

theorem Rep.congr : ∀ {p : Ptr} {t : Shape β}, Rep h p t → (∀ a, 0 < occ a t → h'.cells a = h.cells a) → Rep h' p t
  | _, .nil, _, _ => trivial
  | _, .node x l r, ht, hc => by
    refine ⟨(hc x.1 (by simp only [occ_node, if_true]; omega)).trans ht.1, ht.2.1.congr fun a ha => ?_,
      ht.2.2.congr fun a ha => ?_⟩
    · exact hc a (by rw [occ_node]; omega)
    · exact hc a (by rw [occ_node]; omega)

theorem RepPath.congr : ∀ {fs : List (Frame β)} {q : Ptr}, RepPath h fs q →
    (∀ a, 0 < occPath a fs → h'.cells a = h.cells a) → h'.root = h.root → RepPath h' fs q
  | [], _, hp, _, hroot => hroot.trans hp
  | f :: fs, q, hp, hc, hroot => by
    refine ⟨(hc f.node.1 (by simp only [occPath_cons, if_true]; omega)).trans hp.1, hp.2.1.congr fun a ha => ?_,
      hp.2.2.congr (fun a ha => ?_) hroot⟩
    · exact hc a (by rw [occPath_cons]; omega)
    · exact hc a (by rw [occPath_cons]; omega)

/-- Another tree from the same nodes, or some of them. -/
theorem HoldsAt.reshape {q' : Ptr} {t' : Shape β} {fs' : List (Frame β)} (hh : HoldsAt h q t fs)
    (hrep : Rep h' (up fs') t') (hpath : RepPath h' fs' q') (hnext : h'.next = h.next)
    (hocc : ∀ a, occ a t' + occPath a fs' ≤ occ a t + occPath a fs)
    (hsize : t'.numNodes + nodesOnPath fs' ≤ t.numNodes + nodesOnPath fs) : HoldsAt h' q' t' fs' :=
  ⟨hrep, hpath, fun a => (hocc a).trans (hh.once a), fun a ha => hnext ▸ hh.fresh a (ha.trans_le (hocc a)),
    hnext ▸ hsize.trans hh.size⟩

theorem holds_child : Holds h t (f :: fs) ↔ Holds h (branch f.side f.node t f.sibling) fs := by
  constructor
  · intro hh
    refine hh.reshape (rep_branch.2 ⟨hh.path.1, hh.rep, hh.path.2.1⟩) ?_ rfl (fun a => ?_) ?_
    · rw [ptr_branch]
      exact hh.path.2.2
    · rw [occ_branch, occPath_cons]
      omega
    · rw [numNodes_branch, nodesOnPath_cons]
      omega
  · intro hh
    obtain ⟨hcell, ht, hs⟩ := rep_branch.1 hh.rep
    have hpath := hh.path
    rw [ptr_branch] at hpath
    refine hh.reshape ht ⟨hcell, hs, hpath⟩ rfl (fun a => ?_) ?_
    · rw [occ_branch, occPath_cons]
      omega
    · rw [numNodes_branch, nodesOnPath_cons]
      omega

theorem holds_sibling : Holds h t (⟨d, x, s⟩ :: fs) ↔ Holds h s (⟨d.other, x, t⟩ :: fs) := by
  rw [holds_child, holds_child]
  exact iff_of_eq (congrArg (Holds h · fs) (branch_other d x s t).symm)

theorem holds_plug {gs : List (Frame β)} : Holds h t (gs ++ fs) ↔ Holds h (plug t gs) fs := by
  induction gs generalizing t with
  | nil => exact Iff.rfl
  | cons f gs ih => exact holds_child.trans ih

theorem HoldsAt.length_le (hh : HoldsAt h q t fs) : t.numNodes + fs.length ≤ h.next := by
  have hlen : ∀ fs : List (Frame β), fs.length ≤ nodesOnPath fs := by
    intro fs
    induction fs with
    | nil => rfl
    | cons f fs ih =>
      rw [List.length_cons, nodesOnPath_cons]
      omega
  have := hh.size
  have := hlen fs
  omega

/-! ## Cells -/

theorem HoldsAt.cell (hh : HoldsAt h q (.node x l r) fs) : h.cells x.1 = some ⟨up fs, ptr l, ptr r, x.2⟩ := hh.rep.1

theorem HoldsAt.cell_of_branch (hh : HoldsAt h q (branch d x s t) fs) :
    h.cells x.1 = some (.along d (up fs) (ptr s) (ptr t) x.2) := (rep_branch.1 hh.rep).1

theorem HoldsAt.cell_of_parent (hh : HoldsAt h q t (f :: fs)) :
    h.cells f.node.1 = some (.along f.side (up fs) q (ptr f.sibling) f.node.2) := hh.path.1

theorem HoldsAt.ptr_sibling_ne {a : Nat} (hh : HoldsAt h q t (f :: fs)) (ha : 0 < occ a t) :
    ptr f.sibling ≠ some a := by
  intro hp
  have hone := hh.once a
  have hpos := occ_of_ptr hp
  rw [occPath_cons] at hone
  omega

/-! ## Changes -/

theorem HoldsAt.setData (hh : HoldsAt h q (branch d x s t) fs) (data : β) :
    HoldsAt (h.set x.1 (some (.along d (up fs) (ptr s) (ptr t) data))) q (branch d (x.1, data) s t) fs := by
  have hone := hh.once x.1
  simp only [occ_branch, if_true] at hone
  obtain ⟨-, hs, ht⟩ := rep_branch.1 hh.rep
  refine hh.reshape (rep_branch.2 ⟨h.set_cells_self _ _, hs.congr fun a ha => ?_, ht.congr fun a ha => ?_⟩)
    (hh.path.congr (fun a ha => ?_) rfl) rfl (fun a => by simp) (by simp)
  all_goals
    refine h.set_cells_of_ne _ _ ?_
    rintro rfl
    omega

theorem Holds.setData (hh : Holds h (branch d x s t) fs) (data : β) :
    Holds (h.set x.1 (some (.along d (up fs) (ptr s) (ptr t) data))) (branch d (x.1, data) s t) fs := by
  have hset := HoldsAt.setData hh data
  unfold Holds
  rw [ptr_branch] at hset ⊢
  exact hset

/-- The data of a child, while nothing points to its parent yet. -/
theorem HoldsAt.setDataChild {d' : Side} (hh : HoldsAt h q (branch d x s (branch d' y t u)) fs) (data : β) :
    HoldsAt (h.set y.1 (some (.along d' (some x.1) (ptr t) (ptr u) data))) q
      (branch d x s (branch d' (y.1, data) t u)) fs := by
  have hone := hh.once y.1
  simp only [occ_branch, if_true] at hone
  obtain ⟨hx, hs, hy⟩ := rep_branch.1 hh.rep
  obtain ⟨-, ht, hu⟩ := rep_branch.1 hy
  refine hh.reshape (rep_branch.2 ⟨?_, hs.congr fun a ha => ?_, rep_branch.2 ⟨h.set_cells_self _ _,
    ht.congr fun a ha => ?_, hu.congr fun a ha => ?_⟩⟩) (hh.path.congr (fun a ha => ?_) rfl) rfl (fun a => by simp)
    (by simp)
  · rw [ptr_branch] at hx ⊢
    rw [h.set_cells_of_ne]
    · exact hx
    · grind
  all_goals
    refine h.set_cells_of_ne _ _ ?_
    rintro rfl
    omega

/-- The node comes up over its parent, to which the subtree on the other side passes. What points to the parent is left
to be changed. -/
theorem HoldsAt.swing (hh : HoldsAt h q (branch d x s t) (⟨d, y, u⟩ :: fs))
    (hx : h'.cells x.1 = some (.along d (up fs) (ptr s) (some y.1) x.2))
    (hy : h'.cells y.1 = some (.along d (some x.1) (ptr t) (ptr u) y.2)) (ht : Rep h' (some y.1) t)
    (hsame : ∀ a, a ≠ x.1 → a ≠ y.1 → occ a t = 0 → h'.cells a = h.cells a) (hroot : h'.root = h.root)
    (hnext : h'.next = h.next) : HoldsAt h' (some y.1) (branch d x s (branch d y t u)) fs := by
  have hxs := hh.once x.1
  have hys := hh.once y.1
  simp only [occ_branch, occPath_cons, if_true] at hxs hys
  have hkeep : ∀ a, 0 < occ a s + occ a u + occPath a fs → h'.cells a = h.cells a := by
    intro a ha
    have honce := hh.once a
    simp only [occ_branch, occPath_cons] at honce
    refine hsame a ?_ ?_ ?_
    · rintro rfl
      omega
    · rintro rfl
      omega
    · omega
  obtain ⟨-, hs, -⟩ := rep_branch.1 hh.rep
  have hs' : Rep h' (some x.1) s := hs.congr fun a ha => hkeep a (by omega)
  have hu : Rep h' (some y.1) u := hh.path.2.1.congr fun a ha => hkeep a (by have : 0 < occ a u := ha; omega)
  refine hh.reshape (rep_branch.2 ⟨?_, hs', rep_branch.2 ⟨hy, ht, hu⟩⟩)
    (hh.path.2.2.congr (fun a ha => hkeep a (by omega)) hroot) hnext (fun a => ?_) ?_
  · rw [ptr_branch]
    exact hx
  · simp only [occ_branch, occPath_cons]
    omega
  · simp only [numNodes_branch, nodesOnPath_cons]
    omega

theorem readSlot_runs (hh : HoldsAt h q t fs) : Runs (readSlot (slotOf fs)) h fun q' h' => q' = q ∧ h' = h := by
  match fs with
  | [] => exact ⟨_, _, rfl, hh.path, rfl⟩
  | ⟨.left, x, s⟩ :: fs => exact load_bind hh.cell_of_parent (Runs.pure ⟨rfl, rfl⟩)
  | ⟨.right, x, s⟩ :: fs => exact load_bind hh.cell_of_parent (Runs.pure ⟨rfl, rfl⟩)

theorem readSlot_bind {g : Ptr → HeapM β γ} {Q : γ → Heap β → Prop} (hh : HoldsAt h q t fs) (hg : Runs (g q) h Q) :
    Runs (readSlot (slotOf fs) >>= g) h Q := by
  refine (readSlot_runs hh).bind ?_
  rintro _ _ ⟨rfl, rfl⟩
  exact hg

theorem writeSlot_runs (q' : Ptr) (hh : HoldsAt h q t fs) :
    Runs (writeSlot q' (slotOf fs)) h fun _ h' => HoldsAt h' q' t fs := by
  match fs with
  | [] => exact ⟨(), _, rfl, hh.reshape (hh.rep.congr fun _ _ => rfl) rfl rfl (fun a => le_rfl) le_rfl⟩
  | f :: fs =>
    have hone := hh.once f.node.1
    simp only [occPath_cons, if_true] at hone
    have hwrite : HoldsAt (h.set f.node.1 (some (.along f.side (up fs) q' (ptr f.sibling) f.node.2))) q' t (f :: fs) := by
      refine hh.reshape (hh.rep.congr fun a ha => ?_) ⟨h.set_cells_self _ _, hh.path.2.1.congr fun a ha => ?_,
        hh.path.2.2.congr (fun a ha => ?_) rfl⟩ rfl (fun a => le_rfl) le_rfl
      all_goals
        refine h.set_cells_of_ne _ _ ?_
        rintro rfl
        omega
    match f with
    | ⟨.left, x, s⟩ => exact update_runs hh.cell_of_parent hwrite
    | ⟨.right, x, s⟩ => exact update_runs hh.cell_of_parent hwrite

/-- The parent of a subtree is changed in its root, if it has one. -/
theorem setParent_runs (p' : Ptr) (hr : Rep h p t) (honce : ∀ a, occ a t ≤ 1) :
    Runs (updateAt (ptr t) fun c => { c with parent := p' }) h fun _ h' => Rep h' p' t ∧
      (∀ a, occ a t = 0 → h'.cells a = h.cells a) ∧ h'.root = h.root ∧ h'.next = h.next := by
  cases t with
  | nil => exact Runs.pure ⟨trivial, fun _ _ => rfl, rfl, rfl⟩
  | node x l r =>
    have hone := honce x.1
    simp only [occ_node, if_true] at hone
    have hother : ∀ a c, a ≠ x.1 → (h.set x.1 c).cells a = h.cells a := fun a c ha => h.set_cells_of_ne _ _ ha
    refine update_runs hr.1 ⟨⟨h.set_cells_self _ _, hr.2.1.congr fun a ha => hother a _ ?_,
      hr.2.2.congr fun a ha => hother a _ ?_⟩, fun a ha => hother a _ ?_, rfl, rfl⟩
    · rintro rfl
      omega
    · rintro rfl
      omega
    · rintro rfl
      simp at ha

theorem new_runs (data : β) (hh : HoldsAt h none .nil fs) : Runs (new ⟨up fs, none, none, data⟩) h
    fun a h' => HoldsAt h' none (.node (a, data) .nil .nil) fs := by
  have hunused : ∀ a, 0 < occPath a fs → a ≠ h.next := by
    rintro a ha rfl
    exact lt_irrefl _ (hh.fresh _ (by simpa using ha))
  refine ⟨h.next, _, rfl, ⟨h.set_cells_self _ _, trivial, trivial⟩,
    hh.path.congr (fun a ha => h.set_cells_of_ne _ _ (hunused a ha)) rfl, fun a => ?_, fun a ha => ?_, ?_⟩
  · have honce := hh.once a
    have := hunused a
    simp only [occ_node, occ_nil] at honce ⊢
    split_ifs with hne
    · subst hne
      omega
    · omega
  · have hfresh := hh.fresh a
    simp only [occ_node, occ_nil] at hfresh ha ⊢
    split_ifs at ha with hne
    · grind
    · exact (hfresh (by omega)).trans (Nat.lt_succ_self _)
  · have := hh.size
    simp only [BinaryTree.numNodes] at this ⊢
    omega

/-- A node that has one subtree at most is taken out: its place, and the parent of the subtree, are changed. -/
theorem HoldsAt.splice (hh : HoldsAt h q (branch d x s .nil) fs) (hrep : Rep h' (up fs) s)
    (hsame : ∀ a, occ a s = 0 → h'.cells a = h.cells a) (hroot : h'.root = h.root) (hnext : h'.next = h.next) :
    HoldsAt h' q s fs ∧ occ x.1 s + occPath x.1 fs = 0 := by
  have hone := hh.once x.1
  simp only [occ_branch, if_true, occ_nil] at hone
  refine ⟨hh.reshape hrep (hh.path.congr (fun a ha => hsame a ?_) hroot) hnext (fun a => ?_) ?_, by omega⟩
  · have honce := hh.once a
    rw [occ_branch] at honce
    omega
  · rw [occ_branch]
    omega
  · rw [numNodes_branch]
    omega

theorem free_runs {a : Nat} (hh : HoldsAt h q t fs) (ha : occ a t + occPath a fs = 0) :
    Runs (free a) h fun _ h' => HoldsAt h' q t fs := by
  refine ⟨(), _, rfl, hh.reshape (hh.rep.congr fun b hb => ?_) (hh.path.congr (fun b hb => ?_) rfl) rfl
    (fun a => le_rfl) le_rfl⟩
  all_goals
    refine h.set_cells_of_ne _ _ ?_
    rintro rfl
    omega

end Rep

end S2E.Lib.ParentTree
