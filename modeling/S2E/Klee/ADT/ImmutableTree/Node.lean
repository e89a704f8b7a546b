import S2E.Klee.ADT.ImmutableTree.Balance
import S2E.Lib.RefCount

/-!
# `ImmutableTree::Node`

The nodes in memory: shared between the versions of a tree, with the height stored in each and a count of the references
to it. Every operation leaves the trees that are held as they are and returns a reference of its own.

* `Node.balance`, `Node.insert`, … : the member functions, as they read the heap and count references;
* `plain`, `Exact` : the tree at a pointer, and that the stored heights are its heights;
* `Result R q` : a reference to the tree `q`, beside the trees `R` that were held before;
* `balance_runs`, `insert_runs`, … : the operations are those on trees.
-/

namespace S2E.Klee.ImmutableTree

open Lib Lib.RefCount Multiset

structure NodeData (α : Type) where
  value : α
  height : Nat

abbrev NodeM (α : Type) := HeapM (NodeData α)

variable {α κ : Type} [Inhabited α]

namespace Node

/-- The fields of a node. The terminator points to itself and has a default value. -/
def fields : Ptr → NodeM α (Cell (NodeData α))
  | none => return ⟨none, none, ⟨default, 0⟩, (← get).sentinel⟩
  | some a => load a

/-- `new Node(left, right, value)` -/
def newNode (left right : Ptr) (value : α) : NodeM α Ptr := do
  let l ← fields left
  let r ← fields right
  new left right ⟨value, max l.data.height r.data.height + 1⟩

/-- `decref`. As many calls are nested as the tree is high. -/
def release (p : Ptr) : NodeM α Unit := do
  let n ← fields p
  decref (n.data.height + 1) p

def balance (left : Ptr) (value : α) (right : Ptr) : NodeM α Ptr := do
  let l ← fields left
  let r ← fields right
  if r.data.height + 2 < l.data.height then do
    let ll ← fields l.left
    let lr ← fields l.right
    if lr.data.height ≤ ll.data.height then do
      let nlr ← newNode (← incref l.right) right value
      let res ← newNode (← incref l.left) nlr l.data.value
      release left
      return res
    else do
      let nll ← newNode (← incref l.left) (← incref lr.left) l.data.value
      let nlr ← newNode (← incref lr.right) right value
      let res ← newNode nll nlr lr.data.value
      release left
      return res
  else if l.data.height + 2 < r.data.height then do
    let rl ← fields r.left
    let rr ← fields r.right
    if rl.data.height ≤ rr.data.height then do
      let nrl ← newNode left (← incref r.left) value
      let res ← newNode nrl (← incref r.right) r.data.value
      release right
      return res
    else do
      let nrl ← newNode left (← incref rl.left) value
      let nrr ← newNode (← incref rl.right) (← incref r.right) r.data.value
      let res ← newNode nrl nrr rl.data.value
      release right
      return res
  else newNode left right value

def popMin : Nat → Ptr → NodeM α (α × Ptr)
  | 0, _ => throw .outOfFuel
  | fuel + 1, p => do
    let n ← fields p
    if n.left = none then do
      let r ← incref n.right
      return (n.data.value, r)
    else do
      let l ← popMin fuel n.left
      let res ← balance l.2 n.data.value (← incref n.right)
      return (l.1, res)

def popMax : Nat → Ptr → NodeM α (α × Ptr)
  | 0, _ => throw .outOfFuel
  | fuel + 1, p => do
    let n ← fields p
    if n.right = none then do
      let l ← incref n.left
      return (n.data.value, l)
    else do
      let l ← incref n.left
      let r ← popMax fuel n.right
      let res ← balance l n.data.value r.2
      return (r.1, res)

section

variable [LinearOrder κ] (key : α → κ)

def insert (v : α) : Nat → Ptr → NodeM α Ptr
  | 0, _ => throw .outOfFuel
  | _ + 1, none => do
    newNode (← incref none) (← incref none) v
  | fuel + 1, some a => do
    let n ← fields (some a)
    if key v < key n.data.value then do
      balance (← insert v fuel n.left) n.data.value (← incref n.right)
    else if key n.data.value < key v then do
      balance (← incref n.left) n.data.value (← insert v fuel n.right)
    else incref (some a)

def replace (v : α) : Nat → Ptr → NodeM α Ptr
  | 0, _ => throw .outOfFuel
  | _ + 1, none => do
    newNode (← incref none) (← incref none) v
  | fuel + 1, some a => do
    let n ← fields (some a)
    if key v < key n.data.value then do
      balance (← replace v fuel n.left) n.data.value (← incref n.right)
    else if key n.data.value < key v then do
      balance (← incref n.left) n.data.value (← replace v fuel n.right)
    else do
      newNode (← incref n.left) (← incref n.right) v

def remove (k : κ) : Nat → Ptr → NodeM α Ptr
  | 0, _ => throw .outOfFuel
  | _ + 1, none => incref none
  | fuel + 1, some a => do
    let n ← fields (some a)
    if k < key n.data.value then do
      balance (← remove k fuel n.left) n.data.value (← incref n.right)
    else if key n.data.value < k then do
      balance (← incref n.left) n.data.value (← remove k fuel n.right)
    else if n.left = none then incref n.right
    else if n.right = none then incref n.left
    else do
      let nr ← popMin fuel n.right
      balance (← incref n.left) nr.1 nr.2

/-- The loop of `lookup`. -/
def lookup (k : κ) : Nat → Ptr → NodeM α (Option α)
  | 0, _ => throw .outOfFuel
  | _ + 1, none => return none
  | fuel + 1, some a => do
    let n ← fields (some a)
    if k < key n.data.value then lookup k fuel n.left
    else if key n.data.value < k then lookup k fuel n.right
    else return some n.data.value

/-- The loop of `lookup_previous`. -/
def lookupPrevious (k : κ) : Nat → Option α → Ptr → NodeM α (Option α)
  | 0, _, _ => throw .outOfFuel
  | _ + 1, result, none => return result
  | fuel + 1, result, some a => do
    let n ← fields (some a)
    if k < key n.data.value then lookupPrevious k fuel result n.left
    else if key n.data.value < k then lookupPrevious k fuel (some n.data.value) n.right
    else return some n.data.value

end

/-- The loop of `min`. -/
def min : Nat → Ptr → NodeM α α
  | 0, _ => throw .outOfFuel
  | fuel + 1, p => do
    let n ← fields p
    if n.left = none then return n.data.value
    else min fuel n.left

end Node

/-! ## The tree at a pointer -/

def plain : Shape (NodeData α) → ImmutableTree α
  | .nil => .terminator
  | .node (_, d) l r => .node (plain l) d.value (plain r)

/-- The value and the height that are read there. -/
def dataOf : Shape (NodeData α) → NodeData α
  | .nil => ⟨default, 0⟩
  | .node (_, d) _ _ => d

def Exact : Shape (NodeData α) → Prop
  | .nil => True
  | .node (_, d) l r => d.height = max (plain l).height (plain r).height + 1 ∧ Exact l ∧ Exact r

def Result (R : Multiset (Shape (NodeData α))) (q : ImmutableTree α) (p : Ptr) (h : RefCount.Heap (NodeData α)) : Prop :=
  ∃ t, p = ptr t ∧ Owns h (t ::ₘ R) ∧ Exact t ∧ plain t = q

variable {γ : Type} {m : NodeM α Ptr} {q : ImmutableTree α} {Q : γ → RefCount.Heap (NodeData α) → Prop}

section

variable {h : RefCount.Heap (NodeData α)} {R : Multiset (Shape (NodeData α))} {t l r : Shape (NodeData α)} {fuel : Nat}

section

omit [Inhabited α]

theorem height_plain : ∀ t : Shape (NodeData α), (plain t).height = t.height
  | .nil => rfl
  | .node (_, d) l r => by
    rw [plain, height_node, height_plain l, height_plain r]
    rfl

theorem Exact.left (ht : Exact t) : Exact t.left := by
  cases t with
  | nil => trivial
  | node x l r => exact ht.2.1

theorem Exact.right (ht : Exact t) : Exact t.right := by
  cases t with
  | nil => trivial
  | node x l r => exact ht.2.2

end

theorem Exact.height (ht : Exact t) : (dataOf t).height = (plain t).height := by
  cases t with
  | nil => rfl
  | node x l r => exact ht.1

theorem fields_bind {f : Cell (NodeData α) → NodeM α γ} (ht : Rep h t)
    (hf : ∀ n, Runs (f ⟨ptr t.left, ptr t.right, dataOf t, n⟩) h Q) : Runs (Node.fields (ptr t) >>= f) h Q := by
  cases t with
  | nil => exact hf h.sentinel
  | node x l r =>
    obtain ⟨⟨n, hc⟩, -⟩ := ht
    refine Runs.bind (load_runs hc) ?_
    rintro _ _ ⟨rfl, rfl⟩
    exact hf n

theorem fields_node_bind {f : Cell (NodeData α) → NodeM α γ}
    {x : Nat × NodeData α} (ht : Rep h (.node x l r)) (hf : ∀ n, Runs (f ⟨ptr l, ptr r, x.2, n⟩) h Q) :
    Runs (Node.fields (some x.1) >>= f) h Q := fields_bind ht hf

omit [Inhabited α] in
theorem incref_result (ho : Owns h R) (ht : Borrowed R t) (hex : Exact t) :
    Runs (incref (ptr t)) h (Result R (plain t)) := by
  refine (incref_runs ho ht).mono ?_
  rintro _ h' ⟨rfl, ho'⟩
  exact ⟨t, rfl, ho', hex, rfl⟩

theorem newNode_runs (v : α) (ho : Owns h (l ::ₘ r ::ₘ R)) (hl : Exact l) (hr : Exact r) :
    Runs (Node.newNode (ptr l) (ptr r) v) h (Result R (node (plain l) v (plain r))) := by
  refine fields_bind (ho.rep l (by simp)) fun n => ?_
  refine fields_bind (ho.rep r (by simp)) fun m => ?_
  refine (new_runs ho _).mono ?_
  rintro _ h' ⟨a, rfl, ho'⟩
  refine ⟨.node (a, _) l r, rfl, ho', ⟨?_, hl, hr⟩, rfl⟩
  rw [hl.height, hr.height]

omit [Inhabited α] in
theorem Result.bind {f : Ptr → NodeM α γ} (hm : Runs m h (Result R q))
    (hf : ∀ t h', Owns h' (t ::ₘ R) → Exact t → plain t = q → Runs (f (ptr t)) h' Q) : Runs (m >>= f) h Q := by
  refine Runs.bind hm ?_
  rintro _ h' ⟨t, rfl, ho, ht, hplain⟩
  exact hf t h' ho ht hplain

theorem release_runs (ho : Owns h (t ::ₘ R)) (ht : Exact t) : Runs (Node.release (ptr t)) h fun _ h' => Owns h' R := by
  refine fields_bind (ho.rep t (by simp)) fun n => decref_runs _ ho ?_
  rw [ht.height, height_plain]
  exact Nat.lt_succ_self _

/-- The old subtree is released after the new one is built. -/
theorem release_return_runs {s : Shape (NodeData α)} (ho : Owns h (s ::ₘ t ::ₘ R)) (hs : Exact s)
    (ht : Exact t) (hq : plain s = q) : Runs (do Node.release (ptr t); return ptr s) h (Result R q) := by
  rw [cons_swap] at ho
  refine Runs.bind (release_runs ho ht) fun _ h' ho' => ?_
  exact Runs.pure ⟨s, rfl, ho', hs, hq⟩

/-! ## `balance` -/

/-- `balance` takes over the references to its two subtrees. -/
theorem balance_runs (v : α) (ho : Owns h (l ::ₘ r ::ₘ R)) (hl : Exact l) (hr : Exact r) :
    Runs (Node.balance (ptr l) v (ptr r)) h (Result R (balance (plain l) v (plain r))) := by
  refine fields_bind (ho.rep l (by simp)) fun n => ?_
  refine fields_bind (ho.rep r (by simp)) fun m => ?_
  unfold balance
  simp only [hl.height, hr.height]
  by_cases hleft : (plain r).height + 2 < (plain l).height
  · rw [if_pos hleft, if_pos hleft]
    cases l with
    | nil => simp [plain] at hleft
    | node x ll lr =>
      obtain ⟨a, d⟩ := x
      obtain ⟨-, hll, hlr⟩ := id hl
      rw [cons_swap] at ho
      have hbl : ∀ {S}, .node (a, d) ll lr ∈ S → Borrowed S (.node (a, d) ll lr : Shape (NodeData α)) := Borrowed.of_mem
      refine fields_bind (ho.borrowed (hbl (by simp)).left) fun n => ?_
      refine fields_bind (ho.borrowed (hbl (by simp)).right) fun m => ?_
      simp only [BinaryTree.left, BinaryTree.right, hll.height, hlr.height, plain]
      by_cases hside : (plain lr).height ≤ (plain ll).height
      · rw [if_pos hside, if_pos hside]
        refine incref_bind ho (hbl (by simp)).right fun h₁ ho₁ => ?_
        refine Result.bind (newNode_runs v ho₁ hlr hr) fun nlr h₂ ho₂ hnlr heq => ?_
        refine incref_bind ho₂ (hbl (by simp)).left fun h₃ ho₃ => ?_
        refine Result.bind (newNode_runs d.value ho₃ hll hnlr) fun res h₄ ho₄ hres heq' => ?_
        exact release_return_runs ho₄ hres hl (heq ▸ heq')
      · rw [if_neg hside, if_neg hside]
        cases lr with
        | nil => simp [plain] at hside
        | node y lrl lrr =>
          obtain ⟨b, e⟩ := y
          obtain ⟨-, hlrl, hlrr⟩ := id hlr
          refine incref_bind ho (hbl (by simp)).left fun h₁ ho₁ => ?_
          refine incref_bind ho₁ (hbl (by simp)).right.left fun h₂ ho₂ => ?_
          rw [cons_swap] at ho₂
          refine Result.bind (newNode_runs d.value ho₂ hll hlrl) fun nll h₃ ho₃ hnll heq => ?_
          refine incref_bind ho₃ (hbl (by simp)).right.right fun h₄ ho₄ => ?_
          rw [cons_swap nll r] at ho₄
          refine Result.bind (newNode_runs v ho₄ hlrr hr) fun nlr h₅ ho₅ hnlr heq' => ?_
          rw [cons_swap] at ho₅
          refine Result.bind (newNode_runs e.value ho₅ hnll hnlr) fun res h₆ ho₆ hres heq'' => ?_
          refine release_return_runs ho₆ hres hl ?_
          rw [heq'', heq, heq']
          rfl
  · rw [if_neg hleft, if_neg hleft]
    by_cases hright : (plain l).height + 2 < (plain r).height
    · rw [if_pos hright, if_pos hright]
      cases r with
      | nil => simp [plain] at hright
      | node x rl rr =>
        obtain ⟨a, d⟩ := x
        obtain ⟨-, hrl, hrr⟩ := id hr
        have hbr : ∀ {S}, .node (a, d) rl rr ∈ S → Borrowed S (.node (a, d) rl rr : Shape (NodeData α)) :=
          Borrowed.of_mem
        refine fields_bind (ho.borrowed (hbr (by simp)).left) fun n => ?_
        refine fields_bind (ho.borrowed (hbr (by simp)).right) fun m => ?_
        simp only [BinaryTree.left, BinaryTree.right, hrl.height, hrr.height, plain]
        by_cases hside : (plain rl).height ≤ (plain rr).height
        · rw [if_pos hside, if_pos hside]
          refine incref_bind ho (hbr (by simp)).left fun h₁ ho₁ => ?_
          rw [cons_swap] at ho₁
          refine Result.bind (newNode_runs v ho₁ hl hrl) fun nrl h₂ ho₂ hnrl heq => ?_
          refine incref_bind ho₂ (hbr (by simp)).right fun h₃ ho₃ => ?_
          rw [cons_swap] at ho₃
          refine Result.bind (newNode_runs d.value ho₃ hnrl hrr) fun res h₄ ho₄ hres heq' => ?_
          exact release_return_runs ho₄ hres hr (heq ▸ heq')
        · rw [if_neg hside, if_neg hside]
          cases rl with
          | nil => simp [plain] at hside
          | node y rll rlr =>
            obtain ⟨b, e⟩ := y
            obtain ⟨-, hrll, hrlr⟩ := id hrl
            refine incref_bind ho (hbr (by simp)).left.left fun h₁ ho₁ => ?_
            rw [cons_swap] at ho₁
            refine Result.bind (newNode_runs v ho₁ hl hrll) fun nrl h₂ ho₂ hnrl heq => ?_
            refine incref_bind ho₂ (hbr (by simp)).left.right fun h₃ ho₃ => ?_
            refine incref_bind ho₃ (hbr (by simp)).right fun h₄ ho₄ => ?_
            rw [cons_swap] at ho₄
            refine Result.bind (newNode_runs d.value ho₄ hrlr hrr) fun nrr h₅ ho₅ hnrr heq' => ?_
            rw [cons_swap] at ho₅
            refine Result.bind (newNode_runs e.value ho₅ hnrl hnrr) fun res h₆ ho₆ hres heq'' => ?_
            refine release_return_runs ho₆ hres hr ?_
            rw [heq'', heq, heq']
            rfl
    · rw [if_neg hright, if_neg hright]
      exact newNode_runs v ho hl hr

/-! ## The operations -/

/-- `balance` of a subtree that is new and one that is shared. -/
theorem balance_runs_of_left {v : α} (hm : Runs m h (Result R q)) (ht : Borrowed R t) (hex : Exact t) :
    Runs (do Node.balance (← m) v (← incref (ptr t))) h (Result R (balance q v (plain t))) := by
  refine Result.bind hm fun s h' ho hs heq => ?_
  refine incref_bind ho ht.cons fun h₁ ho₁ => ?_
  rw [cons_swap] at ho₁
  exact heq ▸ balance_runs v ho₁ hs hex

theorem balance_runs_of_right {v : α} (ho : Owns h R) (ht : Borrowed R t)
    (hex : Exact t) (hm : ∀ h', Owns h' (t ::ₘ R) → Runs m h' (Result (t ::ₘ R) q)) :
    Runs (do Node.balance (← incref (ptr t)) v (← m)) h (Result R (balance (plain t) v q)) := by
  refine incref_bind ho ht fun h' ho' => ?_
  refine Result.bind (hm h' ho') fun s h₁ ho₁ hs heq => ?_
  rw [cons_swap] at ho₁
  exact heq ▸ balance_runs v ho₁ hex hs

theorem newLeaf_runs (v : α) (ho : Owns h R) :
    Runs (do Node.newNode (← incref none) (← incref none) v) h (Result R (node terminator v terminator)) := by
  refine incref_bind (t := .nil) ho .nil fun h₁ ho₁ => ?_
  refine incref_bind (t := .nil) ho₁ .nil fun h₂ ho₂ => ?_
  exact newNode_runs (l := .nil) (r := .nil) v ho₂ trivial trivial

section Keys

variable [LinearOrder κ] (key : α → κ)

section Operations

variable (ho : Owns h R) (ht : Borrowed R t) (hex : Exact t) (hfuel : t.height < fuel)

include ho ht hex hfuel

theorem popMin_runs : Runs (Node.popMin fuel (ptr t)) h fun r h' =>
      r.1 = (popMinRoot (plain t)).1 ∧ Result R (popMinRoot (plain t)).2 r.2 h' := by
  induction fuel generalizing h R t with
  | zero => omega
  | succ fuel ih =>
    refine fields_bind (ho.borrowed ht) fun n => ?_
    cases t with
    | nil =>
      refine incref_bind ho .nil fun h' ho' => ?_
      exact Runs.pure ⟨rfl, .nil, rfl, ho', trivial, rfl⟩
    | node x l r =>
      rw [BinaryTree.height] at hfuel
      have hl : l.height < fuel := by omega
      cases l with
      | nil =>
        refine incref_bind ho ht.right fun h' ho' => ?_
        exact Runs.pure ⟨rfl, r, rfl, ho', hex.right, rfl⟩
      | node y ll lr =>
        refine Runs.bind (ih ho ht.left hex.left hl) ?_
        rintro ⟨v, p⟩ h₁ ⟨rfl, s, rfl, ho₁, hs, heq⟩
        refine incref_bind ho₁ ht.right.cons fun h₂ ho₂ => ?_
        rw [cons_swap] at ho₂
        refine Runs.bind (balance_runs x.2.value ho₂ hs hex.right) fun res h₃ hres => ?_
        rw [heq] at hres
        exact Runs.pure ⟨rfl, hres⟩

theorem popMax_runs : Runs (Node.popMax fuel (ptr t)) h fun r h' =>
      r.1 = (popMaxRoot (plain t)).1 ∧ Result R (popMaxRoot (plain t)).2 r.2 h' := by
  induction fuel generalizing h R t with
  | zero => omega
  | succ fuel ih =>
    refine fields_bind (ho.borrowed ht) fun n => ?_
    cases t with
    | nil =>
      refine incref_bind ho .nil fun h' ho' => ?_
      exact Runs.pure ⟨rfl, .nil, rfl, ho', trivial, rfl⟩
    | node x l r =>
      rw [BinaryTree.height] at hfuel
      have hr : r.height < fuel := by omega
      cases r with
      | nil =>
        refine incref_bind ho ht.left fun h' ho' => ?_
        exact Runs.pure ⟨rfl, l, rfl, ho', hex.left, rfl⟩
      | node y rl rr =>
        refine incref_bind ho ht.left fun h₁ ho₁ => ?_
        refine Runs.bind (ih ho₁ ht.right.cons hex.right hr) ?_
        rintro ⟨v, p⟩ h₂ ⟨rfl, s, rfl, ho₂, hs, heq⟩
        rw [cons_swap] at ho₂
        refine Runs.bind (balance_runs x.2.value ho₂ hex.left hs) fun res h₃ hres => ?_
        rw [heq] at hres
        exact Runs.pure ⟨rfl, hres⟩

theorem insert_runs (v : α) : Runs (Node.insert key v fuel (ptr t)) h (Result R (insert key v (plain t))) := by
  induction fuel generalizing h R t with
  | zero => omega
  | succ fuel ih =>
    cases t with
    | nil => exact newLeaf_runs v ho
    | node x l r =>
      rw [BinaryTree.height] at hfuel
      refine fields_node_bind (ho.borrowed ht) fun n => ?_
      simp only [plain, insert]
      split_ifs with hlt hgt
      · exact balance_runs_of_left (ih ho ht.left hex.left (by omega)) ht.right hex.right
      · exact balance_runs_of_right ho ht.left hex.left fun h' ho' => ih ho' ht.right.cons hex.right (by omega)
      · exact incref_result ho ht hex

theorem replace_runs (v : α) : Runs (Node.replace key v fuel (ptr t)) h (Result R (replace key v (plain t))) := by
  induction fuel generalizing h R t with
  | zero => omega
  | succ fuel ih =>
    cases t with
    | nil => exact newLeaf_runs v ho
    | node x l r =>
      rw [BinaryTree.height] at hfuel
      refine fields_node_bind (ho.borrowed ht) fun n => ?_
      simp only [plain, replace]
      split_ifs with hlt hgt
      · exact balance_runs_of_left (ih ho ht.left hex.left (by omega)) ht.right hex.right
      · exact balance_runs_of_right ho ht.left hex.left fun h' ho' => ih ho' ht.right.cons hex.right (by omega)
      · refine incref_bind ho ht.left fun h₁ ho₁ => ?_
        refine incref_bind ho₁ ht.right.cons fun h₂ ho₂ => ?_
        rw [cons_swap] at ho₂
        exact newNode_runs v ho₂ hex.left hex.right

theorem remove_runs (k : κ) : Runs (Node.remove key k fuel (ptr t)) h (Result R (remove key k (plain t))) := by
  induction fuel generalizing h R t with
  | zero => omega
  | succ fuel ih =>
    cases t with
    | nil => exact incref_result ho .nil trivial
    | node x l r =>
      rw [BinaryTree.height] at hfuel
      refine fields_node_bind (ho.borrowed ht) fun n => ?_
      simp only [plain, remove]
      split_ifs with hlt hgt hleft hright
      · exact balance_runs_of_left (ih ho ht.left hex.left (by omega)) ht.right hex.right
      · exact balance_runs_of_right ho ht.left hex.left fun h' ho' => ih ho' ht.right.cons hex.right (by omega)
      · cases l with
        | nil => exact incref_result ho ht.right hex.right
        | node y ll lr => cases hleft
      · cases l with
        | nil => exact absurd rfl hleft
        | node y ll lr =>
          cases r with
          | nil => exact incref_result ho ht.left hex.left
          | node z rl rr => cases hright
      · cases l with
        | nil => exact absurd rfl hleft
        | node y ll lr =>
          cases r with
          | nil => exact absurd rfl hright
          | node z rl rr =>
            refine Runs.bind (popMin_runs ho ht.right hex.right (by omega)) ?_
            rintro ⟨v, p⟩ h₁ ⟨rfl, s, rfl, ho₁, hs, heq⟩
            refine incref_bind ho₁ ht.left.cons fun h₂ ho₂ => ?_
            have hrun := balance_runs (popMinRoot (plain (.node z rl rr))).1 ho₂ hex.left hs
            rw [heq] at hrun
            exact hrun

end Operations

/-! ## Queries -/

theorem lookup_runs (k : κ) (ht : Rep h t) (hfuel : t.height < fuel) :
    Runs (Node.lookup key k fuel (ptr t)) h fun o h' => o = lookup key k (plain t) ∧ h' = h := by
  induction fuel generalizing t with
  | zero => omega
  | succ fuel ih =>
    cases t with
    | nil => exact Runs.pure ⟨rfl, rfl⟩
    | node x l r =>
      rw [BinaryTree.height] at hfuel
      refine fields_node_bind ht fun n => ?_
      simp only [plain, lookup]
      split_ifs with hlt hgt
      · exact ih ht.2.1 (by omega)
      · exact ih ht.2.2 (by omega)
      · exact Runs.pure ⟨rfl, rfl⟩

theorem lookupPrevious_runs (k : κ) (o : Option α) (ht : Rep h t) (hfuel : t.height < fuel) :
    Runs (Node.lookupPrevious key k fuel o (ptr t)) h fun o' h' =>
      o' = lookupPreviousFrom key k o (plain t) ∧ h' = h := by
  induction fuel generalizing o t with
  | zero => omega
  | succ fuel ih =>
    cases t with
    | nil => exact Runs.pure ⟨rfl, rfl⟩
    | node x l r =>
      rw [BinaryTree.height] at hfuel
      refine fields_node_bind ht fun n => ?_
      simp only [plain, lookupPreviousFrom]
      split_ifs with hlt hgt
      · exact ih o ht.2.1 (by omega)
      · exact ih _ ht.2.2 (by omega)
      · exact Runs.pure ⟨rfl, rfl⟩

end Keys

theorem min_runs (ht : Rep h t) (hne : t ≠ .nil) (hfuel : t.height < fuel) :
    Runs (Node.min fuel (ptr t)) h fun v h' => (plain t).toList.head? = some v ∧ h' = h := by
  induction fuel generalizing t with
  | zero => omega
  | succ fuel ih =>
    cases t with
    | nil => exact absurd rfl hne
    | node x l r =>
      rw [BinaryTree.height] at hfuel
      refine fields_node_bind ht fun n => ?_
      cases l with
      | nil => exact Runs.pure ⟨rfl, rfl⟩
      | node y ll lr =>
        refine (ih ht.2.1 (by simp) (by omega)).mono fun v h' hv => ?_
        rw [plain, toList_node, List.head?_append, hv.1]
        exact ⟨rfl, hv.2⟩

end

end S2E.Klee.ImmutableTree
