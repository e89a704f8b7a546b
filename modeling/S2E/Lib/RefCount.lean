import Mathlib.Algebra.BigOperators.Group.Finset.Basic
import Mathlib.Data.Multiset.Count
import Mathlib.Data.Tree.Basic
import S2E.Lib.Triple

/-!
# Binary trees in memory, with reference counts

Cells with two pointers that may be shared. A cell is given back when its count of references falls to zero, and with it
its references to its two children. The pointer `none` is that to a sentinel, which is never given back.

* `Rep h t` : the heap holds the tree `t`, whose nodes are labelled with their addresses;
* `Owns h R` : the references of the heap are those of the trees `R` and those of the cells to their children, no more
  and no less, so that every tree of `R` is in memory;
* `incref_runs`, `new_runs`, `decref_runs` : what the operations do to the trees that are owned. The others stay as they
  are, since they are among `R` before and after.
-/

namespace S2E.Lib.RefCount
open Function Multiset Option

/-- An address, or that of the sentinel. -/
abbrev Ptr := Option Nat

structure Cell (β : Type) where
  left : Ptr
  right : Ptr
  data : β
  references : Nat

/-- The cells, the first address that was never used, and the references to the sentinel. -/
structure Heap (β : Type) where
  cells : Nat → Option (Cell β)
  next : Nat
  sentinel : Nat

inductive Fault
  | dangling | overflow | assertFailed | outOfFuel
deriving DecidableEq

abbrev HeapM (β : Type) := StateT (Heap β) (Except Fault)

variable {α β γ : Type}

def Heap.set (h : Heap β) (a : Nat) (c : Option (Cell β)) : Heap β := { h with cells := update h.cells a c }

@[simp] theorem Heap.set_cells_self (h : Heap β) (a : Nat) (c : Option (Cell β)) : (h.set a c).cells a = c :=
  update_self ..

theorem Heap.set_cells_of_ne (h : Heap β) {a b : Nat} (hne : b ≠ a) (c : Option (Cell β)) :
    (h.set a c).cells b = h.cells b := update_of_ne hne ..

def load (a : Nat) : HeapM β (Cell β) := do
  match (← get).cells a with
  | some c => return c
  | none => throw .dangling

def incref : Ptr → HeapM β Ptr
  | none => do
    modify fun h => { h with sentinel := h.sentinel + 1 }
    return none
  | some a => do
    let c ← load a
    modify fun h => h.set a (some { c with references := c.references + 1 })
    return some a

/-- The children are released after the cell, which they do not point to. -/
def decref : Nat → Ptr → HeapM β Unit
  | 0, _ => throw .outOfFuel
  | _ + 1, none => do
    if (← get).sentinel ≤ 1 then throw .dangling
    modify fun h => { h with sentinel := h.sentinel - 1 }
  | fuel + 1, some a => do
    let c ← load a
    if c.references ≤ 1 then do
      modify fun h => h.set a none
      decref fuel c.left
      decref fuel c.right
    else modify fun h => h.set a (some { c with references := c.references - 1 })

/-- A new cell takes over the references to its children. -/
def new (left right : Ptr) (data : β) : HeapM β Ptr := do
  let h ← get
  set { h.set h.next (some ⟨left, right, data, 1⟩) with next := h.next + 1 }
  return some h.next

theorem load_runs {h : Heap β} {a : Nat} {c : Cell β} (hc : h.cells a = some c) : Runs (load a) h fun c' h' => c' = c ∧ h' = h := by
  refine ⟨c, h, ?_, rfl, rfl⟩
  simp [load, hc]
  rfl

/-! ## Trees in memory -/

/-- A tree with the addresses of its nodes. -/
abbrev Shape (β : Type) := BinaryTree (Nat × β)

def ptr : Shape β → Ptr
  | .nil => none
  | .node (a, _) _ _ => some a

def Rep (h : Heap β) : Shape β → Prop
  | .nil => True
  | .node (a, d) l r => (∃ n, h.cells a = some ⟨ptr l, ptr r, d, n⟩) ∧ Rep h l ∧ Rep h r

def Mentions (a : Nat) : Shape β → Prop
  | .nil => False
  | .node (b, _) l r => b = a ∨ Mentions a l ∨ Mentions a r

section Rep

variable {h h' : Heap β} {s t : Shape β} {a : Nat}

theorem Rep.unique : ∀ {s t : Shape β}, Rep h s → Rep h t → ptr s = ptr t → s = t
  | .nil, .nil, _, _, _ => rfl
  | .nil, .node _ _ _, _, _, he => nomatch he
  | .node _ _ _, .nil, _, _, he => nomatch he
  | .node (a, d) l r, .node (b, e) l' r', hs, ht, he => by
    obtain rfl : a = b := some.inj he
    obtain ⟨⟨n, hcell⟩, hl, hr⟩ := hs
    obtain ⟨⟨m, hcell'⟩, hl', hr'⟩ := ht
    rw [hcell] at hcell'
    injection hcell' with heq
    injection heq with hleft hright hdata _
    rw [hl.unique hl' hleft, hr.unique hr' hright, hdata]

/-- The same tree in a heap with the same cells, up to their counts. -/
theorem Rep.congr : ∀ {t : Shape β}, Rep h t →
    (∀ a, Mentions a t → ∀ l r d n, h.cells a = some ⟨l, r, d, n⟩ → ∃ m, h'.cells a = some ⟨l, r, d, m⟩) → Rep h' t
  | .nil, _, _ => trivial
  | .node (a, d) l r, ht, hc => by
    obtain ⟨⟨n, hcell⟩, hl, hr⟩ := ht
    refine ⟨hc a (.inl rfl) _ _ _ n hcell, hl.congr fun b hb => ?_, hr.congr fun b hb => ?_⟩
    · exact hc b (.inr (.inl hb))
    · exact hc b (.inr (.inr hb))

theorem Rep.alive (ht : Rep h t) (hp : ptr t = some a) : ∃ c, h.cells a = some c := by
  cases t with
  | nil => cases hp
  | node x l r =>
    obtain ⟨b, d⟩ := x
    obtain rfl : b = a := some.inj hp
    obtain ⟨⟨n, hcell⟩, -⟩ := ht
    exact ⟨_, hcell⟩

end Rep

/-! ## References -/

/-- How often a cell points to `p`. -/
def edges (p : Ptr) : Option (Cell β) → Nat
  | none => 0
  | some c => (if p = c.left then 1 else 0) + if p = c.right then 1 else 0

def indegree (h : Heap β) (p : Ptr) : Nat := ∑ a ∈ Finset.range h.next, edges p (h.cells a)

/-- The heap is made of the trees at its cells. Each cell is referenced as often as its count says: by the trees `R` that
are held from outside and by other cells. -/
structure Owns (h : Heap β) (R : Multiset (Shape β)) : Prop where
  fresh : ∀ a c, h.cells a = some c → a < h.next
  tree : ∀ a c, h.cells a = some c → ∃ t, Rep h t ∧ ptr t = some a
  rep : ∀ t ∈ R, Rep h t
  count : ∀ a c, h.cells a = some c → c.references = (R.map ptr).count (some a) + indegree h (some a)
  pos : ∀ a c, h.cells a = some c → 0 < c.references
  sentinel : (R.map ptr).count none + indegree h none < h.sentinel

/-- The tree is in memory while the trees of `R` are. -/
def Borrowed (R : Multiset (Shape β)) (t : Shape β) : Prop := ∀ h : Heap β, (∀ s ∈ R, Rep h s) → Rep h t

section Borrowed

variable {R : Multiset (Shape β)} {s t l r : Shape β} {x : Nat × β}

theorem Borrowed.nil : Borrowed R (.nil : Shape β) := fun _ _ => trivial

theorem Borrowed.of_mem (ht : t ∈ R) : Borrowed R t := fun _ hR => hR t ht

theorem Borrowed.cons (ht : Borrowed R t) : Borrowed (s ::ₘ R) t :=
  fun h hR => ht h fun s' hs' => hR s' (mem_cons_of_mem hs')

theorem Borrowed.left (ht : Borrowed R t) : Borrowed R t.left := by
  intro h hR
  cases t with
  | nil => trivial
  | node x l r => exact (ht h hR).2.1

theorem Borrowed.right (ht : Borrowed R t) : Borrowed R t.right := by
  intro h hR
  cases t with
  | nil => trivial
  | node x l r => exact (ht h hR).2.2

theorem Owns.borrowed {h : Heap β} (ho : Owns h R) (ht : Borrowed R t) : Rep h t := ht h ho.rep

end Borrowed

section Indegree

variable {h : Heap β} {a : Nat} {c c' : Cell β} {p : Ptr}

theorem indegree_set (ha : a < h.next) (o : Option (Cell β)) :
    indegree (h.set a o) p + edges p (h.cells a) = indegree h p + edges p o := by
  unfold indegree Heap.set
  have hmem : a ∈ Finset.range h.next := Finset.mem_range.2 ha
  rw [← Finset.add_sum_erase _ _ hmem, ← Finset.add_sum_erase _ (fun b => edges p (h.cells b)) hmem]
  have hrest : ∑ b ∈ (Finset.range h.next).erase a, edges p (update h.cells a o b) =
      ∑ b ∈ (Finset.range h.next).erase a, edges p (h.cells b) := by
    refine Finset.sum_congr rfl fun b hb => ?_
    rw [update_of_ne (Finset.ne_of_mem_erase hb)]
  simp only [update_self] at hrest ⊢
  omega

/-- Only the count changed. -/
theorem indegree_set_references (ha : a < h.next) (hc : h.cells a = some c) (n : Nat) :
    indegree (h.set a (some { c with references := n })) p = indegree h p := by
  have hset := indegree_set (p := p) ha (some { c with references := n })
  rw [hc] at hset
  exact Nat.add_right_cancel hset

theorem edges_le_indegree (ha : a < h.next) : edges p (h.cells a) ≤ indegree h p :=
  Finset.single_le_sum (f := fun b => edges p (h.cells b)) (fun _ _ => Nat.zero_le _) (Finset.mem_range.2 ha)

end Indegree

section Owns

variable {h : Heap β} {R : Multiset (Shape β)} {s t l r : Shape β} {a : Nat} {d : β} {p : Ptr} {c : Cell β}

/-- A cell that a tree reaches is its root, or another cell points to it. -/
theorem Owns.indegree_pos (ho : Owns h R) : ∀ {t : Shape β}, Rep h t → Mentions a t →
    ptr t = some a ∨ 0 < indegree h (some a)
  | .nil, _, hm => hm.elim
  | .node (b, d) l r, ht, hm => by
    obtain ⟨⟨n, hcell⟩, hl, hr⟩ := ht
    have hedge : ∀ q, q = ptr l ∨ q = ptr r → 0 < indegree h q := by
      intro q hq
      refine lt_of_lt_of_le ?_ (edges_le_indegree (p := q) (ho.fresh b _ hcell))
      rw [hcell]
      rcases hq with rfl | rfl <;> simp [edges]
    rcases hm with rfl | hm | hm
    · exact .inl rfl
    · rcases ho.indegree_pos hl hm with hp | hpos
      · exact .inr (hedge _ (.inl hp.symm))
      · exact .inr hpos
    · rcases ho.indegree_pos hr hm with hp | hpos
      · exact .inr (hedge _ (.inr hp.symm))
      · exact .inr hpos

theorem count_map_cons (t : Shape β) (R : Multiset (Shape β)) (p : Ptr) :
    ((t ::ₘ R).map ptr).count p = (R.map ptr).count p + if p = ptr t then 1 else 0 := by
  rw [map_cons, count_cons]

theorem edges_some (p l r : Ptr) (d : β) (n : Nat) :
    edges p (some ⟨l, r, d, n⟩) = (if p = l then 1 else 0) + if p = r then 1 else 0 := rfl

/-- Another count in a cell, for other trees from outside that point to it. -/
theorem Owns.recount {R' : Multiset (Shape β)} {n : Nat} (ho : Owns h R) (hc : h.cells a = some c)
    (hrep : ∀ t ∈ R', Rep h t) (hother : ∀ p, p ≠ some a → (R'.map ptr).count p = (R.map ptr).count p)
    (hn : n = (R'.map ptr).count (some a) + indegree h (some a)) (hpos : 0 < n) :
    Owns (h.set a (some { c with references := n })) R' := by
  have hset : ∀ t, Rep h t → Rep (h.set a (some { c with references := n })) t := by
    intro t ht
    refine ht.congr fun b _ l r d m hb => ?_
    rcases eq_or_ne b a with rfl | hne
    · obtain rfl : c = ⟨l, r, d, m⟩ := some.inj (hc.symm.trans hb)
      exact ⟨n, h.set_cells_self ..⟩
    · exact ⟨m, (h.set_cells_of_ne hne _).trans hb⟩
  have hdeg : ∀ p, indegree (h.set a (some { c with references := n })) p = indegree h p :=
    fun p => indegree_set_references (ho.fresh a c hc) hc n
  have hcells : ∀ b c', (h.set a (some { c with references := n })).cells b = some c' →
      b = a ∧ c' = { c with references := n } ∨ b ≠ a ∧ h.cells b = some c' := by
    intro b c' hb
    rcases eq_or_ne b a with rfl | hne
    · exact .inl ⟨rfl, (some.inj ((h.set_cells_self ..).symm.trans hb)).symm⟩
    · exact .inr ⟨hne, (h.set_cells_of_ne hne _).symm.trans hb⟩
  refine ⟨?_, ?_, fun t ht => hset t (hrep t ht), ?_, ?_, ?_⟩
  · intro b c' hb
    rcases hcells b c' hb with ⟨rfl, -⟩ | ⟨-, hb⟩
    · exact ho.fresh b c hc
    · exact ho.fresh b c' hb
  · intro b c' hb
    have halive : ∃ c'', h.cells b = some c'' := by
      rcases hcells b c' hb with ⟨rfl, -⟩ | ⟨-, hb⟩
      · exact ⟨c, hc⟩
      · exact ⟨c', hb⟩
    obtain ⟨c'', hb⟩ := halive
    obtain ⟨t, ht, hp⟩ := ho.tree b c'' hb
    exact ⟨t, hset t ht, hp⟩
  · intro b c' hb
    rw [hdeg]
    rcases hcells b c' hb with ⟨rfl, rfl⟩ | ⟨hne, hb⟩
    · exact hn
    · rw [hother (some b) fun he => hne (some.inj he)]
      exact ho.count b c' hb
  · intro b c' hb
    rcases hcells b c' hb with ⟨rfl, rfl⟩ | ⟨-, hb⟩
    · exact hpos
    · exact ho.pos b c' hb
  · rw [hdeg, hother none (some_ne_none a).symm]
    exact ho.sentinel

/-- The trees do not see the count of the sentinel. -/
theorem Owns.withSentinel {R' : Multiset (Shape β)} {n : Nat} (ho : Owns h R) (hrep : ∀ t ∈ R', Rep h t)
    (hother : ∀ a, (R'.map ptr).count (some a) = (R.map ptr).count (some a))
    (hn : (R'.map ptr).count none + indegree h none < n) : Owns { h with sentinel := n } R' := by
  have hset : ∀ t, Rep h t → Rep { h with sentinel := n } t := fun t ht => ht.congr fun _ _ _ _ _ m hb => ⟨m, hb⟩
  refine ⟨ho.fresh, ?_, fun t ht => hset t (hrep t ht), ?_, ho.pos, hn⟩
  · intro a c hc
    obtain ⟨t, ht, hp⟩ := ho.tree a c hc
    exact ⟨t, hset t ht, hp⟩
  · intro a c hc
    rw [hother]
    exact ho.count a c hc

theorem incref_runs (ho : Owns h R) (ht : Borrowed R t) :
    Runs (incref (ptr t)) h fun p h' => p = ptr t ∧ Owns h' (t ::ₘ R) := by
  have hrep : ∀ s ∈ t ::ₘ R, Rep h s := by
    intro s hs
    rcases mem_cons.1 hs with rfl | hs
    · exact ho.borrowed ht
    · exact ho.rep s hs
  cases t with
  | nil =>
    refine ⟨none, _, rfl, rfl, ho.withSentinel hrep (fun a => ?_) ?_⟩
    · simp [ptr]
    · have := ho.sentinel
      rw [count_map_cons]
      simp only [ptr, if_true]
      omega
  | node x l r =>
    obtain ⟨a, d⟩ := x
    obtain ⟨⟨n, hc⟩, -⟩ := ho.borrowed ht
    refine Runs.bind (load_runs hc) ?_
    rintro _ _ ⟨rfl, rfl⟩
    refine ⟨some a, _, rfl, rfl, ho.recount hc hrep (fun p hp => ?_) ?_ (Nat.succ_pos n)⟩
    · rw [count_map_cons, ptr, if_neg hp, add_zero]
    · have hcount : n = _ := ho.count a _ hc
      rw [count_map_cons, ptr, if_pos rfl]
      show n + 1 = _
      omega

theorem incref_bind {f : Ptr → HeapM β γ} {Q : γ → Heap β → Prop} (ho : Owns h R) (ht : Borrowed R t)
    (hf : ∀ h', Owns h' (t ::ₘ R) → Runs (f (ptr t)) h' Q) : Runs (incref (ptr t) >>= f) h Q := by
  refine Runs.bind (incref_runs ho ht) ?_
  rintro _ h' ⟨rfl, ho'⟩
  exact hf h' ho'

/-- The last reference to a cell is given up: those of the cell pass to the holder. -/
theorem Owns.free (ho : Owns h (.node (a, d) l r ::ₘ R)) (hc : h.cells a = some c) (hlast : c.references ≤ 1) :
    Owns (h.set a none) (l ::ₘ r ::ₘ R) := by
  obtain ⟨⟨n, hcell⟩, hl, hr⟩ := ho.rep _ (mem_cons_self _ _)
  obtain rfl : c = ⟨ptr l, ptr r, d, n⟩ := some.inj (hc.symm.trans hcell)
  have hcount := ho.count a _ hc
  rw [count_map_cons, ptr, if_pos rfl] at hcount
  simp only at hlast hcount
  have hroots : (R.map ptr).count (some a) = 0 := by omega
  have hdeg : indegree h (some a) = 0 := by omega
  have hset : ∀ t, Rep h t → ptr t ≠ some a → Rep (h.set a none) t := by
    intro t ht hp
    refine ht.congr fun b hb l r d m hcb => ?_
    have hne : b ≠ a := by
      rintro rfl
      rcases ho.indegree_pos ht hb with hp' | hpos
      · exact hp hp'
      · omega
    exact ⟨m, (h.set_cells_of_ne hne _).trans hcb⟩
  have hchild : ∀ p, p = ptr l ∨ p = ptr r → p ≠ some a := by
    rintro p hp rfl
    have hle := edges_le_indegree (p := some a) (ho.fresh a _ hc)
    rw [hc, edges_some, hdeg] at hle
    rcases hp with hp | hp <;> simp [← hp] at hle
  have hcells : ∀ b c', (h.set a none).cells b = some c' → b ≠ a ∧ h.cells b = some c' := by
    intro b c' hb
    rcases eq_or_ne b a with rfl | hne
    · exact nomatch (h.set_cells_self ..).symm.trans hb
    · exact ⟨hne, (h.set_cells_of_ne hne _).symm.trans hb⟩
  -- the references of the cell are those of the two new trees
  have hmoved : ∀ p, p ≠ some a → ((l ::ₘ r ::ₘ R).map ptr).count p + indegree (h.set a none) p =
      ((.node (a, d) l r ::ₘ R).map ptr).count p + indegree h p := by
    intro p hp
    have hdel := indegree_set (p := p) (ho.fresh a _ hc) none
    rw [hc, edges_some] at hdel
    rw [count_map_cons, count_map_cons, count_map_cons, ptr, if_neg hp]
    simp only [edges] at hdel
    omega
  have hfresh := fun b c' hb => ho.fresh b c' (hcells b c' hb).2
  refine ⟨hfresh, ?_, ?_, ?_, fun b c' hb => ho.pos b c' (hcells b c' hb).2, ?_⟩
  · intro b c' hb
    obtain ⟨hne, hb⟩ := hcells b c' hb
    obtain ⟨t, ht, hp⟩ := ho.tree b c' hb
    exact ⟨t, hset t ht (hp ▸ fun he => hne (some.inj he)), hp⟩
  · intro t ht
    rcases mem_cons.1 ht with rfl | ht
    · exact hset _ hl (hchild _ (.inl rfl))
    rcases mem_cons.1 ht with rfl | ht
    · exact hset _ hr (hchild _ (.inr rfl))
    · refine hset t (ho.rep t (mem_cons_of_mem ht)) fun hp => ?_
      exact count_eq_zero.1 hroots (hp ▸ mem_map_of_mem ptr ht)
  · intro b c' hb
    obtain ⟨hne, hb⟩ := hcells b c' hb
    rw [hmoved (some b) fun he => hne (some.inj he)]
    exact ho.count b c' hb
  · rw [hmoved none (some_ne_none a).symm]
    exact ho.sentinel

theorem decref_runs (fuel : Nat) (ho : Owns h (t ::ₘ R)) (hfuel : t.height < fuel) :
    Runs (decref fuel (ptr t)) h fun _ h' => Owns h' R := by
  induction t generalizing fuel h R with
  | nil =>
    obtain ⟨fuel, rfl⟩ : ∃ n, fuel = n + 1 := ⟨fuel - 1, by omega⟩
    have hs := ho.sentinel
    rw [count_map_cons, ptr, if_pos rfl] at hs
    refine ⟨(), { h with sentinel := h.sentinel - 1 }, ?_, ?_⟩
    · have hlive : ¬ h.sentinel ≤ 1 := by omega
      simp [decref, ptr, hlive]
      rfl
    · refine ho.withSentinel (fun t ht => ho.rep t (mem_cons_of_mem ht)) (fun a => ?_) (by omega)
      simp [ptr]
  | node x l r ihl ihr =>
    obtain ⟨fuel, rfl⟩ : ∃ n, fuel = n + 1 := ⟨fuel - 1, by omega⟩
    obtain ⟨a, d⟩ := x
    obtain ⟨⟨n, hc⟩, -⟩ := ho.rep _ (mem_cons_self _ _)
    rw [BinaryTree.height] at hfuel
    refine Runs.bind (load_runs hc) ?_
    rintro _ _ ⟨rfl, rfl⟩
    by_cases hlast : n ≤ 1
    · rw [if_pos hlast]
      refine Runs.bind (Q := fun _ h' => Owns h' (l ::ₘ r ::ₘ R)) ⟨(), _, rfl, ho.free hc hlast⟩ fun _ h₁ h₁o => ?_
      refine Runs.bind (ihl fuel h₁o (by omega)) fun _ h₂ h₂o => ?_
      exact ihr fuel h₂o (by omega)
    · rw [if_neg hlast]
      have hcount := ho.count a _ hc
      rw [count_map_cons, ptr, if_pos rfl] at hcount
      simp only at hcount
      refine ⟨(), _, rfl, ho.recount hc (fun t ht => ho.rep t (mem_cons_of_mem ht)) (fun p hp => ?_) ?_ ?_⟩
      · rw [count_map_cons, ptr, if_neg hp, add_zero]
      · simp only
        omega
      · simp only
        omega

/-- No cell points to an address that was never used. -/
theorem Owns.indegree_next (ho : Owns h R) : indegree h (some h.next) = 0 := by
  refine Finset.sum_eq_zero fun b _ => ?_
  cases hb : h.cells b with
  | none => rfl
  | some c =>
    have hunused : ∀ s, Rep h s → ptr s ≠ some h.next := by
      intro s hs hp
      obtain ⟨c', hc'⟩ := hs.alive hp
      exact lt_irrefl _ (ho.fresh _ _ hc')
    obtain ⟨t, ht, hp⟩ := ho.tree b c hb
    cases t with
    | nil => cases hp
    | node x l r =>
      obtain ⟨b', d⟩ := x
      obtain rfl : b' = b := some.inj hp
      obtain ⟨⟨n, hcell⟩, hl, hr⟩ := ht
      obtain rfl : c = ⟨ptr l, ptr r, d, n⟩ := some.inj (hb.symm.trans hcell)
      rw [edges_some, if_neg (hunused l hl).symm, if_neg (hunused r hr).symm, add_zero]

theorem new_runs (ho : Owns h (l ::ₘ r ::ₘ R)) (d : β) : Runs (new (ptr l) (ptr r) d) h fun p h' =>
    ∃ a, p = some a ∧ Owns h' (.node (a, d) l r ::ₘ R) := by
  refine ⟨some h.next, _, rfl, h.next, rfl, ?_⟩
  set h' : Heap β := { h.set h.next (some ⟨ptr l, ptr r, d, 1⟩) with next := h.next + 1 }
  have hself : h'.cells h.next = some ⟨ptr l, ptr r, d, 1⟩ := h.set_cells_self ..
  have hold : ∀ b, b ≠ h.next → h'.cells b = h.cells b := fun b hne => h.set_cells_of_ne hne _
  have hcells : ∀ b c', h'.cells b = some c' →
      b = h.next ∧ c' = ⟨ptr l, ptr r, d, 1⟩ ∨ b ≠ h.next ∧ h.cells b = some c' := by
    intro b c' hb
    rcases eq_or_ne b h.next with rfl | hne
    · exact .inl ⟨rfl, (some.inj (hself.symm.trans hb)).symm⟩
    · exact .inr ⟨hne, (hold b hne).symm.trans hb⟩
  have hset : ∀ t, Rep h t → Rep h' t := by
    intro t ht
    refine ht.congr fun b _ l r d m hb => ⟨m, ?_⟩
    rw [hold b (ho.fresh b _ hb).ne, hb]
  have hnew : Rep h' (.node (h.next, d) l r) :=
    ⟨⟨1, hself⟩, hset l (ho.rep l (by simp)), hset r (ho.rep r (by simp))⟩
  have hdeg : ∀ p, indegree h' p = indegree h p + edges p (some ⟨ptr l, ptr r, d, 1⟩) := by
    intro p
    unfold indegree
    rw [Finset.sum_range_succ, hself, Finset.sum_congr rfl fun b hb => ?_]
    rw [hold b (Finset.mem_range.1 hb).ne]
  have hunused : ∀ s ∈ l ::ₘ r ::ₘ R, some h.next ≠ ptr s := by
    intro s hs hp
    obtain ⟨c', hc'⟩ := (ho.rep s hs).alive hp.symm
    exact lt_irrefl _ (ho.fresh _ _ hc')
  -- the references that the two trees held are those of the new cell
  have hmoved : ∀ p, p ≠ some h.next → ((.node (h.next, d) l r ::ₘ R).map ptr).count p + indegree h' p =
      ((l ::ₘ r ::ₘ R).map ptr).count p + indegree h p := by
    intro p hp
    rw [hdeg, edges_some, count_map_cons, count_map_cons, count_map_cons, ptr, if_neg hp]
    omega
  refine ⟨?_, ?_, ?_, ?_, ?_, ?_⟩
  · intro b c' hb
    rcases hcells b c' hb with ⟨rfl, -⟩ | ⟨-, hb⟩
    · exact Nat.lt_succ_self _
    · exact (ho.fresh b c' hb).trans (Nat.lt_succ_self _)
  · intro b c' hb
    rcases hcells b c' hb with ⟨rfl, -⟩ | ⟨-, hb⟩
    · exact ⟨_, hnew, rfl⟩
    · obtain ⟨t, ht, hp⟩ := ho.tree b c' hb
      exact ⟨t, hset t ht, hp⟩
  · intro t ht
    rcases mem_cons.1 ht with rfl | ht
    · exact hnew
    · exact hset t (ho.rep t (mem_cons_of_mem (mem_cons_of_mem ht)))
  · intro b c' hb
    rcases hcells b c' hb with ⟨rfl, rfl⟩ | ⟨hne, hb⟩
    · have hroots : (R.map ptr).count (some h.next) = 0 := by
        refine count_eq_zero.2 fun hmem => ?_
        obtain ⟨s, hs, hp⟩ := mem_map.1 hmem
        exact hunused s (mem_cons_of_mem (mem_cons_of_mem hs)) hp.symm
      rw [count_map_cons, hroots, hdeg, ho.indegree_next, edges_some, ptr, if_pos rfl, if_neg (hunused l (by simp)),
        if_neg (hunused r (by simp))]
    · rw [hmoved (some b) fun he => hne (some.inj he)]
      exact ho.count b c' hb
  · intro b c' hb
    rcases hcells b c' hb with ⟨rfl, rfl⟩ | ⟨-, hb⟩
    · exact Nat.one_pos
    · exact ho.pos b c' hb
  · rw [hmoved none (some_ne_none _).symm]
    exact ho.sentinel

end Owns

end S2E.Lib.RefCount
