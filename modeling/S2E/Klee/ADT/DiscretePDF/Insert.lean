import S2E.Klee.ADT.DiscretePDF.Split

/-!
# `DiscretePDF::insert`

* `Valid h t` : the heap holds the tree `t`, ordered by item, with right sums and a black root;
* `rounds item t` : a bound on the rounds of the loop of `insert` in `t`. A round may turn the node that it is at up over
  its parent and grandparent; then the next one finds a black child and does not;
* `insertFrom_runs` : the loop finds the place for the item, with right sums beside the way;
* `insert_runs` : `insert` adds the entry, or stops at the assertion if the item is there.
-/

namespace S2E.Klee.DiscretePDF

open Lib Lib.ParentTree List

variable {κ K : Type} [LinearOrder κ] [AddCommMonoid K]

def Sorted (L : List (Entry κ K)) : Prop := L.Pairwise fun e e' => e.2.1 < e'.2.1

structure Valid (h : PDF κ K) (t : Shape (NodeData κ K)) : Prop where
  holds : Holds h t []
  summed : Summed t
  black : markOf t = false
  sorted : Sorted (entries t)

/-! ## Rounds of the loop -/

def child (k : κ) : Shape (NodeData κ K) → Shape (NodeData κ K)
  | .nil => .nil
  | .node x l r => if k < x.2.key then l else r

/-- How far down a search for the item goes. -/
def steps (k : κ) : Shape (NodeData κ K) → Nat
  | .nil => 0
  | .node x l r => 1 + if k < x.2.key then steps k l else steps k r

def bothRed : Shape (NodeData κ K) → Bool
  | .nil => false
  | .node _ l r => markOf l && markOf r

def rounds (k : κ) (t : Shape (NodeData κ K)) : Nat := 2 * steps k t + if bothRed t then 1 else 0

section Rounds

variable {k : κ} {d : Side} {x : Nat × NodeData κ K} {s t l r t' : Shape (NodeData κ K)}
  {fs fs' : List (Frame (NodeData κ K))}

section

omit [AddCommMonoid K]

@[simp] theorem steps_blacken (t : Shape (NodeData κ K)) : steps k (blacken t) = steps k t := by
  cases t <;> rfl

theorem steps_node : steps k (.node x l r) = 1 + steps k (child k (.node x l r)) := by
  rw [steps, child]
  split_ifs <;> rfl

theorem steps_le_numNodes (k : κ) : ∀ t : Shape (NodeData κ K), steps k t ≤ t.numNodes
  | .nil => le_rfl
  | .node x l r => by
    have hl := steps_le_numNodes k l
    have hr := steps_le_numNodes k r
    rw [steps, BinaryTree.numNodes]
    split_ifs <;> omega

theorem rounds_le (k : κ) (t : Shape (NodeData κ K)) : rounds k t ≤ 2 * steps k t + 1 := by
  unfold rounds
  split_ifs <;> omega

theorem rounds_of_black_left (hs : markOf l = false) : rounds k (.node x l r) = 2 * steps k (.node x l r) := by
  simp [rounds, bothRed, hs]

theorem rounds_of_black_right (hs : markOf r = false) : rounds k (.node x l r) = 2 * steps k (.node x l r) := by
  simp [rounds, bothRed, hs]

end

/-- After `split` less than before is left to do. -/
theorem Splits.rounds_le (hs : Splits t fs t' fs') (hbefore : ∀ e ∈ before fs, e.2.1 < k)
    (hafter : ∀ e ∈ after fs, k < e.2.1) : rounds k (child k t') ≤ 2 * steps k t := by
  have hkept : ∀ {x y : Nat × NodeData κ K} {l r : Shape (NodeData κ K)}, y.2.key = x.2.key →
      rounds k (child k (.node y (blacken l) (blacken r))) ≤ 2 * steps k (.node x l r) := by
    intro x y l r hkey
    have hle := DiscretePDF.rounds_le k (child k (.node y (blacken l) (blacken r)))
    have hsteps : steps k (child k (.node y (blacken l) (blacken r))) = steps k (child k (.node x l r)) := by
      rw [child, child, hkey]
      split_ifs <;> exact steps_blacken _
    rw [steps_node]
    omega
  cases hs with
  | root => exact hkept rfl
  | below => exact hkept rfl
  | single g => exact hkept rfl
  | @double x a b d p s pp u fs g =>
    -- the nodes that come down have a black child each, and lead on to the old children
    cases d with
    | left =>
      have hp : k < p.2.key := hafter (entry p) (by simp [after])
      have hpp : ¬ k < pp.2.key := (hbefore (entry pp) (by simp [before, Side.other])).not_gt
      simp only [branch, Side.other, child, withMark, withSum, steps]
      split_ifs with hk
      · rw [rounds_of_black_right (markOf_blacken a), steps, resum, if_neg hpp, steps_blacken]
      · rw [rounds_of_black_left (markOf_blacken b), steps, resum, if_pos hp, steps_blacken]
    | right =>
      have hp : ¬ k < p.2.key := (hbefore (entry p) (by simp [before])).not_gt
      have hpp : k < pp.2.key := hafter (entry pp) (by simp [after, Side.other])
      simp only [branch, Side.other, child, withMark, withSum, steps]
      split_ifs with hk
      · rw [rounds_of_black_right (markOf_blacken b), steps, resum, if_neg hp, steps_blacken]
      · rw [rounds_of_black_left (markOf_blacken a), steps, resum, if_pos hpp, steps_blacken]

end Rounds

/-! ## The loop -/

variable {e e' : Entry κ K} {L R : List (Entry κ K)}

section Loop

variable {item : κ} {x : Nat × NodeData κ K} {l r t : Shape (NodeData κ K)} {fs : List (Frame (NodeData κ K))}
  {h : PDF κ K}

/-- What holds at a node of the loop, after its split: the node is the same, and so are all entries. -/
structure Ready (item : κ) (h : PDF κ K) (e : Entry κ K) (L : List (Entry κ K)) (n : Nat) (t : Shape (NodeData κ K))
    (fs : List (Frame (NodeData κ K))) : Prop where
  holds : Holds h t fs
  entry : rootEntry t = some e
  around_eq : around t fs = L
  summed : ChildrenSummed t
  path : PathSummed fs
  black : rootMark (markOf t) fs = false
  before : ∀ e ∈ before fs, e.2.1 < item
  after : ∀ e ∈ after fs, item < e.2.1
  rounds_lt : rounds item (child item t) < n

theorem splitFourNode_runs (hh : Holds h (.node x l r) fs) (ht : Summed (.node x l r)) (hfs : PathSummed fs)
    (hblack : rootMark x.2.mark fs = false) (hbefore : ∀ e ∈ before fs, e.2.1 < item)
    (hafter : ∀ e ∈ after fs, item < e.2.1) : Runs (splitFourNode x.1) h fun _ h' =>
      ∃ t' fs', Ready item h' (entry x) (around (.node x l r) fs) (rounds item (.node x l r)) t' fs' := by
  have hfour : Runs (fourNode x.1) h fun b h' => b = bothRed (.node x l r) ∧ h' = h := by
    refine load_bind hh.cell (nullOrBlack_bind hh.rep.2.1 (nullOrBlack_bind hh.rep.2.2 (Runs.pure ⟨?_, rfl⟩)))
    rw [Bool.not_not, Bool.not_not, bothRed]
  refine hfour.bind ?_
  rintro _ _ ⟨rfl, rfl⟩
  have hchildren : ChildrenSummed (.node x l r) := ht.2
  split_ifs with hred
  · refine (split_runs hh hblack).mono ?_
    rintro _ h' ⟨t', fs', hs, hh'⟩
    obtain ⟨ht', hfs'⟩ := hs.summed hchildren hfs
    refine ⟨t', fs', hh', hs.rootEntry_eq, hs.around_eq, ht', hfs', hs.rootMark_eq hblack,
      fun e he => hbefore e (hs.beside.1 e he), fun e he => hafter e (hs.beside.2 e he), ?_⟩
    have hle := hs.rounds_le hbefore hafter
    have hrounds : rounds item (.node x l r) = 2 * steps item (.node x l r) + 1 := by rw [rounds, if_pos hred]
    omega
  · refine Runs.pure ⟨.node x l r, fs, hh, rfl, rfl, hchildren, hfs, hblack, hbefore, hafter, ?_⟩
    have hle := rounds_le item (child item (.node x l r))
    have hrounds : rounds item (.node x l r) = 2 * steps item (.node x l r) := by rw [rounds, if_neg hred, add_zero]
    rw [steps_node] at hrounds
    omega

omit [AddCommMonoid K] in
/-- In a sorted list the entries after one have greater keys. -/
theorem Sorted.lt_of_append (hs : Sorted (L ++ e :: R)) (he : e' ∈ R) :
    e.2.1 < e'.2.1 := (pairwise_cons.1 (pairwise_append.1 hs).2.1).1 e' he

omit [AddCommMonoid K] in
theorem Sorted.lt_of_mem_append (hs : Sorted (L ++ e :: R)) (he : e' ∈ L) :
    e'.2.1 < e.2.1 := (pairwise_append.1 hs).2.2 e' he e mem_cons_self

theorem insertFrom_runs {fuel : Nat} (hh : Holds h t fs) (ht : Summed t) (hfs : PathSummed fs)
    (hblack : rootMark (markOf t) fs = false) (hsorted : Sorted (around t fs))
    (hbefore : ∀ e ∈ before fs, e.2.1 < item) (hafter : ∀ e ∈ after fs, item < e.2.1) (hfuel : rounds item t < fuel) :
    Outcome ((insertFrom item fuel (up fs) (ptr t)).run h) (fun p => ∃ fs', p.1 = up fs' ∧ Holds p.2 .nil fs' ∧
        PathSummed fs' ∧ rootMark false fs' = false ∧ around .nil fs' = around t fs ∧
        (∀ e ∈ before fs', e.2.1 < item) ∧ ∀ e ∈ after fs', item < e.2.1)
      fun e => e = .assertFailed ∧ ∃ e ∈ around t fs, e.2.1 = item := by
  induction fuel generalizing h t fs with
  | zero => omega
  | succ fuel ih =>
    cases t with
    | nil => exact ⟨fs, rfl, hh, hfs, hblack, rfl, hbefore, hafter⟩
    | node x l r =>
      refine (splitFourNode_runs hh ht hfs hblack hbefore hafter).outcome_bind ?_
      rintro _ h₁ ⟨t', fs', hready⟩
      cases t' with
      | nil => cases hready.entry
      | node x' l' r' =>
        have hentry : entry x' = entry x := Option.some.inj hready.entry
        have hmem : entry x' ∈ around (.node x l r) fs := by
          rw [← hready.around_eq]
          simp [around]
        have haddr : x'.1 = x.1 := congrArg (·.1) hentry
        rw [← haddr]
        refine load_outcome hready.holds.cell ?_
        by_cases hkey : x'.2.key = item
        · rw [if_pos hkey]
          exact ⟨rfl, entry x', hmem, hkey⟩
        rw [if_neg hkey, ← hready.around_eq]
        have hsplit := hready.around_eq ▸ hsorted
        have hlt := hready.rounds_lt
        rw [around_node] at hsplit
        rw [child] at hlt
        split_ifs at hlt ⊢ with hside
        · have hchild : Holds h₁ l' (⟨.left, x', r'⟩ :: fs') := holds_child.2 hready.holds
          have hrun := ih hchild hready.summed.1 (hready.path.cons hready.summed.2) hready.black
            (by rw [around_child]; exact hready.around_eq ▸ hsorted) hready.before ?_ (by omega)
          · rwa [around_child] at hrun
          · intro e he
            rcases mem_cons.1 he with rfl | he
            · exact hside
            rcases mem_append.1 he with he | he
            · exact hside.trans (hsplit.lt_of_append (mem_append_left _ he))
            · exact hready.after e he
        · have hgt : x'.2.key < item := lt_of_le_of_ne (not_lt.1 hside) hkey
          have hchild : Holds h₁ r' (⟨.right, x', l'⟩ :: fs') := holds_child.2 hready.holds
          have hrun := ih hchild hready.summed.2 (hready.path.cons hready.summed.1) hready.black
            (by rw [around_child]; exact hready.around_eq ▸ hsorted) ?_ hready.after (by omega)
          · rwa [around_child] at hrun
          · intro e he
            rcases mem_append.1 he with he | he
            · exact hready.before e he
            rcases mem_append.1 he with he | he
            · exact (hsplit.lt_of_mem_append (mem_append_right _ he)).trans hgt
            · obtain rfl := mem_singleton.1 he
              exact hgt

end Loop

/-! ## The new node -/

section New

variable {item : κ} {weight : K} {t : Shape (NodeData κ K)} {fs : List (Frame (NodeData κ K))} {h : PDF κ K}

/-- The new node, which nothing points to, is hung up below the node that it has for its parent. -/
theorem hang_runs {n : Nat} {data : NodeData κ K} (hh : HoldsAt h none (.node (n, data) .nil .nil) fs)
    (hfs : PathSummed fs) (hmark : data.mark = false) (hblack : rootMark false fs = false)
    (hbefore : ∀ e ∈ before fs, e.2.1 < item) (hafter : ∀ e ∈ after fs, item < e.2.1) :
    Runs (hang item n (up fs)) h fun _ h' => ∃ x l r fs', x.1 = n ∧ Holds h' (.node x l r) fs' ∧ Summed l ∧ Summed r ∧
      PathSummed fs' ∧ rootMark x.2.mark fs' = false ∧
      around (.node x l r) fs' = around (.node (n, data) .nil .nil) fs := by
  match fs with
  | [] =>
    refine (writeSlot_runs (some n) hh).mono fun _ h' hh' => ?_
    exact ⟨(n, data), .nil, .nil, [], rfl, hh', trivial, trivial, hfs, hmark, rfl⟩
  | f :: fs =>
    refine load_bind hh.cell_of_parent ?_
    have hslot : (if item < (Cell.along f.side (up fs) none (ptr f.sibling) f.node.2).data.key then .left f.node.1
        else .right f.node.1 : Slot) = slotOf (f :: fs) := by
      rw [Cell.along_data]
      match f with
      | ⟨.left, y, s⟩ =>
        have hlt : item < y.2.key := hafter (entry y) (by simp [after])
        rw [if_pos hlt, slotOf]
      | ⟨.right, y, s⟩ =>
        have hlt : y.2.key < item := hbefore (entry y) (by simp [before])
        rw [if_neg hlt.not_gt, slotOf]
    rw [hslot]
    refine (writeSlot_runs (some n) hh).bind fun _ h₁ hh₁ => ?_
    refine (split_runs (x := (n, data)) hh₁ hblack).mono ?_
    rintro _ h₂ ⟨t', fs', hs, hh₂⟩
    obtain ⟨ht', hfs'⟩ := hs.summed ⟨trivial, trivial⟩ hfs
    have hentry := hs.rootEntry_eq
    cases t' with
    | nil => cases hentry
    | node x l r =>
      have haddr : x.1 = n := congrArg (·.1) (Option.some.inj hentry)
      exact ⟨x, l, r, fs', haddr, hh₂, ht'.1, ht'.2, hfs', hs.rootMark_eq hblack, hs.around_eq⟩

theorem plant_runs (hh : Holds h .nil fs) (hfs : PathSummed fs) (hblack : rootMark false fs = false)
    (hbefore : ∀ e ∈ before fs, e.2.1 < item) (hafter : ∀ e ∈ after fs, item < e.2.1) :
    Runs (do
        let n ← new ⟨up fs, none, none, ⟨false, item, weight, 0⟩⟩
        hang item n (up fs)
        propogateSumsUp ((← get).next) (some n)) h
      fun _ h' => ∃ t' n, Holds h' t' [] ∧ Summed t' ∧ markOf t' = false ∧
        entries t' = before fs ++ (n, item, weight) :: after fs := by
  have hnew := new_runs ⟨false, item, weight, 0⟩ hh
  refine hnew.bind fun n h₁ hh₁ => ?_
  refine (hang_runs hh₁ hfs rfl hblack hbefore hafter).bind ?_
  rintro _ h₂ ⟨x, l, r, fs', rfl, hh₂, hl, hr, hfs', hblack', heq⟩
  refine Runs.get_bind ?_
  have hfuel := hh₂.length_le
  rw [BinaryTree.numNodes] at hfuel
  refine (propogateSumsUp_node_runs hh₂ hl hr hfs' (by omega)).mono ?_
  rintro _ h₃ ⟨t', hh₃, ht', hentries, hmark⟩
  refine ⟨t', x.1, hh₃, ht', hmark.trans hblack', ?_⟩
  rw [hentries, heq]
  rfl

omit [AddCommMonoid K] in
theorem Sorted.insert (hs : Sorted (L ++ R)) (hL : ∀ e' ∈ L, e'.2.1 < e.2.1)
    (hR : ∀ e' ∈ R, e.2.1 < e'.2.1) : Sorted (L ++ e :: R) := by
  obtain ⟨h₁, h₂, h₃⟩ := pairwise_append.1 hs
  refine pairwise_append.2 ⟨h₁, pairwise_cons.2 ⟨hR, h₂⟩, fun e₁ he₁ e₂ he₂ => ?_⟩
  rcases mem_cons.1 he₂ with rfl | he₂
  · exact hL e₁ he₁
  · exact h₃ e₁ he₁ e₂ he₂

theorem insert_runs (hv : Valid h t) : Outcome ((insert item weight).run h) (fun p => ∃ t' n L R, Valid p.2 t' ∧
      entries t = L ++ R ∧ entries t' = L ++ (n, item, weight) :: R)
    fun e => e = .assertFailed ∧ ∃ e ∈ entries t, e.2.1 = item := by
  have hroot : h.root = ptr t := hv.holds.path
  have hfuel : rounds item t < 2 * h.next + 2 := by
    have h₁ := rounds_le item t
    have h₂ := steps_le_numNodes item t
    have h₃ := hv.holds.length_le
    omega
  have hloop := insertFrom_runs hv.holds hv.summed (fun f hf => by cases hf) hv.black
    (by rw [around_nil]; exact hv.sorted) (fun e he => by cases he) (fun e he => by cases he) hfuel
  rw [around_nil] at hloop
  refine Outcome.get_bind ?_
  rw [hroot]
  refine Outcome.run_bind hloop ?_
  rintro _ h₁ ⟨fs, rfl, hh₁, hfs, hblack, heq, hbefore, hafter⟩
  refine (plant_runs hh₁ hfs hblack hbefore hafter).outcome ?_
  rintro _ h₂ ⟨t', n, hh₂, ht', hmark, hentries⟩
  have hold : entries t = before fs ++ after fs := heq.symm
  refine ⟨t', n, before fs, after fs, ⟨hh₂, ht', hmark, ?_⟩, hold, hentries⟩
  rw [hentries]
  exact Sorted.insert (hold ▸ hv.sorted) hbefore hafter

end New

end S2E.Klee.DiscretePDF
