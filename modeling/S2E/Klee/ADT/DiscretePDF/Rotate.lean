import Mathlib.Algebra.BigOperators.Group.List.Basic
import S2E.Klee.ADT.DiscretePDF.Code

/-!
# The tree of a `DiscretePDF` and its rotations

* `entries t` : the addresses, items and weights of a tree from left to right; `before fs`, `after fs` : those beside the
  way down to it; `around t fs` : all of them;
* `Summed t` : every node has the sum of the weights below it; `PathSummed fs` : so it is in the trees beside the way.
  The nodes on the way may be wrong until `propogateSumsUp` has passed them;
* `rotate_runs` : a rotation, which leaves a wrong sum in the upper node only.
-/

namespace S2E.Klee.DiscretePDF

open Lib Lib.ParentTree List

variable {κ K : Type}

/-- What is left of a node when its colour and sum are forgotten. -/
abbrev Entry (κ K : Type) := Nat × κ × K

def entry (x : Nat × NodeData κ K) : Entry κ K := (x.1, x.2.key, x.2.weight)

def withMark (b : Bool) (x : Nat × NodeData κ K) : Nat × NodeData κ K := (x.1, { x.2 with mark := b })

def withSum (g : K) (x : Nat × NodeData κ K) : Nat × NodeData κ K := (x.1, { x.2 with sumWeights := g })

def entries : Shape (NodeData κ K) → List (Entry κ K)
  | .nil => []
  | .node x l r => entries l ++ entry x :: entries r

def before : List (Frame (NodeData κ K)) → List (Entry κ K)
  | [] => []
  | ⟨.left, _, _⟩ :: fs => before fs
  | ⟨.right, x, s⟩ :: fs => before fs ++ (entries s ++ [entry x])

def after : List (Frame (NodeData κ K)) → List (Entry κ K)
  | [] => []
  | ⟨.left, x, s⟩ :: fs => entry x :: (entries s ++ after fs)
  | ⟨.right, _, _⟩ :: fs => after fs

/-- All entries of the tree that is seen from a node. -/
def around (t : Shape (NodeData κ K)) (fs : List (Frame (NodeData κ K))) : List (Entry κ K) :=
  before fs ++ (entries t ++ after fs)

section Entries

variable (a : Nat) (d : Side) (x y : Nat × NodeData κ K) (l r s t u : Shape (NodeData κ K))
  (f : Frame (NodeData κ K)) (fs : List (Frame (NodeData κ K)))

@[simp] theorem entries_nil : entries (.nil : Shape (NodeData κ K)) = [] := rfl

@[simp] theorem entries_node : entries (.node x l r) = entries l ++ entry x :: entries r := rfl

@[simp] theorem around_nil : around t [] = entries t := by simp [around, before, after]

theorem around_child : around t (f :: fs) = around (branch f.side f.node t f.sibling) fs := by
  match f with
  | ⟨.left, x, s⟩ => simp [around, before, after, branch]
  | ⟨.right, x, s⟩ => simp [around, before, after, branch]

theorem around_node : around (.node x l r) fs = (before fs ++ entries l) ++ entry x :: (entries r ++ after fs) := by
  simp [around]

theorem around_congr {t t' : Shape (NodeData κ K)} (h : entries t' = entries t) : around t' fs = around t fs := by
  rw [around, h, around]

theorem entries_branch_congr {x x' : Nat × NodeData κ K} {s s' t t' : Shape (NodeData κ K)} (hx : entry x' = entry x)
    (hs : entries s' = entries s) (ht : entries t' = entries t) : entries (branch d x' s' t') = entries (branch d x s t) := by
  cases d with
  | left => simp only [branch, entries_node, hx, hs, ht]
  | right => simp only [branch, entries_node, hx, hs, ht]

theorem entries_rotate : entries (branch d x s (branch d y t u)) = entries (branch d y (branch d x s t) u) := by
  cases d with
  | left => simp [branch]
  | right => simp [branch]

theorem count_entries : ∀ t : Shape (NodeData κ K), ((entries t).map (·.1)).count a = occ a t
  | .nil => rfl
  | .node x l r => by
    rw [entries_node, map_append, map_cons, count_append, count_cons, count_entries l,
      count_entries r, occ_node]
    simp only [entry, beq_iff_eq]
    omega

theorem count_around : ∀ (t : Shape (NodeData κ K)) (fs : List (Frame (NodeData κ K))),
    ((around t fs).map (·.1)).count a = occ a t + occPath a fs
  | t, [] => by simp [around, before, after, count_entries]
  | t, f :: fs => by
    rw [around_child, count_around _ fs, occ_branch, occPath_cons]
    omega

/-- The entries tell which addresses are in use. -/
theorem occ_eq_of_around {t t' : Shape (NodeData κ K)} {fs fs' : List (Frame (NodeData κ K))}
    (h : around t' fs' = around t fs) : occ a t' + occPath a fs' = occ a t + occPath a fs := by
  rw [← count_around, ← count_around, h]

end Entries

/-! ## Sums -/

variable {γ : Type} {Q : γ → PDF κ K → Prop}

section Sums

variable [AddCommMonoid K]

def total (t : Shape (NodeData κ K)) : K := ((entries t).map (·.2.2)).sum

/-- The sum that is read at a subtree. -/
def storedSum : Shape (NodeData κ K) → K
  | .nil => 0
  | .node x _ _ => x.2.sumWeights

/-- The data of a node after `setSum`. -/
def resum (data : NodeData κ K) (s t : Shape (NodeData κ K)) : NodeData κ K :=
  { data with sumWeights := data.weight + storedSum s + storedSum t }

def Summed : Shape (NodeData κ K) → Prop
  | .nil => True
  | .node x l r => x.2.sumWeights = total (.node x l r) ∧ Summed l ∧ Summed r

def PathSummed (fs : List (Frame (NodeData κ K))) : Prop := ∀ f ∈ fs, Summed f.sibling

variable {d : Side} {x y : Nat × NodeData κ K} {l r s t u : Shape (NodeData κ K)} {f : Frame (NodeData κ K)}
  {fs : List (Frame (NodeData κ K))} {h : PDF κ K} {p q : Ptr}

theorem total_node (x : Nat × NodeData κ K) (l r : Shape (NodeData κ K)) :
    total (.node x l r) = total l + (x.2.weight + total r) := by
  simp [total, entry]

theorem resum_comm (data : NodeData κ K) (s t : Shape (NodeData κ K)) : resum data s t = resum data t s := by
  rw [resum, resum, add_right_comm]

theorem Summed.storedSum_eq (ht : Summed t) : storedSum t = total t := by
  cases t with
  | nil => simp [storedSum, total]
  | node x l r => exact ht.1

theorem Summed.resum (hs : Summed s) (ht : Summed t) : Summed (branch d (x.1, resum x.2 s t) s t) := by
  have hnode : ∀ {l r : Shape (NodeData κ K)}, Summed l → Summed r →
      Summed (.node (x.1, DiscretePDF.resum x.2 l r) l r) := by
    intro l r hl hr
    refine ⟨?_, hl, hr⟩
    rw [total_node, DiscretePDF.resum, hl.storedSum_eq, hr.storedSum_eq]
    exact (add_assoc _ _ _).trans (add_left_comm _ _ _)
  cases d with
  | left => exact hnode hs ht
  | right =>
    rw [resum_comm]
    exact hnode ht hs

theorem Summed.of_branch (ht : Summed (branch d x s t)) : Summed s ∧ Summed t := by
  cases d with
  | left => exact ht.2
  | right => exact ht.2.symm

theorem PathSummed.cons (hs : Summed f.sibling) (hfs : PathSummed fs) : PathSummed (f :: fs) :=
  forall_mem_cons.2 ⟨hs, hfs⟩

theorem PathSummed.of_cons (hfs : PathSummed (f :: fs)) : Summed f.sibling ∧ PathSummed fs :=
  forall_mem_cons.1 hfs

theorem sumAt_bind {g : K → PdfM κ K γ} (ht : Rep h p t)
    (hg : Runs (g (storedSum t)) h Q) : Runs (sumAt (ptr t) >>= g) h Q := by
  cases t with
  | nil => exact hg
  | node x l r =>
    simp only [ptr_node, sumAt, bind_assoc, pure_bind]
    exact load_bind ht.1 hg

theorem setSum_bind {g : Unit → PdfM κ K γ} (ht : Rep h p (branch d x s t))
    (hg : Runs (g ()) (h.set x.1 (some (.along d p (ptr s) (ptr t) (resum x.2 s t)))) Q) :
    Runs (setSum x.1 >>= g) h Q := by
  unfold setSum
  simp only [bind_assoc]
  cases d with
  | left =>
    refine load_bind ht.1 (sumAt_bind ht.2.1 (sumAt_bind ht.2.2 ?_))
    exact update_bind ht.1 hg
  | right =>
    rw [resum_comm] at hg
    refine load_bind ht.1 (sumAt_bind ht.2.1 (sumAt_bind ht.2.2 ?_))
    exact update_bind ht.1 hg

/-! ## Rotations -/

section

omit [AddCommMonoid K]

theorem deref_bind {g : Nat → PdfM κ K γ} {a : Nat} (hg : Runs (g a) h Q) : Runs (deref (some a) >>= g) h Q := hg

/-- The place that points to the tree is found by comparing pointers. -/
theorem relink_runs {a : Nat} (n : Nat) (hh : HoldsAt h (some a) t fs) (ha : 0 < occ a t) :
    Runs (relink (up fs) a n) h fun _ h' => HoldsAt h' (some n) t fs := by
  match fs with
  | [] => exact writeSlot_runs (some n) hh
  | ⟨.left, y, u⟩ :: fs =>
    refine load_bind hh.cell_of_parent ?_
    simp only [Cell.along, if_true]
    exact writeSlot_runs (some n) hh
  | ⟨.right, y, u⟩ :: fs =>
    refine load_bind hh.cell_of_parent ?_
    have hne : ptr u ≠ some a := hh.ptr_sibling_ne ha
    simp only [Cell.along, hne, if_false]
    exact writeSlot_runs (some n) hh

theorem swing_runs (hh : Holds h (branch d x s t) (⟨d, y, u⟩ :: fs)) :
    Runs (swing x.1 y.1 (.along d (some y.1) (ptr s) (ptr t) x.2) (.along d (up fs) (some x.1) (ptr u) y.2)) h
      fun _ h' => HoldsAt h' (some y.1) (branch d x s (branch d y t u)) fs := by
  have hxs := hh.once x.1
  have hys := hh.once y.1
  simp only [occ_branch, occPath_cons, if_true] at hxs hys
  have hne : x.1 ≠ y.1 := by grind
  have hside : ptr u ≠ some x.1 := hh.ptr_sibling_ne (by simp only [occ_branch, if_true]; omega)
  have hparent := hh.cell_of_parent
  rw [ptr_branch] at hparent
  obtain ⟨-, -, ht⟩ := rep_branch.1 hh.rep
  -- the two nodes have their links, and the subtree still has the old parent
  have hpassed : ∀ {h' : PDF κ K}, Patched h h' x.1 y.1 (.along d (up fs) (ptr s) (some y.1) x.2)
      (.along d (some x.1) (ptr t) (ptr u) y.2) → Runs (updateAt (ptr t) fun c => { c with parent := some y.1 }) h'
        fun _ h' => HoldsAt h' (some y.1) (branch d x s (branch d y t u)) fs := by
    intro h' hp
    have hrep : Rep h' (some x.1) t := by
      refine ht.congr fun a ha => hp.same a ?_ ?_
      · rintro rfl
        omega
      · rintro rfl
        omega
    have honce : ∀ a, occ a t ≤ 1 := by
      intro a
      have := hh.once a
      rw [occ_branch] at this
      omega
    refine (setParent_runs (some y.1) hrep honce).mono ?_
    rintro _ h₅ ⟨ht, hsame, hroot, hnext⟩
    exact hh.swing ((hsame _ (by omega)).trans hp.fst) ((hsame _ (by omega)).trans hp.snd) ht
      (fun a hax hay hat => (hsame a hat).trans (hp.same a hax hay)) (hroot.trans hp.root) (hnext.trans hp.next)
  refine (Patched.refl hne hh.cell_of_branch hparent).update_fst fun h₁ hp₁ => hp₁.update_snd fun h₂ hp₂ => ?_
  cases d with
  | left =>
    simp only [Cell.along, if_true]
    exact hp₂.update_snd fun h₃ hp₃ => hp₃.update_fst fun h₄ hp₄ => hpassed hp₄
  | right =>
    simp only [Cell.along, hside, if_false]
    exact hp₂.update_snd fun h₃ hp₃ => hp₃.update_fst fun h₄ hp₄ => hpassed hp₄

end

/-- The upper node gets a sum from that of the lower one, which is set only then. -/
theorem rotate_runs (hh : Holds h (branch d x s t) (⟨d, y, u⟩ :: fs)) : Runs (rotate x.1) h fun _ h' => ∃ g,
    Holds h' (branch d (withSum g x) s (branch d (y.1, resum y.2 t u) t u)) fs := by
  have hparent := hh.cell_of_parent
  rw [ptr_branch] at hparent
  refine load_bind hh.cell_of_branch ?_
  rw [Cell.along_parent]
  refine deref_bind (load_bind hparent ?_)
  rw [Cell.along_parent]
  refine (swing_runs hh).bind fun _ h₁ hh₁ => ?_
  refine setSum_bind hh₁.rep ?_
  have hh₂ := hh₁.setData (resum x.2 s (branch d y t u))
  refine setSum_bind (rep_branch.1 hh₂.rep).2.2 ?_
  have hh₃ := hh₂.setDataChild (resum y.2 t u)
  refine (relink_runs x.1 hh₃ ?_).mono fun _ h₄ hh₄ => ⟨(resum x.2 s (branch d y t u)).sumWeights, ?_⟩
  · simp only [occ_branch, if_true]
    omega
  · unfold Holds
    rw [ptr_branch]
    exact hh₄

/-! ## Colours and sums on the way -/

/-- The colour of the root of a tree that is seen from a node of this colour. -/
def rootMark : Bool → List (Frame (NodeData κ K)) → Bool
  | m, [] => m
  | _, f :: fs => rootMark f.node.2.mark fs

def markOf : Shape (NodeData κ K) → Bool
  | .nil => false
  | .node x _ _ => x.2.mark

section

omit [AddCommMonoid K]

@[simp] theorem markOf_branch : markOf (branch d x s t) = x.2.mark := by cases d <;> rfl

theorem setMark_bind {g : Unit → PdfM κ K γ} (b : Bool) (hh : Holds h (branch d x s t) fs)
    (hg : ∀ h', Holds h' (branch d (withMark b x) s t) fs → Runs (g ()) h' Q) : Runs (setMark b x.1 >>= g) h Q := by
  refine update_bind hh.cell_of_branch (hg _ ?_)
  have hset := Holds.setData hh (withMark b x).2
  cases d <;> exact hset

theorem setMark_runs {Q : Unit → PDF κ K → Prop} (b : Bool) (hh : Holds h (branch d x s t) fs)
    (hq : ∀ h', Holds h' (branch d (withMark b x) s t) fs → Q () h') : Runs (setMark b x.1) h Q := by
  have hbind := setMark_bind (g := pure) b hh fun h' hh' => Runs.pure (hq h' hh')
  rwa [bind_pure] at hbind

end

theorem propogateSumsUp_none (n : Nat) : propogateSumsUp n none = (return () : PdfM κ K Unit) := by
  cases n <;> rfl

/-- The sums of the nodes on the way are set one after the other, from below. -/
theorem propogateSumsUp_runs {n : Nat} (hh : Holds h t fs) (ht : Summed t) (hfs : PathSummed fs) (hn : fs.length ≤ n) :
    Runs (propogateSumsUp n (up fs)) h fun _ h' => ∃ t', Holds h' t' [] ∧ Summed t' ∧ entries t' = around t fs ∧
      markOf t' = rootMark (markOf t) fs := by
  induction fs generalizing h t n with
  | nil =>
    rw [up, propogateSumsUp_none]
    exact Runs.pure ⟨t, hh, ht, (around_nil t).symm, rfl⟩
  | cons f fs ih =>
    obtain ⟨n, rfl⟩ : ∃ m, n = m + 1 := ⟨n - 1, by rw [length_cons] at hn; omega⟩
    obtain ⟨hs, hrest⟩ := hfs.of_cons
    have hup := holds_child.1 hh
    refine setSum_bind hup.rep ?_
    have hset := Holds.setData hup (resum f.node.2 t f.sibling)
    refine load_bind hset.cell_of_branch ?_
    rw [Cell.along_parent, around_child]
    refine (ih hset (ht.resum hs) hrest (by simpa using hn)).mono ?_
    rintro _ h' ⟨t', hh', ht', heq, hmark⟩
    refine ⟨t', hh', ht', heq.trans (around_congr _ (entries_branch_congr _ rfl rfl rfl)), ?_⟩
    rw [hmark, markOf_branch]
    rfl

/-- The sums are set from a node on whose subtrees have right ones. -/
theorem propogateSumsUp_node_runs {n : Nat} (hh : Holds h (.node x l r) fs) (hl : Summed l) (hr : Summed r)
    (hfs : PathSummed fs) (hn : fs.length < n) : Runs (propogateSumsUp n (some x.1)) h fun _ h' => ∃ t', Holds h' t' [] ∧
      Summed t' ∧ entries t' = around (.node x l r) fs ∧ markOf t' = rootMark x.2.mark fs := by
  obtain ⟨n, rfl⟩ : ∃ m, n = m + 1 := ⟨n - 1, by omega⟩
  refine setSum_bind (d := .left) hh.rep ?_
  have hset := Holds.setData (d := .left) hh (resum x.2 l r)
  refine load_bind hset.cell_of_branch ?_
  rw [Cell.along_parent]
  refine (propogateSumsUp_runs hset (hl.resum hr) hfs (Nat.le_of_lt_succ hn)).mono ?_
  rintro _ h' ⟨t', hh', ht', heq, hmark⟩
  exact ⟨t', hh', ht', heq.trans (around_congr _ rfl), hmark⟩

end Sums

end S2E.Klee.DiscretePDF
