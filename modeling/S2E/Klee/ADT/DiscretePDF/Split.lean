import S2E.Klee.ADT.DiscretePDF.Rotate

/-!
# `DiscretePDF::split`

A node with two red children is turned into a red one with two black children, and two red nodes in a row are turned so
that the lower one, or the one between, comes up over a black parent.

* `split_runs` : the source does that, where the root of the tree is black;
* `Splits.around_eq`, `Splits.summed`, `Splits.rootMark_eq`, `Splits.beside` : what it keeps.
-/

namespace S2E.Klee.DiscretePDF

open Lib Lib.ParentTree

variable {κ K : Type}

def blacken : Shape (NodeData κ K) → Shape (NodeData κ K)
  | .nil => .nil
  | .node x l r => .node (withMark false x) l r

section Blacken

variable {t : Shape (NodeData κ K)} {fs : List (Frame (NodeData κ K))} {h : PDF κ K}

@[simp] theorem entries_blacken (t : Shape (NodeData κ K)) : entries (blacken t) = entries t := by
  cases t <;> rfl

@[simp] theorem markOf_blacken (t : Shape (NodeData κ K)) : markOf (blacken t) = false := by
  cases t <;> rfl

theorem Summed.blacken [AddCommMonoid K] (ht : Summed t) : Summed (blacken t) := by
  cases t with
  | nil => trivial
  | node x l r => exact ht

theorem setMarkAt_bind {γ : Type} {g : Unit → PdfM κ K γ} {Q : γ → PDF κ K → Prop} (hh : Holds h t fs)
    (hg : ∀ h', Holds h' (blacken t) fs → Runs (g ()) h' Q) : Runs (setMarkAt false (ptr t) >>= g) h Q := by
  cases t with
  | nil => exact hg h hh
  | node x l r => exact setMark_bind (d := .left) false hh hg

theorem nullOrBlack_bind {γ : Type} {g : Bool → PdfM κ K γ} {Q : γ → PDF κ K → Prop} {p : Ptr} (ht : Rep h p t)
    (hg : Runs (g (!markOf t)) h Q) : Runs (nullOrBlack (ptr t) >>= g) h Q := by
  cases t with
  | nil => exact hg
  | node x l r =>
    simp only [ptr_node, nullOrBlack, isBlack, bind_assoc, pure_bind]
    exact load_bind ht.1 hg

end Blacken

section Roots

variable {d : Side} {x : Nat × NodeData κ K} {s t : Shape (NodeData κ K)} {fs : List (Frame (NodeData κ K))}

def rootEntry : Shape (NodeData κ K) → Option (Entry κ K)
  | .nil => none
  | .node x _ _ => some (entry x)

@[simp] theorem rootEntry_branch : rootEntry (branch d x s t) = some (entry x) := by cases d <;> rfl

/-- The two subtrees have right sums, the node need not. -/
def ChildrenSummed [AddCommMonoid K] : Shape (NodeData κ K) → Prop
  | .nil => True
  | .node _ l r => Summed l ∧ Summed r

theorem childrenSummed_branch [AddCommMonoid K] : ChildrenSummed (branch d x s t) ↔ Summed s ∧ Summed t := by
  cases d with
  | left => exact Iff.rfl
  | right => exact and_comm

theorem rootMark_black {m : Bool} (h : rootMark m fs = false) : rootMark false fs = false := by
  cases fs with
  | nil => rfl
  | cons f fs => exact h

end Roots

variable [AddCommMonoid K]

/-- The cases of `split`: at the root, below a black node, and below a red one on the same side of its parent or on the
other. -/
inductive Splits : Shape (NodeData κ K) → List (Frame (NodeData κ K)) → Shape (NodeData κ K) →
    List (Frame (NodeData κ K)) → Prop
  | root {x l r} : Splits (.node x l r) [] (.node x (blacken l) (blacken r)) []
  | below {x l r f fs} : f.node.2.mark = false →
      Splits (.node x l r) (f :: fs) (.node (withMark true x) (blacken l) (blacken r)) (f :: fs)
  | single {x l r d p s pp u fs} (g : K) : Splits (.node x l r) (⟨d, p, s⟩ :: ⟨d, pp, u⟩ :: fs)
      (.node (withMark true x) (blacken l) (blacken r))
      (⟨d, withMark false (withSum g p), branch d (pp.1, resum (withMark true pp).2 s u) s u⟩ :: fs)
  | double {x a b d p s pp u fs} (g : K) : Splits (branch d x a b) (⟨d, p, s⟩ :: ⟨d.other, pp, u⟩ :: fs)
      (branch d (withMark false (withSum g x)) (branch d.other (pp.1, resum (withMark true pp).2 (blacken a) u) (blacken a) u)
        (branch d (p.1, resum p.2 (blacken b) s) (blacken b) s)) fs

section Runs

variable {x : Nat × NodeData κ K} {l r : Shape (NodeData κ K)} {fs : List (Frame (NodeData κ K))} {h : PDF κ K}

omit [AddCommMonoid K] in
/-- How the source sees that a node and its parent are on the same side. -/
theorem same_side_iff (d e : Side) (q r : Ptr) (x y : NodeData κ K) {n p : Nat} {s u : Ptr} (hs : s ≠ some n)
    (hu : u ≠ some p) : ((Cell.along d q (some n) s x).left = some n ∧ (Cell.along e r (some p) u y).left = some p ∨
      (Cell.along d q (some n) s x).right = some n ∧ (Cell.along e r (some p) u y).right = some p) ↔ e = d := by
  cases d <;> cases e <;> simp [Cell.along, hs, hu]

/-- A node that is on another side of its parent than that of its own comes up twice. -/
theorem double_runs {d : Side} {p pp : Nat × NodeData κ K} {s u : Shape (NodeData κ K)}
    (hh : Holds h (.node (withMark true x) (blacken l) (blacken r)) (⟨d, p, s⟩ :: ⟨d.other, withMark true pp, u⟩ :: fs)) :
    Runs (do rotate x.1; rotate x.1; setMark false x.1) h fun _ h' => ∃ t' fs',
      Splits (.node x l r) (⟨d, p, s⟩ :: ⟨d.other, pp, u⟩ :: fs) t' fs' ∧ Holds h' t' fs' := by
  obtain ⟨a, b, hab, hmarked⟩ : ∃ a b, (.node x l r : Shape (NodeData κ K)) = branch d x a b ∧
      (.node (withMark true x) (blacken l) (blacken r) : Shape (NodeData κ K)) =
        branch d (withMark true x) (blacken a) (blacken b) := by
    cases d with
    | left => exact ⟨l, r, rfl, rfl⟩
    | right => exact ⟨r, l, rfl, rfl⟩
  rw [hmarked] at hh
  rw [hab]
  refine (rotate_runs (x := withMark true x) hh).bind ?_
  rintro _ h₁ ⟨g, hh₁⟩
  rw [← branch_other] at hh₁
  refine (rotate_runs (x := withSum g (withMark true x)) hh₁).bind ?_
  rintro _ h₂ ⟨g', hh₂⟩
  refine setMark_runs (x := withSum g' (withSum g (withMark true x))) false hh₂ fun h₃ hh₃ => ⟨_, _, .double g', ?_⟩
  rw [branch_other] at hh₃
  exact hh₃

theorem split_runs (hh : Holds h (.node x l r) fs) (hroot : rootMark x.2.mark fs = false) : Runs (split x.1) h
    fun _ h' => ∃ t' fs', Splits (.node x l r) fs t' fs' ∧ Holds h' t' fs' := by
  refine load_bind hh.cell ?_
  have hleft : Holds h l (⟨.left, x, r⟩ :: fs) := holds_child.2 hh
  refine setMarkAt_bind hleft fun h₁ hh₁ => ?_
  have hnode : Holds h₁ (.node x (blacken l) r) fs := holds_child.1 hh₁
  have hright : Holds h₁ r (⟨.right, x, blacken l⟩ :: fs) := holds_child.2 hnode
  refine setMarkAt_bind hright fun h₂ hh₂ => ?_
  have hblack : Holds h₂ (.node x (blacken l) (blacken r)) fs := holds_child.1 hh₂
  match fs with
  | [] => exact Runs.pure ⟨_, _, .root, hblack⟩
  | f :: fs =>
    refine setMark_bind (d := .left) true hblack fun h₃ hh₃ => ?_
    have hred : Holds h₃ (.node (withMark true x) (blacken l) (blacken r)) (f :: fs) := hh₃
    refine load_bind hred.cell_of_parent ?_
    rw [Cell.along_data, Cell.along_parent]
    by_cases hmark : f.node.2.mark = false
    · rw [if_pos hmark]
      exact Runs.pure ⟨_, _, .below hmark, hred⟩
    rw [if_neg hmark]
    match fs with
    | [] => exact absurd hroot hmark
    | f' :: fs =>
      obtain ⟨d, p, s⟩ := f
      obtain ⟨d', pp, u⟩ := f'
      refine deref_bind ?_
      -- the grandparent is marked from above
      have hup := holds_child.1 (holds_child.1 hred)
      refine setMark_bind true hup fun h₄ hh₄ => ?_
      have hparent : Holds h₄ (branch d p (.node (withMark true x) (blacken l) (blacken r)) s)
          (⟨d', withMark true pp, u⟩ :: fs) := holds_child.2 hh₄
      have hdown : Holds h₄ (.node (withMark true x) (blacken l) (blacken r))
          (⟨d, p, s⟩ :: ⟨d', withMark true pp, u⟩ :: fs) := holds_child.2 hparent
      have hcell := hparent.cell_of_parent
      rw [ptr_branch] at hcell
      refine load_bind hcell ?_
      have hs : ptr s ≠ some x.1 := hdown.ptr_sibling_ne (occ_of_ptr rfl)
      have hu : ptr u ≠ some p.1 := hparent.ptr_sibling_ne (occ_of_ptr (ptr_branch ..))
      have hside := same_side_iff d d' (some pp.1) (up fs) p.2 (withMark true pp).2 hs hu
      split_ifs with hc
      · obtain rfl := hside.1 hc
        refine (rotate_runs hparent).bind ?_
        rintro _ h₅ ⟨g, hh₅⟩
        refine setMark_runs (x := withSum g p) false hh₅ fun h₆ hh₆ => ⟨_, _, .single g, holds_child.2 hh₆⟩
      · have hother : d' = d.other := by
          have hne : d' ≠ d := fun heq => hc (hside.2 heq)
          cases d <;> cases d' <;> simp_all [Side.other]
        subst hother
        exact double_runs hdown

/-! ## What `split` keeps -/

variable {t t' : Shape (NodeData κ K)} {fs' : List (Frame (NodeData κ K))}

variable (hs : Splits t fs t' fs')
include hs

theorem Splits.around_eq : around t' fs' = around t fs := by
  cases hs with
  | root => exact around_congr _ (by simp)
  | below => exact around_congr _ (by simp [entry, withMark])
  | single g =>
    rw [around_child, around_child, around_child]
    refine around_congr _ ?_
    rw [entries_rotate]
    exact entries_branch_congr _ rfl (entries_branch_congr _ rfl (by simp [entry, withMark]) rfl) rfl
  | @double x a b d p s pp u fs g =>
    rw [around_child, around_child]
    refine around_congr _ ?_
    cases d <;> simp [branch, Side.other, entry, withMark, withSum, resum]

theorem Splits.rootEntry_eq : rootEntry t' = rootEntry t := by
  cases hs with
  | root => rfl
  | below => rfl
  | single g => rfl
  | double g =>
    rw [rootEntry_branch, rootEntry_branch]
    rfl

theorem Splits.summed (ht : ChildrenSummed t) (hfs : PathSummed fs) : ChildrenSummed t' ∧ PathSummed fs' := by
  cases hs with
  | root => exact ⟨⟨ht.1.blacken, ht.2.blacken⟩, hfs⟩
  | below => exact ⟨⟨ht.1.blacken, ht.2.blacken⟩, hfs⟩
  | @single x l r d p s pp u fs g =>
    obtain ⟨hs, hfs⟩ := hfs.of_cons
    obtain ⟨hu, hfs⟩ := hfs.of_cons
    exact ⟨⟨ht.1.blacken, ht.2.blacken⟩, hfs.cons (Summed.resum (x := withMark true pp) hs hu)⟩
  | @double x a b d p s pp u fs g =>
    obtain ⟨ha, hb⟩ := childrenSummed_branch.1 ht
    obtain ⟨hs, hfs⟩ := hfs.of_cons
    obtain ⟨hu, hfs⟩ := hfs.of_cons
    refine ⟨childrenSummed_branch.2 ⟨?_, ?_⟩, hfs⟩
    · exact Summed.resum (x := withMark true pp) ha.blacken hu
    · exact hb.blacken.resum hs

theorem Splits.rootMark_eq (hroot : rootMark (markOf t) fs = false) : rootMark (markOf t') fs' = false := by
  cases hs with
  | root => exact hroot
  | below => exact hroot
  | single g => exact rootMark_black hroot
  | double g =>
    rw [markOf_branch]
    exact rootMark_black hroot

/-- What is beside the way was beside it before. -/
theorem Splits.beside : (∀ e ∈ before fs', e ∈ before fs) ∧ ∀ e ∈ after fs', e ∈ after fs := by
  cases hs with
  | root => exact ⟨fun _ he => he, fun _ he => he⟩
  | below => exact ⟨fun _ he => he, fun _ he => he⟩
  | @single x l r d p s pp u fs g =>
    cases d with
    | left => refine ⟨fun _ he => he, fun e he => ?_⟩; simpa [after, branch, entry, withMark, withSum, resum] using he
    | right => refine ⟨fun e he => ?_, fun _ he => he⟩; simpa [before, branch, entry, withMark, withSum, resum] using he
  | @double x a b d p s pp u fs g =>
    cases d with
    | left => exact ⟨fun e he => by simp [before, Side.other, he], fun e he => by simp [after, Side.other, he]⟩
    | right => exact ⟨fun e he => by simp [before, Side.other, he], fun e he => by simp [after, Side.other, he]⟩

end Runs

end S2E.Klee.DiscretePDF
