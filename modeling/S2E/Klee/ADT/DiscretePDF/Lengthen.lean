import S2E.Klee.ADT.DiscretePDF.Split

/-!
# `DiscretePDF::lengthen`

What a removal does to the colours is repaired from a node upwards. The colours may be wrong by then, so nothing is
assumed of them but that the root is black; what is kept is the tree, its entries, the sums beside the way, and the parent
of the node.

* `blackSibling_runs`, `straighten_runs`, `turnSibling_runs` : the steps.
-/

namespace S2E.Klee.DiscretePDF

open Lib Lib.ParentTree

variable {κ K : Type} [AddCommMonoid K] {d : Side} {x y p : Nat × NodeData κ K} {s t a b : Shape (NodeData κ K)}
  {f : Frame (NodeData κ K)} {fs : List (Frame (NodeData κ K))} {h : PDF κ K} {n : Nat}

theorem Summed.withMark (ht : Summed (branch d x s t)) (m : Bool) : Summed (branch d (withMark m x) s t) := by
  cases d with
  | left => exact ht
  | right => exact ht

section

omit [AddCommMonoid K]

theorem exists_ptr_of_red (ht : markOf t = true) : ∃ q, ptr t = some q := by
  cases t with
  | nil => cases ht
  | node x l r => exact ⟨x.1, rfl⟩

theorem sibling_runs (hh : Holds h t (f :: fs)) (hn : ptr t = some n) :
    Runs (sibling n) h fun q h' => q = ptr f.sibling ∧ h' = h := by
  have hne : ptr f.sibling ≠ some n := hh.ptr_sibling_ne (occ_of_ptr hn)
  have hparent := hh.cell_of_parent
  rw [hn] at hparent
  cases t with
  | nil => cases hn
  | node x l r =>
    obtain rfl : x.1 = n := Option.some.inj hn
    refine load_bind hh.cell (deref_bind (load_bind hparent (Runs.pure ⟨?_, rfl⟩)))
    match f with
    | ⟨.left, y, u⟩ => simp only [Cell.along, if_true]
    | ⟨.right, y, u⟩ => simp only [Cell.along, hne, if_false]

/-- The sibling comes up, and its subtree on the near side passes to the parent. -/
theorem around_turn {p' y' : Nat × NodeData κ K} (hp : entry p' = entry p) (hy : entry y' = entry y) :
    around t (⟨d, p', b⟩ :: ⟨d, y', a⟩ :: fs) = around t (⟨d, p, branch d.other y a b⟩ :: fs) := by
  rw [around_child, around_child, around_child]
  refine around_congr _ ?_
  rw [entries_branch_congr d hy (entries_branch_congr d hp rfl rfl) rfl]
  cases d with
  | left => simp [branch, Side.other]
  | right => simp [branch, Side.other]

theorem around_frame {p' : Nat × NodeData κ K} {u u' : Shape (NodeData κ K)} (hp : entry p' = entry p)
    (hu : entries u' = entries u) : around t (⟨d, p', u'⟩ :: fs) = around t (⟨d, p, u⟩ :: fs) := by
  rw [around_child, around_child]
  exact around_congr _ (entries_branch_congr d hp rfl hu)

end

/-- The way to `t` has been changed above its parent, and beside it. -/
structure Turned (h : PDF κ K) (t : Shape (NodeData κ K)) (f : Frame (NodeData κ K)) (fs : List (Frame (NodeData κ K)))
    (f' : Frame (NodeData κ K)) (fs' : List (Frame (NodeData κ K))) : Prop where
  holds : Holds h t (f' :: fs')
  parent : f'.node.1 = f.node.1
  around_eq : around t (f' :: fs') = around t (f :: fs)
  path : PathSummed (f' :: fs')
  black : rootMark f'.node.2.mark fs' = false

/-- A sibling that is not black comes up, and its parent is red then. -/
theorem blackSibling_runs (hh : Holds h t (f :: fs)) (hn : ptr t = some n) (hfs : PathSummed (f :: fs))
    (hblack : rootMark f.node.2.mark fs = false) : Runs (blackSibling n f.node.1) h fun q h' => ∃ f' fs',
      q = ptr f'.sibling ∧ Turned h' t f fs f' fs' ∧ (f'.node.2.mark = false → fs'.length = fs.length) ∧
      (fs' = [] → markOf f'.sibling = false) := by
  obtain ⟨d, p, u⟩ := f
  refine (sibling_runs hh hn).bind ?_
  rintro _ _ ⟨rfl, rfl⟩
  refine nullOrBlack_bind hh.path.2.1 ?_
  by_cases hmark : markOf u = true
  · obtain ⟨q, hq⟩ := exists_ptr_of_red hmark
    obtain ⟨s, a, b, rfl, -⟩ := exists_branch d.other u hq
    rw [hmark]
    simp only [Bool.not_true, Bool.false_eq_true, if_false, ptr_branch]
    obtain ⟨hu, hrest⟩ := hfs.of_cons
    obtain ⟨ha, hb⟩ := hu.of_branch
    refine deref_bind (setMark_bind true (holds_child.1 hh) fun h₁ hh₁ => ?_)
    have hway₁ : Holds h₁ t (⟨d, withMark true p, branch d.other s a b⟩ :: fs) := holds_child.2 hh₁
    refine setMark_bind false (holds_sibling.1 hway₁) fun h₂ hh₂ => ?_
    refine (rotate_runs hh₂).bind ?_
    rintro _ h₃ ⟨g, hh₃⟩
    rw [branch_other, branch_other] at hh₃
    have hway : Holds h₃ t (⟨d, (p.1, resum (withMark true p).2 b t), b⟩ :: ⟨d, withSum g (withMark false s), a⟩ :: fs) :=
      holds_child.2 (holds_child.2 hh₃)
    refine (sibling_runs hway hn).mono ?_
    rintro _ _ ⟨rfl, rfl⟩
    refine ⟨_, _, rfl, ⟨hway, rfl, around_turn rfl rfl, (hrest.cons ha).cons hb, rootMark_black hblack⟩, fun hp => ?_,
      fun hp => ?_⟩
    · cases hp
    · cases hp
  · have hb : markOf u = false := by simpa using hmark
    rw [hb]
    exact Runs.pure ⟨_, _, rfl, ⟨hh, rfl, rfl, hfs, hblack⟩, fun _ => rfl, fun _ => hb⟩

theorem turnNear_runs (hh : Holds h t (⟨d, p, branch d.other x a (branch d y s b)⟩ :: fs)) (ha : Summed a)
    (hb : Summed b) : Runs (do
        rotate y.1
        setMark true x.1
        let s' ← deref (← load x.1).parent
        setMark false s'
        return s') h fun q h' => ∃ z u, q = z.1 ∧ z.2.mark = false ∧
      Holds h' t (⟨d, p, branch d.other z u s⟩ :: fs) ∧ u ≠ .nil ∧ Summed u ∧
      entries (branch d.other z u s) = entries (branch d.other x a (branch d y s b)) := by
  have hsib := holds_sibling.1 hh
  rw [branch_other] at hsib
  have hnear : Holds h (branch d y s b) (⟨d, x, a⟩ :: ⟨d.other, p, t⟩ :: fs) := holds_child.2 hsib
  refine (rotate_runs hnear).bind ?_
  rintro _ h₁ ⟨g, hh₁⟩
  rw [← branch_other] at hh₁
  have hdown : Holds h₁ (branch d (x.1, resum x.2 b a) b a) (⟨d.other, withSum g y, s⟩ :: ⟨d.other, p, t⟩ :: fs) :=
    holds_child.2 hh₁
  refine setMark_bind (x := (x.1, resum x.2 b a)) true hdown fun h₂ hh₂ => ?_
  refine load_bind hh₂.cell_of_branch ?_
  rw [Cell.along_parent]
  refine deref_bind (setMark_bind (x := withSum g y) false (holds_child.1 hh₂) fun h₃ hh₃ => Runs.pure ?_)
  refine ⟨withMark false (withSum g y), _, rfl, rfl, holds_sibling.2 hh₃, ?_, (hb.resum ha).withMark true, ?_⟩
  · cases d <;> simp [branch]
  · cases d <;> simp [branch, Side.other, entry, withMark, withSum, resum]

section

variable (hh : Holds h t (⟨d, p, branch d.other x a b⟩ :: fs)) (hn : ptr t = some n) (ha : Summed a)

include hh hn ha

theorem straighten_runs
    (hb : Summed b) (hred : (markOf a || markOf b) = true) : Runs (straighten n p.1 x.1) h fun q h' => ∃ z u v,
      q = z.1 ∧ (x.2.mark = false → z.2.mark = false) ∧ Holds h' t (⟨d, p, branch d.other z u v⟩ :: fs) ∧ u ≠ .nil ∧
      Summed u ∧ Summed v ∧ entries (branch d.other z u v) = entries (branch d.other x a b) := by
  have hne := hh.ptr_sibling_ne (occ_of_ptr hn)
  rw [ptr_branch] at hne
  have hparent := hh.cell_of_parent
  rw [hn, ptr_branch] at hparent
  have hsib := hh.path.2.1
  obtain ⟨hcell, hra, hrb⟩ := rep_branch.1 hsib
  refine load_bind hparent (load_bind hcell ?_)
  -- what is done on either side, where `a` is the child away from the node
  have hturn : Runs (if markOf a = false then do
        rotate (← deref (ptr b))
        setMark true x.1
        let s' ← deref (← load x.1).parent
        setMark false s'
        return s'
      else return x.1) h fun q h' => ∃ z u v, q = z.1 ∧ (x.2.mark = false → z.2.mark = false) ∧
        Holds h' t (⟨d, p, branch d.other z u v⟩ :: fs) ∧ u ≠ .nil ∧ Summed u ∧ Summed v ∧
        entries (branch d.other z u v) = entries (branch d.other x a b) := by
    split_ifs with hfar
    · rw [hfar, Bool.false_or] at hred
      obtain ⟨q, hq⟩ := exists_ptr_of_red hred
      obtain ⟨y, s, v, rfl, -⟩ := exists_branch d b hq
      obtain ⟨hs, hv⟩ := hb.of_branch
      rw [ptr_branch]
      refine deref_bind ((turnNear_runs hh ha hv).mono ?_)
      rintro _ h' ⟨z, u, rfl, hz, hh', hu, hsum, heq⟩
      exact ⟨z, u, s, rfl, fun _ => hz, hh', hu, hsum, hs, heq⟩
    · refine Runs.pure ⟨x, a, b, rfl, fun hx => hx, hh, ?_, ha, hb, rfl⟩
      rintro rfl
      exact hfar rfl
  cases d with
  | left =>
    refine nullOrBlack_bind hrb (nullOrBlack_bind hra ?_)
    simpa only [Cell.along, Side.other, true_and, hne, false_and, if_false, Bool.not_eq_true'] using hturn
  | right =>
    refine nullOrBlack_bind hra (nullOrBlack_bind hrb ?_)
    simpa only [Cell.along, Side.other, true_and, hne, false_and, if_false, Bool.not_eq_true'] using hturn

omit [AddCommMonoid K] hh hn ha in
theorem blackenChildren_runs {l r : Shape (NodeData κ K)} (hh : Holds h (.node x l r) fs) (hl : l ≠ .nil)
    (hr : r ≠ .nil) : Runs (do
        let cs ← load x.1
        setMark false (← deref cs.left)
        setMark false (← deref cs.right)) h fun _ h' => Holds h' (.node x (blacken l) (blacken r)) fs := by
  refine load_bind hh.cell ?_
  cases l with
  | nil => exact absurd rfl hl
  | node y ll lr =>
    have hleft : Holds h (.node y ll lr) (⟨.left, x, r⟩ :: fs) := holds_child.2 hh
    refine deref_bind (setMark_bind (d := .left) false hleft fun h₁ hh₁ => ?_)
    cases r with
    | nil => exact absurd rfl hr
    | node z rl rr =>
      have hright : Holds h₁ (.node z rl rr) (⟨.right, x, .node (withMark false y) ll lr⟩ :: fs) := holds_sibling.1 hh₁
      exact deref_bind (setMark_runs (d := .left) false hright fun h₂ hh₂ => holds_child.1 hh₂)

/-- The sibling comes up, in the colour of the parent. -/
theorem turnSibling_runs
    (hb : Summed b) (hred : (markOf a || markOf b) = true) (hfs : PathSummed fs) (hblack : rootMark p.2.mark fs = false)
    (hx : fs = [] → x.2.mark = false) : Runs (turnSibling n p.1 x.1) h fun _ h' => ∃ f' fs',
      Turned h' t ⟨d, p, branch d.other x a b⟩ fs f' fs' := by
  refine (straighten_runs hh hn ha hb hred).bind ?_
  rintro _ h₁ ⟨z, u, v, rfl, hz, hh₁, hne, hu, hv, heq⟩
  refine (rotate_runs (holds_sibling.1 hh₁)).bind ?_
  rintro _ h₂ ⟨g, hh₂⟩
  have hlow := (rep_branch.1 (rep_branch.1 hh₂.rep).2.2).1
  refine load_bind hlow ?_
  rw [Cell.along_data]
  -- the sibling takes over the colour
  have hcolour : Runs (if (resum p.2 v t).mark then setMark true z.1 else return ()) h₂ fun _ h' => ∃ y, y.1 = z.1 ∧
      entry y = entry z ∧ (p.2.mark = false → y.2.mark = z.2.mark) ∧
      Holds h' (branch d.other y u (branch d.other (p.1, resum p.2 v t) v t)) fs := by
    split_ifs with hp
    · refine setMark_runs (x := withSum g z) true hh₂ fun h₃ hh₃ =>
        ⟨withMark true (withSum g z), rfl, rfl, fun hb => ?_, hh₃⟩
      exact absurd hp (by rw [show (resum p.2 v t).mark = p.2.mark from rfl, hb]; exact Bool.false_ne_true)
    · exact Runs.pure ⟨withSum g z, rfl, rfl, fun _ => rfl, hh₂⟩
  refine hcolour.bind ?_
  rintro _ h₃ ⟨y, haddr, hentry, hmark, hh₃⟩
  rw [← haddr]
  have hlast : Runs (do
      let cs ← load y.1
      setMark false (← deref cs.left)
      setMark false (← deref cs.right)) h₃ fun _ h' =>
        Holds h' (branch d.other y (blacken u) (branch d.other (withMark false (p.1, resum p.2 v t)) v t)) fs := by
    cases d with
    | left => exact blackenChildren_runs hh₃ (by simp [branch, Side.other]) hne
    | right => exact blackenChildren_runs hh₃ hne (by simp [branch, Side.other])
  refine hlast.mono fun _ h₄ hh₄ => ?_
  rw [branch_other, branch_other] at hh₄
  refine ⟨⟨d, withMark false (p.1, resum p.2 v t), v⟩, ⟨d, y, blacken u⟩ :: fs,
    holds_child.2 (holds_child.2 hh₄), rfl, ?_, (hfs.cons hu.blacken).cons hv, ?_⟩
  · have hentries : entries (branch d.other z (blacken u) v) = entries (branch d.other x a b) :=
      (entries_branch_congr _ rfl (entries_blacken u) rfl).trans heq
    exact Eq.trans (around_turn rfl hentry) (around_frame rfl hentries)
  · cases fs with
    | nil => exact (hmark hblack).trans (hz (hx rfl))
    | cons f fs => exact hblack

end

/-- Fuel is needed for the nodes above, unless the node is red. -/
theorem lengthen_runs {fuel : Nat} (hh : Holds h (branch d x s t) fs) (hfs : PathSummed fs)
    (hblack : rootMark false fs = false) (hpos : 0 < fuel) (hfuel : x.2.mark = false → fs.length < fuel) :
    Runs (lengthen fuel x.1) h fun _ h' => ∃ m fs', Holds h' (branch d (withMark m x) s t) fs' ∧ PathSummed fs' ∧
      up fs' = up fs ∧ around (branch d x s t) fs' = around (branch d x s t) fs ∧ rootMark m fs' = false := by
  induction fuel generalizing h d x s t fs with
  | zero => exact absurd hpos (lt_irrefl 0)
  | succ fuel ih =>
    refine load_bind hh.cell_of_branch ?_
    rw [Cell.along_data, Cell.along_parent]
    by_cases hx : x.2.mark = true
    · rw [if_pos hx]
      exact setMark_runs false hh fun h' hh' => ⟨false, fs, hh', hfs, rfl, rfl, hblack⟩
    rw [if_neg hx]
    match fs with
    | [] => exact Runs.pure ⟨x.2.mark, [], hh, hfs, rfl, rfl, by simpa [rootMark] using hx⟩
    | f :: fs =>
      have hlen : fs.length < fuel := by grind
      refine (blackSibling_runs hh (ptr_branch ..) hfs hblack).bind ?_
      rintro _ h₁ ⟨⟨d', p, u⟩, fs', rfl, hturn, hcount, hroot⟩
      obtain ⟨hu, hrest⟩ := hturn.path.of_cons
      have haddr : some p.1 = up (f :: fs) := congrArg some hturn.parent
      have hentries := hturn.around_eq
      rw [← show p.1 = f.node.1 from hturn.parent]
      -- the parent, beside which the colour of the sibling may have been changed
      have hup : ∀ h₂ u', Summed u' → entries u' = entries u → Holds h₂ (branch d x s t) (⟨d', p, u'⟩ :: fs') →
          Runs (lengthen fuel p.1) h₂ fun _ h' => ∃ m gs, Holds h' (branch d (withMark m x) s t) gs ∧ PathSummed gs ∧
            up gs = up (f :: fs) ∧ around (branch d x s t) gs = around (branch d x s t) (f :: fs) ∧
            rootMark m gs = false := by
        intro h₂ u' hu' heq hh₂
        refine (ih (holds_child.1 hh₂) hrest (rootMark_black hturn.black) (by omega) fun hp => ?_).mono ?_
        · grind
        · rintro _ h₃ ⟨m, gs, hh₃, hgs, -, haround, hm⟩
          refine ⟨x.2.mark, ⟨d', withMark m p, u'⟩ :: gs, holds_child.2 hh₃, hgs.cons hu', haddr, ?_, hm⟩
          calc around (branch d x s t) (⟨d', withMark m p, u'⟩ :: gs)
              = around (branch d x s t) (⟨d', p, u'⟩ :: gs) := around_frame rfl rfl
            _ = around (branch d x s t) (⟨d', p, u'⟩ :: fs') := by rw [around_child, haround, around_child]
            _ = around (branch d x s t) (⟨d', p, u⟩ :: fs') := around_frame rfl heq
            _ = around (branch d x s t) (f :: fs) := hentries
      cases u with
      | nil => exact hup h₁ .nil trivial rfl hturn.holds
      | node y l r =>
        have hsib : Holds h₁ (.node y l r) (⟨d'.other, p, branch d x s t⟩ :: fs') := holds_sibling.1 hturn.holds
        have hmarked : ∀ h₂, Holds h₂ (.node (withMark true y) l r) (⟨d'.other, p, branch d x s t⟩ :: fs') →
            Holds h₂ (branch d x s t) (⟨d', p, .node (withMark true y) l r⟩ :: fs') := fun _ hh₂ => holds_sibling.2 hh₂
        refine load_bind hsib.cell (nullOrBlack_bind hsib.rep.2.1 (nullOrBlack_bind hsib.rep.2.2 ?_))
        by_cases hred : (markOf l || markOf r) = true
        · have hcond : (!markOf l && !markOf r) = false := by rw [← Bool.not_or, hred]; rfl
          rw [hcond, if_neg Bool.false_ne_true]
          obtain ⟨a, b, hab, ha, hb, hor⟩ : ∃ a b, (.node y l r : Shape (NodeData κ K)) = branch d'.other y a b ∧
              Summed a ∧ Summed b ∧ (markOf a || markOf b) = true := by
            cases d' with
            | left => exact ⟨r, l, rfl, hu.2.2, hu.2.1, by rwa [Bool.or_comm]⟩
            | right => exact ⟨l, r, rfl, hu.2.1, hu.2.2, hred⟩
          have hholds := hturn.holds
          rw [hab] at hholds hentries
          refine (turnSibling_runs hholds (ptr_branch ..) ha hb hor hrest hturn.black hroot).mono ?_
          rintro _ h₂ ⟨f', gs, hturn₂⟩
          exact ⟨x.2.mark, f' :: gs, hturn₂.holds, hturn₂.path, haddr ▸ congrArg some hturn₂.parent,
            hturn₂.around_eq.trans hentries, hturn₂.black⟩
        · have hcond : (!markOf l && !markOf r) = true := by rw [← Bool.not_or, Bool.eq_false_iff.2 hred]; rfl
          rw [hcond, if_pos rfl]
          refine load_bind hturn.holds.cell_of_parent ?_
          rw [Cell.along_data]
          by_cases hp : p.2.mark = true
          · rw [if_pos hp]
            refine setMark_bind (d := .left) true hsib fun h₂ hh₂ => ?_
            refine setMark_runs false (holds_child.1 (hmarked h₂ hh₂)) fun h₃ hh₃ => ?_
            refine ⟨x.2.mark, ⟨d', withMark false p, .node (withMark true y) l r⟩ :: fs', holds_child.2 hh₃,
              hrest.cons hu, haddr, ?_, rootMark_black hturn.black⟩
            rw [← hentries]
            exact around_frame rfl rfl
          · rw [if_neg hp]
            exact setMark_bind (d := .left) true hsib fun h₂ hh₂ =>
              hup h₂ (.node (withMark true y) l r) hu rfl (hmarked h₂ hh₂)

end S2E.Klee.DiscretePDF
