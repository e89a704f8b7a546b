import S2E.Klee.ADT.DiscretePDF.Insert
import S2E.Klee.ADT.DiscretePDF.Lengthen

/-!
# `DiscretePDF::lookup`, `update` and `remove`

* `Focused h L t fs` : a valid tree with the entries `L`, seen from a subtree;
* `lookup_runs` : the place of the item, where its node is or would be;
* `update_runs` : the weight of the item is changed;
* `unlink_runs`, `prune_runs` : a node with one subtree at most leaves the tree;
* `remove_runs` : the item is removed. If its node has a left subtree, the last node of that one leaves, and its item and
  weight move.
-/

namespace S2E.Klee.DiscretePDF

open Lib Lib.ParentTree List

variable {κ K : Type} [LinearOrder κ] [AddCommMonoid K]

structure Focused (h : PDF κ K) (L : List (Entry κ K)) (t : Shape (NodeData κ K)) (fs : List (Frame (NodeData κ K))) :
    Prop where
  holds : Holds h t fs
  summed : Summed t
  path : PathSummed fs
  black : rootMark (markOf t) fs = false
  around_eq : around t fs = L

section Lookup

variable {item : κ} {weight : K} {d : Side} {x : Nat × NodeData κ K} {s t l r : Shape (NodeData κ K)}
  {fs : List (Frame (NodeData κ K))} {h : PDF κ K} {L : List (Entry κ K)}

omit [LinearOrder κ] in
theorem Focused.child (hf : Focused h L (branch d x s t) fs) : Focused h L s (⟨d, x, t⟩ :: fs) := by
  obtain ⟨hs, ht⟩ := hf.summed.of_branch
  refine ⟨holds_child.2 hf.holds, hs, hf.path.cons ht, ?_, (around_child ..).trans hf.around_eq⟩
  have := hf.black
  rwa [markOf_branch] at this

theorem Valid.focused (hv : Valid h t) : Focused h (entries t) t [] :=
  ⟨hv.holds, hv.summed, fun _ hf => absurd hf not_mem_nil, hv.black, around_nil t⟩

theorem lookupFrom_runs {fuel : Nat} (hf : Focused h L t fs) (hsorted : Sorted L)
    (hbefore : ∀ e ∈ before fs, e.2.1 < item) (hafter : ∀ e ∈ after fs, item < e.2.1) (hfuel : t.numNodes < fuel) :
    Runs (lookupFrom item fuel (slotOf fs)) h fun np h' => h' = h ∧ ∃ t' fs', np = slotOf fs' ∧ Focused h L t' fs' ∧
      (t' = .nil ∧ (∀ e ∈ L, e.2.1 ≠ item) ∨ ∃ x l r, t' = .node x l r ∧ x.2.key = item) := by
  induction fuel generalizing t fs with
  | zero => omega
  | succ fuel ih =>
    refine readSlot_bind hf.holds ?_
    cases t with
    | nil =>
      refine Runs.pure ⟨rfl, .nil, fs, rfl, hf, .inl ⟨rfl, fun e he => ?_⟩⟩
      rw [← hf.around_eq, around] at he
      rcases mem_append.1 he with he | he
      · exact (hbefore e he).ne
      · exact (hafter e he).ne'
    | node x l r =>
      refine load_bind hf.holds.cell ?_
      by_cases hkey : x.2.key = item
      · rw [if_pos hkey]
        exact Runs.pure ⟨rfl, _, fs, rfl, hf, .inr ⟨x, l, r, rfl, hkey⟩⟩
      rw [if_neg hkey]
      rw [BinaryTree.numNodes] at hfuel
      have hsplit := hsorted
      rw [← hf.around_eq, around_node] at hsplit
      by_cases hside : item < x.2.key
      · rw [if_pos hside]
        refine ih (Focused.child (d := .left) hf) hbefore (fun e he => ?_) (by omega)
        rcases mem_cons.1 he with rfl | he
        · exact hside
        · exact hside.trans (hsplit.lt_of_append he)
      · have hgt : x.2.key < item := lt_of_le_of_ne (not_lt.1 hside) hkey
        rw [if_neg hside]
        refine ih (Focused.child (d := .right) hf) (fun e he => ?_) hafter (by omega)
        rw [before, ← append_assoc] at he
        rcases mem_append.1 he with he | he
        · exact (hsplit.lt_of_mem_append he).trans hgt
        · obtain rfl := mem_singleton.1 he
          exact hgt

theorem lookup_runs (hv : Valid h t) (item : κ) : Runs (lookup item) h fun np h' => h' = h ∧ ∃ t' fs', np = slotOf fs' ∧
    Focused h (entries t) t' fs' ∧
    (t' = .nil ∧ (∀ e ∈ entries t, e.2.1 ≠ item) ∨ ∃ x l r, t' = .node x l r ∧ x.2.key = item) := by
  refine Runs.get_bind (lookupFrom_runs hv.focused hv.sorted (fun e he => by cases he) (fun e he => by cases he) ?_)
  have := hv.holds.length_le
  omega

end Lookup

def weights (t : Shape (NodeData κ K)) : List (κ × K) := (entries t).map (·.2)

section Update

variable {item : κ} {weight : K} {t : Shape (NodeData κ K)} {h : PDF κ K}

omit [AddCommMonoid K] in
theorem Sorted.of_sublist {L L' : List (Entry κ K)} (hs : Sorted L) (hsub : (L'.map (·.2.1)).Sublist (L.map (·.2.1))) :
    Sorted L' := by
  have hmap : (L.map (·.2.1)).Pairwise (· < ·) := pairwise_map.2 hs
  exact pairwise_map.1 (hmap.sublist hsub)

/-- What `inTree`, `update` and `remove` begin with. -/
theorem lookup_outcome {γ : Type} {g : Slot → Ptr → PdfM κ K γ} {R : γ × PDF κ K → Prop} {E : Fault → Prop}
    (hv : Valid h t) (habsent : (∀ e ∈ entries t, e.2.1 ≠ item) → ∀ np, Outcome ((g np none).run h) R E)
    (hpresent : ∀ x l r fs, Focused h (entries t) (.node x l r) fs → x.2.key = item →
      Outcome ((g (slotOf fs) (some x.1)).run h) R E) :
    Outcome ((do let np ← lookup item; let n ← readSlot np; g np n).run h) R E := by
  refine (lookup_runs hv item).outcome_bind ?_
  rintro _ _ ⟨rfl, t', fs, rfl, hf, hitem⟩
  refine (readSlot_runs hf.holds).outcome_bind ?_
  rintro _ _ ⟨rfl, rfl⟩
  rcases hitem with ⟨rfl, hno⟩ | ⟨x, l, r, rfl, hkey⟩
  · exact habsent hno _
  · exact hpresent x l r fs hf hkey

theorem update_runs (hv : Valid h t) : Outcome ((update item weight).run h) (fun p => ∃ t' L w R, Valid p.2 t' ∧
      weights t = L ++ (item, w) :: R ∧ weights t' = L ++ (item, weight) :: R)
    fun e => e = .assertFailed ∧ ∀ e ∈ entries t, e.2.1 ≠ item := by
  refine lookup_outcome hv (fun hno _ => ⟨rfl, hno⟩) fun x l r fs hf hkey => ?_
  have hset := Holds.setData (d := .left) hf.holds { x.2 with weight := weight }
  have hrun : Runs (do
      ParentTree.update x.1 fun c => { c with data := { c.data with weight := weight } }
      propogateSumsUp ((← get).next) (some x.1)) h fun _ h' => ∃ t', Holds h' t' [] ∧ Summed t' ∧
        entries t' = around (.node (x.1, { x.2 with weight := weight }) l r) fs ∧ markOf t' = rootMark x.2.mark fs := by
    refine update_bind hf.holds.cell (Runs.get_bind ?_)
    refine propogateSumsUp_node_runs hset hf.summed.2.1 hf.summed.2.2 hf.path ?_
    have := hf.holds.length_le
    rw [BinaryTree.numNodes] at this
    exact (by omega : fs.length < h.next)
  refine hrun.outcome ?_
  rintro _ h' ⟨t', hh', ht', hentries, hmark⟩
  have hold := hf.around_eq
  rw [around_node] at hold hentries
  refine ⟨t', (before fs ++ entries l).map (·.2), x.2.weight, (entries r ++ after fs).map (·.2),
    ⟨hh', ht', hmark.trans hf.black, hv.sorted.of_sublist ?_⟩, ?_, ?_⟩
  · rw [hentries, ← hold]
    simp [entry]
  · rw [weights, ← hold, ← hkey]
    simp [entry]
  · rw [weights, hentries, ← hkey]
    simp [entry]

end Update

/-! ## The last node of a subtree -/

section LeftMax

variable {x : Nat × NodeData κ K} {t : Shape (NodeData κ K)} {f : Frame (NodeData κ K)}
  {fs gs : List (Frame (NodeData κ K))} {h : PDF κ K}

omit [LinearOrder κ] in
theorem Summed.of_plug (ht : Summed (plug t gs)) : Summed t ∧ PathSummed gs := by
  induction gs generalizing t with
  | nil => exact ⟨ht, fun _ hf => absurd hf not_mem_nil⟩
  | cons f gs ih =>
    obtain ⟨hb, hgs⟩ := ih ht
    exact ⟨hb.of_branch.1, hgs.cons hb.of_branch.2⟩

omit [LinearOrder κ] in
theorem PathSummed.append (hgs : PathSummed gs) (hfs : PathSummed fs) : PathSummed (gs ++ fs) :=
  forall_mem_append.2 ⟨hgs, hfs⟩

section

omit [LinearOrder κ] [AddCommMonoid K]

theorem entries_plug (t : Shape (NodeData κ K)) (gs : List (Frame (NodeData κ K))) :
    entries (plug t gs) = around t gs := by
  induction gs generalizing t with
  | nil => exact (around_nil t).symm
  | cons f gs ih => rw [plug, ih, ← around_child]

theorem around_append (t : Shape (NodeData κ K)) : around t (gs ++ fs) = around (plug t gs) fs := by
  induction gs generalizing t with
  | nil => rfl
  | cons f gs ih => rw [cons_append, around_child, ih, plug]

theorem rootMark_append (m : Bool) : rootMark m (gs ++ f :: fs) = rootMark f.node.2.mark fs := by
  induction gs generalizing m with
  | nil => rfl
  | cons g gs ih => exact ih _

theorem after_right (hgs : ∀ g ∈ gs, g.side = .right) : after gs = [] := by
  induction gs with
  | nil => rfl
  | cons g gs ih =>
    obtain ⟨hg, hrest⟩ := forall_mem_cons.1 hgs
    obtain ⟨d, x, s⟩ := g
    obtain rfl : d = .right := hg
    exact ih hrest

theorem leftMax_runs {fuel : Nat} (hh : Holds h t fs) (ht : t ≠ .nil) (hfuel : t.numNodes < fuel) :
    Runs (leftMax fuel (slotOf fs)) h fun np h' => h' = h ∧ ∃ y a gs, t = plug (.node y a .nil) gs ∧
      (∀ g ∈ gs, g.side = .right) ∧ np = slotOf (gs ++ fs) := by
  induction fuel generalizing t fs with
  | zero => omega
  | succ fuel ih =>
    refine readSlot_bind hh ?_
    cases t with
    | nil => exact absurd rfl ht
    | node x l r =>
      refine deref_bind (load_bind hh.cell ?_)
      cases r with
      | nil => exact Runs.pure ⟨rfl, x, l, [], rfl, fun _ hg => absurd hg not_mem_nil, rfl⟩
      | node z rl rr =>
        have hright : Holds h (.node z rl rr) (⟨.right, x, l⟩ :: fs) := holds_child.2 hh
        rw [BinaryTree.numNodes] at hfuel
        refine (ih hright (by simp) (by omega)).mono ?_
        rintro _ _ ⟨rfl, y, a, gs, hplug, hgs, rfl⟩
        refine ⟨rfl, y, a, gs ++ [⟨.right, x, l⟩], ?_, ?_, by rw [append_assoc]; rfl⟩
        · rw [hplug, plug_append]
          rfl
        · intro g hg
          rcases mem_append.1 hg with hg | hg
          · exact hgs g hg
          · rw [mem_singleton.1 hg]

end

end LeftMax

/-! ## A node leaves the tree -/

section Remove

variable {item : κ} {d : Side} {x : Nat × NodeData κ K} {s t l r : Shape (NodeData κ K)}
  {fs : List (Frame (NodeData κ K))} {h : PDF κ K} {L : List (Entry κ K)}

section

variable (hh : Holds h (branch d x s .nil) fs) (hs : Summed s) (hfs : PathSummed fs)

include hh hs hfs

omit [LinearOrder κ] in
theorem unlink_runs
    (hblack : rootMark x.2.mark fs = false) : Runs (unlink (slotOf fs) x.1) h fun _ h' => ∃ t' fs', Holds h' t' fs' ∧
      Summed t' ∧ PathSummed fs' ∧ up fs' = up fs ∧ around t' fs' = around s fs ∧ rootMark (markOf t') fs' = false ∧
      occ x.1 t' + occPath x.1 fs' = 0 := by
  refine load_bind hh.cell_of_branch ?_
  have hchild : (if (Cell.along d (up fs) (ptr s) none x.2).left = none then
      (Cell.along d (up fs) (ptr s) none x.2).right else (Cell.along d (up fs) (ptr s) none x.2).left) = ptr s := by
    cases d with
    | left => cases s <;> simp [Cell.along]
    | right => simp only [Cell.along, if_true]
  rw [ptr_nil, hchild, Cell.along_parent, Cell.along_data]
  refine (writeSlot_runs (ptr s) hh).bind fun _ h₁ hh₁ => ?_
  cases s with
  | nil =>
    obtain ⟨hh₂, hgone⟩ := hh₁.splice trivial (fun _ _ => rfl) rfl rfl
    exact Runs.pure ⟨.nil, fs, hh₂, trivial, hfs, rfl, rfl, rootMark_black hblack, hgone⟩
  | node y l r =>
    have honce : ∀ a, occ a (.node y l r) ≤ 1 := by
      intro a
      have := hh₁.once a
      rw [occ_branch] at this
      omega
    refine (setParent_runs (up fs) (rep_branch.1 hh₁.rep).2.1 honce).bind ?_
    rintro _ h₂ ⟨hrep, hsame, hroot, hnext⟩
    obtain ⟨hh₂, hgone⟩ := hh₁.splice hrep hsame hroot hnext
    by_cases hx : x.2.mark = true
    · rw [if_pos hx]
      refine Runs.pure ⟨.node y l r, fs, hh₂, hs, hfs, rfl, rfl, ?_, hgone⟩
      cases fs with
      | nil => exact absurd hblack (by rw [rootMark, hx]; exact Bool.noConfusion)
      | cons f fs => exact hblack
    · rw [if_neg hx]
      refine Runs.get_bind ?_
      have hlen := HoldsAt.length_le hh₂
      refine (lengthen_runs (d := .left) hh₂ hfs (rootMark_black hblack) (Nat.succ_pos _) fun _ => by omega).mono ?_
      rintro _ h₃ ⟨m, fs', hh₃, hfs', hup, haround, hm⟩
      refine ⟨_, fs', hh₃, Summed.withMark (d := .left) hs m, hfs', hup, haround, hm, ?_⟩
      rw [← hgone]
      exact occ_eq_of_around x.1 haround

omit [LinearOrder κ] in
theorem prune_runs (hblack : rootMark x.2.mark fs = false) : Runs (do
        unlink (slotOf fs) x.1
        propogateSumsUp ((← get).next) (up fs)
        free x.1) h fun _ h' => ∃ t', Holds h' t' [] ∧ Summed t' ∧ markOf t' = false ∧ entries t' = around s fs := by
  refine (unlink_runs hh hs hfs hblack).bind ?_
  rintro _ h₁ ⟨t₁, fs₁, hh₁, ht₁, hfs₁, hup, haround, hmark, hgone⟩
  refine Runs.get_bind ?_
  have hlen := hh₁.length_le
  rw [← hup]
  refine (propogateSumsUp_runs hh₁ ht₁ hfs₁ (by omega)).bind ?_
  rintro _ h₂ ⟨t₂, hh₂, ht₂, hentries, hmark₂⟩
  have hunused : occ x.1 t₂ + occPath x.1 ([] : List (Frame (NodeData κ K))) = 0 := by
    rw [← hgone]
    exact occ_eq_of_around x.1 ((around_nil t₂).trans hentries)
  exact (free_runs hh₂ hunused).mono fun _ h₃ hh₃ => ⟨t₂, hh₃, ht₂, hmark₂.trans hmark, hentries.trans haround⟩

end

/-- A node with the item and weight of another. -/
def takeItem (x y : Nat × NodeData κ K) : Nat × NodeData κ K := (x.1, { x.2 with key := y.2.key, weight := y.2.weight })

omit [LinearOrder κ] in
/-- The node of the item has a left subtree: the item and the weight of the last node of that one move up. -/
theorem removeInner_runs (hf : Focused h L (.node x l r) fs) (hl : l ≠ .nil) : Runs (do
        let leftMaxp ← leftMax ((← get).next + 1) (.left x.1)
        let m ← deref (← readSlot leftMaxp)
        let cm ← load m
        ParentTree.update x.1 fun c => { c with data := { c.data with key := cm.data.key, weight := cm.data.weight } }
        unlink leftMaxp m
        propogateSumsUp ((← get).next) cm.parent
        free m) h
      fun _ h' => ∃ t' A y B, Holds h' t' [] ∧ Summed t' ∧ markOf t' = false ∧ L = A ++ entry y :: entry x :: B ∧
        entries t' = A ++ (x.1, y.2.key, y.2.weight) :: B := by
  have hleft := Focused.child (d := .left) hf
  have hlen := hleft.holds.length_le
  refine Runs.get_bind ((leftMax_runs hleft.holds hl (by omega)).bind ?_)
  rintro _ _ ⟨rfl, y, a, gs, rfl, hgs, rfl⟩
  obtain ⟨hy, hpath⟩ := hleft.summed.of_plug
  have hlow := holds_plug.2 hleft.holds
  refine readSlot_bind hlow (deref_bind (load_bind hlow.cell (update_bind hf.holds.cell ?_)))
  have hset := Holds.setData (d := .left) hf.holds (takeItem x y).2
  -- the way down to the last node, past the changed one
  have hway : Holds _ (.node y a .nil) (gs ++ ⟨.left, takeItem x y, r⟩ :: fs) := holds_plug.2 (holds_child.2 hset)
  have hsums : PathSummed (gs ++ ⟨.left, takeItem x y, r⟩ :: fs) := hpath.append (hf.path.cons hf.summed.2.2)
  have hslot : slotOf (gs ++ ⟨.left, x, r⟩ :: fs) = slotOf (gs ++ ⟨.left, takeItem x y, r⟩ :: fs) :=
    slotOf_append _ _ gs rfl rfl
  have hup : up (gs ++ ⟨.left, x, r⟩ :: fs) = up (gs ++ ⟨.left, takeItem x y, r⟩ :: fs) := up_append _ _ gs rfl
  rw [hslot, hup]
  refine (prune_runs (d := .left) hway hy.2.1 hsums ?_).mono ?_
  · rw [rootMark_append]
    exact hf.black
  · rintro _ h' ⟨t', hh', ht', hmark, hentries⟩
    refine ⟨t', before fs ++ (before gs ++ entries a), y, entries r ++ after fs, hh', ht', hmark, ?_, ?_⟩
    · rw [← hf.around_eq, around_node, entries_plug, around, after_right hgs]
      simp
    · rw [hentries, around_append, around_child]
      simp only [branch]
      rw [around_node, entries_plug, around, after_right hgs]
      simp [entry, takeItem]

theorem remove_runs (hv : Valid h t) : Outcome ((remove item).run h) (fun p => ∃ t' L w R, Valid p.2 t' ∧
      weights t = L ++ (item, w) :: R ∧ weights t' = L ++ R)
    fun e => e = .assertFailed ∧ ∀ e ∈ entries t, e.2.1 ≠ item := by
  refine lookup_outcome hv (fun hno _ => ⟨rfl, hno⟩) fun x l r fs hf hkey => ?_
  refine load_outcome hf.holds.cell ?_
  have hold := hf.around_eq
  cases l with
  | nil =>
    refine (prune_runs (d := .right) hf.holds hf.summed.2.2 hf.path hf.black).outcome ?_
    rintro _ h' ⟨t', hh', ht', hmark, hentries⟩
    rw [around_node, entries_nil, append_nil] at hold
    refine ⟨t', (before fs).map (·.2), x.2.weight, (entries r ++ after fs).map (·.2),
      ⟨hh', ht', hmark, hv.sorted.of_sublist ?_⟩, ?_, ?_⟩
    · rw [hentries, ← hold, around]
      simp
    · rw [weights, ← hold, ← hkey]
      simp [entry]
    · rw [weights, hentries, around, map_append]
  | node z ll lr =>
    refine (removeInner_runs hf (by simp)).outcome ?_
    rintro _ h' ⟨t', A, y, B, hh', ht', hmark, hall, hentries⟩
    refine ⟨t', A.map (·.2) ++ [(y.2.key, y.2.weight)], x.2.weight, B.map (·.2),
      ⟨hh', ht', hmark, hv.sorted.of_sublist ?_⟩, ?_, ?_⟩
    · rw [hentries, hall]
      simp [entry]
    · rw [weights, hall, ← hkey]
      simp [entry]
    · rw [weights, hentries]
      simp

end Remove

end S2E.Klee.DiscretePDF
