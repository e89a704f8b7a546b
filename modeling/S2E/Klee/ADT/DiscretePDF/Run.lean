import Mathlib.Algebra.Order.Field.Rat
import S2E.Klee.ADT.DiscretePDF.Remove

/-!
# `DiscretePDF::choose`, and runs of operations

* `choose_runs` : the descent by the sums finds it;
* `Op`, `Op.exec`, `Op.apply` : the operations, in memory and on a map from items to weights;
* `runAll_agrees` : from the empty tree, every sequence of operations gives a valid tree with the entries of the map, or
  stops at an assertion where the map has no result.
-/

namespace S2E.Klee.DiscretePDF

open Lib Lib.ParentTree List Function

/-! ## The choice -/

section Choose

variable {κ K : Type} [CommRing K] [LinearOrder K] [IsStrictOrderedRing K]

/-- The interval of an item begins at the sum of the weights before it. It is closed if all weights are zero, half-open
otherwise. -/
def Chosen (L : List (κ × K)) (p : K) (k : κ) : Prop :=
  ∃ A w B, L = A ++ (k, w) :: B ∧ (A.map (·.2)).sum ≤ p * (L.map (·.2)).sum ∧
    p * (L.map (·.2)).sum ≤ (A.map (·.2)).sum + w ∧
    (0 < (L.map (·.2)).sum → p * (L.map (·.2)).sum < (A.map (·.2)).sum + w)

variable {x : Nat × NodeData κ K} {t l r : Shape (NodeData κ K)} {fs : List (Frame (NodeData κ K))} {h : PDF κ K}

omit [LinearOrder K] [IsStrictOrderedRing K] in
theorem total_eq_sum (t : Shape (NodeData κ K)) : total t = ((weights t).map (·.2)).sum := by
  rw [total, weights, map_map]
  rfl

omit [LinearOrder K] [IsStrictOrderedRing K] in
theorem total_of_ptr_none (ht : ptr t = none) : total t = 0 := by
  cases t with
  | nil => rfl
  | node x l r => cases ht

theorem chooseFrom_runs {fuel : Nat} {w : K} (hh : Holds h (.node x l r) fs) (ht : Summed (.node x l r)) (hw : 0 ≤ w)
    (hle : w ≤ total (.node x l r)) (hfuel : (BinaryTree.node x l r).numNodes ≤ fuel) :
    Runs (chooseFrom fuel w x.1) h fun k h' => h' = h ∧ ∃ A wk B, weights (.node x l r) = A ++ (k, wk) :: B ∧
      (A.map (·.2)).sum ≤ w ∧ w ≤ (A.map (·.2)).sum + wk ∧
      (w < total (.node x l r) → w < (A.map (·.2)).sum + wk) := by
  induction fuel generalizing x l r fs w with
  | zero => exact absurd hfuel (by simp [BinaryTree.numNodes])
  | succ fuel ih =>
    have hsum : total (.node x l r) = total l + (x.2.weight + total r) := total_node x l r
    have hweights : weights (.node x l r) = weights l ++ (x.2.key, x.2.weight) :: weights r := by simp [weights, entry]
    rw [BinaryTree.numNodes] at hfuel
    refine load_bind hh.cell (sumAt_bind hh.rep.2.1 ?_)
    rw [ht.2.1.storedSum_eq, hweights]
    by_cases hleft : ptr l ≠ none ∧ w < total l
    · rw [if_pos hleft]
      cases l with
      | nil => exact absurd rfl hleft.1
      | node y ll lr =>
        have hchild : Holds h (.node y ll lr) (⟨.left, x, r⟩ :: fs) := holds_child.2 hh
        refine deref_bind ((ih hchild ht.2.1 hw hleft.2.le (by omega)).mono ?_)
        rintro k _ ⟨rfl, A, wk, B, hsplit, hbegin, hend, hstrict⟩
        refine ⟨rfl, A, wk, B ++ (x.2.key, x.2.weight) :: weights r, ?_, hbegin, hend, fun _ => hstrict hleft.2⟩
        rw [hsplit, append_assoc, cons_append]
    · rw [if_neg hleft]
      have hrest : (if ptr l = none then w else w - total l) = w - total l ∧ total l ≤ w := by
        cases l with
        | nil => exact ⟨by simp [total], by simpa [total] using hw⟩
        | node y ll lr => exact ⟨rfl, not_lt.1 fun hlt => hleft ⟨by simp, hlt⟩⟩
      rw [hrest.1]
      have hskip := hrest.2
      have hbegin : ((weights l).map (·.2)).sum = total l := (total_eq_sum l).symm
      by_cases hhere : w - total l < x.2.weight ∨ ptr r = none
      · rw [if_pos hhere]
        refine Runs.pure ⟨rfl, weights l, x.2.weight, weights r, rfl, by rwa [hbegin], ?_, fun hlt => ?_⟩
        all_goals
          rw [hbegin]
          rcases hhere with hfound | hnone
        · linarith
        · linarith [total_of_ptr_none hnone]
        · linarith
        · linarith [total_of_ptr_none hnone]
      · rw [if_neg hhere]
        obtain ⟨hge, hright⟩ := not_or.1 hhere
        cases r with
        | nil => exact absurd rfl hright
        | node z rl rr =>
          have hchild : Holds h (.node z rl rr) (⟨.right, x, l⟩ :: fs) := holds_child.2 hh
          have hpos : 0 ≤ w - total l - x.2.weight := by linarith [not_lt.1 hge]
          refine deref_bind ((ih hchild ht.2.2 hpos (by linarith) (by omega)).mono ?_)
          rintro k _ ⟨rfl, A, wk, B, hsplit, hb, he, hstrict⟩
          have hsumA : ((weights l ++ (x.2.key, x.2.weight) :: A).map (·.2)).sum =
              total l + (x.2.weight + (A.map (·.2)).sum) := by
            rw [map_append, sum_append, hbegin, map_cons, sum_cons]
          refine ⟨rfl, weights l ++ (x.2.key, x.2.weight) :: A, wk, B, ?_, ?_, ?_, fun hlt => ?_⟩
          · rw [hsplit, append_assoc, cons_append]
          · rw [hsumA]
            linarith
          · rw [hsumA]
            linarith
          · rw [hsumA]
            linarith [hstrict (by linarith)]

theorem choose_runs {p : K} (hh : Holds h t []) (ht : Summed t) (hpos : ∀ e ∈ weights t, 0 ≤ e.2) (hne : t ≠ .nil)
    (hp : 0 ≤ p) (hp' : p < 1) : Runs (choose p) h fun k h' => h' = h ∧ Chosen (weights t) p k := by
  have htotal : 0 ≤ total t := by
    rw [total_eq_sum]
    exact sum_nonneg fun w hw => by
      obtain ⟨e, he, rfl⟩ := mem_map.1 hw
      exact hpos e he
  have hrange : ¬(p < 0 ∨ 1 ≤ p) := not_or.2 ⟨hp.not_gt, hp'.not_ge⟩
  have hroot : h.root = ptr t := hh.path
  unfold choose
  rw [if_neg hrange]
  refine Runs.get_bind ?_
  cases t with
  | nil => exact absurd rfl hne
  | node x l r =>
    rw [hroot]
    have hlen := hh.length_le
    refine load_bind hh.cell (Runs.get_bind ?_)
    have hsum : x.2.sumWeights = total (.node x l r) := ht.1
    rw [hsum, mul_comm]
    refine (chooseFrom_runs hh ht (mul_nonneg hp htotal) (mul_le_of_le_one_left htotal hp'.le) (by omega)).mono ?_
    rintro k _ ⟨rfl, A, w, B, hsplit, hbegin, hend, hstrict⟩
    rw [total_eq_sum] at hbegin hend hstrict
    refine ⟨rfl, A, w, B, hsplit, hbegin, hend, fun hpositive => hstrict ?_⟩
    exact mul_lt_of_lt_one_left hpositive hp'

theorem Chosen.pos {L : List (κ × K)} {p : K} {k : κ} (hc : Chosen L p k) (hpos : ∀ e ∈ L, 0 ≤ e.2)
    (hsome : ∃ e ∈ L, 0 < e.2) : ∃ w, (k, w) ∈ L ∧ 0 < w := by
  obtain ⟨A, w, B, rfl, hbegin, -, hstrict⟩ := hc
  have htotal : 0 < ((A ++ (k, w) :: B).map (·.2)).sum := by
    obtain ⟨e, he, hlt⟩ := hsome
    refine lt_of_lt_of_le hlt (single_le_sum (fun v hv => ?_) _ (mem_map_of_mem he))
    obtain ⟨e', he', rfl⟩ := mem_map.1 hv
    exact hpos e' he'
  exact ⟨w, by simp, by linarith [hstrict htotal]⟩

end Choose

/-! ## Operations -/

section Operations

variable {κ K : Type} [LinearOrder κ]

inductive Op (κ K : Type)
  | insert (item : κ) (weight : K)
  | remove (item : κ)
  | update (item : κ) (weight : K)
  | lookup (item : κ)

def Op.exec [Add K] [Zero K] : Op κ K → PdfM κ K Unit
  | .insert item weight => DiscretePDF.insert item weight
  | .remove item => DiscretePDF.remove item
  | .update item weight => DiscretePDF.update item weight
  | .lookup item => do
    let _ ← inTree item
    return ()

def runAll [Add K] [Zero K] : List (Op κ K) → PdfM κ K Unit
  | [] => return ()
  | op :: ops => do
    op.exec
    runAll ops

/-- What the operations do to the weights of the items: an item is inserted once, and removed or updated if it is there. -/
def Op.apply (M : κ → Option K) : Op κ K → Option (κ → Option K)
  | .insert item weight => if M item = none then some (Function.update M item (some weight)) else none
  | .remove item => if M item = none then none else some (Function.update M item none)
  | .update item weight => if M item = none then none else some (Function.update M item (some weight))
  | .lookup _ => some M

def applyAll (M : κ → Option K) : List (Op κ K) → Option (κ → Option K)
  | [] => some M
  | op :: ops => do applyAll (← op.apply M) ops

end Operations

section Agree

variable {κ K : Type} [LinearOrder κ] [AddCommMonoid K] {t t' : Shape (NodeData κ K)} {h : PDF κ K} {M : κ → Option K}
  {L R : List (κ × K)} {k : κ} {w w' : K}

/-- The tree has the entries of the map. -/
def Weighed (t : Shape (NodeData κ K)) (M : κ → Option K) : Prop := ∀ k w, (k, w) ∈ weights t ↔ M k = some w

section

omit [LinearOrder κ] [AddCommMonoid K]

theorem Weighed.eq_none_iff (hM : Weighed t M) : M k = none ↔ ∀ e ∈ weights t, e.1 ≠ k := by
  constructor
  · rintro hnone ⟨k', w⟩ he rfl
    rw [hM] at he
    cases hnone.symm.trans he
  · intro hall
    cases hk : M k with
    | none => rfl
    | some w => exact absurd rfl (hall (k, w) ((hM k w).2 hk))

theorem Weighed.eq_none_of_entries (hM : Weighed t M) (hall : ∀ e ∈ entries t, e.2.1 ≠ k) : M k = none := by
  refine hM.eq_none_iff.2 fun e he => ?_
  obtain ⟨e', he', rfl⟩ := mem_map.1 he
  exact hall e' he'

theorem mem_append_cons {e : κ × K} : e ∈ L ++ (k, w) :: R ↔ e ∈ L ++ R ∨ some e.2 = some w ∧ e.1 = k := by
  simp only [mem_append, mem_cons, Option.some.injEq, Prod.ext_iff]
  tauto

end

theorem Valid.ne_of_weights (hv : Valid h t) (hw : weights t = L ++ (k, w) :: R) : ∀ e ∈ L ++ R, e.1 ≠ k := by
  have hsorted : (weights t).Pairwise fun e e' => e.1 < e'.1 := pairwise_map.2 hv.sorted
  rw [hw] at hsorted
  obtain ⟨-, hR, hL⟩ := pairwise_append.1 hsorted
  intro e he
  rcases mem_append.1 he with he | he
  · exact (hL e he _ mem_cons_self).ne
  · exact ((pairwise_cons.1 hR).1 e he).ne'

omit [AddCommMonoid K] in
/-- The entry of one item is added, replaced or taken away. -/
theorem Weighed.change (hM : Weighed t M) (o : Option K) (hold : ∀ e, e ∈ weights t → e.1 ≠ k → e ∈ L ++ R)
    (hback : ∀ e ∈ L ++ R, e ∈ weights t ∧ e.1 ≠ k)
    (hnew : ∀ e, e ∈ weights t' ↔ e ∈ L ++ R ∨ some e.2 = o ∧ e.1 = k) : Weighed t' (Function.update M k o) := by
  intro k' w'
  rw [hnew]
  by_cases hk : k' = k
  · subst hk
    rw [update_self]
    constructor
    · rintro (he | ⟨ho, -⟩)
      · exact absurd rfl (hback _ he).2
      · exact ho.symm
    · exact fun ho => .inr ⟨ho.symm, rfl⟩
  · rw [update_of_ne hk, ← hM]
    constructor
    · rintro (he | ⟨-, heq⟩)
      · exact (hback _ he).1
      · exact absurd heq hk
    · exact fun he => .inl (hold _ he hk)

/-- Whether the operation agrees with the map. -/
def Agrees (op : Op κ K) (M : κ → Option K) (h : PDF κ K) : Prop :=
  match op.apply M with
  | none => op.exec.run h = .error .assertFailed
  | some M' => Runs op.exec h fun _ h' => ∃ t', Valid h' t' ∧ Weighed t' M'

section

variable (hv : Valid h t) (hM : Weighed t M)

include hv hM

theorem insert_agrees : Agrees (.insert k w) M h := by
  have hrun : Outcome ((insert k w).run h) _ _ := insert_runs hv
  unfold Agrees
  rw [Op.apply]
  split_ifs with hk
  · refine (Runs.of_outcome hrun ?_).mono ?_
    · rintro _ ⟨-, e, he, heq⟩
      exact hM.eq_none_iff.1 hk e.2 (mem_map_of_mem he) heq
    · rintro _ h' ⟨t', n, A, B, hv', hold, hnew⟩
      have hw : weights t = A.map (·.2) ++ B.map (·.2) := by rw [weights, hold, map_append]
      refine ⟨t', hv', hM.change (some w) (fun e he _ => hw ▸ he) (fun e he => ?_) fun e => ?_⟩
      · rw [← hw] at he
        exact ⟨he, hM.eq_none_iff.1 hk e he⟩
      · rw [weights, hnew, map_append, map_cons, mem_append_cons]
  · obtain ⟨_, herror, rfl, -⟩ := hrun.fails <| by
      rintro p ⟨t', n, A, B, hv', hold, hnew⟩
      have hw : weights t' = A.map (·.2) ++ (k, w) :: B.map (·.2) := by
        rw [weights, hnew, map_append, map_cons]
      refine hk (hM.eq_none_iff.2 fun e he => hv'.ne_of_weights hw e ?_)
      rwa [weights, hold, map_append] at he
    exact herror

theorem present_agrees {m : PdfM κ K Unit} {o : Option K}
    (hrun : Outcome (m.run h) (fun p => ∃ t' A v B, Valid p.2 t' ∧ weights t = A ++ (k, v) :: B ∧
        ∀ e, e ∈ weights t' ↔ e ∈ A ++ B ∨ some e.2 = o ∧ e.1 = k)
      fun e => e = .assertFailed ∧ ∀ e ∈ entries t, e.2.1 ≠ k) :
    match if M k = none then none else some (Function.update M k o) with
    | none => m.run h = .error .assertFailed
    | some M' => Runs m h fun _ h' => ∃ t', Valid h' t' ∧ Weighed t' M' := by
  split_ifs with hk
  · obtain ⟨_, herror, rfl, -⟩ := hrun.fails <| by
      rintro p ⟨t', A, v, B, _, hold, _⟩
      refine hM.eq_none_iff.1 hk (k, v) ?_ rfl
      rw [hold]
      simp
    exact herror
  · refine (Runs.of_outcome hrun fun _ he => hk (hM.eq_none_of_entries he.2)).mono ?_
    rintro _ h' ⟨t', A, v, B, hv', hold, hnew⟩
    have hne := hv.ne_of_weights hold
    refine ⟨t', hv', hM.change o (fun e he hek => ?_) (fun e he => ⟨?_, hne e he⟩) hnew⟩
    · rw [hold, mem_append_cons] at he
      exact he.resolve_right fun h => hek h.2
    · rw [hold, mem_append_cons]
      exact .inl he

theorem inTree_runs (k : κ) : Runs (inTree k) h fun b h' => h' = h ∧ b = (M k).isSome := by
  refine (lookup_runs hv k).bind ?_
  rintro _ _ ⟨rfl, t', fs, rfl, hf, hitem⟩
  refine readSlot_bind hf.holds (Runs.pure ⟨rfl, ?_⟩)
  rcases hitem with ⟨rfl, hno⟩ | ⟨x, l, r, rfl, rfl⟩
  · rw [hM.eq_none_of_entries hno]
    rfl
  · have hmem : (x.2.key, x.2.weight) ∈ weights t := by
      rw [weights, ← hf.around_eq, around_node]
      simp [entry]
    rw [(hM _ _).1 hmem]
    rfl

theorem exec_agrees (op : Op κ K) : Agrees op M h := by
  cases op with
  | insert k w => exact insert_agrees hv hM
  | remove k =>
    refine present_agrees hv hM ((remove_runs hv).conseq ?_ fun _ he => he)
    rintro p ⟨t', A, v, B, hv', hold, hnew⟩
    refine ⟨t', A, v, B, hv', hold, fun e => ?_⟩
    rw [hnew]
    simp
  | update k w =>
    refine present_agrees hv hM ((update_runs hv).conseq ?_ fun _ he => he)
    rintro p ⟨t', A, v, B, hv', hold, hnew⟩
    refine ⟨t', A, v, B, hv', hold, fun e => ?_⟩
    rw [hnew, mem_append_cons]
  | lookup k =>
    refine (inTree_runs hv hM k).bind ?_
    rintro _ _ ⟨rfl, -⟩
    exact Runs.pure ⟨t, hv, hM⟩

theorem runAll_agrees (ops : List (Op κ K)) : match applyAll M ops with
    | none => (runAll ops).run h = .error .assertFailed
    | some M' => Runs (runAll ops) h fun _ h' => ∃ t', Valid h' t' ∧ Weighed t' M' := by
  induction ops generalizing h t M with
  | nil => exact Runs.pure ⟨t, hv, hM⟩
  | cons op ops ih =>
    have hop := exec_agrees hv hM op
    rw [Agrees] at hop
    rw [applyAll, runAll]
    cases hM' : op.apply M with
    | none =>
      rw [hM'] at hop
      show (op.exec.run h).bind _ = _
      rw [hop]
      rfl
    | some M' =>
      rw [hM'] at hop
      obtain ⟨_, h', hrun, t', hv', hw'⟩ := hop
      have hrest := ih hv' hw'
      show match applyAll M' ops with
        | none => _
        | some M'' => _
      cases hlast : applyAll M' ops with
      | none =>
        rw [hlast] at hrest
        exact (run_bind_ok hrun).trans hrest
      | some M'' =>
        rw [hlast] at hrest
        refine Runs.bind (Q := fun _ s' => s' = h') ⟨_, h', hrun, rfl⟩ ?_
        rintro _ _ rfl
        exact hrest

end

end Agree

/-! ## From the empty tree -/

section Total

variable {κ K : Type} [LinearOrder κ] [CommRing K] [LinearOrder K] [IsStrictOrderedRing K]

def Op.Nonneg : Op κ K → Prop
  | .insert _ weight => 0 ≤ weight
  | .remove _ => True
  | .update _ weight => 0 ≤ weight
  | .lookup _ => True

omit [IsStrictOrderedRing K] in
theorem apply_nonneg {M M' : κ → Option K} {op : Op κ K} (hM : ∀ k w, M k = some w → 0 ≤ w) (hop : op.Nonneg)
    (h : op.apply M = some M') : ∀ k w, M' k = some w → 0 ≤ w := by
  -- an operation changes the weight of one item
  have hupdate : ∀ item (o : Option K), (∀ w, o = some w → 0 ≤ w) →
      ∀ k w, Function.update M item o k = some w → 0 ≤ w := by
    intro item o ho k w hk
    by_cases heq : k = item
    · subst heq
      rw [update_self] at hk
      exact ho w hk
    · rw [update_of_ne heq] at hk
      exact hM k w hk
  have hsome : ∀ {v : K}, 0 ≤ v → ∀ w, some v = some w → 0 ≤ w := fun hv w heq => Option.some.inj heq ▸ hv
  cases op with
  | insert item weight =>
    rw [Op.apply, Option.ite_none_right_eq_some] at h
    exact Option.some.inj h.2 ▸ hupdate item (some weight) (hsome hop)
  | remove item =>
    rw [Op.apply, Option.ite_none_left_eq_some] at h
    exact Option.some.inj h.2 ▸ hupdate item none fun w heq => by cases heq
  | update item weight =>
    rw [Op.apply, Option.ite_none_left_eq_some] at h
    exact Option.some.inj h.2 ▸ hupdate item (some weight) (hsome hop)
  | lookup item => exact Option.some.inj h ▸ hM

omit [IsStrictOrderedRing K] in
theorem applyAll_nonneg {M M' : κ → Option K} {ops : List (Op κ K)} (hM : ∀ k w, M k = some w → 0 ≤ w)
    (hops : ∀ op ∈ ops, op.Nonneg) (h : applyAll M ops = some M') : ∀ k w, M' k = some w → 0 ≤ w := by
  induction ops generalizing M with
  | nil => exact Option.some.inj h ▸ hM
  | cons op ops ih =>
    obtain ⟨hop, hrest⟩ := forall_mem_cons.1 hops
    obtain ⟨M₁, h₁, h₂⟩ := Option.bind_eq_some_iff.1 h
    exact ih (apply_nonneg hM hop h₁) hrest h₂

omit [LinearOrder K] [IsStrictOrderedRing K] in
theorem empty_valid : Valid (empty κ K) .nil :=
  ⟨⟨trivial, rfl, fun _ => Nat.zero_le 1, fun _ ha => absurd ha (lt_irrefl 0), le_rfl⟩, trivial, rfl, List.Pairwise.nil⟩

/-- From the empty tree, operations with nonnegative weights stop at an assertion exactly if one inserts an item that is
there, or removes or updates one that is not. Otherwise they end with a tree in memory that has the parent pointers of
its nodes, right sums and the order of the items, and with the weights of the operations. There, a search finds the items,
and a choice the item in whose interval the part `p` of the whole lies, which is none of weight zero unless all are. -/
theorem operations_keep_distribution (ops : List (Op κ K)) (hops : ∀ op ∈ ops, op.Nonneg) :
    match applyAll (fun _ => none) ops with
    | none => (runAll ops).run (empty κ K) = .error .assertFailed
    | some M => Runs (runAll ops) (empty κ K) fun _ h => ∃ t, Valid h t ∧ Weighed t M ∧
        (∀ k, Runs (inTree k) h fun b h' => h' = h ∧ b = (M k).isSome) ∧
        ∀ p, 0 ≤ p → p < 1 → (∃ k, M k ≠ none) → Runs (choose p) h fun k h' => h' = h ∧ Chosen (weights t) p k ∧
          ((∃ k' w, M k' = some w ∧ 0 < w) → ∃ w, M k = some w ∧ 0 < w) := by
  have hagree := runAll_agrees empty_valid (M := fun _ => none) (fun k w => by simp [weights]) ops
  cases hM : applyAll (fun _ => none) ops with
  | none =>
    rw [hM] at hagree
    exact hagree
  | some M =>
    rw [hM] at hagree
    refine hagree.mono ?_
    rintro _ h ⟨t, hv, hw⟩
    refine ⟨t, hv, hw, inTree_runs hv hw, fun p hp hp' hsome => ?_⟩
    have hnonneg : ∀ e ∈ weights t, 0 ≤ e.2 := fun e he =>
      applyAll_nonneg (fun _ _ h => by cases h) hops hM e.1 e.2 ((hw e.1 e.2).1 he)
    have hne : t ≠ .nil := by
      rintro rfl
      obtain ⟨k, hk⟩ := hsome
      exact hk (hw.eq_none_of_entries fun e he => by cases he)
    refine (choose_runs hv.holds hv.summed hnonneg hne hp hp').mono ?_
    rintro k _ ⟨rfl, hchosen⟩
    refine ⟨rfl, hchosen, ?_⟩
    rintro ⟨k', w, hk', hpos⟩
    obtain ⟨w', hmem, hpos'⟩ := hchosen.pos hnonneg ⟨(k', w), (hw k' w).2 hk', hpos⟩
    exact ⟨w', (hw k w').1 hmem, hpos'⟩

theorem operations_keep_distribution_of_three :
    (∀ op ∈ ([.insert 1 0, .insert 2 3, .lookup 1] : List (Op Nat ℚ)), op.Nonneg) ∧
    Runs (runAll [.insert 1 0, .insert 2 3, .lookup 1]) (empty Nat ℚ) fun _ h => ∃ t, Valid h t ∧
      Runs (choose (1 / 2 : ℚ)) h fun k h' => h' = h ∧ Chosen (weights t) (1 / 2 : ℚ) k := by
  have hops : ∀ op ∈ ([.insert 1 0, .insert 2 3, .lookup 1] : List (Op Nat ℚ)), op.Nonneg := by
    simp [Op.Nonneg]
  have hrun := operations_keep_distribution _ hops
  refine ⟨hops, Runs.mono hrun ?_⟩
  rintro _ h ⟨t, hv, -, -, hchoose⟩
  refine ⟨t, hv, (hchoose (1 / 2) (by norm_num) (by norm_num) ⟨2, by decide⟩).mono ?_⟩
  rintro k _ ⟨rfl, hchosen, -⟩
  exact ⟨rfl, hchosen⟩

end Total

end S2E.Klee.DiscretePDF
