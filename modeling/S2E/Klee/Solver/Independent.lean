import S2E.Klee.Expr.FindReads
import S2E.Klee.Solver.Query
import S2E.Lib.Slicing
import Mathlib.Data.List.AList

/-!
# `IndependentSolver`: the constraints that matter for a query

* `IndependentElementSet` : the bytes that an expression may depend on. An array read at a symbolic index is in
  `wholeObjects`, the others have their indices in `elements`; `intersects` and `add` are those of the source;
* `getIndependentConstraints` : the passes over the constraints. Each pass takes out those that share a byte with the
  query or with one taken out before, until a pass adds no byte.

An assignment gives bytes to the symbolic arrays. What a constant array holds beyond its constants is given once and for
all (`assignments beyond`), since the slices do not keep track of it.
-/

namespace S2E.Klee

open S2E.Lib List

structure IndependentElementSet where
  elements : AList fun _ : Array => Finset Nat
  wholeObjects : List Array

namespace IndependentElementSet

def empty : IndependentElementSet := ⟨∅, []⟩

/-- The body of the loop of the constructor. -/
def addRead (s : IndependentElementSet) (re : Read) : IndependentElementSet :=
  -- reads of a constant array do not alias
  if re.root.isConstantArray ∧ re.head = .nil then s
  else if re.root ∈ s.wholeObjects then s
  else
    match re.index with
    | .constant c =>
      let dis := (s.elements.lookup re.root).getD ∅
      { s with elements := s.elements.insert re.root (insert (c.getZExtValue % 2 ^ 32) dis) }
    | _ => ⟨s.elements.erase re.root, re.root :: s.wholeObjects⟩

def ofExpr (e : Expr) : IndependentElementSet := (findReads e true).foldl addRead empty

def intersects (s b : IndependentElementSet) : Bool :=
  s.wholeObjects.any (fun array => decide (array ∈ b.wholeObjects) || (b.elements.lookup array).isSome) ||
  s.elements.entries.any fun entry => decide (entry.1 ∈ b.wholeObjects) ||
    match b.elements.lookup entry.1 with
    | some dis => decide (¬ Disjoint entry.2 dis)
    | none => false

/-- The first loop of `add`, and whether the set has changed. -/
def addWhole (s : IndependentElementSet × Bool) (array : Array) : IndependentElementSet × Bool :=
  if (s.1.elements.lookup array).isSome then (⟨s.1.elements.erase array, array :: s.1.wholeObjects⟩, true)
  else if array ∈ s.1.wholeObjects then s
  else ({ s.1 with wholeObjects := array :: s.1.wholeObjects }, true)

/-- The second loop of `add`. -/
def addElements (s : IndependentElementSet × Bool) (entry : Sigma fun _ : Array => Finset Nat) :
    IndependentElementSet × Bool :=
  if entry.1 ∈ s.1.wholeObjects then s
  else
    match s.1.elements.lookup entry.1 with
    | none => ({ s.1 with elements := s.1.elements.insert entry.1 entry.2 }, true)
    | some dis =>
      if entry.2 ⊆ dis then s else ({ s.1 with elements := s.1.elements.insert entry.1 (dis ∪ entry.2) }, true)

def add (s b : IndependentElementSet) : IndependentElementSet × Bool :=
  b.elements.entries.foldl addElements (b.wholeObjects.foldl addWhole (s, false))

/-! ### The bytes of a set -/

def Contains (s : IndependentElementSet) (array : Array) (i : Nat) : Prop :=
  array ∈ s.wholeObjects ∨ ∃ dis, s.elements.lookup array = some dis ∧ i ∈ dis

variable {s b : IndependentElementSet} {a x : Array} {i : Nat}

theorem Contains.whole (h : s.Contains a i) : Contains ⟨s.elements.erase x, x :: s.wholeObjects⟩ a i := by
  by_cases hx : a = x
  · exact .inl (hx ▸ mem_cons_self)
  · rcases h with hw | ⟨dis, hd, hi⟩
    · exact .inl (mem_cons_of_mem x hw)
    · exact .inr ⟨dis, by rwa [AList.lookup_erase_ne hx], hi⟩

theorem Contains.insert (h : s.Contains a i) {dis : Finset Nat}
    (hsub : ∀ old, s.elements.lookup x = some old → old ⊆ dis) :
    Contains { s with elements := s.elements.insert x dis } a i := by
  rcases h with hw | ⟨old, hd, hi⟩
  · exact .inl hw
  · by_cases hx : a = x
    · subst hx
      exact .inr ⟨dis, AList.lookup_insert _, hsub old hd hi⟩
    · exact .inr ⟨old, by rwa [AList.lookup_insert_ne hx], hi⟩

theorem contains_insert {dis : Finset Nat} (hi : i ∈ dis) :
    Contains { s with elements := s.elements.insert x dis } x i :=
  .inr ⟨dis, AList.lookup_insert _, hi⟩

/-! ### The constructor -/

theorem Contains.addRead (h : s.Contains a i) (re : Read) : (s.addRead re).Contains a i := by
  unfold IndependentElementSet.addRead
  split
  · exact h
  · split
    · exact h
    · split
      · refine h.insert fun old hold => ?_
        rw [hold, Option.getD_some]
        exact Finset.subset_insert _ _
      · exact h.whole

/-- The index is one that the read may look up. -/
def Touches (re : Read) (i : Nat) : Prop := ∀ c, re.index = .constant c → i = c.getZExtValue % 2 ^ 32

/-- A constant array without updates is skipped. -/
abbrev Skipped (re : Read) : Prop := re.root.isConstantArray ∧ re.head = .nil

theorem contains_addRead {re : Read} (hs : ¬ Skipped re) (hi : Touches re i) : (s.addRead re).Contains re.root i := by
  unfold IndependentElementSet.addRead
  rw [if_neg hs]
  split
  · rename_i hw
    exact .inl hw
  · split
    · rename_i c hc
      refine contains_insert ?_
      rw [hi c hc]
      exact Finset.mem_insert_self _ _
    · exact .inl mem_cons_self

theorem Contains.addReads (h : s.Contains a i) (reads : List Read) :
    (reads.foldl IndependentElementSet.addRead s).Contains a i := by
  induction reads generalizing s with
  | nil => exact h
  | cons re reads ih => exact ih (h.addRead re)

theorem contains_ofExpr {e : Expr} {re : Read} (hre : re ∈ findReads e true) (hs : ¬ Skipped re) (hi : Touches re i) :
    (ofExpr e).Contains re.root i := by
  unfold ofExpr
  generalize empty = s
  generalize findReads e true = reads at hre ⊢
  induction reads generalizing s with
  | nil => cases hre
  | cons r reads ih =>
    rcases mem_cons.1 hre with rfl | hre
    · exact (contains_addRead hs hi).addReads reads
    · exact ih (s.addRead r) hre

/-! ### Intersections and additions -/

theorem not_contains_of_intersects (h : s.intersects b = false) (hs : s.Contains a i) : ¬ b.Contains a i := by
  simp only [intersects, Bool.or_eq_false_iff, any_eq_false, Bool.not_eq_true] at h
  rcases hs with hw | ⟨dis, hd, hi⟩
  · obtain ⟨h1, h2⟩ := h.1 a hw
    rintro (hbw | ⟨bdis, hbd, -⟩)
    · exact of_decide_eq_false h1 hbw
    · grind
  · obtain ⟨h1, h2⟩ := h.2 ⟨a, dis⟩ (AList.mem_lookup_iff.1 hd)
    rintro (hbw | ⟨bdis, hbd, hbi⟩)
    · exact of_decide_eq_false h1 hbw
    · simp only [hbd] at h2
      exact Finset.disjoint_left.1 (not_not.1 (of_decide_eq_false h2)) hi hbi

/-- A loop body that adds the bytes `B x` for an element `x`, and says so if that changes the set. -/
structure Adds {α : Type} (f : IndependentElementSet × Bool → α → IndependentElementSet × Bool)
    (B : α → Array → Nat → Prop) : Prop where
  mono : ∀ (s : IndependentElementSet × Bool) x a i, s.1.Contains a i → (f s x).1.Contains a i
  adds : ∀ (s : IndependentElementSet × Bool) x a i, B x a i → (f s x).1.Contains a i
  unchanged : ∀ (s : IndependentElementSet × Bool) x, (f s x).2 = false → f s x = s

theorem addWhole_adds : Adds addWhole fun x a _ => a = x where
  mono s x a i h := by
    unfold addWhole
    split
    · exact h.whole
    · split
      · exact h
      · exact h.imp_left (mem_cons_of_mem x)
  adds s x a i h := by
    subst h
    unfold addWhole
    split
    · exact .inl mem_cons_self
    · split
      · rename_i hw
        exact .inl hw
      · exact .inl mem_cons_self
  unchanged s x h := by
    unfold addWhole at h ⊢
    split at h
    · cases h
    · split at h
      · grind
      · cases h

theorem addElements_adds : Adds addElements fun entry a i => a = entry.1 ∧ i ∈ entry.2 where
  mono s entry a i h := by
    unfold addElements
    split
    · exact h
    · split
      · rename_i hnone
        refine h.insert fun old hold => ?_
        rw [hnone] at hold
        cases hold
      · rename_i dis hdis
        split
        · exact h
        · refine h.insert fun old hold => ?_
          rw [hdis] at hold
          cases hold
          exact Finset.subset_union_left
  adds s entry a i h := by
    obtain ⟨rfl, hi⟩ := h
    unfold addElements
    split
    · rename_i hw
      exact .inl hw
    · split
      · exact contains_insert hi
      · rename_i dis hdis
        split
        · rename_i hsub
          exact .inr ⟨dis, hdis, hsub hi⟩
        · exact contains_insert (Finset.mem_union_right dis hi)
  unchanged s entry h := by
    unfold addElements at h ⊢
    split at h
    · grind
    · rename_i hw
      rw [if_neg hw]
      split at h
      · cases h
      · rename_i dis hdis
        split at h
        · grind
        · cases h

theorem Adds.foldl_mono {α : Type} {f : IndependentElementSet × Bool → α → IndependentElementSet × Bool}
    {B : α → Array → Nat → Prop} (hf : Adds f B) (l : List α) :
    ∀ s : IndependentElementSet × Bool, s.1.Contains a i → (l.foldl f s).1.Contains a i := by
  induction l with
  | nil => exact fun s h => h
  | cons x l ih => exact fun s h => ih (f s x) (hf.mono s x a i h)

/-- The loop adds the bytes of every element. -/
theorem Adds.foldl {α : Type} {f : IndependentElementSet × Bool → α → IndependentElementSet × Bool}
    {B : α → Array → Nat → Prop} (hf : Adds f B) :
    Adds (fun s (l : List α) => l.foldl f s) fun l a i => ∃ x ∈ l, B x a i where
  mono s l a i h := hf.foldl_mono l s h
  adds s l a i h := by
    obtain ⟨x, hx, hB⟩ := h
    induction l generalizing s with
    | nil => cases hx
    | cons y l ih =>
      rcases mem_cons.1 hx with rfl | hx
      · exact hf.foldl_mono l (f s x) (hf.adds s x a i hB)
      · exact ih (f s y) hx
  unchanged s l h := by
    induction l generalizing s with
    | nil => rfl
    | cons x l ih =>
      have hrest : l.foldl f (f s x) = f s x := ih (f s x) h
      have hflag : (f s x).2 = false := by grind
      show l.foldl f (f s x) = s
      rw [hrest, hf.unchanged s x hflag]

theorem Contains.add (h : s.Contains a i) (b : IndependentElementSet) : (s.add b).1.Contains a i :=
  addElements_adds.foldl_mono _ _ (addWhole_adds.foldl_mono b.wholeObjects (s, false) h)

theorem Contains.add_right (h : b.Contains a i) (s : IndependentElementSet) : (s.add b).1.Contains a i := by
  rcases h with hw | ⟨dis, hd, hi⟩
  · exact addElements_adds.foldl_mono _ _ (addWhole_adds.foldl.adds (s, false) b.wholeObjects a i ⟨a, hw, rfl⟩)
  · exact addElements_adds.foldl.adds _ b.elements.entries a i ⟨⟨a, dis⟩, AList.mem_lookup_iff.1 hd, rfl, hi⟩

theorem add_unchanged (h : (s.add b).2 = false) : (s.add b).1 = s := by
  have h₂ := addElements_adds.foldl.unchanged (b.wholeObjects.foldl addWhole (s, false)) b.elements.entries h
  have h₁ := addWhole_adds.foldl.unchanged (s, false) b.wholeObjects ((congrArg Prod.snd h₂).symm.trans h)
  exact congrArg Prod.fst (h₂.trans h₁)

end IndependentElementSet

/-! ## The passes -/

/-- The variables of `getIndependentConstraints` during a pass. -/
structure Pass where
  eltsClosure : IndependentElementSet
  newWorklist : List (Expr × IndependentElementSet)
  result : List Expr
  done : Bool

def Pass.step (p : Pass) (it : Expr × IndependentElementSet) : Pass :=
  if it.2.intersects p.eltsClosure then
    { p with
      eltsClosure := (p.eltsClosure.add it.2).1
      done := p.done && !(p.eltsClosure.add it.2).2
      result := p.result ++ [it.1] }
  else { p with newWorklist := p.newWorklist ++ [it] }

/-- At most `fuel` passes. -/
def passes : Nat → IndependentElementSet → List (Expr × IndependentElementSet) → List Expr →
    Option (IndependentElementSet × List Expr)
  | 0, _, _, _ => none
  | fuel + 1, eltsClosure, worklist, result =>
    let p := worklist.foldl Pass.step ⟨eltsClosure, [], result, true⟩
    if p.done then some (p.eltsClosure, p.result) else passes fuel p.eltsClosure p.newWorklist p.result

def getIndependentConstraints (query : Query) : Option (IndependentElementSet × List Expr) :=
  passes (query.constraints.length + 1) (.ofExpr query.expr)
    (query.constraints.map fun c => (c, .ofExpr c)) []

/-- The bytes of the first set are among those of the second. -/
def IndependentElementSet.Within (s t : IndependentElementSet) : Prop := ∀ a i, s.Contains a i → t.Contains a i

/-- What a pass that starts with `p` and goes over the worklist ends with. -/
structure Pass.After (p : Pass) (worklist : List (Expr × IndependentElementSet)) (p' : Pass) : Prop where
  grows : p.eltsClosure.Within p'.eltsClosure
  kept : ∀ c ∈ p.result, c ∈ p'.result
  origin : ∀ c ∈ p'.result, c ∈ p.result ∨ ∃ it ∈ worklist, it.1 = c ∧ it.2.Within p'.eltsClosure
  rest : ∀ it ∈ worklist, it.1 ∈ p'.result ∨ it ∈ p'.newWorklist
  left : ∀ it ∈ p'.newWorklist, it ∈ p.newWorklist ∨
    it ∈ worklist ∧ (p'.done = true → it.2.intersects p'.eltsClosure = false)
  keptLeft : ∀ it ∈ p.newWorklist, it ∈ p'.newWorklist
  still : p'.done = true → p.done = true ∧ p'.eltsClosure = p.eltsClosure
  shorter : p'.newWorklist.length + (if p'.done then 0 else 1) ≤
    p.newWorklist.length + worklist.length + (if p.done then 0 else 1)

theorem Pass.After.nil (p : Pass) : p.After [] p where
  grows _ _ h := h
  kept _ h := h
  origin _ h := .inl h
  rest _ h := by cases h
  left _ h := .inl h
  keptLeft _ h := h
  still h := ⟨h, rfl⟩
  shorter := le_rfl

theorem Pass.After.take {p p' : Pass} {it : Expr × IndependentElementSet}
    {worklist : List (Expr × IndependentElementSet)}
    (h : Pass.After { p with
        eltsClosure := (p.eltsClosure.add it.2).1
        done := p.done && !(p.eltsClosure.add it.2).2
        result := p.result ++ [it.1] } worklist p') : p.After (it :: worklist) p' where
  grows a i hc := h.grows a i (hc.add it.2)
  kept c hc := h.kept c (mem_append_left _ hc)
  origin c hc := by
    rcases h.origin c hc with hold | ⟨jt, hjt, hj⟩
    · rcases mem_append.1 hold with hc | hc
      · exact .inl hc
      · rw [mem_singleton] at hc
        exact .inr ⟨it, mem_cons_self, hc.symm, fun a i hi => h.grows a i (hi.add_right p.eltsClosure)⟩
    · exact .inr ⟨jt, mem_cons_of_mem it hjt, hj⟩
  rest jt hjt := by
    rcases mem_cons.1 hjt with rfl | hjt
    · exact .inl (h.kept _ (mem_append_right _ (mem_singleton_self _)))
    · exact h.rest jt hjt
  left jt hjt := (h.left jt hjt).imp_right fun hl => ⟨mem_cons_of_mem it hl.1, hl.2⟩
  keptLeft := h.keptLeft
  still hd := by
    obtain ⟨hdone, hclosure⟩ := h.still hd
    simp only [Bool.and_eq_true, Bool.not_eq_true'] at hdone
    exact ⟨hdone.1, hclosure.trans (IndependentElementSet.add_unchanged hdone.2)⟩
  shorter := by
    have hs := h.shorter
    simp only [length_cons] at hs ⊢
    split at hs <;> split at hs <;> split <;> omega

theorem Pass.After.leave {p p' : Pass} {it : Expr × IndependentElementSet}
    {worklist : List (Expr × IndependentElementSet)} (hit : it.2.intersects p.eltsClosure = false)
    (h : Pass.After { p with newWorklist := p.newWorklist ++ [it] } worklist p') : p.After (it :: worklist) p' where
  grows := h.grows
  kept := h.kept
  origin c hc := (h.origin c hc).imp_right fun ⟨jt, hjt, hj⟩ => ⟨jt, mem_cons_of_mem it hjt, hj⟩
  rest jt hjt := by
    rcases mem_cons.1 hjt with rfl | hjt
    · exact .inr (h.keptLeft _ (mem_append_right _ (mem_singleton_self _)))
    · exact h.rest jt hjt
  left jt hjt := by
    rcases h.left jt hjt with hold | hnew
    · rcases mem_append.1 hold with hp | hj
      · exact .inl hp
      · rw [mem_singleton] at hj
        subst hj
        refine .inr ⟨mem_cons_self, fun hd => ?_⟩
        rw [(h.still hd).2]
        exact hit
    · exact .inr ⟨mem_cons_of_mem it hnew.1, hnew.2⟩
  keptLeft jt hjt := h.keptLeft jt (mem_append_left _ hjt)
  still := h.still
  shorter := by
    have hs := h.shorter
    simp only [length_cons, length_append, length_nil] at hs ⊢
    omega

theorem Pass.after_foldl (worklist : List (Expr × IndependentElementSet)) :
    ∀ p : Pass, p.After worklist (worklist.foldl step p) := by
  induction worklist with
  | nil => exact Pass.After.nil
  | cons it worklist ih =>
    intro p
    show p.After (it :: worklist) (worklist.foldl step (p.step it))
    have hrest := ih (p.step it)
    by_cases hit : it.2.intersects p.eltsClosure = true
    · apply Pass.After.take
      rwa [step, if_pos hit] at hrest ⊢
    · apply Pass.After.leave (Bool.eq_false_iff.2 hit)
      rwa [step, if_neg hit] at hrest ⊢

/-- What the passes end with. -/
structure Sliced (eltsClosure : IndependentElementSet) (worklist : List (Expr × IndependentElementSet))
    (result : List Expr) (closure : IndependentElementSet) (required : List Expr) : Prop where
  grows : eltsClosure.Within closure
  kept : ∀ c ∈ result, c ∈ required
  origin : ∀ c ∈ required, c ∈ result ∨ ∃ it ∈ worklist, it.1 = c ∧ it.2.Within closure
  rest : ∀ it ∈ worklist, it.1 ∈ required ∨ it.2.intersects closure = false

/-- A pass that does not end the loop has taken out a constraint. -/
theorem passes_sliced (fuel : Nat) : ∀ (eltsClosure : IndependentElementSet)
    (worklist : List (Expr × IndependentElementSet)) (result : List Expr), worklist.length < fuel →
      ∃ closure required, passes fuel eltsClosure worklist result = some (closure, required) ∧
        Sliced eltsClosure worklist result closure required := by
  induction fuel with
  | zero => exact fun _ _ _ h => absurd h (Nat.not_lt_zero _)
  | succ fuel ih =>
    intro eltsClosure worklist result hlen
    have hafter := Pass.after_foldl worklist ⟨eltsClosure, [], result, true⟩
    unfold passes
    generalize worklist.foldl Pass.step ⟨eltsClosure, [], result, true⟩ = p at hafter
    dsimp only
    by_cases hdone : p.done = true
    · rw [if_pos hdone]
      refine ⟨p.eltsClosure, p.result, rfl, hafter.grows, hafter.kept, hafter.origin, fun it hit => ?_⟩
      rcases hafter.rest it hit with hr | hl
      · exact .inl hr
      · rcases hafter.left it hl with hnil | ⟨-, hdis⟩
        · cases hnil
        · exact .inr (hdis hdone)
    · have hshort : p.newWorklist.length < fuel := by
        have := hafter.shorter
        rw [if_neg hdone, if_pos rfl] at this
        simp only [length_nil] at this
        omega
      rw [if_neg hdone]
      obtain ⟨closure, required, heq, hs⟩ := ih p.eltsClosure p.newWorklist p.result hshort
      refine ⟨closure, required, heq, fun a i h => hs.grows a i (hafter.grows a i h),
        fun c hc => hs.kept c (hafter.kept c hc), fun c hc => ?_, fun it hit => ?_⟩
      · rcases hs.origin c hc with hold | ⟨it, hit, hc, hin⟩
        · rcases hafter.origin c hold with hold | ⟨it, hit, hc, hin⟩
          · exact .inl hold
          · exact .inr ⟨it, hit, hc, fun a i h => hs.grows a i (hin a i h)⟩
        · rcases hafter.left it hit with hnil | ⟨hw, -⟩
          · cases hnil
          · exact .inr ⟨it, hw, hc, hin⟩
      · rcases hafter.rest it hit with hr | hl
        · exact .inl (hs.kept _ hr)
        · exact hs.rest it hl

theorem getIndependentConstraints_sliced (query : Query) : ∃ closure required,
    getIndependentConstraints query = some (closure, required) ∧
    (IndependentElementSet.ofExpr query.expr).Within closure ∧
    (∀ c ∈ required, c ∈ query.constraints ∧ (IndependentElementSet.ofExpr c).Within closure) ∧
    ∀ c ∈ query.constraints, c ∈ required ∨ (IndependentElementSet.ofExpr c).intersects closure = false := by
  obtain ⟨closure, required, heq, hs⟩ := passes_sliced (query.constraints.length + 1) (.ofExpr query.expr)
    (query.constraints.map fun c => (c, .ofExpr c)) [] (by rw [length_map]; omega)
  refine ⟨closure, required, heq, hs.grows, fun c hc => ?_, fun c hc => ?_⟩
  · rcases hs.origin c hc with hnil | ⟨it, hit, rfl, hin⟩
    · cases hnil
    · grind
  · exact hs.rest (c, .ofExpr c) (mem_map_of_mem hc)

/-! ## Adequacy -/

/-- The assignments to the symbolic arrays; `beyond` is what the constant arrays hold beyond their constants. -/
def assignments (beyond : Assignment) : Set Assignment := {σ | ∀ a : Array, a.isConstantArray = true → σ a = beyond a}

/-- The value of an expression is decided by the bytes of its set. -/
theorem eval_eq_of_agree {beyond σ τ : Assignment} (hσ : σ ∈ assignments beyond) (hτ : τ ∈ assignments beyond)
    {e : Expr} (h : ∀ a i, (IndependentElementSet.ofExpr e).Contains a i → σ a i = τ a i) (w : Nat) :
    e.eval σ w = e.eval τ w := by
  obtain ⟨V, he, hV, hreads⟩ := findReads_closed e
  refine Expr.eval_congr hV (fun root head index hmem => ?_) e he w
  have hsame : σ root (index.eval σ 32).toNat = τ root (index.eval σ 32).toNat := by
    by_cases hskip : IndependentElementSet.Skipped ⟨root, head, index⟩
    · rw [hσ root hskip.1, hτ root hskip.1]
    · apply h
      refine IndependentElementSet.contains_ofExpr (hreads root head index hmem) hskip fun c hc => ?_
      have hindex : index = .constant c := hc
      rw [hindex, Expr.eval, BitVec.toNat_setWidth]
      rfl
  unfold Assignment.initial
  rw [hsame]

/-- The byte of an assignment at an index of an array. -/
def byteAt (σ : Assignment) (p : Array × Nat) : BitVec 8 := σ p.1 p.2

theorem assignments_gluable (beyond : Assignment) : Gluable byteAt (assignments beyond) := by
  classical
  intro S σ hσ τ hτ
  refine ⟨fun a i => if (a, i) ∈ S then σ a i else τ a i, fun a ha => ?_, fun p hp => if_pos hp, fun p hp => if_neg hp⟩
  funext i
  show (if (a, i) ∈ S then σ a i else τ a i) = beyond a i
  rw [hσ a ha, hτ a ha, ite_self]

/-- The expression can take the same values under both lists of constraints. -/
def SameValues (Γ : Set Assignment) (e : Expr) (cs cs' : List Expr) : Prop := ∀ (w : Nat) (v : BitVec w),
  (∃ σ ∈ Models Γ cs, e.eval σ w = v) ↔ ∃ σ ∈ Models Γ cs', e.eval σ w = v

/-- The query has the same values under the slice as under all constraints. -/
theorem slice_feasible {beyond : Assignment} {query : Query}
    (hsat : (Models (assignments beyond) query.constraints).Nonempty) : ∃ closure required,
      getIndependentConstraints query = some (closure, required) ∧
      SameValues (assignments beyond) query.expr required query.constraints := by
  obtain ⟨closure, required, heq, hquery, hreq, hrest⟩ := getIndependentConstraints_sliced query
  refine ⟨closure, required, heq, fun w v => ?_⟩
  have hin : ∀ (e : Expr) (w : Nat), (IndependentElementSet.ofExpr e).Within closure →
      DecidedBy byteAt (assignments beyond) (fun σ => e.eval σ w) {p | closure.Contains p.1 p.2} := by
    intro e w he σ hσ τ hτ hagree
    exact eval_eq_of_agree hσ hτ (fun a i hc => hagree (a, i) (he a i hc)) w
  have hout : ∀ c : Expr, (IndependentElementSet.ofExpr c).intersects closure = false →
      DecidedBy byteAt (assignments beyond) (fun σ => c.eval σ 1) {p | closure.Contains p.1 p.2}ᶜ := by
    intro c hc σ hσ τ hτ hagree
    exact eval_eq_of_agree hσ hτ
      (fun a i hi => hagree (a, i) (IndependentElementSet.not_contains_of_intersects hc hi)) 1
  have hholds : ∀ {S : Set (Array × Nat)} {c : Expr},
      DecidedBy byteAt (assignments beyond) (fun σ => c.eval σ 1) S →
        DecidedBy byteAt (assignments beyond) (fun σ => c.Holds σ) S := by
    intro S c h σ hσ τ hτ hagree
    exact congrArg (· = 1#1) (h σ hσ τ hτ hagree)
  have hiff := feasible_iff (assignments_gluable beyond) (hin query.expr w hquery)
    (fun c hc => ⟨(hreq c hc).1, hholds (hin c 1 (hreq c hc).2)⟩)
    (fun c hc => (hrest c hc).imp_right fun h => hholds (hout c h)) hsat v
  simpa only [Models, Set.mem_ofPred_eq, and_assoc] using hiff

theorem SameValues.refuted_iff {Γ : Set Assignment} {e : Expr} {cs cs' : List Expr} (h : SameValues Γ e cs cs') :
    Query.Refuted Γ ⟨cs, e⟩ ↔ Query.Refuted Γ ⟨cs', e⟩ := by
  have hiff := not_congr (h 1 1#1)
  push Not at hiff
  exact hiff

theorem SameValues.valid_iff {Γ : Set Assignment} {e : Expr} {cs cs' : List Expr} (h : SameValues Γ e cs cs') :
    Query.Valid Γ ⟨cs, e⟩ ↔ Query.Valid Γ ⟨cs', e⟩ := by
  have hbit : ∀ x : BitVec 1, x ≠ 0#1 ↔ x = 1#1 := by decide
  have hiff := not_congr (h 1 0#1)
  push Not at hiff
  simp only [hbit] at hiff
  exact hiff

/-- The passes come to an end, and the query is valid, satisfiable, or able to take a value under the constraints that
they take out exactly if it is so under all constraints. -/
theorem getIndependentConstraints_adequate (beyond : Assignment) (query : Query)
    (hsat : (Models (assignments beyond) query.constraints).Nonempty) : ∃ closure required,
      getIndependentConstraints query = some (closure, required) ∧
      ((∀ σ ∈ Models (assignments beyond) required, query.expr.Holds σ) ↔
        ∀ σ ∈ Models (assignments beyond) query.constraints, query.expr.Holds σ) ∧
      ((∃ σ ∈ Models (assignments beyond) required, query.expr.Holds σ) ↔
        ∃ σ ∈ Models (assignments beyond) query.constraints, query.expr.Holds σ) ∧
      ∀ v : BitVec query.expr.getWidth,
        (∃ σ ∈ Models (assignments beyond) required, query.expr.value σ = v) ↔
          ∃ σ ∈ Models (assignments beyond) query.constraints, query.expr.value σ = v := by
  obtain ⟨closure, required, heq, h⟩ := slice_feasible hsat
  exact ⟨closure, required, heq, h.valid_iff, h 1 1#1, h query.expr.getWidth⟩

/-- Under the assignment of zeros, a constraint on the read of `y` at the index `x`, and one on `z`. -/
theorem getIndependentConstraints_adequate_bytes : let x := symbolicByte 0 "x"
    let query : Query := ⟨[.cmp .eq (.const 0 8) (.read (byteArray 1 "y") .nil (.zext x 32)),
      .cmp .ult (symbolicByte 2 "z") (.const 5 8)], .cmp .eq (.const 0 8) x⟩
    ∃ closure required, getIndependentConstraints query = some (closure, required) ∧
      ((∀ σ ∈ Models (assignments fun _ _ => 0) required, query.expr.Holds σ) ↔
        ∀ σ ∈ Models (assignments fun _ _ => 0) query.constraints, query.expr.Holds σ) ∧
      ((∃ σ ∈ Models (assignments fun _ _ => 0) required, query.expr.Holds σ) ↔
        ∃ σ ∈ Models (assignments fun _ _ => 0) query.constraints, query.expr.Holds σ) ∧
      ∀ v : BitVec query.expr.getWidth,
        (∃ σ ∈ Models (assignments fun _ _ => 0) required, query.expr.value σ = v) ↔
          ∃ σ ∈ Models (assignments fun _ _ => 0) query.constraints, query.expr.value σ = v :=
  getIndependentConstraints_adequate _ _ ⟨fun _ _ => 0, fun _ _ => rfl, by decide⟩

/-! ## The solver -/

namespace IndependentSolver

/-- The query is passed on with the constraints of the slice. -/
def onSlice {α : Type} (compute : Query → α) (query : Query) : Option α :=
  (getIndependentConstraints query).map fun r => compute ⟨r.2, query.expr⟩

def computeValidity (solver : Query → Validity) : Query → Option Validity := onSlice solver

def computeTruth (solver : Query → Bool) : Query → Option Bool := onSlice solver

def computeValue (solver : Query → APInt) : Query → Option APInt := onSlice solver

/-- Over a solver that is right, the answers for the slice are answers for the query: truth and validity are the same, and
the value is one that is possible under all constraints. -/
theorem answers_exact {beyond : Assignment} {query : Query} {truth : Query → Bool} {validity : Query → Validity}
    {value : Query → APInt} (hsat : (Models (assignments beyond) query.constraints).Nonempty)
    (htruth : ∀ q : Query, truth q = true ↔ q.Valid (assignments beyond))
    (hvalidity : ∀ q : Query, q.HasValidity (assignments beyond) (validity q))
    (hvalue : ∀ q : Query, (Models (assignments beyond) q.constraints).Nonempty →
      ∃ σ ∈ Models (assignments beyond) q.constraints, value q = ⟨_, q.expr.value σ⟩) :
    computeTruth truth query = some (truth query) ∧ computeValidity validity query = some (validity query) ∧
      ∃ σ ∈ Models (assignments beyond) query.constraints, computeValue value query = some ⟨_, query.expr.value σ⟩ := by
  obtain ⟨closure, required, heq, hv⟩ := slice_feasible hsat
  refine ⟨?_, ?_, ?_⟩
  · rw [computeTruth, onSlice, heq, Option.map_some, Option.some_inj, Bool.eq_iff_iff, htruth, htruth]
    exact hv.valid_iff
  · rw [computeValidity, onSlice, heq, Option.map_some, Option.some_inj]
    exact Query.hasValidity_unique ((Query.hasValidity_congr hv.valid_iff hv.refuted_iff _).1 (hvalidity _))
      (hvalidity query)
  · obtain ⟨σ₀, hσ₀⟩ := hsat
    obtain ⟨τ, hτ, -⟩ := (hv _ (query.expr.value σ₀)).2 ⟨σ₀, hσ₀, rfl⟩
    obtain ⟨σ, hσ, hc⟩ := hvalue ⟨required, query.expr⟩ ⟨τ, hτ⟩
    obtain ⟨ρ, hρ, hval⟩ := (hv _ (query.expr.value σ)).1 ⟨σ, hσ, rfl⟩
    refine ⟨ρ, hρ, ?_⟩
    rw [computeValue, onSlice, heq, Option.map_some, hc]
    exact congrArg (fun v => some (APInt.mk _ v)) hval.symm

open Classical in
theorem answers_exact_bytes : let Γ := assignments fun _ _ => 0
    let query : Query := ⟨[.cmp .ult (symbolicByte 2 "z") (.const 5 8)], .cmp .eq (.const 0 8) (symbolicByte 0 "x")⟩
    computeTruth (fun q => decide (q.Valid Γ)) query = some (decide (query.Valid Γ)) := by
  intro Γ query
  let value (q : Query) : APInt := if h : (Models Γ q.constraints).Nonempty then ⟨_, q.expr.value h.some⟩ else ⟨1, 0⟩
  have hvalidity (q : Query) := ((exactSolver_exact Γ).validity q).choose_spec.2
  have hvalue (q : Query) (h : (Models Γ q.constraints).Nonempty) : value q = ⟨_, q.expr.value h.some⟩ := dif_pos h
  exact (answers_exact ⟨fun _ _ => 0, fun _ _ => rfl, by decide⟩ (fun _ => decide_eq_true_iff) hvalidity
    fun q h => ⟨h.some, h.some_mem, hvalue q h⟩).1

end IndependentSolver

end S2E.Klee
