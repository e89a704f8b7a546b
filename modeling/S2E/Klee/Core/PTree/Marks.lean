import S2E.Klee.Core.PTree.Code

/-!
# The marks of a `PTree`

* `leaves t` : the states of a tree, with their nodes and marks; `outside fs` : those beside the way to a subtree;
* `Correct t` : nodes with children hold no state and are marked if a child is; `PathCorrect b fs` : so are the nodes on
  the way to a subtree marked `b`;
* `rootActive_iff`, `Correct.marked` : then a node is marked if and only if a leaf below it is;
* `deactivateUp_runs`, `activateUp_runs`, `removeUp_runs`, `split_runs` : the operations, seen from a leaf;
* `selectState_runs` : the searcher ends at a leaf that is marked, whatever the random bits.
-/

namespace S2E.Klee.PTree

open Lib Lib.ParentTree List Option

variable {S : Type}

/-- A state with its node and mark. -/
abbrev Leaf (S : Type) := S × Nat × Bool

def held (x : Nat × NodeData S) : List (Leaf S) :=
  match x.2.data with
  | some s => [(s, x.1, x.2.active)]
  | none => []

def leaves : Shape (NodeData S) → List (Leaf S)
  | .nil => []
  | .node x l r => held x ++ (leaves l ++ leaves r)

def outside : List (Frame (NodeData S)) → List (Leaf S)
  | [] => []
  | f :: fs => leaves f.sibling ++ outside fs

def rootActive : Shape (NodeData S) → Bool
  | .nil => false
  | .node x _ _ => x.2.active

/-- A node without children holds a state. One with children holds none, and is marked if a child is. -/
def NodeCorrect (x : Nat × NodeData S) (l r : Shape (NodeData S)) : Prop :=
  (l = .nil ∧ r = .nil ∧ x.2.data ≠ none) ∨
    ((l ≠ .nil ∨ r ≠ .nil) ∧ x.2.data = none ∧ x.2.active = (rootActive l || rootActive r))

def Correct : Shape (NodeData S) → Prop
  | .nil => True
  | .node x l r => NodeCorrect x l r ∧ Correct l ∧ Correct r

def PathCorrect : Bool → List (Frame (NodeData S)) → Prop
  | _, [] => True
  | b, f :: fs => (f.node.2.data = none ∧ f.node.2.active = (b || rootActive f.sibling)) ∧ Correct f.sibling ∧
      PathCorrect f.node.2.active fs

/-- Every node is marked if and only if a leaf below it is. -/
def Marked : Shape (NodeData S) → Prop
  | .nil => True
  | .node x l r => (x.2.active = true ↔ ∃ e ∈ leaves (.node x l r), e.2.2 = true) ∧ Marked l ∧ Marked r

section Shapes

variable {d : Side} {x : Nat × NodeData S} {l r s t : Shape (NodeData S)} {f : Frame (NodeData S)}
  {fs : List (Frame (NodeData S))} {b : Bool} {e : Leaf S}

@[simp] theorem rootActive_branch : rootActive (branch d x s t) = x.2.active := by cases d <;> rfl

theorem nodeCorrect_comm : NodeCorrect x l r ↔ NodeCorrect x r l := by
  unfold NodeCorrect
  rw [Bool.or_comm, or_comm (a := l ≠ .nil)]
  tauto

theorem correct_branch : Correct (branch d x s t) ↔ NodeCorrect x s t ∧ Correct s ∧ Correct t := by
  cases d with
  | left => exact Iff.rfl
  | right => rw [nodeCorrect_comm, and_comm (a := Correct s)]; exact Iff.rfl

theorem leaves_branch : (leaves (branch d x s t)).Perm (held x ++ (leaves s ++ leaves t)) := by
  cases d with
  | left => exact List.Perm.refl _
  | right => exact List.Perm.append_left _ perm_append_comm

theorem held_of_none (hx : x.2.data = none) : held x = [] := by
  rw [held, hx]

/-- The tree as seen from a child that is not empty. -/
theorem correct_child (hs : s ≠ .nil) : Correct (branch d x s t) ∧ PathCorrect x.2.active fs ↔
    Correct s ∧ PathCorrect (rootActive s) (⟨d, x, t⟩ :: fs) := by
  rw [correct_branch, PathCorrect, NodeCorrect]
  simp only [hs, false_and, false_or, ne_eq, not_false_eq_true, true_or, true_and]
  tauto

theorem leaves_child (hx : x.2.data = none) :
    (leaves (branch d x s t) ++ outside fs).Perm (leaves s ++ outside (⟨d, x, t⟩ :: fs)) := by
  have hperm := leaves_branch (d := d) (x := x) (s := s) (t := t)
  rw [held_of_none hx, nil_append] at hperm
  rw [outside, ← append_assoc]
  exact hperm.append_right _

theorem rootActive_iff (hc : Correct t) : rootActive t = true ↔ ∃ e ∈ leaves t, e.2.2 = true := by
  induction t with
  | nil => simp [rootActive, leaves]
  | node x l r ihl ihr =>
    obtain ⟨hx, hl, hr⟩ := hc
    rcases hx with ⟨rfl, rfl, hdata⟩ | ⟨-, hdata, hactive⟩
    · obtain ⟨s, hs⟩ := ne_none_iff_exists'.1 hdata
      simp [rootActive, leaves, held, hs]
    · rw [rootActive, hactive, Bool.or_eq_true, ihl hl, ihr hr, leaves, held_of_none hdata]
      simp only [nil_append, mem_append, or_and_right, exists_or]

theorem Correct.marked (hc : Correct t) : Marked t := by
  induction t with
  | nil => trivial
  | node x l r ihl ihr => exact ⟨rootActive_iff hc, ihl hc.2.1, ihr hc.2.2⟩

end Shapes

section Zip

variable {x : Nat × NodeData S} {t : Shape (NodeData S)} {fs : List (Frame (NodeData S))} {h : ParentTree.Heap (NodeData S)}
  {e : Leaf S}

theorem zip_up (hh : Holds h t fs) (ht : t ≠ .nil) (hc : Correct t) (hp : PathCorrect (rootActive t) fs) :
    ∃ t', Holds h t' [] ∧ t' ≠ .nil ∧ Correct t' ∧ (leaves t').Perm (leaves t ++ outside fs) := by
  induction fs generalizing t with
  | nil => exact ⟨t, hh, ht, hc, by rw [outside, append_nil]⟩
  | cons f fs ih =>
    obtain ⟨d, y, u⟩ := f
    obtain ⟨hc', hp'⟩ := (correct_child ht).2 ⟨hc, hp⟩
    have hne : branch d y t u ≠ .nil := by cases d <;> simp [branch]
    obtain ⟨t', hh', hne', ht', hperm⟩ := ih (holds_child.1 hh) hne hc' (by rwa [rootActive_branch])
    exact ⟨t', hh', hne', ht', hperm.trans (leaves_child hp.1.1)⟩

theorem exists_focus (hh : Holds h t fs) (hc : Correct t) (hp : PathCorrect (rootActive t) fs) (he : e ∈ leaves t) :
    ∃ fs', Holds h (.node (e.2.1, ⟨some e.1, e.2.2⟩) .nil .nil) fs' ∧ PathCorrect e.2.2 fs' ∧
      (leaves t ++ outside fs).Perm (e :: outside fs') := by
  induction t generalizing fs with
  | nil => cases he
  | node x l r ihl ihr =>
    rcases hc.1 with ⟨rfl, rfl, hdata⟩ | ⟨-, hdata, -⟩
    · obtain ⟨s, hs⟩ := ne_none_iff_exists'.1 hdata
      have hheld : leaves (.node x .nil .nil) = [(s, x.1, x.2.active)] := by simp [leaves, held, hs]
      rw [hheld] at he ⊢
      obtain rfl := mem_singleton.1 he
      obtain ⟨a, data, active⟩ := x
      obtain rfl : data = some s := hs
      exact ⟨fs, hh, hp, List.Perm.refl _⟩
    · have hmem : e ∈ leaves l ∨ e ∈ leaves r := by
        rw [leaves, held_of_none hdata, nil_append] at he
        exact mem_append.1 he
      rcases hmem with he | he
      · have hne : l ≠ .nil := by rintro rfl; cases he
        obtain ⟨hl, hpath⟩ := (correct_child (d := .left) hne).1 ⟨hc, hp⟩
        have hchild : Holds h l (⟨.left, x, r⟩ :: fs) := holds_child.2 hh
        obtain ⟨fs', hh', hp', hperm⟩ := ihl hchild hl hpath he
        exact ⟨fs', hh', hp', (leaves_child (d := .left) hdata).trans hperm⟩
      · have hne : r ≠ .nil := by rintro rfl; cases he
        obtain ⟨hr, hpath⟩ := (correct_child (d := .right) hne).1 ⟨hc, hp⟩
        have hchild : Holds h r (⟨.right, x, l⟩ :: fs) := holds_child.2 hh
        obtain ⟨fs', hh', hp', hperm⟩ := ihr hchild hr hpath he
        exact ⟨fs', hh', hp', (leaves_child (d := .right) hdata).trans hperm⟩

end Zip

/-! ## The operations -/

variable {n : Nat} {g : Unit → TreeM S γ} {Q : γ → ParentTree.Heap (NodeData S) → Prop}

section Operations

variable {γ : Type} {d : Side} {x : Nat × NodeData S} {s t u : Shape (NodeData S)} {f : Frame (NodeData S)}
  {fs : List (Frame (NodeData S))} {h : ParentTree.Heap (NodeData S)} {b : Bool}

theorem assert_bind (hb : b = true) (hg : Runs (g ()) h Q) : Runs (assert b >>= g) h Q := by
  rw [assert, if_pos hb]
  exact hg

def withActive (b : Bool) (x : Nat × NodeData S) : Nat × NodeData S := (x.1, { x.2 with active := b })

theorem setActive_bind (b : Bool)
    (hh : Holds h (branch d x s t) fs) (hg : ∀ h', Holds h' (branch d (withActive b x) s t) fs → Runs (g ()) h' Q) :
    Runs (setActive b x.1 >>= g) h Q := by
  refine update_bind hh.cell_of_branch (hg _ ?_)
  have hset := Holds.setData hh (withActive b x).2
  cases d <;> exact hset

theorem deactivateUp_none (n : Nat) : deactivateUp n none = (return () : TreeM S Unit) := by
  cases n <;> rfl

theorem activateUp_none (n : Nat) : activateUp n none = (return () : TreeM S Unit) := by
  cases n <;> rfl

/-- The way to a subtree that is not marked any more. Where it stops, the other subtree is, and the node was marked
before. -/
theorem deactivateUp_runs (hh : Holds h t fs) (ht : t ≠ .nil) (hactive : rootActive t = false)
    (hp : PathCorrect b fs) (hn : fs.length ≤ n) : Runs (deactivateUp n (up fs)) h fun _ h' => ∃ fs', Holds h' t fs' ∧
      PathCorrect false fs' ∧ outside fs' = outside fs := by
  induction fs generalizing h t n b with
  | nil =>
    rw [up, deactivateUp_none]
    exact Runs.pure ⟨[], hh, trivial, rfl⟩
  | cons f fs ih =>
    obtain ⟨n, rfl⟩ : ∃ m, n = m + 1 := ⟨n - 1, by rw [length_cons] at hn; omega⟩
    obtain ⟨d, y, u⟩ := f
    obtain ⟨⟨hdata, hmark⟩, hu, hrest⟩ := hp
    -- the node is marked inactive, and the loop goes on
    have hup : rootActive u = false → Runs (do setActive false y.1; deactivateUp n (up fs)) h fun _ h' => ∃ fs',
        Holds h' t fs' ∧ PathCorrect false fs' ∧ outside fs' = outside (⟨d, y, u⟩ :: fs) := by
      intro hu'
      refine setActive_bind false (holds_child.1 hh) fun h₁ hh₁ => ?_
      have hne : branch d (withActive false y) t u ≠ .nil := by cases d <;> simp [branch]
      refine (ih hh₁ hne (rootActive_branch ..) hrest (by simpa using hn)).mono ?_
      rintro _ h₂ ⟨fs', hh₂, hp', hout⟩
      refine ⟨⟨d, withActive false y, u⟩ :: fs', holds_child.2 hh₂, ⟨⟨hdata, ?_⟩, hu, hp'⟩, ?_⟩
      · rw [hu']
        rfl
      · rw [outside, outside, hout]
    have hstay : rootActive u = true → PathCorrect false (⟨d, y, u⟩ :: fs) := by
      intro hu'
      refine ⟨⟨hdata, ?_⟩, hu, hrest⟩
      rw [hmark, hu', Bool.or_true, Bool.or_true]
    refine load_bind hh.cell_of_parent ?_
    cases t with
    | nil => exact absurd rfl ht
    | node z tl tr =>
      cases u with
      | nil => cases d <;> exact hup rfl
      | node w ul ur =>
        have hz : z.2.active = false := hactive
        have hcz := hh.cell
        have hcw := hh.path.2.1.1
        by_cases hw : w.2.active = true
        · cases d with
          | left =>
            refine load_bind hcz (load_bind hcw ?_)
            simp only [hz, hw]
            exact Runs.pure ⟨_, hh, hstay hw, rfl⟩
          | right =>
            refine load_bind hcw (load_bind hcz ?_)
            simp only [hz, hw]
            exact Runs.pure ⟨_, hh, hstay hw, rfl⟩
        · have hw' : w.2.active = false := by simpa using hw
          cases d with
          | left =>
            refine load_bind hcz (load_bind hcw ?_)
            simp only [hz, hw']
            exact hup hw'
          | right =>
            refine load_bind hcw (load_bind hcz ?_)
            simp only [hz, hw']
            exact hup hw'

theorem activateUp_runs (hh : Holds h t fs) (hp : PathCorrect b fs) (hn : fs.length ≤ n) :
    Runs (activateUp n (up fs)) h fun _ h' => ∃ fs', Holds h' t fs' ∧ PathCorrect true fs' ∧ outside fs' = outside fs := by
  induction fs generalizing h t n b with
  | nil =>
    rw [up, activateUp_none]
    exact Runs.pure ⟨[], hh, trivial, rfl⟩
  | cons f fs ih =>
    obtain ⟨n, rfl⟩ : ∃ m, n = m + 1 := ⟨n - 1, by rw [length_cons] at hn; omega⟩
    obtain ⟨d, y, u⟩ := f
    obtain ⟨⟨hdata, -⟩, hu, hrest⟩ := hp
    refine setActive_bind true (holds_child.1 hh) fun h₁ hh₁ => ?_
    refine load_bind hh₁.cell_of_branch ?_
    rw [Cell.along_parent]
    refine (ih hh₁ hrest (by simpa using hn)).mono ?_
    rintro _ h₂ ⟨fs', hh₂, hp', hout⟩
    refine ⟨⟨d, withActive true y, u⟩ :: fs', holds_child.2 hh₂, ⟨⟨hdata, ?_⟩, hu, hp'⟩, ?_⟩
    · rw [Bool.true_or]
      rfl
    · rw [outside, outside, hout]

theorem deactivate_runs (hh : Holds h (.node x .nil .nil) fs) (hp : PathCorrect b fs) :
    Runs (deactivate x.1) h fun _ h' => ∃ fs', Holds h' (.node (withActive false x) .nil .nil) fs' ∧
      PathCorrect false fs' ∧ outside fs' = outside fs := by
  refine load_bind hh.cell (assert_bind rfl (setActive_bind (d := .left) false hh fun h₁ hh₁ => Runs.get_bind ?_))
  have hlen := hh₁.length_le
  exact deactivateUp_runs hh₁ (by simp) rfl hp (by omega)

theorem activate_runs (hh : Holds h (.node x .nil .nil) fs) (hp : PathCorrect b fs) :
    Runs (activate x.1) h fun _ h' => ∃ fs', Holds h' (.node (withActive true x) .nil .nil) fs' ∧
      PathCorrect true fs' ∧ outside fs' = outside fs := by
  refine load_bind hh.cell (assert_bind rfl (Runs.get_bind ?_))
  have hlen := hh.length_le
  rw [BinaryTree.numNodes] at hlen
  obtain ⟨n, hn⟩ : ∃ m, h.next = m + 1 := ⟨h.next - 1, by omega⟩
  rw [hn]
  refine setActive_bind (d := .left) true hh fun h₁ hh₁ => load_bind hh₁.cell_of_branch ?_
  exact activateUp_runs hh₁ hp (by omega)

/-- What pointed to the node that was deleted is found by comparing pointers. -/
theorem unhook_runs (hh : HoldsAt h (some n) .nil (f :: fs)) (hn : occPath n (f :: fs) = 0) :
    Runs (unhook f.node.1 n) h fun _ h' => Holds h' .nil (f :: fs) := by
  have hne : ptr f.sibling ≠ some n := by
    intro heq
    have := occ_of_ptr heq
    rw [occPath_cons] at hn
    omega
  refine load_bind hh.cell_of_parent ?_
  match f with
  | ⟨.left, y, u⟩ =>
    simp only [Cell.along, if_true]
    exact writeSlot_runs none hh
  | ⟨.right, y, u⟩ =>
    simp only [Cell.along, hne, if_false]
    exact assert_bind (by simp) (writeSlot_runs none hh)

section

variable (hh : Holds h (.node x .nil .nil) fs)
include hh

/-- The leaf is deleted, and with it the nodes above that have no other leaf below them. -/
theorem removeUp_runs (hp : PathCorrect false fs) (hn : fs.length < n) :
    Runs (removeUp n x.1) h fun _ h' => outside fs = [] ∨ ∃ t', Holds h' t' [] ∧ t' ≠ .nil ∧ Correct t' ∧
      (leaves t').Perm (outside fs) := by
  induction fs generalizing h x n with
  | nil =>
    obtain ⟨n, rfl⟩ : ∃ m, n = m + 1 := ⟨n - 1, by rw [length_nil] at hn; omega⟩
    refine load_bind hh.cell ?_
    exact Runs.bind (Q := fun _ _ => True) ⟨(), _, rfl, trivial⟩ fun _ _ _ => Runs.pure (.inl rfl)
  | cons f fs ih =>
    obtain ⟨n, rfl⟩ : ∃ m, n = m + 1 := ⟨n - 1, by omega⟩
    obtain ⟨⟨hdata, hmark⟩, hu, hrest⟩ := hp
    rw [Bool.false_or] at hmark
    obtain ⟨hgone, hunused⟩ := HoldsAt.splice (d := .left) hh trivial (fun _ _ => rfl) rfl rfl
    refine load_bind hh.cell ((free_runs hgone hunused).bind fun _ h₁ hh₁ => ?_)
    rw [occ_nil, zero_add] at hunused
    refine (unhook_runs hh₁ hunused).bind fun _ h₂ hh₂ => ?_
    refine load_bind hh₂.cell_of_parent ?_
    obtain ⟨d, y, u⟩ := f
    cases u with
    | nil =>
      have hparent : Holds h₂ (.node y .nil .nil) fs := by cases d <;> exact holds_child.1 hh₂
      have hpath : PathCorrect false fs := by
        have hfalse : y.2.active = false := hmark
        rwa [hfalse] at hrest
      cases d <;> exact ih hparent hpath (by simpa using hn)
    | node z ul ur =>
      have hup : Holds h₂ (branch d y .nil (.node z ul ur)) fs := holds_child.1 hh₂
      have hne : branch d y .nil (.node z ul ur) ≠ .nil := by cases d <;> simp [branch]
      have hcorrect : Correct (branch d y .nil (.node z ul ur)) :=
        correct_branch.2 ⟨.inr ⟨.inr (by simp), hdata, by rw [rootActive, Bool.false_or]; exact hmark⟩, trivial, hu⟩
      obtain ⟨t', hh', hne', hc', hperm⟩ := zip_up hup hne hcorrect (by rwa [rootActive_branch])
      have hstop : Runs (return () : TreeM S Unit) h₂ fun _ h' => outside (⟨d, y, .node z ul ur⟩ :: fs) = [] ∨
          ∃ t', Holds h' t' [] ∧ t' ≠ .nil ∧ Correct t' ∧ (leaves t').Perm (outside (⟨d, y, .node z ul ur⟩ :: fs)) :=
        Runs.pure (.inr ⟨t', hh', hne', hc', hperm.trans (leaves_child hdata)⟩)
      cases d <;> exact hstop

theorem remove_runs (hp : PathCorrect b fs) : Runs (remove x.1) h fun _ h' =>
    outside fs = [] ∨ ∃ t', Holds h' t' [] ∧ t' ≠ .nil ∧ Correct t' ∧ (leaves t').Perm (outside fs) := by
  refine load_bind hh.cell (assert_bind rfl ((deactivate_runs hh hp).bind ?_))
  rintro _ h₁ ⟨fs', hh₁, hp₁, hout⟩
  rw [← hout]
  have hlen := hh₁.length_le
  rw [BinaryTree.numNodes] at hlen
  exact Runs.get_bind (removeUp_runs (x := withActive false x) hh₁ hp₁ (by omega))

/-- Two leaves are put below one that is marked. -/
theorem split_runs (hx : x.2 = ⟨none, true⟩) (hp : PathCorrect true fs) (l r : S) :
    Runs (split x.1 l r) h fun p h' => ∃ t', Holds h' t' [] ∧ t' ≠ .nil ∧ Correct t' ∧
      (leaves t').Perm ((l, p.1, true) :: (r, p.2, true) :: outside fs) := by
  have hactive : Runs (activeAt (up fs)) h fun b h' => b = true ∧ h' = h := by
    cases fs with
    | nil => exact Runs.pure ⟨rfl, rfl⟩
    | cons f fs =>
      refine load_bind hh.cell_of_parent (Runs.pure ⟨?_, rfl⟩)
      rw [Cell.along_data, hp.1.2, Bool.true_or]
  refine load_bind hh.cell (assert_bind rfl (hactive.bind ?_))
  rintro _ h ⟨rfl, rfl⟩
  refine assert_bind (by simp [hx]) ?_
  have hleft : Holds h .nil (⟨.left, x, .nil⟩ :: fs) := holds_child.2 hh
  have hnewl := new_runs ⟨some l, true⟩ hleft
  refine hnewl.bind fun a h₁ hh₁ => ?_
  have hwritel := writeSlot_runs (some a) hh₁
  refine hwritel.bind fun _ h₂ hh₂ => ?_
  have hright : Holds h₂ .nil (⟨.right, x, .node (a, ⟨some l, true⟩) .nil .nil⟩ :: fs) :=
    (holds_sibling (d := .left)).1 hh₂
  have hnewr := new_runs ⟨some r, true⟩ hright
  refine hnewr.bind fun c h₃ hh₃ => ?_
  have hwriter := writeSlot_runs (some c) hh₃
  refine hwriter.bind fun _ h₄ hh₄ => Runs.pure ?_
  have hleaf : ∀ (s : S) (a : Nat), Correct (.node (a, ⟨some s, true⟩) .nil .nil) := fun s a =>
    ⟨.inl ⟨rfl, rfl, by simp⟩, trivial, trivial⟩
  have hpath : PathCorrect true (⟨.right, x, .node (a, ⟨some l, true⟩) .nil .nil⟩ :: fs) := by
    refine ⟨⟨?_, ?_⟩, hleaf l a, ?_⟩
    all_goals simp only [hx]
    · rfl
    · exact hp
  obtain ⟨t', hh', hne', hc', hperm⟩ := zip_up hh₄ (by simp) (hleaf r c) hpath
  exact ⟨t', hh', hne', hc', hperm.trans (List.Perm.swap _ _ _)⟩

theorem split_fails (hx : x.2.active = false) (l r : S) : (split x.1 l r).run h = .error .assertFailed := by
  have hactive : Runs (activeAt (up fs)) h fun _ h' => h' = h := by
    cases fs with
    | nil => exact Runs.pure rfl
    | cons f fs => exact load_bind hh.cell_of_parent (Runs.pure rfl)
  have hsplit : Outcome ((split x.1 l r).run h) (fun _ => False) fun e => e = .assertFailed := by
    refine load_outcome hh.cell (Runs.outcome_bind (Q := fun _ h' => h' = h) (assert_bind rfl (Runs.pure rfl)) ?_)
    rintro _ h rfl
    refine hactive.outcome_bind ?_
    rintro b h rfl
    simp only [hx]
    rfl
  obtain ⟨_, herror, rfl⟩ := hsplit.fails fun _ => id
  exact herror

end

theorem selectFrom_runs {rng : Nat → BitVec 32} (hh : Holds h (.node x s t) fs) (hc : Correct (.node x s t))
    (hx : x.2.active = true) (hn : (BinaryTree.node x s t).numNodes ≤ n) (flips : Flips) :
    Runs (selectFrom rng n flips x.1) h fun state h' => h' = h ∧ ∃ a, (state, a, true) ∈ leaves (.node x s t) := by
  induction n generalizing x s t fs flips with
  | zero => exact absurd hn (by simp [BinaryTree.numNodes])
  | succ n ih =>
    rw [BinaryTree.numNodes] at hn
    refine load_bind hh.cell ?_
    obtain ⟨hnode, hs, ht⟩ := hc
    rcases hnode with ⟨rfl, rfl, hdata⟩ | ⟨hinner, hdata, hmark⟩
    · obtain ⟨state, hstate⟩ := ne_none_iff_exists'.1 hdata
      simp only [hstate]
      exact Runs.pure ⟨rfl, x.1, by simp [leaves, held, hstate, hx]⟩
    · simp only [hdata]
      rw [hx] at hmark
      have hmem : ∀ e ∈ leaves s ++ leaves t, e ∈ leaves (.node x s t) := by
        intro e he
        rw [leaves, held_of_none hdata]
        exact he
      -- the step to a child that is marked
      have hchild : ∀ {u : Shape (NodeData S)} {fs}, Holds h u fs → Correct u → u.numNodes ≤ n →
          (∀ e ∈ leaves u, e ∈ leaves (.node x s t)) → rootActive u = true → ∀ flips a, ptr u = some a →
          Runs (selectFrom rng n flips a) h fun state h' => h' = h ∧ ∃ a, (state, a, true) ∈ leaves (.node x s t) := by
        intro u fs hu hcu hle hsub hactive flips a ha
        cases u with
        | nil => cases ha
        | node y ul ur =>
          obtain rfl := some.inj ha
          refine (ih hu hcu hactive hle flips).mono ?_
          rintro state _ ⟨rfl, a, he⟩
          exact ⟨rfl, a, hsub _ he⟩
      have hleft := hchild (holds_child (f := ⟨.left, x, t⟩).2 hh) hs (by omega)
        fun e he => hmem e (mem_append_left _ he)
      have hright := hchild (holds_child (f := ⟨.right, x, s⟩).2 hh) ht (by omega)
        fun e he => hmem e (mem_append_right _ he)
      have hrs := hh.rep.2.1
      have hrt := hh.rep.2.2
      cases s with
      | nil =>
        cases t with
        | nil => simp at hinner
        | node z tl tr =>
          have hz : z.2.active = true := by simpa [rootActive] using hmark.symm
          exact load_bind hrt.1 (assert_bind hz (hright hz flips z.1 rfl))
      | node y sl sr =>
        cases t with
        | nil =>
          have hy : y.2.active = true := by simpa [rootActive] using hmark.symm
          exact load_bind hrs.1 (assert_bind hy (hleft hy flips y.1 rfl))
        | node z tl tr =>
          refine load_bind hrs.1 (load_bind hrt.1 ?_)
          simp only [rootActive] at hmark
          by_cases hy : y.2.active = false
          · have hz : z.2.active = true := by simpa [hy] using hmark.symm
            simp only [hy, if_true]
            exact assert_bind hz (hright hz flips z.1 rfl)
          · have hy' : y.2.active = true := by simpa using hy
            by_cases hz : z.2.active = false
            · simp only [hy', hz, if_true, Bool.true_eq_false, if_false]
              exact assert_bind rfl (hleft hy' flips y.1 rfl)
            · have hz' : z.2.active = true := by simpa using hz
              simp only [hy', hz', Bool.true_eq_false, if_false]
              split_ifs with hbit
              · exact hleft hy' _ y.1 rfl
              · exact hright hz' _ z.1 rfl

theorem selectState_runs (rng : Nat → BitVec 32) (hh : Holds h t []) (hc : Correct t) (he : ∃ e ∈ leaves t, e.2.2 = true) :
    Runs (selectState rng) h fun state h' => h' = h ∧ ∃ a, (state, a, true) ∈ leaves t := by
  have hactive := (rootActive_iff hc).2 he
  have hroot : h.root = ptr t := hh.path
  cases t with
  | nil => cases hactive
  | node x l r =>
    refine Runs.get_bind ?_
    rw [hroot]
    have hlen := hh.length_le
    exact load_bind hh.cell (assert_bind hactive (selectFrom_runs hh hc hactive (by omega) _))

end Operations

end S2E.Klee.PTree
