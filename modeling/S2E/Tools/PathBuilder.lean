import Mathlib.Data.List.Nodup
import Mathlib.Tactic

/-!
# `PathBuilder::enumeratePaths`

The paths of a tree of forks, each as the child indices from a leaf up to the root.

* `PathSegment` : a segment with its parents; the place in the tree stands for the address of the object;
* `enumerate` : the loop over the stack. `none` where an assertion fails;
* `ForkTree.leaves` : what the paths are, for forks of any arity.
-/

namespace S2E.Tools.PathBuilder
open List

/-- The forks that a trace records, below one segment. A state that does not fork ends with no children. -/
inductive ForkTree
  | node (children : List ForkTree)

def ForkTree.children : ForkTree → List ForkTree
  | .node cs => cs

inductive PathSegment
  | root (fork : ForkTree)
  | child (parent : PathSegment) (index : Nat) (fork : ForkTree)

namespace PathSegment

def fork : PathSegment → ForkTree
  | root f => f
  | child _ _ f => f

def getChildren (x : PathSegment) : List PathSegment := x.fork.children.mapIdx (child x)

def address : PathSegment → List Nat
  | root _ => []
  | child parent i _ => i :: parent.address

/-- `none` where the loop ends without `this`. -/
def getIndexInParent : PathSegment → Option Nat
  | root _ => some 0
  | child parent i f => parent.getChildren.findIdx? fun it => it.address = (child parent i f).address

/-- The inner loop of `enumeratePaths`. -/
def buildPath : PathSegment → Option (List Nat)
  | root _ => some []
  | child parent i f => do
    let index ← (child parent i f).getIndexInParent
    let path ← parent.buildPath
    return index :: path

end PathSegment

open PathSegment (child fork getChildren)

theorem sum_sizeOf (cs : List ForkTree) : (cs.map sizeOf).sum < sizeOf (ForkTree.node cs) := by
  induction cs with
  | nil => simp
  | cons c cs ih =>
    simp only [map_cons, sum_cons, ForkTree.node.sizeOf_spec, cons.sizeOf_spec] at ih ⊢
    omega

theorem sum_sizeOf_getChildren (x : PathSegment) :
    (x.getChildren.map fun it => sizeOf it.fork).sum < sizeOf x.fork := by
  have same : (x.getChildren.map fun it => sizeOf it.fork) = x.fork.children.map sizeOf := by
    apply ext_getElem
    · simp [getChildren]
    · intro i _ _
      simp only [getChildren, getElem_map, getElem_mapIdx, fork]
  rw [same]
  cases x.fork
  exact sum_sizeOf _

/-- The loop of `enumeratePaths`, over the stack. -/
def enumerate (s : List PathSegment) (paths : List (List Nat)) : Option (List (List Nat)) :=
  match s with
  | [] => some paths
  | curSeg :: s =>
    let children := curSeg.getChildren
    if children.length = 0 ∨ children.length = 2 then
      if 0 < children.length then enumerate (children.reverse ++ s) paths
      else curSeg.buildPath.bind fun path => enumerate s (paths ++ [path])
    else none
termination_by (s.map fun x => sizeOf x.fork).sum
decreasing_by
  all_goals
    have := sum_sizeOf_getChildren curSeg
    simp only [map_append, map_reverse, sum_append, sum_reverse, map_cons, sum_cons]
    omega

def enumeratePaths (t : ForkTree) : Option (List (List Nat)) := enumerate [.root t] []

mutual

/-- The ways from the leaves of a tree up, where `up` is the way from its root. -/
def ForkTree.leaves : ForkTree → List Nat → List (List Nat)
  | .node cs, up => if cs.isEmpty then [up] else leavesFrom 0 cs up

def leavesFrom : Nat → List ForkTree → List Nat → List (List Nat)
  | _, [], _ => []
  | i, c :: cs, up => c.leaves (i :: up) ++ leavesFrom (i + 1) cs up

end

/-- Every fork has two children. -/
inductive ForkTree.Binary : ForkTree → Prop
  | leaf : Binary (.node [])
  | fork {a b : ForkTree} : a.Binary → b.Binary → Binary (.node [a, b])

/-! ## The loop -/

namespace PathSegment

/-- The segment is among the children of its parent, and so on up. -/
def Placed : PathSegment → Prop
  | root _ => True
  | child parent i f => parent.fork.children[i]? = some f ∧ parent.Placed

theorem getIndexInParent_child {parent : PathSegment} {i : Nat} {f : ForkTree}
    (h : parent.fork.children[i]? = some f) : (child parent i f).getIndexInParent = some i := by
  obtain ⟨hi, -⟩ := List.getElem?_eq_some_iff.1 h
  rw [getIndexInParent, List.findIdx?_eq_some_iff_getElem]
  refine ⟨by simpa [getChildren] using hi, ?_, fun j hj => ?_⟩
  · simp [getChildren, address]
  · simp only [getChildren, getElem_mapIdx, address, decide_eq_true_eq, List.cons.injEq]
    omega

theorem buildPath_eq : ∀ {x : PathSegment}, x.Placed → x.buildPath = some x.address
  | root _, _ => rfl
  | child parent i f, h => by
    rw [buildPath, getIndexInParent_child h.1, buildPath_eq h.2]
    rfl

end PathSegment

theorem enumerate_fork {x : PathSegment} {a b : ForkTree} (hx : x.fork = .node [a, b]) (s : List PathSegment)
    (paths : List (List Nat)) : enumerate (x :: s) paths = enumerate (.child x 1 b :: .child x 0 a :: s) paths := by
  have two : x.getChildren = [.child x 0 a, .child x 1 b] := by
    simp [getChildren, hx, ForkTree.children]
  rw [enumerate, two]
  rfl

theorem placed_child {x : PathSegment} {a b : ForkTree} (hx : x.fork = .node [a, b]) (placed : x.Placed) :
    (child x 0 a).Placed ∧ (child x 1 b).Placed :=
  ⟨⟨by rw [hx]; rfl, placed⟩, ⟨by rw [hx]; rfl, placed⟩⟩

/-- A tree of two children is done with when those are, the last one first. -/
theorem enumerate_binary {t : ForkTree} (ht : t.Binary) {x : PathSegment} (hx : x.fork = t) (placed : x.Placed)
    (s : List PathSegment) (paths : List (List Nat)) :
    enumerate (x :: s) paths = enumerate s (paths ++ (t.leaves x.address).reverse) := by
  induction ht generalizing x s paths with
  | leaf =>
    have none : x.getChildren = [] := by simp [getChildren, hx, ForkTree.children]
    rw [enumerate, none, PathSegment.buildPath_eq placed]
    simp [ForkTree.leaves]
  | @fork a b _ _ iha ihb =>
    obtain ⟨pa, pb⟩ := placed_child hx placed
    rw [enumerate_fork hx, ihb rfl pb, iha rfl pa, append_assoc]
    simp [ForkTree.leaves, leavesFrom, PathSegment.address]

/-- Any other tree has a segment that fails the assertion, and the loop comes to it. -/
theorem binary_or_fails : ∀ t : ForkTree, t.Binary ∨ ∀ {x : PathSegment}, x.fork = t → x.Placed →
    ∀ s paths, enumerate (x :: s) paths = none
  | .node [] => .inl .leaf
  | .node [a, b] => by
    rcases binary_or_fails b with hb | hb
    · rcases binary_or_fails a with ha | ha
      · exact .inl (.fork ha hb)
      · refine .inr fun hx placed s paths => ?_
        obtain ⟨pa, pb⟩ := placed_child hx placed
        rw [enumerate_fork hx, enumerate_binary hb rfl pb, ha rfl pa]
    · refine .inr fun hx placed s paths => ?_
      rw [enumerate_fork hx, hb rfl (placed_child hx placed).2]
  | .node [_] | .node (_ :: _ :: _ :: _) => by
    refine .inr fun {x} hx placed s paths => ?_
    rw [enumerate, if_neg]
    simp [getChildren, hx, ForkTree.children]

/-! ## The paths -/

theorem ForkTree.Binary.suffix {t : ForkTree} (ht : t.Binary) {up path : List Nat} (h : path ∈ t.leaves up) :
    up <:+ path := by
  induction ht generalizing up with
  | leaf =>
    obtain rfl : path = up := by simpa [ForkTree.leaves] using h
    exact suffix_rfl
  | fork _ _ iha ihb =>
    simp only [ForkTree.leaves, leavesFrom, isEmpty_cons, Bool.false_eq_true, if_false, append_nil, mem_append] at h
    rcases h with h | h
    · exact (suffix_cons _ _).trans (iha h)
    · exact (suffix_cons _ _).trans (ihb h)

theorem ForkTree.Binary.nodup {t : ForkTree} (ht : t.Binary) (up : List Nat) : (t.leaves up).Nodup := by
  induction ht generalizing up with
  | leaf => simp [ForkTree.leaves]
  | fork ha hb iha ihb =>
    simp only [ForkTree.leaves, leavesFrom, isEmpty_cons, Bool.false_eq_true, if_false, append_nil]
    refine (iha _).append (ihb _) fun path h₀ h₁ => ?_
    -- the child index above `up` tells the two sides apart
    have same := suffix_of_suffix_length_le (ha.suffix h₀) (hb.suffix h₁) le_rfl
    simpa using same.eq_of_length rfl

/-- The paths are those of the leaves, and no two are the same, exactly if every fork has two children. -/
theorem enumeratePaths_right_iff (t : ForkTree) :
    (∃ paths, enumeratePaths t = some paths ∧ paths.Perm (t.leaves []) ∧ paths.Nodup) ↔ t.Binary := by
  constructor
  · rintro ⟨paths, done, -⟩
    refine (binary_or_fails t).resolve_right fun fails => ?_
    cases (fails (x := .root t) rfl trivial [] []).symm.trans done
  · intro ht
    refine ⟨(t.leaves []).reverse, ?_, reverse_perm _, nodup_reverse.2 (ht.nodup [])⟩
    rw [enumeratePaths, enumerate_binary ht (x := .root t) rfl trivial, enumerate]
    rfl

/-- A fork of three states. -/
theorem enumeratePaths_three : enumeratePaths (.node [.node [], .node [], .node []]) = none := by
  rw [enumeratePaths, enumerate]
  rfl

end S2E.Tools.PathBuilder
