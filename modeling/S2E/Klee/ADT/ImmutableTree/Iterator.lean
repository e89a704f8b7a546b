import S2E.Klee.ADT.ImmutableTree.Node

/-!
# `ImmutableTree::iterator`

An iterator holds its root and a stack of nodes, from the root down to the node it is at. The stack has as many places as
the root is high.

* `Iterator.create`, `begin`, `increment`, `lowerBound`, `upperBound` : the source, with a fault where the stack overflows;
* `Path root t ps later` : the nodes `ps` lead from the root down to `t`, and the values after those of `t` are `later`;
* `Iterates it root rest` : the iterator is on the way through `root`, and `rest` is what it visits from now on;
* `begin_runs`, `increment_runs`, `lowerBound_runs`, `upperBound_runs`, `visit_runs` : it visits what it should.
-/

namespace S2E.Klee.ImmutableTree

open Lib Lib.RefCount List

variable {α κ : Type} [Inhabited α]

/-- The root and the `FixedStack`, its top first. -/
structure Iterator where
  root : Ptr
  max : Nat
  stack : List Ptr

namespace Iterator

/-- `push_back`. What is behind the last place is not the stack's. -/
def push (it : Iterator) (p : Ptr) : NodeM α Iterator :=
  if it.stack.length < it.max then return { it with stack := p :: it.stack } else throw .overflow

/-- `iterator(root, false)` -/
def create (p : Ptr) : NodeM α Iterator := do
  let root ← incref p
  let n ← Node.fields root
  return ⟨root, n.data.height, []⟩

/-- `for (; !n->isTerminator(); n = n->left) stack.push_back(n)` -/
def pushLeft : Nat → Iterator → Ptr → NodeM α Iterator
  | 0, _, _ => throw .outOfFuel
  | _ + 1, it, none => return it
  | fuel + 1, it, some a => do
    let it ← it.push (some a)
    let n ← Node.fields (some a)
    pushLeft fuel it n.left

/-- `operator*` -/
def deref (it : Iterator) : NodeM α α :=
  match it.stack with
  | [] => throw .dangling
  | n :: _ => do
    let c ← Node.fields n
    return c.data.value

/-- The loop of `operator++` that goes up, from the node `prev` that was popped, until it comes from the left. -/
def climb : Ptr → List Ptr → NodeM α (List Ptr)
  | _, [] => return []
  | prev, n :: rest => do
    let c ← Node.fields n
    if prev = c.left then return n :: rest
    else climb n rest

/-- `operator++` -/
def increment (it : Iterator) : NodeM α Iterator :=
  match it.stack with
  | [] => throw .assertFailed
  | n :: rest => do
    let c ← Node.fields n
    if c.right = none then do
      let stack ← climb n rest
      return { it with stack := stack }
    else do
      let it ← it.push c.right
      let r ← Node.fields c.right
      pushLeft (it.max + 1) it r.left

/-- The loop of `lower_bound`, and whether it returned from there. -/
def descend [LinearOrder κ] (key : α → κ) (k : κ) : Nat → Iterator → Ptr → NodeM α (Iterator × Bool)
  | 0, _, _ => throw .outOfFuel
  | _ + 1, it, none => return (it, false)
  | fuel + 1, it, some a => do
    let it ← it.push (some a)
    let n ← Node.fields (some a)
    if k < key n.data.value then descend key k fuel it n.left
    else if key n.data.value < k then descend key k fuel it n.right
    else return (it, true)

/-- What a loop over the iterator sees, up to `end`. -/
def visit : Nat → Iterator → NodeM α (List α)
  | 0, _ => throw .outOfFuel
  | fuel + 1, it =>
    if it.stack = [] then return []
    else do
      let v ← it.deref
      let it ← it.increment
      let vs ← visit fuel it
      return v :: vs

end Iterator

/-- `begin` of the tree at `p` -/
def begin (p : Ptr) : NodeM α Iterator := do
  let it ← Iterator.create p
  Iterator.pushLeft (it.max + 1) it it.root

section

variable [LinearOrder κ] (key : α → κ)

/-- `lower_bound`: after a loop that ended at a terminator, the last node may be just below the key. -/
def lowerBound (k : κ) (p : Ptr) : NodeM α Iterator := do
  let it ← Iterator.create p
  let r ← it.descend key k (it.max + 1) p
  if r.2 then return r.1
  else match r.1.stack with
    | [] => return r.1
    | last :: _ => do
      let n ← Node.fields last
      if key n.data.value < k then r.1.increment else return r.1

/-- `upper_bound`; the iterator `end` is given up at the end. -/
def upperBound (k : κ) (p : Ptr) : NodeM α Iterator := do
  let e ← Iterator.create p
  let it ← lowerBound key k p
  if it.stack = e.stack then do
    Node.release e.root
    return it
  else do
    let v ← it.deref
    if k < key v then do
      Node.release e.root
      return it
    else do
      let it ← it.increment
      Node.release e.root
      return it

end

/-! ## Where an iterator is -/

inductive Path (root : Shape (NodeData α)) : Shape (NodeData α) → List (Shape (NodeData α)) → List α → Prop
  | root : Path root root [] []
  | left {x l r ps later} : Path root (.node x l r) ps later →
      Path root l (.node x l r :: ps) (x.2.value :: ((plain r).toList ++ later))
  | right {x l r ps later} : Path root (.node x l r) ps later → Path root r (.node x l r :: ps) later

/-- The node on top of the stack, what is right of it and what comes after. -/
def At (root : Shape (NodeData α)) : List (Shape (NodeData α)) → List α → Prop
  | [], rest => rest = []
  | n :: ps, rest => ∃ x l r later, n = .node x l r ∧ Path root n ps later ∧
      rest = x.2.value :: ((plain r).toList ++ later)

structure Iterates (it : Iterator) (root : Shape (NodeData α)) (rest : List α) : Prop where
  root_eq : it.root = ptr root
  max_eq : it.max = root.height
  stack_eq : ∃ ps, it.stack = ps.map ptr ∧ At root ps rest

section

variable {h : RefCount.Heap (NodeData α)} {R : Multiset (Shape (NodeData α))} {root t n : Shape (NodeData α)}
  {ps : List (Shape (NodeData α))} {later rest : List α} {it : Iterator} {fuel : Nat}

section

omit [Inhabited α]

/-- In an ordered tree the two children of a node are different nodes. -/
theorem ptr_left_ne_right [LinearOrder κ] {key : α → κ} {x : Nat × NodeData α} {l r : Shape (NodeData α)}
    (hr : Rep h (.node x l r)) (ho : Ordered key (plain (.node x l r))) (hne : r ≠ .nil) : ptr r ≠ ptr l := by
  intro heq
  obtain rfl := hr.2.2.unique hr.2.1 heq
  cases r with
  | nil => exact hne rfl
  | node y rl rr =>
    obtain ⟨-, -, hlt, hgt⟩ := ordered_node.1 ho
    have hmem : y.2.value ∈ (plain (.node y rl rr)).toList := by simp [plain]
    exact lt_asymm (hlt _ hmem) (hgt _ hmem)

theorem Iterates.stack_eq_nil_iff (hi : Iterates it root rest) : it.stack = [] ↔ rest = [] := by
  obtain ⟨-, -, ps, hstack, hat⟩ := hi
  cases ps with
  | nil => exact ⟨fun _ => hat, fun _ => hstack⟩
  | cons n ps =>
    obtain ⟨x, l, r, later, -, -, rfl⟩ := hat
    simp [hstack]

section

variable (hp : Path root t ps later)

include hp

theorem Path.height_le : t.height + ps.length ≤ root.height := by
  induction hp with
  | root => simp
  | left hp ih => simp only [BinaryTree.height, length_cons] at ih ⊢; omega
  | right hp ih => simp only [BinaryTree.height, length_cons] at ih ⊢; omega

theorem Path.rep (hr : Rep h root) : Rep h t := by
  induction hp with
  | root => exact hr
  | left hp ih => exact ih.2.1
  | right hp ih => exact ih.2.2

theorem Path.ordered [LinearOrder κ] {key : α → κ} (ho : Ordered key (plain root)) : Ordered key (plain t) := by
  induction hp with
  | root => exact ho
  | left hp ih => exact (ordered_node.1 ih).1
  | right hp ih => exact (ordered_node.1 ih).2.1

/-- There is a place left as long as the way goes on. -/
theorem push_bind {γ : Type} {f : Iterator → NodeM α γ} {Q : γ → RefCount.Heap (NodeData α) → Prop}
    (ht : t ≠ .nil) (hf : Runs (f ⟨ptr root, root.height, (t :: ps).map ptr⟩) h Q) :
    Runs (Iterator.push ⟨ptr root, root.height, ps.map ptr⟩ (ptr t) >>= f) h Q := by
  have hle := hp.height_le
  have hpos : 0 < t.height := by
    cases t with
    | nil => exact absurd rfl ht
    | node x l r => exact Nat.succ_pos _
  have hroom : (ps.map ptr).length < root.height := by rw [length_map]; omega
  unfold Iterator.push
  rw [if_pos hroom]
  exact hf

end

end

theorem pushLeft_runs (hr : Rep h root) (hp : Path root t ps later) (hnil : t = .nil → At root ps later)
    (hfuel : t.height < fuel) : Runs (Iterator.pushLeft fuel ⟨ptr root, root.height, ps.map ptr⟩ (ptr t)) h
      fun it h' => h' = h ∧ Iterates it root ((plain t).toList ++ later) := by
  induction fuel generalizing t ps later with
  | zero => omega
  | succ fuel ih =>
    cases t with
    | nil => exact Runs.pure ⟨rfl, rfl, rfl, ps, rfl, hnil rfl⟩
    | node x l r =>
      rw [BinaryTree.height] at hfuel
      refine push_bind hp (by simp) ?_
      refine fields_node_bind (hp.rep hr) fun m => ?_
      have hat : At root (.node x l r :: ps) (x.2.value :: ((plain r).toList ++ later)) := ⟨x, l, r, later, rfl, hp, rfl⟩
      refine (ih hp.left (fun _ => hat) (by omega)).mono ?_
      rintro _ _ ⟨rfl, hi⟩
      refine ⟨rfl, ?_⟩
      simpa [plain] using hi

theorem deref_runs {v : α} (hr : Rep h root) (hi : Iterates it root (v :: rest)) :
    Runs it.deref h fun w h' => w = v ∧ h' = h := by
  obtain ⟨-, -, ps, hstack, hat⟩ := hi
  cases ps with
  | nil => cases hat
  | cons n ps =>
    obtain ⟨x, l, r, later, rfl, hp, heq⟩ := hat
    obtain ⟨rfl, -⟩ := cons.inj heq
    unfold Iterator.deref
    rw [hstack]
    refine fields_node_bind (hp.rep hr) fun _ => ?_
    exact Runs.pure ⟨rfl, rfl⟩

variable [LinearOrder κ] {key : α → κ}

section

variable (hr : Rep h root) (ho : Ordered key (plain root))

include hr ho

theorem climb_runs (hp : Path root n ps later) (hn : n ≠ .nil) :
    Runs (Iterator.climb (ptr n) (ps.map ptr)) h fun stack h' => h' = h ∧
      ∃ ps', stack = ps'.map ptr ∧ At root ps' later := by
  induction ps generalizing n later with
  | nil =>
    cases hp with
    | root => exact Runs.pure ⟨rfl, [], rfl, rfl⟩
  | cons m ps ih =>
    cases hp with
    | @left x _ r _ later hp =>
      refine fields_node_bind (hp.rep hr) fun _ => ?_
      rw [if_pos rfl]
      exact Runs.pure ⟨rfl, .node x n r :: ps, rfl, x, n, r, later, rfl, hp, rfl⟩
    | @right x l _ _ later hp =>
      refine fields_node_bind (hp.rep hr) fun _ => ?_
      rw [if_neg (ptr_left_ne_right (hp.rep hr) (hp.ordered ho) hn)]
      exact ih hp (by simp)

theorem increment_runs {v : α}
    (hi : Iterates it root (v :: rest)) : Runs it.increment h fun it' h' => h' = h ∧ Iterates it' root rest := by
  obtain ⟨_, _, _⟩ := it
  obtain ⟨rfl, rfl, ps, rfl, hat⟩ := hi
  cases ps with
  | nil => cases hat
  | cons n ps =>
    obtain ⟨x, l, r, later, rfl, hp, heq⟩ := hat
    obtain ⟨-, rfl⟩ := cons.inj heq
    refine fields_node_bind (hp.rep hr) fun _ => ?_
    have hle := hp.right.height_le
    cases r with
    | nil =>
      refine Runs.bind (climb_runs hr ho hp (by simp)) ?_
      rintro _ _ ⟨rfl, ps', rfl, hat'⟩
      exact Runs.pure ⟨rfl, rfl, rfl, ps', rfl, hat'⟩
    | node y rl rr =>
      rw [if_neg (by simp [ptr])]
      refine push_bind hp.right (by simp) ?_
      refine fields_node_bind (hp.right.rep hr) fun _ => ?_
      have hat : At root (.node y rl rr :: .node x l (.node y rl rr) :: ps) (y.2.value :: ((plain rr).toList ++ later)) :=
        ⟨y, rl, rr, later, rfl, hp.right, rfl⟩
      rw [BinaryTree.height] at hle
      have hrun := pushLeft_runs hr hp.right.left (fun _ => hat) (show rl.height < root.height + 1 by omega)
      simpa [plain] using hrun

/-! ## The functions that make an iterator -/

omit hr ho in
theorem create_runs (ho : Owns h R) (ht : Borrowed R t) (hex : Exact t) : Runs (Iterator.create (ptr t)) h
    fun it h' => it = ⟨ptr t, t.height, []⟩ ∧ Owns h' (t ::ₘ R) := by
  refine incref_bind ho ht fun h' ho' => ?_
  refine fields_bind (ho'.borrowed ht.cons) fun n => ?_
  rw [hex.height, height_plain]
  exact Runs.pure ⟨rfl, ho'⟩

omit hr ho in
theorem begin_runs (ho : Owns h R) (ht : Borrowed R t) (hex : Exact t) : Runs (begin (ptr t)) h
    fun it h' => Iterates it t (plain t).toList ∧ Owns h' (t ::ₘ R) := by
  refine Runs.bind (create_runs ho ht hex) ?_
  rintro _ h' ⟨rfl, ho'⟩
  refine (pushLeft_runs (ho'.borrowed ht.cons) .root (fun _ => rfl) (Nat.lt_succ_self _)).mono ?_
  rintro it _ ⟨rfl, hi⟩
  rw [append_nil] at hi
  exact ⟨hi, ho'⟩

/-- Where the loop of `lower_bound` ends: at the first of the values `rest`, or one before it. -/
def Lands (key : α → κ) (k : κ) (root : Shape (NodeData α)) (found : Bool) (ps : List (Shape (NodeData α)))
    (rest : List α) : Prop :=
  (found = false → ∀ n ∈ ps.head?, ¬ key (dataOf n).value < k) ∧ At root ps rest ∨
    found = false ∧ ∃ n ∈ ps.head?, key (dataOf n).value < k ∧ At root ps ((dataOf n).value :: rest)

omit [Inhabited α] hr ho in
/-- The values from the key on, in a node of an ordered tree. -/
theorem filter_ge_node {left right : ImmutableTree α} {v : α} {k : κ} (ho : Ordered key (node left v right)) :
    (node left v right).toList.filter (k ≤ key ·) =
      if k < key v then left.toList.filter (k ≤ key ·) ++ v :: right.toList
      else if key v < k then right.toList.filter (k ≤ key ·)
      else v :: right.toList := by
  obtain ⟨-, -, hlv, hvr⟩ := ordered_node.1 ho
  rw [toList_node, filter_append, filter_cons]
  have hright : k ≤ key v → right.toList.filter (k ≤ key ·) = right.toList := by
    intro hk
    rw [filter_eq_self]
    exact fun b hb => decide_eq_true (hk.trans (hvr b hb).le)
  have hleft : key v ≤ k → left.toList.filter (k ≤ key ·) = [] := by
    intro hk
    rw [filter_eq_nil_iff]
    exact fun a ha => by simpa using (hlv a ha).trans_le hk
  rcases lt_trichotomy k (key v) with hlt | rfl | hgt
  · rw [if_pos hlt, hright hlt.le, if_pos (decide_eq_true hlt.le)]
  · grind
  · grind

theorem descend_runs {k : κ} (hp : Path root t ps later)
    (hnil : t = .nil → Lands key k root false ps later) (hfuel : t.height < fuel) :
    Runs (Iterator.descend key k fuel ⟨ptr root, root.height, ps.map ptr⟩ (ptr t)) h fun r h' => h' = h ∧
      ∃ ps', r.1 = ⟨ptr root, root.height, ps'.map ptr⟩ ∧
        Lands key k root r.2 ps' ((plain t).toList.filter (k ≤ key ·) ++ later) := by
  induction fuel generalizing t ps later with
  | zero => omega
  | succ fuel ih =>
    cases t with
    | nil => exact Runs.pure ⟨rfl, ps, rfl, hnil rfl⟩
    | node x l r =>
      rw [BinaryTree.height] at hfuel
      refine push_bind hp (by simp) ?_
      refine fields_node_bind (hp.rep hr) fun m => ?_
      have hat : At root (.node x l r :: ps) (x.2.value :: ((plain r).toList ++ later)) := ⟨x, l, r, later, rfl, hp, rfl⟩
      rw [plain, filter_ge_node (hp.ordered ho)]
      dsimp only
      split_ifs with hlt hgt
      · rw [append_assoc]
        refine ih hp.left (fun _ => .inl ⟨fun _ n hn => ?_, hat⟩) (by omega)
        obtain rfl := Option.some.inj hn
        exact hlt.not_gt
      · refine ih hp.right (fun hr => .inr ⟨rfl, _, rfl, hgt, ?_⟩) (by omega)
        rw [hr] at hat ⊢
        exact hat
      · exact Runs.pure ⟨rfl, .node x l r :: ps, rfl, .inl ⟨Bool.noConfusion, hat⟩⟩

omit hr ho in
theorem lowerBound_runs (k : κ) (ho : Owns h R) (ht : Borrowed R t) (hex : Exact t) (hord : Ordered key (plain t)) :
    Runs (lowerBound key k (ptr t)) h
      fun it h' => Iterates it t ((plain t).toList.filter (k ≤ key ·)) ∧ Owns h' (t ::ₘ R) := by
  refine Runs.bind (create_runs ho ht hex) ?_
  rintro _ h' ⟨rfl, ho'⟩
  have hr : Rep h' t := ho'.borrowed ht.cons
  have hstart : t = .nil → Lands key k t false [] [] := fun _ => .inl ⟨by simp, rfl⟩
  refine Runs.bind (descend_runs hr hord .root hstart (Nat.lt_succ_self _)) ?_
  rintro ⟨it, found⟩ _ ⟨rfl, ps, rfl, hland⟩
  rw [append_nil] at hland
  have hdone : ∀ {rest}, At t ps rest → Iterates ⟨ptr t, t.height, ps.map ptr⟩ t rest := fun hat => ⟨rfl, rfl, ps, rfl, hat⟩
  cases found with
  | true =>
    rcases hland with ⟨-, hat⟩ | ⟨hf, -⟩
    · exact Runs.pure ⟨hdone hat, ho'⟩
    · cases hf
  | false =>
    cases ps with
    | nil =>
      rcases hland with ⟨-, hat⟩ | ⟨-, n, hn, -⟩
      · exact Runs.pure ⟨hdone hat, ho'⟩
      · cases hn
    | cons n ps =>
      rcases hland with ⟨hkey, hat⟩ | ⟨-, n', hn, hkey, hat⟩
      · obtain ⟨x, l, r, later, rfl, hp, -⟩ := id hat
        refine fields_node_bind (hp.rep hr) fun _ => ?_
        have hnot : ¬ key x.2.value < k := hkey rfl _ rfl
        dsimp only
        rw [if_neg hnot]
        exact Runs.pure ⟨hdone hat, ho'⟩
      · obtain rfl := Option.some.inj hn
        obtain ⟨x, l, r, later, rfl, hp, -⟩ := id hat
        refine fields_node_bind (hp.rep hr) fun _ => ?_
        have hlt : key x.2.value < k := hkey
        dsimp only
        rw [if_pos hlt]
        refine (increment_runs hr hord (hdone hat)).mono ?_
        rintro it _ ⟨rfl, hi⟩
        exact ⟨hi, ho'⟩

omit [Inhabited α] hr ho in
/-- Without the first value from the key on, if that has the key. -/
theorem filter_gt_of_filter_ge {s : ImmutableTree α} {k : κ} {v : α} (ho : Ordered key s)
    (hge : s.toList.filter (k ≤ key ·) = v :: rest) :
    s.toList.filter (k < key ·) = if k < key v then v :: rest else rest := by
  have hmore : s.toList.filter (k < key ·) = (s.toList.filter (k ≤ key ·)).filter (k < key ·) := by
    rw [filter_filter]
    refine filter_congr fun x _ => ?_
    by_cases hx : k < key x
    · simp [hx, hx.le]
    · simp [hx]
  have hsorted : (v :: rest).Pairwise fun a b => key a < key b := hge ▸ ho.filter _
  have hv : k ≤ key v := by
    have hmem : v ∈ s.toList.filter (k ≤ key ·) := hge ▸ mem_cons_self
    simpa using (mem_filter.1 hmem).2
  have hrest : rest.filter (k < key ·) = rest :=
    filter_eq_self.2 fun b hb => decide_eq_true (hv.trans_lt ((pairwise_cons.1 hsorted).1 b hb))
  rw [hmore, hge, filter_cons, hrest]
  simp only [decide_eq_true_eq]

omit hr ho in
theorem upperBound_runs (k : κ) (ho : Owns h R) (ht : Borrowed R t) (hex : Exact t) (hord : Ordered key (plain t)) :
    Runs (upperBound key k (ptr t)) h
      fun it h' => Iterates it t ((plain t).toList.filter (k < key ·)) ∧ Owns h' (t ::ₘ R) := by
  refine Runs.bind (create_runs ho ht hex) ?_
  rintro _ h₁ ⟨rfl, ho₁⟩
  refine Runs.bind (lowerBound_runs k ho₁ ht.cons hex hord) ?_
  rintro it h₂ ⟨hi, ho₂⟩
  have hr : Rep h₂ t := ho₂.borrowed ht.cons.cons
  have hdone : ∀ {it rest}, Iterates it t rest → rest = (plain t).toList.filter (k < key ·) →
      Runs (do Node.release (ptr t); return it) h₂ fun it h' =>
        Iterates it t ((plain t).toList.filter (k < key ·)) ∧ Owns h' (t ::ₘ R) := by
    intro it rest hi heq
    exact Runs.bind (release_runs ho₂ hex) fun _ h' ho' => Runs.pure ⟨heq ▸ hi, ho'⟩
  cases hge : (plain t).toList.filter (k ≤ key ·) with
  | nil =>
    rw [hge] at hi
    rw [if_pos (hi.stack_eq_nil_iff.2 rfl)]
    refine hdone hi (filter_eq_nil_iff.2 fun x hx hlt => ?_).symm
    have hnot := filter_eq_nil_iff.1 hge x hx
    simp only [decide_eq_true_eq] at hlt hnot
    exact hnot hlt.le
  | cons v rest =>
    rw [hge] at hi
    have hgt := filter_gt_of_filter_ge hord hge
    rw [if_neg (fun hnil => by cases hi.stack_eq_nil_iff.1 hnil)]
    refine Runs.bind (deref_runs hr hi) ?_
    rintro _ _ ⟨rfl, rfl⟩
    split_ifs at hgt ⊢ with hlt
    · exact hdone hi hgt.symm
    · refine Runs.bind (increment_runs hr hord hi) ?_
      rintro it' _ ⟨rfl, hi'⟩
      exact hdone hi' hgt.symm

theorem visit_runs (hi : Iterates it root rest)
    (hfuel : rest.length < fuel) : Runs (it.visit fuel) h fun vs h' => vs = rest ∧ h' = h := by
  induction fuel generalizing it rest with
  | zero => omega
  | succ fuel ih =>
    unfold Iterator.visit
    cases rest with
    | nil =>
      rw [if_pos (hi.stack_eq_nil_iff.2 rfl)]
      exact Runs.pure ⟨rfl, rfl⟩
    | cons v rest =>
      rw [if_neg (fun hnil => by cases hi.stack_eq_nil_iff.1 hnil)]
      refine Runs.bind (deref_runs hr hi) ?_
      rintro _ _ ⟨rfl, rfl⟩
      refine Runs.bind (increment_runs hr ho hi) ?_
      rintro it' _ ⟨rfl, hi'⟩
      refine Runs.bind (ih hi' (by simpa using hfuel)) ?_
      rintro _ _ ⟨rfl, rfl⟩
      exact Runs.pure ⟨rfl, rfl⟩

end

end

end S2E.Klee.ImmutableTree
