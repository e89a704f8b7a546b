import S2E.Lib.Triple

/-!
# `MapOfSets`

A trie from sets to values: a set is a path, its elements in increasing order. The children of a node are a `std::map`,
so that they are in increasing order as well; `less` is the order.

* `Node.insert`, `lookup`, `findSuperset`, `findSubset` : the operations. The predicate of `findSubset` may stop;
* `Node.All P` : every stored set and value meet `P`. What an operation returns is a value of the trie, and the set that
  it is stored under is the one looked up, contains it or is contained in it. That holds whatever the order is; only
  which values are found depends on it.
-/

namespace S2E.Klee

open S2E.Lib Option

/-- `std::set::insert`, on the elements in increasing order. -/
def setInsert {K : Type} [DecidableEq K] (less : K → K → Bool) (x : K) : List K → List K
  | [] => [x]
  | y :: ys => if x = y then y :: ys else if less x y then x :: y :: ys else y :: setInsert less x ys

variable {v : V} {K : Type} {p : V → Bool} {k z : K} {set : List K} {less : K → K → Bool} {P : List K → V → Prop}

theorem mem_setInsert [DecidableEq K] {x : K} {s : List K} : z ∈ setInsert less x s ↔ z = x ∨ z ∈ s := by
  induction s with
  | nil => simp [setInsert]
  | cons y ys ih =>
    unfold setInsert
    split
    · grind
    · split
      · simp
      · grind

theorem mem_foldl_setInsert [DecidableEq K] {l : List K} :
    ∀ {s : List K}, z ∈ l.foldl (fun s x => setInsert less x s) s ↔ z ∈ l ∨ z ∈ s := by
  induction l with
  | nil => simp
  | cons x l ih =>
    intro s
    rw [List.foldl_cons, ih, mem_setInsert, List.mem_cons]
    tauto

namespace MapOfSets

mutual

/-- `MapOfSets::Node`; there is a value where `isEndOfSet` is true. -/
inductive Node (K V : Type)
  | mk (value : Option V) (children : Children K V)

inductive Children (K V : Type)
  | nil
  | cons (key : K) (child : Node K V) (rest : Children K V)

end

variable {K V ε : Type} [DecidableEq K] (less : K → K → Bool)

def Node.empty : Node K V := .mk none .nil

/-- `children.insert(std::make_pair(x, Node()))`, and `f` applied to the child under `x`. -/
def Children.alter (x : K) (f : Node K V → Node K V) : Children K V → Children K V
  | .nil => .cons x (f .empty) .nil
  | .cons k child rest =>
    if x = k then .cons k (f child) rest
    else if less x k then .cons x (f .empty) (.cons k child rest)
    else .cons k child (rest.alter x f)

def Node.insert (value : V) : List K → Node K V → Node K V
  | [], .mk _ children => .mk (some value) children
  | x :: set, .mk v children => .mk v (children.alter less x (Node.insert value set))

def Children.find (x : K) : Children K V → Option (Node K V)
  | .nil => none
  | .cons k child rest => if k = x then some child else rest.find x

def Node.lookup : List K → Node K V → Option V
  | [], .mk value _ => value
  | x :: set, .mk _ children => (children.find x).bind (Node.lookup set)

mutual

def Node.findSuperset (p : V → Bool) (set : List K) : Node K V → Option V
  | .mk value children =>
    match set with
    | [] => (value.filter p).or (children.findSuperset p [])
    | x :: set => (children.findSuperset p (x :: set)).or (children.findSupersetAt p x set)

/-- The loop over all children. -/
def Children.findSuperset (p : V → Bool) (set : List K) : Children K V → Option V
  | .nil => none
  | .cons _ child rest => (child.findSuperset p set).or (rest.findSuperset p set)

/-- The child under `x`, searched for the rest of the set. -/
def Children.findSupersetAt (p : V → Bool) (x : K) (set : List K) : Children K V → Option V
  | .nil => none
  | .cons k child rest => if k = x then child.findSuperset p set else rest.findSupersetAt p x set

end

mutual

def Node.findSubset (p : V → Except ε Bool) (set : List K) : Node K V → Except ε (Option V)
  | .mk value children => do
    match value with
    | some v => if ← p v then return some v else if set = [] then return none else children.findSubset p set
    | none => if set = [] then return none else children.findSubset p set

/-- The loop over the children and the elements of the set, both increasing: one round for each child. -/
def Children.findSubset (p : V → Except ε Bool) (set : List K) : Children K V → Except ε (Option V)
  | .nil => return none
  | .cons k child rest =>
    -- while (*it < kbegin->first) ++it
    match set.dropWhile (fun x => less x k) with
    | [] => return none
    | x :: set =>
      if x = k then do
        match ← child.findSubset p set with
        | some v => return some v
        | none => if set = [] then return none else rest.findSubset p set
      -- while (kbegin->first < *it) ++kbegin
      else rest.findSubset p (x :: set)

end

/-! ## What is stored -/

mutual

def Node.All (P : List K → V → Prop) : Node K V → Prop
  | .mk value children => (∀ v, value = some v → P [] v) ∧ children.All P

def Children.All (P : List K → V → Prop) : Children K V → Prop
  | .nil => True
  | .cons k child rest => child.All (fun set v => P (k :: set) v) ∧ rest.All P

end

variable {less}

omit [DecidableEq K] in
theorem Node.empty_all (P : List K → V → Prop) : (empty : Node K V).All P := ⟨fun _ h => (nomatch h), trivial⟩

theorem Children.alter_all {P : List K → V → Prop} {x : K} {f : Node K V → Node K V}
    (hf : ∀ n : Node K V, n.All (fun set v => P (x :: set) v) → (f n).All (fun set v => P (x :: set) v)) :
    ∀ c : Children K V, c.All P → (c.alter less x f).All P
  | .nil, _ => ⟨hf _ (Node.empty_all _), trivial⟩
  | .cons k child rest, h => by
    unfold alter
    split
    · rename_i hx
      subst hx
      exact ⟨hf _ h.1, h.2⟩
    · split
      · exact ⟨hf _ (Node.empty_all _), h⟩
      · exact ⟨h.1, alter_all hf rest h.2⟩

theorem Node.insert_all {value : V} : ∀ (set : List K) {P : List K → V → Prop} (n : Node K V), n.All P → P set value →
    (n.insert less value set).All P
  | [], _, .mk _ _, h, hv => ⟨fun v hvv => by cases hvv; exact hv, h.2⟩
  | x :: set, P, .mk _ children, h, hv => by
    refine ⟨h.1, Children.alter_all (fun n hn => ?_) children h.2⟩
    exact insert_all set n hn hv

theorem Children.find_all {P : List K → V → Prop} {x : K} {n : Node K V} :
    ∀ c : Children K V, c.All P → c.find x = some n → n.All (fun set v => P (x :: set) v)
  | .nil, _, hn => nomatch hn
  | .cons k child rest, h, hn => by
    unfold find at hn
    split at hn
    · rename_i hk
      subst hk
      obtain rfl : child = n := by simpa using hn
      exact h.1
    · exact find_all rest h.2 hn

theorem Node.lookup_all {v : V} : ∀ (set : List K) {P : List K → V → Prop} (n : Node K V), n.All P →
    n.lookup set = some v → P set v
  | [], _, .mk _ _, h, hv => h.1 v hv
  | x :: set, _, .mk _ children, h, hv => by
    obtain ⟨child, hc, hv⟩ := bind_eq_some_iff.1 hv
    exact lookup_all set child (Children.find_all children h.2 hc) hv

/-- The value is one that the predicate accepts, stored under a set that contains the one looked for. -/
def Above (P : List K → V → Prop) (p : V → Bool) (set : List K) (v : V) : Prop :=
  p v = true ∧ ∃ s, P s v ∧ ∀ x ∈ set, x ∈ s

omit [DecidableEq K] in
theorem Above.cons (h : Above (fun s v => P (k :: s) v) p set v) : Above P p set v := by
  obtain ⟨hp, s, hs, hsub⟩ := h
  exact ⟨hp, k :: s, hs, fun x hx => List.mem_cons_of_mem k (hsub x hx)⟩

omit [DecidableEq K] in
theorem Above.cons_cons (h : Above (fun s v => P (k :: s) v) p set v) : Above P p (k :: set) v := by
  obtain ⟨hp, s, hs, hsub⟩ := h
  exact ⟨hp, k :: s, hs, fun x hx => (List.mem_cons.1 hx).elim (· ▸ List.mem_cons_self)
    fun hx => List.mem_cons_of_mem k (hsub x hx)⟩

mutual

theorem Node.findSuperset_all {p : V → Bool} {v : V} : ∀ (n : Node K V) {P : List K → V → Prop} (set : List K),
    n.All P → n.findSuperset p set = some v → Above P p set v
  | .mk value children, P, [], h, hv => by
    unfold Node.findSuperset at hv
    rcases or_eq_some_iff.1 hv with hv | ⟨-, hv⟩
    · obtain ⟨hval, hp⟩ := filter_eq_some_iff.1 hv
      exact ⟨hp, [], h.1 v hval, fun x hx => nomatch hx⟩
    · exact Children.findSuperset_all children [] h.2 hv
  | .mk value children, P, x :: set, h, hv => by
    unfold Node.findSuperset at hv
    rcases or_eq_some_iff.1 hv with hv | ⟨-, hv⟩
    · exact Children.findSuperset_all children (x :: set) h.2 hv
    · exact Children.findSupersetAt_all children x set h.2 hv

theorem Children.findSuperset_all {p : V → Bool} {v : V} : ∀ (c : Children K V) {P : List K → V → Prop} (set : List K),
    c.All P → c.findSuperset p set = some v → Above P p set v
  | .nil, _, _, _, hv => nomatch hv
  | .cons k child rest, P, set, h, hv => by
    unfold Children.findSuperset at hv
    rcases or_eq_some_iff.1 hv with hv | ⟨-, hv⟩
    · exact (Node.findSuperset_all child set h.1 hv).cons
    · exact Children.findSuperset_all rest set h.2 hv

theorem Children.findSupersetAt_all {p : V → Bool} {v : V} : ∀ (c : Children K V) {P : List K → V → Prop} (x : K)
    (set : List K), c.All P → c.findSupersetAt p x set = some v → Above P p (x :: set) v
  | .nil, _, _, _, _, hv => nomatch hv
  | .cons k child rest, P, x, set, h, hv => by
    unfold Children.findSupersetAt at hv
    split at hv
    · rename_i hk
      subst hk
      exact (Node.findSuperset_all child set h.1 hv).cons_cons
    · exact Children.findSupersetAt_all rest x set h.2 hv

end

section

variable (P : List K → V → Prop) (p : V → Except ε Bool) (set : List K)

/-- The value is one that the predicate accepts, stored under a set that is contained in the one looked for. -/
def Below (v : V) : Prop :=
  p v = .ok true ∧ ∃ s, P s v ∧ ∀ x ∈ s, x ∈ set

/-- The search returns such a value or none, and stops only where the predicate stops on a value of the trie. -/
def SearchBelow (m : Except ε (Option V)) : Prop :=
  Outcome m (fun r => ∀ v, r = some v → Below P p set v) (fun t => ∃ s v, P s v ∧ p v = .error t)

end

omit [DecidableEq K] in
theorem SearchBelow.none {P : List K → V → Prop} {p : V → Except ε Bool} {set : List K} :
    SearchBelow P p set (pure none) :=
  fun _ h => nomatch h

omit [DecidableEq K] in
theorem SearchBelow.mono {P : List K → V → Prop} {p : V → Except ε Bool} {set set' : List K} {m : Except ε (Option V)}
    (h : SearchBelow P p set' m) (hsub : ∀ x ∈ set', x ∈ set) : SearchBelow P p set m := by
  refine h.conseq (fun r hr v hv => ?_) fun _ h => h
  obtain ⟨hp, s, hs, hmem⟩ := hr v hv
  exact ⟨hp, s, hs, fun x hx => hsub x (hmem x hx)⟩

mutual

theorem Node.findSubset_all {p : V → Except ε Bool} : ∀ (n : Node K V) {P : List K → V → Prop} (set : List K),
    n.All P → SearchBelow P p set (n.findSubset less p set)
  | .mk value children, P, set, h => by
    have hrest : SearchBelow P p set (if set = [] then pure none else children.findSubset less p set) := by
      split
      · exact .none
      · exact Children.findSubset_all children set h.2
    unfold Node.findSubset
    split
    · rename_i v
      have hv := h.1 v rfl
      refine Outcome.bind (Q := fun b => p v = .ok b) ?_ fun b hb => ?_
      · unfold Outcome
        split
        · assumption
        · exact ⟨[], v, hv, by assumption⟩
      · cases b with
        | true =>
          intro w hw
          obtain rfl : v = w := by simpa using hw
          exact ⟨hb, [], hv, fun x hx => nomatch hx⟩
        | false => exact hrest
    · exact hrest

theorem Children.findSubset_all {p : V → Except ε Bool} : ∀ (c : Children K V) {P : List K → V → Prop} (set : List K),
    c.All P → SearchBelow P p set (c.findSubset less p set)
  | .nil, _, _, _ => .none
  | .cons k child rest, P, set, h => by
    have hsub : ∀ x ∈ set.dropWhile (fun x => less x k), x ∈ set := fun x hx => (List.dropWhile_sublist _).subset hx
    unfold Children.findSubset
    split
    · exact .none
    · rename_i x tail hdrop
      rw [hdrop] at hsub
      split
      · rename_i hx
        subst hx
        refine Outcome.bind (Q := fun r => ∀ v, r = some v → Below P p set v) ?_ fun r hr => ?_
        · refine (Node.findSubset_all child tail h.1).conseq (fun r hr v hv => ?_) fun t ht => ?_
          · obtain ⟨hp, s, hs, hmem⟩ := hr v hv
            refine ⟨hp, x :: s, hs, fun y hy => ?_⟩
            rcases List.mem_cons.1 hy with rfl | hy
            · exact hsub _ List.mem_cons_self
            · exact hsub y (List.mem_cons_of_mem x (hmem y hy))
          · grind
        · cases r with
          | some v => exact fun w hw => hr w hw
          | none =>
            dsimp only
            split
            · exact SearchBelow.none
            · exact (Children.findSubset_all rest tail h.2).mono fun y hy => hsub y (List.mem_cons_of_mem x hy)
      · exact (Children.findSubset_all rest (x :: tail) h.2).mono hsub

end

end MapOfSets

end S2E.Klee
