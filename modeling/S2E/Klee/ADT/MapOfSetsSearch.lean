import Mathlib.Data.Finset.Sort
import S2E.Klee.ADT.MapOfSets

/-!
# What `MapOfSets` finds

Over a total order of the keys, the trie is the map of the sets that were inserted to their last values, and the two
searches find a value wherever there is one to be found.

* `Node.Sorted` : the children are in increasing order, at every node;
* `insertAll`, `current` : the trie and the map after a sequence of insertions, `lookup_insertAll` : they agree;
* `exists_findSubset`, `exists_findSuperset` : the searches are complete. The induction is on the path of the set that is
  to be found: a search that goes through the children returns something if the search of one of them does;
* `findSubset_insertAll`, `findSuperset_insertAll` : what is found.
-/

namespace S2E.Klee.MapOfSets

open S2E.Lib Option Function Finset

variable {K V : Type}

mutual

theorem Node.All.mono {P Q : List K → V → Prop} : ∀ n : Node K V, (∀ s v, P s v → Q s v) → n.All P → n.All Q
  | .mk _ children, h, hn => ⟨fun v hv => h _ v (hn.1 v hv), Children.All.mono children h hn.2⟩

theorem Children.All.mono {P Q : List K → V → Prop} : ∀ c : Children K V, (∀ s v, P s v → Q s v) → c.All P → c.All Q
  | .nil, _, _ => trivial
  | .cons k child rest, h, hc =>
    ⟨Node.All.mono child (fun s v => h (k :: s) v) hc.1, Children.All.mono rest h hc.2⟩

end

variable [LinearOrder K]

/-- The order of `std::set` and `std::map`. -/
def lt (x y : K) : Bool := decide (x < y)

mutual

def Node.Sorted : Node K V → Prop
  | .mk _ children => children.Sorted

def Children.Sorted : Children K V → Prop
  | .nil => True
  | .cons k child rest => child.Sorted ∧ (∀ x n, rest.find x = some n → k < x) ∧ rest.Sorted

end

/-! ## The trie as a map -/

theorem Node.empty_sorted : (empty : Node K V).Sorted := trivial

theorem Node.lookup_empty (set : List K) : (empty : Node K V).lookup set = none := by
  cases set <;> rfl

variable {k x : K} {child n : Node K V} {S : Finset K} {rest : Children K V}

theorem Children.find_cons_self : (Children.cons k child rest).find k = some child := if_pos rfl

theorem Children.find_cons_of_ne (h : k ≠ x) : (Children.cons k child rest).find x = rest.find x := if_neg h

theorem Children.Sorted.le (h : (Children.cons k child rest).Sorted)
    (hx : (Children.cons k child rest).find x = some n) : k ≤ x := by
  by_cases hk : k = x
  · exact hk.le
  · rw [find_cons_of_ne hk] at hx
    exact (h.2.1 x n hx).le

theorem Children.find_alter {x y : K} {f : Node K V → Node K V} : ∀ c : Children K V, c.Sorted →
    (c.alter lt x f).find y = if y = x then some (f ((c.find x).getD .empty)) else c.find y
  | .nil, _ => by
    rw [alter, find]
    simp [find, eq_comm]
  | .cons k child rest, h => by
    rw [alter]
    by_cases hx : x = k
    · subst hx
      rw [if_pos rfl, find_cons_self]
      by_cases hy : y = x
      · subst hy
        rw [if_pos rfl, find_cons_self]
        rfl
      · rw [if_neg hy, find_cons_of_ne (Ne.symm hy), find_cons_of_ne (Ne.symm hy)]
    rw [if_neg hx, find_cons_of_ne (Ne.symm hx)]
    by_cases less : lt x k = true
    · -- no later key is `x`
      have absent : rest.find x = none := by
        rw [eq_none_iff_forall_ne_some]
        intro n hn
        exact lt_asymm (of_decide_eq_true less) (h.2.1 x n hn)
      rw [if_pos less, absent]
      by_cases hy : y = x
      · subst hy
        rw [if_pos rfl, find_cons_self]
        rfl
      · rw [if_neg hy, find_cons_of_ne (Ne.symm hy)]
    · rw [if_neg less]
      by_cases hk : k = y
      · subst hk
        rw [find_cons_self, find_cons_self, if_neg (Ne.symm hx)]
      · rw [find_cons_of_ne hk, find_cons_of_ne hk, find_alter rest h.2.2]

theorem Children.alter_sorted {x : K} {f : Node K V → Node K V} (hf : ∀ n : Node K V, n.Sorted → (f n).Sorted) :
    ∀ c : Children K V, c.Sorted → (c.alter lt x f).Sorted
  | .nil, _ => ⟨hf _ Node.empty_sorted, fun _ _ h => (nomatch h), trivial⟩
  | .cons k child rest, h => by
    rw [alter]
    split
    · exact ⟨hf _ h.1, h.2⟩
    · rename_i hx
      split
      · rename_i less
        refine ⟨hf _ Node.empty_sorted, fun y n hn => ?_, h⟩
        exact (of_decide_eq_true less).trans_le (h.le hn)
      · rename_i less
        refine ⟨h.1, fun y n hn => ?_, alter_sorted hf rest h.2.2⟩
        rw [find_alter rest h.2.2] at hn
        by_cases hy : y = x
        · rw [hy]
          exact lt_of_le_of_ne (not_lt.1 (of_decide_eq_false (Bool.eq_false_of_not_eq_true less))) (Ne.symm hx)
        · rw [if_neg hy] at hn
          exact h.2.1 y n hn

theorem Node.insert_sorted {value : V} : ∀ (set : List K) (n : Node K V), n.Sorted → (n.insert lt value set).Sorted
  | [], .mk _ _, h => h
  | _ :: set, .mk _ children, h => Children.alter_sorted (fun n hn => insert_sorted set n hn) children h

theorem Children.Sorted.find : ∀ {c : Children K V}, c.Sorted → c.find x = some n → n.Sorted
  | .nil, _, hn => nomatch hn
  | .cons k child rest, h, hn => by
    by_cases hk : k = x
    · rw [hk, find_cons_self] at hn
      exact some.inj hn ▸ h.1
    · rw [find_cons_of_ne hk] at hn
      exact h.2.2.find hn

theorem Node.lookup_insert {value : V} : ∀ (set path : List K) (n : Node K V), n.Sorted →
    (n.insert lt value set).lookup path = if path = set then some value else n.lookup path
  | [], [], .mk _ _, _ => rfl
  | [], _ :: _, .mk _ _, _ => rfl
  | _ :: _, [], .mk _ _, _ => rfl
  | x :: set, y :: path, .mk v children, h => by
    rw [insert, lookup, lookup, Children.find_alter children h]
    by_cases hy : y = x
    · subst hy
      rw [if_pos rfl, bind_some]
      cases hc : children.find y with
      | none =>
        rw [getD_none, lookup_insert set path _ empty_sorted, lookup_empty, bind_none]
        simp
      | some child =>
        rw [getD_some, lookup_insert set path child (Children.Sorted.find h hc), bind_some]
        simp
    · rw [if_neg hy, if_neg fun eq => hy (List.cons.inj eq).1]

/-- The elements of a `std::set`, from `begin()` to `end()`. -/
def elements (S : Finset K) : List K := S.sort (· ≤ ·)

/-- `insert`, for every pair of the sequence. -/
def insertAll (ops : List (Finset K × V)) : Node K V :=
  ops.foldl (fun n op => n.insert lt op.2 (elements op.1)) .empty

/-- The value that was last inserted for every set. -/
def current (ops : List (Finset K × V)) : Finset K → Option V :=
  ops.foldl (fun m op => update m op.1 (some op.2)) fun _ => none

theorem insertAll_append (ops : List (Finset K × V)) (op : Finset K × V) :
    insertAll (ops ++ [op]) = (insertAll ops).insert lt op.2 (elements op.1) := by
  rw [insertAll, List.foldl_append]
  rfl

theorem current_append (ops : List (Finset K × V)) (op : Finset K × V) :
    current (ops ++ [op]) = update (current ops) op.1 (some op.2) := by
  rw [current, List.foldl_append]
  rfl

theorem insertAll_sorted (ops : List (Finset K × V)) : (insertAll ops).Sorted := by
  induction ops using List.reverseRecOn with
  | nil => exact Node.empty_sorted
  | append_singleton ops op ih =>
    rw [insertAll_append]
    exact Node.insert_sorted _ _ ih

@[simp] theorem mem_elements : x ∈ elements S ↔ x ∈ S := mem_sort _

theorem elements_nodup (S : Finset K) : (elements S).Nodup := sort_nodup _ _

theorem elements_pairwise (S : Finset K) : (elements S).Pairwise (· < ·) := S.sortedLT_sort.pairwise

theorem elements_inj {T : Finset K} (h : elements S = elements T) : S = T := by
  rw [← sort_toFinset S (· ≤ ·), ← sort_toFinset T (· ≤ ·)]
  exact congrArg List.toFinset h

theorem lookup_insertAll (ops : List (Finset K × V)) (S : Finset K) :
    (insertAll ops).lookup (elements S) = current ops S := by
  induction ops using List.reverseRecOn with
  | nil => exact Node.lookup_empty _
  | append_singleton ops op ih =>
    rw [insertAll_append, current_append, Node.lookup_insert _ _ _ (insertAll_sorted ops), ih, update_apply]
    by_cases hS : S = op.1
    · rw [if_pos hS, if_pos (by rw [hS])]
    · rw [if_neg hS, if_neg fun eq => hS (elements_inj eq)]

/-- Every path of the trie is the one of a set. -/
theorem exists_of_lookup_insertAll {ops : List (Finset K × V)} {path : List K} {v : V}
    (h : (insertAll ops).lookup path = some v) : ∃ S : Finset K, path = elements S ∧ current ops S = some v := by
  suffices ∃ S : Finset K, path = elements S by
    obtain ⟨S, rfl⟩ := this
    exact ⟨S, rfl, lookup_insertAll ops S ▸ h⟩
  induction ops using List.reverseRecOn with
  | nil => exact absurd h (by rw [insertAll, List.foldl_nil, Node.lookup_empty]; simp)
  | append_singleton ops op ih =>
    rw [insertAll_append, Node.lookup_insert _ _ _ (insertAll_sorted ops)] at h
    by_cases hp : path = elements op.1
    · exact ⟨op.1, hp⟩
    · grind

/-! ## The values of a sorted trie -/

mutual

theorem Node.all_lookup : ∀ n : Node K V, n.Sorted → n.All fun s v => n.lookup s = some v
  | .mk value children, h => by
    refine ⟨fun v hv => hv, (Children.all_find children h).mono _ fun s v hs => ?_⟩
    obtain ⟨x, s, child, rfl, hx, hv⟩ := hs
    rw [Node.lookup, hx]
    exact hv

theorem Children.all_find : ∀ c : Children K V, c.Sorted →
    c.All fun s v => ∃ x s' child, s = x :: s' ∧ c.find x = some child ∧ Node.lookup s' child = some v
  | .nil, _ => trivial
  | .cons k child rest, h => by
    constructor
    · refine (Node.all_lookup child h.1).mono _ fun s v hs => ?_
      exact ⟨k, s, child, rfl, Children.find_cons_self, hs⟩
    · refine (Children.all_find rest h.2.2).mono _ fun s v hs => ?_
      obtain ⟨x, s, n, rfl, hx, hv⟩ := hs
      refine ⟨x, s, n, rfl, ?_, hv⟩
      rw [Children.find_cons_of_ne (h.2.1 x n hx).ne]
      exact hx

end

/-! ## Supersets -/

theorem Children.findSuperset_of_find {p : V → Bool} {x : K} {n : Node K V} {set : List K} : ∀ c : Children K V,
    c.find x = some n → (n.findSuperset p set).isSome → (c.findSuperset p set).isSome
  | .nil, hx, _ => nomatch hx
  | .cons k child rest, hx, hn => by
    rw [findSuperset, isSome_or, Bool.or_eq_true]
    by_cases hk : k = x
    · rw [hk, find_cons_self] at hx
      exact .inl (some.inj hx ▸ hn)
    · rw [find_cons_of_ne hk] at hx
      exact .inr (findSuperset_of_find rest hx hn)

theorem Children.findSupersetAt_of_find {p : V → Bool} {x : K} {n : Node K V} {set : List K} : ∀ c : Children K V,
    c.find x = some n → c.findSupersetAt p x set = n.findSuperset p set
  | .nil, hx => nomatch hx
  | .cons k child rest, hx => by
    rw [findSupersetAt]
    by_cases hk : k = x
    · rw [hk, find_cons_self] at hx
      rw [if_pos hk, some.inj hx]
    · rw [find_cons_of_ne hk] at hx
      rw [if_neg hk, findSupersetAt_of_find rest hx]

theorem exists_findSuperset {p : V → Bool} {v : V} (hp : p v = true) : ∀ (path set : List K) (n : Node K V),
    path.Pairwise (· < ·) → set.Pairwise (· < ·) → set ⊆ path → n.lookup path = some v → (n.findSuperset p set).isSome
  | [], set, .mk value children, _, _, hsub, hv => by
    obtain rfl : set = [] := List.subset_nil.1 hsub
    obtain rfl : value = some v := hv
    rw [Node.findSuperset, filter_some, if_pos hp]
    rfl
  | x :: path, set, .mk value children, hpath, hset, hsub, hv => by
    rw [Node.lookup] at hv
    obtain ⟨child, hx, hchild⟩ := bind_eq_some_iff.1 hv
    obtain ⟨least, hpath'⟩ := List.pairwise_cons.1 hpath
    have search := exists_findSuperset hp path
    cases set with
    | nil =>
      rw [Node.findSuperset, isSome_or, Bool.or_eq_true]
      exact .inr (children.findSuperset_of_find hx (search [] child hpath' .nil (List.nil_subset _) hchild))
    | cons y set =>
      obtain ⟨above, hset'⟩ := List.pairwise_cons.1 hset
      rw [Node.findSuperset, isSome_or, Bool.or_eq_true]
      by_cases hy : y = x
      · subst hy
        right
        rw [children.findSupersetAt_of_find hx]
        refine search set child hpath' hset' (fun z hz => ?_) hchild
        exact (List.mem_cons.1 (hsub (List.mem_cons_of_mem y hz))).resolve_left (above z hz).ne'
      · left
        -- `x` is below `y`, and so not in the set
        have below : x < y := least y ((List.mem_cons.1 (hsub List.mem_cons_self)).resolve_left hy)
        refine children.findSuperset_of_find hx (search (y :: set) child hpath' hset (fun z hz => ?_) hchild)
        refine (List.mem_cons.1 (hsub hz)).resolve_left ?_
        rintro rfl
        rcases List.mem_cons.1 hz with rfl | hz
        · exact hy rfl
        · exact lt_asymm below (above z hz)

/-! ## Subsets -/

section Subset

variable {ε : Type} {p : V → Bool}

/-- A predicate that does not stop. -/
def total (ε : Type) (p : V → Bool) (v : V) : Except ε Bool := .ok (p v)

/-- The search succeeds, with a value. -/
def Found (m : Except ε (Option V)) : Prop := ∃ v, m = .ok (some v)

theorem exists_ok_findSubset (ε : Type) (p : V → Bool) (hn : n.Sorted) (set : List K) :
    ∃ r, n.findSubset lt (total ε p) set = .ok r := by
  have search : SearchBelow _ (total ε p) set (n.findSubset lt (total ε p) set) :=
    Node.findSubset_all n set (Node.all_lookup n hn)
  have returns : Outcome (n.findSubset lt (total ε p) set) (fun _ => True) fun _ => False := by
    refine search.conseq (fun _ _ => trivial) ?_
    rintro t ⟨_, v, -, stopped⟩
    cases stopped
  obtain ⟨r, done, -⟩ := returns.exists_ok
  exact ⟨r, done⟩

theorem dropWhile_cons_of_lt {y : K} {set : List K} (h : y < x) :
    (y :: set).dropWhile (lt · x) = set.dropWhile (lt · x) := by
  rw [List.dropWhile_cons, if_pos]
  exact decide_eq_true h

theorem dropWhile_cons_of_not_lt {y : K} {set : List K} (h : ¬ y < x) : (y :: set).dropWhile (lt · x) = y :: set := by
  rw [List.dropWhile_cons, if_neg]
  exact fun less => h (of_decide_eq_true less)

theorem dropWhile_dropWhile {k x : K} (hk : k ≤ x) : ∀ set : List K,
    (set.dropWhile (lt · k)).dropWhile (lt · x) = set.dropWhile (lt · x)
  | [] => rfl
  | y :: set => by
    by_cases hy : y < k
    · rw [dropWhile_cons_of_lt hy, dropWhile_cons_of_lt (hy.trans_le hk), dropWhile_dropWhile hk set]
    · rw [dropWhile_cons_of_not_lt hy]

/-- The elements of a set from `x` on. -/
theorem exists_dropWhile {x : K} : ∀ set : List K, set.Pairwise (· < ·) → x ∈ set →
    ∃ tail, set.dropWhile (lt · x) = x :: tail ∧ tail.Pairwise (· < ·) ∧ ∀ z ∈ set, x < z → z ∈ tail
  | y :: set, h, hx => by
    obtain ⟨least, hset⟩ := List.pairwise_cons.1 h
    by_cases hy : y = x
    · subst hy
      refine ⟨set, dropWhile_cons_of_not_lt (lt_irrefl y), hset, fun z hz less => ?_⟩
      exact (List.mem_cons.1 hz).resolve_left less.ne'
    · have hx' := (List.mem_cons.1 hx).resolve_left (Ne.symm hy)
      obtain ⟨tail, htail, sorted, rest⟩ := exists_dropWhile set hset hx'
      refine ⟨tail, ?_, sorted, fun z hz less => rest z ?_ less⟩
      · rw [dropWhile_cons_of_lt (least x hx'), htail]
      · grind

/-- The loop reaches every child whose key is an element of the set. -/
theorem Children.findSubset_of_find {x : K} {n : Node K V} {tail : List K} : ∀ (c : Children K V) (set : List K),
    c.Sorted → c.find x = some n → set.dropWhile (lt · x) = x :: tail →
    Found (n.findSubset lt (total ε p) tail) → Found (c.findSubset lt (total ε p) set)
  | .nil, _, _, hx, _, _ => nomatch hx
  | .cons k child rest, set, hc, hx, hset, hn => by
    rw [findSubset]
    by_cases hk : k = x
    · subst hk
      rw [find_cons_self] at hx
      obtain rfl := some.inj hx
      obtain ⟨v, hv⟩ := hn
      rw [hset]
      dsimp only
      rw [if_pos rfl, hv]
      exact ⟨v, rfl⟩
    · have less : k < x := lt_of_le_of_ne (hc.le hx) hk
      rw [find_cons_of_ne hk] at hx
      have from_x := dropWhile_dropWhile less.le set
      rw [hset] at from_x
      cases hd : set.dropWhile (lt · k) with
      | nil =>
        rw [hd] at from_x
        cases from_x
      | cons y d =>
        rw [hd] at from_x
        dsimp only
        by_cases hy : y = k
        · subst hy
          rw [dropWhile_cons_of_lt less] at from_x
          obtain ⟨r, hr⟩ := exists_ok_findSubset ε p hc.1 d
          rw [if_pos rfl, hr]
          cases r with
          | some v => exact ⟨v, rfl⟩
          | none =>
            have more : d ≠ [] := by
              rintro rfl
              cases from_x
            show Found (if d = [] then _ else _)
            rw [if_neg more]
            exact findSubset_of_find rest d hc.2.2 hx from_x hn
        · rw [if_neg hy]
          exact findSubset_of_find rest (y :: d) hc.2.2 hx from_x hn

theorem exists_findSubset {v : V} (hp : p v = true) : ∀ (path set : List K) (n : Node K V), n.Sorted →
    path.Pairwise (· < ·) → set.Pairwise (· < ·) → path ⊆ set → n.lookup path = some v →
    Found (n.findSubset lt (total ε p) set)
  | [], set, .mk value children, _, _, _, _, hv => by
    obtain rfl : value = some v := hv
    rw [Node.findSubset, total, hp]
    exact ⟨v, rfl⟩
  | x :: path, set, .mk value children, hn, hpath, hset, hsub, hv => by
    rw [Node.lookup] at hv
    obtain ⟨child, hx, hv⟩ := bind_eq_some_iff.1 hv
    obtain ⟨least, hpath⟩ := List.pairwise_cons.1 hpath
    obtain ⟨tail, htail, sorted, rest⟩ := exists_dropWhile set hset (hsub List.mem_cons_self)
    have inChild : Found (child.findSubset lt (total ε p) tail) := by
      refine exists_findSubset hp path tail child (Children.Sorted.find hn hx) hpath sorted (fun z hz => ?_) hv
      exact rest z (hsub (List.mem_cons_of_mem x hz)) (least z hz)
    have inChildren := Children.findSubset_of_find children set hn hx htail inChild
    have nonempty : set ≠ [] := by
      rintro rfl
      cases htail
    cases value with
    | none =>
      show Found (if set = [] then _ else _)
      rw [if_neg nonempty]
      exact inChildren
    | some w =>
      rw [Node.findSubset, total]
      cases p w with
      | true => exact ⟨w, rfl⟩
      | false =>
        show Found (if set = [] then _ else _)
        rw [if_neg nonempty]
        exact inChildren

end Subset

/-! ## What the searches return -/

theorem elements_subset {T : Finset K} : elements S ⊆ elements T ↔ S ⊆ T := by
  simp [elements, List.subset_def, subset_iff]

theorem findSuperset_insertAll (ops : List (Finset K × V)) (Q : Finset K) (p : V → Bool) :
    (∀ S v, current ops S = some v → p v = true → Q ⊆ S → ((insertAll ops).findSuperset p (elements Q)).isSome) ∧
    ∀ v, (insertAll ops).findSuperset p (elements Q) = some v → ∃ S, current ops S = some v ∧ p v = true ∧ Q ⊆ S := by
  constructor
  · intro S v hv hp hsub
    apply exists_findSuperset hp (elements S) (elements Q)
    · exact elements_pairwise S
    · exact elements_pairwise Q
    · exact elements_subset.2 hsub
    · rw [lookup_insertAll, hv]
  · intro v hv
    obtain ⟨hp, path, hpath, hsub⟩ := Node.findSuperset_all _ _ (Node.all_lookup _ (insertAll_sorted ops)) hv
    obtain ⟨S, rfl, hS⟩ := exists_of_lookup_insertAll hpath
    exact ⟨S, hS, hp, elements_subset.1 hsub⟩

theorem findSubset_insertAll (ε : Type) (ops : List (Finset K × V)) (Q : Finset K) (p : V → Bool) :
    (∀ S v, current ops S = some v → p v = true → S ⊆ Q →
      Found ((insertAll ops).findSubset lt (total ε p) (elements Q))) ∧
    ∀ v, (insertAll ops).findSubset lt (total ε p) (elements Q) = .ok (some v) →
      ∃ S, current ops S = some v ∧ p v = true ∧ S ⊆ Q := by
  constructor
  · intro S v hv hp hsub
    apply exists_findSubset hp (elements S) (elements Q) _ (insertAll_sorted ops)
    · exact elements_pairwise S
    · exact elements_pairwise Q
    · exact elements_subset.2 hsub
    · rw [lookup_insertAll, hv]
  · intro v hv
    have search : SearchBelow _ (total ε p) (elements Q) ((insertAll ops).findSubset lt (total ε p) (elements Q)) :=
      Node.findSubset_all _ _ (Node.all_lookup _ (insertAll_sorted ops))
    obtain ⟨hp, path, hpath, hsub⟩ := search.of_ok hv v rfl
    obtain ⟨S, rfl, hS⟩ := exists_of_lookup_insertAll hpath
    exact ⟨S, hS, Except.ok.inj hp, elements_subset.1 hsub⟩

/-- After any sequence of insertions, either search returns, with a value if and only if there is one to be found, which is
then the current value of a set that is contained in `Q`, or contains it. -/
theorem find_insertAll (ε : Type) (ops : List (Finset K × V)) (Q : Finset K) (p : V → Bool) :
    (∃ r, (insertAll ops).findSubset lt (total ε p) (elements Q) = .ok r ∧
      (r.isSome ↔ ∃ S v, current ops S = some v ∧ p v = true ∧ S ⊆ Q) ∧
      ∀ v, r = some v → ∃ S, current ops S = some v ∧ p v = true ∧ S ⊆ Q) ∧
    (((insertAll ops).findSuperset p (elements Q)).isSome ↔ ∃ S v, current ops S = some v ∧ p v = true ∧ Q ⊆ S) ∧
    ∀ v, (insertAll ops).findSuperset p (elements Q) = some v → ∃ S, current ops S = some v ∧ p v = true ∧ Q ⊆ S := by
  obtain ⟨r, done⟩ := exists_ok_findSubset ε p (insertAll_sorted ops) (elements Q)
  obtain ⟨complete, sound⟩ := findSubset_insertAll ε ops Q p
  obtain ⟨complete', sound'⟩ := findSuperset_insertAll ops Q p
  rw [done] at complete sound
  refine ⟨⟨r, done, ⟨fun found => ?_, ?_⟩, fun v hv => sound v (by rw [hv])⟩, ⟨fun found => ?_, ?_⟩, sound'⟩
  · obtain ⟨v, rfl⟩ := isSome_iff_exists.1 found
    obtain ⟨S, hS⟩ := sound v rfl
    exact ⟨S, v, hS⟩
  · rintro ⟨S, v, hv, hp, hsub⟩
    obtain ⟨w, hw⟩ := complete S v hv hp hsub
    rw [Except.ok.inj hw]
    rfl
  · obtain ⟨v, hv⟩ := isSome_iff_exists.1 found
    obtain ⟨S, hS⟩ := sound' v hv
    exact ⟨S, v, hS⟩
  · grind

end S2E.Klee.MapOfSets
