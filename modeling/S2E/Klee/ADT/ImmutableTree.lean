import Mathlib.Tactic
import Mathlib.Data.List.Sort

/-!
# `ImmutableTree`

The persistent search tree behind `ImmutableMap`. Values are compared by a key; `balance` rotates when the heights of two
subtrees differ by more than two.

* `toList` : the values from left to right, what the iterator visits; `Ordered key t` : their keys increase;
* `replace_toList`, `remove_toList` : on an ordered tree the operations are those on its list; `lookupPrevious` finds the
  value with the greatest key up to the one asked for (`IsPrevious`).
-/

namespace S2E.Klee
open List

inductive ImmutableTree (α : Type)
  | terminator
  | node (left : ImmutableTree α) (value : α) (right : ImmutableTree α)
deriving DecidableEq

namespace ImmutableTree

variable {α κ : Type}

def height : ImmutableTree α → Nat
  | .terminator => 0
  | .node left _ right => max left.height right.height + 1

def toList : ImmutableTree α → List α
  | .terminator => []
  | .node left value right => left.toList ++ value :: right.toList

/-- The heights that are compared rule out the terminators that are dereferenced; there the node is built as it is. -/
def balance (left : ImmutableTree α) (value : α) (right : ImmutableTree α) : ImmutableTree α :=
  if right.height + 2 < left.height then
    match left with
    | .terminator => .node left value right
    | .node ll lv lr =>
      if lr.height ≤ ll.height then .node ll lv (.node lr value right)
      else
        match lr with
        | .terminator => .node left value right
        | .node lrl lrv lrr => .node (.node ll lv lrl) lrv (.node lrr value right)
  else if left.height + 2 < right.height then
    match right with
    | .terminator => .node left value right
    | .node rl rv rr =>
      if rl.height ≤ rr.height then .node (.node left value rl) rv rr
      else
        match rl with
        | .terminator => .node left value right
        | .node rll rlv rlr => .node (.node left value rll) rlv (.node rlr rv rr)
  else .node left value right

/-- `popMin` of the node with these three fields: the least value, and the tree without it. -/
def popMin : ImmutableTree α → α → ImmutableTree α → α × ImmutableTree α
  | .terminator, value, right => (value, right)
  | .node ll lv lr, value, right =>
    let r := popMin ll lv lr
    (r.1, balance r.2 value right)

section

variable [LinearOrder κ] (key : α → κ)

def replace (v : α) : ImmutableTree α → ImmutableTree α
  | .terminator => .node .terminator v .terminator
  | .node left value right =>
    if key v < key value then balance (replace v left) value right
    else if key value < key v then balance left value (replace v right)
    else .node left v right

def remove (k : κ) : ImmutableTree α → ImmutableTree α
  | .terminator => .terminator
  | .node left value right =>
    if k < key value then balance (remove k left) value right
    else if key value < k then balance left value (remove k right)
    else
      match left, right with
      | .terminator, right => right
      | left, .terminator => left
      | left, .node rl rv rr =>
        let r := popMin rl rv rr
        balance left r.1 r.2

/-- The loop of `lookup_previous`; `result` is the last node that was left to the right. -/
def lookupPreviousFrom (k : κ) (result : Option α) : ImmutableTree α → Option α
  | .terminator => result
  | .node left value right =>
    if k < key value then lookupPreviousFrom k result left
    else if key value < k then lookupPreviousFrom k (some value) right
    else some value

def lookupPrevious (t : ImmutableTree α) (k : κ) : Option α := lookupPreviousFrom key k none t

def Ordered (t : ImmutableTree α) : Prop := t.toList.Pairwise fun a b => key a < key b

end

/-! ## Rotations -/

@[simp] theorem toList_terminator : (terminator : ImmutableTree α).toList = [] := rfl

@[simp] theorem toList_node (left : ImmutableTree α) (value : α) (right : ImmutableTree α) :
    (node left value right).toList = left.toList ++ value :: right.toList := rfl

@[simp] theorem toList_balance (left : ImmutableTree α) (value : α) (right : ImmutableTree α) :
    (balance left value right).toList = left.toList ++ value :: right.toList := by
  unfold balance
  split
  · split
    · rfl
    · split
      · simp
      · split <;> simp
  · split
    · split
      · rfl
      · split
        · simp
        · split <;> simp
    · rfl

theorem toList_popMin : ∀ (left : ImmutableTree α) (value : α) (right : ImmutableTree α),
    (popMin left value right).1 :: (popMin left value right).2.toList = left.toList ++ value :: right.toList
  | .terminator, _, _ => rfl
  | .node ll lv lr, value, right => by
    have ih := toList_popMin ll lv lr
    rw [toList_node, ← ih]
    simp [popMin]

/-! ## The operations on an ordered tree -/

section

variable [LinearOrder κ] {key : α → κ} {left right t : ImmutableTree α} {value : α}

theorem ordered_node : Ordered key (node left value right) ↔ Ordered key left ∧ Ordered key right ∧
    (∀ a ∈ left.toList, key a < key value) ∧ ∀ b ∈ right.toList, key value < key b := by
  unfold Ordered
  rw [toList_node, pairwise_append, pairwise_cons]
  constructor
  · grind
  · rintro ⟨hl, hr, hlv, hvr⟩
    refine ⟨hl, ⟨hvr, hr⟩, fun a ha b hb => ?_⟩
    rcases mem_cons.1 hb with rfl | hb
    · exact hlv a ha
    · exact (hlv a ha).trans (hvr b hb)

section Filter

variable {l : List α} {k : κ}

theorem filter_of_lt (h : ∀ a ∈ l, key a < k) : l.filter (key · < k) = l ∧ l.filter (k < key ·) = [] :=
  ⟨filter_eq_self.2 fun a ha => by simpa using h a ha, filter_eq_nil_iff.2 fun a ha => by simpa using (h a ha).le⟩

theorem filter_of_gt (h : ∀ a ∈ l, k < key a) : l.filter (key · < k) = [] ∧ l.filter (k < key ·) = l :=
  ⟨filter_eq_nil_iff.2 fun a ha => by simpa using (h a ha).le, filter_eq_self.2 fun a ha => by simpa using h a ha⟩

theorem takeWhile_eq_filter (h : l.Pairwise (key · < key ·)) : l.takeWhile (key · ≤ k) = l.filter (key · ≤ k) := by
  induction l with
  | nil => rfl
  | cons a l ih =>
    obtain ⟨ha, hl⟩ := pairwise_cons.1 h
    by_cases hk : key a ≤ k
    · simp [hk, ih hl]
    · have hno : ∀ b ∈ l, k < key b := fun b hb => (not_le.1 hk).trans (ha b hb)
      simpa [hk] using hno

/-- The last value up to `k` has the greatest key up to `k`. -/
theorem getLast?_filter {v : α} (h : l.Pairwise (key · < key ·)) : (l.filter (key · ≤ k)).getLast? = some v ↔
    v ∈ l ∧ key v ≤ k ∧ ∀ x ∈ l, key x ≤ k → key x ≤ key v := by
  have hmem : ∀ x, x ∈ l.filter (key · ≤ k) ↔ x ∈ l ∧ key x ≤ k := by simp
  have hord := h.filter (key · ≤ k)
  rw [← and_assoc, ← hmem]
  simp only [← and_imp, ← hmem]
  generalize l.filter (key · ≤ k) = vs at hord
  rcases eq_nil_or_concat vs with rfl | ⟨vs, u, rfl⟩
  · simp
  · rw [concat_eq_append] at hord ⊢
    have hlast : ∀ x ∈ vs, key x < key u := by simpa using (pairwise_append.1 hord).2.2
    simp only [getLast?_concat, mem_append, mem_singleton, Option.some.injEq]
    grind

end Filter

theorem replace_toList (v : α) (h : Ordered key t) : (replace key v t).toList =
    t.toList.filter (key · < key v) ++ v :: t.toList.filter (key v < key ·) := by
  induction t with
  | terminator => rfl
  | node left value right ihl ihr =>
    obtain ⟨hl, hr, hlv, hvr⟩ := ordered_node.1 h
    unfold replace
    rw [toList_node, filter_append, filter_append, filter_cons, filter_cons]
    rcases lt_trichotomy (key v) (key value) with hlt | heq | hgt
    · have hright : ∀ b ∈ right.toList, key v < key b := fun b hb => hlt.trans (hvr b hb)
      rw [if_pos hlt, toList_balance, ihl hl, (filter_of_gt hright).1, (filter_of_gt hright).2]
      simp [hlt, hlt.le]
    · rw [heq, (filter_of_gt hvr).1, (filter_of_gt hvr).2, (filter_of_lt hlv).1, (filter_of_lt hlv).2]
      simp
    · have hleft : ∀ a ∈ left.toList, key a < key v := fun a ha => (hlv a ha).trans hgt
      rw [if_neg hgt.not_gt, if_pos hgt, toList_balance, ihr hr, (filter_of_lt hleft).1, (filter_of_lt hleft).2]
      simp [hgt, hgt.le]

theorem remove_toList (k : κ) (h : Ordered key t) : (remove key k t).toList =
    t.toList.filter (key · < k) ++ t.toList.filter (k < key ·) := by
  induction t with
  | terminator => rfl
  | node left value right ihl ihr =>
    obtain ⟨hl, hr, hlv, hvr⟩ := ordered_node.1 h
    unfold remove
    rw [toList_node, filter_append, filter_append, filter_cons, filter_cons]
    rcases lt_trichotomy k (key value) with hlt | rfl | hgt
    · have hright : ∀ b ∈ right.toList, k < key b := fun b hb => hlt.trans (hvr b hb)
      rw [if_pos hlt, toList_balance, ihl hl, (filter_of_gt hright).1, (filter_of_gt hright).2]
      simp [hlt, hlt.le]
    · rw [(filter_of_gt hvr).1, (filter_of_gt hvr).2, (filter_of_lt hlv).1, (filter_of_lt hlv).2]
      simp only [lt_irrefl, if_false, decide_false, Bool.false_eq_true, append_nil, nil_append]
      split
      · rfl
      · simp
      · rw [toList_balance, toList_popMin, toList_node]
    · have hleft : ∀ a ∈ left.toList, key a < k := fun a ha => (hlv a ha).trans hgt
      rw [if_neg hgt.not_gt, if_pos hgt, toList_balance, ihr hr, (filter_of_lt hleft).1, (filter_of_lt hleft).2]
      simp [hgt, hgt.le]

theorem Ordered.replace (v : α) (h : Ordered key t) : Ordered key (replace key v t) := by
  unfold Ordered
  rw [replace_toList v h, pairwise_append, pairwise_cons]
  refine ⟨h.filter _, ⟨fun b hb => ?_, h.filter _⟩, fun a ha b hb => ?_⟩
  · simpa using (mem_filter.1 hb).2
  · have ha : key a < key v := by simpa using (mem_filter.1 ha).2
    rcases mem_cons.1 hb with rfl | hb
    · exact ha
    · exact ha.trans (by simpa using (mem_filter.1 hb).2)

theorem Ordered.remove (k : κ) (h : Ordered key t) : Ordered key (remove key k t) := by
  unfold Ordered
  rw [remove_toList k h, pairwise_append]
  refine ⟨h.filter _, h.filter _, fun a ha b hb => ?_⟩
  have ha : key a < k := by simpa using (mem_filter.1 ha).2
  exact ha.trans (by simpa using (mem_filter.1 hb).2)

section

variable (h : Ordered key t)

include h

theorem mem_replace {v x : α} : x ∈ (replace key v t).toList ↔ x = v ∨ x ∈ t.toList ∧ key x ≠ key v := by
  rw [replace_toList v h, mem_append, mem_cons, mem_filter, mem_filter, ne_iff_lt_or_gt]
  simp only [decide_eq_true_eq]
  tauto

theorem mem_remove {k : κ} {x : α} : x ∈ (remove key k t).toList ↔ x ∈ t.toList ∧ key x ≠ k := by
  rw [remove_toList k h, mem_append, mem_filter, mem_filter, ne_iff_lt_or_gt]
  simp only [decide_eq_true_eq]
  tauto

theorem Ordered.eq_of_key_eq {a b : α} (ha : a ∈ t.toList) (hb : b ∈ t.toList) (heq : key a = key b) : a = b := by
  have hnodup : (t.toList.map key).Nodup := pairwise_map.2 (h.imp fun hlt => hlt.ne)
  exact inj_on_of_nodup_map hnodup ha hb heq

theorem Ordered.nodup : t.toList.Nodup := h.imp fun hlt heq => hlt.ne (congrArg key heq)

theorem length_remove_lt {v : α} (hv : v ∈ t.toList) : (remove key (key v) t).toList.length < t.toList.length := by
  have hnot : v ∉ (remove key (key v) t).toList := fun hmem => ((mem_remove h).1 hmem).2 rfl
  have hnodup : (v :: (remove key (key v) t).toList).Nodup := nodup_cons.2 ⟨hnot, (h.remove _).nodup⟩
  refine (hnodup.subperm fun x hx => ?_).length_le
  rcases mem_cons.1 hx with rfl | hx
  · exact hv
  · exact ((mem_remove h).1 hx).1

end

/-- The value with the greatest key up to `k`. -/
def IsPrevious (key : α → κ) (t : ImmutableTree α) (k : κ) (v : α) : Prop :=
  v ∈ t.toList ∧ key v ≤ k ∧ ∀ x ∈ t.toList, key x ≤ k → key x ≤ key v

/-- The loop finds the last value up to `k`. -/
theorem lookupPreviousFrom_eq (k : κ) (h : Ordered key t) (result : Option α) :
    lookupPreviousFrom key k result t = (t.toList.filter (key · ≤ k)).getLast?.or result := by
  induction t generalizing result with
  | terminator => rfl
  | node left value right ihl ihr =>
    obtain ⟨hl, hr, hlv, hvr⟩ := ordered_node.1 h
    unfold lookupPreviousFrom
    rw [toList_node, filter_append]
    rcases lt_trichotomy k (key value) with hlt | rfl | hgt
    · have hright : filter (key · ≤ k) (value :: right.toList) = [] := by
        refine filter_eq_nil_iff.2 fun b hb => ?_
        rcases mem_cons.1 hb with rfl | hb
        · simpa using hlt
        · simpa using hlt.trans (hvr b hb)
      rw [if_pos hlt, ihl hl, hright, append_nil]
    · have hright : filter (key · ≤ key value) right.toList = [] := filter_eq_nil_iff.2 fun b hb => by simpa using hvr b hb
      simp [hright]
    · rw [if_neg hgt.not_gt, if_pos hgt, ihr hr, filter_cons_of_pos (by simpa using hgt.le)]
      simp [getLast?_append, getLast?_cons]

theorem lookupPrevious_eq (k : κ) (h : Ordered key t) :
    lookupPrevious key t k = (t.toList.filter (key · ≤ k)).getLast? := by
  rw [lookupPrevious, lookupPreviousFrom_eq k h, Option.or_none]

theorem lookupPrevious_none {k : κ} (h : Ordered key t) (hk : lookupPrevious key t k = none) :
    ∀ x ∈ t.toList, k < key x := by
  rw [lookupPrevious_eq k h, getLast?_eq_none_iff, filter_eq_nil_iff] at hk
  simpa using hk

theorem lookupPrevious_iff {k : κ} {v : α} (h : Ordered key t) :
    lookupPrevious key t k = some v ↔ IsPrevious key t k v := by
  rw [lookupPrevious_eq k h]
  exact getLast?_filter h

end

end ImmutableTree

end S2E.Klee
