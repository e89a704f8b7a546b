import S2E.Klee.ADT.ImmutableTree

/-!
# The operations of `ImmutableTree` and the heights

`insert`, `popMax` and `lookup`, and what all the operations do to the heights: in a tree whose sibling heights differ by at
most the two of `balance`, a change of one child by at most one level is repaired.

* `Balanced t` : the heights of any two siblings differ by at most two;
* `Grows t t'`, `Shrinks t t'` : `t'` is balanced and as high as `t` or one level higher, or lower;
* `mem_insert`, `lookup_eq_some_iff` : the operations on an ordered tree.
-/

namespace S2E.Klee.ImmutableTree

variable {α κ : Type}

/-- `popMax` of the node with these three fields: the greatest value, and the tree without it. -/
def popMax : ImmutableTree α → α → ImmutableTree α → α × ImmutableTree α
  | left, value, .terminator => (value, left)
  | left, value, .node rl rv rr =>
    let r := popMax rl rv rr
    (r.1, balance left value r.2)

/-- `popMin` of a tree: the terminator has a default value, and is its own child. -/
def popMinRoot [Inhabited α] : ImmutableTree α → α × ImmutableTree α
  | .terminator => (default, .terminator)
  | .node left value right => popMin left value right

/-- `popMax` of a tree. -/
def popMaxRoot [Inhabited α] : ImmutableTree α → α × ImmutableTree α
  | .terminator => (default, .terminator)
  | .node left value right => popMax left value right

section

variable [LinearOrder κ] (key : α → κ)

/-- A value whose key is there already is not taken. -/
def insert (v : α) : ImmutableTree α → ImmutableTree α
  | .terminator => .node .terminator v .terminator
  | .node left value right =>
    if key v < key value then balance (insert v left) value right
    else if key value < key v then balance left value (insert v right)
    else .node left value right

def lookup (k : κ) : ImmutableTree α → Option α
  | .terminator => none
  | .node left value right =>
    if k < key value then lookup k left
    else if key value < k then lookup k right
    else some value

end

/-! ## Heights -/

def Balanced : ImmutableTree α → Prop
  | .terminator => True
  | .node left _ right =>
    left.height ≤ right.height + 2 ∧ right.height ≤ left.height + 2 ∧ left.Balanced ∧ right.Balanced

@[simp] theorem height_terminator : (terminator : ImmutableTree α).height = 0 := rfl

@[simp] theorem height_node (left : ImmutableTree α) (value : α) (right : ImmutableTree α) :
    (node left value right).height = max left.height right.height + 1 := rfl

@[simp] theorem balanced_node (left : ImmutableTree α) (value : α) (right : ImmutableTree α) :
    (node left value right).Balanced ↔
      left.height ≤ right.height + 2 ∧ right.height ≤ left.height + 2 ∧ left.Balanced ∧ right.Balanced := Iff.rfl

structure Grows (t t' : ImmutableTree α) : Prop where
  balanced : t'.Balanced
  le : t.height ≤ t'.height
  le_succ : t'.height ≤ t.height + 1

structure Shrinks (t t' : ImmutableTree α) : Prop where
  balanced : t'.Balanced
  le : t'.height ≤ t.height
  le_succ : t.height ≤ t'.height + 1

section Heights

variable {left right left' right' t : ImmutableTree α} {value value' : α}

theorem balance_of_close (value : α) (hlr : left.height ≤ right.height + 2) (hrl : right.height ≤ left.height + 2) :
    balance left value right = node left value right := by
  unfold balance
  rw [if_neg hlr.not_gt, if_neg hrl.not_gt]

theorem balance_left_high (value : α) (hl : left.Balanced) (hr : right.Balanced)
    (hhigh : left.height = right.height + 3) : (balance left value right).Balanced ∧
      left.height ≤ (balance left value right).height ∧ (balance left value right).height ≤ left.height + 1 := by
  unfold balance
  rw [if_pos (by omega)]
  cases left with
  | terminator => simp at hhigh
  | node ll lv lr =>
    obtain ⟨hllr, hlrl, hll, hlr⟩ := hl
    rw [height_node] at hhigh
    dsimp only
    by_cases hside : lr.height ≤ ll.height
    · rw [if_pos hside]
      simp only [balanced_node, height_node]
      refine ⟨⟨?_, ?_, hll, ?_, ?_, hlr, hr⟩, ?_, ?_⟩ <;> omega
    · rw [if_neg hside]
      cases lr with
      | terminator => simp at hside
      | node lrl lrv lrr =>
        obtain ⟨hrlr, hrrl, hlrl', hlrr⟩ := hlr
        rw [height_node] at hllr hlrl hside hhigh
        simp only [balanced_node, height_node]
        refine ⟨⟨?_, ?_, ⟨?_, ?_, hll, hlrl'⟩, ?_, ?_, hlrr, hr⟩, ?_, ?_⟩ <;> omega

theorem balance_right_high (value : α) (hl : left.Balanced) (hr : right.Balanced)
    (hhigh : right.height = left.height + 3) : (balance left value right).Balanced ∧
      right.height ≤ (balance left value right).height ∧ (balance left value right).height ≤ right.height + 1 := by
  unfold balance
  rw [if_neg (by omega), if_pos (by omega)]
  cases right with
  | terminator => simp at hhigh
  | node rl rv rr =>
    obtain ⟨hrlr, hrrl, hrl, hrr⟩ := hr
    rw [height_node] at hhigh
    dsimp only
    by_cases hside : rl.height ≤ rr.height
    · rw [if_pos hside]
      simp only [balanced_node, height_node]
      refine ⟨⟨?_, ?_, ⟨?_, ?_, hl, hrl⟩, hrr⟩, ?_, ?_⟩ <;> omega
    · rw [if_neg hside]
      cases rl with
      | terminator => simp at hside
      | node rll rlv rlr =>
        obtain ⟨hllr, hlrl, hrll, hrlr'⟩ := hrl
        rw [height_node] at hrlr hrrl hside hhigh
        simp only [balanced_node, height_node]
        refine ⟨⟨?_, ?_, ⟨?_, ?_, hl, hrll⟩, ?_, ?_, hrlr', hrr⟩, ?_, ?_⟩ <;> omega

/-- Two balanced subtrees that are one level too far apart at most. -/
theorem balance_heights (value : α) (hl : left.Balanced) (hr : right.Balanced) (hlr : left.height ≤ right.height + 3)
    (hrl : right.height ≤ left.height + 3) : (balance left value right).Balanced ∧
      max left.height right.height ≤ (balance left value right).height ∧
      (balance left value right).height ≤ max left.height right.height + 1 ∧
      (left.height ≤ right.height + 2 → right.height ≤ left.height + 2 →
        (balance left value right).height = max left.height right.height + 1) := by
  by_cases hleft : left.height = right.height + 3
  · obtain ⟨hb, hle, hge⟩ := balance_left_high value hl hr hleft
    refine ⟨hb, ?_, ?_, ?_⟩ <;> omega
  by_cases hright : right.height = left.height + 3
  · obtain ⟨hb, hle, hge⟩ := balance_right_high value hl hr hright
    refine ⟨hb, ?_, ?_, ?_⟩ <;> omega
  rw [balance_of_close value (by omega) (by omega)]
  refine ⟨⟨by omega, by omega, hl, hr⟩, ?_, le_rfl, fun _ _ => rfl⟩
  rw [height_node]
  omega

section

variable (hb : (node left value right).Balanced)
include hb

theorem Grows.balance_left (hg : Grows left left') : Grows (node left value right) (balance left' value' right) := by
  obtain ⟨hlr, hrl, -, hr⟩ := hb
  obtain ⟨hb', hle, hge⟩ := hg
  obtain ⟨hbal, hlow, hhigh, hclose⟩ := balance_heights value' hb' hr (by omega) (by omega)
  refine ⟨hbal, ?_, ?_⟩ <;> rw [height_node] <;> omega

theorem Grows.balance_right (hg : Grows right right') : Grows (node left value right) (balance left value' right') := by
  obtain ⟨hlr, hrl, hl, -⟩ := hb
  obtain ⟨hb', hle, hge⟩ := hg
  obtain ⟨hbal, hlow, hhigh, hclose⟩ := balance_heights value' hl hb' (by omega) (by omega)
  refine ⟨hbal, ?_, ?_⟩ <;> rw [height_node] <;> omega

theorem Shrinks.balance_left (hs : Shrinks left left') :
    Shrinks (node left value right) (balance left' value' right) := by
  obtain ⟨hlr, hrl, -, hr⟩ := hb
  obtain ⟨hb', hle, hge⟩ := hs
  obtain ⟨hbal, hlow, hhigh, hclose⟩ := balance_heights value' hb' hr (by omega) (by omega)
  refine ⟨hbal, ?_, ?_⟩ <;> rw [height_node] <;> omega

theorem Shrinks.balance_right (hs : Shrinks right right') :
    Shrinks (node left value right) (balance left value' right') := by
  obtain ⟨hlr, hrl, hl, -⟩ := hb
  obtain ⟨hb', hle, hge⟩ := hs
  obtain ⟨hbal, hlow, hhigh, hclose⟩ := balance_heights value' hl hb' (by omega) (by omega)
  refine ⟨hbal, ?_, ?_⟩ <;> rw [height_node] <;> omega

end

theorem popMin_shrinks : ∀ {left : ImmutableTree α} {value : α} {right : ImmutableTree α},
    (node left value right).Balanced → Shrinks (node left value right) (popMin left value right).2
  | .terminator, _, right, hb => ⟨hb.2.2.2, by simp [popMin], by simp [popMin]⟩
  | .node _ _ _, _, _, hb => Shrinks.balance_left hb (popMin_shrinks hb.2.2.1)

theorem popMax_shrinks : ∀ {left : ImmutableTree α} {value : α} {right : ImmutableTree α},
    (node left value right).Balanced → Shrinks (node left value right) (popMax left value right).2
  | left, _, .terminator, hb => ⟨hb.2.2.1, by simp [popMax], by simp [popMax]⟩
  | _, _, .node _ _ _, hb => Shrinks.balance_right hb (popMax_shrinks hb.2.2.2)

variable [LinearOrder κ] {key : α → κ}

theorem singleton_grows (v : α) : Grows terminator (node terminator v terminator) := by
  refine ⟨⟨?_, ?_, trivial, trivial⟩, ?_, ?_⟩ <;> simp

theorem insert_grows (v : α) (hb : t.Balanced) : Grows t (insert key v t) := by
  induction t with
  | terminator => exact singleton_grows v
  | node left value right ihl ihr =>
    unfold insert
    split_ifs with hlt hgt
    · exact Grows.balance_left hb (ihl hb.2.2.1)
    · exact Grows.balance_right hb (ihr hb.2.2.2)
    · exact ⟨hb, le_rfl, Nat.le_succ _⟩

theorem replace_grows (v : α) (hb : t.Balanced) : Grows t (replace key v t) := by
  induction t with
  | terminator => exact singleton_grows v
  | node left value right ihl ihr =>
    unfold replace
    split_ifs with hlt hgt
    · exact Grows.balance_left hb (ihl hb.2.2.1)
    · exact Grows.balance_right hb (ihr hb.2.2.2)
    · exact ⟨hb, le_rfl, Nat.le_succ _⟩

theorem remove_shrinks (k : κ) (hb : t.Balanced) : Shrinks t (remove key k t) := by
  induction t with
  | terminator => exact ⟨hb, le_rfl, Nat.le_succ _⟩
  | node left value right ihl ihr =>
    unfold remove
    split_ifs with hlt hgt
    · exact Shrinks.balance_left hb (ihl hb.2.2.1)
    · exact Shrinks.balance_right hb (ihr hb.2.2.2)
    · split
      · exact ⟨hb.2.2.2, by simp, by simp⟩
      · exact ⟨hb.2.2.1, by simp, by simp⟩
      · exact Shrinks.balance_right hb (popMin_shrinks hb.2.2.2)

end Heights

/-! ## The values -/

theorem toList_popMax : ∀ (left : ImmutableTree α) (value : α) (right : ImmutableTree α),
    (popMax left value right).2.toList ++ [(popMax left value right).1] = left.toList ++ value :: right.toList
  | _, _, .terminator => rfl
  | left, value, .node rl rv rr => by
    have ih := toList_popMax rl rv rr
    rw [toList_node, ← ih]
    simp [popMax]

section

variable [LinearOrder κ] {key : α → κ} {t : ImmutableTree α}

/-- With a new key, `insert` does what `replace` does. -/
theorem insert_eq_replace {v : α} (h : ∀ x ∈ t.toList, key x ≠ key v) : insert key v t = replace key v t := by
  induction t with
  | terminator => rfl
  | node left value right ihl ihr =>
    have hne : key value ≠ key v := h value (by simp)
    unfold insert replace
    rw [ihl fun x hx => h x (by simp [hx]), ihr fun x hx => h x (by simp [hx])]
    rcases lt_or_gt_of_ne hne with hlt | hgt
    · rw [if_neg hlt.not_gt, if_pos hlt, if_neg hlt.not_gt, if_pos hlt]
    · rw [if_pos hgt, if_pos hgt]

theorem toList_insert_of_mem {v x : α} (h : Ordered key t) (hx : x ∈ t.toList) (hkey : key x = key v) :
    (insert key v t).toList = t.toList := by
  induction t with
  | terminator => cases hx
  | node left value right ihl ihr =>
    obtain ⟨hl, hr, hlv, hvr⟩ := ordered_node.1 h
    have hmem : x ∈ left.toList ∨ x = value ∨ x ∈ right.toList := by simpa using hx
    unfold insert
    split_ifs with hlt hgt
    · have hx : x ∈ left.toList := by
        rcases hmem with hx | rfl | hx
        · exact hx
        · exact absurd hlt hkey.not_gt
        · exact absurd (hkey ▸ hlt) (hvr x hx).not_gt
      rw [toList_balance, ihl hl hx, toList_node]
    · have hx : x ∈ right.toList := by
        rcases hmem with hx | rfl | hx
        · exact absurd (hkey ▸ hgt) (hlv x hx).not_gt
        · exact absurd hgt hkey.not_lt
        · exact hx
      rw [toList_balance, ihr hr hx, toList_node]
    · rfl

theorem Ordered.insert (v : α) (h : Ordered key t) : Ordered key (insert key v t) := by
  by_cases hnew : ∀ x ∈ t.toList, key x ≠ key v
  · rw [insert_eq_replace hnew]
    exact h.replace v
  · push Not at hnew
    obtain ⟨x, hx, hkey⟩ := hnew
    unfold Ordered
    rw [toList_insert_of_mem h hx hkey]
    exact h

theorem mem_insert {v x : α} (h : Ordered key t) :
    x ∈ (insert key v t).toList ↔ x ∈ t.toList ∨ x = v ∧ ∀ y ∈ t.toList, key y ≠ key v := by
  by_cases hnew : ∀ y ∈ t.toList, key y ≠ key v
  · rw [insert_eq_replace hnew, mem_replace h]
    constructor
    · rintro (rfl | ⟨hx, -⟩)
      · exact .inr ⟨rfl, hnew⟩
      · exact .inl hx
    · rintro (hx | ⟨rfl, -⟩)
      · exact .inr ⟨hx, hnew x hx⟩
      · exact .inl rfl
  · have hold := hnew
    push Not at hold
    obtain ⟨y, hy, hkey⟩ := hold
    rw [toList_insert_of_mem h hy hkey]
    exact ⟨.inl, fun hx => hx.elim id fun hx => absurd hx.2 hnew⟩

theorem lookup_eq_some_iff {k : κ} {v : α} (h : Ordered key t) :
    lookup key k t = some v ↔ v ∈ t.toList ∧ key v = k := by
  induction t with
  | terminator => simp [lookup]
  | node left value right ihl ihr =>
    obtain ⟨hl, hr, hlv, hvr⟩ := ordered_node.1 h
    have hmem : v ∈ (node left value right).toList ↔ v ∈ left.toList ∨ v = value ∨ v ∈ right.toList := by simp
    unfold lookup
    rw [hmem]
    split_ifs with hlt hgt
    · rw [ihl hl]
      refine ⟨fun hv => ⟨.inl hv.1, hv.2⟩, ?_⟩
      rintro ⟨hv | rfl | hv, rfl⟩
      · exact ⟨hv, rfl⟩
      · exact absurd hlt (lt_irrefl _)
      · exact absurd hlt (hvr v hv).not_gt
    · rw [ihr hr]
      refine ⟨fun hv => ⟨.inr (.inr hv.1), hv.2⟩, ?_⟩
      rintro ⟨hv | rfl | hv, rfl⟩
      · exact absurd hgt (hlv v hv).not_gt
      · exact absurd hgt (lt_irrefl _)
      · exact ⟨hv, rfl⟩
    · obtain rfl : k = key value := le_antisymm (not_lt.1 hgt) (not_lt.1 hlt)
      constructor
      · grind
      · grind

end

end S2E.Klee.ImmutableTree
