import Mathlib.Tactic

/-!
# Comparisons that read off keys

A structural comparison looks at one thing after another and stops at the first difference. List what it looks at as the
key of a value; then the comparison is the lexicographic order of the keys, and the laws of an order come from there.

* `Decides cmp o k l` : two lists that begin with the keys `k` and `l` compare as `o`, and as what follows where `o` is
  `eq`. That is the form in which keys compose: `nil`, `refl`, `cons` and `append` follow the comparison;
* `Decides.swap`, `Decides.isLE_trans` : two results for the same keys the other way round, and three along a chain.
-/

namespace S2E.Lib

variable {α : Type} {cmp : α → α → Ordering}

def Decides (cmp : α → α → Ordering) (o : Ordering) (k l : List α) : Prop :=
  ∀ s t, List.compareLex cmp (k ++ s) (l ++ t) = o.then (List.compareLex cmp s t)

namespace Decides

variable {o o' : Ordering} {k k' l l' : List α} {x y : α}

theorem nil : Decides cmp .eq [] [] := fun _ _ => rfl

/-- Where the heads differ, nothing is asked of what follows. -/
theorem cons (h : cmp x y = .eq → Decides cmp o k l) : Decides cmp ((cmp x y).then o) (x :: k) (y :: l) := by
  intro s t
  rw [List.cons_append, List.cons_append, List.compareLex_cons_cons, Ordering.then_assoc]
  cases hxy : cmp x y with
  | eq => exact h hxy s t
  | lt => rfl
  | gt => rfl

theorem refl [Std.ReflCmp cmp] (k : List α) : Decides cmp .eq k k := by
  induction k with
  | nil => exact nil
  | cons x k ih =>
    have h : cmp x x = .eq := Std.ReflCmp.compare_self
    have hcons : Decides cmp ((cmp x x).then .eq) (x :: k) (x :: k) := cons fun _ => ih
    rwa [h] at hcons

section

variable (h : Decides cmp o k l)

include h

theorem append (h' : Decides cmp o' k' l') : Decides cmp (o.then o') (k ++ k') (l ++ l') := by
  intro s t
  rw [List.append_assoc, List.append_assoc, h, h', Ordering.then_assoc]

/-- Looking a second time finds nothing new. -/
theorem twice : Decides cmp (o.then o) k l := by
  have ho : o.then o = o := by cases o <;> rfl
  rwa [ho]

theorem eq_compareLex : o = List.compareLex cmp k l := by
  have := h [] []
  rw [List.append_nil, List.append_nil, List.compareLex_nil_nil, Ordering.then_eq] at this
  exact this.symm

theorem swap [Std.OrientedCmp cmp] (h' : Decides cmp o' l k) : o' = o.swap := by
  rw [h.eq_compareLex, h'.eq_compareLex]
  exact Std.OrientedCmp.eq_swap

theorem isLE_trans [Std.TransCmp cmp] {o'' : Ordering} {m : List α} (h' : Decides cmp o' l m)
    (h'' : Decides cmp o'' k m) (hkl : o.isLE) (hlm : o'.isLE) : o''.isLE := by
  rw [h.eq_compareLex] at hkl
  rw [h'.eq_compareLex] at hlm
  rw [h''.eq_compareLex]
  exact Std.TransCmp.isLE_trans hkl hlm

end

end Decides

end S2E.Lib
