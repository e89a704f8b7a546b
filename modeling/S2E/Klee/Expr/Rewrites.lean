import S2E.Klee.Expr.Create

/-!
# Rewriting under a set of assignments

* `Expr.Equiv Γ e e'` : the same width and, under the assignments of `Γ`, the same value;
* `NodeCond.Stable Γ P` : the node condition `P` does not tell equivalent operands apart;
* `Expr.Lighter Γ e e'` : `e'` may stand for `e` under `Γ`, and it is lighter;
* `Expr.Rewrites Γ e e'` : `e'` is `e`, or lighter. The kids of a node may be rewritten (`Lighter.rebuild`);
* `NodeCond.divisible Γ` : of each division, some assignment of `Γ` gives a divisor that is not zero, or two of them
  differ in the dividend. A division that meets it is never folded to a division by the constant zero.
-/

namespace S2E.Klee
open List

open Expr (eval getWidth weight withKids)
open List (Forall₂)

section Forall₂

variable {α β : Type} {R : α → β → Prop} {kids : List β}

theorem forall₂_one {x : α} (h : Forall₂ R [x] kids) : ∃ x', kids = [x'] ∧ R x x' := by
  rcases h with _ | ⟨hx, _ | _⟩
  exact ⟨_, rfl, hx⟩

theorem forall₂_two {x y : α} (h : Forall₂ R [x, y] kids) : ∃ x' y', kids = [x', y'] ∧ R x x' ∧ R y y' := by
  rcases h with _ | ⟨hx, h⟩
  obtain ⟨y', rfl, hy⟩ := forall₂_one h
  exact ⟨_, _, rfl, hx, hy⟩

theorem forall₂_three {x y z : α} (h : Forall₂ R [x, y, z] kids) :
    ∃ x' y' z', kids = [x', y', z'] ∧ R x x' ∧ R y y' ∧ R z z' := by
  rcases h with _ | ⟨hx, h⟩
  obtain ⟨y', z', rfl, hy, hz⟩ := forall₂_two h
  exact ⟨_, _, _, rfl, hx, hy, hz⟩

theorem forall₂_changed {R : α → α → Prop} [DecidableEq α] : ∀ {l l' : List α}, Forall₂ R l l' → l' ≠ l →
    ∃ k ∈ l, ∃ k', k' ≠ k ∧ R k k'
  | _, _, .nil, hne => absurd rfl hne
  | k :: _, k' :: _, .cons hk hl, hne => by
    by_cases h : k' = k
    · obtain ⟨x, hx, x', hx'⟩ := forall₂_changed hl (fun he => hne (by rw [h, he]))
      exact ⟨x, mem_cons_of_mem k hx, x', hx'⟩
    · exact ⟨k, mem_cons_self, k', h, hk⟩

theorem forall₂_mem_right : ∀ {l : List α} {l' : List β}, Forall₂ R l l' → ∀ {b}, b ∈ l' → ∃ a ∈ l, R a b
  | _, _, .cons h hl, b, hb => by
    rcases mem_cons.1 hb with rfl | hb
    · exact ⟨_, mem_cons_self, h⟩
    · obtain ⟨a, ha, hR⟩ := forall₂_mem_right hl hb
      exact ⟨a, mem_cons_of_mem _ ha, hR⟩

theorem forall₂_trans {α β γ : Type} {R : α → β → Prop} {S : β → γ → Prop} {T : α → γ → Prop}
    (hT : ∀ a b c, R a b → S b c → T a c) :
    ∀ {l : List α} {l' : List β} {l'' : List γ}, Forall₂ R l l' → Forall₂ S l' l'' → Forall₂ T l l''
  | _, _, _, .nil, .nil => .nil
  | _, _, _, .cons h hl, .cons h' hl' => .cons (hT _ _ _ h h') (forall₂_trans hT hl hl')

end Forall₂

/-! ## A node over other kids -/

variable {P : NodeCond} {kids : List Expr} {σ : Assignment} {Δ : Set Assignment}

section Kids

variable {e : Expr} {β : Type}

/-- A node, and a list that stands in a relation to its kids. -/
inductive Expr.Over (R : Expr → β → Prop) : Expr → List β → Prop
  | constant (c : APInt) : Over R (.constant c) []
  | notOptimized {x x'} (hx : R x x') : Over R (.notOptimized x) [x']
  | not {x x'} (hx : R x x') : Over R (.not x) [x']
  | read {root head x x'} (hx : R x x') : Over R (.read root head x) [x']
  | extract {x x' off w} (hx : R x x') : Over R (.extract x off w) [x']
  | zext {x x' w} (hx : R x x') : Over R (.zext x w) [x']
  | sext {x x' w} (hx : R x x') : Over R (.sext x w) [x']
  | concat {l r l' r'} (hl : R l l') (hr : R r r') : Over R (.concat l r) [l', r']
  | bin {k l r l' r'} (hl : R l l') (hr : R r r') : Over R (.bin k l r) [l', r']
  | cmp {k l r l' r'} (hl : R l l') (hr : R r r') : Over R (.cmp k l r) [l', r']
  | select {c t f c' t' f'} (hc : R c c') (ht : R t t') (hf : R f f') : Over R (.select c t f) [c', t', f']

theorem Expr.over_kids {R : Expr → β → Prop} {kids : List β} (h : Forall₂ R e.kids kids) : e.Over R kids := by
  cases e with
  | constant c =>
    cases h
    constructor
  | notOptimized x | not x | read _ _ x | extract x _ _ | zext x _ | sext x _ =>
    obtain ⟨x', rfl, hx⟩ := forall₂_one h
    exact by constructor; exact hx
  | concat l r | bin _ l r | cmp _ l r =>
    obtain ⟨l', r', rfl, hl, hr⟩ := forall₂_two h
    constructor <;> assumption
  | select c t f =>
    obtain ⟨c', t', f', rfl, hc, ht, hf⟩ := forall₂_three h
    exact .select hc ht hf

theorem Expr.withKids_width (hk : Forall₂ (fun k k' => k'.getWidth = k.getWidth) e.kids kids) :
    (e.withKids kids).getWidth = e.getWidth := by
  cases over_kids hk with
  | constant | read | extract | zext | sext | cmp => rfl
  | notOptimized hx | not hx => exact hx
  | concat hl hr => simp only [withKids, getWidth, hl, hr]
  | bin hl hr => exact hl
  | select hc ht hf => exact ht

/-- A node over kids of the same widths that meet the condition meets it where it is not a read or a division; the two
hypotheses say so of those. -/
theorem Expr.Ok.withKids (h : e.Ok P) (hk : Forall₂ (fun k k' => k'.getWidth = k.getWidth ∧ k'.Ok P) e.kids kids)
    (hread : ∀ root head i i', e = .read root head i → kids = [i'] → P.read root i')
    (hdiv : ∀ k l r l' r', e = .bin k l r → kids = [l', r'] → k.isDiv = true → P.div l' r') :
    (e.withKids kids).Ok P := by
  cases over_kids hk with
  | constant => exact h
  | notOptimized hx | not hx => exact hx.2
  | read hx => exact ⟨h.1, hx.2, hx.1.trans h.2.2.1, hread _ _ _ _ rfl rfl⟩
  | extract hx => exact ⟨hx.2, h.2.1, by rw [hx.1]; exact h.2.2⟩
  | zext hx | sext hx => exact ⟨hx.2, by rw [hx.1]; exact h.2⟩
  | concat hl hr => exact ⟨hl.2, hr.2⟩
  | cmp hl hr => exact ⟨hl.2, hr.2, by rw [hl.1, hr.1]; exact h.2.2⟩
  | bin hl hr => exact ⟨hl.2, hr.2, by rw [hl.1, hr.1]; exact h.2.2.1, hdiv _ _ _ _ _ rfl rfl⟩
  | select hc ht hf => exact ⟨hc.2, ht.2, hf.2, hc.1.trans h.2.2.2.1, by rw [ht.1, hf.1]; exact h.2.2.2.2⟩

theorem Expr.withKids_weight_le (hk : Forall₂ (fun k k' => k'.weight ≤ k.weight) e.kids kids) :
    (e.withKids kids).weight ≤ e.weight := by
  cases over_kids hk
  all_goals
    simp only [withKids, weight]
    omega

/-- Kids that are unchanged or lighter, one of them changed. -/
theorem Expr.withKids_weight_lt
    (hk : Forall₂ (fun k k' => k' = k ∨ k'.weight < k.weight) e.kids kids) (hne : kids ≠ e.kids) :
    (e.withKids kids).weight < e.weight := by
  cases over_kids hk with
  | constant => exact absurd rfl hne
  | notOptimized hx | read hx | extract hx | not hx | zext hx | sext hx =>
    rcases hx with rfl | hx
    · exact absurd rfl hne
    · simp only [withKids, weight]
      omega
  | concat hl hr | bin hl hr | cmp hl hr =>
    rcases hl with rfl | hl <;> rcases hr with rfl | hr
    · exact absurd rfl hne
    all_goals
      simp only [withKids, weight]
      omega
  | select hc ht hf =>
    rcases hc with rfl | hc <;> rcases ht with rfl | ht <;> rcases hf with rfl | hf
    · exact absurd rfl hne
    all_goals
      simp only [withKids, weight]
      omega

theorem Expr.eval_withKids_of_eval (h : e.WF)
    (hk : Forall₂ (fun k k' => k'.getWidth = k.getWidth ∧ k'.eval σ k.getWidth = k.eval σ k.getWidth) e.kids kids) :
    (e.withKids kids).eval σ e.getWidth = e.eval σ e.getWidth := by
  have eval_at : ∀ {k k' : Expr} {w : Nat}, k'.getWidth = k.getWidth ∧ k'.eval σ k.getWidth = k.eval σ k.getWidth →
      k.getWidth = w → k'.eval σ w = k.eval σ w := fun h hw => hw ▸ h.2
  cases over_kids hk with
  | constant => rfl
  | notOptimized hx => exact hx.2
  | not hx => exact congrArg (fun v => ~~~v) hx.2
  | read hx =>
    simp only [withKids, getWidth, eval]
    rw [eval_at hx h.2.2.1]
  | extract hx =>
    simp only [withKids, getWidth]
    rw [eval_extract hx.1, eval_extract rfl, hx.2]
  | zext hx =>
    simp only [withKids, getWidth]
    rw [eval_zext hx.1, eval_zext rfl, hx.2]
  | sext hx =>
    simp only [withKids, getWidth]
    rw [eval_sext hx.1, eval_sext rfl, hx.2]
  | concat hl hr =>
    simp only [withKids]
    rw [eval_concat hl.1 hr.1, eval_concat rfl rfl, hl.2, hr.2]
  | cmp hl hr =>
    simp only [withKids, getWidth]
    rw [eval_cmp hl.1, eval_cmp rfl, hl.2, eval_at hr h.2.2]
  | bin hl hr =>
    simp only [withKids, getWidth, eval]
    rw [hl.2, eval_at hr h.2.2.1]
  | select hc ht hf =>
    simp only [withKids, getWidth, eval]
    rw [eval_at hc h.2.2.2.1, ht.2, eval_at hf h.2.2.2.2]

end Kids

variable [Options] {Γ : Set Assignment} {e e' e'' : Expr}

structure Expr.Equiv (Γ : Set Assignment) (e e' : Expr) : Prop where
  width : e'.getWidth = e.getWidth
  inBounds : ∀ σ ∈ Γ, e.InBounds σ → e'.InBounds σ
  eval : ∀ σ ∈ Γ, e.InBounds σ → e'.eval σ e.getWidth = e.eval σ e.getWidth

structure NodeCond.Stable (Γ : Set Assignment) (P : NodeCond) : Prop where
  read : ∀ {root i i'}, i.Ok P → i.getWidth = 32 → i.Equiv Γ i' → P.read root i → P.read root i'
  div : ∀ {l l' r r'}, l.Equiv Γ l' → r.Equiv Γ r' → P.div l r → P.div l' r'

structure Expr.Lighter (Γ : Set Assignment) (e e' : Expr) : Prop where
  width : e'.getWidth = e.getWidth
  ok : ∀ P : NodeCond, P.Stable Γ → e.Ok P → e'.Ok P
  eval : ∀ σ ∈ Γ, e.InBounds σ → e'.eval σ e.getWidth = e.eval σ e.getWidth
  weight : e'.weight < e.weight

def Expr.Rewrites (Γ : Set Assignment) (e e' : Expr) : Prop := e' = e ∨ e.Lighter Γ e'

/-! ## Stable conditions -/

theorem Expr.Equiv.eval_at (h : e.Equiv Γ e') (hσ : σ ∈ Γ) (hb : e.InBounds σ) {w : Nat}
    (hw : e.getWidth = w) : e'.eval σ w = e.eval σ w := by
  subst hw
  exact h.eval σ hσ hb

theorem Expr.Equiv.mono (h : e.Equiv Γ e') (hΔ : Δ ⊆ Γ) : e.Equiv Δ e' :=
  ⟨h.width, fun σ hσ => h.inBounds σ (hΔ hσ), fun σ hσ => h.eval σ (hΔ hσ)⟩

theorem NodeCond.Stable.mono (h : P.Stable Δ) (hΔ : Δ ⊆ Γ) : P.Stable Γ :=
  ⟨fun hi hw he => h.read hi hw (he.mono hΔ), fun hl hr => h.div (hl.mono hΔ) (hr.mono hΔ)⟩

theorem NodeCond.any_stable : any.Stable Γ := ⟨fun _ _ _ _ => trivial, fun _ _ _ => trivial⟩

theorem NodeCond.inBounds_stable (hσ : σ ∈ Γ) : (inBounds σ).Stable Γ where
  read hi hw he hr := fun hc => by
    rw [he.eval_at hσ hi hw]
    exact hr hc
  div _ _ _ := trivial

def NodeCond.divisible (Γ : Set Assignment) : NodeCond where
  read _ _ := True
  div l r :=
    (∃ σ ∈ Γ, r.InBounds σ ∧ r.eval σ r.getWidth ≠ 0) ∨
    ∃ σ ∈ Γ, ∃ τ ∈ Γ, l.InBounds σ ∧ l.InBounds τ ∧ l.eval σ l.getWidth ≠ l.eval τ l.getWidth

theorem NodeCond.divisible_stable : (divisible Γ).Stable Γ where
  read _ _ _ _ := trivial
  div hl hr h := by
    rcases h with ⟨σ, hσ, hb, hv⟩ | ⟨σ, hσ, τ, hτ, hbσ, hbτ, hv⟩
    · refine .inl ⟨σ, hσ, hr.inBounds σ hσ hb, ?_⟩
      rw [hr.width, hr.eval σ hσ hb]
      exact hv
    · refine .inr ⟨σ, hσ, τ, hτ, hl.inBounds σ hσ hbσ, hl.inBounds τ hτ hbτ, ?_⟩
      rw [hl.width, hl.eval σ hσ hbσ, hl.eval τ hτ hbτ]
      exact hv

/-- More assignments vouch for more divisions. -/
theorem NodeCond.divisible_mono (h : Γ ⊆ Δ) (he : e.Ok (.divisible Γ)) : e.Ok (.divisible Δ) := by
  refine Expr.Ok.mono (fun _ _ _ => trivial) (fun l r hd => ?_) e he
  rcases hd with ⟨σ, hσ, hb, hv⟩ | ⟨σ, hσ, τ, hτ, hr⟩
  · exact .inl ⟨σ, h hσ, hb, hv⟩
  · exact .inr ⟨σ, h hσ, τ, h hτ, hr⟩

/-- On such a node `create` returns. -/
theorem Expr.create_ok_of_divisible (h : e.Ok (.divisible Γ)) : ∃ e', e.create = .ok e' := by
  cases hc : e.create with
  | ok e' => exact ⟨e', rfl⟩
  | error t =>
    obtain ⟨k, cl, cr, hk, rfl, hz⟩ := create_error hc
    rcases h.2.2.2 hk with ⟨σ, _, _, hv⟩ | ⟨σ, _, τ, _, _, _, hv⟩
    · exact absurd (eval_of_isZero hz σ) hv
    · exact absurd rfl hv

/-! ## Lighter, Rewrites -/

namespace Expr.Lighter

theorem equiv (h : e.Lighter Γ e') : e.Equiv Γ e' :=
  ⟨h.width, fun _ hσ => h.ok _ (NodeCond.inBounds_stable hσ), h.eval⟩

theorem trans (h₁ : e.Lighter Γ e') (h₂ : e'.Lighter Γ e'') : e.Lighter Γ e'' where
  width := h₂.width.trans h₁.width
  ok P hP h := h₂.ok P hP (h₁.ok P hP h)
  eval σ hσ hb := by
    rw [h₂.equiv.eval_at hσ (h₁.equiv.inBounds σ hσ hb) h₁.width, h₁.eval σ hσ hb]
  weight := h₂.weight.trans h₁.weight

theorem trans_simplifies (h₁ : e.Lighter Γ e') (h₂ : e'.Simplifies e'') : e.Lighter Γ e'' where
  width := h₂.width.trans h₁.width
  ok P hP h := h₂.ok P (h₁.ok P hP h)
  eval σ hσ hb := by
    rw [h₂.eval_at (h₁.equiv.inBounds σ hσ hb) h₁.width, h₁.eval σ hσ hb]
  weight := lt_of_le_of_lt h₂.weight h₁.weight

end Expr.Lighter

namespace Expr.Rewrites

theorem refl (e : Expr) : e.Rewrites Γ e := .inl rfl

section

variable (h : e.Rewrites Γ e')

include h

theorem equiv : e.Equiv Γ e' := by
  rcases h with rfl | h
  · exact ⟨rfl, fun _ _ h => h, fun _ _ _ => rfl⟩
  · exact h.equiv

theorem ok (hP : P.Stable Γ) (he : e.Ok P) : e'.Ok P := by
  rcases h with rfl | h
  · exact he
  · exact h.ok P hP he

theorem wf (he : e.WF) : e'.WF := h.ok NodeCond.any_stable he

omit h in
theorem trans (h₁ : e.Rewrites Γ e') (h₂ : e'.Rewrites Γ e'') : e.Rewrites Γ e'' := by
  rcases h₁ with rfl | h₁
  · exact h₂
  · rcases h₂ with rfl | h₂
    · exact .inr h₁
    · exact .inr (h₁.trans h₂)

theorem weight_le : e'.weight ≤ e.weight := by
  rcases h with rfl | h
  · exact le_rfl
  · exact h.weight.le

theorem eq_or_lt : e' = e ∨ e'.weight < e.weight := h.imp_right (·.weight)

end

end Expr.Rewrites

/-! ## Rewritten kids -/

theorem Expr.Equiv.refl (e : Expr) : e.Equiv Γ e := ⟨rfl, fun _ _ h => h, fun _ _ _ => rfl⟩

theorem Expr.eval_withKids (h : e.WF) (hk : Forall₂ (Expr.Equiv Γ) e.kids kids)
    (hσ : σ ∈ Γ) (hb : e.InBounds σ) : (e.withKids kids).eval σ e.getWidth = e.eval σ e.getWidth := by
  refine eval_withKids_of_eval h ?_
  rw [forall₂_iff_get] at hk ⊢
  exact ⟨hk.1, fun i h₁ h₂ => ⟨(hk.2 i h₁ h₂).width, (hk.2 i h₁ h₂).eval σ hσ (hb.kid (get_mem _ _))⟩⟩

/-- A stable condition of a node over equivalent kids that meet it. -/
theorem Expr.Ok.withKids_equiv (hP : P.Stable Γ) (h : e.Ok P)
    (hk : Forall₂ (fun k k' => k.Equiv Γ k' ∧ k'.Ok P) e.kids kids) : (e.withKids kids).Ok P := by
  refine h.withKids (hk.imp fun _ _ hk => ⟨hk.1.width, hk.2⟩) ?_ ?_
  · rintro root head i i' rfl rfl
    obtain ⟨x', hx', hx⟩ := forall₂_one hk
    cases hx'
    exact hP.read h.2.1 h.2.2.1 hx.1 h.2.2.2
  · rintro k l r l' r' rfl rfl hd
    obtain ⟨l'', r'', hl', hl, hr⟩ := forall₂_two hk
    cases hl'
    exact hP.div hl.1 hr.1 (h.2.2.2 hd)

section

variable (h : e.WF) (hk : List.Forall₂ (Expr.Rewrites Γ) e.kids kids) (hne : kids ≠ e.kids)

include h hk hne

/-- A node over rewritten kids, one of them changed. -/
theorem Expr.Lighter.withKids : e.Lighter Γ (e.withKids kids) where
  width := Expr.withKids_width (hk.imp fun _ _ h => h.equiv.width)
  ok P hP he := by
    refine he.withKids_equiv hP ?_
    rw [forall₂_iff_get] at hk ⊢
    exact ⟨hk.1, fun i h₁ h₂ => ⟨(hk.2 i h₁ h₂).equiv, (hk.2 i h₁ h₂).ok hP (he.kid (get_mem _ _))⟩⟩
  eval σ hσ hb := Expr.eval_withKids h (hk.imp fun _ _ h => h.equiv) hσ hb
  weight := Expr.withKids_weight_lt (hk.imp fun _ _ h => h.eq_or_lt) hne

theorem Expr.Lighter.rebuild (hc : e.rebuild kids = .ok e') : e.Lighter Γ e' := by
  have hl := withKids h hk hne
  exact hl.trans_simplifies (Expr.create_simplifies (hl.ok _ NodeCond.any_stable h) hc)

end

end S2E.Klee
