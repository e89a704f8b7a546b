import S2E.Klee.Expr.Nodes
import S2E.Klee.Solver.STPNodes
import S2E.Lib.Triple

/-!
# What `STPBuilder` preserves

* `Sound` : the kept terms have the values of what they were kept for.
-/

namespace S2E.Klee

namespace STPBuilder

open S2E.Stp S2E.Lib Function
open BitVec (ofBool setWidth_eq)

/-! ## Caches and results -/

/-- A term and a width, for a value. -/
def Right (σ : Assignment) {w : Nat} (v : BitVec w) (p : Term × Nat) : Prop := p.2 = w ∧ Means σ p.1 v

structure Sound (σ : Assignment) (s : Cache) : Prop where
  constructed : ∀ e p, s.constructed e = some p → Right σ (e.value σ) p
  stpInitialArray : ∀ root t, s.stpInitialArray root = some t →
    t.IsArray (env σ) fun i => σ.initial root i.toNat
  stpArray : ∀ root un t, s.stpArray root un = some t → t.IsArray (env σ) (un.eval σ root)

theorem sound_empty (σ : Assignment) : Sound σ .empty := ⟨nofun, nofun, nofun⟩

/-- `construct` gives a term with the value and the width of the expression. The terms that it keeps have theirs. -/
def Translates (b : STPBuilder) (σ : Assignment) (e : Expr) : Prop :=
  Triple (Sound σ) (b.construct e) (Right σ (e.value σ)) fun _ => False

/-- The computation gives the right result if and only if the condition holds. -/
structure Decides (σ : Assignment) (m : BuildM (Term × Nat)) {w : Nat} (v : BitVec w) (F : Prop) : Prop where
  right : F → Triple (Sound σ) m (Right σ v) fun _ => False
  wrong : ¬F → Triple (Sound σ) m (fun p => ¬Right σ v p) fun _ => True

section Rules

variable {b : STPBuilder} {σ : Assignment} {w : Nat} {v : BitVec w} {F : Prop} {e : Expr}

namespace Decides

theorem bind {α : Type} {m : BuildM α} {f : α → BuildM (Term × Nat)} {Q : α → Prop}
    (h : Triple (Sound σ) m Q fun _ => False) (hf : ∀ a, Q a → Decides σ (f a) v F) : Decides σ (m >>= f) v F where
  right hF := h.bind fun a ha => (hf a ha).right hF
  wrong hF := (h.conseq (fun _ => id) fun _ => False.elim).bind fun a ha => (hf a ha).wrong hF

theorem of_result {m : BuildM (Term × Nat)} {t : Term} (h : Triple (Sound σ) m (· = (t, w)) fun _ => False)
    (ht : Means σ t v ↔ F) : Decides σ m v F where
  right hF := by
    refine h.conseq ?_ fun _ => id
    rintro p rfl
    exact ⟨rfl, ht.2 hF⟩
  wrong hF := by
    refine h.conseq ?_ fun _ => False.elim
    rintro p rfl hright
    exact hF (ht.1 hright.2)

theorem pure {t : Term} (h : Means σ t v ↔ F) : Decides σ (Pure.pure (t, w)) v F := of_result (.pure rfl) h

theorem lift {T : Except Trap Term} {q : Term} (hT : T = .ok q) (hq : Means σ q v ↔ F) :
    Decides σ (StateT.lift (T.map (·, w))) v F := by
  subst hT
  exact of_result (.lift rfl) hq

theorem throw {t : Trap} (h : ¬F) : Decides σ (throw t) v F := ⟨fun hF => absurd hF h, fun _ => .throw trivial⟩

theorem assertNotBool {n : Nat} {f : Unit → BuildM (Term × Nat)} (hF : F → n ≠ 1)
    (h : n ≠ 1 → Decides σ (f ()) v F) : Decides σ (STPBuilder.assertNotBool n >>= f) v F := by
  unfold STPBuilder.assertNotBool
  by_cases hn : n = 1
  · rw [if_pos hn]
    exact throw fun hF' => hF hF' hn
  · grind

theorem kid {f : Term × Nat → BuildM (Term × Nat)} (h : b.Translates σ e) {n : Nat} (hn : e.getWidth = n)
    (hf : ∀ t, Means σ t (e.eval σ n) → Decides σ (f (t, n)) v F) :
    Decides σ (b.lookup e (b.constructActual e) >>= f) v F := by
  subst hn
  refine bind h ?_
  rintro ⟨t, n⟩ ⟨rfl, ht⟩
  exact hf t ht

end Decides

theorem lookup_translates {build : BuildM (Term × Nat)}
    (h : Triple (Sound σ) build (Right σ (e.value σ)) fun _ => False) :
    Triple (Sound σ) (b.lookup e build) (Right σ (e.value σ)) fun _ => False := by
  rw [Triple.iff_outcome] at *
  intro s hs
  show Outcome (b.lookup e build s) _ _
  unfold lookup
  split
  · exact h s hs
  · split
    · rename_i r hr
      exact ⟨hs.constructed e r hr, hs⟩
    · refine (h s hs).map ?_
      rintro p ⟨hright, hsound⟩
      refine ⟨hright, ?_, hsound.stpInitialArray, hsound.stpArray⟩
      intro e' p' hp'
      dsimp only at hp'
      by_cases he : e' = e
      · grind
      · rw [update_of_ne he] at hp'
        exact hsound.constructed e' p' hp'

theorem Decides.translates_iff (h : Decides σ (b.constructActual e) (e.value σ) F) : b.Translates σ e ↔ F := by
  refine ⟨fun htrans => ?_, fun hF => lookup_translates (h.right hF)⟩
  by_contra hF
  -- Nothing is kept in the empty cache, so that the term is built.
  have hwrong := Triple.iff_outcome.1 (h.wrong hF) .empty (sound_empty σ)
  have hright := Triple.iff_outcome.1 htrans .empty (sound_empty σ)
  obtain ⟨p, hp, hpright, -⟩ := hright.exists_ok
  change b.lookup e (b.constructActual e) .empty = .ok p at hp
  unfold lookup at hp
  split at hp
  · exact (hwrong.of_ok hp).1 hpright
  · obtain ⟨q, hq, rfl⟩ := exists_of_map_ok hp
    exact (hwrong.of_ok hq).1 hpright

/-! ## Arrays -/

theorem getInitialArray_isArray (root : Array) : Triple (Sound σ) (getInitialArray root)
    (·.IsArray (env σ) fun i => σ.initial root i.toNat) fun _ => False := by
  rw [Triple.iff_outcome]
  intro s hs
  show Outcome (getInitialArray root s) _ _
  unfold getInitialArray
  split
  · rename_i t ht
    exact ⟨hs.stpInitialArray root t ht, hs⟩
  · refine ⟨initialTerm_isArray σ root, hs.constructed, ?_, hs.stpArray⟩
    intro root' t ht
    dsimp only at ht
    by_cases hroot : root' = root
    · subst hroot
      rw [update_self] at ht
      exact Option.some.inj ht ▸ initialTerm_isArray σ root'
    · rw [update_of_ne hroot] at ht
      exact hs.stpInitialArray root' t ht

theorem lookupArray_isArray {root : Array} {un : Updates} {build : BuildM Term}
    (h : Triple (Sound σ) build (·.IsArray (env σ) (un.eval σ root)) fun _ => False) :
    Triple (Sound σ) (lookupArray root un build) (·.IsArray (env σ) (un.eval σ root)) fun _ => False := by
  rw [Triple.iff_outcome] at *
  intro s hs
  show Outcome (lookupArray root un build s) _ _
  unfold lookupArray
  split
  · rename_i t ht
    exact ⟨hs.stpArray root un t ht, hs⟩
  · refine (h s hs).map ?_
    rintro p ⟨harray, hsound⟩
    refine ⟨harray, hsound.constructed, hsound.stpInitialArray, ?_⟩
    intro root' un' t ht
    dsimp only at ht
    by_cases hroot : root' = root
    · subst hroot
      rw [update_self] at ht
      by_cases hun : un' = un
      · grind
      · rw [update_of_ne hun] at ht
        exact hsound.stpArray root' un' t ht
    · rw [update_of_ne hroot] at ht
      exact hsound.stpArray root' un' t ht

theorem Translates.lookup (h : b.Translates σ e) {n : Nat} (hn : e.getWidth = n) :
    Triple (Sound σ) (b.lookup e (b.constructActual e)) (Right σ (e.eval σ n)) fun _ => False := by
  subst hn
  exact h

/-- The nested writes are the updates. -/
theorem getArrayForUpdate_isArray {N : NodeCond} (root : Array) : ∀ un : Updates, un.Ok N →
    un.Below (b.Translates σ) → Triple (Sound σ) (b.getArrayForUpdate root un) (·.IsArray (env σ) (un.eval σ root))
      fun _ => False
  | .nil, _, _ => getInitialArray_isArray root
  | .cons index value next, h, hb => by
    rw [getArrayForUpdate]
    apply lookupArray_isArray
    refine (getArrayForUpdate_isArray root next h.2.2.2.2 hb.2.2).bind fun a ha => ?_
    refine (hb.1.1.lookup h.2.2.1).bind fun i hi => ?_
    refine (hb.2.1.1.lookup h.2.2.2.1).bind fun x hx => ?_
    refine .pure ?_
    have hwrite := ha.writeExpr ((means_iff_is (by decide)).1 hi.2) ((means_iff_is (by decide)).1 hx.2)
    unfold VCExpr.IsArray at *
    refine hwrite.trans (congrArg (some ∘ Value.array) ?_)
    funext j
    rw [Updates.eval, update_apply]

end Rules

/-! ## Nodes -/

/-- The amount of a shift does not wrap around, and has a case. -/
def ShiftFaithful (σ : Assignment) (k : BinKind) (l r : Expr) : Prop :=
  match r with
  | .constant c => shiftBy k (l.value σ) (getLimitedValue c % 2 ^ getShiftBits l.getWidth) =
      shiftBy k (l.value σ) c.bits.toNat
  | r => CasesFit k l.getWidth ∧
      shiftBy k (l.value σ) ((r.eval σ l.getWidth).toNat % 2 ^ getShiftBits l.getWidth) =
        shiftBy k (l.value σ) (r.eval σ l.getWidth).toNat

/-- When the term of a node has the value of the node, given that the terms of the kids do. -/
def Faithful (σ : Assignment) : Expr → Prop
  | .constant c => c.width ≤ 64 ∨ 64 ∣ c.width
  | .concat l r => l.getWidth ≠ 1 ∧ r.getWidth ≠ 1
  -- One bit is taken from the lowest place.
  | .extract e off w => w = 1 → e.getWidth ≠ 1 ∧ (e.value σ).getLsbD off = (e.value σ).getLsbD 0
  | .zext e w => e.getWidth < w
  | .sext e w => e.getWidth = 1 → w ≠ 1 ∧ (w ≤ 64 ∨ (e.value σ).getLsbD 0 = false)
  | .bin .and _ _ | .bin .or _ _ | .bin .xor _ _ => True
  | .bin .mul l r => l.getWidth ≠ 1 ∧ ∀ x, smallConstant l = some x →
      r.eval σ l.getWidth * multiplier l.getWidth x = l.value σ * r.eval σ l.getWidth
  | .bin .udiv l r => l.getWidth ≠ 1 ∧ DividesByShift (l.value σ) r
  | .bin .shl l r => l.getWidth ≠ 1 ∧ ShiftFaithful σ .shl l r
  | .bin .lshr l r => l.getWidth ≠ 1 ∧ ShiftFaithful σ .lshr l r
  | .bin .ashr l r => l.getWidth ≠ 1 ∧ ShiftFaithful σ .ashr l r
  | .bin _ l _ => l.getWidth ≠ 1
  | .cmp .eq _ _ => True
  | .cmp k l _ => l.getWidth ≠ 1 ∧ (k = .ult ∨ k = .ule ∨ k = .slt ∨ k = .sle)
  | _ => True

/-- The divisors are not zero. -/
def nonzero (σ : Assignment) : NodeCond where
  read _ _ := True
  div l r := r.eval σ l.getWidth ≠ 0

section Nodes

variable {b : STPBuilder} {σ : Assignment} {l r : Expr}

section

variable (hl : b.Translates σ l) (hr : b.Translates σ r)

include hl hr

theorem decides_operands {w : Nat} {v : BitVec w} {F : Prop} {f : Term × Nat → Term × Nat → BuildM (Term × Nat)}
    {n : Nat} (hln : l.getWidth = n) (hrn : r.getWidth = n)
    (hf : ∀ s t, Means σ s (l.eval σ n) → Means σ t (r.eval σ n) → Decides σ (f (s, n) (t, n)) v F) :
    Decides σ (do
      let left ← b.lookup l (b.constructActual l)
      let right ← b.lookup r (b.constructActual r)
      f left right) v F :=
  .kid hl hln fun s hs => .kid hr hrn fun t ht => hf s t hs ht

theorem decides_bvExpr {n : Nat} {v : BitVec n} {op : BvOp}
    (hln : l.getWidth = n) (hrn : r.getWidth = n) (hv : v = op.eval (l.eval σ n) (r.eval σ n)) :
    Decides σ (do
      let left ← b.lookup l (b.constructActual l)
      let right ← b.lookup r (b.constructActual r)
      assertNotBool right.2
      return (.bvExpr op right.2 left.1 right.1, right.2)) v (n ≠ 1) := by
  refine decides_operands hl hr hln hrn fun s t hs ht => .assertNotBool id fun hn => .pure ?_
  rw [hv]
  exact iff_of_true (bvExpr_means op hn hs ht) hn

theorem decides_bvRel {n : Nat} {k : CmpKind} {rel : BvRel}
    (hln : l.getWidth = n) (hrn : r.getWidth = n) (hk : k.eval (l.eval σ n) (r.eval σ n) = rel.eval (l.eval σ n) (r.eval σ n)) :
    Decides σ (do
      let left ← b.lookup l (b.constructActual l)
      let right ← b.lookup r (b.constructActual r)
      assertNotBool right.2
      return (.bvRel rel left.1 right.1, 1)) (ofBool (k.eval (l.eval σ n) (r.eval σ n))) (n ≠ 1) := by
  refine decides_operands hl hr hln hrn fun s t hs ht => .assertNotBool id fun hn => .pure ?_
  rw [hk]
  exact iff_of_true (bvRel_means rel hn hs ht) hn

end

/-- A division, by the term for a constant divisor if there is one. -/
theorem decides_division {n : Nat} {v : BitVec n} {op : BvOp} {C : Prop}
    (byConstant : Term × Nat → Option (Except Trap Term)) (hl : b.Translates σ l) (hr : b.Translates σ r)
    (hln : l.getWidth = n) (hrn : r.getWidth = n)
    (hv : v = op.eval (l.eval σ n) (r.eval σ n))
    (hsome : ∀ s T, n ≠ 1 → Means σ s (l.eval σ n) → byConstant (s, n) = some T → ∃ q, T = .ok q ∧ (Means σ q v ↔ C))
    (hnone : ∀ s, byConstant (s, n) = none → C) :
    Decides σ (do
      let left ← b.lookup l (b.constructActual l)
      assertNotBool left.2
      constantOr (byConstant left) left.2 do
        let right ← b.lookup r (b.constructActual r)
        return (.bvExpr op right.2 left.1 right.1, right.2)) v (n ≠ 1 ∧ C) := by
  refine .kid hl hln fun s hs => .assertNotBool And.left fun hn => ?_
  unfold constantOr
  dsimp only
  split
  · rename_i T hT
    obtain ⟨q, hq, hmeans⟩ := hsome s T hn hs hT
    exact .lift hq (hmeans.trans (and_iff_right hn).symm)
  · rename_i hT
    refine .kid hr hrn fun t ht => .pure (iff_of_true ?_ ⟨hn, hnone s hT⟩)
    rw [hv]
    exact bvExpr_means op hn hs ht

theorem constructActual_shift {k : BinKind} (hk : isShift k = true) : b.constructActual (.bin k l r) = (do
    let left ← b.lookup l (b.constructActual l)
    assertNotBool left.2
    match r with
    | .constant c => return (shiftConstantTerm k left.1 (getLimitedValue c) left.2, left.2)
    | r => do
      let amount ← b.lookup r (b.constructActual r)
      return (shiftTerm k left.1 amount.1 left.2, left.2)) := by
  cases k with
  | shl | lshr | ashr =>
    rw [constructActual]
    rfl
  | _ => cases hk

theorem decides_shift {k : BinKind} {n : Nat} (hk : isShift k = true) (hl : b.Translates σ l) (hr : b.Translates σ r)
    (hln : l.getWidth = n) (hrn : r.getWidth = n) (hpos : 0 < n) :
    Decides σ (b.constructActual (.bin k l r)) (k.eval (l.eval σ n) (r.eval σ n)) (n ≠ 1 ∧ ShiftFaithful σ k l r) := by
  subst hln
  rw [constructActual_shift hk, shift_eval hk]
  refine .kid hl rfl fun s hs => .assertNotBool And.left fun hn => ?_
  dsimp only
  split
  · rename_i c
    refine .pure ?_
    rw [(shiftConstantTerm_means k (by omega) hs _).iff_eq, and_iff_right hn]
    have hc : (Expr.eval σ (.constant c) l.getWidth).toNat = c.bits.toNat := by
      obtain ⟨m, bits⟩ := c
      obtain rfl : m = l.getWidth := hrn
      rw [Expr.eval, setWidth_eq]
    rw [hc]
    exact Iff.rfl
  · rename_i hconst
    have hfaithful : ShiftFaithful σ k l r ↔ CasesFit k l.getWidth ∧
        shiftBy k (l.value σ) ((r.eval σ l.getWidth).toNat % 2 ^ getShiftBits l.getWidth) =
          shiftBy k (l.value σ) (r.eval σ l.getWidth).toNat := by
      cases r with
      | constant c => exact absurd rfl (hconst c)
      | _ => exact Iff.rfl
    refine .kid hr hrn fun t ht => .pure ?_
    rw [and_iff_right hn, hfaithful]
    by_cases hfits : CasesFit k l.getWidth
    · rw [(shiftTerm_means hfits (by omega) hs ht).iff_eq, and_iff_right hfits]
    · exact iff_of_false (not_shiftTerm_means hfits (by omega) ht) fun h => hfits h.1

theorem decides_bin {k : BinKind} (h : (Expr.bin k l r).Ok (nonzero σ)) (hl : b.Translates σ l) (hr : b.Translates σ r) :
    Decides σ (b.constructActual (.bin k l r)) (k.eval (l.eval σ l.getWidth) (r.eval σ l.getWidth))
      (Faithful σ (.bin k l r)) := by
  have hpos := Expr.width_pos l h.1.wf
  have hrn : r.getWidth = l.getWidth := h.2.2.1
  have hdiv : k.isDiv = true → r.eval σ l.getWidth ≠ 0 := h.2.2.2
  cases k with
  | add | sub =>
    rw [constructActual]
    exact decides_bvExpr hl hr rfl hrn rfl
  | mul =>
    rw [constructActual]
    refine .kid hr hrn fun t ht => .assertNotBool And.left fun hn => ?_
    unfold constantOr mulByConstant
    cases hx : smallConstant l with
    | some x =>
      obtain ⟨p, hp, hmeans⟩ :=
        constructMulByConstant_means hn hpos (smallConstant_eq σ hx rfl).1 ht x
      refine .lift hp (hmeans.iff_eq.trans ?_)
      constructor
      · rintro heq
        refine ⟨hn, fun x' hx' => ?_⟩
        obtain rfl := Option.some.inj (hx.symm.trans hx')
        exact heq
      · intro hfaithful
        exact hfaithful.2 x hx
    | none =>
      refine .kid hl rfl fun s hs => .pure (iff_of_true (bvExpr_means .mult hn hs ht) ⟨hn, ?_⟩)
      intro x hx'
      rw [hx] at hx'
      cases hx'
  | udiv =>
    have hy := hdiv rfl
    rw [constructActual]
    refine decides_division (b.udivByConstant · r) hl hr rfl hrn (udiv_eval hy) ?_ ?_
    · intro s T hn hs hT
      exact udivByConstant_means hT hn hpos hs hrn hy
    · intro s hnone d hd hpow
      unfold udivByConstant at hnone
      rw [hd] at hnone
      dsimp only at hnone
      rw [if_pos hpow] at hnone
      cases hnone
  | sdiv =>
    have hy := hdiv rfl
    rw [constructActual]
    show Decides σ _ _ (l.getWidth ≠ 1)
    rw [← and_true (l.getWidth ≠ 1)]
    refine decides_division (b.sdivByConstant · r) hl hr rfl hrn (sdiv_eval hy) ?_ fun _ _ => trivial
    intro s T hn hs hT
    obtain ⟨q, hq, hmeans⟩ := sdivByConstant_means hT hs hrn hy
    exact ⟨q, hq, iff_of_true hmeans trivial⟩
  | urem =>
    have hy := hdiv rfl
    rw [constructActual]
    show Decides σ _ _ (l.getWidth ≠ 1)
    rw [← and_true (l.getWidth ≠ 1)]
    refine decides_division (b.uremByConstant · r) hl hr rfl hrn (urem_eval hy) ?_ fun _ _ => trivial
    intro s T hn hs hT
    obtain ⟨q, hq, hmeans⟩ := uremByConstant_means hT hn hpos hs hrn hy
    exact ⟨q, hq, iff_of_true hmeans trivial⟩
  | srem =>
    rw [constructActual]
    exact decides_bvExpr hl hr rfl hrn (srem_eval (hdiv rfl))
  | and =>
    rw [constructActual]
    exact decides_operands hl hr rfl hrn fun s t hs ht => .pure (iff_of_true (andTerm_means hs ht) trivial)
  | or =>
    rw [constructActual]
    exact decides_operands hl hr rfl hrn fun s t hs ht => .pure (iff_of_true (orTerm_means hs ht) trivial)
  | xor =>
    rw [constructActual]
    exact decides_operands hl hr rfl hrn fun s t hs ht => .pure (iff_of_true (xorTerm_means hs ht) trivial)
  | shl | lshr | ashr => exact decides_shift rfl hl hr rfl hrn hpos

theorem decides_cmp {k : CmpKind} (h : (Expr.cmp k l r).Ok (nonzero σ)) (hl : b.Translates σ l) (hr : b.Translates σ r) :
    Decides σ (b.constructActual (.cmp k l r))
      (ofBool (k.eval (l.eval σ l.getWidth) (r.eval σ l.getWidth))) (Faithful σ (.cmp k l r)) := by
  have hrn : r.getWidth = l.getWidth := h.2.2
  have hrel {n : Nat} {F : Prop} (hF : F) : (n ≠ 1 ∧ F) = (n ≠ 1) := by
    rw [eq_true hF, and_true]
  cases k with
  | eq =>
    rw [constructActual]
    refine decides_operands hl hr rfl hrn fun s t hs ht => .pure (iff_of_true ?_ trivial)
    exact eqTerm_means hs ht rfl rfl
  | ult | ule | slt | sle =>
    rw [constructActual, Faithful, hrel (by decide)]
    · exact decides_bvRel hl hr rfl hrn rfl
    · nofun
  | ne | ugt | uge | sgt | sge =>
    rw [constructActual]
    · refine .throw ?_
      rintro ⟨-, h | h | h | h⟩ <;> cases h
    all_goals nofun

/-- The node, given that its parts are translated right. -/
theorem decides_node {e : Expr} (h : e.Ok (nonzero σ)) (hb : e.Below (b.Translates σ)) :
    Decides σ (b.constructActual e) (e.value σ) (Faithful σ e) := by
  cases e with
  | constant c =>
    rw [constructActual]
    refine .pure ?_
    show Means σ _ (c.bits.setWidth c.width) ↔ _
    rw [setWidth_eq]
    exact constantTerm_means c h
  | notOptimized e =>
    rw [constructActual]
    exact ⟨fun _ => hb.1, fun hF => absurd trivial hF⟩
  | read root head index =>
    rw [constructActual]
    refine .bind (getArrayForUpdate_isArray root head h.1 hb.1) fun a ha => ?_
    refine .kid hb.2.1 h.2.2.1 fun i hi => .pure (iff_of_true ?_ trivial)
    show Means σ _ ((head.eval σ root (index.eval σ 32)).setWidth 8)
    rw [setWidth_eq, means_iff_is (by decide)]
    exact VCExpr.Is.readExpr ha ((means_iff_is (by decide)).1 hi)
  | select c t f =>
    rw [constructActual]
    refine .kid hb.1.1 h.2.2.2.1 fun s hs => .kid hb.2.1.1 rfl fun x hx => .kid hb.2.2.1 h.2.2.2.2 fun y hy => ?_
    exact .pure (iff_of_true (iteExpr_means hs hx hy) trivial)
  | concat l r =>
    rw [constructActual]
    refine .kid hb.2.1 rfl fun y hy => .kid hb.1.1 rfl fun x hx => .pure ?_
    show Means σ _ ((l.value σ ++ r.value σ).setWidth (l.getWidth + r.getWidth)) ↔ _
    rw [setWidth_eq]
    exact bvConcatExpr_means hx hy (Expr.width_pos l h.1.wf) (Expr.width_pos r h.2.wf)
  | extract e off k =>
    rw [constructActual]
    refine .kid hb.1 rfl fun x hx => .pure ?_
    show Means σ _ (((e.value σ).extractLsb' off k).setWidth k) ↔ _
    rw [setWidth_eq]
    exact extractTerm_means hx h.2.1 h.2.2
  | zext e k =>
    rw [constructActual]
    refine .kid hb.1 rfl fun x hx => .pure ?_
    show Means σ _ (((e.value σ).setWidth k).setWidth k) ↔ _
    rw [setWidth_eq]
    exact zextTerm_means hx (Expr.width_pos e h.1.wf) h.2
  | sext e k =>
    rw [constructActual]
    refine .kid hb.1 rfl fun x hx => .pure ?_
    show Means σ _ (((e.value σ).signExtend k).setWidth k) ↔ _
    rw [setWidth_eq]
    exact sextTerm_means hx (Expr.width_pos e h.1.wf) h.2
  | not e =>
    rw [constructActual]
    refine .kid hb.1 rfl fun x hx => .pure (iff_of_true ?_ trivial)
    exact notTerm_means hx
  | bin k l r => exact decides_bin h hb.1.1 hb.2.1
  | cmp k l r =>
    show Decides σ _ ((ofBool (k.eval (l.value σ) (r.eval σ l.getWidth))).setWidth 1) _
    rw [setWidth_eq]
    exact decides_cmp h hb.1.1 hb.2.1

end Nodes

/-- An expression and its parts are all translated right if and only if its nodes are faithful. -/
theorem construct_faithful_iff (b : STPBuilder) (σ : Assignment) (e : Expr) (h : e.Ok (nonzero σ)) :
    e.Forall (b.Translates σ) ↔ e.Forall (Faithful σ) :=
  Expr.forall_congr (fun _ hok hbelow => (decides_node hok hbelow).translates_iff) h

def thirdOfByte : Expr := .cmp .ult (.bin .udiv (symbolicByte 0 "x") (.const 3 8)) (.const 10 8)

theorem thirdOfByte_translates : thirdOfByte.Ok (nonzero fun _ _ => 0) ∧
    thirdOfByte.Forall ((STPBuilder.mk true true).Translates fun _ _ => 0) := by
  have hbyte : (symbolicByte 0 "x").Ok (nonzero fun _ _ => 0) := symbolicByte_ok trivial
  have hok : thirdOfByte.Ok (nonzero fun _ _ => 0) :=
    ⟨⟨hbyte, Nat.zero_lt_succ 7, rfl, fun _ => (by decide : (3 : BitVec 8) ≠ 0)⟩, Nat.zero_lt_succ 7, rfl⟩
  refine ⟨hok, (construct_faithful_iff ⟨true, true⟩ (fun _ _ => 0) thirdOfByte hok).2 ?_⟩
  have hindex : Faithful (fun _ _ => 0) (.const 0 32) := .inl (by decide)
  have hquotient : Faithful (fun _ _ => 0) (.bin .udiv (symbolicByte 0 "x") (.const 3 8)) := by
    refine ⟨by decide, ?_⟩
    intro d hd hpow
    cases hd
    exact absurd hpow (by decide)
  exact ⟨⟨by decide, .inl rfl⟩, ⟨hquotient, ⟨trivial, trivial, hindex, trivial⟩, .inl (by decide), trivial⟩,
    .inl (by decide), trivial⟩

def bitThree : Expr := .extract (symbolicByte 0 "x") 3 1

/-- Bit three of a byte is translated as bit zero. -/
theorem bitThree_construct : bitThree.Ok (nonzero fun _ _ => 8) ∧ bitThree.eval (fun _ _ => 8) 1 = 1#1 ∧
    ∃ t s, (STPBuilder.mk true true).construct bitThree .empty = .ok ((t, 1), s) ∧
      t.value (env fun _ _ => 8) = some (.bool false) := by
  refine ⟨⟨symbolicByte_ok trivial, by decide, by decide⟩, by decide, ?_⟩
  exact ⟨_, _, rfl, rfl⟩

/-! ## Shifts -/

theorem casesFit_iff {k : BinKind} {w : Nat} : CasesFit k w ↔ 5 ≤ w ∧ (shiftCaseCount k w ≤ 32 ∨ w = 64) := by
  unfold CasesFit getShiftBits
  by_cases h64 : w = 64
  · have hcount : shiftCaseCount k w ≤ w := by
      unfold shiftCaseCount
      split <;> omega
    rw [if_pos h64]
    omega
  · rw [if_neg h64]
    omega

theorem getLimitedValue_mod {c : APInt} (h : c.width ≤ 64) {s : Nat} (hs : s ≤ 32) :
    getLimitedValue c % 2 ^ s = c.bits.toNat % 2 ^ s := by
  have hlt : c.bits.toNat < 2 ^ 64 := c.bits.isLt.trans_le (Nat.pow_le_pow_right Nat.two_pos h)
  unfold getLimitedValue APInt.getZExtValue
  rw [Nat.min_eq_left (by omega), Nat.mod_mod_of_dvd _ (Nat.pow_dvd_pow 2 hs)]

/-- A shift of at most 64 bits has the value of the constant operation if and only if the amount is below the power of
two that it is taken modulo, or shifts everything out anyway. An amount that is no constant must also have enough bits,
and every case an amount that fits. -/
theorem shift_construct_iff (b : STPBuilder) (σ : Assignment) {k : BinKind} (hk : isShift k = true) (l r : Expr) {w : Nat}
    (hw : 2 ≤ w) (h64 : w ≤ 64) (hln : l.getWidth = w) (hrn : r.getWidth = w) {s s₁ : Cache} {left : Term}
    (hl : b.construct l s = .ok ((left, w), s₁)) (hleft : Means σ left (l.eval σ w))
    (hr : r.isConstant = true ∨ ∃ amount s₂, b.construct r s₁ = .ok ((amount, w), s₂) ∧ Means σ amount (r.eval σ w)) :
    ∃ t s', b.constructActual (.bin k l r) s = .ok ((t, w), s') ∧
      (Means σ t (APInt.bin k ⟨w, l.eval σ w⟩ ⟨w, r.eval σ w⟩).bits ↔
        (r.isConstant = true ∨ 5 ≤ w ∧ (shiftCaseCount k w ≤ 32 ∨ w = 64)) ∧
          ((r.eval σ w).toNat < 2 ^ getShiftBits w ∨
            shiftBy k (l.eval σ w) ((r.eval σ w).toNat % 2 ^ getShiftBits w) = shiftBy k (l.eval σ w) w)) := by
  have hfold (t : Term) : Means σ t (APInt.bin k ⟨w, l.eval σ w⟩ ⟨w, r.eval σ w⟩).bits ↔
      Means σ t (shiftBy k (l.eval σ w) (r.eval σ w).toNat) := by
    show Means σ t (k.eval (l.eval σ w) ((r.eval σ w).setWidth w)) ↔ _
    rw [BitVec.setWidth_eq, shift_eval hk]
  have hassert : assertNotBool w = pure () := if_neg (by omega)
  have hrun : (b.constructActual (.bin k l r)).run s = (do
      assertNotBool w
      match r with
      | .constant c => return (shiftConstantTerm k left (getLimitedValue c) w, w)
      | r => do
        let amount ← b.lookup r (b.constructActual r)
        return (shiftTerm k left amount.1 w, w) : BuildM (Term × Nat)).run s₁ := by
    rw [constructActual_shift hk]
    exact run_bind_ok hl
  rw [hassert] at hrun
  simp only [hfold]
  rw [← shiftBy_mod_eq_iff k _ _ (Nat.two_pow_pos _), ← casesFit_iff]
  by_cases hconst : r.isConstant = true
  · obtain ⟨m, bits, rfl⟩ : ∃ m bits, r = .constant ⟨m, bits⟩ := by
      cases r with
      | constant c => exact ⟨c.width, c.bits, rfl⟩
      | _ => cases hconst
    obtain rfl : m = w := hrn
    refine ⟨_, _, hrun, ?_⟩
    have hc : Expr.eval σ (.constant ⟨m, bits⟩) m = bits := by rw [Expr.eval, BitVec.setWidth_eq]
    have hmod : getLimitedValue ⟨m, bits⟩ % 2 ^ getShiftBits m = bits.toNat % 2 ^ getShiftBits m :=
      getLimitedValue_mod h64 (by have := getShiftBits_le m; omega)
    rw [hc, (shiftConstantTerm_means k (by omega) hleft _).iff_eq, hmod]
    exact (and_iff_right (.inl rfl)).symm
  · obtain ⟨amount, s₂, hamount, hmeans⟩ := hr.resolve_left hconst
    have hvar : (b.constructActual (.bin k l r)).run s = (do
        let amount ← b.lookup r (b.constructActual r)
        return (shiftTerm k left amount.1 w, w) : BuildM (Term × Nat)).run s₁ := by
      rw [hrun]
      cases r with
      | constant c => exact absurd rfl hconst
      | _ => rfl
    refine ⟨_, _, hvar.trans (run_bind_ok hamount), ?_⟩
    by_cases hfits : CasesFit k w
    · rw [(shiftTerm_means hfits (by omega) hleft hmeans).iff_eq]
      exact (and_iff_right (.inr hfits)).symm
    · refine iff_of_false (not_shiftTerm_means hfits (by omega) hmeans) fun h => ?_
      exact h.1.elim hconst hfits

/-- A byte shifted by three. -/
theorem shift_construct_three : ∃ t s, (STPBuilder.mk true true).constructActual
    (.bin .lshr (symbolicByte 0 "x") (.const 3 8)) .empty = .ok ((t, 8), s) ∧
      Means (fun _ _ => 200) t (APInt.bin .lshr ⟨8, 200⟩ ⟨8, 3⟩).bits := by
  have hbyte : Means (fun _ _ => 200) (VCExpr.readExpr (.varExpr (byteArray 0 "x")) (constantTerm (.ofNat 0 32)))
      ((symbolicByte 0 "x").eval (fun _ _ => 200) 8) := rfl
  obtain ⟨t, s, hrun, hmeans⟩ := shift_construct_iff ⟨true, true⟩ (fun _ _ => 200) (k := .lshr) rfl (symbolicByte 0 "x")
    (.const 3 8) (w := 8) (by decide) (by decide) rfl rfl (s := .empty) rfl hbyte (.inl rfl)
  exact ⟨t, s, hrun, hmeans.2 ⟨.inl rfl, .inl (by decide)⟩⟩

/-- The shift of a byte by 32 leaves it as it is. -/
theorem shift_construct_wraps : ∃ t s, (STPBuilder.mk true true).constructActual
    (.bin .shl (symbolicByte 0 "x") (.const 32 8)) .empty = .ok ((t, 8), s) ∧
      Means (fun _ _ => 1) t (1 : BitVec 8) ∧ (APInt.bin .shl ⟨8, 1⟩ ⟨8, 32⟩).bits = (0 : BitVec 8) :=
  ⟨_, _, rfl, rfl, rfl⟩

end STPBuilder

end S2E.Klee
