import S2E.Klee.Expr.Canonical
import S2E.Klee.Solver.STPSound

/-!
# The assertions of `STPBuilder`

`constructActual` asserts that no arithmetic node, shift or ordering has boolean operands, and it has no case for the
comparisons that are not used. A canonical expression meets all that.

* `constructActual_returns` : from such a cache, the terms of a canonical expression are built, whatever they mean.
-/

namespace S2E.Klee.STPBuilder

open S2E.Stp S2E.Lib List

/-! ## Products and quotients by constants -/

/-- The computation returns. -/
abbrev Returns {α : Type} (m : Except Trap α) : Prop := Outcome m (fun _ => True) fun _ => False

variable {n w : Nat} {t : Term} {add sub : BitVec 64}

theorem mulStep_returns {j : Nat} (h : add.getLsbD j = true → sub.getLsbD j = false) (res : Option Term) :
    Returns (mulStep t w add sub res j) := by
  unfold mulStep
  dsimp only
  split
  · grind
  all_goals trivial

theorem mulLoop_returns (h : ∀ j, add.getLsbD j = true → sub.getLsbD j = false) (js : List Nat) :
    ∀ res, Returns (js.foldlM (mulStep t w add sub) res) := by
  induction js with
  | nil => exact fun _ => trivial
  | cons j js ih =>
    intro res
    rw [foldlM_cons]
    exact (mulStep_returns (h j) res).bind fun res' _ => ih res'

/-- The two sets of bits have none in common. -/
theorem constructMulByConstant_returns (t : Term) (h64 : w ≤ 64) (x : BitVec 64) :
    Returns (constructMulByConstant t w x) := by
  obtain ⟨add, sub, hconst, -, hdisjoint⟩ := computeMultConstants64_ok x
  unfold constructMulByConstant
  rw [hconst]
  exact (mulLoop_returns (truncateToNBits_disjoint h64 hdisjoint) _ none).bind fun _ _ => trivial

theorem constructUDivByConstant_returns (t : Term) (d : BitVec 32) : Returns (constructUDivByConstant t 32 d) := by
  unfold constructUDivByConstant
  rw [if_pos rfl]
  exact (constructMulByConstant_returns _ le_rfl _).bind fun _ _ => trivial

theorem constructSDivByConstant_returns (t : Term) (d : BitVec 32) : Returns (constructSDivByConstant t 32 d) := by
  unfold constructSDivByConstant
  rw [if_pos rfl]
  exact (constructMulByConstant_returns _ le_rfl _).bind fun _ _ => trivial

theorem constructURemByConstant_returns (t : Term) (d : BitVec 64) : Returns (constructURemByConstant t 32 d) :=
  (constructUDivByConstant_returns t _).bind fun q _ =>
    (constructMulByConstant_returns q (show 32 ≤ 64 by decide) d).bind fun _ _ => trivial

/-! ## Widths -/

/-- Every term is kept with the width of its expression. -/
def Sized (s : Cache) : Prop := ∀ e p, s.constructed e = some p → p.2 = e.getWidth

/-- A term of the given width is built. -/
def Builds (m : BuildM (Term × Nat)) (w : Nat) : Prop := Triple Sized m (·.2 = w) fun _ => False

section Rules

variable {b : STPBuilder} {e : Expr} {w : Nat}

theorem lookup_builds {build : BuildM (Term × Nat)} (h : Builds build e.getWidth) :
    Builds (b.lookup e build) e.getWidth := by
  unfold Builds at *
  rw [Triple.iff_outcome] at *
  intro s hs
  show Outcome (b.lookup e build s) _ _
  unfold lookup
  split
  · exact h s hs
  · split
    · rename_i r hr
      exact ⟨hs e r hr, hs⟩
    · refine (h s hs).map ?_
      rintro p ⟨hwidth, hsized⟩
      refine ⟨hwidth, ?_⟩
      intro e' p' hp'
      dsimp only at hp'
      by_cases he : e' = e
      · grind
      · rw [Function.update_of_ne he] at hp'
        exact hsized e' p' hp'

theorem getInitialArray_returns (root : Array) :
    Triple Sized (getInitialArray root) (fun _ => True) fun _ => False := by
  rw [Triple.iff_outcome]
  intro s hs
  show Outcome (getInitialArray root s) _ _
  unfold getInitialArray
  split
  · exact ⟨trivial, hs⟩
  · exact ⟨trivial, hs⟩

theorem lookupArray_returns {root : Array} {un : Updates} {build : BuildM Term}
    (h : Triple Sized build (fun _ => True) fun _ => False) :
    Triple Sized (lookupArray root un build) (fun _ => True) fun _ => False := by
  rw [Triple.iff_outcome] at *
  intro s hs
  show Outcome (lookupArray root un build s) _ _
  unfold lookupArray
  split
  · exact ⟨trivial, hs⟩
  · exact (h s hs).map fun _ hp => hp

namespace Builds

theorem pure : Builds (Pure.pure (t, w)) w := Triple.pure rfl

theorem kid {f : Term × Nat → BuildM (Term × Nat)} (h : Builds (b.constructActual e) e.getWidth)
    (hn : e.getWidth = n) (hf : ∀ t, Builds (f (t, n)) w) : Builds (b.lookup e (b.constructActual e) >>= f) w := by
  subst hn
  refine (lookup_builds h).bind ?_
  rintro ⟨t, n⟩ rfl
  exact hf t

theorem assertNotBool (hn : n ≠ 1) {f : Unit → BuildM (Term × Nat)} (h : Builds (f ()) w) :
    Builds (STPBuilder.assertNotBool n >>= f) w := by
  unfold STPBuilder.assertNotBool
  rw [if_neg hn]
  exact h

theorem constantOr {term : Option (Except Trap Term)} (hterm : ∀ T, term = some T → Returns T)
    {generic : BuildM (Term × Nat)} (h : Builds generic w) : Builds (STPBuilder.constantOr term w generic) w := by
  unfold STPBuilder.constantOr
  split
  · rename_i T
    exact Triple.lift ((hterm T rfl).map fun _ _ => rfl)
  · exact h

end Builds

end Rules

section Constants

variable {T : Except Trap Term}

theorem mulByConstant_returns {l : Expr} {right : Term × Nat} (hw : right.2 = l.getWidth)
    (h : mulByConstant l right = some T) : Returns T := by
  unfold mulByConstant at h
  rw [Option.map_eq_some_iff] at h
  obtain ⟨x, hx, rfl⟩ := h
  unfold smallConstant at hx
  split at hx
  · rename_i c
    split at hx
    · rename_i h64
      exact constructMulByConstant_returns _ (hw ▸ h64) x
    · cases hx
  · cases hx

variable {b : STPBuilder} {left : Term × Nat} {r : Expr}

theorem udivByConstant_returns (h : b.udivByConstant left r = some T) : Returns T := by
  unfold udivByConstant at h
  split at h
  · split at h
    · cases h
      trivial
    · split at h
      · rename_i h32
        cases h
        rw [Bool.and_eq_true, beq_iff_eq] at h32
        rw [h32.2]
        exact constructUDivByConstant_returns _ _
      · cases h
  · cases h

theorem sdivByConstant_returns (h : b.sdivByConstant left r = some T) : Returns T := by
  unfold sdivByConstant at h
  split at h
  · split at h
    · rename_i h32
      cases h
      rw [Bool.and_eq_true, beq_iff_eq] at h32
      rw [h32.2]
      exact constructSDivByConstant_returns _ _
    · cases h
  · cases h

theorem uremByConstant_returns (h : b.uremByConstant left r = some T) : Returns T := by
  unfold uremByConstant at h
  split at h
  · split at h
    · dsimp only at h
      split at h
      · cases h
        trivial
      · cases h
        trivial
    · split at h
      · rename_i h32
        cases h
        rw [Bool.and_eq_true, beq_iff_eq] at h32
        rw [h32.2]
        exact constructURemByConstant_returns _ _
      · cases h
  · cases h

end Constants

section Nodes

variable (b : STPBuilder)

mutual

/-- A canonical expression is built from any cache whose widths are right. -/
theorem constructActual_builds : ∀ e : Expr, e.WF → e.Canonical → Builds (b.constructActual e) e.getWidth
  | .constant c, _, _ => .pure
  | .notOptimized src, h, hc => lookup_builds (constructActual_builds src h hc.2)
  | .read root head index, h, hc => by
    rw [constructActual]
    refine (getArrayForUpdate_returns root head h.1 hc.2.1).bind fun a _ => ?_
    exact Builds.kid (constructActual_builds index h.2.1 hc.2.2) rfl fun _ => .pure
  | .select c t f, h, hc => by
    rw [constructActual]
    refine .kid (constructActual_builds c h.1 hc.2.1) rfl fun _ => ?_
    refine .kid (constructActual_builds t h.2.1 hc.2.2.1) rfl fun _ => ?_
    exact .kid (constructActual_builds f h.2.2.1 hc.2.2.2) h.2.2.2.2 fun _ => .pure
  | .concat l r, h, hc => by
    rw [constructActual]
    refine .kid (constructActual_builds r h.2 hc.2.2) rfl fun _ => ?_
    exact .kid (constructActual_builds l h.1 hc.2.1) rfl fun _ => .pure
  | .extract e _ _, h, hc => .kid (constructActual_builds e h.1 hc.2) rfl fun _ => .pure
  | .zext e _, h, hc => .kid (constructActual_builds e h.1 hc.2) rfl fun _ => .pure
  | .sext e _, h, hc => .kid (constructActual_builds e h.1 hc.2) rfl fun _ => .pure
  | .not e, h, hc => .kid (constructActual_builds e h hc.2) rfl fun _ => .pure
  | .bin k l r, h, hc => by
    have hl := constructActual_builds l h.1 hc.2.1
    have hr := constructActual_builds r h.2.1 hc.2.2
    have hw : r.getWidth = l.getWidth := h.2.2.1
    have hn : k.isLogic = false → l.getWidth ≠ 1 := fun hk => (hc.1.2.2.2 hk).1
    show Builds _ l.getWidth
    cases k with
    | and | or | xor => exact .kid hl rfl fun _ => .kid hr hw fun _ => .pure
    | add | sub | srem => exact .kid hl rfl fun _ => .kid hr hw fun _ => .assertNotBool (hn rfl) .pure
    | mul =>
      rw [constructActual]
      refine .kid hr hw fun t => .assertNotBool (hn rfl) (.constantOr ?_ ?_)
      · exact fun _ => mulByConstant_returns rfl
      · exact .kid hl rfl fun _ => .pure
    | udiv | sdiv | urem =>
      rw [constructActual]
      refine .kid hl rfl fun t => .assertNotBool (hn rfl) (.constantOr (fun _ => ?_) ?_)
      · first
        | exact udivByConstant_returns
        | exact sdivByConstant_returns
        | exact uremByConstant_returns
      · exact .kid hr hw fun _ => .pure
    | shl | lshr | ashr =>
      rw [constructActual_shift rfl]
      refine .kid hl rfl fun _ => .assertNotBool (hn rfl) ?_
      dsimp only
      split
      · exact .pure
      · exact .kid hr hw fun _ => .pure
  | .cmp k l r, h, hc => by
    have hl := constructActual_builds l h.1 hc.2.1
    have hr := constructActual_builds r h.2.1 hc.2.2
    have hw : r.getWidth = l.getWidth := h.2.2
    obtain ⟨rfl, -⟩ | ⟨rfl | rfl | rfl | rfl, hn, -⟩ := hc.1
    · exact .kid hl rfl fun _ => .kid hr rfl fun _ => .pure
    all_goals exact .kid hl rfl fun _ => .kid hr hw fun _ => .assertNotBool hn .pure

theorem getArrayForUpdate_returns (root : Array) : ∀ u : Updates, u.Ok .any → u.Below Expr.CanonicalNode →
    Triple Sized (b.getArrayForUpdate root u) (fun _ => True) fun _ => False
  | .nil, _, _ => getInitialArray_returns root
  | .cons index value next, h, hc => by
    rw [getArrayForUpdate]
    apply lookupArray_returns
    refine (getArrayForUpdate_returns root next h.2.2.2.2 hc.2.2).bind fun _ _ => ?_
    refine (lookup_builds (constructActual_builds index h.1 hc.1)).bind fun _ _ => ?_
    refine (lookup_builds (constructActual_builds value h.2.1 hc.2.1)).bind fun _ _ => ?_
    exact .pure trivial

end

/-- No assertion of the builder stops a canonical expression. -/
theorem construct_ne_assertFailed {e : Expr} (h : e.WF) (hc : e.Canonical) {s : Cache} (hs : Sized s) :
    (b.construct e).run s ≠ .error .assertFailed := by
  have hbuilds := Triple.iff_outcome.1 (lookup_builds (b := b) (constructActual_builds b e h hc)) s hs
  obtain ⟨p, hp, -⟩ := hbuilds.exists_ok
  change (b.construct e).run s = .ok p at hp
  rw [hp]
  nofun

end Nodes

/-- The `create` functions return for operands that are built and, where one of them is looked at if it is constant, have at
most 64 bits, unless they divide a constant by the constant zero. What they return is built in turn, well formed and canonical,
and no assertion of the builder stops it. -/
theorem create_canonical [Options] {e : Expr} (kids : ∀ k ∈ e.kids, k.Built)
    (updates : ∀ root head index, e = .read root head index → head.Built) (plain : e.Plain .any)
    (narrow : ∀ k l r, e = .bin k l r → k.isPartial = true → l.getWidth ≤ 64) :
    (∃ e', e.createAsserting = .ok e' ∧ e'.Built ∧ e'.WF ∧ e'.Canonical ∧
      ∀ (b : STPBuilder) (s : Cache), Sized s → (b.construct e').run s ≠ .error .assertFailed) ∨
    ∃ k cl cr, k.isDiv = true ∧ e = .bin k (.constant cl) (.constant cr) ∧ cr.isZero = true := by
  obtain ⟨e', hc, hbuilt⟩ | hdiv := Expr.create_returns kids updates plain narrow
  · refine .inl ⟨e', hc, hbuilt, hbuilt.wf, hbuilt.canonical, ?_⟩
    intro b s hs
    exact construct_ne_assertFailed b hbuilt.wf hbuilt.canonical hs
  · exact .inr hdiv

theorem built_constant [Options] {c : APInt} (h : 0 < c.width) : (Expr.constant c).Built :=
  .create (e := .constant c) nofun nofun h rfl

theorem built_symbolicByte [Options] (addr : Nat) (name : String) : (symbolicByte addr name).Built := by
  refine .create (e := symbolicByte addr name) ?_ ?_ (symbolicByte_ok trivial) rfl
  · intro k hk
    rw [mem_singleton.1 hk]
    exact built_constant (by decide)
  · rintro root head index h
    cases h
    exact .nil

/-- Three taken from five and a byte. -/
theorem create_canonical_difference :
    let e : Expr := .bin .sub (.bin .add (.const 5 8) (symbolicByte 0 "x")) (.const 3 8)
    (∃ e', e.createAsserting = .ok e' ∧ e'.Built ∧ e'.WF ∧ e'.Canonical ∧
      ∀ (b : STPBuilder) (s : Cache), Sized s → (b.construct e').run s ≠ .error .assertFailed) ∨
    ∃ k cl cr, k.isDiv = true ∧ e = .bin k (.constant cl) (.constant cr) ∧ cr.isZero = true := by
  have hc (v : Nat) : (Expr.const v 8).Built := built_constant (Nat.zero_lt_succ 7)
  have hread {k : BinKind} {l r : Expr} {P : Updates → Prop} :
      ∀ root head index, Expr.bin k l r = .read root head index → P head := by grind
  have hwf : (Expr.bin .add (.const 5 8) (symbolicByte 0 "x")).WF :=
    ⟨Nat.zero_lt_succ 7, symbolicByte_ok trivial, rfl, fun _ => trivial⟩
  have hsum : (Expr.bin .add (.const 5 8) (symbolicByte 0 "x")).Built := by
    refine .create (e := .bin .add (.const 5 8) (symbolicByte 0 "x")) ?_ hread hwf ?_
    · exact forall_mem_cons.2 ⟨hc 5, forall_mem_singleton.2 (built_symbolicByte 0 "x")⟩
    · rw [Expr.createAsserting, Expr.create, BinKind.create, AddExpr.create]
      rfl
  refine create_canonical (forall_mem_cons.2 ⟨hsum, forall_mem_singleton.2 (hc 3)⟩) hread
    ⟨hwf, Nat.zero_lt_succ 7, rfl, fun _ => trivial⟩ fun k l r he _ => ?_
  obtain ⟨-, rfl, -⟩ := Expr.bin.inj he
  decide

/-- One and a byte as numbers of 72 bits: the sum is not built. -/
theorem wide_sum_asserts : (Expr.const 1 72).Built ∧ (Expr.zext (symbolicByte 0 "x") 72).Built ∧
    (Expr.bin .add (.const 1 72) (.zext (symbolicByte 0 "x") 72)).Plain .any ∧
    (Expr.bin .add (.const 1 72) (.zext (symbolicByte 0 "x") 72)).createAsserting = .error .assertFailed := by
  have hwf : (Expr.zext (symbolicByte 0 "x") 72).WF := ⟨symbolicByte_ok trivial, by decide⟩
  have hzext : (Expr.zext (symbolicByte 0 "x") 72).Built := by
    refine .create (e := .zext (symbolicByte 0 "x") 72) ?_ nofun ⟨hwf.1, by decide⟩ rfl
    exact forall_mem_singleton.2 (built_symbolicByte 0 "x")
  refine ⟨built_constant (Nat.zero_lt_succ 71), hzext, ⟨Nat.zero_lt_succ 71, hwf, rfl, fun _ => trivial⟩, ?_⟩
  rw [Expr.createAsserting, Expr.asksWide, AddExpr.asks]
  rfl

end S2E.Klee.STPBuilder
