import S2E.Klee.Expr.Logic

/-!
# `ConcatExpr::create`, `ExtractExpr::create`, `ZExtExpr::create`, `SExtExpr::create`

`ExtractExpr::create` and `ConcatExpr::create` call each other: an extract of a concatenation is the concatenation of
two extracts, and two contiguous extracts are merged into one of their common operand.

* `ExtractExpr.create` : the body iterated as often as the operand is heavy. `ExtractExpr.create_eq` says that this
  is the recursion of the source: no call is cut off.
-/

namespace S2E.Klee
open BitVec

open Expr (concat eval_concat eval_constant eval_extract eval_zext extract getWidth kids sext weight zext)

variable [Options]

/-- `ZExtExpr::create(e, w)` for a width `w` that is not below that of `e`. -/
def zextWiden (e : Expr) (w : Nat) : Expr :=
  if w = e.getWidth then e
  else
    match e with
    | .constant c => .constant (c.zext w)
    | .zext x zw => if zw < w then .zext x w else .zext e w
    | _ => .zext e w

/-- `ConcatExpr::create`, the extract of the merged operand made by `ext`. -/
def concatWith (ext : Expr → Nat → Nat → Expr) (l r : Expr) : Expr :=
  match l, r with
  | .constant lCE, .constant rCE => .constant (lCE.concat rCE)
  | .extract x offL wL, .extract y offR wR =>
    if x = y ∧ offR + wR = offL then ext x offR (wL + wR) else .concat l r
  | _, _ => .concat l r

/-- The body of `ExtractExpr::create`. -/
def extractStep (ext : Expr → Nat → Nat → Expr) (expr : Expr) (off w : Nat) : Expr :=
  if w = expr.getWidth then expr
  else
    match expr with
    | .constant c => .constant (c.extract off w)
    | .zext x zew =>
      if x.getWidth = w ∧ off = 0 then x
      else if w ≤ zew ∧ x.getWidth ≤ w ∧ off = 0 then zextWiden x w
      else .extract expr off w
    | .concat l r =>
      -- the extract skips the right side of the concat
      if r.getWidth ≤ off then ext l (off - r.getWidth) w
      -- the extract skips the left side of the concat
      else if off + w ≤ r.getWidth then ext r off w
      -- E(C(x,y)) = C(E(x), E(y))
      else concatWith ext (ext l 0 (w + off - r.getWidth)) (ext r off (r.getWidth - off))
    | _ => .extract expr off w

/-- The body iterated `fuel` times. -/
def extractFuel : Nat → Expr → Nat → Nat → Expr
  | 0 => .extract
  | fuel + 1 => extractStep (extractFuel fuel)

def ExtractExpr.create (expr : Expr) (off w : Nat) : Expr := extractFuel expr.weight expr off w

def ConcatExpr.create (l r : Expr) : Expr := concatWith ExtractExpr.create l r

def ZExtExpr.create (e : Expr) (w : Nat) : Expr :=
  if w < e.getWidth then ExtractExpr.create e 0 w else zextWiden e w

def SExtExpr.create (e : Expr) (w : Nat) : Expr :=
  if w = e.getWidth then e
  else if w < e.getWidth then ExtractExpr.create e 0 w
  else
    match e with
    | .constant c => .constant (c.sext w)
    | _ => .sext e w

/-! ## Rules -/

variable {off w : Nat} {e l r : Expr}

theorem zextWiden_simplifies : (zext e w).Simplifies (zextWiden e w) := by
  unfold zextWiden
  split
  · rename_i hw
    subst hw
    refine ⟨rfl, fun P hP => hP.1, fun σ _ => ?_, by simp only [weight]; omega⟩
    simp only [getWidth]
    rw [eval_zext rfl, setWidth_eq]
  · split
    · rename_i c _
      refine ⟨rfl, fun P hP => lt_of_lt_of_le hP.1 hP.2, fun σ _ => ?_, by simp only [weight]; omega⟩
      obtain ⟨k, c⟩ := c
      simp only [getWidth, APInt.zext]
      rw [eval_zext (w := k) rfl, eval_constant, eval_constant]
    · rename_i x zw _
      split
      · refine ⟨rfl, fun P hP => ⟨hP.1.1, hP.1.2.trans hP.2⟩, fun σ hσ => ?_, by simp only [weight]; omega⟩
        simp only [getWidth]
        rw [eval_zext rfl, eval_zext (w := zw) rfl, eval_zext rfl]
        exact (setWidth_setWidth (by have := hσ.1.2; omega)).symm
      · exact .refl _
    · exact .refl _

theorem extract_whole (h : (extract e off e.getWidth).WF) : (extract e off e.getWidth).Simplifies e := by
  obtain rfl : off = 0 := by have := h.2.2; omega
  refine ⟨rfl, fun P hP => hP.1, fun σ _ => ?_, by simp only [weight]; omega⟩
  simp only [getWidth]
  rw [eval_extract rfl, extractLsb'_eq_self]

theorem extract_constant {c : APInt} (h : (extract (.constant c) off w).WF) :
    (extract (.constant c) off w).Simplifies (.constant (c.extract off w)) := by
  obtain ⟨k, c⟩ := c
  refine ⟨rfl, fun P hP => hP.2.1, fun σ _ => ?_, by simp only [weight]; omega⟩
  simp only [getWidth, APInt.extract]
  rw [eval_extract (w := k) rfl, eval_constant, eval_constant]
  have hle : off + w ≤ k := h.2.2
  ext i hi
  have h1 : off + i < k := by omega
  simp [getLsbD_sshiftRight, h1, show ¬ k ≤ i by omega]

theorem extract_zext {x : Expr} {zew : Nat} (hle : x.getWidth ≤ w) (hw : w ≤ zew) :
    (extract (.zext x zew) 0 w).Simplifies (.zext x w) := by
  refine ⟨rfl, fun P hP => ⟨hP.1.1, hle⟩, fun σ _ => ?_, by simp only [weight]; omega⟩
  simp only [getWidth]
  rw [eval_zext rfl, eval_extract (w := zew) rfl, eval_zext rfl]
  ext i hi
  simp [show i < zew by omega]

theorem extract_concat_left (hoff : r.getWidth ≤ off) :
    (extract (.concat l r) off w).Simplifies (.extract l (off - r.getWidth) w) := by
  refine ⟨rfl, fun P hP => ⟨hP.1.1, hP.2.1, ?_⟩, fun σ _ => ?_, by simp only [weight]; omega⟩
  · have := hP.2.2
    simp only [getWidth] at this
    omega
  · simp only [getWidth]
    rw [eval_extract rfl, eval_extract (w := l.getWidth + r.getWidth) rfl, eval_concat rfl rfl,
      setWidth_eq, extractLsb'_append_eq_of_le hoff]

theorem extract_concat_right (hoff : off + w ≤ r.getWidth) :
    (extract (.concat l r) off w).Simplifies (.extract r off w) := by
  refine ⟨rfl, fun P hP => ⟨hP.1.2, hP.2.1, hoff⟩, fun σ _ => ?_, by simp only [weight]; omega⟩
  simp only [getWidth]
  rw [eval_extract rfl, eval_extract (w := l.getWidth + r.getWidth) rfl, eval_concat rfl rfl,
    setWidth_eq, extractLsb'_append_eq_of_add_le hoff]

theorem extract_concat (h1 : off < r.getWidth) (h2 : r.getWidth < off + w) : (extract (.concat l r) off w).Simplifies
      (.concat (.extract l 0 (w + off - r.getWidth)) (.extract r off (r.getWidth - off))) := by
  have hw : w + off - r.getWidth + (r.getWidth - off) = w := by omega
  refine ⟨hw, fun P hP => ⟨⟨hP.1.1, ?_, ?_⟩, hP.1.2, ?_, ?_⟩, fun σ _ => ?_, by simp only [weight]; omega⟩
  · omega
  · have := hP.2.2
    simp only [getWidth] at this
    omega
  · omega
  · omega
  · simp only [getWidth]
    rw [eval_extract (w := l.getWidth + r.getWidth) rfl, eval_concat (l := l) rfl rfl, setWidth_eq,
      eval_concat (a := w + off - r.getWidth) (b := r.getWidth - off) rfl rfl, eval_extract rfl,
      eval_extract rfl]
    ext i hi
    simp only [getElem_setWidth, getLsbD_append, getElem_extractLsb', getLsbD_extractLsb']
    split
    · simp [show i < r.getWidth - off by omega, show off + i < r.getWidth by omega]
    · grind

theorem concat_extract {x : Expr} {wL wR : Nat} :
    (concat (.extract x (off + wR) wL) (.extract x off wR)).Simplifies (.extract x off (wL + wR)) := by
  refine ⟨rfl, fun P hP => ⟨hP.1.1, ?_, ?_⟩, fun σ _ => ?_, by simp only [weight]; omega⟩
  · exact Nat.add_pos_left hP.1.2.1 _
  · have := hP.1.2.2
    omega
  · simp only [getWidth]
    rw [eval_extract rfl, eval_concat (a := wL) (b := wR) rfl rfl, eval_extract rfl,
      eval_extract rfl, setWidth_eq, extractLsb'_append_extractLsb'_eq_extractLsb' rfl]

/-! ## Soundness -/

section Soundness

variable {ext : Expr → Nat → Nat → Expr}

section

variable (hext : ∀ e off w, (extract e off w).WF → (extract e off w).Simplifies (ext e off w))

include hext

theorem concatWith_simplifies (h : (concat l r).WF) : (concat l r).Simplifies (concatWith ext l r) := by
  unfold concatWith
  split
  · rename_i a b
    refine ⟨rfl, fun P hP => Nat.add_pos_left hP.1 _, fun σ _ => ?_, by simp only [weight]; omega⟩
    obtain ⟨m, a⟩ := a
    obtain ⟨n, b⟩ := b
    simp only [getWidth, APInt.concat]
    rw [eval_concat (a := m) (b := n) rfl rfl, eval_constant, eval_constant, eval_constant, setWidth_eq]
  · split
    · rename_i heq
      obtain ⟨rfl, rfl⟩ := heq
      exact concat_extract.trans (hext _ _ _ (concat_extract.wf h))
    · exact .refl _
  · exact .refl _

theorem extractStep_simplifies (h : (extract e off w).WF) : (extract e off w).Simplifies (extractStep ext e off w) := by
  unfold extractStep
  split
  · rename_i hw
    subst hw
    exact extract_whole h
  · split
    · exact extract_constant h
    · rename_i x zew _
      split
      · rename_i hx
        obtain ⟨rfl, rfl⟩ := hx
        have hs := zextWiden_simplifies (e := x) (w := x.getWidth)
        unfold zextWiden at hs
        rw [if_pos rfl] at hs
        exact (extract_zext le_rfl h.1.2).trans hs
      · split
        · rename_i hx
          obtain ⟨h1, h2, rfl⟩ := hx
          exact (extract_zext h2 h1).trans zextWiden_simplifies
        · exact .refl _
    · rename_i l r _
      split
      · rename_i hoff
        have hs := extract_concat_left (l := l) (w := w) hoff
        exact hs.trans (hext _ _ _ (hs.wf h))
      · split
        · rename_i hoff
          have hs := extract_concat_right (l := l) hoff
          exact hs.trans (hext _ _ _ (hs.wf h))
        · rename_i h1 h2
          have hs := extract_concat (l := l) (Nat.lt_of_not_le h1) (Nat.lt_of_not_le h2)
          have hk := hs.trans (.concat (hext _ _ _ (hs.wf h).1) (hext _ _ _ (hs.wf h).2))
          exact hk.trans (concatWith_simplifies hext (hk.wf h))
    · exact .refl _

end

end Soundness

theorem extractFuel_simplifies : ∀ (fuel : Nat) (e : Expr) (off w : Nat), (extract e off w).WF →
    (extract e off w).Simplifies (extractFuel fuel e off w)
  | 0, _, _, _, _ => .refl _
  | fuel + 1, _, _, _, h => extractStep_simplifies (extractFuel_simplifies fuel) h

omit [Options] in
theorem ExtractExpr.create_whole (h : w = e.getWidth) : create e 0 w = e := by
  obtain ⟨n, hn⟩ := Nat.exists_eq_succ_of_ne_zero e.weight_pos.ne'
  rw [create, hn, extractFuel]
  exact if_pos h

theorem ExtractExpr.create_simplifies (h : (extract e off w).WF) : (extract e off w).Simplifies (create e off w) :=
  extractFuel_simplifies _ e off w h

theorem ConcatExpr.create_simplifies (h : (concat l r).WF) : (concat l r).Simplifies (create l r) :=
  concatWith_simplifies (fun _ _ _ => ExtractExpr.create_simplifies) h

theorem ZExtExpr.create_simplifies (h : (zext e w).WF) : (zext e w).Simplifies (create e w) := by
  rw [create, if_neg (Nat.not_lt.2 h.2)]
  exact zextWiden_simplifies

theorem SExtExpr.create_simplifies (h : (sext e w).WF) : (sext e w).Simplifies (create e w) := by
  unfold create
  split
  · rename_i hw
    subst hw
    refine ⟨rfl, fun P hP => hP.1, fun σ _ => ?_, by simp only [weight]; omega⟩
    simp only [getWidth]
    rw [Expr.eval_sext rfl, signExtend_eq]
  · rw [if_neg (Nat.not_lt.2 h.2)]
    split
    · rename_i c _
      refine ⟨rfl, fun P hP => lt_of_lt_of_le hP.1 hP.2, fun σ _ => ?_, by simp only [weight]; omega⟩
      obtain ⟨k, c⟩ := c
      simp only [getWidth, APInt.sext]
      rw [Expr.eval_sext (w := k) rfl, eval_constant, eval_constant]
    · exact .refl _

/-- A narrowing extension, made as an extract of the low bits. -/
theorem ExtractExpr.create_truncate (he : e.WF) (h0 : 0 < w) (hw : w < e.getWidth) :
    (create e 0 w).getWidth = w ∧ ∀ σ, e.InBounds σ → (create e 0 w).InBounds σ ∧
      (create e 0 w).eval σ w = (e.eval σ e.getWidth).setWidth w := by
  have hwf : (extract e 0 w).WF := ⟨he, h0, by omega⟩
  have hs := create_simplifies hwf
  refine ⟨hs.width, fun σ hσ => ?_⟩
  have hb : (extract e 0 w).InBounds σ := ⟨hσ, h0, by omega⟩
  refine ⟨hs.ok _ hb, ?_⟩
  rw [hs.eval_at (w := w) hb rfl, eval_extract rfl]
  ext i hi
  simp

/-! ## The recursion of the source -/

theorem extractStep_congr {ext ext' : Expr → Nat → Nat → Expr}
    (hext : ∀ e off w, (extract e off w).WF → (extract e off w).Simplifies (ext e off w))
    (h : (extract e off w).WF)
    (heq : ∀ x o k, x.weight < e.weight → (extract x o k).WF → ext x o k = ext' x o k) :
    extractStep ext e off w = extractStep ext' e off w := by
  unfold extractStep
  split
  · rfl
  · split
    · rfl
    · rfl
    · rename_i l r _
      have hl : l.weight < (concat l r).weight := Expr.weight_kid_lt (by simp [kids])
      have hr : r.weight < (concat l r).weight := Expr.weight_kid_lt (by simp [kids])
      split
      · rename_i hoff
        exact heq _ _ _ hl ((extract_concat_left (l := l) (w := w) hoff).wf h)
      · split
        · rename_i hoff
          exact heq _ _ _ hr ((extract_concat_right (l := l) hoff).wf h)
        · rename_i h1 h2
          have hs := extract_concat (l := l) (Nat.lt_of_not_le h1) (Nat.lt_of_not_le h2)
          have hwl := (hs.wf h).1
          have hwr := (hs.wf h).2
          rw [← heq _ _ _ hl hwl, ← heq _ _ _ hr hwr]
          have hk := hs.trans (.concat (hext _ _ _ hwl) (hext _ _ _ hwr))
          have hwt := (hext _ _ _ hwl).weight
          unfold concatWith
          split
          · rfl
          · rename_i x oL wL y oR wR he1 he2
            split
            · rename_i hxy
              obtain ⟨rfl, rfl⟩ := hxy
              -- the merged operand is no heavier than the left side of the concatenation
              rw [he1, he2] at hk
              rw [he1] at hwt
              simp only [weight] at hwt hl
              exact heq _ _ _ (by simp only [weight]; omega) (concat_extract.wf (hk.wf h))
            · rfl
          · rfl
    · rfl

/-- Enough fuel for the operand is enough. -/
theorem extractFuel_eq : ∀ (n m : Nat) (e : Expr) (off w : Nat), e.weight ≤ n → e.weight ≤ m →
    (extract e off w).WF → extractFuel n e off w = extractFuel m e off w
  | 0, _, e, _, _, hn, _, _ => absurd hn (Nat.not_le.2 e.weight_pos)
  | _, 0, e, _, _, _, hm, _ => absurd hm (Nat.not_le.2 e.weight_pos)
  | n + 1, m + 1, e, _, _, hn, hm, h =>
    extractStep_congr (extractFuel_simplifies n) h fun x o k hx hwf =>
      extractFuel_eq n m x o k (by omega) (by omega) hwf

/-- `ExtractExpr::create` is its body with the calls made to itself and to `ConcatExpr::create`. -/
theorem ExtractExpr.create_eq (h : (extract e off w).WF) : create e off w = extractStep create e off w := by
  obtain ⟨n, hn⟩ := Nat.exists_eq_succ_of_ne_zero (Nat.pos_iff_ne_zero.1 e.weight_pos)
  rw [create, hn]
  exact extractStep_congr (extractFuel_simplifies n) h fun x o k hx hwf =>
    extractFuel_eq n x.weight x o k (by omega) le_rfl hwf

end S2E.Klee
