import S2E.Klee.Expr.BitfieldSimplifier

/-!
# Correctness of the bit field simplifier

* `Expr.Agrees Γ ignored e e'` : `e'` may stand for `e` under the assignments of `Γ` where the bits of `ignored` do not
  matter;
* `applyKind_spec` : one case for each kind. The known bits of the node are right if those of the kids are, and the node
  over kids that agree outside the bits it ignores agrees with the node;
* `Cache.Sound` : what is known of the entries. The known bits of an entry are right outside the bits that were ignored
  when it was made, and nothing is said about those.
-/

namespace S2E.Klee

open S2E.Lib BitfieldSimplifier List
open BitVec (setWidth_eq ofNat ofNat_toNat)
open Expr (bin eval eval_sext eval_zext getWidth withKids)

variable {w : Nat} {k : Kid} {cache : Cache} {b : BitsInfo} {J : BitVec 64} {σ : Assignment}

namespace BitfieldSimplifier

theorem zeroMask_eq (w : Nat) : zeroMask w = highBits 64 w := by
  unfold zeroMask
  split
  · rfl
  · apply BitVec.eq_of_getLsbD_eq
    intro i hi
    rw [getLsbD_highBits, BitVec.getLsbD_zero, decide_eq_false (by omega), Bool.false_and]

variable {Γ : Set Assignment} {I J : BitVec 64} {e e' e'' : Expr}

/-- The known bits are those of the expression. -/
structure Known (Γ : Set Assignment) (e : Expr) (b : BitsInfo) : Prop where
  knows : ∀ σ ∈ Γ, Knows b.knownOneBits b.knownZeroBits (e.eval σ e.getWidth)
  fits : Fits e.getWidth b.knownOneBits b.knownZeroBits

theorem Known.knows_at (h : Known Γ e b) (hσ : σ ∈ Γ) (hw : e.getWidth = w) :
    Knows b.knownOneBits b.knownZeroBits (e.eval σ w) := by
  subst hw
  exact h.knows σ hσ

theorem Known.top (e : Expr) : Known Γ e ⟨I, 0#64, zeroMask e.getWidth⟩ := by
  rw [zeroMask_eq]
  exact ⟨fun σ _ => .top _, .top⟩

/-! ## The cache -/

/-- An entry is right outside the bits that were ignored when it was made, and it leaves some bit open. -/
structure EntrySound (Γ : Set Assignment) (e : Expr) (b : BitsInfo) : Prop where
  knowsOff : ∀ σ ∈ Γ, KnowsOff b.ignoredBits b.knownOneBits b.knownZeroBits (e.eval σ e.getWidth)
  fits : Fits e.getWidth b.knownOneBits b.knownZeroBits
  uncovered : b.covered = false

def Cache.Sound (Γ : Set Assignment) (cache : Cache) : Prop := ∀ entry ∈ cache, EntrySound Γ entry.1 entry.2

/-- The entry claims nothing about the bits of the expression that were ignored. -/
def clean (width : Nat) (b : BitsInfo) : Bool :=
  (b.knownOneBits ||| b.knownZeroBits) &&& b.ignoredBits &&& ~~~zeroMask width = 0#64

/-- The calls that are allowed: on an expression no wider than the masks, and answered by a clean entry if at all. -/
def admissible (e : Expr) (answer : Option BitsInfo) : Bool := e.getWidth ≤ 64 && answer.all (clean e.getWidth)

theorem Cache.Sound.erase (h : cache.Sound Γ) (e : Expr) : (cache.erase e).Sound Γ :=
  fun entry hm => h entry (mem_filter.1 hm).1

theorem Cache.Sound.foldl_erase : ∀ (kids : List Expr) {cache : Cache}, cache.Sound Γ →
    (kids.foldl Cache.erase cache).Sound Γ
  | [], _, h => h
  | k :: kids, _, h => Cache.Sound.foldl_erase kids (h.erase k)

theorem Cache.Sound.insert (h : cache.Sound Γ) (hb : EntrySound Γ e b) : (cache.insert e b).Sound Γ := by
  unfold Cache.insert
  split
  · exact h
  · intro entry hm
    rcases mem_cons.1 hm with rfl | hm
    · exact hb
    · exact h entry hm

theorem Cache.Sound.answer (h : cache.Sound Γ) (ha : cache.answer e I = some b) : EntrySound Γ e b := by
  obtain ⟨hl, -⟩ := Option.filter_eq_some_iff.1 ha
  obtain ⟨l₁, l₂, rfl, -⟩ := lookup_eq_some_iff.1 hl
  exact h (e, b) (by simp)

theorem EntrySound.known (h : EntrySound Γ e b) (hw : e.getWidth ≤ 64)
    (hc : clean e.getWidth b = true) : Known Γ e b := by
  refine ⟨fun σ hσ => (h.knowsOff σ hσ).knows ?_ hw, h.fits⟩
  rw [← zeroMask_eq]
  exact of_decide_eq_true hc

theorem Known.valid (h : Known Γ e b) (hΓ : Γ.Nonempty) : b.valid e.getWidth = true := by
  obtain ⟨σ, hσ⟩ := hΓ
  refine decide_eq_true ⟨(h.knows σ hσ).disjoint h.fits, ?_, ?_⟩
  · rw [zeroMask_eq]
    exact h.fits.one_and
  · rw [zeroMask_eq]
    exact h.fits.zero_and

end BitfieldSimplifier

/-! ## Agreement -/

section

variable [Options] {Γ : Set Assignment} {I J : BitVec 64} {e e' e'' : Expr}

structure Expr.Agrees (Γ : Set Assignment) (ignored : BitVec 64) (e e' : Expr) : Prop where
  width : e'.getWidth = e.getWidth
  ok : ∀ P : NodeCond, P.Stable Γ → e.Ok P → e'.Ok P
  agree : ∀ σ ∈ Γ, e.InBounds σ → AgreeOff ignored (e.eval σ e.getWidth) (e'.eval σ e.getWidth)
  weight : e'.weight ≤ e.weight

namespace Expr.Agrees

theorem refl (e : Expr) : e.Agrees Γ I e := ⟨rfl, fun _ _ h => h, fun _ _ _ => .refl I _, le_rfl⟩

theorem inBounds (h : e.Agrees Γ I e') (hσ : σ ∈ Γ) (hb : e.InBounds σ) : e'.InBounds σ :=
  h.ok _ (NodeCond.inBounds_stable hσ) hb

theorem agree_at (h : e.Agrees Γ I e') (hσ : σ ∈ Γ) (hb : e.InBounds σ)
    (hw : e.getWidth = w) : AgreeOff I (e.eval σ w) (e'.eval σ w) := by
  subst hw
  exact h.agree σ hσ hb

theorem equiv (h : e.Agrees Γ 0#64 e') : e.Equiv Γ e' :=
  ⟨h.width, fun _ hσ => h.inBounds hσ, fun σ hσ hb => (h.agree σ hσ hb).eq⟩

theorem of_exact (h₁ : e.Agrees Γ 0#64 e') (h₂ : e'.Agrees Γ I e'') : e.Agrees Γ I e'' where
  width := h₂.width.trans h₁.width
  ok P hP h := h₂.ok P hP (h₁.ok P hP h)
  agree σ hσ hb := by
    have := h₂.agree_at hσ (h₁.inBounds hσ hb) h₁.width
    rw [h₁.equiv.eval σ hσ hb] at this
    exact this
  weight := h₂.weight.trans h₁.weight

theorem trans_simplifies (h₁ : e.Agrees Γ I e') (h₂ : e'.Simplifies e'') : e.Agrees Γ I e'' where
  width := h₂.width.trans h₁.width
  ok P hP h := h₂.ok P (h₁.ok P hP h)
  agree σ hσ hb := by
    rw [h₂.eval_at (h₁.inBounds hσ hb) h₁.width]
    exact h₁.agree σ hσ hb
  weight := h₂.weight.trans h₁.weight

/-- A node over kids that have kept their values. -/
theorem withKids_exact {kids : List Expr} (h : e.WF) (hk : List.Forall₂ (Expr.Agrees Γ 0#64) e.kids kids) :
    e.Agrees Γ I (e.withKids kids) where
  width := Expr.withKids_width (hk.imp fun _ _ h => h.width)
  ok P hP he := by
    refine he.withKids_equiv hP ?_
    rw [forall₂_iff_get] at hk ⊢
    exact ⟨hk.1, fun i h₁ h₂ => ⟨(hk.2 i h₁ h₂).equiv, (hk.2 i h₁ h₂).ok P hP (he.kid (get_mem _ _))⟩⟩
  agree σ hσ hb := .of_eq (Expr.eval_withKids h (hk.imp fun _ _ h => h.equiv) hσ hb)
  weight := Expr.withKids_weight_le (hk.imp fun _ _ h => h.weight)

/-- A node, neither a read nor a division, over kids that agree outside the bits that it ignores. -/
theorem withKids {kids : List Expr} (hk : List.Forall₂ (fun x x' => ∃ J, x.Agrees Γ J x') e.kids kids)
    (hnode : match e with | .read .. => False | .bin k .. => k.isDiv = false | _ => True)
    (hagree : ∀ σ ∈ Γ, e.InBounds σ → AgreeOff I (e.eval σ e.getWidth) ((e.withKids kids).eval σ e.getWidth)) :
    e.Agrees Γ I (e.withKids kids) where
  width := Expr.withKids_width (hk.imp fun _ _ ⟨_, h⟩ => h.width)
  ok P hP he := by
    refine he.withKids ?_ (fun _ _ _ _ h => by subst h; exact hnode.elim) fun k l r _ _ h _ hd => ?_
    · rw [forall₂_iff_get] at hk ⊢
      refine ⟨hk.1, fun i h₁ h₂ => ?_⟩
      obtain ⟨J, hJ⟩ := hk.2 i h₁ h₂
      exact ⟨hJ.width, hJ.ok P hP (he.kid (get_mem _ _))⟩
    · grind
  agree := hagree
  weight := Expr.withKids_weight_le (hk.imp fun _ _ ⟨_, h⟩ => h.weight)

end Expr.Agrees

namespace BitfieldSimplifier

/-- A kid in the arrays: the first pass kept its value, `oldBits` are its known bits, and `bits` are right outside the
bits to be ignored. -/
structure Kid.Ok (Γ : Set Assignment) (e : Expr) (k : Kid) : Prop where
  agrees : e.Agrees Γ 0#64 k.expr
  known : Known Γ e k.oldBits
  knowsOff : ∀ σ ∈ Γ, KnowsOff k.bits.ignoredBits k.bits.knownOneBits k.bits.knownZeroBits (e.eval σ e.getWidth)
  covered : k.oldBits.covered = true → k.oldBits.ignoredBits = 0#64
  narrow : e.getWidth ≤ 64

/-- A kid as the first loop leaves it. -/
def Kid.Fresh (Γ : Set Assignment) (e : Expr) (k : Kid) : Prop := k.Ok Γ e ∧ k.oldBits = k.bits

section

variable (h : k.Fresh Γ e)

include h

theorem Kid.Fresh.known : Known Γ e k.bits := h.2 ▸ h.1.known

theorem Kid.Fresh.ignore (J : BitVec 64) : (k.ignore J).Ok Γ e :=
  ⟨h.1.agrees, h.1.known, fun σ hσ => (h.known.knows σ hσ).off J, h.1.covered, h.1.narrow⟩

omit h in
theorem Kid.Ok.ones (h : k.Ok Γ e) : k.ones.Ok Γ e := by
  unfold Kid.ones
  split
  · rename_i hc
    exact ⟨h.agrees, h.known, fun σ hσ => (h.knowsOff σ hσ).allOnes h.narrow hc, h.covered, h.narrow⟩
  · exact h

omit h in
theorem Kid.Ok.zeros (h : k.Ok Γ e) : k.zeros.Ok Γ e := by
  unfold Kid.zeros
  split
  · rename_i hc
    exact ⟨h.agrees, h.known, fun σ hσ => (h.knowsOff σ hσ).allZeros h.narrow hc, h.covered, h.narrow⟩
  · exact h

/-- What the second loop makes of a kid. A kid of which nothing new was found keeps its value. -/
structure Kid.Updated (Γ : Set Assignment) (k : Kid) (e' : Expr) : Prop where
  agrees : k.expr.Agrees Γ k.bits.ignoredBits e'
  exact : k.bits = k.oldBits → k.expr.Agrees Γ 0#64 e'

theorem Kid.Fresh.updated (hu : (k.ignore J).Updated Γ e') : e.Agrees Γ J e' :=
  h.1.agrees.of_exact hu.agrees

theorem Kid.Fresh.unchanged (hu : k.Updated Γ e') : e.Agrees Γ 0#64 e' :=
  h.1.agrees.of_exact (hu.exact h.2.symm)

theorem Kid.Fresh.updated_ones (hu : (k.ignore J).ones.Updated Γ e') : e.Agrees Γ J e' := by
  have ha := hu.agrees
  rw [Kid.ones_expr, Kid.ones_ignoredBits] at ha
  exact h.1.agrees.of_exact ha

theorem Kid.Fresh.updated_zeros (hu : (k.ignore J).zeros.Updated Γ e') : e.Agrees Γ J e' := by
  have ha := hu.agrees
  rw [Kid.zeros_expr, Kid.zeros_ignoredBits] at ha
  exact h.1.agrees.of_exact ha

end

/-! ## The switch -/

/-- What is asked of the switch on the node `e`: `r` are the known bits of the node and the kids brought up to date. -/
structure KindSpec (Γ : Set Assignment) (I : BitVec 64) (e : Expr) (r : BitsInfo × List Kid) : Prop where
  ignoredBits : r.1.ignoredBits = I
  known : Known Γ e r.1
  kids : List.Forall₂ (fun x k => k.Ok Γ x) e.kids r.2
  rebuilt : ∀ kids', List.Forall₂ (Kid.Updated Γ) r.2 kids' → e.Agrees Γ I (e.withKids kids')

variable {kids : List Kid}

theorem KindSpec.top (h : e.WF) (hk : List.Forall₂ (fun x k => k.Fresh Γ x) e.kids kids) :
    KindSpec Γ I e (⟨I, 0#64, zeroMask e.getWidth⟩, kids) where
  ignoredBits := rfl
  known := .top e
  kids := hk.imp fun _ _ h => h.1
  rebuilt _ hu := .withKids_exact h (forall₂_trans (fun _ _ _ hf hu => hf.unchanged hu) hk hu)

section Bin

variable {l r : Expr} {k₀ k₁ : Kid}

theorem kindSpec_and (h : (bin .and l r).WF) (h₀ : k₀.Fresh Γ l) (h₁ : k₁.Fresh Γ r) :
    KindSpec Γ I (.bin .and l r) (applyKind I (.bin .and l r) [k₀, k₁]) where
  ignoredBits := rfl
  known := ⟨fun σ hσ => (h₀.known.knows σ hσ).and (h₁.known.knows_at hσ h.2.2.1), h₀.known.fits.and⟩
  kids := .cons (h₀.ignore _).ones (.cons (h₁.ignore _).ones .nil)
  rebuilt kids' hu := by
    obtain ⟨l', r', rfl, hl, hr⟩ := forall₂_two hu
    have hl := h₀.updated_ones hl
    have hr := h₁.updated_ones hr
    refine .withKids (.cons ⟨_, hl⟩ (.cons ⟨_, hr⟩ .nil)) rfl fun σ hσ hb => ?_
    exact .and (h₀.known.knows σ hσ) (h₁.known.knows_at hσ h.2.2.1) (hl.agree σ hσ hb.1)
      (hr.agree_at hσ hb.2.1 h.2.2.1) h₀.1.narrow

theorem kindSpec_or (h : (bin .or l r).WF) (h₀ : k₀.Fresh Γ l) (h₁ : k₁.Fresh Γ r) :
    KindSpec Γ I (.bin .or l r) (applyKind I (.bin .or l r) [k₀, k₁]) where
  ignoredBits := rfl
  known := ⟨fun σ hσ => (h₀.known.knows σ hσ).or (h₁.known.knows_at hσ h.2.2.1),
    h₀.known.fits.or (h.2.2.1 ▸ h₁.known.fits)⟩
  kids := .cons (h₀.ignore _).zeros (.cons (h₁.ignore _).zeros .nil)
  rebuilt kids' hu := by
    obtain ⟨l', r', rfl, hl, hr⟩ := forall₂_two hu
    have hl := h₀.updated_zeros hl
    have hr := h₁.updated_zeros hr
    refine .withKids (.cons ⟨_, hl⟩ (.cons ⟨_, hr⟩ .nil)) rfl fun σ hσ hb => ?_
    exact .or (h₀.known.knows σ hσ) (h₁.known.knows_at hσ h.2.2.1) (hl.agree σ hσ hb.1)
      (hr.agree_at hσ hb.2.1 h.2.2.1) h₀.1.narrow

theorem kindSpec_xor (h : (bin .xor l r).WF) (h₀ : k₀.Fresh Γ l) (h₁ : k₁.Fresh Γ r) :
    KindSpec Γ I (.bin .xor l r) (applyKind I (.bin .xor l r) [k₀, k₁]) where
  ignoredBits := rfl
  known := ⟨fun σ hσ => (h₀.known.knows σ hσ).xor (h₁.known.knows_at hσ h.2.2.1),
    h₀.known.fits.xor (h.2.2.1 ▸ h₁.known.fits)⟩
  kids := .cons (h₀.ignore _) (.cons (h₁.ignore _) .nil)
  rebuilt kids' hu := by
    obtain ⟨l', r', rfl, hl, hr⟩ := forall₂_two hu
    have hl := h₀.updated hl
    have hr := h₁.updated hr
    refine .withKids (.cons ⟨_, hl⟩ (.cons ⟨_, hr⟩ .nil)) rfl fun σ hσ hb => ?_
    exact .xor (hl.agree σ hσ hb.1) (hr.agree_at hσ hb.2.1 h.2.2.1)

/-- What is asked of the case of a shift by the constant `s`. -/
structure ShiftSpec (Γ : Set Assignment) (I : BitVec 64) (l : Expr) (k₀ : Kid) (r : BitsInfo × Kid)
    (shift : BitVec l.getWidth → BitVec l.getWidth) : Prop where
  ignoredBits : r.1.ignoredBits = I
  knows : ∀ σ ∈ Γ, Knows r.1.knownOneBits r.1.knownZeroBits (shift (l.eval σ l.getWidth))
  fits : Fits l.getWidth r.1.knownOneBits r.1.knownZeroBits
  kid : ∃ J, r.2 = k₀.ignore J ∧ ∀ x x', AgreeOff J x x' → AgreeOff I (shift x) (shift x')

theorem applyShl_spec (h₀ : k₀.Fresh Γ l) (s : Nat) : ShiftSpec Γ I l k₀ (applyShl I l.getWidth s k₀) (· <<< s) := by
  unfold applyShl
  simp only [zeroMask_eq]
  split
  · exact ⟨rfl, fun σ hσ => (h₀.known.knows σ hσ).shl s, .shl s, _, rfl, fun _ _ => .shl⟩
  · rename_i hs
    have hz : ∀ x : BitVec l.getWidth, x <<< s = 0#l.getWidth := fun x => BitVec.shiftLeft_eq_zero (by omega)
    refine ⟨rfl, fun σ _ => ?_, .clear, _, rfl, fun x x' _ => .of_eq ?_⟩
    · rw [hz]
      exact .clear
    · rw [hz, hz]

theorem applyLShr_spec (h₀ : k₀.Fresh Γ l) (s : Nat) : ShiftSpec Γ I l k₀ (applyLShr I l.getWidth s k₀) (· >>> s) := by
  unfold applyLShr
  simp only [zeroMask_eq]
  split
  · exact ⟨rfl, fun σ hσ => (h₀.known.knows σ hσ).lshr h₀.known.fits s, h₀.known.fits.lshr s, _, rfl, fun _ _ => .lshr⟩
  · rename_i hs
    have hz : ∀ x : BitVec l.getWidth, x >>> s = 0#l.getWidth := fun x => BitVec.ushiftRight_eq_zero (by omega)
    refine ⟨rfl, fun σ _ => ?_, .clear, _, rfl, fun x x' _ => .of_eq ?_⟩
    · rw [hz]
      exact .clear
    · rw [hz, hz]

theorem kindSpec_shift {k : BinKind} (hk : k.isDiv = false) (h : (bin k l r).WF) (h₀ : k₀.Fresh Γ l)
    (h₁ : k₁.Fresh Γ r) {apply : BitVec 64 → Nat → Nat → Kid → BitsInfo × Kid}
    (shift : {w : Nat} → BitVec w → Nat → BitVec w) (heval : ∀ {w} (x y : BitVec w), k.eval x y = shift x y.toNat)
    (hs : ∀ s, ShiftSpec Γ I l k₀ (apply I l.getWidth s k₀) (shift · s)) (hin : ∀ σ ∈ Γ, r.InBounds σ) :
    KindSpec Γ I (.bin k l r) (applyShift apply I l.getWidth k₀ k₁) := by
  unfold applyShift
  split
  · rename_i c hc
    have hr : ∀ σ ∈ Γ, (r.eval σ l.getWidth).toNat = c.getZExtValue := by
      intro σ hσ
      have hw : c.width = l.getWidth := by
        have := h₁.1.agrees.width
        rw [hc, h.2.2.1] at this
        exact this
      rw [← h₁.1.agrees.equiv.eval_at hσ (hin σ hσ) h.2.2.1, hc, eval, ← hw, setWidth_eq]
      rfl
    obtain ⟨J, hJ, hagree⟩ := (hs c.getZExtValue).kid
    refine ⟨(hs _).ignoredBits, ⟨fun σ hσ => ?_, (hs _).fits⟩, .cons ?_ (.cons h₁.1 .nil), fun kids' hu => ?_⟩
    · show Knows _ _ (k.eval (l.eval σ l.getWidth) (r.eval σ l.getWidth))
      rw [heval, hr σ hσ]
      exact (hs _).knows σ hσ
    · rw [hJ]
      exact h₀.ignore J
    · obtain ⟨l', r', rfl, hl, hr'⟩ := forall₂_two hu
      rw [hJ] at hl
      have hl := h₀.updated hl
      have hr' := h₁.unchanged hr'
      refine .withKids (.cons ⟨_, hl⟩ (.cons ⟨_, hr'⟩ .nil)) hk fun σ hσ hb => ?_
      show AgreeOff I (k.eval (l.eval σ l.getWidth) (r.eval σ l.getWidth))
        (k.eval (l'.eval σ l.getWidth) (r'.eval σ l.getWidth))
      rw [heval, heval, hr'.equiv.eval_at hσ hb.2.1 h.2.2.1, hr σ hσ]
      exact hagree _ _ (hl.agree σ hσ hb.1)
  · exact .top h (.cons h₀ (.cons h₁ .nil))

theorem kindSpec_concat (h₀ : k₀.Fresh Γ l) (h₁ : k₁.Fresh Γ r) (hw : (Expr.concat l r).getWidth ≤ 64) :
    KindSpec Γ I (.concat l r) (applyKind I (.concat l r) [k₀, k₁]) := by
  have hwl := h₀.1.agrees.width
  have hwr := h₁.1.agrees.width
  refine ⟨rfl, ⟨fun σ hσ => ?_, ?_⟩, .cons (h₀.ignore _) (.cons (h₁.ignore _) .nil), fun kids' hu => ?_⟩
  · simp only [applyKind, zeroMask_eq, hwr, getWidth]
    rw [Expr.eval_concat rfl rfl, setWidth_eq]
    exact .concat (h₀.known.knows σ hσ) (h₁.known.knows σ hσ) h₁.known.fits hw
  · simp only [applyKind, zeroMask_eq, hwr]
    exact .concat h₀.known.fits h₁.known.fits
  · obtain ⟨l', r', rfl, hl, hr⟩ := forall₂_two hu
    have hl := h₀.updated hl
    have hr := h₁.updated hr
    simp only [zeroMask_eq, hwl, hwr] at hl hr
    refine .withKids (.cons ⟨_, hl⟩ (.cons ⟨_, hr⟩ .nil)) trivial fun σ hσ hb => ?_
    simp only [withKids, getWidth]
    rw [Expr.eval_concat rfl rfl, Expr.eval_concat hl.width hr.width, setWidth_eq, setWidth_eq]
    exact .concat (hl.agree σ hσ hb.1) (hr.agree σ hσ hb.2)

end Bin

section Unary

variable {x : Expr} {k₀ : Kid}

theorem kindSpec_not (h₀ : k₀.Fresh Γ x) : KindSpec Γ I (.not x) (applyKind I (.not x) [k₀]) := by
  refine ⟨rfl, ⟨fun σ hσ => ?_, ?_⟩, .cons (h₀.ignore _) .nil, fun kids' hu => ?_⟩
  · simp only [applyKind, zeroMask_eq]
    exact (h₀.known.knows σ hσ).not
  · simp only [applyKind, zeroMask_eq]
    exact .not
  · obtain ⟨x', rfl, hx⟩ := forall₂_one hu
    have hx := h₀.updated hx
    exact .withKids (.cons ⟨_, hx⟩ .nil) trivial fun σ hσ hb =>
      .not (hx.agree σ hσ hb)

theorem kindSpec_extract {off : Nat} (h : (Expr.extract x off w).WF) (h₀ : k₀.Fresh Γ x) :
    KindSpec Γ I (.extract x off w) (applyKind I (.extract x off w) [k₀]) := by
  refine ⟨rfl, ⟨fun σ hσ => ?_, ?_⟩, .cons (h₀.ignore _) .nil, fun kids' hu => ?_⟩
  · simp only [applyKind, zeroMask_eq, getWidth]
    rw [Expr.eval_extract rfl]
    exact .extract (h₀.known.knows σ hσ) h.2.2
  · simp only [applyKind, zeroMask_eq]
    exact .extract off
  · obtain ⟨x', rfl, hx⟩ := forall₂_one hu
    have hx := h₀.updated hx
    simp only [zeroMask_eq] at hx
    refine .withKids (.cons ⟨_, hx⟩ .nil) trivial fun σ hσ hb => ?_
    simp only [withKids, getWidth]
    rw [Expr.eval_extract rfl, Expr.eval_extract hx.width]
    exact .extract h₀.1.narrow (hx.agree σ hσ hb.1)

theorem kindSpec_zext (h : (Expr.zext x w).WF) (h₀ : k₀.Fresh Γ x) :
    KindSpec Γ I (.zext x w) (applyKind I (.zext x w) [k₀]) := by
  refine ⟨rfl, ⟨fun σ hσ => ?_, h₀.known.fits.mono h.2⟩, .cons (h₀.ignore _) .nil, fun kids' hu => ?_⟩
  · simp only [getWidth]
    rw [eval_zext rfl]
    exact .zext (h₀.known.knows σ hσ) h₀.known.fits
  · obtain ⟨x', rfl, hx⟩ := forall₂_one hu
    have hx := h₀.updated hx
    refine .withKids (.cons ⟨_, hx⟩ .nil) trivial fun σ hσ hb => ?_
    simp only [withKids, getWidth]
    rw [eval_zext rfl, eval_zext hx.width]
    exact .zext (hx.agree σ hσ hb.1)

theorem kindSpec_sext (h : (Expr.sext x w).WF) (h₀ : k₀.Fresh Γ x) (hw : w ≤ 64) :
    KindSpec Γ I (.sext x w) (applyKind I (.sext x w) [k₀]) := by
  have hwx := h₀.1.agrees.width
  have hpos := x.width_pos h.1
  refine ⟨?_, ?_, .cons (h₀.ignore _) .nil, fun kids' hu => ?_⟩
  · simp only [applyKind, applySExt]
    split
    · rfl
    · split <;> rfl
  · simp only [applyKind, applySExt, zeroMask_eq, hwx]
    split
    · rename_i hs
      refine ⟨fun σ hσ => ?_, h₀.known.fits.sext_neg h.2⟩
      simp only [getWidth]
      rw [eval_sext rfl]
      exact (h₀.known.knows σ hσ).sext_neg hs hw hpos
    · split
      · rename_i hs
        refine ⟨fun σ hσ => ?_, h₀.known.fits.sext_pos h.2⟩
        simp only [getWidth]
        rw [eval_sext rfl]
        exact (h₀.known.knows σ hσ).sext_pos h₀.known.fits hs hw hpos
      · refine ⟨fun σ hσ => ?_, h₀.known.fits.sext h.2⟩
        simp only [getWidth]
        rw [eval_sext rfl]
        exact (h₀.known.knows σ hσ).sext h₀.known.fits hw
  · obtain ⟨x', rfl, hx⟩ := forall₂_one hu
    have hx := h₀.updated hx
    simp only [zeroMask_eq, hwx] at hx
    refine .withKids (.cons ⟨_, hx⟩ .nil) trivial fun σ hσ hb => ?_
    simp only [withKids, getWidth]
    rw [eval_sext rfl, eval_sext hx.width]
    exact .sext hw hpos (hx.agree σ hσ hb.1)

end Unary

theorem kindSpec_select {c t f : Expr} {k₀ k₁ k₂ : Kid} (h : (Expr.select c t f).WF) (h₀ : k₀.Fresh Γ c)
    (h₁ : k₁.Fresh Γ t) (h₂ : k₂.Fresh Γ f) :
    KindSpec Γ I (.select c t f) (applyKind I (.select c t f) [k₀, k₁, k₂]) := by
  refine ⟨rfl, ⟨fun σ hσ => ?_, ?_⟩, .cons h₀.1 (.cons (h₁.ignore _) (.cons (h₂.ignore _) .nil)), fun kids' hu => ?_⟩
  · simp only [applyKind, zeroMask_eq, getWidth, eval]
    exact .ite (h₁.known.knows σ hσ) (h₂.known.knows_at hσ h.2.2.2.2)
  · simp only [applyKind, zeroMask_eq]
    exact .ite h₁.known.fits
  · obtain ⟨c', t', f', rfl, hc, ht, hf⟩ := forall₂_three hu
    have hc := h₀.unchanged hc
    have ht := h₁.updated ht
    have hf := h₂.updated hf
    refine .withKids (.cons ⟨_, hc⟩ (.cons ⟨_, ht⟩ (.cons ⟨_, hf⟩ .nil))) trivial fun σ hσ hb => ?_
    simp only [withKids, getWidth, eval]
    rw [hc.equiv.eval_at hσ hb.1 h.2.2.2.1]
    exact .ite (ht.agree σ hσ hb.2.1) (hf.agree_at hσ hb.2.2.1 h.2.2.2.2)

theorem kindSpec_constant {c : APInt} (hw : c.width ≤ 64) : KindSpec Γ I (.constant c) (applyKind I (.constant c) []) := by
  have hval : ofNat 64 c.getZExtValue = c.bits.setWidth 64 := ofNat_toNat 64 c.bits
  refine ⟨rfl, ⟨fun σ _ => ?_, ?_⟩, .nil, fun kids' hu => ?_⟩
  · simp only [applyKind, getWidth, eval, setWidth_eq, hval]
    exact .const c.bits hw
  · simp only [applyKind, hval]
    exact .const c.bits
  · cases hu
    exact .refl _

theorem applyKind_spec (h : e.WF) (hb : ∀ σ ∈ Γ, e.InBounds σ) (hw : e.getWidth ≤ 64)
    (hk : List.Forall₂ (fun x k => k.Fresh Γ x) e.kids kids) : KindSpec Γ I e (applyKind I e kids) := by
  cases Expr.over_kids hk with
  | constant => exact kindSpec_constant hw
  | notOptimized | read | cmp => exact .top h hk
  | not h₀ => exact kindSpec_not h₀
  | extract h₀ => exact kindSpec_extract h h₀
  | zext h₀ => exact kindSpec_zext h h₀
  | sext h₀ => exact kindSpec_sext h h₀ hw
  | concat h₀ h₁ => exact kindSpec_concat h₀ h₁ hw
  | select h₀ h₁ h₂ => exact kindSpec_select h h₀ h₁ h₂
  | @bin k _ _ _ _ h₀ h₁ =>
    cases k with
    | and => exact kindSpec_and h h₀ h₁
    | or => exact kindSpec_or h h₀ h₁
    | xor => exact kindSpec_xor h h₀ h₁
    | shl => exact kindSpec_shift rfl h h₀ h₁ (· <<< ·) (fun _ _ => rfl) (applyShl_spec h₀) fun σ hσ => (hb σ hσ).2.1
    | lshr => exact kindSpec_shift rfl h h₀ h₁ (· >>> ·) (fun _ _ => rfl) (applyLShr_spec h₀) fun σ hσ => (hb σ hσ).2.1
    | _ => exact .top h hk

/-! ## The recursion -/

/-- What a call returns. -/
structure Result (Γ : Set Assignment) (I : BitVec 64) (e : Expr) (r : Expr × BitsInfo) : Prop where
  agrees : e.Agrees Γ I r.1
  known : Known Γ e r.2
  covered : r.2.covered = true → r.2.ignoredBits = I
  narrow : e.getWidth ≤ 64

/-- The expressions that a run may meet. -/
structure Fine (Γ : Set Assignment) (e : Expr) : Prop where
  wf : e.WF
  inBounds : ∀ σ ∈ Γ, e.InBounds σ

theorem Fine.kid {k : Expr} (h : Fine Γ e) (hk : k ∈ e.kids) : Fine Γ k :=
  ⟨h.wf.kid hk, fun σ hσ => (h.inBounds σ hσ).kid hk⟩

theorem Fine.of_agrees (h : Fine Γ e) (ha : e.Agrees Γ I e') : Fine Γ e' :=
  ⟨ha.ok _ NodeCond.any_stable h.wf, fun σ hσ => ha.inBounds hσ (h.inBounds σ hσ)⟩

theorem Fine.createIsZero (h : Fine Γ e) (hw : e.getWidth = 1) : Fine Γ e.createIsZero :=
  have hs := Expr.createIsZero_simplifies h.wf hw
  ⟨hs.ok _ (h.wf.isZero hw), fun σ hσ => hs.ok _ ((h.inBounds σ hσ).isZero hw)⟩

/-- How a call on `e` with fuel `n` may stop. -/
def StopsOnly (Γ : Set Assignment) (e : Expr) (n : Nat) (t : Stop) : Prop :=
  t ≠ .refused → e.weight < n → ¬ e.Ok (.divisible Γ)

theorem replaceWithConstant_spec {E : Stop → Prop} (he : Fine Γ e) (hw : e.getWidth ≤ 64)
    (hk : ∀ σ ∈ Γ, KnowsOff b.ignoredBits b.knownOneBits b.knownZeroBits (e.eval σ e.getWidth))
    (hc : b.covered = true) : Triple (Cache.Sound Γ) (replaceWithConstant e b.knownOneBits)
      (fun e' => e.Agrees Γ b.ignoredBits e' ∧ e'.kids = []) E := by
  unfold replaceWithConstant
  split
  · rename_i hce
    refine .pure ⟨.refl e, ?_⟩
    cases e with
    | constant c => rfl
    | _ => cases hce
  · refine .bind (.modify (Q := fun _ => True) (fun _ h => (h.foldl_erase e.kids).erase e) trivial) fun _ _ => .pure ?_
    refine ⟨⟨rfl, fun P _ h => e.width_pos h.wf, fun σ hσ _ => ?_, e.weight_pos⟩, rfl⟩
    rw [zeroMask_eq, eval]
    simp only [APInt.ofNat, ofNat_toNat, setWidth_eq]
    exact (hk σ hσ).agreeOff hw (of_decide_eq_true hc)

section Step

variable {visit : Expr → BitVec 64 → SimplifyM (Expr × BitsInfo)} {n : Nat}

/-- The calls that a step makes are right. -/
def VisitSound (Γ : Set Assignment) (visit : Expr → BitVec 64 → SimplifyM (Expr × BitsInfo)) (n : Nat) : Prop :=
  ∀ e I, Fine Γ e → Triple (Cache.Sound Γ) (visit e I) (Result Γ I e) (StopsOnly Γ e n)

section

variable (hv : VisitSound Γ visit n) (he : Fine Γ e)

include hv he

theorem visitKid_spec : Triple (Cache.Sound Γ) (visitKid visit e) (fun k => k.Fresh Γ e) (StopsOnly Γ e n) := by
  unfold visitKid
  refine .bind (hv e 0#64 he) fun r hr => .pure ⟨?_, rfl⟩
  exact ⟨hr.agrees, hr.known, fun σ hσ => (hr.known.knows σ hσ).off _, hr.covered, hr.narrow⟩

theorem updateKid_spec (hk : k.Ok Γ e) :
    Triple (Cache.Sound Γ) (updateKid visit k) (k.Updated Γ) (StopsOnly Γ e n) := by
  have hke := he.of_agrees hk.agrees
  unfold updateKid
  split
  · rename_i hc
    refine (replaceWithConstant_spec hke (hk.agrees.width ▸ hk.narrow) (fun σ hσ => ?_) hc).conseq
      (fun e' he' => ⟨he'.1, fun heq => ?_⟩) fun _ h => h
    · rw [hk.agrees.width, hk.agrees.equiv.eval σ hσ (he.inBounds σ hσ)]
      exact hk.knowsOff σ hσ
    · have h0 := hk.covered (heq ▸ hc)
      rw [← heq] at h0
      rw [← h0]
      exact he'.1
  · split
    · rename_i hnew
      refine .bind ((hv k.expr k.bits.ignoredBits hke).conseq (fun _ h => h) fun t ht hr hn hd => ?_) fun r hr => .pure ?_
      · exact ht hr (lt_of_le_of_lt hk.agrees.weight hn) (hk.agrees.ok _ NodeCond.divisible_stable hd)
      · exact ⟨hr.agrees, fun heq => absurd (by rw [heq]; simp) hnew⟩
    · exact .pure ⟨.refl _, fun _ => .refl _⟩

theorem rebuildNode_spec {r : BitsInfo × List Kid} (hr : KindSpec Γ I e r) :
    Triple (Cache.Sound Γ) (rebuildNode visit e r.2) (e.Agrees Γ I) (StopsOnly Γ e (n + 1)) := by
  have hkids : ∀ k ∈ r.2, Triple (Cache.Sound Γ) (updateKid visit k) (k.Updated Γ) (StopsOnly Γ e (n + 1)) := by
    intro k hk
    obtain ⟨x, hx, hxk⟩ := forall₂_mem_right hr.kids hk
    refine (updateKid_spec hv (he.kid hx) hxk).conseq (fun _ h => h) fun t ht hr hn hd => ?_
    exact ht hr (lt_of_lt_of_le (Expr.weight_kid_lt hx) (Nat.le_of_lt_succ hn)) (hd.kid hx)
  unfold rebuildNode
  refine .bind (.mapM hkids) fun kids' hu => ?_
  split
  · exact .pure (.refl e)
  · have ha := hr.rebuilt kids' hu
    refine .lift ?_
    cases hc : e.rebuild kids' with
    | ok e' => exact ha.trans_simplifies (Expr.create_simplifies (he.of_agrees ha).wf hc)
    | error t =>
      intro _ _ hd
      obtain ⟨e', hc'⟩ := Expr.create_ok_of_divisible (ha.ok _ NodeCond.divisible_stable hd)
      rw [Expr.rebuild, hc'] at hc
      cases hc

end

/-- An expression of the weight of a constant has no kids. -/
theorem kids_of_agrees_constant (hc : e.isConstant = true) (ha : e.Agrees Γ I e') : e'.kids = [] := by
  have hw := ha.weight
  cases e with
  | constant c =>
    cases hc' : e'.isConstant with
    | true =>
      cases e' with
      | constant c' => rfl
      | _ => cases hc'
    | false =>
      have := Expr.one_lt_weight hc'
      simp only [Expr.weight] at hw
      omega
  | _ => cases hc

theorem improveNode_spec (hv : VisitSound Γ visit n) (he : Fine Γ e) (hw : e.getWidth ≤ 64) {r : BitsInfo × List Kid}
    (hr : KindSpec Γ I e r) :
    Triple (Cache.Sound Γ) (improveNode visit e r.1 r.2)
      (fun e' => e.Agrees Γ I e' ∧ (1 < e'.kids.length → r.1.covered = false)) (StopsOnly Γ e (n + 1)) := by
  unfold improveNode
  split
  · rename_i hc
    rw [Bool.and_eq_true] at hc
    refine (replaceWithConstant_spec he hw (fun σ hσ => (hr.known.knows σ hσ).off _) hc.2).conseq (fun e' h => ?_)
      fun _ h => h
    rw [hr.ignoredBits] at h
    exact ⟨h.1, fun hlen => by simp [h.2] at hlen⟩
  · rename_i hc
    refine (rebuildNode_spec hv he hr).conseq (fun e' ha => ⟨ha, fun hlen => ?_⟩) fun _ h => h
    cases hce : e.isConstant with
    | true => simp [kids_of_agrees_constant hce ha] at hlen
    | false => simpa [hce] using hc

theorem simplifyNode_spec (hΓ : Γ.Nonempty) (hv : VisitSound Γ visit n) (he : Fine Γ e) (hw : e.getWidth ≤ 64) :
    Triple (Cache.Sound Γ) (simplifyNode visit e I) (Result Γ I e) (StopsOnly Γ e (n + 1)) := by
  unfold simplifyNode
  refine .bind (.mapM fun k hk => (visitKid_spec hv (he.kid hk)).conseq (fun _ h => h) fun t ht hr hn hd => ?_)
    fun kids hkids => ?_
  · exact ht hr (lt_of_lt_of_le (Expr.weight_kid_lt hk) (Nat.le_of_lt_succ hn)) (hd.kid hk)
  have hr : KindSpec Γ I e (applyKind I e kids) := applyKind_spec he.wf he.inBounds hw hkids
  rw [if_pos (hr.known.valid hΓ)]
  refine .bind (improveNode_spec hv he hw hr) fun e' he' => ?_
  refine .bind (Q := fun _ => True) ?_ fun _ _ => .pure ⟨he'.1, hr.known, fun _ => hr.ignoredBits, hw⟩
  unfold remember
  split
  · rename_i hlen
    refine .modify (fun cache h => h.insert ⟨fun σ hσ => ?_, ?_, he'.2 hlen⟩) trivial
    · rw [hr.ignoredBits, he'.1.width]
      exact (hr.known.knows σ hσ).of_agreeOff (he'.1.agree σ hσ (he.inBounds σ hσ))
    · rw [he'.1.width]
      exact hr.known.fits
  · exact .pure trivial

end Step

theorem doSimplifyBits_spec (hΓ : Γ.Nonempty) : ∀ n, VisitSound Γ (doSimplifyBits admissible n) n
  | 0 => fun _ _ _ => .throw fun _ h => absurd h (Nat.not_lt_zero _)
  | n + 1 => by
    intro e I he
    unfold doSimplifyBits
    refine .get_bind fun cache hcache => ?_
    split
    · rename_i ha
      rw [admissible, Bool.and_eq_true, decide_eq_true_eq] at ha
      split
      · rename_i b hb
        rw [hb] at ha
        have hs := hcache.answer hb
        refine .pure ⟨.refl e, hs.known ha.1 ha.2, fun hc => ?_, ha.1⟩
        rw [hs.uncovered] at hc
        cases hc
      · exact simplifyNode_spec hΓ (doSimplifyBits_spec hΓ n) he ha.1
    · exact .throw fun h _ => absurd rfl h

/-! ## Runs -/

/-- The assignments under which every constant-array index of the arguments of a run is in bounds. -/
def assignments (es : List Expr) : Set Assignment := {σ | ∀ e ∈ es, e.InBounds σ}

theorem simplify_agrees (hΓ : Γ.Nonempty) (he : Fine Γ e) (hd : e.Ok (.divisible Γ)) :
    Triple (Cache.Sound Γ) (simplify admissible e) (e.Agrees Γ 0#64) (fun t => t = .refused) := by
  unfold simplify
  refine .bind ((doSimplifyBits_spec hΓ (e.weight + 1) e 0#64 he).conseq (fun _ h => h) fun t ht => ?_)
    fun r hr => .pure hr.agrees
  by_contra hne
  exact ht hne (Nat.lt_succ_self _) hd

theorem simplify_spec (hΓ : Γ.Nonempty) (he : Fine Γ e) (hd : e.Ok (.divisible Γ)) :
    Triple (Cache.Sound Γ) (simplify admissible e)
      (fun e' => e'.getWidth = e.getWidth ∧ ∀ σ ∈ Γ, e'.eval σ e.getWidth = e.eval σ e.getWidth)
      (fun t => t = .refused) :=
  (simplify_agrees hΓ he hd).conseq
    (fun _ h => ⟨h.width, fun σ hσ => h.equiv.eval σ hσ (he.inBounds σ hσ)⟩) fun _ h => h

/-- In a run that only meets expressions of at most 64 bits, and in which only clean entries answer, every call returns an
expression with the width and the value of its argument. -/
theorem simplifyAll_sound {es : List Expr} (hwf : ∀ e ∈ es, e.WF) (hΓ : (assignments es).Nonempty)
    (hd : ∀ e ∈ es, e.Ok (.divisible (assignments es))) (hrun : simplifyAll admissible es ≠ .error .refused) :
    ∃ es', simplifyAll allowAll es = .ok es' ∧
      List.Forall₂ (fun e e' => e'.getWidth = e.getWidth ∧
        ∀ σ ∈ assignments es, e'.eval σ e.getWidth = e.eval σ e.getWidth) es es' := by
  have hspec := Triple.mapM (I := Cache.Sound (assignments es)) fun e he =>
    simplify_spec hΓ ⟨hwf e he, fun σ hσ => hσ e he⟩ (hd e he)
  have hout := hspec.outcome (s := []) (fun _ h => nomatch h)
  cases hr : simplifyAll admissible es with
  | error t =>
    rw [show ((es.mapM (simplify admissible)).run []).map Prod.fst = .error t from hr] at hout
    exact absurd (hr.trans (congrArg _ hout)) hrun
  | ok es' => exact ⟨es', simplifyAll_refines hr, hout.of_ok hr⟩

end BitfieldSimplifier

end

namespace BitfieldSimplifier

/-! ## A stale entry -/

/-- The upper half of `y | z`. -/
def upperHalf : Expr := .bin .and (.bin .or (symbolicByte 0 "y") (symbolicByte 1 "z")) (.const 0xf0 8)

/-- The lower half of `(y | 0xf0) | z`. -/
def lowerHalf : Expr :=
  .bin .and (.bin .or (.bin .or (symbolicByte 0 "y") (.const 0xf0 8)) (symbolicByte 1 "z")) (.const 0x0f 8)

theorem upperHalf_ok (P : NodeCond) (hP : ∀ root i, P.read root i) : upperHalf.Ok P := by
  simp [upperHalf, symbolicByte, byteArray, Expr.Ok, Updates.Ok, getWidth, Expr.const, APInt.ofNat, BinKind.isDiv, hP]

/-- Two calls on one expression; the entry of the first answers in the second. -/
theorem simplifyAll_sound_upperHalf : simplifyAll admissible [upperHalf, upperHalf] ≠ .error .refused ∧
    ∃ es', simplifyAll allowAll [upperHalf, upperHalf] = .ok es' ∧
      List.Forall₂ (fun e e' => e'.getWidth = e.getWidth ∧
        ∀ σ ∈ assignments [upperHalf, upperHalf], e'.eval σ e.getWidth = e.eval σ e.getWidth)
        [upperHalf, upperHalf] es' := by
  have hok : ∀ P : NodeCond, (∀ root i, P.read root i) → ∀ e ∈ [upperHalf, upperHalf], e.Ok P := by
    intro P hP e he
    simp only [mem_cons, not_mem_nil, or_false, or_self] at he
    exact he ▸ upperHalf_ok P hP
  have hrun : simplifyAll admissible [upperHalf, upperHalf] ≠ .error .refused := by
    rw [show simplifyAll admissible [upperHalf, upperHalf] = .ok [upperHalf, upperHalf] from rfl]
    nofun
  exact ⟨hrun, simplifyAll_sound (hok _ fun _ _ => trivial)
    ⟨fun _ _ => 0, hok _ fun _ _ h => nomatch (h : false = true)⟩ (hok _ fun _ _ => trivial) hrun⟩

/-- The first call leaves an entry for `y | z` that records the upper half as set, because the call ignored it. The second
call reads it back. -/
theorem simplifyAll_stale : lowerHalf.WF ∧ upperHalf.WF ∧ simplifyAll allowAll [lowerHalf, upperHalf] =
      .ok [.bin .and (.bin .or (symbolicByte 0 "y") (symbolicByte 1 "z")) (.const 0x0f 8), .const 0xf0 8] ∧
    upperHalf.eval (fun _ _ => 0) 8 ≠ (Expr.const 0xf0 8).eval (fun _ _ => 0) 8 := by
  refine ⟨?_, upperHalf_ok _ fun _ _ => trivial, rfl, by decide⟩
  simp [lowerHalf, symbolicByte, byteArray, Expr.Ok, Updates.Ok, Expr.getWidth, Expr.const, APInt.ofNat, NodeCond.any]

end BitfieldSimplifier

end S2E.Klee
