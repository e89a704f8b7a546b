import S2E.Klee.Expr.Create
import S2E.Lib.Bisect

/-!
# `S2EExecutor::handleForkAndConcretize`

The loop that enumerates the values of a symbolic expression between two bounds.

* `eqCond`, `between` : the conditions that the loop asks the solver about.

All counters are of type `uint64_t`: the arithmetic is that of `BitVec 64`.
-/

namespace S2E.Qemu

open S2E.Klee List BitVec

section Model

variable [Options] (mayBeTrue : Expr → Bool) (expr : Expr)

def eqCond (v : BitVec 64) : Expr := EqExpr.create expr (.const v.toNat expr.getWidth)

/-- `lo <= expr && expr <= hi`. -/
def between (lo hi : BitVec 64) : Expr :=
  AndExpr.create (UgeExpr.create expr (.const lo.toNat expr.getWidth)) (UleExpr.create expr (.const hi.toNat expr.getWidth))

/-- `while(lo < hi)`. -/
def bisect : Nat → (lo hi mid : BitVec 64) → Option (BitVec 64)
  | 0, _, _, _ => none
  | fuel + 1, lo, hi, mid =>
    if lo < hi then
      if mayBeTrue (between expr lo mid) then bisect fuel lo mid (lo + (mid - lo) / 2#64)
      else bisect fuel (mid + 1#64) hi (mid + 1#64 + (hi - (mid + 1#64)) / 2#64)
    else some lo

/-- The search for the next value, and the step that led to it. -/
def search (max min lo hi mid : BitVec 64) : Option (BitVec 64 × BitVec 64) :=
  (bisect mayBeTrue expr (2 ^ 64 + 1) lo hi mid).map fun lo =>
    (lo, if lo + (lo - min) > max then max - lo else lo - min)

/-- The next `min` and the next `step`. `res` says whether `min` is feasible. -/
def next (max min step : BitVec 64) (res : Bool) : Option (BitVec 64 × BitVec 64) :=
  if res then
    -- The guess succeeded, it is worth trying the step again.
    if step = 1#64 then some (min + 1#64, step)
    else if mayBeTrue (between expr (min + 1#64) (min + step - 1#64)) then
      search mayBeTrue expr max min (min + 1#64) (min + step - 1#64)
        (min + 1#64 + (min + step - 1#64 - (min + 1#64)) / 2#64)
    else some (min + step, step)
  else search mayBeTrue expr max min (min + 1#64) max (min + step)

/-- What the loop collects. -/
structure Found where
  values : List (BitVec 64)
  conditions : List Expr

def Found.push (found : Found) (v : BitVec 64) : Found :=
  ⟨found.values ++ [v], found.conditions ++ [eqCond expr v]⟩

/-- `while(min <= max)`. -/
def enumerate (maxForksOnConcretize : Nat) (max : BitVec 64) : Nat → (min step : BitVec 64) → Found → Option Found
  | 0, _, _, _ => none
  | fuel + 1, min, step, found =>
    if min ≤ max then
      if maxForksOnConcretize ≤ found.conditions.length then some found
      else
        let res := mayBeTrue (eqCond expr min)
        let found := if res then found.push expr min else found
        if min = max then some found
        else
          match next mayBeTrue expr max min step res with
          | some (min, step) => enumerate maxForksOnConcretize max fuel min step found
          | none => none
    else some found

end Model

/-! ## The queries -/

theorem eval_const (v : BitVec 64) (σ : Assignment) : (Expr.const v.toNat 64).eval σ 64 = v := by
  simp only [Expr.eval, APInt.ofNat, ofNat_toNat, setWidth_eq]

theorem ofBool_eq_one {b : Bool} : ofBool b = 1#1 ↔ b = true := by cases b <;> decide

variable {expr : Expr} {lo max mid min : BitVec 64} {σ : Assignment}

theorem cmp_const_wf (k : CmpKind) {P : NodeCond} (he : expr.Ok P) (hw : expr.getWidth = 64) (v : BitVec 64) :
    (Expr.cmp k expr (.const v.toNat 64)).Ok P ∧ (Expr.cmp k (.const v.toNat 64) expr).Ok P :=
  ⟨⟨he, Nat.zero_lt_succ 63, hw.symm⟩, ⟨Nat.zero_lt_succ 63, he, hw⟩⟩

section Queries

variable [Options] {Γ : Set Assignment} {mayBeTrue : Expr → Bool} {expr : Expr}

/-- The solver answers exactly for the path constraints, which the assignments of `Γ` satisfy. -/
def Exact (Γ : Set Assignment) (mayBeTrue : Expr → Bool) : Prop := ∀ c, mayBeTrue c = true ↔ ∃ σ ∈ Γ, c.Holds σ

/-- The values that the expression can take. -/
def feasible (Γ : Set Assignment) (expr : Expr) : Set (BitVec 64) := {v | ∃ σ ∈ Γ, expr.eval σ 64 = v}

theorem eqCond_holds (hw : expr.getWidth = 64) (hb : expr.InBounds σ) (v : BitVec 64) :
    (eqCond expr v).Holds σ ↔ expr.eval σ 64 = v := by
  have hs := EqExpr.create_simplifies (cmp_const_wf .eq hb.wf hw v).1
  unfold eqCond
  rw [hw]
  show (EqExpr.create expr (.const v.toNat 64)).eval σ 1 = 1#1 ↔ _
  rw [hs.eval_at (w := 1) (cmp_const_wf .eq hb hw v).1 rfl, Expr.eval_cmp hw, eval_const, ofBool_eq_one]
  exact beq_iff_eq

theorem between_holds (hw : expr.getWidth = 64) (hb : expr.InBounds σ) (lo hi : BitVec 64) :
    (between expr lo hi).Holds σ ↔ lo ≤ expr.eval σ 64 ∧ expr.eval σ 64 ≤ hi := by
  have hlo := CmpKind.create_simplifies .ule (cmp_const_wf .ule hb.wf hw lo).2
  have hhi := CmpKind.create_simplifies .ule (cmp_const_wf .ule hb.wf hw hi).1
  have hand : ∀ P : NodeCond, expr.Ok P →
      (Expr.bin .and (CmpKind.create .ule (.const lo.toNat 64) expr) (CmpKind.create .ule expr (.const hi.toNat 64))).Ok P :=
    fun P hP => ⟨hlo.ok P (cmp_const_wf .ule hP hw lo).2, hhi.ok P (cmp_const_wf .ule hP hw hi).1,
      hhi.width.trans hlo.width.symm, fun h => nomatch h⟩
  have hs := AndExpr.create_simplifies (hand _ hb.wf)
  unfold between
  rw [hw]
  show (AndExpr.create (CmpKind.create .ule (.const lo.toNat 64) expr)
    (CmpKind.create .ule expr (.const hi.toNat 64))).eval σ 1 = 1#1 ↔ _
  rw [hs.eval_at (w := 1) (hand _ hb) hlo.width, Expr.eval, hlo.eval_at (w := 1) (cmp_const_wf .ule hb hw lo).2 rfl,
    hhi.eval_at (w := 1) (cmp_const_wf .ule hb hw hi).1 rfl, Expr.eval_cmp (w := 64) rfl, Expr.eval_cmp hw, eval_const, eval_const]
  have hbits : ∀ a b : Bool, ofBool a &&& ofBool b = 1#1 ↔ a = true ∧ b = true := by decide
  rw [BinKind.eval, hbits]
  simp only [CmpKind.eval, ule_iff_le]

variable (hw : expr.getWidth = 64) (hb : ∀ σ ∈ Γ, expr.InBounds σ) (hs : Exact Γ mayBeTrue)

include hw hb hs

theorem mayBeTrue_eqCond (v : BitVec 64) : mayBeTrue (eqCond expr v) = true ↔ v ∈ feasible Γ expr := by
  rw [hs]
  exact exists_congr fun σ => and_congr_right fun hσ => eqCond_holds hw (hb σ hσ) v

theorem mayBeTrue_between (lo hi : BitVec 64) :
    mayBeTrue (between expr lo hi) = true ↔ ∃ v ∈ feasible Γ expr, lo ≤ v ∧ v ≤ hi := by
  rw [hs]
  constructor
  · rintro ⟨σ, hσ, h⟩
    exact ⟨_, ⟨σ, hσ, rfl⟩, (between_holds hw (hb σ hσ) lo hi).1 h⟩
  · rintro ⟨_, ⟨σ, hσ, rfl⟩, h⟩
    exact ⟨σ, hσ, (between_holds hw (hb σ hσ) lo hi).2 h⟩

end Queries

/-! ## The loops -/

section Loops

variable {S : Set (BitVec 64)}

/-- No value of `S` is skipped on the way from `lo` to `lo'`. -/
def Skips (S : Set (BitVec 64)) (lo lo' : BitVec 64) : Prop := lo ≤ lo' ∧ ∀ v ∈ S, lo ≤ v → lo' ≤ v

theorem Skips.refl (lo : BitVec 64) : Skips S lo lo := ⟨BitVec.le_refl lo, fun _ _ h => h⟩

theorem Skips.trans {a b c : BitVec 64} (h₁ : Skips S a b) (h₂ : Skips S b c) : Skips S a c :=
  ⟨BitVec.le_trans h₁.1 h₂.1, fun v hv h => h₂.2 v hv (h₁.2 v hv h)⟩

theorem midpoint_bounds {hi : BitVec 64} (h : lo < hi) : lo ≤ lo + (hi - lo) / 2#64 ∧ lo + (hi - lo) / 2#64 < hi := by
  have hmid := Lib.toNat_midpoint h
  generalize lo + (hi - lo) / 2 = mid at hmid ⊢
  constructor <;> bv_omega

/-- What is kept of `min` and `step`: there is no next value to skip, and adding the step does not overflow. -/
structure Ready (max min step : BitVec 64) : Prop where
  pos : min < max → 1#64 ≤ step
  le : min < max → step ≤ max

theorem Ready.of_search (hlt : min < lo) :
    Ready max lo (if lo + (lo - min) > max then max - lo else lo - min) := by
  constructor
  · grind
  · grind

variable [Options] {mayBeTrue : Expr → Bool} {expr : Expr}

variable (hbetween : ∀ lo hi, mayBeTrue (between expr lo hi) = true ↔ ∃ v ∈ S, lo ≤ v ∧ v ≤ hi)

include hbetween

theorem skips_of_not_mayBeTrue (hle : lo ≤ mid) (hmid : mid.toNat + 1 < 2 ^ 64)
    (h : ¬ mayBeTrue (between expr lo mid) = true) : Skips S lo (mid + 1#64) := by
  constructor
  · bv_omega
  · grind

/-- The search once `mid` is between the two bounds. -/
theorem bisect_inside : ∀ (fuel : Nat) (lo hi mid : BitVec 64), hi.toNat - lo.toNat < fuel →
    (lo < hi → lo ≤ mid ∧ mid < hi) → ∃ lo', bisect mayBeTrue expr fuel lo hi mid = some lo' ∧ Skips S lo lo' := by
  intro fuel
  induction fuel with
  | zero => intro lo hi mid hfuel; exact absurd hfuel (Nat.not_lt_zero _)
  | succ fuel ih =>
    intro lo hi mid hfuel hmid
    unfold bisect
    by_cases hlt : lo < hi
    · obtain ⟨hlo, hhi⟩ := hmid hlt
      rw [if_pos hlt]
      by_cases hq : mayBeTrue (between expr lo mid) = true
      · rw [if_pos hq]
        exact ih lo mid _ (by bv_omega) midpoint_bounds
      · rw [if_neg hq]
        obtain ⟨lo', hr, hskip⟩ := ih (mid + 1#64) hi (mid + 1#64 + (hi - (mid + 1#64)) / 2#64) (by bv_omega)
          midpoint_bounds
        exact ⟨lo', hr, (skips_of_not_mayBeTrue hbetween hlo (by bv_omega) hq).trans hskip⟩
    · rw [if_neg hlt]
      exact ⟨lo, rfl, .refl lo⟩

/-- The search from any first guess, which may lie beyond the upper bound. -/
theorem bisect_spec (hi : BitVec 64) (hle : lo ≤ mid) (hmid : mid.toNat + 1 < 2 ^ 64) :
    ∃ lo', bisect mayBeTrue expr (2 ^ 64 + 1) lo hi mid = some lo' ∧ Skips S lo lo' := by
  unfold bisect
  by_cases hlt : lo < hi
  · rw [if_pos hlt]
    by_cases hq : mayBeTrue (between expr lo mid) = true
    · rw [if_pos hq]
      exact bisect_inside hbetween _ lo mid _ (by bv_omega) midpoint_bounds
    · rw [if_neg hq]
      obtain ⟨lo', hr, hskip⟩ := bisect_inside hbetween (2 ^ 64) (mid + 1#64) hi
        (mid + 1#64 + (hi - (mid + 1#64)) / 2#64) (by bv_omega) midpoint_bounds
      exact ⟨lo', hr, (skips_of_not_mayBeTrue hbetween hle hmid hq).trans hskip⟩
  · rw [if_neg hlt]
    exact ⟨lo, rfl, .refl lo⟩

theorem search_spec {hi : BitVec 64} (hlo : lo = min + 1#64) (hlt : min < max)
    (hmax : max.toNat < 2 ^ 63) (hle : lo ≤ mid) (hmid : mid.toNat + 1 < 2 ^ 64) :
    ∃ min' step', search mayBeTrue expr max min lo hi mid = some (min', step') ∧ Skips S (min + 1#64) min' ∧
      Ready max min' step' := by
  obtain ⟨lo', hr, hskip⟩ := bisect_spec hbetween hi hle hmid
  have hmin : min < lo' := by
    have := hskip.1
    bv_omega
  unfold search
  rw [hr]
  exact ⟨lo', _, rfl, hlo ▸ hskip, .of_search hmin⟩

theorem next_spec {step : BitVec 64} (hlt : min < max) (hmax : max.toNat < 2 ^ 63) (hr : Ready max min step)
    (res : Bool) :
    ∃ min' step', next mayBeTrue expr max min step res = some (min', step') ∧ Skips S (min + 1#64) min' ∧
      Ready max min' step' := by
  have hpos := hr.pos hlt
  have hle := hr.le hlt
  unfold next
  cases res with
  | false => exact search_spec hbetween rfl hlt hmax (by bv_omega) (by bv_omega)
  | true =>
    rw [if_pos rfl]
    by_cases hstep : step = 1#64
    · rw [if_pos hstep]
      exact ⟨_, _, rfl, .refl _, fun _ => hpos, fun _ => hle⟩
    · rw [if_neg hstep]
      have hbounds : min + 1#64 ≤ min + step - 1#64 := by bv_omega
      by_cases hq : mayBeTrue (between expr (min + 1#64) (min + step - 1#64)) = true
      · rw [if_pos hq]
        rcases eq_or_ne (min + 1#64) (min + step - 1#64) with heq | hne
        · rw [← heq]
          have hmid : min + 1#64 + (min + 1#64 - (min + 1#64)) / 2#64 = min + 1#64 := by
            rw [BitVec.sub_self, BitVec.zero_udiv, BitVec.add_zero]
          rw [hmid]
          exact search_spec hbetween rfl hlt hmax (BitVec.le_refl _) (by bv_omega)
        · have hmid := midpoint_bounds (show min + 1#64 < min + step - 1#64 by bv_omega)
          exact search_spec hbetween rfl hlt hmax hmid.1 (by bv_omega)
      · rw [if_neg hq]
        have hskip := skips_of_not_mayBeTrue hbetween hbounds (by bv_omega) hq
        have hadd : min + step - 1#64 + 1#64 = min + step := by bv_omega
        rw [hadd] at hskip
        exact ⟨_, _, rfl, hskip, fun _ => hpos, fun _ => hle⟩

end Loops

/-! ## What is collected -/

section Collected

variable [Options] {expr : Expr} {S : Set (BitVec 64)}

/-- The values of `S` from `start` up to `max` and below `min`, each once and in increasing order. -/
structure Collected (expr : Expr) (S : Set (BitVec 64)) (start max min : BitVec 64) (found : Found) : Prop where
  sorted : found.values.Pairwise (· < ·)
  mem : ∀ v, v ∈ found.values ↔ v ∈ S ∧ start ≤ v ∧ v ≤ max ∧ v < min
  conditions : found.conditions = found.values.map (eqCond expr)

variable {start max min min' : BitVec 64} {found : Found}

theorem Collected.empty (expr : Expr) (S : Set (BitVec 64)) (start max : BitVec 64) :
    Collected expr S start max start ⟨[], []⟩ where
  sorted := .nil
  mem v := by
    constructor
    · intro h
      cases h
    · grind
  conditions := rfl

/-- One round of the loop: `min` is tried and the values up to `min'` are skipped. -/
theorem Collected.round (h : Collected expr S start max min found) {res : Bool} (hres : res = true ↔ min ∈ S)
    (hstart : start ≤ min) (hle : min ≤ max) (hmax : max.toNat < 2 ^ 63) (hskip : Skips S (min + 1#64) min') :
    Collected expr S start max min' (if res then found.push expr min else found) := by
  have hlt : min < min' := by
    have := hskip.1
    bv_omega
  -- Below `min'` the only new value can be `min`.
  have hnew : ∀ v ∈ S, v < min' ↔ v < min ∨ v = min := by
    intro v hv
    have hs := hskip.2 v hv
    constructor
    · grind
    · rintro (h | rfl)
      · exact BitVec.lt_trans h hlt
      · exact hlt
  cases res with
  | false =>
    refine ⟨h.sorted, fun v => (h.mem v).trans ?_, h.conditions⟩
    refine and_congr_right fun hv => ?_
    rw [hnew v hv, or_iff_left]
    rintro rfl
    exact absurd (hres.2 hv) (by decide)
  | true =>
    have hmin := hres.1 rfl
    refine ⟨?_, fun v => ?_, ?_⟩
    · show (found.values ++ [min]).Pairwise (· < ·)
      rw [pairwise_append]
      refine ⟨h.sorted, pairwise_singleton _ _, fun v hv m hm => ?_⟩
      rw [mem_singleton.1 hm]
      exact ((h.mem v).1 hv).2.2.2
    · show v ∈ found.values ++ [min] ↔ _
      rw [mem_append, mem_singleton, h.mem v]
      constructor
      · rintro (⟨hv, h₁, h₂, h₃⟩ | rfl)
        · exact ⟨hv, h₁, h₂, BitVec.lt_trans h₃ hlt⟩
        · exact ⟨hmin, hstart, hle, hlt⟩
      · grind
    · show found.conditions ++ [eqCond expr min] = (found.values ++ [min]).map (eqCond expr)
      rw [map_append, h.conditions]
      rfl

theorem Collected.length_le (h : Collected expr S start max min found) :
    found.conditions.length ≤ {v ∈ S | start ≤ v ∧ v ≤ max}.ncard := by
  have hnodup : found.values.Nodup := by
    refine h.sorted.imp fun {a b} hlt heq => ?_
    rw [heq] at hlt
    exact BitVec.lt_irrefl b hlt
  have hfinite : Finite (BitVec 64) := Finite.of_injective toFin fun _ _ h => eq_of_toFin_eq h
  rw [h.conditions, length_map, ← toFinset_card_of_nodup hnodup, ← Set.ncard_coe_finset]
  apply Set.ncard_le_ncard _ (Set.toFinite _)
  intro v hv
  have hv := (h.mem v).1 (mem_toFinset.1 hv)
  exact ⟨hv.1, hv.2.1, hv.2.2.1⟩

end Collected

theorem enumerate_spec [Options] {mayBeTrue : Expr → Bool} {S : Set (BitVec 64)} {start : BitVec 64}
    {forks : Nat} (heq : ∀ v, mayBeTrue (eqCond expr v) = true ↔ v ∈ S)
    (hbetween : ∀ lo hi, mayBeTrue (between expr lo hi) = true ↔ ∃ v ∈ S, lo ≤ v ∧ v ≤ hi)
    (hmax : max.toNat < 2 ^ 63) (hforks : {v ∈ S | start ≤ v ∧ v ≤ max}.ncard < forks) :
    ∀ (fuel : Nat) (min step : BitVec 64) (found : Found), max.toNat + 1 - min.toNat < fuel → start ≤ min →
      Ready max min step → Collected expr S start max min found →
      ∃ min' found', enumerate mayBeTrue expr forks max fuel min step found = some found' ∧ max < min' ∧
        Collected expr S start max min' found' := by
  intro fuel
  induction fuel with
  | zero => intro min step found hfuel; exact absurd hfuel (Nat.not_lt_zero _)
  | succ fuel ih =>
    intro min step found hfuel hstart hready hc
    unfold enumerate
    by_cases hle : min ≤ max
    · rw [if_pos hle, if_neg (Nat.not_le.2 (lt_of_le_of_lt hc.length_le hforks))]
      by_cases hlast : min = max
      · simp only [if_pos hlast]
        exact ⟨min + 1#64, _, rfl, by bv_omega, hc.round (heq min) hstart hle hmax (.refl _)⟩
      · simp only [if_neg hlast]
        obtain ⟨min', step', hnext, hskip, hready'⟩ :=
          next_spec hbetween (show min < max by bv_omega) hmax hready (mayBeTrue (eqCond expr min))
        rw [hnext]
        have hlt : min < min' := by
          have := hskip.1
          bv_omega
        exact ih min' step' _ (by bv_omega) (by bv_omega) hready' (hc.round (heq min) hstart hle hmax hskip)
    · grind

/-- With an exact solver, and fewer feasible values between the bounds than forks are allowed, the loop ends and has
collected exactly those values, each once and in increasing order. -/
theorem enumerate_exact [Options] {Γ : Set Assignment} {mayBeTrue : Expr → Bool} {expr : Expr} {min max : BitVec 64}
    {maxForksOnConcretize : Nat} (hw : expr.getWidth = 64) (hb : ∀ σ ∈ Γ, expr.InBounds σ) (hs : Exact Γ mayBeTrue)
    (hmax : max.toNat < 2 ^ 63)
    (hforks : {v ∈ feasible Γ expr | min ≤ v ∧ v ≤ max}.ncard < maxForksOnConcretize) {fuel : Nat}
    (hfuel : max.toNat + 1 - min.toNat < fuel) :
    ∃ found, enumerate mayBeTrue expr maxForksOnConcretize max fuel min 1#64 ⟨[], []⟩ = some found ∧
      found.values.Pairwise (· < ·) ∧ (∀ v, v ∈ found.values ↔ v ∈ feasible Γ expr ∧ min ≤ v ∧ v ≤ max) ∧
      found.conditions = found.values.map (eqCond expr) := by
  have hready : Ready max min 1#64 := by
    constructor
    · grind
    · intro h
      bv_omega
  obtain ⟨min', found, hrun, hlast, hc⟩ := enumerate_spec (mayBeTrue_eqCond hw hb hs) (mayBeTrue_between hw hb hs) hmax
    hforks fuel min 1#64 ⟨[], []⟩ hfuel (BitVec.le_refl min) hready (.empty expr _ min max)
  refine ⟨found, hrun, hc.sorted, fun v => (hc.mem v).trans ?_, hc.conditions⟩
  constructor
  · grind
  · grind

/-! ## An instance -/

open Classical in
/-- An exact solver. -/
noncomputable def exactSolver (Γ : Set Assignment) (c : Expr) : Bool := decide (∃ σ ∈ Γ, c.Holds σ)

open Classical in
theorem exactSolver_exact (Γ : Set Assignment) : Exact Γ (exactSolver Γ) := fun _ => decide_eq_true_iff

/-- A symbolic byte, widened. -/
def symbolicWord : Expr := .zext (symbolicByte 0 "x") 64

theorem enumerate_exact_symbolicWord :
    ∃ found, enumerate (exactSolver Set.univ) symbolicWord 5 3#64 5 0#64 1#64 ⟨[], []⟩ = some found ∧
      found.values.Pairwise (· < ·) ∧
      (∀ v, v ∈ found.values ↔ v ∈ feasible Set.univ symbolicWord ∧ 0#64 ≤ v ∧ v ≤ 3#64) ∧
      found.conditions = found.values.map (eqCond symbolicWord) := by
  have hb : ∀ σ ∈ Set.univ, symbolicWord.InBounds σ :=
    fun σ _ => ⟨symbolicByte_inBounds σ 0 "x", (by decide : 8 ≤ 64)⟩
  have hforks : {v ∈ feasible Set.univ symbolicWord | 0#64 ≤ v ∧ v ≤ 3#64}.ncard < 5 := by
    have hsub : {v ∈ feasible Set.univ symbolicWord | 0#64 ≤ v ∧ v ≤ 3#64} ⊆
        (({0#64, 1#64, 2#64, 3#64} : Finset (BitVec 64)) : Set (BitVec 64)) := by grind
    refine lt_of_le_of_lt (Set.ncard_le_ncard hsub (Finset.finite_toSet _)) ?_
    rw [Set.ncard_coe_finset]
    decide
  exact enumerate_exact rfl hb (exactSolver_exact _) (by decide) hforks (by decide)

/-- The value is 1 where the index is beyond the array, and the loop does not find it. -/
theorem enumerate_misses_value : let Γ : Set Assignment := {fun _ _ => 1}
    1#64 ∈ feasible Γ (.zext tableByte 64) ∧
      @enumerate ⟨true, true⟩ (exactSolver Γ) (.zext tableByte 64) 5 1#64 2 1#64 1#64 ⟨[], []⟩ = some ⟨[], []⟩ := by
  have hcond : @eqCond ⟨true, true⟩ (.zext tableByte 64) 1#64 = .const 0 1 := eq_tableByte (.inr rfl)
  have hno (Γ : Set Assignment) : exactSolver Γ (.const 0 1) = false := by simp [exactSolver, Expr.eval, APInt.ofNat]
  refine ⟨⟨_, rfl, rfl⟩, ?_⟩
  simp [enumerate, hcond, hno]

end S2E.Qemu
