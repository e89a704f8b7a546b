import S2E.Klee.Expr.APInt
import S2E.Lib.Triple

/-!
# `SymbolicHardwareState`: symbolic device memory

* `PageBitmap`, `setMmioRange`, `isMmio` : the source. `PageBitmap::set` begins with an empty bitmap each time, so that
  what the page held before is lost. Pages are kept by their number, and no sum of an address and a size wraps around;
* `Call.lastSet` : what the calls in a state's history say about a byte, the newest call first;
* `Call.Intact` : no call touches the page of a byte after the last one that covers it;
* `mmio_right_iff` : the queries are answered right if and only if the bytes that are symbolic are intact.
-/

namespace S2E.Plugins.SymbolicHardwareState
open Function List
open S2E.Klee (Trap)
open S2E.Lib

/-! ## Pages -/

def isAllZeros (bits : Nat → Bool) : Bool := (range 0x1000).all fun i => !bits i

def isAllOnes (bits : Nat → Bool) : Bool := (range 0x1000).all bits

structure PageBitmap where
  fullySymbolic : Bool
  bitmap : Option (Nat → Bool)

namespace PageBitmap

def new : PageBitmap := ⟨false, none⟩

def isFullyConcrete (p : PageBitmap) : Bool :=
  if !p.fullySymbolic then
    match p.bitmap with
    | none => true
    | some bits => isAllZeros bits
  else false

def hasSymbolic (p : PageBitmap) : Bool := !p.isFullyConcrete

/-- The new page, and whether it is fully concrete. -/
def set (_ : PageBitmap) (offset length : Nat) (b : Bool) : Except Trap (Bool × PageBitmap) :=
  if offset ≤ 0x1000 ∧ offset + length ≤ 0x1000 then
    -- allocateBitmap(NULL)
    let bits := (range' offset length).foldl (fun bits i => update bits i b) fun _ => false
    if isAllOnes bits then .ok (false, ⟨true, none⟩)
    else if isAllZeros bits then .ok (true, ⟨false, none⟩)
    else .ok (false, ⟨false, some bits⟩)
  else .error .assertFailed

def get (p : PageBitmap) (offset : Nat) : Except Trap Bool :=
  if offset < 0x1000 then
    if p.fullySymbolic then .ok true
    else if p.isFullyConcrete then .ok true
    else
      match p.bitmap with
      | none => .error .assertFailed
      | some bits => .ok (bits offset)
  else .error .assertFailed

/-- The byte is symbolic. -/
def At (p : PageBitmap) (offset : Nat) : Prop := p.fullySymbolic = true ∨ ∃ bits, p.bitmap = some bits ∧ bits offset = true

theorem foldl_update (b : Bool) (length offset : Nat) (bits : Nat → Bool) (i : Nat) :
    (range' offset length).foldl (fun bits i => update bits i b) bits i =
      if offset ≤ i ∧ i < offset + length then b else bits i := by
  induction length generalizing offset bits with
  | zero => rw [if_neg (by omega)]; rfl
  | succ length ih =>
    rw [range'_succ, foldl_cons, ih, update_apply]
    split_ifs <;> first | rfl | omega

theorem set_spec (p : PageBitmap) {offset length : Nat} (b : Bool) (h : offset + length ≤ 0x1000) :
    ∃ fc p', p.set offset length b = .ok (fc, p') ∧ (fc = true ↔ ∀ i < 0x1000, ¬ p'.At i) ∧
      ∀ i < 0x1000, p'.At i ↔ b = true ∧ offset ≤ i ∧ i < offset + length := by
  have hbit (i : Nat) := foldl_update b length offset (fun _ => false) i
  unfold set
  rw [if_pos ⟨by omega, h⟩]
  generalize (range' offset length).foldl (fun bits i => update bits i b) (fun _ => false) = bits at hbit ⊢
  have hset (i : Nat) : bits i = true ↔ b = true ∧ offset ≤ i ∧ i < offset + length := by grind
  simp only [← hset]
  split_ifs with hones hzeros
  · simp only [isAllOnes, all_eq_true, mem_range] at hones
    refine ⟨_, _, rfl, ?_, fun i hi => ?_⟩
    · simp only [Bool.false_eq_true, false_iff]
      exact fun h => h 0 (by decide) (.inl rfl)
    · exact iff_of_true (.inl rfl) (hones i hi)
  · simp only [isAllZeros, all_eq_true, mem_range, Bool.not_eq_true'] at hzeros
    refine ⟨_, _, rfl, ?_, fun i hi => ?_⟩
    · simp [At]
    · simp [At, hzeros i hi]
  · simp only [isAllZeros, all_eq_true, mem_range, Bool.not_eq_true'] at hzeros
    refine ⟨_, _, rfl, ?_, fun i hi => ?_⟩
    · simpa [At] using hzeros
    · simp [At]

variable {p : PageBitmap} {i : Nat}

theorem hasSymbolic_of_at (hi : i < 0x1000) (h : p.At i) : p.hasSymbolic = true := by
  unfold hasSymbolic isFullyConcrete
  obtain hfull | ⟨bits, hbits, hbit⟩ := h
  · simp [hfull]
  · cases hf : p.fullySymbolic with
    | true => rfl
    | false =>
      simp only [hbits, Bool.not_false, if_true, Bool.not_eq_true', isAllZeros, all_eq_false, mem_range]
      exact ⟨i, hi, by simp [hbit]⟩

/-- A page with a symbolic byte is not the one for which `get` returns true too early. -/
theorem get_spec (h : p.hasSymbolic = true) (hi : i < 0x1000) : ∃ b, p.get i = .ok b ∧ (b = true ↔ p.At i) := by
  have hc : p.isFullyConcrete = false := by simpa [hasSymbolic] using h
  unfold get
  rw [if_pos hi, hc, if_neg Bool.false_ne_true]
  cases hf : p.fullySymbolic with
  | true => exact ⟨true, rfl, iff_of_true rfl (.inl hf)⟩
  | false =>
    cases hb : p.bitmap with
    | none => simp [isFullyConcrete, hf, hb] at hc
    | some bits => exact ⟨bits i, rfl, by simp [At, hf, hb]⟩

end PageBitmap

/-! ## Ranges -/

/-- `m_MmioMemory`, by the numbers of the pages. -/
abbrev MemoryRanges := Nat → Option PageBitmap

def setFrom : Nat → Nat → Nat → Bool → MemoryRanges → Except Trap MemoryRanges
  | fuel, addr, size, b, m =>
    if size = 0 then .ok m
    else
      match fuel with
      | 0 => .error .outOfFuel
      | fuel + 1 =>
        let page := addr / 0x1000
        if (m page).isNone ∧ b = false then
          let leftover := 0x1000 - addr % 0x1000
          setFrom fuel (addr + leftover) (size - if leftover > size then size else leftover) b m
        else do
          let offset := addr % 0x1000
          let mysize := if offset + size > 0x1000 then 0x1000 - offset else size
          let r ← ((m page).getD .new).set offset mysize b
          let m := update m page (if r.1 then none else some r.2)
          setFrom fuel (addr + mysize) (size - mysize) b m

def setMmioRange (physbase size : Nat) (b : Bool) (m : MemoryRanges) : Except Trap MemoryRanges :=
  setFrom size physbase size b m

def isMmioFrom (m : MemoryRanges) : Nat → Nat → Nat → Except Trap Bool
  | fuel, physaddr, size =>
    if size = 0 then .ok false
    else
      match fuel with
      | 0 => .error .outOfFuel
      | fuel + 1 =>
        match m (physaddr / 0x1000) with
        | none =>
          let leftover := 0x1000 - physaddr % 0x1000
          isMmioFrom m fuel (physaddr + leftover) (size - if leftover > size then size else leftover)
        | some p =>
          if physaddr % 0x1000 = 0 ∧ size ≥ 0x1000 then
            if p.hasSymbolic then .ok true else isMmioFrom m fuel (physaddr + 0x1000) (size - 0x1000)
          else do
            let b ← p.get (physaddr % 0x1000)
            if b then .ok true else isMmioFrom m fuel (physaddr + 1) (size - 1)

def isMmio (m : MemoryRanges) (physaddr size : Nat) : Except Trap Bool := isMmioFrom m size physaddr size

/-- The byte at the address is symbolic. -/
def SymbolicAt (m : MemoryRanges) (x : Nat) : Prop := ∃ p, m (x / 0x1000) = some p ∧ p.At (x % 0x1000)

/-- A page is kept only as long as it has a symbolic byte. -/
def NoEmptyPage (m : MemoryRanges) : Prop := ∀ k p, m k = some p → ∃ i < 0x1000, p.At i

section Ranges

variable {m : MemoryRanges} {addr size : Nat}

theorem sub_leftover (size k : Nat) : (size - if k > size then size else k) = size - k := by
  split_ifs <;> omega

/-- A symbolic byte of the range, where the first `k` bytes have none. -/
theorem exists_symbolic_skip {k : Nat} (hk : ∀ x, addr ≤ x → x < addr + k → x < addr + size → ¬ SymbolicAt m x) :
    (∃ x, addr + k ≤ x ∧ x < addr + k + (size - k) ∧ SymbolicAt m x) ↔
      ∃ x, addr ≤ x ∧ x < addr + size ∧ SymbolicAt m x := by
  constructor
  · grind
  · grind

theorem isMmioFrom_spec (hm : NoEmptyPage m) {fuel : Nat} (addr size : Nat) (hf : size ≤ fuel) :
    ∃ b, isMmioFrom m fuel addr size = .ok b ∧ (b = true ↔ ∃ x, addr ≤ x ∧ x < addr + size ∧ SymbolicAt m x) := by
  induction fuel generalizing addr size with
  | zero =>
    obtain rfl : size = 0 := by omega
    exact ⟨false, rfl, by simp; omega⟩
  | succ fuel ih =>
    by_cases hsize : size = 0
    · subst hsize
      exact ⟨false, rfl, by simp; omega⟩
    rw [isMmioFrom, if_neg hsize]
    cases hp : m (addr / 0x1000) with
    | none =>
      obtain ⟨b, hb, hiff⟩ := ih (addr + (0x1000 - addr % 0x1000)) (size - (0x1000 - addr % 0x1000)) (by omega)
      simp only [sub_leftover]
      refine ⟨b, hb, hiff.trans (exists_symbolic_skip ?_)⟩
      rintro x hle hlt - ⟨p, hx, -⟩
      rw [show x / 0x1000 = addr / 0x1000 by omega, hp] at hx
      cases hx
    | some p =>
      obtain ⟨i, hi, hat⟩ := hm _ _ hp
      have hsym := PageBitmap.hasSymbolic_of_at hi hat
      simp only [hsym, if_true]
      split_ifs with hpage
      · refine ⟨true, rfl, iff_of_true rfl ⟨addr / 0x1000 * 0x1000 + i, by omega, by omega, p, ?_, ?_⟩⟩
        · rw [show (addr / 0x1000 * 0x1000 + i) / 0x1000 = addr / 0x1000 by omega, hp]
        · rwa [show (addr / 0x1000 * 0x1000 + i) % 0x1000 = i by omega]
      · obtain ⟨b, hb, hiff⟩ := PageBitmap.get_spec hsym (Nat.mod_lt addr (by decide : 0 < 0x1000))
        rw [hb, ok_bind]
        cases b with
        | true => exact ⟨true, rfl, iff_of_true rfl ⟨addr, le_rfl, by omega, p, hp, hiff.1 rfl⟩⟩
        | false =>
          obtain ⟨b, hb, hrest⟩ := ih (addr + 1) (size - 1) (by omega)
          refine ⟨b, hb, hrest.trans (exists_symbolic_skip ?_)⟩
          rintro x hle hlt - ⟨q, hq, hx⟩
          obtain rfl : x = addr := by omega
          cases hp.symm.trans hq
          exact Bool.false_ne_true (hiff.2 hx)

/-- The page of the byte has bytes of the range. -/
def Touches (addr size x : Nat) : Prop :=
  0 < size ∧ addr / 0x1000 ≤ x / 0x1000 ∧ x / 0x1000 ≤ (addr + size - 1) / 0x1000

instance (addr size x : Nat) : Decidable (Touches addr size x) := inferInstanceAs (Decidable (_ ∧ _ ∧ _))

/-- One page is replaced. -/
theorem update_spec (hm : NoEmptyPage m) {k : Nat} {fc : Bool} {p : PageBitmap}
    (hfc : fc = true ↔ ∀ i < 0x1000, ¬ p.At i) :
    NoEmptyPage (update m k (if fc then none else some p)) ∧
      ∀ x, SymbolicAt (update m k (if fc then none else some p)) x ↔
        if x / 0x1000 = k then p.At (x % 0x1000) else SymbolicAt m x := by
  constructor
  · intro j q hq
    by_cases hj : j = k
    · subst hj
      rw [update_self] at hq
      cases fc with
      | true => cases hq
      | false => grind
    · rw [update_of_ne hj] at hq
      exact hm j q hq
  · intro x
    unfold SymbolicAt
    by_cases hk : x / 0x1000 = k
    · subst hk
      rw [update_self, if_pos rfl]
      cases fc with
      | true => exact iff_of_false (by simp) (hfc.1 rfl _ (Nat.mod_lt _ (by decide)))
      | false => simp
    · rw [update_of_ne hk, if_neg hk]

/-- A call replaces the pages that it touches. -/
theorem setFrom_spec (hm : NoEmptyPage m) (b : Bool) {fuel : Nat} (addr size : Nat) (hf : size ≤ fuel) :
    ∃ m', setFrom fuel addr size b m = .ok m' ∧ NoEmptyPage m' ∧ ∀ x, SymbolicAt m' x ↔
      if Touches addr size x then b = true ∧ addr ≤ x ∧ x < addr + size else SymbolicAt m x := by
  induction fuel generalizing addr size m with
  | zero =>
    obtain rfl : size = 0 := by omega
    exact ⟨m, rfl, hm, fun x => by simp [Touches]⟩
  | succ fuel ih =>
    by_cases hsize : size = 0
    · subst hsize
      exact ⟨m, rfl, hm, fun x => by simp [Touches]⟩
    rw [setFrom, if_neg hsize]
    by_cases hskip : (m (addr / 0x1000)).isNone ∧ b = false
    · obtain ⟨m', hm', hno, hiff⟩ := ih hm (addr + (0x1000 - addr % 0x1000))
        (size - (0x1000 - addr % 0x1000)) (by omega)
      simp only [if_pos hskip, sub_leftover]
      refine ⟨m', hm', hno, fun x => (hiff x).trans ?_⟩
      have habsent (h : x / 0x1000 = addr / 0x1000) : ¬ SymbolicAt m x := by
        rintro ⟨p, hp, -⟩
        rw [h] at hp
        simp [hp] at hskip
      simp only [Touches, hskip.2, Bool.false_eq_true, false_and]
      split_ifs with h₁ h₂ h₂
      · rfl
      · omega
      · exact iff_of_false (habsent (by omega)) id
      · rfl
    · simp only [if_neg hskip]
      generalize hmy : (if addr % 0x1000 + size > 0x1000 then 0x1000 - addr % 0x1000 else size) = mysize
      have hpos : 0 < mysize ∧ mysize ≤ size ∧ addr % 0x1000 + mysize ≤ 0x1000 ∧
          (mysize = size ∨ addr % 0x1000 + mysize = 0x1000) := by grind
      obtain ⟨fc, p, hset, hfc, hat⟩ := PageBitmap.set_spec ((m (addr / 0x1000)).getD .new) b hpos.2.2.1
      obtain ⟨hno₁, hiff₁⟩ := update_spec hm (k := addr / 0x1000) hfc
      obtain ⟨m', hm', hno, hiff⟩ := ih hno₁ (addr + mysize) (size - mysize) (by omega)
      rw [hset, ok_bind]
      refine ⟨m', hm', hno, fun x => (hiff x).trans ?_⟩
      rw [hiff₁, hat _ (Nat.mod_lt _ (by decide))]
      by_cases hpage : x / 0x1000 = addr / 0x1000
      · have hrest : ¬ Touches (addr + mysize) (size - mysize) x := by
          unfold Touches
          omega
        have hall : Touches addr size x := by
          unfold Touches
          omega
        rw [if_neg hrest, if_pos hpage, if_pos hall]
        apply and_congr_right
        omega
      · have hsame : Touches (addr + mysize) (size - mysize) x ↔ Touches addr size x := by
          unfold Touches
          omega
        simp only [if_neg hpage, hsame]
        split_ifs with hall
        · grind
        · rfl

end Ranges

/-! ## Histories -/

/-- The arguments of a call of `setMmioRange`. -/
structure Call where
  physbase : Nat
  size : Nat
  b : Bool
  no_wrap : physbase + size < 2 ^ 64
deriving DecidableEq

namespace Call

def Covers (c : Call) (x : Nat) : Prop := c.physbase ≤ x ∧ x < c.physbase + c.size

def TouchesPage (c : Call) (x : Nat) : Prop := Touches c.physbase c.size x

instance (c : Call) (x : Nat) : Decidable (c.Covers x) := inferInstanceAs (Decidable (_ ∧ _))

/-- The byte was last set symbolic. The newest call is the first. -/
def LastSet : List Call → Nat → Prop
  | [], _ => False
  | c :: calls, x => if c.Covers x then c.b = true else LastSet calls x

/-- No call touches the page of the byte after the last one that covers it. -/
def Intact : List Call → Nat → Prop
  | [], _ => True
  | c :: calls, x => c.Covers x ∨ ¬ c.TouchesPage x ∧ Intact calls x

end Call

/-- What the plugin states do: a call in one of them, and a clone. -/
inductive Op
  | setMmioRange (i : Nat) (c : Call)
  | clone (i : Nat)

/-- A plugin state, and the calls that were made in it or in what it was cloned from. -/
structure Recorded where
  ranges : MemoryRanges
  history : List Call

def Op.exec (states : List Recorded) : Op → Except Trap (List Recorded)
  | .setMmioRange i c =>
    match states[i]? with
    | none => .ok states
    | some s => do
      let m ← SymbolicHardwareState.setMmioRange c.physbase c.size c.b s.ranges
      .ok (states.set i ⟨m, c :: s.history⟩)
  | .clone i => .ok (states ++ states[i]?.toList)

/-- A plugin state that holds what its history leaves of it. -/
structure Recorded.Sound (s : Recorded) : Prop where
  noEmptyPage : NoEmptyPage s.ranges
  symbolic : ∀ x, SymbolicAt s.ranges x ↔ Call.LastSet s.history x ∧ Call.Intact s.history x
  covered : ∀ x, Call.LastSet s.history x → x + 1 < 2 ^ 64

theorem Op.exec_sound {states : List Recorded} (h : ∀ s ∈ states, s.Sound) (op : Op) :
    ∃ states', op.exec states = .ok states' ∧ ∀ s ∈ states', s.Sound := by
  cases op with
  | clone i =>
    refine ⟨_, rfl, fun s hs => ?_⟩
    rcases mem_append.1 hs with hs | hs
    · exact h s hs
    · exact h s (mem_of_getElem? (Option.mem_toList.1 hs))
  | setMmioRange i c =>
    cases hi : states[i]? with
    | none => exact ⟨states, by simp only [exec, hi], h⟩
    | some s =>
      have hs := h s (mem_of_getElem? hi)
      obtain ⟨m, hm, hno, hiff⟩ := setFrom_spec hs.noEmptyPage c.b c.physbase c.size le_rfl
      refine ⟨states.set i ⟨m, c :: s.history⟩, by simp only [exec, hi, SymbolicHardwareState.setMmioRange, hm, ok_bind],
        fun s' hs' => ?_⟩
      rcases mem_or_eq_of_mem_set hs' with hs' | rfl
      · exact h s' hs'
      · refine ⟨hno, fun x => ?_, fun x hx => ?_⟩
        · rw [hiff, hs.symbolic]
          have hcov : c.Covers x → Touches c.physbase c.size x := fun hc => by
            unfold Call.Covers at hc
            unfold Touches
            omega
          show _ ↔ (if c.Covers x then c.b = true else Call.LastSet s.history x) ∧
            (c.Covers x ∨ ¬ Touches c.physbase c.size x ∧ Call.Intact s.history x)
          by_cases hc : c.Covers x
          · rw [if_pos (hcov hc), if_pos hc, and_iff_left (Or.inl hc)]
            exact and_iff_left hc
          · rw [if_neg hc]
            by_cases ht : Touches c.physbase c.size x
            · rw [if_pos ht]
              exact iff_of_false (fun h => hc h.2) fun h => h.2.elim hc fun h => h.1 ht
            · rw [if_neg ht, or_iff_right hc, and_iff_right ht]
        · have hx : if c.Covers x then c.b = true else Call.LastSet s.history x := hx
          split_ifs at hx with hc
          · have := c.no_wrap
            unfold Call.Covers at hc
            omega
          · exact hs.covered x hx

/-- All operations, from one plugin state without symbolic memory. -/
def run (ops : List Op) : Except Trap (List Recorded) :=
  ops.foldlM (fun states op => op.exec states) [⟨fun _ => none, []⟩]

/-- The queries about a state are answered right. -/
def Recorded.Right (s : Recorded) : Prop :=
  ∀ addr size, addr + size < 2 ^ 64 → ∃ b, isMmio s.ranges addr size = .ok b ∧
    (b = true ↔ ∃ x, addr ≤ x ∧ x < addr + size ∧ Call.LastSet s.history x)

theorem Recorded.Sound.right_iff {s : Recorded} (h : s.Sound) :
    s.Right ↔ ∀ x, Call.LastSet s.history x → Call.Intact s.history x := by
  constructor
  · intro hr x hx
    obtain ⟨b, hb, hlast⟩ := hr x 1 (h.covered x hx)
    obtain ⟨b', hb', hsym⟩ := isMmioFrom_spec h.noEmptyPage x 1 le_rfl
    cases hb.symm.trans hb'
    obtain ⟨y, hle, hlt, hy⟩ := hsym.1 (hlast.2 ⟨x, le_rfl, Nat.lt_succ_self x, hx⟩)
    obtain rfl : y = x := by omega
    exact ((h.symbolic y).1 hy).2
  · intro hi addr size _
    obtain ⟨b, hb, hsym⟩ := isMmioFrom_spec h.noEmptyPage addr size le_rfl
    refine ⟨b, hb, hsym.trans (exists_congr fun x => and_congr_right fun _ => and_congr_right fun _ => ?_)⟩
    rw [h.symbolic]
    exact and_iff_left_of_imp (hi x)

theorem foldlM_sound (ops : List Op) {states : List Recorded} (h : ∀ s ∈ states, s.Sound) :
    ∃ states', ops.foldlM (fun states op => op.exec states) states = .ok states' ∧ ∀ s ∈ states', s.Sound := by
  induction ops generalizing states with
  | nil => exact ⟨states, rfl, h⟩
  | cons op ops ih =>
    obtain ⟨states₁, h₁, hs₁⟩ := op.exec_sound h
    rw [foldlM_cons, h₁, ok_bind]
    exact ih hs₁

/-- The queries are answered right in a state if and only if no byte that was last set symbolic has lost its page to a later
call. -/
theorem mmio_right_iff (ops : List Op) : ∃ states, run ops = .ok states ∧ ∀ s ∈ states,
      (s.Right ↔ ∀ x, Call.LastSet s.history x → Call.Intact s.history x) := by
  have hinit : ∀ s ∈ [(⟨fun _ => none, []⟩ : Recorded)], s.Sound := by
    intro s hs
    obtain rfl := mem_singleton.1 hs
    exact ⟨nofun, fun x => iff_of_false (by simp [SymbolicAt]) And.left, fun _ => False.elim⟩
  obtain ⟨states, hrun, hs⟩ := foldlM_sound ops hinit
  exact ⟨states, hrun, fun s h => (hs s h).right_iff⟩

def firstDevice : Call := ⟨0, 4, true, by decide⟩

def secondDevice : Call := ⟨8, 4, true, by decide⟩

/-- Two devices in one page: the second call drops the first range. -/
theorem second_range_drops_first : (run [.setMmioRange 0 firstDevice, .setMmioRange 0 secondDevice]).map
        (·.map fun s => (isMmio s.ranges 0 1, s.history)) = .ok [(.ok false, [secondDevice, firstDevice])] ∧
      Call.LastSet [secondDevice, firstDevice] 0 :=
  ⟨by decide +kernel, rfl⟩

end S2E.Plugins.SymbolicHardwareState
