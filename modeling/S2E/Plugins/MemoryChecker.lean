import Mathlib
import S2E.Klee.ADT.ImmutableTree

/-!
# `MemoryChecker`

The plugin records the memory regions that a driver may use. `grantMemory` adds one, `revokeMemory` takes one away (or
every one of a type), `checkMemoryAccess` looks an access up. All three consult the region that starts last up to the
given address (`lookup_previous`).

* `MemoryRange.Sound`, `Valid m` : the regions recorded have a size and do not reach past the address space; in order of
  their addresses each ends before the next begins;
* `run`, `ledger` : a sequence of successful calls, and the regions granted and not revoked in it.
-/

namespace S2E.Plugins.MemoryChecker
open S2E.Klee Option Set
open ImmutableTree (lookupPrevious_iff lookupPrevious_none mem_replace mem_remove)

structure MemoryRange where
  start : BitVec 64
  size : BitVec 64
deriving DecidableEq

structure MemoryRegion where
  range : MemoryRange
  perms : BitVec 8
  allocPC : BitVec 64
  type : Option String
  id : BitVec 64
  permanent : Bool
deriving DecidableEq

/-- `MemoryRangeLT` compares the starts. -/
def rangeKey (e : MemoryRange × MemoryRegion) : Nat := e.1.start.toNat

abbrev MemoryMap := ImmutableTree (MemoryRange × MemoryRegion)

namespace MemoryMap

def lookupPrevious (m : MemoryMap) (range : MemoryRange) : Option (MemoryRange × MemoryRegion) :=
  ImmutableTree.lookupPrevious rangeKey m range.start.toNat

def replace (m : MemoryMap) (e : MemoryRange × MemoryRegion) : MemoryMap := ImmutableTree.replace rangeKey e m

def remove (m : MemoryMap) (range : MemoryRange) : MemoryMap := ImmutableTree.remove rangeKey range.start.toNat m

end MemoryMap

/-- `none` is a null pointer; a pattern may end in a star. -/
def matchRegionType : Option String → Option String → Bool
  | none, _ => true
  | some pattern, none => pattern = "*"
  | some pattern, some type =>
    match pattern.toList.getLast? with
    | none => type = ""
    | some c => if c ≠ '*' then pattern = type else pattern.toList.dropLast.isPrefixOf type.toList

/-- What the plugin complains about. -/
inductive Error
  | negativeSize
  | notAllocated
  | overlapping (region : MemoryRegion)
  | wrongSize (region : MemoryRegion)
  | wrongPermissions (region : MemoryRegion)
  | wrongType (region : MemoryRegion)
  | wrongID (region : MemoryRegion)
  | notMapped
  | insufficientPermissions (region : MemoryRegion)
deriving DecidableEq

/-- The warning, if there is one, and the map afterwards. -/
def grantMemory (m : MemoryMap) (region : MemoryRegion) : Option Error × MemoryMap :=
  let start := region.range.start
  let size := region.range.size
  if size = 0 ∨ start + size < start then (some .negativeSize, m)
  else
    match m.lookupPrevious region.range with
    | some res =>
      if start < res.1.start + res.1.size then (some (.overlapping res.2), m)
      else (none, m.replace (region.range, region))
    | none => (none, m.replace (region.range, region))

/-- The arguments of `revokeMemory`; all ones stand for any size, permissions or identifier. -/
structure Revocation where
  start : BitVec 64
  size : BitVec 64
  perms : BitVec 8
  pattern : Option String
  id : BitVec 64

/-- The four checks of a region that is revoked. None of them keeps it from being removed. -/
def Revocation.complaints (r : Revocation) (res : MemoryRange × MemoryRegion) : List Error :=
  (if r.size ≠ -1 ∧ res.1.size ≠ r.size then [.wrongSize res.2] else []) ++
  (if r.perms ≠ -1 ∧ res.2.perms ≠ r.perms then [.wrongPermissions res.2] else []) ++
  (if r.pattern.isSome ∧ ¬ matchRegionType r.pattern res.2.type then [.wrongType res.2] else []) ++
  (if r.id ≠ -1 ∧ res.2.id ≠ r.id then [.wrongID res.2] else [])

/-- The errors (the return value is whether there are none), and the map afterwards. -/
def revokeMemory (m : MemoryMap) (r : Revocation) : List Error × MemoryMap :=
  if r.size ≠ -1 ∧ r.start + r.size < r.start then ([.negativeSize], m)
  else
    match m.lookupPrevious ⟨r.start, r.size⟩ with
    | none => ([.notAllocated], m)
    | some res =>
      if res.1.start + res.1.size ≤ r.start then ([.notAllocated], m)
      else if res.1.start ≠ r.start then ([.overlapping res.2], m)
      else (r.complaints res, m.remove ⟨r.start, r.size⟩)

/-- The regions that the second `revokeMemory` is about. -/
def selected (pattern : Option String) (id : BitVec 64) (region : MemoryRegion) : Bool :=
  region.type.isSome && matchRegionType pattern region.type && (id = -1 || region.id = id)

/-- The call by which a region found by the second `revokeMemory` is revoked. -/
def MemoryRegion.revocation (region : MemoryRegion) (range : MemoryRange) : Revocation :=
  ⟨range.start, range.size, region.perms, region.type, region.id⟩

/-- The second `revokeMemory`: `while (changed)`, with the first selected region in the order of the iterator. -/
def revokeSelected (pattern : Option String) (id : BitVec 64) : Nat → MemoryMap → Option (List Error × MemoryMap)
  | 0, _ => none
  | fuel + 1, m =>
    match m.toList.find? fun e => selected pattern id e.2 with
    | none => some ([], m)
    | some e =>
      let r := revokeMemory m (e.2.revocation e.1)
      (revokeSelected pattern id fuel r.2).map fun rest => (r.1 ++ rest.1, rest.2)

/-- The errors of an access; it is reported as allowed if there are none. -/
def checkMemoryAccess (m_checkMemoryErrors : Bool) (m : MemoryMap) (start size : BitVec 64) (perms : BitVec 8) :
    List Error :=
  if !m_checkMemoryErrors then []
  else if size ≠ -1 ∧ start + size < start then [.negativeSize]
  else
    match m.lookupPrevious ⟨start, size⟩ with
    | none => [.notMapped]
    | some res =>
      if res.1.start + res.1.size < start + size then [.notMapped]
      else if perms &&& res.2.perms ≠ perms then [.insufficientPermissions res.2]
      else []

/-! ## Calls -/

inductive Call
  | grant (region : MemoryRegion)
  | revoke (r : Revocation)
  | revokeSelected (pattern : Option String) (id : BitVec 64)

/-- The map after a call that is successful. -/
def step (m : MemoryMap) : Call → Option MemoryMap
  | .grant region =>
    match grantMemory m region with
    | (none, m') => some m'
    | (some _, _) => none
  | .revoke r =>
    match revokeMemory m r with
    | ([], m') => some m'
    | (_, _) => none
  | .revokeSelected pattern id =>
    match revokeSelected pattern id (m.toList.length + 1) m with
    | some ([], m') => some m'
    | _ => none

def run : MemoryMap → List Call → Option MemoryMap
  | m, [] => some m
  | m, c :: cs => (step m c).bind fun m' => run m' cs

/-- The regions granted and not revoked, after one more successful call. -/
def Call.record (granted : Set MemoryRegion) : Call → Set MemoryRegion
  | .grant region => insert region granted
  | .revoke r => {region ∈ granted | region.range.start ≠ r.start}
  | .revokeSelected pattern id => {region ∈ granted | ¬ selected pattern id region}

def ledger (granted : Set MemoryRegion) (cs : List Call) : Set MemoryRegion := cs.foldl Call.record granted

/-! ## What is recorded -/

/-- The addresses of the range. -/
def MemoryRange.bytes (range : MemoryRange) : Set Nat :=
  {a | range.start.toNat ≤ a ∧ a < range.start.toNat + range.size.toNat}

/-- A range that is not empty and does not reach past the address space. -/
def MemoryRange.Sound (range : MemoryRange) : Prop :=
  0 < range.size.toNat ∧ range.start.toNat + range.size.toNat < 2 ^ 64

/-- The first range ends before the second begins, if it begins before it. -/
def MemoryRange.Before (a b : MemoryRange) : Prop :=
  a.start.toNat < b.start.toNat → a.start.toNat + a.size.toNat ≤ b.start.toNat

structure Valid (m : MemoryMap) : Prop where
  ordered : ImmutableTree.Ordered rangeKey m
  range : ∀ e ∈ m.toList, e.1 = e.2.range
  sound : ∀ e ∈ m.toList, e.1.Sound
  before : ∀ a ∈ m.toList, ∀ b ∈ m.toList, a.1.Before b.1

def recorded (m : MemoryMap) : Set MemoryRegion := {region | (region.range, region) ∈ m.toList}

theorem sound_iff {range : MemoryRange} :
    range.Sound ↔ ¬ (range.size = 0 ∨ range.start + range.size < range.start) := by
  unfold MemoryRange.Sound
  rw [← BitVec.toNat_inj]
  bv_omega

variable {m m' : MemoryMap}

theorem Valid.mem_iff (h : Valid m) {e : MemoryRange × MemoryRegion} :
    e ∈ m.toList ↔ e.2 ∈ recorded m ∧ e.1 = e.2.range := by
  constructor
  · intro he
    have hr := h.range e he
    exact ⟨by rwa [recorded, mem_ofPred_eq, ← hr], hr⟩
  · rintro ⟨he, hr⟩
    rwa [recorded, mem_ofPred_eq, ← hr] at he

theorem Valid.empty : Valid .terminator where
  ordered := .nil
  range := by simp
  sound := by simp
  before := by simp

/-! ## `grantMemory` -/

/-- The region does not reach into one that begins after it. -/
def Fits (m : MemoryMap) (region : MemoryRegion) : Prop :=
  ∀ e ∈ m.toList, region.range.Before e.1

/-- A region is recorded if it is sound and every region that begins up to it ends up to it. -/
theorem grantMemory_spec {region : MemoryRegion} (h : Valid m)
    (hg : grantMemory m region = (none, m')) : region.range.Sound ∧
      (∀ e ∈ m.toList, e.1.start.toNat ≤ region.range.start.toNat →
        e.1.start.toNat + e.1.size.toNat ≤ region.range.start.toNat) ∧ m' = m.replace (region.range, region) := by
  unfold grantMemory at hg
  simp only at hg
  split at hg
  · cases hg
  · rename_i hsound
    refine ⟨sound_iff.2 hsound, ?_⟩
    split at hg
    · rename_i res hres
      obtain ⟨hmem, hle, hmax⟩ := (lookupPrevious_iff h.ordered).1 hres
      split at hg
      · cases hg
      · rename_i hend
        obtain ⟨-, hwrap⟩ := h.sound res hmem
        have hend : res.1.start.toNat + res.1.size.toNat ≤ region.range.start.toNat := by bv_omega
        refine ⟨fun e he hstart => ?_, (congrArg Prod.snd hg).symm⟩
        rcases (hmax e he hstart).lt_or_eq with hlt | heq
        · exact (h.before e he res hmem hlt).trans hle
        · rw [h.ordered.eq_of_key_eq he hmem heq]
          exact hend
    · rename_i hres
      refine ⟨fun e he hstart => ?_, (congrArg Prod.snd hg).symm⟩
      exact absurd (lookupPrevious_none h.ordered hres e he) hstart.not_gt

theorem grantMemory_valid {region : MemoryRegion} (h : Valid m) (hfit : Fits m region)
    (hg : grantMemory m region = (none, m')) : Valid m' ∧ recorded m' = insert region (recorded m) := by
  obtain ⟨hsound, hprev, rfl⟩ := grantMemory_spec h hg
  -- no region begins where the new one does, so that nothing is replaced
  have hnew : ∀ e ∈ m.toList, rangeKey e ≠ rangeKey (region.range, region) := fun e he heq => by
    have h1 := hprev e he heq.le
    have h2 := (h.sound e he).1
    change e.1.start.toNat = region.range.start.toNat at heq
    omega
  have hmem : ∀ e, e ∈ (m.replace (region.range, region)).toList ↔ e = (region.range, region) ∨ e ∈ m.toList := by
    intro e
    rw [MemoryMap.replace, mem_replace h.ordered]
    exact or_congr_right ⟨fun he => he.1, fun he => ⟨he, hnew e he⟩⟩
  refine ⟨⟨h.ordered.replace _, fun e he => ?_, fun e he => ?_, fun a ha b hb => ?_⟩, ?_⟩
  · rcases (hmem e).1 he with rfl | he
    · rfl
    · exact h.range e he
  · rcases (hmem e).1 he with rfl | he
    · exact hsound
    · exact h.sound e he
  · rcases (hmem a).1 ha with rfl | ha <;> rcases (hmem b).1 hb with rfl | hb
    · exact fun hlt => absurd hlt (lt_irrefl _)
    · exact hfit b hb
    · exact fun hlt => hprev a ha hlt.le
    · exact h.before a ha b hb
  · ext r
    show (r.range, r) ∈ (m.replace (region.range, region)).toList ↔ r ∈ insert region (recorded m)
    rw [hmem, mem_insert_iff]
    refine or_congr_left ⟨fun heq => congrArg Prod.snd heq, ?_⟩
    rintro rfl
    rfl

/-! ## `revokeMemory` -/

theorem Valid.remove (h : Valid m) (range : MemoryRange) :
    Valid (m.remove range) ∧ recorded (m.remove range) = {region ∈ recorded m | region.range.start ≠ range.start} := by
  have hmem : ∀ e, e ∈ (m.remove range).toList ↔ e ∈ m.toList ∧ e.1.start ≠ range.start := fun e => by
    rw [MemoryMap.remove, mem_remove h.ordered, rangeKey, ne_eq, BitVec.toNat_inj]
  refine ⟨⟨h.ordered.remove _, fun e he => ?_, fun e he => ?_, fun a ha b hb => ?_⟩, ?_⟩
  · exact h.range e ((hmem e).1 he).1
  · exact h.sound e ((hmem e).1 he).1
  · exact h.before a ((hmem a).1 ha).1 b ((hmem b).1 hb).1
  · ext r
    exact hmem _

/-- A call without errors removes the region that begins at the address. -/
theorem revokeMemory_spec {r : Revocation} (hr : revokeMemory m r = ([], m')) : m' = m.remove ⟨r.start, r.size⟩ := by
  unfold revokeMemory at hr
  split at hr
  · cases hr
  · split at hr
    · cases hr
    · split at hr
      · cases hr
      · split at hr
        · cases hr
        · exact (congrArg Prod.snd hr).symm

theorem matchRegionType_self (type : Option String) : matchRegionType type type = true := by
  cases type with
  | none => rfl
  | some type =>
    simp only [matchRegionType]
    split
    · rename_i hnil
      rw [List.getLast?_eq_none_iff, String.toList_eq_nil_iff] at hnil
      exact decide_eq_true hnil
    · split
      · exact decide_eq_true trivial
      · exact List.isPrefixOf_iff_prefix.2 (List.dropLast_prefix _)

/-- A region that is recorded is revoked without errors by its own description. -/
theorem revokeMemory_self (h : Valid m) {e : MemoryRange × MemoryRegion} (he : e ∈ m.toList) :
    revokeMemory m (e.2.revocation e.1) = ([], m.remove e.1) := by
  obtain ⟨hpos, hwrap⟩ := h.sound e he
  have hlookup : m.lookupPrevious e.1 = some e :=
    (lookupPrevious_iff h.ordered).2 ⟨he, le_rfl, fun _ _ hle => hle⟩
  have hneg : ¬ (e.1.start + e.1.size < e.1.start) := by bv_omega
  have hend : ¬ (e.1.start + e.1.size ≤ e.1.start) := by bv_omega
  have hcomplaints : (e.2.revocation e.1).complaints e = [] := by
    simp [Revocation.complaints, MemoryRegion.revocation, matchRegionType_self]
  unfold revokeMemory
  rw [if_neg fun hc => hneg hc.2]
  show (match m.lookupPrevious e.1 with
    | none => _
    | some res => _) = _
  rw [hlookup]
  show (if e.1.start + e.1.size ≤ e.1.start then _ else if e.1.start ≠ e.1.start then _ else
    ((e.2.revocation e.1).complaints e, m.remove e.1)) = _
  rw [if_neg hend, if_neg (not_not.2 rfl), hcomplaints]

/-- The second `revokeMemory` ends, without errors, when no selected region is left. -/
theorem revokeSelected_spec (pattern : Option String) (id : BitVec 64) : ∀ (fuel : Nat) (m : MemoryMap), Valid m →
    m.toList.length < fuel → ∃ m', revokeSelected pattern id fuel m = some ([], m') ∧ Valid m' ∧
      recorded m' = {region ∈ recorded m | ¬ selected pattern id region}
  | 0, _, _, hlen => absurd hlen (Nat.not_lt_zero _)
  | fuel + 1, m, h, hlen => by
    unfold revokeSelected
    split
    · rename_i hnone
      refine ⟨m, rfl, h, ?_⟩
      ext r
      refine ⟨fun hr => ⟨hr, ?_⟩, fun hr => hr.1⟩
      simpa using List.find?_eq_none.1 hnone _ hr
    · rename_i e hfind
      have he := List.mem_of_find?_eq_some hfind
      have hsel : selected pattern id e.2 = true := by simpa using List.find?_some hfind
      obtain ⟨hvalid, hrec⟩ := h.remove e.1
      have hlt : (m.remove e.1).toList.length < m.toList.length := ImmutableTree.length_remove_lt h.ordered he
      obtain ⟨m', hm', hvalid', hrec'⟩ := revokeSelected_spec pattern id fuel (m.remove e.1) hvalid (by omega)
      refine ⟨m', ?_, hvalid', ?_⟩
      · simp only [revokeMemory_self h he, hm', map_some, List.nil_append]
      · rw [hrec', hrec]
        ext r
        refine ⟨fun hr => ⟨hr.1.1, hr.2⟩, fun hr => ⟨⟨hr.1, fun heq => hr.2 ?_⟩, hr.2⟩⟩
        -- only the region itself begins where it does
        have hkey : rangeKey (r.range, r) = rangeKey e := congrArg BitVec.toNat heq
        rw [← h.ordered.eq_of_key_eq hr.1 he hkey] at hsel
        exact hsel

/-! ## Runs -/

def Call.Fits (m : MemoryMap) : Call → Prop
  | .grant region => MemoryChecker.Fits m region
  | .revoke _ | .revokeSelected _ _ => True

/-- Every grant fits in the map that it finds. -/
def Fitting : MemoryMap → List Call → Prop
  | _, [] => True
  | m, c :: cs => c.Fits m ∧ ∀ m', step m c = some m' → Fitting m' cs

theorem step_valid {c : Call} (h : Valid m) (hfit : c.Fits m) (hstep : step m c = some m') :
    Valid m' ∧ recorded m' = c.record (recorded m) := by
  cases c with
  | grant region =>
    simp only [step] at hstep
    split at hstep
    · rename_i m₁ hg
      obtain rfl : m₁ = m' := some_inj.1 hstep
      exact grantMemory_valid h hfit hg
    · cases hstep
  | revoke r =>
    simp only [step] at hstep
    split at hstep
    · rename_i m₁ hr
      obtain rfl : m₁ = m' := some_inj.1 hstep
      rw [revokeMemory_spec hr]
      exact h.remove _
    · cases hstep
  | revokeSelected pattern id =>
    obtain ⟨m₁, hm₁, hvalid, hrec⟩ := revokeSelected_spec pattern id _ m h (Nat.lt_succ_self _)
    simp only [step, hm₁] at hstep
    obtain rfl : m₁ = m' := some_inj.1 hstep
    exact ⟨hvalid, hrec⟩

theorem run_valid {cs : List Call} (h : Valid m) (hfit : Fitting m cs)
    (hrun : run m cs = some m') : Valid m' ∧ recorded m' = ledger (recorded m) cs := by
  induction cs generalizing m with
  | nil =>
    obtain rfl : m = m' := some_inj.1 hrun
    exact ⟨h, rfl⟩
  | cons c cs ih =>
    obtain ⟨m₁, hm₁, hrun⟩ := bind_eq_some_iff.1 hrun
    obtain ⟨hvalid, hrec⟩ := step_valid h hfit.1 hm₁
    obtain ⟨hvalid', hrec'⟩ := ih hvalid (hfit.2 m₁ hm₁) hrun
    exact ⟨hvalid', by rw [hrec', hrec]; rfl⟩

/-! ## `checkMemoryAccess` -/

theorem bytes_subset {a b : MemoryRange} (h : 0 < a.size.toNat) : a.bytes ⊆ b.bytes ↔ b.start.toNat ≤ a.start.toNat ∧
      a.start.toNat + a.size.toNat ≤ b.start.toNat + b.size.toNat := by
  constructor
  · intro hsub
    have hfirst : a.start.toNat ∈ b.bytes := hsub ⟨le_rfl, by omega⟩
    have hlast : a.start.toNat + a.size.toNat - 1 ∈ b.bytes := hsub ⟨by omega, by omega⟩
    exact ⟨hfirst.1, by have := hlast.2; omega⟩
  · rintro ⟨hstart, hend⟩ x ⟨hx, hx'⟩
    exact ⟨hstart.trans hx, by omega⟩

theorem checkMemoryAccess_iff (h : Valid m) {start size : BitVec 64} {perms : BitVec 8}
    (hzero : size ≠ 0) (hall : size ≠ -1) : checkMemoryAccess true m start size perms = [] ↔
      ∃ region ∈ recorded m, (MemoryRange.mk start size).bytes ⊆ region.range.bytes ∧
        perms &&& region.perms = perms := by
  have hpos : 0 < size.toNat := by bv_omega
  simp only [bytes_subset (a := ⟨start, size⟩) hpos]
  unfold checkMemoryAccess
  rw [if_neg (by decide)]
  by_cases hneg : size ≠ -1 ∧ start + size < start
  · rw [if_pos hneg]
    refine ⟨nofun, ?_⟩
    rintro ⟨region, hmem, ⟨-, hend⟩, -⟩
    have hwrap := (h.sound _ hmem).2
    have := hneg.2
    bv_omega
  · rw [if_neg hneg]
    have hwrap : start.toNat + size.toNat < 2 ^ 64 := by
      have := not_and.1 hneg hall
      bv_omega
    cases hres : m.lookupPrevious ⟨start, size⟩ with
    | none =>
      refine ⟨nofun, ?_⟩
      rintro ⟨region, hmem, ⟨hstart, -⟩, -⟩
      exact absurd (lookupPrevious_none h.ordered hres _ hmem) hstart.not_gt
    | some res =>
      obtain ⟨hmem, hle, hmax⟩ := (lookupPrevious_iff h.ordered).1 hres
      have hwrap' := (h.sound res hmem).2
      have hend : res.1.start + res.1.size < start + size ↔
          res.1.start.toNat + res.1.size.toNat < start.toNat + size.toNat := by bv_omega
      -- a region that holds the access is the one that begins last up to it
      have hres_eq : ∀ region ∈ recorded m, region.range.start.toNat ≤ start.toNat →
          start.toNat + size.toNat ≤ region.range.start.toNat + region.range.size.toNat → res = (region.range, region) := by
        intro region hregion hstart hin
        rcases (hmax _ hregion hstart).lt_or_eq with hlt | heq
        · have h1 : region.range.start.toNat + region.range.size.toNat ≤ res.1.start.toNat :=
            h.before _ hregion res hmem hlt
          have h2 : res.1.start.toNat ≤ start.toNat := hle
          omega
        · exact (h.ordered.eq_of_key_eq hregion hmem heq).symm
      simp only [hend]
      constructor
      · intro hok
        split at hok
        · cases hok
        · rename_i hin
          split at hok
          · cases hok
          · rename_i hperms
            obtain ⟨hregion, hrange⟩ := h.mem_iff.1 hmem
            exact ⟨res.2, hregion, ⟨hrange ▸ hle, hrange ▸ not_lt.1 hin⟩, not_not.1 hperms⟩
      · grind

/-! ## The plugin -/

/-- After a run of successful calls whose grants fit, the regions recorded are disjoint, they are those granted and not
revoked, and an access of at least one byte, whose size is not the wildcard, is allowed exactly if one of them holds it
and permits it. -/
theorem run_disjoint {cs : List Call} {m : MemoryMap} (hrun : run .terminator cs = some m)
    (hfit : Fitting .terminator cs) :
    (m.toList.Pairwise fun a b => Disjoint a.1.bytes b.1.bytes) ∧ recorded m = ledger ∅ cs ∧
      ∀ (start size : BitVec 64) (perms : BitVec 8), size ≠ 0 → size ≠ -1 →
        (checkMemoryAccess true m start size perms = [] ↔
          ∃ region ∈ recorded m, (MemoryRange.mk start size).bytes ⊆ region.range.bytes ∧
            perms &&& region.perms = perms) := by
  obtain ⟨h, hrec⟩ := run_valid .empty hfit hrun
  refine ⟨?_, ?_, fun start size perms hzero hall => checkMemoryAccess_iff h hzero hall⟩
  · refine List.Pairwise.imp_of_mem (fun {a b} ha hb hlt => ?_) h.ordered
    have := h.before a ha b hb hlt
    exact disjoint_left.2 fun x hx hx' => by
      have h1 := hx.2
      have h2 := hx'.1
      omega
  · rw [hrec]
    congr 1
    ext r
    simp [recorded]

/-- The region of the given start, size and permissions. -/
def plainRegion (start size : BitVec 64) (perms : BitVec 8) : MemoryRegion :=
  ⟨⟨start, size⟩, perms, 0, some "heap", 0, false⟩

theorem run_disjoint_two :
    let cs := [Call.grant (plainRegion 16 16 3), .grant (plainRegion 0 16 1), .revoke ⟨16, -1, -1, some "he*", -1⟩]
    ∃ m, run .terminator cs = some m ∧
      (m.toList.Pairwise fun a b => Disjoint a.1.bytes b.1.bytes) ∧ recorded m = ledger ∅ cs ∧
      ∀ (start size : BitVec 64) (perms : BitVec 8), size ≠ 0 → size ≠ -1 →
        (checkMemoryAccess true m start size perms = [] ↔
          ∃ region ∈ recorded m, (MemoryRange.mk start size).bytes ⊆ region.range.bytes ∧
            perms &&& region.perms = perms) := by
  refine ⟨.node .terminator (⟨0, 16⟩, plainRegion 0 16 1) .terminator, by decide, run_disjoint (by decide) ?_⟩
  refine ⟨by simp [Call.Fits, Fits], fun m₁ h₁ => ⟨?_, fun m₂ h₂ => ⟨trivial, fun _ _ => trivial⟩⟩⟩
  obtain rfl : ImmutableTree.node .terminator (⟨16, 16⟩, plainRegion 16 16 3) .terminator = m₁ := some_inj.1 h₁
  exact List.forall_mem_singleton.2 fun _ => le_rfl

/-- The second region is granted although it reaches over the first; an access in it, behind the first, is then refused.
An access of wildcard size is allowed, although no region holds it. -/
theorem run_overlapping : ∃ m, run .terminator [.grant (plainRegion 16 16 3), .grant (plainRegion 0 64 3)] = some m ∧
      plainRegion 16 16 3 ∈ recorded m ∧ plainRegion 0 64 3 ∈ recorded m ∧
      ¬ Disjoint (plainRegion 16 16 3).range.bytes (plainRegion 0 64 3).range.bytes ∧
      (MemoryRange.mk 40 4).bytes ⊆ (plainRegion 0 64 3).range.bytes ∧
      checkMemoryAccess true m 40 4 1 = [.notMapped] ∧
      checkMemoryAccess true m 16 (-1) 1 = [] := by
  refine ⟨.node (.node .terminator (⟨0, 64⟩, plainRegion 0 64 3) .terminator) (⟨16, 16⟩, plainRegion 16 16 3) .terminator,
    by decide, .tail _ (.head _), .head _, ?_, ?_, by decide, by decide⟩
  · exact not_disjoint_iff.2 ⟨16, ⟨by decide, by decide⟩, ⟨by decide, by decide⟩⟩
  · exact (bytes_subset (by decide)).2 (by decide)

end S2E.Plugins.MemoryChecker
