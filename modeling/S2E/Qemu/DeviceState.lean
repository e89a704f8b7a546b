import Mathlib.Tactic

/-!
# `S2EDeviceState`: copy-on-write disks

Each execution state has a device state of its own; `clone` makes two new ones whose parent is the old one, which is not
written any more. A device state holds the sectors written through it, and `readSector` walks up the parents.

* `clone`, `writeSector`, `readSector` : the code, on a heap of device states; a `Sector` is 512 bytes;
* `System` : the heap and the device states in use; `History` : what was written on the way to each of them, as if every
  device state were a full copy.
-/

namespace S2E.Qemu
open Function List
open Option (some_inj)

abbrev Sector := Fin 512 → BitVec 8

/-- The address of a `BlockDriverState`. -/
abbrev BlockDriverState := Nat

/-- `S2EDeviceState`; the parent is its address in the heap. -/
structure DeviceState where
  parent : Option Nat
  blockDevices : BlockDriverState → Int → Option Sector
  canTransferSector : Bool

variable {c leaf n p pos : Nat} {i : Int} {transfer : Bool} {P : Nat → Prop} {buf : List Sector}

namespace DeviceState

abbrev Heap := List DeviceState

/-- Both copies are empty; the heap, and their addresses. -/
def clone (heap : Heap) (this : Nat) : Heap × Nat × Nat :=
  let transfer := (heap[this]?.map canTransferSector).getD true
  (heap ++ [⟨some this, fun _ _ => none, transfer⟩, ⟨some this, fun _ _ => none, transfer⟩], heap.length, heap.length + 1)

/-- The loop of `writeSector`. -/
def writeLoop (dev : Int → Option Sector) : Int → List Sector → Int → Option Sector
  | _, [] => dev
  | i, b :: buf => writeLoop (update dev i (some b)) (i + 1) buf

def writeSector (heap : Heap) (this : Nat) (bs : BlockDriverState) (sector : Int) (buf : List Sector) : Heap :=
  heap.modify this fun d =>
    { d with blockDevices := update d.blockDevices bs (writeLoop (d.blockDevices bs) sector buf) }

/-- The walk from `curState` to the root; `fuel` bounds its length. -/
def findSector (heap : Heap) (bs : BlockDriverState) (i : Int) : Nat → Option Nat → Option Sector
  | 0, _ => none
  | _, none => none
  | fuel + 1, some curState =>
    match heap[curState]? with
    | none => none
    | some d =>
      match d.blockDevices bs i with
      | some b => some b
      | none => findSector heap bs i fuel d.parent

/-- The sector as the walk from `this` finds it. A parent has a smaller address. -/
def lookup (heap : Heap) (this : Nat) (bs : BlockDriverState) (i : Int) : Option Sector :=
  findSector heap bs i (this + 1) (some this)

/-- What `readSector` leaves behind. -/
structure ReadResult where
  ret : Int
  buf : List Sector
  canTransferSector : Bool

/-- The loop of `readSector` over the sectors from `i`; `pos` is where `buf` points to. -/
def readLoop (find : Int → Option Sector) (fb : Int → Except Int Sector) :
    Nat → Int → Bool → Nat → List Sector → Bool → ReadResult
  | 0, _, _, _, buf, transfer => ⟨0, buf, transfer⟩
  | n + 1, i, hasRead, pos, buf, transfer =>
    match find i with
    | some b => readLoop find fb n (i + 1) true (pos + 1) (buf.set pos b) transfer
    | none =>
      -- the flag is still set if an earlier sector of the request was found
      if hasRead then readLoop find fb n (i + 1) hasRead pos buf transfer
      else
        match fb i with
        | .error ret => ⟨ret, buf, true⟩
        | .ok b => readLoop find fb n (i + 1) false (pos + 1) (buf.set pos b) true

/-- The sectors are as many as `buf` has room for. -/
def readSector (heap : Heap) (this : Nat) (bs : BlockDriverState) (sector : Int) (buf : List Sector)
    (fb : BlockDriverState → Int → Except Int Sector) : ReadResult :=
  readLoop (lookup heap this bs) (fb bs) buf.length sector false 0 buf ((heap[this]?.map canTransferSector).getD true)

/-! ## The device states in use -/

inductive Op
  | clone (leaf : Nat)
  | write (leaf : Nat) (bs : BlockDriverState) (sector : Int) (buf : List Sector)

structure System where
  heap : Heap
  live : List Nat

def System.init : System := ⟨[⟨none, fun _ _ => none, true⟩], [0]⟩

/-- A step of a device state in use. After a clone its two copies are in use. -/
def System.step (s : System) : Op → Option System
  | .clone leaf =>
    if leaf ∈ s.live then
      let r := DeviceState.clone s.heap leaf
      some ⟨r.1, r.2.1 :: r.2.2 :: s.live.filter (· ≠ leaf)⟩
    else none
  | .write leaf bs sector buf =>
    if leaf ∈ s.live then some { s with heap := writeSector s.heap leaf bs sector buf } else none

def System.run (s : System) (ops : List Op) : Option System := ops.foldlM System.step s

/-- What each device state was written to, its ancestors included. -/
structure History where
  count : Nat
  disk : Nat → BlockDriverState → Int → Option Sector

def History.init : History := ⟨1, fun _ _ _ => none⟩

/-- The sectors of `buf` from `sector` on, and elsewhere what was there. -/
def overwrite (dev : Int → Option Sector) (sector : Int) (buf : List Sector) (i : Int) : Option Sector :=
  if sector ≤ i then (buf[(i - sector).toNat]?).or (dev i) else dev i

/-- A clone hands its contents to two new device states; a write changes the one that it is made by. -/
def History.step (a : History) : Op → History
  | .clone leaf => ⟨a.count + 2, fun y => if a.count ≤ y then a.disk leaf else a.disk y⟩
  | .write leaf bs sector buf =>
    { a with disk := fun y b => if y = leaf ∧ b = bs then overwrite (a.disk y b) sector buf else a.disk y b }

def history (ops : List Op) : History := ops.foldl History.step History.init

/-! ## The walk to the root -/

/-- Parents have smaller addresses. -/
def Rooted (heap : Heap) : Prop :=
  ∀ (c : Nat) (d : DeviceState) (p : Nat), heap[c]? = some d → d.parent = some p → p < c

section Walk

variable {heap heap' : Heap} {bs : BlockDriverState} {i : Int} {s : System} {a : History}

section

variable (hsame : ∀ c, P c → heap'[c]? = heap[c]?)
  (hclosed : ∀ (c : Nat) (d : DeviceState) (p : Nat), P c → heap[c]? = some d → d.parent = some p → P p)

include hsame hclosed

/-- The walk only looks at the device states of a set that has the parent of each of its members. -/
theorem findSector_congr (fuel : Nat) {cur : Option Nat}
    (hcur : ∀ c, cur = some c → P c) : findSector heap' bs i fuel cur = findSector heap bs i fuel cur := by
  induction fuel generalizing cur with
  | zero => rfl
  | succ fuel ih =>
    cases cur with
    | none => rfl
    | some c =>
      have hc := hcur c rfl
      unfold findSector
      rw [hsame c hc]
      cases hd : heap[c]? with
      | none => rfl
      | some d => grind

theorem lookup_congr {this : Nat} (hthis : P this) : lookup heap' this bs i = lookup heap this bs i :=
  findSector_congr hsame hclosed _ fun _ h => some_inj.1 h ▸ hthis

end

/-- The fuel is enough if it exceeds the address. -/
theorem findSector_fuel (h : Rooted heap) (fuel : Nat) (hc : c < fuel) :
    findSector heap bs i fuel (some c) = lookup heap c bs i := by
  induction fuel using Nat.strongRecOn generalizing c with
  | ind fuel ih =>
    obtain ⟨fuel, rfl⟩ : ∃ k, fuel = k + 1 := ⟨fuel - 1, by omega⟩
    unfold lookup findSector
    cases hd : heap[c]? with
    | none => rfl
    | some d =>
      dsimp only
      cases hb : d.blockDevices bs i with
      | some b => rfl
      | none =>
        dsimp only
        cases hp : d.parent with
        | none => cases fuel <;> cases c <;> rfl
        | some p =>
          have hpc := h c d p hd hp
          rw [ih fuel (by omega) (by omega), ih c (by omega) hpc]

/-- What the device state holds, or else what its parent finds. -/
theorem lookup_eq (h : Rooted heap) {d : DeviceState} (hd : heap[c]? = some d) :
    lookup heap c bs i = (d.blockDevices bs i).or (d.parent.bind fun p => lookup heap p bs i) := by
  rw [lookup, findSector, hd]
  dsimp only
  cases hb : d.blockDevices bs i with
  | some b => rfl
  | none =>
    cases hp : d.parent with
    | none => cases c <;> rfl
    | some p => exact findSector_fuel h c (h c d p hd hp)

end Walk

/-! ## `writeSector` -/

theorem writeLoop_eq (dev : Int → Option Sector) (sector : Int) (buf : List Sector) :
    writeLoop dev sector buf = overwrite dev sector buf := by
  induction buf generalizing dev sector with
  | nil =>
    funext i
    simp [writeLoop, overwrite]
  | cons b buf ih =>
    funext i
    rw [writeLoop, ih]
    unfold overwrite
    rcases lt_trichotomy i sector with hlt | rfl | hgt
    · rw [if_neg (by omega), if_neg (by omega), update_of_ne hlt.ne]
    · grind
    · have hsucc : (i - sector).toNat = (i - (sector + 1)).toNat + 1 := by omega
      rw [if_pos (by omega), if_pos hgt.le, update_of_ne hgt.ne', hsucc, List.getElem?_cons_succ]

theorem overwrite_or (dev rest : Int → Option Sector) (sector : Int) (buf : List Sector) (i : Int) :
    (overwrite dev sector buf i).or (rest i) = overwrite (fun j => (dev j).or (rest j)) sector buf i := by
  unfold overwrite
  split
  · rw [Option.or_assoc]
  · rfl

/-! ## What the walk finds -/

/-- The device states in use find what their histories say. None of them is a parent. -/
structure Represents (s : System) (a : History) : Prop where
  rooted : Rooted s.heap
  count : a.count = s.heap.length
  live_lt : ∀ x ∈ s.live, x < s.heap.length
  leaf : ∀ x ∈ s.live, ∀ (c : Nat) (d : DeviceState), s.heap[c]? = some d → d.parent ≠ some x
  disk : ∀ x ∈ s.live, ∀ bs i, lookup s.heap x bs i = a.disk x bs i

theorem represents_init : Represents .init .init where
  rooted c d p hd hp := by
    cases c with
    | zero =>
      obtain rfl := some_inj.1 hd
      cases hp
    | succ c => cases hd
  count := rfl
  live_lt x hx := by
    obtain rfl := mem_singleton.1 hx
    exact Nat.one_pos
  leaf x hx c d hd hp := by
    cases c with
    | zero =>
      obtain rfl := some_inj.1 hd
      cases hp
    | succ c => cases hd
  disk x hx bs i := by
    obtain rfl := mem_singleton.1 hx
    rfl

section

variable (h : Represents s a) (hleaf : leaf ∈ s.live)

include h hleaf

theorem Represents.clone :
    Represents ⟨(clone s.heap leaf).1, s.heap.length :: (s.heap.length + 1) :: s.live.filter (· ≠ leaf)⟩
      (a.step (.clone leaf)) := by
  obtain ⟨e, he, hpar⟩ : ∃ e : DeviceState, (DeviceState.clone s.heap leaf).1 = s.heap ++ [e, e] ∧
      e.parent = some leaf ∧ e.blockDevices = fun _ _ => none := ⟨_, rfl, rfl, rfl⟩
  have hlt := h.live_lt leaf hleaf
  have hold : ∀ c, c < s.heap.length → (s.heap ++ [e, e])[c]? = s.heap[c]? := fun c hc => List.getElem?_append_left hc
  have hcell : ∀ (c : Nat) (d : DeviceState), (s.heap ++ [e, e])[c]? = some d →
      s.heap[c]? = some d ∨ s.heap.length ≤ c ∧ d = e := by
    intro c d hd
    rcases Nat.lt_or_ge c s.heap.length with hc | hc
    · exact .inl (by rwa [hold c hc] at hd)
    · grind
  have hrooted : Rooted (s.heap ++ [e, e]) := by
    intro c d p hd hp
    rcases hcell c d hd with hd | ⟨hc, rfl⟩
    · exact h.rooted c d p hd hp
    · grind
  have hlookup : ∀ y, y < s.heap.length → ∀ bs i, lookup (s.heap ++ [e, e]) y bs i = lookup s.heap y bs i := by
    intro y hy bs i
    refine lookup_congr (P := (· < s.heap.length)) hold (fun c d p hc hd hp => ?_) hy
    exact (h.rooted c d p hd hp).trans hc
  have hnew : ∀ y, (s.heap ++ [e, e])[y]? = some e → ∀ bs i, lookup (s.heap ++ [e, e]) y bs i = a.disk leaf bs i := by
    intro y hy bs i
    rw [lookup_eq hrooted hy, hpar.1, hpar.2, Option.none_or, Option.bind_some, hlookup leaf hlt, h.disk leaf hleaf]
  rw [he]
  refine ⟨hrooted, ?_, fun x hx => ?_, fun x hx c d hd hp => ?_, fun x hx bs i => ?_⟩
  · simp [History.step, h.count]
  · simp only [mem_cons, mem_filter] at hx
    rcases hx with rfl | rfl | ⟨hx, -⟩
    · simp
    · simp
    · have := h.live_lt x hx
      simp only [length_append]
      omega
  · have hp' := hrooted c d x hd hp
    simp only [mem_cons, mem_filter] at hx
    rcases hcell c d hd with hd | ⟨-, rfl⟩
    · have hc := (List.getElem?_eq_some_iff.1 hd).1
      rcases hx with rfl | rfl | ⟨hx, -⟩
      · omega
      · omega
      · exact h.leaf x hx c d hd hp
    · grind
  · simp only [mem_cons, mem_filter] at hx
    simp only [History.step, h.count]
    rcases hx with rfl | rfl | ⟨hx, -⟩
    · grind
    · grind
    · have hx' := h.live_lt x hx
      rw [if_neg (not_le.2 hx'), hlookup x hx', h.disk x hx]

/-- Writing through a device state in use leaves what the others find as it is. -/
theorem Represents.lookup_write
    (bs : BlockDriverState) (sector : Int) (buf : List Sector) {y : Nat} (hy : y ≠ leaf) (bs' : BlockDriverState)
    (i : Int) : lookup (writeSector s.heap leaf bs sector buf) y bs' i = lookup s.heap y bs' i := by
  refine lookup_congr (P := (· ≠ leaf)) (fun c hc => ?_) (fun c d p _ hd hp heq => ?_) hy
  · rw [writeSector, List.getElem?_modify_ne _ _ (Ne.symm hc)]
  · exact h.leaf leaf hleaf c d hd (heq ▸ hp)

theorem Represents.write (bs : BlockDriverState) (sector : Int) (buf : List Sector) :
    Represents { s with heap := writeSector s.heap leaf bs sector buf } (a.step (.write leaf bs sector buf)) := by
  have hcell : ∀ (c : Nat) (d : DeviceState), (writeSector s.heap leaf bs sector buf)[c]? = some d →
      ∃ d₀, s.heap[c]? = some d₀ ∧ d.parent = d₀.parent := by
    intro c d hd
    rw [writeSector, List.getElem?_modify] at hd
    obtain ⟨d₀, hd₀, rfl⟩ := Option.map_eq_some_iff.1 hd
    refine ⟨d₀, hd₀, ?_⟩
    split <;> rfl
  have hrooted : Rooted (writeSector s.heap leaf bs sector buf) := by
    intro c d p hd hp
    obtain ⟨d₀, hd₀, hpar⟩ := hcell c d hd
    exact h.rooted c d₀ p hd₀ (hpar ▸ hp)
  refine ⟨hrooted, ?_, fun x hx => ?_, fun x hx c d hd hp => ?_, fun x hx bs' i => ?_⟩
  · simp [History.step, writeSector, h.count]
  · simpa [writeSector] using h.live_lt x hx
  · obtain ⟨d₀, hd₀, hpar⟩ := hcell c d hd
    exact h.leaf x hx c d₀ hd₀ (hpar ▸ hp)
  · by_cases hxl : x = leaf
    · subst hxl
      obtain ⟨d, hd⟩ : ∃ d, s.heap[x]? = some d := ⟨_, List.getElem?_eq_getElem (h.live_lt x hx)⟩
      have hd' : (writeSector s.heap x bs sector buf)[x]? = some { d with
          blockDevices := update d.blockDevices bs (writeLoop (d.blockDevices bs) sector buf) } := by
        rw [writeSector, List.getElem?_modify_eq, hd]
        rfl
      have hparent : (d.parent.bind fun p => lookup (writeSector s.heap x bs sector buf) p bs' i) =
          d.parent.bind fun p => lookup s.heap p bs' i := by
        cases hp : d.parent with
        | none => rfl
        | some p => exact h.lookup_write hx bs sector buf (fun heq => h.leaf x hx x d hd (heq ▸ hp)) bs' i
      rw [lookup_eq hrooted hd', hparent]
      by_cases hbs : bs' = bs
      · subst hbs
        simp only [History.step, update_self, writeLoop_eq, and_self, if_true]
        rw [overwrite_or (d.blockDevices bs') (fun j => d.parent.bind fun p => lookup s.heap p bs' j)]
        refine congrArg (overwrite · sector buf i) (funext fun j => ?_)
        rw [← h.disk x hx, lookup_eq h.rooted hd]
      · simp only [History.step, update_of_ne hbs, hbs, and_false, if_false]
        rw [← h.disk x hx, lookup_eq h.rooted hd]
    · rw [h.lookup_write hleaf bs sector buf hxl]
      simp only [History.step, hxl, false_and, if_false]
      exact h.disk x hx bs' i

end

theorem Represents.step {s' : System} (h : Represents s a) {op : Op} (hstep : s.step op = some s') :
    Represents s' (a.step op) := by
  cases op with
  | clone leaf =>
    simp only [System.step] at hstep
    split at hstep
    · rename_i hleaf
      obtain rfl := some_inj.1 hstep
      exact h.clone hleaf
    · cases hstep
  | write leaf bs sector buf =>
    simp only [System.step] at hstep
    split at hstep
    · rename_i hleaf
      obtain rfl := some_inj.1 hstep
      exact h.write hleaf bs sector buf
    · cases hstep

theorem run_represents {ops : List Op} (hrun : System.init.run ops = some s) : Represents s (history ops) := by
  suffices hgen : ∀ (ops : List Op) (s₀ : System) (a₀ : History), Represents s₀ a₀ → s₀.run ops = some s →
      Represents s (ops.foldl History.step a₀) from hgen ops _ _ represents_init hrun
  intro ops
  induction ops with
  | nil =>
    intro s₀ a₀ h hrun
    obtain rfl : s₀ = s := some_inj.1 hrun
    exact h
  | cons op ops ih =>
    intro s₀ a₀ h hrun
    rw [System.run, foldlM_cons] at hrun
    obtain ⟨s₁, hs₁, hrun⟩ := Option.bind_eq_some_iff.1 hrun
    exact ih s₁ _ (h.step hs₁) hrun

/-! ## `readSector` -/

section Read

variable {find : Int → Option Sector} {disk : Int → Sector}

/-- A sector that is not found comes after one that is found; `hasRead` : one was found before the request's rest. -/
def Skipped (find : Int → Option Sector) (hasRead : Bool) (n : Nat) (i : Int) : Prop :=
  ∃ j < n, find (i + j) = none ∧ (hasRead = true ∨ ∃ k < j, (find (i + k)).isSome)

theorem skipped_cons {hasRead : Bool} : Skipped find hasRead (n + 1) i ↔
    hasRead = true ∧ find i = none ∨ Skipped find (hasRead || (find i).isSome) n (i + 1) := by
  have hcast : ∀ j : Nat, i + (j + 1 : Nat) = i + 1 + j := fun j => by push_cast; ring
  have hzero : i + (0 : Nat) = i := by simp
  constructor
  · rintro ⟨j, hj, hnone, h⟩
    cases j with
    | zero => exact .inl ⟨h.resolve_right fun ⟨k, hk, _⟩ => Nat.not_lt_zero k hk, hzero ▸ hnone⟩
    | succ j =>
      refine .inr ⟨j, by omega, hcast j ▸ hnone, ?_⟩
      rcases h with rfl | ⟨k, hk, hsome⟩
      · exact .inl rfl
      · cases k with
        | zero => grind
        | succ k => exact .inr ⟨k, by omega, hcast k ▸ hsome⟩
  · rintro (⟨hread, hnone⟩ | ⟨j, hj, hnone, h⟩)
    · exact ⟨0, by omega, hzero.symm ▸ hnone, .inl hread⟩
    · refine ⟨j + 1, by omega, (hcast j).symm ▸ hnone, ?_⟩
      rcases h with h | ⟨k, hk, hsome⟩
      · rcases Bool.or_eq_true_iff.1 h with h | h
        · exact .inl h
        · exact .inr ⟨0, by omega, hzero.symm ▸ h⟩
      · exact .inr ⟨k + 1, by omega, (hcast k).symm ▸ hsome⟩

/-- Without a skip the sectors fill the buffer one after the other. -/
theorem readLoop_right {n : Nat} {i : Int} {hasRead : Bool} {pos : Nat} {buf : List Sector} {transfer : Bool}
    (hlen : pos + n ≤ buf.length) (h : ¬ Skipped find hasRead n i) :
    (readLoop find (fun j => .ok (disk j)) n i hasRead pos buf transfer).ret = 0 ∧
    (readLoop find (fun j => .ok (disk j)) n i hasRead pos buf transfer).buf = buf.take pos ++
      (range n).map (fun k : Nat => (find (i + k)).getD (disk (i + k))) ++ buf.drop (pos + n) := by
  induction n generalizing i hasRead pos buf transfer with
  | zero => simp [readLoop]
  | succ n ih =>
    rw [skipped_cons, not_or] at h
    have hrange : (range (n + 1)).map (fun k : Nat => (find (i + k)).getD (disk (i + k))) =
        (find i).getD (disk i) :: (range n).map fun k : Nat => (find (i + 1 + k)).getD (disk (i + 1 + k)) := by
      rw [range_succ_eq_map, map_cons, map_map]
      simp [Function.comp_def, add_assoc, add_comm (1 : Int)]
    -- what is left of the request, after its first sector is copied
    have hnext : ∀ (b : Sector) (flag transfer : Bool), ¬ Skipped find flag n (i + 1) → (find i).getD (disk i) = b →
        (readLoop find (fun j => .ok (disk j)) n (i + 1) flag (pos + 1) (buf.set pos b) transfer).ret = 0 ∧
        (readLoop find (fun j => .ok (disk j)) n (i + 1) flag (pos + 1) (buf.set pos b) transfer).buf = buf.take pos ++
          (range (n + 1)).map (fun k : Nat => (find (i + k)).getD (disk (i + k))) ++ buf.drop (pos + (n + 1)) := by
      intro b flag transfer hskip hb
      have hroom : pos + 1 + n ≤ (buf.set pos b).length := by grind
      obtain ⟨hret, hbuf⟩ := @ih (i + 1) flag (pos + 1) (buf.set pos b) transfer hroom hskip
      refine ⟨hret, hbuf.trans ?_⟩
      have htake : (buf.set pos b).take (pos + 1) = buf.take pos ++ [b] := by
        rw [take_add_one, List.getElem?_set_self (by omega), take_set_of_le le_rfl]
        rfl
      rw [htake, drop_set_of_lt (by omega), hrange, hb, show pos + 1 + n = pos + (n + 1) by ring]
      simp
    unfold readLoop
    cases hf : find i with
    | some b => exact hnext b true transfer (by simpa [hf] using h.2) (by rw [hf]; rfl)
    | none =>
      cases hasRead with
      | true => exact absurd ⟨rfl, hf⟩ h.1
      | false => exact hnext (disk i) false true (by simpa [hf] using h.2) (by rw [hf]; rfl)

/-- Nothing is written behind the sectors that are left to read. -/
theorem readLoop_behind {hasRead : Bool} (hp : pos + n ≤ p) :
    (readLoop find (fun j => .ok (disk j)) n i hasRead pos buf transfer).buf[p]? = buf[p]? := by
  induction n generalizing i hasRead pos buf transfer with
  | zero => rfl
  | succ n ih =>
    unfold readLoop
    have hset : ∀ b : Sector, (buf.set pos b)[p]? = buf[p]? := fun b => List.getElem?_set_ne (by omega)
    cases find i with
    | some b => exact (ih (by omega)).trans (hset b)
    | none =>
      cases hasRead with
      | true => exact ih (by omega)
      | false => exact (ih (by omega)).trans (hset _)

/-- After a skip the last sector of the buffer is left as it was. -/
theorem readLoop_skipped {hasRead : Bool} (h : Skipped find hasRead n i) (hp : pos + n ≤ p + 1) :
    (readLoop find (fun j => .ok (disk j)) n i hasRead pos buf transfer).buf[p]? = buf[p]? := by
  induction n generalizing i hasRead pos buf transfer with
  | zero => obtain ⟨j, hj, -⟩ := h; omega
  | succ n ih =>
    have hset : ∀ (flag : Bool) (b : Sector), Skipped find flag n (i + 1) → (buf.set pos b)[p]? = buf[p]? := by
      rintro flag b ⟨j, hj, -⟩
      exact List.getElem?_set_ne (by omega)
    rw [skipped_cons] at h
    unfold readLoop
    cases hf : find i with
    | some b => grind
    | none =>
      cases hasRead with
      | true => exact readLoop_behind (by omega)
      | false => grind

end Read

theorem exists_other_sector (o : Option Sector) : ∃ b, o ≠ some b := by
  cases o with
  | none => exact ⟨fun _ => 0, nofun⟩
  | some a =>
    refine ⟨fun x => a x + 1, fun h => ?_⟩
    have := congrFun (some_inj.1 h) 0
    bv_omega

/-- What a request of `n` sectors should find. -/
def wanted (a : History) (leaf : Nat) (bs : BlockDriverState) (disk : BlockDriverState → Int → Sector) (sector : Int)
    (n : Nat) : List Sector :=
  (range n).map fun k : Nat => (a.disk leaf bs (sector + k)).getD (disk bs (sector + k))

/-- A device state in use reads what its history says, for every request and whatever the buffer holds, unless one of the
sectors was not written and comes after one that was. What another device state writes does not change what it reads. -/
theorem readSector_iff {ops : List Op} {s : System} (hrun : System.init.run ops = some s) {leaf : Nat}
    (hleaf : leaf ∈ s.live) (bs : BlockDriverState) (disk : BlockDriverState → Int → Sector) (sector : Int) (n : Nat) :
    ((∀ buf : List Sector, buf.length = n → (readSector s.heap leaf bs sector buf fun b i => .ok (disk b i)).ret = 0 ∧
        (readSector s.heap leaf bs sector buf fun b i => .ok (disk b i)).buf =
          wanted (history ops) leaf bs disk sector n) ↔
      ¬ ∃ j < n, (history ops).disk leaf bs (sector + j) = none ∧
        ∃ k < j, ((history ops).disk leaf bs (sector + k)).isSome) ∧
    ∀ other ∈ s.live, other ≠ leaf → ∀ (bs' : BlockDriverState) (sector' : Int) (buf' buf : List Sector)
      (fb : BlockDriverState → Int → Except Int Sector),
      readSector (writeSector s.heap other bs' sector' buf') leaf bs sector buf fb =
        readSector s.heap leaf bs sector buf fb := by
  have h := run_represents hrun
  have hfind : lookup s.heap leaf bs = (history ops).disk leaf bs := funext fun i => h.disk leaf hleaf bs i
  refine ⟨?_, fun other hother hne bs' sector' buf' buf fb => ?_⟩
  · have hskip : (∃ j < n, (history ops).disk leaf bs (sector + j) = none ∧
        ∃ k < j, ((history ops).disk leaf bs (sector + k)).isSome) ↔
        Skipped ((history ops).disk leaf bs) false n sector := by simp [Skipped]
    rw [hskip]
    constructor
    · intro hright hsk
      obtain ⟨n, rfl⟩ : ∃ m, n = m + 1 := by
        obtain ⟨j, hj, -⟩ := hsk
        exact ⟨n - 1, by omega⟩
      -- a buffer whose last sector is not the one that is wanted
      obtain ⟨b, hb⟩ := exists_other_sector (wanted (history ops) leaf bs disk sector (n + 1))[n]?
      obtain ⟨-, hbuf⟩ := hright (replicate (n + 1) b) (length_replicate ..)
      apply hb
      rw [← hbuf, readSector, hfind, length_replicate, readLoop_skipped hsk (by omega)]
      simp
    · rintro hsk buf rfl
      have hok := @readLoop_right _ (disk bs) buf.length sector false 0 buf
        ((s.heap[leaf]?.map canTransferSector).getD true) (by omega) hsk
      rw [readSector, hfind]
      simpa [wanted] using hok
  · have hcell : (writeSector s.heap other bs' sector' buf')[leaf]? = s.heap[leaf]? := by
      rw [writeSector, List.getElem?_modify_ne _ _ hne]
    have hlookup : lookup (writeSector s.heap other bs' sector' buf') leaf bs = lookup s.heap leaf bs :=
      funext fun i => h.lookup_write hother bs' sector' buf' hne.symm bs i
    rw [readSector, readSector, hcell, hlookup]

/-- The sector whose bytes are all `v`. -/
def filled (v : BitVec 8) : Sector := fun _ => v

/-- The root writes its first sector and is cloned; the first copy writes the second sector and reads both. -/
theorem readSector_iff_cloned : let ops := [Op.write 0 7 0 [filled 1], .clone 0, .write 1 7 1 [filled 2]]
    ∃ s, System.init.run ops = some s ∧ 1 ∈ s.live ∧
      ((∀ buf : List Sector, buf.length = 2 → (readSector s.heap 1 7 0 buf fun _ _ => .ok (filled 9)).ret = 0 ∧
          (readSector s.heap 1 7 0 buf fun _ _ => .ok (filled 9)).buf =
            wanted (history ops) 1 7 (fun _ _ => filled 9) 0 2) ↔
        ¬ ∃ j : Nat, j < 2 ∧ (history ops).disk 1 7 (0 + j) = none ∧
          ∃ k < j, ((history ops).disk 1 7 (0 + k)).isSome) ∧
      ∀ other ∈ s.live, other ≠ 1 → ∀ (bs' : BlockDriverState) (sector' : Int) (buf' buf : List Sector)
        (fb : BlockDriverState → Int → Except Int Sector),
        readSector (writeSector s.heap other bs' sector' buf') 1 7 0 buf fb = readSector s.heap 1 7 0 buf fb :=
  ⟨_, rfl, .head _, readSector_iff rfl (.head _) 7 (fun _ _ => filled 9) 0 2⟩

/-- One sector is written, and two are read: the second is neither read from the disk nor from anywhere else. -/
theorem readSector_skips : ∃ s, System.init.run [.write 0 7 0 [filled 1]] = some s ∧ 0 ∈ s.live ∧
      (readSector s.heap 0 7 0 [filled 0, filled 0] fun _ _ => .ok (filled 9)).ret = 0 ∧
      (readSector s.heap 0 7 0 [filled 0, filled 0] fun _ _ => .ok (filled 9)).buf = [filled 1, filled 0] ∧
      wanted (history [.write 0 7 0 [filled 1]]) 0 7 (fun _ _ => filled 9) 0 2 = [filled 1, filled 9] ∧
      filled 0 ≠ filled 9 :=
  ⟨_, rfl, .head _, rfl, rfl, rfl, fun h => absurd (congrFun h 0) (by decide)⟩

end DeviceState

end S2E.Qemu
