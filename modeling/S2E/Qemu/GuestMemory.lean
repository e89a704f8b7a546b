import S2E.Klee.Core.Contents
import S2E.Klee.Core.ObjectSound
import S2E.Lib.Align

/-!
# Guest memory

`readMemory` and `writeMemory` of `S2EExecutionState`. Guest memory is made of memory objects of `2 ^ objectBits` bytes at
host addresses. An access is translated page by page, goes to one object if it lies in one, and is split otherwise.

* `MemoryLayout` : the translation and the memory objects;
* `readMemory`, `readMemory8`, `writeMemory`, `writeMemory8` : the accesses for expressions;
* `writeBuffer` : `writeMemory` for a buffer, with the width in bits. It is what constants are written with. It calls itself
  with sizes in bytes when the range does not lie in one object.

The state is active and little-endian. A shared object is given by an object state without masks.
-/

namespace S2E.Qemu

open S2E.Klee S2E.Lib Align Function
open BitVec (ofNat ofNat_toNat setWidth_eq)

inductive AddressType
  | VirtualAddress
  | PhysicalAddress
  | HostAddress

/-- `TARGET_PAGE_BITS`. -/
abbrev pageBits : Nat := 12

structure MemoryLayout where
  /-- `S2E_RAM_OBJECT_BITS`. -/
  objectBits : Nat
  objectBits_le : objectBits ≤ pageBits
  /-- `cpu_get_phys_page_debug`, all ones if the page is not mapped. -/
  getPhysPage : BitVec 64 → BitVec 64
  /-- `qemu_get_phys_ram_ptr`, zero if there is no such page. -/
  getPhysRamPtr : BitVec 64 → BitVec 64
  /-- The memory object that starts at a host address. -/
  objectAt : BitVec 64 → Option MemoryObject
  isUserSpecified : MemoryObject → Bool
  size : MemoryObject → Nat
  /-- The pages of guest memory and its objects are aligned, as `registerRam` asserts. -/
  getPhysRamPtr_aligned : ∀ page, base pageBits (getPhysRamPtr page) = getPhysRamPtr page
  objectAt_aligned : ∀ {address mo}, objectAt address = some mo → base objectBits address = address
  objectAt_inj : ∀ {address address' mo}, objectAt address = some mo → objectAt address' = some mo → address = address'

variable {k v w : Nat} {value : Expr} {mo : MemoryObject}

namespace MemoryLayout

/-- `(uint64_t) -1`. -/
def unmapped : BitVec 64 := .allOnes 64

section Model

variable (g : MemoryLayout)

def getPhysicalAddress (virtualAddress : BitVec 64) : BitVec 64 :=
  let physicalAddress := g.getPhysPage (base pageBits virtualAddress)
  if physicalAddress = unmapped then unmapped else physicalAddress ||| offset pageBits virtualAddress

/-- The host address of an address in a physical page. -/
def inRamPage (page address : BitVec 64) : BitVec 64 :=
  let hostAddress := g.getPhysRamPtr page
  if hostAddress = 0 then unmapped else hostAddress ||| offset pageBits address

def getHostAddress (address : BitVec 64) : AddressType → BitVec 64
  | .HostAddress => address
  | .PhysicalAddress => g.inRamPage (base pageBits address) address
  | .VirtualAddress =>
    let physicalAddress := g.getPhysicalAddress (base pageBits address)
    if physicalAddress = unmapped then unmapped else g.inRamPage physicalAddress address

/-- The distance from the start of the memory object. -/
def objectOffset (address : BitVec 64) : Nat := (offset g.objectBits address).toNat

theorem objectBits_le_width : g.objectBits ≤ 64 := g.objectBits_le.trans (by decide)

theorem objectOffset_eq (address : BitVec 64) : g.objectOffset address = address.toNat % 2 ^ g.objectBits :=
  toNat_offset g.objectBits_le_width address

theorem objectOffset_lt (address : BitVec 64) : g.objectOffset address < 2 ^ g.objectBits := by
  rw [objectOffset_eq]
  exact Nat.mod_lt _ (Nat.two_pow_pos _)

variable (s : System ObjectState) (i : Nat)

/-- The object at a host address, which is asserted to be one of guest memory. -/
def findObject (hostAddress : BitVec 64) : Except Trap (MemoryObject × ObjectState) := do
  let mo ← Trap.check (g.objectAt (base g.objectBits hostAddress))
  let o ← Trap.check (s.read i mo)
  if g.isUserSpecified mo && g.size mo == 2 ^ g.objectBits then return (mo, o) else throw .assertFailed

def readObject (hostAddress : BitVec 64) (f : ObjectState → Except Trap (Expr × ObjectState)) :
    Except Trap (Option Expr × System ObjectState) :=
  if hostAddress = unmapped then return (none, s)
  else do
    let op ← g.findObject s i hostAddress
    let r ← f op.2
    let s ← Trap.check (s.touch i op.1 r.2)
    return (some r.1, s)

def writeObject (hostAddress : BitVec 64) (f : MemoryObject → ObjectState → Except Trap ObjectState) :
    Except Trap (Bool × System ObjectState) :=
  if hostAddress = unmapped then return (false, s)
  else do
    let op ← g.findObject s i hostAddress
    let o ← f op.1 op.2
    let s ← Trap.check (s.write i op.1 fun _ => o)
    return (true, s)

/-- The bytes of a constant in memory. -/
def bytesOf (c : APInt) : List (BitVec 8) :=
  (List.range (getMinBytesForWidth c.width)).map fun k => BitVec.ofNat 8 (c.bits.toNat / 256 ^ k)

/-- `writeMemory(uint64_t, uint8_t*, Expr::Width, AddressType)`. -/
def writeBuffer (s : System ObjectState) (address : BitVec 64) (buf : List (BitVec 8)) (width : Nat) (type : AddressType) :
    Except Trap (Bool × System ObjectState) :=
  if width % 8 = 0 then
    if g.objectOffset address + width / 8 ≤ 2 ^ g.objectBits then
      g.writeObject s i (g.getHostAddress address type) fun _ o =>
        return o.writeBytes (g.objectOffset address) (buf.take (width / 8))
    else
      -- The range goes beyond the object: its two parts, each with its size in bytes for a width.
      let size1 := 2 ^ g.objectBits - g.objectOffset address
      do
        let r ← writeBuffer s address buf size1 type
        if r.1 then writeBuffer r.2 (address + BitVec.ofNat 64 size1) (buf.drop size1) (width / 8 - size1) type
        else return r
  else throw .assertFailed
termination_by width
decreasing_by
  all_goals
    have := g.objectOffset_lt address
    omega

variable [Options]

def readMemory8 (address : BitVec 64) (type : AddressType) : Except Trap (Option Expr × System ObjectState) :=
  g.readObject s i (g.getHostAddress address type) fun o => o.read8At (g.objectOffset (g.getHostAddress address type))

/-- One more byte in front of those that were read. A null byte ends the loop. -/
def readNext (address : BitVec 64) (type : AddressType) (r : Option Expr × System ObjectState) :
    Except Trap (Option Expr × System ObjectState) :=
  match r with
  | (none, s) => return (none, s)
  | (some res, s) => do
    let b ← g.readMemory8 s i address type
    return (b.1.map (ConcatExpr.create · res), b.2)

/-- The loop of `readMemory`, for the byte at `address` and `k` more. -/
def readLoop (address : BitVec 64) (type : AddressType) : Nat → Except Trap (Option Expr × System ObjectState)
  | 0 => g.readMemory8 s i address type
  | k + 1 => readLoop address type k >>= g.readNext i (address + BitVec.ofNat 64 (k + 1)) type

def readMemory (address : BitVec 64) (width : Nat) (type : AddressType) :
    Except Trap (Option Expr × System ObjectState) :=
  if width = 1 ∨ width % 8 = 0 then
    if g.objectOffset address + width / 8 ≤ 2 ^ g.objectBits then
      g.readObject s i (g.getHostAddress address type) fun o => o.readAt (g.objectOffset address) width
    else g.readLoop s i address type (width / 8 - 1)
  else throw .assertFailed

/-- `write8` for a byte of a shared object. -/
def writeSharedByte (o : ObjectState) (offset : Nat) (value : Expr) : Except Trap ObjectState :=
  if value.isConstant then return o.write8At offset value else throw .assertFailed

/-- `ObjectState::write`. A shared object takes constants only. -/
def writeTo (offset : Nat) (value : Expr) (mo : MemoryObject) (o : ObjectState) : Except Trap ObjectState :=
  if mo.isSharedConcrete && !value.isConstant then
    o.writeWith (fun o k e => writeSharedByte o (offset + k) e) (writeSharedByte o offset) value
  else o.writeAt offset value

def writeMemory8 (address : BitVec 64) (value : Expr) (type : AddressType) : Except Trap (Bool × System ObjectState) :=
  if value.getWidth = 8 then
    g.writeObject s i (g.getHostAddress address type) (writeTo (g.objectOffset (g.getHostAddress address type)) value)
  else throw .assertFailed

/-- The next byte. A failed write ends the loop. -/
def writeNext (address : BitVec 64) (value : Expr) (type : AddressType) (k : Nat) (r : Bool × System ObjectState) :
    Except Trap (Bool × System ObjectState) :=
  if r.1 then g.writeMemory8 r.2 i (address + BitVec.ofNat 64 k) (ExtractExpr.create value (8 * k) 8) type else return r

/-- The loop of `writeMemory` over the bytes. -/
def writeLoop (address : BitVec 64) (value : Expr) (type : AddressType) : Nat → Except Trap (Bool × System ObjectState)
  | 0 => return (true, s)
  | k + 1 => writeLoop address value type k >>= g.writeNext i address value type k

/-- `writeMemory` for a value that is symbolic, or wider than 64 bits. -/
def writeSymbolic (address : BitVec 64) (value : Expr) (type : AddressType) : Except Trap (Bool × System ObjectState) :=
  if value.getWidth = 1 then g.writeMemory8 s i address (ZExtExpr.create value 8) type
  else if g.objectOffset address + value.getWidth / 8 ≤ 2 ^ g.objectBits then
    g.writeObject s i (g.getHostAddress address type) (writeTo (g.objectOffset (g.getHostAddress address type)) value)
  else g.writeLoop s i address value type (value.getWidth / 8)

omit [Options] in
/-- `writeMemory8`, `writeMemory16`, `writeMemory32` and `writeMemory64` for numbers. -/
def writeConstant (address : BitVec 64) (c : APInt) (type : AddressType) : Except Trap (Bool × System ObjectState) :=
  if c.width = 1 ∨ c.width = 8 then g.writeBuffer i s address (bytesOf c) 8 type
  else if c.width = 16 ∨ c.width = 32 ∨ c.width = 64 then g.writeBuffer i s address (bytesOf c) c.width type
  else throw .assertFailed

def writeMemory (address : BitVec 64) (value : Expr) (type : AddressType) : Except Trap (Bool × System ObjectState) :=
  if value.getWidth = 1 ∨ value.getWidth % 8 = 0 then
    match value with
    | .constant c => if c.width ≤ 64 then g.writeConstant s i address c type else g.writeSymbolic s i address value type
    | value => g.writeSymbolic s i address value type
  else throw .assertFailed

end Model

/-! ## Host addresses -/

section HostAddresses

variable (g : MemoryLayout)

theorem inRamPage_eq {page address : BitVec 64} (h : g.inRamPage page address ≠ unmapped) :
    g.inRamPage page address = g.getPhysRamPtr page + offset pageBits address := by
  unfold inRamPage at h ⊢
  by_cases hz : g.getPhysRamPtr page = 0
  · grind
  · rw [if_neg hz, or_offset (g.getPhysRamPtr_aligned page)]

/-- The translation of an address: nothing, or the page that its page is at. -/
theorem getHostAddress_cases (type : AddressType) :
    (∀ a, g.getHostAddress a type = a) ∨ ∃ page : BitVec 64 → BitVec 64, (∀ p, base pageBits (page p) = page p) ∧
      ∀ a, g.getHostAddress a type ≠ unmapped → g.getHostAddress a type = page (base pageBits a) + offset pageBits a := by
  cases type with
  | HostAddress => exact .inl fun _ => rfl
  | PhysicalAddress =>
    exact .inr ⟨g.getPhysRamPtr, g.getPhysRamPtr_aligned, fun a ha => g.inRamPage_eq ha⟩
  | VirtualAddress =>
    refine .inr ⟨fun p => g.getPhysRamPtr (g.getPhysicalAddress p), fun p => g.getPhysRamPtr_aligned _, fun a ha => ?_⟩
    unfold getHostAddress at ha ⊢
    by_cases hp : g.getPhysicalAddress (base pageBits a) = unmapped
    · simp only [hp, if_true, ne_eq, not_true] at ha
    · simp only [hp, if_false] at ha ⊢
      exact g.inRamPage_eq ha

variable {g} {type : AddressType} {address : BitVec 64}

section

variable (h : g.getHostAddress address type ≠ unmapped)

include h

theorem getHostAddress_mod : (g.getHostAddress address type).toNat % 2 ^ pageBits = address.toNat % 2 ^ pageBits := by
  obtain hid | ⟨page, haligned, hpage⟩ := g.getHostAddress_cases type
  · rw [hid]
  · have hoff : offset pageBits address = ofNat 64 (address.toNat % 2 ^ pageBits) := by
      rw [← toNat_offset (by decide), ofNat_toNat, setWidth_eq]
    rw [hpage address h, hoff]
    exact toNat_aligned_add (by decide) (haligned _) (Nat.mod_lt _ (Nat.two_pow_pos _))

theorem objectOffset_getHostAddress : g.objectOffset (g.getHostAddress address type) = g.objectOffset address := by
  have hdvd : 2 ^ g.objectBits ∣ 2 ^ pageBits := pow_dvd_pow 2 g.objectBits_le
  rw [objectOffset_eq, objectOffset_eq, ← Nat.mod_mod_of_dvd _ hdvd, getHostAddress_mod h, Nat.mod_mod_of_dvd _ hdvd]

theorem getHostAddress_add (hk : g.getHostAddress (address + ofNat 64 k) type ≠ unmapped)
    (hlt : g.objectOffset address + k < 2 ^ g.objectBits) :
    g.getHostAddress (address + ofNat 64 k) type = g.getHostAddress address type + ofNat 64 k := by
  rw [objectOffset_eq] at hlt
  have hpage := mod_add_lt_of_le g.objectBits_le hlt
  obtain hid | ⟨page, -, hhost⟩ := g.getHostAddress_cases type
  · rw [hid, hid]
  · rw [hhost _ hk, hhost _ h, base_add (by decide) hpage, offset_add (by decide) hpage, BitVec.add_assoc]

end

/-- The bytes of a range are at different host addresses, also if the range is in two pages. -/
theorem getHostAddress_ne {k' : Nat} (hk : g.getHostAddress (address + ofNat 64 k) type ≠ unmapped)
    (hk' : g.getHostAddress (address + ofNat 64 k') type ≠ unmapped) (hlt : k < k') (hle : k' < k + 2 ^ pageBits) :
    g.getHostAddress (address + ofNat 64 k) type ≠ g.getHostAddress (address + ofNat 64 k') type := by
  intro heq
  have hmod := (getHostAddress_mod hk).symm.trans (heq ▸ getHostAddress_mod hk')
  simp only [BitVec.toNat_add, BitVec.toNat_ofNat, pageBits] at hmod hle
  omega

end HostAddresses

/-! ## The objects as one array -/

/-- Bytes, by their host addresses. -/
abbrev HostMemory := BitVec 64 → BitVec 8

section Standing

variable [Options] (g : MemoryLayout) (i : Nat)

/-- The bytes of the object at the address `B`. -/
def objectBytes (M : HostMemory) (B : BitVec 64) : FlatMemory := fun j => M (B + BitVec.ofNat 64 j)

/-- The objects of the state stand for `M`. -/
structure Standing (σ : Assignment) (M : HostMemory) (s : System ObjectState) : Prop where
  distinct : s.Distinct i
  sync : ∀ {B mo o}, g.objectAt B = some mo → s.read i mo = some o →
    o.Sync σ (2 ^ g.objectBits) (objectBytes M B)

/-- The byte at the address is in an object of guest memory. -/
structure Mapped (s : System ObjectState) (address : BitVec 64) (type : AddressType) : Prop where
  mapped : g.getHostAddress address type ≠ unmapped
  object : ∃ mo, g.objectAt (base g.objectBits (g.getHostAddress address type)) = some mo ∧
    g.isUserSpecified mo = true ∧ g.size mo = 2 ^ g.objectBits ∧ s.Writable i mo

/-- What is writable in the first state is so in the second. -/
def Keeps (s s' : System ObjectState) : Prop := ∀ mo, s.Writable i mo → s'.Writable i mo

/-- A read in the state `s` gives the value. -/
def Loads (σ : Assignment) (M : HostMemory) (s : System ObjectState) {w : Nat} (v : BitVec w)
    (r : Except Trap (Option Expr × System ObjectState)) : Prop :=
  ∃ e s', r = .ok (some e, s') ∧ e.Denotes σ v ∧ g.Standing i σ M s' ∧ Keeps i s s'

/-- After a write in the state `s` the objects stand for `M'`. -/
def Stores (σ : Assignment) (M' : HostMemory) (s : System ObjectState) (r : Except Trap (Bool × System ObjectState)) :
    Prop :=
  ∃ s', r = .ok (true, s') ∧ g.Standing i σ M' s' ∧ Keeps i s s'

/-- The object that has the byte at the address starts here. -/
abbrev objectBase (address : BitVec 64) (type : AddressType) : BitVec 64 :=
  base g.objectBits (g.getHostAddress address type)

variable {g i} {σ : Assignment} {M M' : HostMemory} {s s' : System ObjectState} {address : BitVec 64} {type : AddressType}

omit [Options] in
theorem Mapped.mono (h : g.Mapped i s address type) (hs : Keeps i s s') : g.Mapped i s' address type := by
  obtain ⟨mo, hmo, huser, hsize, hw⟩ := h.object
  exact ⟨h.mapped, mo, hmo, huser, hsize, hs mo hw⟩

section

variable (h : g.Standing i σ M s)

include h

theorem Standing.findObject (hm : g.Mapped i s address type) :
    ∃ mo o, g.findObject s i (g.getHostAddress address type) = .ok (mo, o) ∧
      g.objectAt (g.objectBase address type) = some mo ∧ s.Writable i mo ∧ s.read i mo = some o ∧
      o.Sync σ (2 ^ g.objectBits) (objectBytes M (g.objectBase address type)) := by
  obtain ⟨mo, hmo, huser, hsize, hw⟩ := hm.object
  obtain ⟨a, os, os', ha, hos, hos', -⟩ := id hw
  obtain ⟨o, ho⟩ : ∃ o, s.read i mo = some o := by
    rw [System.read_eq ha hos, hos']
    cases mo.isSharedConcrete with
    | true => exact ⟨_, rfl⟩
    | false => exact ⟨_, rfl⟩
  refine ⟨mo, o, ?_, hmo, hw, ho, h.sync hmo ho⟩
  simp only [MemoryLayout.findObject, hmo, ho, Trap.check, ok_bind, huser, hsize, beq_self_eq_true]
  rfl

/-- The objects after the one of an address has been replaced. The bytes of the others stay. -/
theorem Standing.replace {o' : ObjectState} (hdist : s'.Distinct i)
    (hmo : g.objectAt (g.objectBase address type) = some mo)
    (hread : ∀ mo', s'.read i mo' = if mo' = mo then some o' else s.read i mo')
    (hsync : o'.Sync σ (2 ^ g.objectBits) (objectBytes M' (g.objectBase address type)))
    (hout : ∀ a, base g.objectBits a ≠ g.objectBase address type → M' a = M a) : g.Standing i σ M' s' := by
  refine ⟨hdist, fun {B mo' o₁} hB ho₁ => ?_⟩
  rw [hread mo'] at ho₁
  split_ifs at ho₁ with hmo'
  · obtain rfl := Option.some.inj ho₁
    rw [g.objectAt_inj hB (hmo'.symm ▸ hmo)]
    exact hsync
  · refine (h.sync hB ho₁).congr fun j hj => (hout _ ?_).symm
    rw [base_aligned_add g.objectBits_le_width (g.objectAt_aligned hB) hj]
    rintro rfl
    exact hmo' (Option.some.inj (hB.symm.trans hmo))

theorem Standing.readObject {v : BitVec w} {f : ObjectState → Except Trap (Expr × ObjectState)} (hm : g.Mapped i s address type)
    (hf : ∀ o, o.Sync σ (2 ^ g.objectBits) (objectBytes M (g.objectBase address type)) →
      ObjectState.Reads σ (2 ^ g.objectBits) (objectBytes M (g.objectBase address type)) v (f o)) :
    g.Loads i σ M s v (g.readObject s i (g.getHostAddress address type) f) := by
  obtain ⟨mo, o, hfind, hmo, hw, -, hsync⟩ := h.findObject hm
  obtain ⟨e, o', he, hd, hsync'⟩ := hf o hsync
  obtain ⟨s', htouch, hread, hdist, hkept⟩ := h.distinct.touch hw o'
  refine ⟨e, s', ?_, hd, h.replace hdist hmo hread hsync' fun _ _ => rfl, hkept⟩
  simp only [MemoryLayout.readObject, if_neg hm.mapped, hfind, he, htouch, Trap.check, ok_bind]
  rfl

theorem Standing.writeObject {f : MemoryObject → ObjectState → Except Trap ObjectState} (hm : g.Mapped i s address type)
    (hf : ∀ mo o, g.objectAt (g.objectBase address type) = some mo →
      o.Sync σ (2 ^ g.objectBits) (objectBytes M (g.objectBase address type)) →
      ObjectState.Writes σ (2 ^ g.objectBits) (objectBytes M' (g.objectBase address type)) (f mo o))
    (hout : ∀ a, base g.objectBits a ≠ g.objectBase address type → M' a = M a) :
    g.Stores i σ M' s (g.writeObject s i (g.getHostAddress address type) f) := by
  obtain ⟨mo, o, hfind, hmo, hw, ho, hsync⟩ := h.findObject hm
  obtain ⟨o', ho', hsync'⟩ := hf mo o hmo hsync
  obtain ⟨s', hwrite, hread, hdist, hkept⟩ := h.distinct.write hw fun _ => o'
  refine ⟨s', ?_, h.replace hdist hmo (by simpa only [ho, Option.map_some] using hread) hsync' hout, hkept⟩
  simp only [MemoryLayout.writeObject, if_neg hm.mapped, hfind, ho', hwrite, Trap.check, ok_bind]
  rfl

end

end Standing

/-! ## Ranges of guest addresses -/

/-- The low `n` bytes of the number `v`, stored at the addresses `hosts 0`, `hosts 1` and so on. -/
def storeAt (M : HostMemory) (hosts : Nat → BitVec 64) (v : Nat) : Nat → HostMemory
  | 0 => M
  | n + 1 => update (storeAt M hosts v n) (hosts n) (BitVec.ofNat 8 (v / 256 ^ n))

theorem storeAt_of_ne {M : HostMemory} {hosts : Nat → BitVec 64} {n : Nat} {a : BitVec 64} (h : ∀ k < n, a ≠ hosts k) :
    storeAt M hosts v n a = M a := by
  induction n with
  | zero => rfl
  | succ n ih =>
    rw [storeAt, update_of_ne (h n (by omega))]
    exact ih fun k hk => h k (by omega)

theorem storeAt_self {M : HostMemory} {hosts : Nat → BitVec 64} {n : Nat}
    (hne : ∀ k k', k < k' → k' < n → hosts k ≠ hosts k') (hk : k < n) :
    storeAt M hosts v n (hosts k) = ofNat 8 (v / 256 ^ k) := by
  induction n with
  | zero => omega
  | succ n ih =>
    rw [storeAt]
    by_cases hkn : k = n
    · rw [hkn, update_self]
    · grind

section Ranges

variable (g : MemoryLayout)

/-- The host addresses of the bytes from `address` on. -/
def hosts (address : BitVec 64) (type : AddressType) (k : Nat) : BitVec 64 :=
  g.getHostAddress (address + BitVec.ofNat 64 k) type

variable {g} {i n : Nat} {M : HostMemory} {s s' : System ObjectState} {address : BitVec 64} {type : AddressType}

theorem hosts_zero : g.hosts address type 0 = g.getHostAddress address type :=
  congrArg (g.getHostAddress · type) (BitVec.add_zero address)

/-- The address is in guest memory, and so are the `n - 1` ones after it. -/
def MappedRange (g : MemoryLayout) (i : Nat) (s : System ObjectState) (address : BitVec 64) (type : AddressType) (n : Nat) :
    Prop :=
  ∀ k < n, g.Mapped i s (address + BitVec.ofNat 64 k) type

section

variable (h : g.MappedRange i s address type n)

include h

theorem MappedRange.first (hn : 0 < n) : g.Mapped i s address type := by
  have h0 := h 0 hn
  rwa [show address + ofNat 64 0 = address from BitVec.add_zero address] at h0

theorem MappedRange.ne (hn : n ≤ 2 ^ pageBits) (k k' : Nat) (hlt : k < k')
    (hk' : k' < n) : g.hosts address type k ≠ g.hosts address type k' :=
  getHostAddress_ne (h k (by omega)).mapped (h k' hk').mapped hlt (by omega)

theorem MappedRange.hosts_eq
    (hone : g.objectOffset address + n ≤ 2 ^ g.objectBits) (hk : k < n) : g.hosts address type k =
      base g.objectBits (g.getHostAddress address type) + ofNat 64 (g.objectOffset address + k) := by
  have hfirst := (h.first (by omega)).mapped
  have hoff : offset g.objectBits (g.getHostAddress address type) = ofNat 64 (g.objectOffset address) := by
    rw [← objectOffset_getHostAddress hfirst, objectOffset, ofNat_toNat, setWidth_eq]
  rw [hosts, getHostAddress_add hfirst (h k hk).mapped (by omega), BitVec.ofNat_add, ← BitVec.add_assoc, ← hoff,
    base_add_offset]

theorem MappedRange.base_hosts (hone : g.objectOffset address + n ≤ 2 ^ g.objectBits) (hk : k < n) :
    base g.objectBits (g.hosts address type k) = base g.objectBits (g.getHostAddress address type) := by
  rw [h.hosts_eq hone hk, base_aligned_add g.objectBits_le_width (base_base _) (by omega)]

end

/-- The bytes of the object after a write to a part of it. -/
theorem objectBytes_storeAt {B : BitVec 64} {off : Nat} {hosts : Nat → BitVec 64} (hB : base g.objectBits B = B)
    (hhosts : ∀ k < n, hosts k = B + ofNat 64 (off + k)) (hle : off + n ≤ 2 ^ g.objectBits) {j : Nat}
    (hj : j < 2 ^ g.objectBits) : objectBytes (storeAt M hosts v n) B j = (objectBytes M B).write off n v j := by
  induction n with
  | zero =>
    rw [FlatMemory.write_zero]
    rfl
  | succ n ih =>
    have ih' := ih (fun k hk => hhosts k (by omega)) (by omega)
    rw [FlatMemory.write_succ]
    show update (storeAt M hosts v n) (hosts n) _ (B + ofNat 64 j) = _
    rw [hhosts n (by omega)]
    by_cases hjn : j = off + n
    · rw [hjn, update_self, update_self]
    · have hne : B + ofNat 64 j ≠ B + ofNat 64 (off + n) := by
        intro heq
        have hmod := congrArg (fun a : BitVec 64 => a.toNat % 2 ^ g.objectBits) heq
        simp only [toNat_aligned_add g.objectBits_le_width hB hj,
          toNat_aligned_add g.objectBits_le_width hB (show off + n < _ by omega)] at hmod
        exact hjn hmod
      rw [update_of_ne hne, update_of_ne hjn]
      exact ih'

end Ranges

theorem bytes_of_width {w : Nat} (hw : w ∈ [8, 16, 32, 64]) : 0 < w / 8 ∧ w / 8 ≤ 8 ∧ 8 * (w / 8) = w ∧ w % 8 = 0 ∧
    w ≠ 1 ∧ getMinBytesForWidth w = w / 8 := by
  simp only [List.mem_cons, List.not_mem_nil, or_false] at hw
  rcases hw with rfl | rfl | rfl | rfl <;> decide

section SharedObjects

variable {off : Nat} {o o' : ObjectState} (hw : value.getWidth ∈ [8, 16, 32, 64])

include hw

theorem writeWith_eq {writeByte : ObjectState → Nat → Expr → Except Trap ObjectState}
    {writeFirst : Expr → Except Trap ObjectState} : o.writeWith writeByte writeFirst value =
      (List.range (value.getWidth / 8)).foldlM (fun o k => writeByte o k (ExtractExpr.create value (8 * k) 8)) o := by
  obtain ⟨-, -, hw8, -, hw1, -⟩ := bytes_of_width hw
  unfold ObjectState.writeWith
  rw [if_neg hw1]
  exact if_pos hw8.symm

variable (hc : value.isConstant = false)

include hc

theorem writeTo_shared (hmo : mo.isSharedConcrete = true) : writeTo off value mo o =
    (List.range (value.getWidth / 8)).foldlM
      (fun o k => writeSharedByte o (off + k) (ExtractExpr.create value (8 * k) 8)) o := by
  rw [writeTo, hmo, hc, Bool.true_and, Bool.not_false, if_pos rfl]
  exact writeWith_eq hw

theorem writeTo_eq (h : mo.isSharedConcrete = true → ∀ k < value.getWidth / 8,
    (ExtractExpr.create value (8 * k) 8).isConstant = true) : writeTo off value mo o = o.writeAt off value := by
  cases hmo : mo.isSharedConcrete with
  | false => rw [writeTo, hmo, Bool.false_and, if_neg Bool.false_ne_true]
  | true =>
    have hat : o.writeAt off value = o.writeWith (fun o i e => .ok (o.write8At (off + i) e))
        (fun e => .ok (o.write8At off e)) value := by
      cases value with
      | constant c => cases hc
      | _ => rfl
    rw [writeTo_shared hw hc hmo, hat, writeWith_eq hw]
    have hloop : ∀ (l : List Nat) (o : ObjectState), (∀ k ∈ l, k < value.getWidth / 8) →
        l.foldlM (fun o k => writeSharedByte o (off + k) (ExtractExpr.create value (8 * k) 8)) o =
          l.foldlM (fun o k => .ok (o.write8At (off + k) (ExtractExpr.create value (8 * k) 8))) o := by
      intro l
      induction l with
      | nil => exact fun _ _ => rfl
      | cons k l ih =>
        intro o hl
        obtain ⟨hk, hl⟩ := List.forall_mem_cons.1 hl
        rw [List.foldlM_cons, List.foldlM_cons, writeSharedByte, if_pos (h hmo k hk)]
        exact ih _ hl
    exact hloop _ o fun k hk => List.mem_range.1 hk

theorem isConstant_of_writeTo (h : writeTo off value mo o = .ok o') (hmo : mo.isSharedConcrete = true) {k : Nat}
    (hk : k < value.getWidth / 8) : (ExtractExpr.create value (8 * k) 8).isConstant = true := by
  rw [writeTo_shared hw hc hmo] at h
  obtain ⟨o₁, o₂, hstep⟩ := exists_of_mem_foldlM h (List.mem_range.2 hk)
  unfold writeSharedByte at hstep
  split at hstep
  · assumption
  · cases hstep

end SharedObjects

section Accesses

variable [Options] {g : MemoryLayout} {i n : Nat} {σ : Assignment} {M : HostMemory} {s : System ObjectState}
  {address : BitVec 64} {type : AddressType}

section

variable (h : g.Standing i σ M s)

include h

theorem Standing.writeRange {f : MemoryObject → ObjectState → Except Trap ObjectState}
    (hm : g.MappedRange i s address type n) (hn : 0 < n)
    (hone : g.objectOffset address + n ≤ 2 ^ g.objectBits)
    (hf : ∀ mo o m, g.objectAt (g.objectBase address type) = some mo → o.Sync σ (2 ^ g.objectBits) m →
      ObjectState.Writes σ (2 ^ g.objectBits) (m.write (g.objectOffset address) n v) (f mo o)) :
    g.Stores i σ (storeAt M (g.hosts address type) v n) s (g.writeObject s i (g.getHostAddress address type) f) := by
  refine h.writeObject (hm.first hn) (fun mo o hmo ho => ?_) fun a ha => storeAt_of_ne fun k hk heq => ha ?_
  · obtain ⟨o', ho', hsync⟩ := hf mo o _ hmo ho
    refine ⟨o', ho', hsync.congr fun j hj => ?_⟩
    exact (objectBytes_storeAt (base_base _) (fun k hk => hm.hosts_eq hone hk) hone hj).symm
  · rw [heq, hm.base_hosts hone hk]

theorem Standing.readMemory8 (hm : g.Mapped i s address type) :
    g.Loads i σ M s (M (g.getHostAddress address type)) (g.readMemory8 s i address type) := by
  have hbyte : objectBytes M (g.objectBase address type) (g.objectOffset (g.getHostAddress address type)) =
      M (g.getHostAddress address type) := by
    show M (_ + ofNat 64 (offset _ _).toNat) = _
    rw [ofNat_toNat, setWidth_eq, base_add_offset]
  refine h.readObject hm fun o ho => ?_
  rw [← hbyte]
  exact ho.read8At (g.objectOffset_lt _)

/-- The bytes read so far make up the low end of the value. -/
theorem Standing.readLoop (hm : g.MappedRange i s address type (k + 1)) :
    g.Loads i σ M s (ofNat (8 * (k + 1)) (FlatMemory.read (M ∘ g.hosts address type) 0 (k + 1)))
      (g.readLoop s i address type k) := by
  induction k with
  | zero =>
    obtain ⟨e, s', he, hd, hs, hkept⟩ := h.readMemory8 (hm.first Nat.one_pos)
    refine ⟨e, s', he, ?_, hs, hkept⟩
    rw [FlatMemory.read_one, ofNat_toNat, Function.comp_apply, hosts_zero]
    exact hd
  | succ k ih =>
    obtain ⟨e, s₁, he, hd, hs₁, hkept₁⟩ := ih fun j hj => hm j (by omega)
    obtain ⟨e', s₂, he', hd', hs₂, hkept₂⟩ := hs₁.readMemory8 ((hm (k + 1) (by omega)).mono hkept₁)
    refine ⟨ConcatExpr.create e' e, s₂, ?_, ?_, hs₂, fun mo hmo => hkept₂ mo (hkept₁ mo hmo)⟩
    · simp only [MemoryLayout.readLoop, he, ok_bind, readNext, he']
      rfl
    · have hc := ConcatExpr.create_denotes hd' hd
      have happend := @FlatMemory.append_read (M ∘ g.hosts address type) 0 (k + 1)
      rw [Nat.zero_add] at happend
      rw [show 8 * (k + 1 + 1) = 8 + 8 * (k + 1) by ring, ← happend]
      exact hc

theorem Standing.readMemory (hw : w ∈ [8, 16, 32, 64])
    (hm : g.MappedRange i s address type (w / 8)) : ∃ e s', g.readMemory s i address w type = .ok (some e, s') ∧
      e.Denotes σ (ofNat w (FlatMemory.read (M ∘ g.hosts address type) 0 (w / 8))) := by
  obtain ⟨hpos, -, hw8, hmod, -, hbytes⟩ := bytes_of_width hw
  unfold MemoryLayout.readMemory
  rw [if_pos (.inr hmod)]
  split_ifs with hone
  · -- The bytes of the range in the object.
    have hread : FlatMemory.read (M ∘ g.hosts address type) 0 (w / 8) =
        (objectBytes M (g.objectBase address type)).read (g.objectOffset address) (w / 8) := by
      refine Finset.sum_congr rfl fun k hk => ?_
      rw [Nat.zero_add, Function.comp_apply, hm.hosts_eq hone (Finset.mem_range.1 hk)]
      rfl
    obtain ⟨e, s', he, hd, -, -⟩ := h.readObject (hm.first hpos) (f := fun o => o.readAt (g.objectOffset address) w)
      fun o ho => ho.readAt (List.mem_cons_of_mem 1 hw) (hbytes ▸ hone)
    rw [hbytes, ← hread] at hd
    exact ⟨e, s', he, hd⟩
  · have hk : w / 8 - 1 + 1 = w / 8 := by omega
    obtain ⟨e, s', he, hd, -, -⟩ := h.readLoop (k := w / 8 - 1) (hk.symm ▸ hm)
    rw [hk, hw8] at hd
    exact ⟨e, s', he, hd⟩

/-- The bytes of the value that go to a shared object are constants. -/
def Takes (g : MemoryLayout) (address : BitVec 64) (type : AddressType) (value : Expr) (n : Nat) : Prop :=
  ∀ k < n, ∀ mo, g.objectAt (base g.objectBits (g.hosts address type k)) = some mo → mo.isSharedConcrete = true →
    (ExtractExpr.create value (8 * k) 8).isConstant = true

theorem Standing.writeMemory8 {b : BitVec 8} (hm : g.Mapped i s address type) (hv : value.Denotes σ b)
    (hshared : ∀ mo, g.objectAt (g.objectBase address type) = some mo → mo.isSharedConcrete = true →
      value.isConstant = true) :
    g.Stores i σ (update M (g.getHostAddress address type) b) s (g.writeMemory8 s i address value type) := by
  have hrange : g.MappedRange i s address type 1 := by
    intro k hk
    obtain rfl : k = 0 := by omega
    rwa [show address + ofNat 64 0 = address from BitVec.add_zero address]
  have hlt := g.objectOffset_lt address
  have hstore : storeAt M (g.hosts address type) b.toNat 1 = update M (g.getHostAddress address type) b := by
    rw [storeAt, storeAt, hosts_zero, pow_zero, Nat.div_one, ofNat_toNat, setWidth_eq]
  unfold MemoryLayout.writeMemory8
  rw [if_pos hv.width, ← hstore]
  refine h.writeRange hrange Nat.one_pos (by omega) fun mo o m hmo ho => ?_
  rw [objectOffset_getHostAddress hm.mapped, writeTo, if_neg (by simpa using hshared mo hmo)]
  exact ho.writeAt _ (by decide) hv

/-- The bytes stored so far are those of a shorter write. -/
theorem Standing.writeLoop {v : BitVec w} (hv : value.Denotes σ v)
    (hk : 8 * k ≤ w) (hm : g.MappedRange i s address type k) (hshared : g.Takes address type value k) :
    g.Stores i σ (storeAt M (g.hosts address type) v.toNat k) s (g.writeLoop s i address value type k) := by
  induction k with
  | zero => exact ⟨s, rfl, h, fun _ hmo => hmo⟩
  | succ k ih =>
    obtain ⟨s₁, h₁, hs₁, hkept₁⟩ := ih (by omega) (fun j hj => hm j (by omega)) (fun j hj => hshared j (by omega))
    have hd := ExtractExpr.create_denotes hv (8 * k) 8 (by omega) (by omega)
    obtain ⟨s₂, h₂, hs₂, hkept₂⟩ := hs₁.writeMemory8 ((hm k (by omega)).mono hkept₁) hd (hshared k (by omega))
    refine ⟨s₂, ?_, ?_, fun mo hmo => hkept₂ mo (hkept₁ mo hmo)⟩
    · rw [MemoryLayout.writeLoop, h₁]
      exact h₂
    · rw [storeAt, FlatMemory.byte_eq]
      exact hs₂

theorem Standing.writeSymbolic {v : BitVec w} (hv : value.Denotes σ v)
    (hw : w ∈ [8, 16, 32, 64]) (hm : g.MappedRange i s address type (w / 8))
    (hc : value.isConstant = false) (hshared : g.Takes address type value (w / 8)) :
    g.Stores i σ (storeAt M (g.hosts address type) v.toNat (w / 8)) s (g.writeSymbolic s i address value type) := by
  obtain ⟨hpos, -, hw8, -, hw1, hbytes⟩ := bytes_of_width hw
  unfold MemoryLayout.writeSymbolic
  rw [hv.width, if_neg hw1]
  split_ifs with hone
  · refine h.writeRange hm hpos hone fun mo o m hmo ho => ?_
    rw [objectOffset_getHostAddress (hm.first hpos).mapped, writeTo_eq (hv.width.symm ▸ hw) hc fun hmo' k hk => ?_,
      ← hbytes]
    · exact ho.writeAt _ (List.mem_cons_of_mem 1 hw) hv
    · rw [hv.width] at hk
      exact hshared k hk mo ((hm.base_hosts hone hk).symm ▸ hmo) hmo'
  · exact h.writeLoop hv (by omega) hm hshared

section

omit h

omit [Options] in
theorem exists_of_writeObject {host : BitVec 64} {f : MemoryObject → ObjectState → Except Trap ObjectState}
    (hok : g.writeObject s i host f = .ok (true, s')) :
    ∃ mo o o', g.objectAt (base g.objectBits host) = some mo ∧ f mo o = .ok o' := by
  unfold MemoryLayout.writeObject at hok
  split at hok
  · cases hok
  · obtain ⟨⟨mo, o⟩, hfind, hok⟩ := exists_of_bind_ok hok
    obtain ⟨o', ho', -⟩ := exists_of_bind_ok hok
    obtain ⟨mo', hmo', hfind⟩ := exists_of_bind_ok hfind
    obtain ⟨_, -, hfind⟩ := exists_of_bind_ok hfind
    split at hfind
    · cases hfind
      exact ⟨mo, o, o', Trap.eq_some_of_check hmo', ho'⟩
    · cases hfind

omit [Options] in
/-- A loop that ends has written each byte to an object that takes it. -/
theorem takes_of_writeLoop {k : Nat} : ∀ {s'}, g.writeLoop s i address value type k = .ok (true, s') →
    g.Takes address type value k := by
  induction k with
  | zero => exact fun _ k hk => absurd hk (Nat.not_lt_zero k)
  | succ k ih =>
    intro s' hok j hj mo hmo hshared
    obtain ⟨⟨b, s₁⟩, h₁, hok⟩ := exists_of_bind_ok hok
    unfold writeNext at hok
    cases b with
    | false => cases hok
    | true =>
      obtain hj | rfl := Nat.lt_succ_iff_lt_or_eq.1 hj
      · exact ih h₁ j hj mo hmo hshared
      · unfold MemoryLayout.writeMemory8 at hok
        rw [if_pos rfl] at hok
        split at hok
        · rename_i hw
          obtain ⟨mo', o, o', hmo', hwrite⟩ := exists_of_writeObject hok
          obtain rfl : mo' = mo := Option.some.inj (hmo'.symm.trans hmo)
          by_contra hc
          rw [Bool.not_eq_true] at hc
          have hbyte := isConstant_of_writeTo (by simp [hw]) hc hwrite hshared (k := 0) (by simp [hw])
          rw [Nat.mul_zero, ExtractExpr.create_whole hw.symm, hc] at hbyte
          cases hbyte
        · cases hok

omit [Options] in
theorem takes_of_writeSymbolic (hc : value.isConstant = false) (hw : value.getWidth ∈ [8, 16, 32, 64])
    (hm : g.MappedRange i s address type (value.getWidth / 8))
    (hok : g.writeSymbolic s i address value type = .ok (true, s')) : g.Takes address type value (value.getWidth / 8) := by
  obtain ⟨-, -, -, -, hw1, -⟩ := bytes_of_width hw
  unfold MemoryLayout.writeSymbolic at hok
  rw [if_neg hw1] at hok
  split at hok
  · rename_i hone
    obtain ⟨mo, o, o', hmo, hwrite⟩ := exists_of_writeObject hok
    intro k hk mo' hmo' hshared
    rw [hm.base_hosts hone hk, hmo] at hmo'
    obtain rfl := Option.some.inj hmo'
    exact isConstant_of_writeTo hw hc hwrite hshared hk
  · exact takes_of_writeLoop hok

end

omit h in
theorem Standing.writeConstant (c : APInt) (h : g.Standing i σ M s) (hw : c.width ∈ [8, 16, 32, 64])
    (hm : g.MappedRange i s address type (c.width / 8))
    (hone : g.objectOffset address + c.width / 8 ≤ 2 ^ g.objectBits) :
    g.Stores i σ (storeAt M (g.hosts address type) c.bits.toNat (c.width / 8)) s
      (g.writeConstant s i address c type) := by
  obtain ⟨hpos, -, -, hmod, -, hbytes⟩ := bytes_of_width hw
  have hbuf : g.writeBuffer i s address (bytesOf c) c.width type =
      g.writeObject s i (g.getHostAddress address type) fun _ o =>
        .ok (o.writeBytes (g.objectOffset address) (bytesOf c)) := by
    rw [writeBuffer, if_pos hmod, if_pos hone, List.take_of_length_le]
    · rfl
    · rw [bytesOf, List.length_map, List.length_range, hbytes]
  have hwrite : g.Stores i σ (storeAt M (g.hosts address type) c.bits.toNat (c.width / 8)) s
      (g.writeBuffer i s address (bytesOf c) c.width type) := by
    rw [hbuf]
    refine h.writeRange hm hpos hone fun mo o m _ ho => ⟨_, rfl, ?_⟩
    rw [← FlatMemory.store_bytes, ← hbytes]
    exact ObjectState.writeBytes_keeps (fun m o j b ho => ho.writeByte b) _ ho
  simp only [List.mem_cons, List.not_mem_nil, or_false] at hw
  unfold MemoryLayout.writeConstant
  split_ifs with h8 h16
  · grind
  · exact hwrite
  · omega

omit [Options] h in
/-- A constant of several bytes that does not lie in one object: the first part has a size below eight. -/
theorem writeConstant_straddles (c : APInt) (hw : c.width ∈ [8, 16, 32, 64])
    (hone : ¬ g.objectOffset address + c.width / 8 ≤ 2 ^ g.objectBits) :
    g.writeConstant s i address c type = .error .assertFailed := by
  obtain ⟨-, hle, -, hmod, -, -⟩ := bytes_of_width hw
  have hlt := g.objectOffset_lt address
  simp only [List.mem_cons, List.not_mem_nil, or_false] at hw
  have hfirst : g.writeBuffer i s address (bytesOf c) (2 ^ g.objectBits - g.objectOffset address) type =
      .error .assertFailed := by
    rw [writeBuffer, if_neg (by omega)]
    rfl
  unfold MemoryLayout.writeConstant
  rw [if_neg (by omega), if_pos (by omega), writeBuffer, if_pos hmod, if_neg hone]
  simp only [hfirst]
  rfl

/-! ## Values read back -/

/-- The write succeeds, the value is read back from where it was written, and a byte that is at none of the host addresses
of the range reads as before. -/
def ReadsBack (g : MemoryLayout) (i : Nat) (s : System ObjectState) (σ : Assignment) (address : BitVec 64) (value : Expr)
    (type : AddressType) : Prop :=
  ∃ s', g.writeMemory s i address value type = .ok (true, s') ∧
    (∃ e s₁, g.readMemory s' i address value.getWidth type = .ok (some e, s₁) ∧ e.Denotes σ (value.value σ)) ∧
    ∀ a t, g.Mapped i s a t → (∀ k < value.getWidth / 8, g.getHostAddress a t ≠ g.hosts address type k) →
      ∃ e s₁ e' s₂, g.readMemory8 s i a t = .ok (some e, s₁) ∧ g.readMemory8 s' i a t = .ok (some e', s₂) ∧
        e.eval σ 8 = e'.eval σ 8

/-- A write that stores the value is one whose value is read back. -/
theorem Standing.readsBack (hw : value.getWidth ∈ [8, 16, 32, 64])
    (hm : g.MappedRange i s address type (value.getWidth / 8))
    (hwrite : g.Stores i σ (storeAt M (g.hosts address type) (value.value σ).toNat (value.getWidth / 8)) s
      (g.writeMemory s i address value type)) : g.ReadsBack i s σ address value type := by
  obtain ⟨s', hok, hs', hkept⟩ := hwrite
  obtain ⟨-, hle, hw8, -, -, -⟩ := bytes_of_width hw
  refine ⟨s', hok, ?_, fun a t ha hout => ?_⟩
  · obtain ⟨e, s₁, he, hd⟩ := hs'.readMemory hw fun k hk => (hm k hk).mono hkept
    refine ⟨e, s₁, he, ?_⟩
    have hstored : FlatMemory.read (storeAt M (g.hosts address type) (value.value σ).toNat (value.getWidth / 8) ∘
        g.hosts address type) 0 (value.getWidth / 8) = (value.value σ).toNat := by
      have hlt := (value.value σ).isLt
      rw [FlatMemory.read_bytes fun k hk => ?_, Nat.mod_eq_of_lt]
      · rwa [← FlatMemory.two_pow_eight_mul, hw8]
      · rw [Nat.zero_add]
        exact storeAt_self (hm.ne (hle.trans (by decide))) hk
    rw [hstored, ofNat_toNat, setWidth_eq] at hd
    exact hd
  · obtain ⟨e, s₁, he, hd, -, -⟩ := h.readMemory8 ha
    obtain ⟨e', s₂, he', hd', -, -⟩ := hs'.readMemory8 (ha.mono hkept)
    refine ⟨e, s₁, e', s₂, he, he', ?_⟩
    rw [hd.eval, hd'.eval, storeAt_of_ne hout]

end

/-- A constant is read back if and only if it lies in one object; one that lies in two makes an assertion fail. A symbolic
value is read back if and only if no symbolic byte of it goes to a shared object. -/
theorem writeMemory_reads_back_iff {value : Expr} (h : g.Standing i σ M s) (hw : value.getWidth ∈ [8, 16, 32, 64])
    (hv : value.InBounds σ) (hm : g.MappedRange i s address type (value.getWidth / 8)) :
    g.ReadsBack i s σ address value type ↔
      if value.isConstant = true then g.objectOffset address + value.getWidth / 8 ≤ 2 ^ g.objectBits
      else g.Takes address type value (value.getWidth / 8) := by
  obtain ⟨-, -, -, hmod, -, -⟩ := bytes_of_width hw
  cases hc : value.isConstant with
  | false =>
    have heq : g.writeMemory s i address value type = g.writeSymbolic s i address value type := by
      unfold MemoryLayout.writeMemory
      rw [if_pos (.inr hmod)]
      cases value with
      | constant c => cases hc
      | _ => rfl
    rw [if_neg Bool.false_ne_true]
    constructor
    · rintro ⟨s', hok, -⟩
      exact takes_of_writeSymbolic hc hw hm (heq ▸ hok)
    · intro htakes
      apply h.readsBack hw hm
      rw [heq]
      exact h.writeSymbolic hv.denotes hw hm hc htakes
  | true =>
    obtain ⟨c, rfl⟩ : ∃ c, value = .constant c := by
      cases value with
      | constant c => exact ⟨c, rfl⟩
      | _ => cases hc
    have hle : c.width ≤ 64 := by
      have hw' : c.width ∈ [8, 16, 32, 64] := hw
      simp only [List.mem_cons, List.not_mem_nil, or_false] at hw'
      omega
    have heq : g.writeMemory s i address (.constant c) type = g.writeConstant s i address c type := by
      unfold MemoryLayout.writeMemory
      rw [if_pos (.inr hmod)]
      exact if_pos hle
    have hval : (Expr.constant c).value σ = c.bits := Expr.eval_constant c.bits σ
    rw [if_pos rfl]
    constructor
    · rintro ⟨s', hok, -⟩
      by_contra hone
      rw [heq, writeConstant_straddles c hw hone] at hok
      cases hok
    · intro hone
      apply h.readsBack hw hm
      rw [heq, hval]
      exact h.writeConstant c hw hm hone

end Accesses

/-! ## Two pages that are not next to each other -/

section TwoPages

/-- The object at the end of one host page, and the one at the start of another. -/
def objectsAt (address : BitVec 64) : Option MemoryObject :=
  if address = 0x5f80 then some ⟨0, false⟩ else if address = 0x9000 then some ⟨1, false⟩ else none

theorem objectsAt_cases {address : BitVec 64} (h : objectsAt address = some mo) :
    address = 0x5f80 ∧ mo = ⟨0, false⟩ ∨ address = 0x9000 ∧ mo = ⟨1, false⟩ := by
  unfold objectsAt at h
  split at h
  · exact .inl ⟨‹_›, (Option.some.inj h).symm⟩
  · split at h
    · exact .inr ⟨‹_›, (Option.some.inj h).symm⟩
    · cases h

/-- The first two virtual pages. -/
def twoPages : MemoryLayout where
  objectBits := 7
  objectBits_le := by decide
  getPhysPage page := page
  getPhysRamPtr page := if page = 0 then 0x5000 else if page = 0x1000 then 0x9000 else 0
  objectAt := objectsAt
  isUserSpecified _ := true
  size _ := 128
  getPhysRamPtr_aligned page := by
    split
    · decide
    · split <;> decide
  objectAt_aligned {address mo} h := by
    obtain ⟨rfl, -⟩ | ⟨rfl, -⟩ := objectsAt_cases h <;> decide
  objectAt_inj {address address' mo} h h' := by
    obtain ⟨rfl, rfl⟩ | ⟨rfl, rfl⟩ := objectsAt_cases h <;> obtain ⟨rfl, h₂⟩ | ⟨rfl, h₂⟩ := objectsAt_cases h' <;>
      first | rfl | cases h₂

def zeroObject : ObjectState := .concrete true 0 0 128 (by decide) fun _ => 0

/-- Both objects are bound, each to an object state of its own. -/
def bound (mo : MemoryObject) : Option Nat :=
  if mo = ⟨0, false⟩ then some 0 else if mo = ⟨1, false⟩ then some 1 else none

theorem bound_cases {os : Nat} (h : bound mo = some os) : mo = ⟨0, false⟩ ∧ os = 0 ∨ mo = ⟨1, false⟩ ∧ os = 1 := by
  unfold bound at h
  split at h
  · exact .inl ⟨‹_›, (Option.some.inj h).symm⟩
  · split at h
    · exact .inr ⟨‹_›, (Option.some.inj h).symm⟩
    · cases h

def twoObjects : System ObjectState :=
  ⟨[⟨1, bound⟩], [⟨1, false, zeroObject⟩, ⟨1, false, zeroObject⟩], fun _ => zeroObject⟩

theorem twoObjects_distinct : twoObjects.Distinct 0 where
  alloc {a mo os} ha hos := by
    cases ha
    obtain ⟨-, rfl⟩ | ⟨-, rfl⟩ := bound_cases hos <;> decide
  inj {a mo mo' os} ha hos hos' := by
    cases ha
    obtain ⟨rfl, rfl⟩ | ⟨rfl, rfl⟩ := bound_cases hos <;> obtain ⟨rfl, h₂⟩ | ⟨rfl, h₂⟩ := bound_cases hos' <;>
      first | rfl | cases h₂

theorem twoObjects_standing (σ : Assignment) : twoPages.Standing 0 σ (fun _ => 0) twoObjects where
  distinct := twoObjects_distinct
  sync {B mo o} hB ho := by
    have hzero : o = zeroObject := by
      obtain ⟨-, rfl⟩ | ⟨-, rfl⟩ := objectsAt_cases hB
      · exact (Option.some.inj ho).symm
      · exact (Option.some.inj ho).symm
    rw [hzero]
    exact ObjectState.sync_concrete ..

theorem twoObjects_mapped : twoPages.MappedRange 0 twoObjects 0xfff .VirtualAddress 2 := by
  intro k hk
  obtain rfl | rfl : k = 0 ∨ k = 1 := by omega
  · exact ⟨by decide, ⟨0, false⟩, rfl, rfl, rfl, _, 0, _, rfl, rfl, rfl, rfl⟩
  · exact ⟨by decide, ⟨1, false⟩, rfl, rfl, rfl, _, 1, _, rfl, rfl, rfl, rfl⟩

/-- A symbolic value over the two pages. -/
theorem writeMemory_reads_back_iff_twoPages :
    twoPages.ReadsBack 0 twoObjects (fun _ _ => 7) 0xfff (.zext (symbolicByte 0 "x") 16) .VirtualAddress := by
  have hin : (Expr.zext (symbolicByte 0 "x") 16).InBounds fun _ _ => 7 :=
    ⟨symbolicByte_inBounds _ 0 "x", show 8 ≤ 16 by decide⟩
  refine (writeMemory_reads_back_iff (twoObjects_standing _) (show 16 ∈ _ by decide) hin twoObjects_mapped).2 ?_
  intro k _ mo hmo hshared
  obtain ⟨-, rfl⟩ | ⟨-, rfl⟩ := objectsAt_cases hmo <;> cases hshared

/-- A constant over the two pages. -/
theorem writeMemory_constant_straddles : twoPages.Standing 0 (fun _ _ => 0) (fun _ => 0) twoObjects ∧
    twoPages.MappedRange 0 twoObjects 0xfff .VirtualAddress 2 ∧
    twoPages.writeMemory twoObjects 0 0xfff (.const 0x1234 16) .VirtualAddress = .error .assertFailed := by
  refine ⟨twoObjects_standing _, twoObjects_mapped, ?_⟩
  exact writeConstant_straddles (.ofNat 0x1234 16) (show 16 ∈ _ by decide) (by decide)

end TwoPages

end MemoryLayout

end S2E.Qemu
