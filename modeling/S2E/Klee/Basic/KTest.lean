import Mathlib.Data.List.TakeWhile
import S2E.Lib.Reader

/-!
# `KTest` files

A test case is stored as a sequence of big-endian words and of length-prefixed strings.

* `fread`, `fwrite` : one item of a given size. An item of size zero counts as not read and not written, as in C;
* `kTestToFile`, `kTestFromFile` : the writer and the reader, `none` where they return 0;
* `KTest.bytes` : what the writer leaves in the file (`kTestToFile_eq_some`), `KTest.Writable` : when it gets to its end;
* `KTest.stored` : what the reader makes of these bytes (`kTestFromFile_bytes`).
-/

namespace S2E.Klee
open S2E.Lib List

/-- A `char *`: the characters before the NUL. -/
@[ext] structure CString where
  chars : List (BitVec 8)
  nul_notMem : 0 ∉ chars
deriving DecidableEq

/-- The string that a buffer holds. -/
def CString.ofBuffer (buffer : List (BitVec 8)) : CString where
  chars := buffer.takeWhile (· ≠ 0)
  nul_notMem h := by simpa using mem_takeWhile_imp h

/-- `unsigned len = strlen(value)`. -/
def CString.strlen (s : CString) : BitVec 32 := BitVec.ofNat 32 s.chars.length

structure KTestObject where
  name : CString
  bytes : List (BitVec 8)
  numBytes_lt : bytes.length < 2 ^ 32
deriving DecidableEq

structure KTest where
  version : BitVec 32
  args : List CString
  symArgvs : BitVec 32
  symArgvLen : BitVec 32
  objects : List KTestObject
  numArgs_lt : args.length < 2 ^ 32
  numObjects_lt : objects.length < 2 ^ 32
deriving DecidableEq

def KTestObject.numBytes (o : KTestObject) : BitVec 32 := BitVec.ofNat 32 o.bytes.length

def KTest.numArgs (t : KTest) : BitVec 32 := BitVec.ofNat 32 t.args.length

def KTest.numObjects (t : KTest) : BitVec 32 := BitVec.ofNat 32 t.objects.length

def kTestVersion : BitVec 32 := 3

/-- `"KTEST"`. -/
def kTestMagic : List (BitVec 8) := [0x4B, 0x54, 0x45, 0x53, 0x54]

/-- `"BOUT\n"`. -/
def boutMagic : List (BitVec 8) := [0x42, 0x4F, 0x55, 0x54, 0x0A]

def kTestGetCurrentVersion : BitVec 32 := kTestVersion

/-! ## Writing -/

/-- `fwrite(bytes, size, 1, f) == 1`, for a file of which `writes off n` says whether `n` bytes can be written at `off`. -/
def fwrite (writes : Nat → Nat → Bool) (bytes file : List (BitVec 8)) : Option (List (BitVec 8)) :=
  if bytes = [] then none else if writes file.length bytes.length then some (file ++ bytes) else none

def uint32Bytes (value : BitVec 32) : List (BitVec 8) :=
  [(value >>> 24).setWidth 8, (value >>> 16).setWidth 8, (value >>> 8).setWidth 8, (value >>> 0).setWidth 8]

section

variable (writes : Nat → Nat → Bool)

def writeUint32 (value : BitVec 32) : List (BitVec 8) → Option (List (BitVec 8)) :=
  fwrite writes (uint32Bytes value)

def writeString (value : CString) (f : List (BitVec 8)) : Option (List (BitVec 8)) := do
  let f ← writeUint32 writes value.strlen f
  fwrite writes (value.chars.take value.strlen.toNat) f

def writeObject (o : KTestObject) (f : List (BitVec 8)) : Option (List (BitVec 8)) := do
  let f ← writeString writes o.name f
  let f ← writeUint32 writes o.numBytes f
  fwrite writes o.bytes f

def kTestToFile (bo : KTest) : Option (List (BitVec 8)) := do
  let f ← fwrite writes kTestMagic []
  let f ← writeUint32 writes kTestVersion f
  let f ← writeUint32 writes bo.numArgs f
  let f ← bo.args.foldlM (fun f arg => writeString writes arg f) f
  let f ← writeUint32 writes bo.symArgvs f
  let f ← writeUint32 writes bo.symArgvLen f
  let f ← writeUint32 writes bo.numObjects f
  bo.objects.foldlM (fun f o => writeObject writes o f) f

end

/-! ## Reading -/

/-- `fread(buffer, size, 1, f) == 1`, and the buffer. -/
def fread (size : Nat) : Reader (BitVec 8) { buffer : List (BitVec 8) // buffer.length = size } := fun f =>
  if h : 0 < size ∧ size ≤ f.length then some (⟨f.take size, length_take_of_le h.2⟩, f.drop size) else none

def uint32OfBytes (data : List (BitVec 8)) : BitVec 32 :=
  let data (i : Nat) : BitVec 32 := (data.getD i 0).setWidth 32
  ((((((data 0) <<< 8) + data 1) <<< 8) + data 2) <<< 8) + data 3

def readUint32 : Reader (BitVec 8) (BitVec 32) := do
  let data ← fread 4
  pure (uint32OfBytes data.val)

def readString : Reader (BitVec 8) CString := do
  let len ← readUint32
  -- malloc(len + 1) is given zero where the sum wraps around, and the read overruns the buffer
  guard (len + 1 ≠ 0)
  let buffer ← fread len.toNat
  pure (CString.ofBuffer buffer.val)

def readObject : Reader (BitVec 8) KTestObject := do
  let name ← readString
  let numBytes ← readUint32
  let bytes ← fread numBytes.toNat
  pure ⟨name, bytes.val, by rw [bytes.property]; exact numBytes.isLt⟩

def kTestCheckHeader : Reader (BitVec 8) Unit := do
  let header ← fread 5
  guard (header.val = kTestMagic ∨ header.val = boutMagic)

def readKTest : Reader (BitVec 8) KTest := do
  kTestCheckHeader
  let version ← readUint32
  guard (version ≤ kTestGetCurrentVersion)
  let numArgs ← readUint32
  let args ← many readString numArgs.toNat
  let symArgvs ← if 2 ≤ version then readUint32 else pure 0
  let symArgvLen ← if 2 ≤ version then readUint32 else pure 0
  let numObjects ← readUint32
  let objects ← many readObject numObjects.toNat
  pure
    { version, symArgvs, symArgvLen
      args := args.val
      objects := objects.val
      numArgs_lt := by rw [args.property]; exact numArgs.isLt
      numObjects_lt := by rw [objects.property]; exact numObjects.isLt }

def kTestIsKTestFile (file : List (BitVec 8)) : Bool := (kTestCheckHeader.run file).isSome

def kTestFromFile (file : List (BitVec 8)) : Option KTest := (readKTest.run file).map Prod.fst

/-! ## What is written -/

def CString.bytes (s : CString) : List (BitVec 8) := uint32Bytes s.strlen ++ s.chars.take s.strlen.toNat

/-- `write_string` gets to its end. -/
def CString.Writable (s : CString) : Prop := s.chars.take s.strlen.toNat ≠ []

def KTestObject.record (o : KTestObject) : List (BitVec 8) := o.name.bytes ++ uint32Bytes o.numBytes ++ o.bytes

def KTestObject.Writable (o : KTestObject) : Prop := o.name.Writable ∧ o.bytes ≠ []

def KTest.bytes (t : KTest) : List (BitVec 8) :=
  kTestMagic ++ uint32Bytes kTestVersion ++ uint32Bytes t.numArgs ++ t.args.flatMap CString.bytes ++
    uint32Bytes t.symArgvs ++ uint32Bytes t.symArgvLen ++ uint32Bytes t.numObjects ++ t.objects.flatMap KTestObject.record

def KTest.Writable (t : KTest) : Prop := (∀ arg ∈ t.args, arg.Writable) ∧ ∀ o ∈ t.objects, o.Writable

section Writing

variable {writes : Nat → Nat → Bool} (hw : ∀ off n, writes off n = true)

include hw

theorem fwrite_eq_some (bytes f g : List (BitVec 8)) :
    fwrite writes bytes f = some g ↔ bytes ≠ [] ∧ g = f ++ bytes := by
  rw [fwrite, hw]
  by_cases h : bytes = []
  · simp [h]
  · simp [h, eq_comm]

theorem writeUint32_eq_some (value : BitVec 32) (f g : List (BitVec 8)) :
    writeUint32 writes value f = some g ↔ g = f ++ uint32Bytes value := by
  rw [writeUint32, fwrite_eq_some hw]
  simp [uint32Bytes]

theorem writeString_eq_some (value : CString) (f g : List (BitVec 8)) :
    writeString writes value f = some g ↔ value.Writable ∧ g = f ++ value.bytes := by
  simp [writeString, Option.bind_eq_some_iff, writeUint32_eq_some hw, fwrite_eq_some hw, CString.Writable, CString.bytes]

theorem writeObject_eq_some (o : KTestObject) (f g : List (BitVec 8)) :
    writeObject writes o f = some g ↔ o.Writable ∧ g = f ++ o.record := by
  simp [writeObject, Option.bind_eq_some_iff, writeUint32_eq_some hw, writeString_eq_some hw, fwrite_eq_some hw,
    KTestObject.Writable, KTestObject.record, and_assoc]

omit hw in
theorem foldlM_eq_some {α : Type} {write : α → List (BitVec 8) → Option (List (BitVec 8))} {ok : α → Prop}
    {bytes : α → List (BitVec 8)} (h : ∀ a f g, write a f = some g ↔ ok a ∧ g = f ++ bytes a) (as : List α)
    (f g : List (BitVec 8)) :
    as.foldlM (fun f a => write a f) f = some g ↔ (∀ a ∈ as, ok a) ∧ g = f ++ as.flatMap bytes := by
  induction as generalizing f with
  | nil => simp [eq_comm]
  | cons a as ih => simp [foldlM_cons, Option.bind_eq_some_iff, h, ih, and_assoc]

theorem kTestToFile_eq_some (t : KTest) (file : List (BitVec 8)) :
    kTestToFile writes t = some file ↔ t.Writable ∧ file = t.bytes := by
  simp [kTestToFile, Option.bind_eq_some_iff, fwrite_eq_some hw, writeUint32_eq_some hw,
    foldlM_eq_some (writeString_eq_some hw), foldlM_eq_some (writeObject_eq_some hw), KTest.Writable, KTest.bytes,
    kTestMagic, and_assoc]

end Writing

/-! ## What is read back -/

/-- The string that `read_string` makes of what `write_string` has written. -/
def CString.stored (s : CString) : Option CString := do
  guard (s.strlen + 1 ≠ 0)
  guard (s.strlen.toNat ≠ 0)
  pure (CString.ofBuffer (s.chars.take s.strlen.toNat))

def KTestObject.stored (o : KTestObject) : Option KTestObject := do
  let name ← o.name.stored
  guard (o.bytes.length ≠ 0)
  pure { o with name }

def KTest.stored (t : KTest) : Option KTest := do
  let args ← mapAll CString.stored t.args
  let objects ← mapAll KTestObject.stored t.objects
  pure
    { version := kTestVersion
      symArgvs := t.symArgvs
      symArgvLen := t.symArgvLen
      args := args.val
      objects := objects.val
      numArgs_lt := by rw [args.property]; exact t.numArgs_lt
      numObjects_lt := by rw [objects.property]; exact t.numObjects_lt }

theorem reads_fread {size : Nat} {buffer : List (BitVec 8)} (h : buffer.length = size) :
    Reads (fread size) buffer (do guard (size ≠ 0); pure ⟨buffer, h⟩) := by
  intro rest
  subst h
  by_cases hs : buffer.length ≠ 0
  · have hf : 0 < buffer.length ∧ buffer.length ≤ (buffer ++ rest).length := by
      rw [length_append]
      omega
    simp [StateT.run, fread, hs, hf]
  · simp only [StateT.run, fread, guard, if_neg hs]
    rw [dif_neg (by omega)]
    rfl

theorem uint32OfBytes_uint32Bytes (value : BitVec 32) : uint32OfBytes (uint32Bytes value) = value := by
  apply BitVec.eq_of_toNat_eq
  simp only [uint32OfBytes, uint32Bytes, getD_cons_zero, getD_cons_succ, BitVec.toNat_add,
    BitVec.toNat_shiftLeft, BitVec.toNat_setWidth, BitVec.toNat_ushiftRight, Nat.shiftLeft_eq, Nat.shiftRight_eq_div_pow]
  omega

theorem reads_word {data : List (BitVec 8)} (h : data.length = 4) : Reads readUint32 data (some (uint32OfBytes data)) :=
  (reads_fread h).bind_pure fun data => uint32OfBytes data.val

theorem reads_readUint32 (value : BitVec 32) : Reads readUint32 (uint32Bytes value) (some value) := by
  have h : Reads readUint32 (uint32Bytes value) _ := reads_word rfl
  rwa [uint32OfBytes_uint32Bytes] at h

theorem CString.length_take_strlen (s : CString) : (s.chars.take s.strlen.toNat).length = s.strlen.toNat := by
  rw [length_take, strlen, BitVec.toNat_ofNat]
  exact min_eq_left (Nat.mod_le _ _)

theorem reads_readString (s : CString) : Reads readString s.bytes s.stored := by
  rw [readString, CString.bytes, CString.stored]
  apply (reads_readUint32 s.strlen).then
  apply reads_guard.bind
  intro _ _
  have h := (reads_fread s.length_take_strlen).bind_pure fun buffer => CString.ofBuffer buffer.val
  simpa [map_bind] using h

theorem KTestObject.toNat_numBytes (o : KTestObject) : o.numBytes.toNat = o.bytes.length :=
  Nat.mod_eq_of_lt o.numBytes_lt

theorem reads_readObject (o : KTestObject) : Reads readObject o.record o.stored := by
  rw [KTestObject.record, append_assoc]
  apply (reads_readString o.name).bind
  intro name _
  apply (reads_readUint32 o.numBytes).then
  have h := (reads_fread o.toNat_numBytes.symm).bind_pure fun bytes =>
    KTestObject.mk name bytes.val (by rw [bytes.property]; exact o.numBytes.isLt)
  simpa [map_bind, o.toNat_numBytes] using h

theorem KTest.toNat_numArgs (t : KTest) : t.numArgs.toNat = t.args.length := Nat.mod_eq_of_lt t.numArgs_lt

theorem KTest.toNat_numObjects (t : KTest) : t.numObjects.toNat = t.objects.length := Nat.mod_eq_of_lt t.numObjects_lt

theorem reads_kTestCheckHeader : Reads kTestCheckHeader kTestMagic (some ()) := by
  have length : kTestMagic.length = 5 := rfl
  rw [← append_nil kTestMagic, kTestCheckHeader]
  exact (reads_fread length).then reads_guard

theorem reads_readKTest (t : KTest) : Reads readKTest t.bytes t.stored := by
  have current : kTestVersion ≤ kTestGetCurrentVersion := by decide
  have symArgs : 2 ≤ kTestVersion := by decide
  rw [KTest.bytes, readKTest, ← append_nil (t.objects.flatMap _)]
  simp only [append_assoc]
  apply reads_kTestCheckHeader.then
  apply (reads_readUint32 kTestVersion).then
  rw [guard, if_pos current, pure_bind]
  apply (reads_readUint32 t.numArgs).then
  apply Reads.many_bind reads_readString t.toNat_numArgs.symm
  intro args
  rw [if_pos symArgs]
  apply (reads_readUint32 t.symArgvs).then
  rw [if_pos symArgs]
  apply (reads_readUint32 t.symArgvLen).then
  apply (reads_readUint32 t.numObjects).then
  apply Reads.many_bind reads_readObject t.toNat_numObjects.symm
  intro objects
  exact Reads.pure _

theorem kTestFromFile_bytes (t : KTest) : kTestFromFile t.bytes = t.stored := by
  have h := reads_readKTest t []
  rw [append_nil] at h
  rw [kTestFromFile, h, Option.map_map]
  exact congrFun Option.map_id t.stored

theorem kTestIsKTestFile_bytes (t : KTest) : kTestIsKTestFile t.bytes = true := by
  have h := reads_kTestCheckHeader (uint32Bytes kTestVersion ++ (uint32Bytes t.numArgs ++ (t.args.flatMap CString.bytes ++
    (uint32Bytes t.symArgvs ++ (uint32Bytes t.symArgvLen ++ (uint32Bytes t.numObjects ++
      t.objects.flatMap KTestObject.record))))))
  simp only [kTestIsKTestFile, KTest.bytes, append_assoc, h, Option.map_some, Option.isSome_some]

/-! ## What comes back -/

/-- The length of the string is neither zero nor too large for the reader's buffer. -/
def CString.Kept (s : CString) : Prop := s.chars ≠ [] ∧ s.chars.length + 1 < 2 ^ 32

def KTestObject.Kept (o : KTestObject) : Prop := o.name.Kept ∧ o.bytes ≠ []

def KTest.Kept (t : KTest) : Prop :=
  t.version = kTestGetCurrentVersion ∧ (∀ arg ∈ t.args, arg.Kept) ∧ ∀ o ∈ t.objects, o.Kept

theorem CString.chars_ofBuffer {buffer : List (BitVec 8)} (h : 0 ∉ buffer) : (ofBuffer buffer).chars = buffer := by
  simp only [ofBuffer, takeWhile_eq_self_iff]
  intro c hc
  simpa using fun h0 : c = 0 => h (h0 ▸ hc)

theorem CString.ofBuffer_take_eq_iff (s : CString) (n : Nat) :
    CString.ofBuffer (s.chars.take n) = s ↔ s.chars.length ≤ n := by
  rw [CString.ext_iff, chars_ofBuffer fun h => s.nul_notMem (mem_of_mem_take h), take_eq_self_iff]

theorem CString.toNat_strlen (s : CString) : s.strlen.toNat = s.chars.length % 2 ^ 32 := BitVec.toNat_ofNat _ _

theorem CString.stored_eq_some_self (s : CString) : s.stored = some s ↔ s.Kept := by
  have wraps : s.strlen + 1 = 0 ↔ s.strlen.toNat + 1 = 2 ^ 32 := by bv_omega
  have empty : s.chars = [] ↔ s.chars.length = 0 := length_eq_zero_iff.symm
  simp only [stored, Kept, Option.bind_eq_bind, guard_bind_eq_some, Option.pure_def, Option.some.injEq,
    ofBuffer_take_eq_iff, ne_eq, wraps, empty, toNat_strlen]
  omega

theorem KTestObject.stored_eq_some_self (o : KTestObject) : o.stored = some o ↔ o.Kept := by
  obtain ⟨name, bytes, _⟩ := o
  simp [stored, Kept, Option.bind_eq_some_iff, CString.stored_eq_some_self]

theorem KTest.stored_eq_some_self (t : KTest) : t.stored = some t ↔ t.Kept := by
  obtain ⟨version, args, symArgvs, symArgvLen, objects, _, _⟩ := t
  have hargs : mapAll CString.stored args = some ⟨args, rfl⟩ ↔ _ := mapAll_eq_some_self args
  have hobjects : mapAll KTestObject.stored objects = some ⟨objects, rfl⟩ ↔ _ := mapAll_eq_some_self objects
  simp only [CString.stored_eq_some_self, KTestObject.stored_eq_some_self] at hargs hobjects
  simp only [stored, Kept, Option.bind_eq_bind, Option.bind_eq_some_iff, Option.pure_def, Option.some.injEq, mk.injEq,
    ← hargs, ← hobjects]
  constructor
  · rintro ⟨args', ha, objects', ho, hv, ha', -, -, ho'⟩
    refine ⟨hv.symm, ha.trans ?_, ho.trans ?_⟩
    · exact congrArg some (Subtype.ext ha')
    · exact congrArg some (Subtype.ext ho')
  · rintro ⟨hv, ha, ho⟩
    exact ⟨_, ha, _, ho, hv.symm, rfl, trivial, trivial, rfl⟩

theorem CString.Kept.writable {s : CString} (h : s.Kept) : s.Writable := by
  have := length_pos_iff.2 h.1
  rw [CString.Writable, ← length_pos_iff, s.length_take_strlen, s.toNat_strlen]
  have := h.2
  omega

theorem KTest.Kept.writable {t : KTest} (h : t.Kept) : t.Writable := by
  constructor
  · intro arg harg
    exact (h.2.1 arg harg).writable
  · intro o ho
    exact ⟨(h.2.2 o ho).1.writable, (h.2.2 o ho).2⟩

/-- A test case is written, and comes back as it was, if and only if it has the version that the writer stores, and neither
a string nor an object of length zero (nor a string longer than its buffer). -/
theorem kTestFromFile_kTestToFile_iff {writes : Nat → Nat → Bool} (hw : ∀ off n, writes off n = true) (t : KTest) :
    (∃ file, kTestToFile writes t = some file ∧ kTestFromFile file = some t) ↔ t.Kept := by
  simp only [kTestToFile_eq_some hw]
  constructor
  · rintro ⟨_, ⟨_, rfl⟩, h⟩
    rwa [kTestFromFile_bytes, t.stored_eq_some_self] at h
  · intro h
    refine ⟨_, ⟨h.writable, rfl⟩, ?_⟩
    rwa [kTestFromFile_bytes, t.stored_eq_some_self]

/-- A test case with one argument and one object of one byte each. -/
def smallTest : KTest where
  version := 3
  args := [⟨[0x61], by decide⟩]
  symArgvs := 0
  symArgvLen := 0
  objects := [⟨⟨[0x62], by decide⟩, [0], by decide⟩]
  numArgs_lt := by decide
  numObjects_lt := by decide

theorem kTestFromFile_kTestToFile_small :
    smallTest.Kept ∧ ∃ file, kTestToFile (fun _ _ => true) smallTest = some file ∧ kTestFromFile file = some smallTest := by
  have h : smallTest.Kept := by
    simp [KTest.Kept, KTestObject.Kept, CString.Kept, smallTest, kTestGetCurrentVersion, kTestVersion]
  exact ⟨h, (kTestFromFile_kTestToFile_iff (fun _ _ => rfl) smallTest).2 h⟩

/-- The same with an object of no bytes. -/
def emptyObject : KTest :=
  { smallTest with
    objects := [⟨⟨[0x62], by decide⟩, [], by decide⟩]
    numObjects_lt := by decide }

/-- Every write succeeds, but `fwrite` of zero bytes returns 0. -/
theorem kTestToFile_emptyObject : kTestToFile (fun _ _ => true) emptyObject = none := by decide

end S2E.Klee
