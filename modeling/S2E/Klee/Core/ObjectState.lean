import S2E.Klee.Expr.Create

/-!
# `ObjectState`: the bytes of a memory object

A byte of an object is in the concrete store, among the known symbolic values, or only in the update list. Three masks,
allocated when they are first needed, say where.

* `ObjectState` : the fields of `Memory.h`. The masks and the store are functions of the offset; `arrayId` is the static
  counter from which `getUpdates` names its arrays;
* `getUpdates`, `flushRangeForRead`, `flushRangeForWrite` : the routines that move bytes into the update list;
* `read8At`, `read8`, `write8At`, `write8`, `readAt`, `read`, `writeAt`, `write` : the accesses. The names with `At` are
  the overloads for an offset that is a number;
* `Access`, `run` : sequences of accesses.

The bytes of the object are its own (`isSharedConcrete` is not set), and the context is little-endian.
-/

namespace S2E.Klee
open Function List

structure ObjectState where
  size : Nat
  size_lt : size < 2 ^ 32
  concreteStore : Nat → BitVec 8
  concreteMask : Option (Nat → Bool)
  flushMask : Option (Nat → Bool)
  knownSymbolics : Option (Nat → Option Expr)
  /-- `updates.root`. -/
  root : Option Array
  /-- `updates.head`. -/
  head : Updates
  arrayId : Nat

/-- The writes of an update list, the oldest first. -/
def Updates.oldestFirst : Updates → List (Expr × Expr)
  | .nil => []
  | .cons index value next => next.oldestFirst ++ [(index, value)]

/-- `extend`, once for each write. -/
def Updates.extendAll (u : Updates) (writes : List (Expr × Expr)) : Updates :=
  writes.foldl (fun u w => .cons w.1 w.2 u) u

namespace ObjectState

variable (o : ObjectState) (offset : Nat)

def isByteConcrete : Bool :=
  match o.concreteMask with
  | none => true
  | some m => m offset

def isByteFlushed : Bool :=
  match o.flushMask with
  | none => false
  | some m => !m offset

/-- `knownSymbolics[offset]`, null if there is no such value. -/
def knownSymbolic : Option Expr := o.knownSymbolics.bind (· offset)

def isByteKnownSymbolic : Bool := (o.knownSymbolic offset).isSome

def markByteConcrete : ObjectState :=
  { o with concreteMask := o.concreteMask.map fun m => update m offset true }

def markByteSymbolic : ObjectState :=
  { o with concreteMask := some (update (o.concreteMask.getD fun _ => true) offset false) }

/-- Without a mask, one is made in which every byte is flushed. -/
def markByteFlushed : ObjectState :=
  { o with flushMask := some (o.flushMask.elim (fun _ => false) fun m => update m offset false) }

def markByteUnflushed : ObjectState :=
  { o with flushMask := o.flushMask.map fun m => update m offset true }

def setKnownSymbolic (value : Option Expr) : ObjectState :=
  { o with
    knownSymbolics :=
      match o.knownSymbolics, value with
      | some known, value => some (update known offset value)
      | none, some e => some (update (fun _ => none) offset (some e))
      | none, none => none }

/-- `updates.extend`. -/
def extend (index value : Expr) : ObjectState := { o with head := .cons index value o.head }

/-! ## Objects as they are made -/

/-- The array from which the updates of an object start when `-use-constant-arrays` is off. -/
def tmpArray (id size : Nat) (h : size < 2 ^ 32) : Array where
  addr := id
  name := "tmp_arr" ++ toString id
  size := size
  constantValues := []
  valid := .inl rfl
  size_lt := h

/-- An object with concrete contents. -/
def concrete (useConstantArrays : Bool) (tmpId arrayId size : Nat) (h : size < 2 ^ 32) (store : Nat → BitVec 8) :
    ObjectState where
  size := size
  size_lt := h
  concreteStore := store
  concreteMask := none
  flushMask := none
  knownSymbolics := none
  root := if useConstantArrays then none else some (tmpArray tmpId size h)
  head := .nil
  arrayId := arrayId

/-- The body of the loop of `makeSymbolic`. -/
def makeByteSymbolic : ObjectState := ((o.markByteSymbolic offset).setKnownSymbolic offset none).markByteFlushed offset

def makeSymbolic : ObjectState := (range o.size).foldl makeByteSymbolic o

/-- An object with the contents of an array. -/
def symbolic (array : Array) (arrayId : Nat) (store : Nat → BitVec 8) : ObjectState :=
  makeSymbolic ⟨array.size, array.size_lt, store, none, none, none, some array, .nil, arrayId⟩

/-! ## The update list -/

/-- As many writes as there are concrete ones go into the contents of the array; the others are left. -/
def pullConcreteWrites : List (Expr × Expr) → List (BitVec 8) → List (BitVec 8) × List (Expr × Expr)
  | (.constant index, .constant value) :: writes, contents =>
    pullConcreteWrites writes (contents.set index.getZExtValue (value.bits.setWidth 8))
  | writes, contents => (contents, writes)

theorem length_pullConcreteWrites : ∀ (writes : List (Expr × Expr)) (contents : List (BitVec 8)),
    (pullConcreteWrites writes contents).1.length = contents.length := by
  intro writes contents
  fun_induction pullConcreteWrites writes contents with
  | case1 index value writes contents ih => rw [ih, length_set]
  | case2 => rfl

/-- The constant array of `getUpdates`. -/
def constantArray : Array where
  addr := o.arrayId + 1
  name := "const_arr" ++ toString (o.arrayId + 1)
  size := o.size
  constantValues := (pullConcreteWrites o.head.oldestFirst (replicate o.size 0)).1
  valid := .inr (by rw [length_pullConcreteWrites, length_replicate])
  size_lt := o.size_lt

/-- A new update list on the constant array, with the writes that are not in the array. -/
def startUpdates : ObjectState :=
  { o with
    root := some o.constantArray
    head := Updates.extendAll .nil (pullConcreteWrites o.head.oldestFirst (replicate o.size 0)).2
    arrayId := o.arrayId + 1 }

/-- The root, and the object with the updates. The constant array is made when it is first asked for. -/
def getUpdates : Array × ObjectState :=
  match o.root with
  | some root => (root, o)
  | none => (o.constantArray, o.startUpdates)

/-- `if (!flushMask) flushMask = new BitArray(size, true)`. -/
def makeFlushMask : ObjectState := { o with flushMask := some (o.flushMask.getD fun _ => true) }

/-- The value of the byte that is at hand without the update list. -/
def cached : Option Expr :=
  if o.isByteConcrete offset then some (.const (o.concreteStore offset).toNat 8) else o.knownSymbolic offset

/-- The byte is no longer at hand. -/
def dropCached : ObjectState :=
  if o.isByteConcrete offset then o.markByteSymbolic offset
  else if o.isByteKnownSymbolic offset then o.setKnownSymbolic offset none
  else o

/-- A byte that is not flushed goes to the update list. -/
def flushForRead : Except Trap ObjectState :=
  if o.isByteFlushed offset then .ok o
  else
    match o.cached offset with
    | some e => .ok ((o.extend (.const offset 32) e).markByteFlushed offset)
    | none => .error .assertFailed

/-- The byte is going to be written over: it goes to the update list and is marked out. -/
def flushForWrite : Except Trap ObjectState :=
  if o.isByteFlushed offset then .ok (o.dropCached offset)
  else
    match o.cached offset with
    | some e => .ok (((o.extend (.const offset 32) e).dropCached offset).markByteFlushed offset)
    | none => .error .assertFailed

/-- The range is the whole object (`fastRangeCheckOffset`). -/
def flushRangeForRead : Except Trap ObjectState := (range o.size).foldlM flushForRead o.makeFlushMask

def flushRangeForWrite : Except Trap ObjectState := (range o.size).foldlM flushForWrite o.makeFlushMask

/-! ## One byte -/

/-- `write8(unsigned, uint8_t)`. -/
def writeByte (value : BitVec 8) : ObjectState :=
  let stored := { o with concreteStore := update o.concreteStore offset value }
  ((stored.setKnownSymbolic offset none).markByteConcrete offset).markByteUnflushed offset

/-- The bytes of a buffer, one after the other. -/
def writeBytes (o : ObjectState) (offset : Nat) : List (BitVec 8) → ObjectState
  | [] => o
  | b :: bs => writeBytes (o.writeByte offset b) (offset + 1) bs

variable [Options]

def read8At : Except Trap (Expr × ObjectState) :=
  match o.cached offset with
  | some e => .ok (e, o)
  | none =>
    if o.isByteFlushed offset then
      .ok (ReadExpr.create o.getUpdates.1 o.getUpdates.2.head (.const offset 32), o.getUpdates.2)
    else .error .assertFailed

/-- The offset is symbolic. -/
def read8 (offset : Expr) : Except Trap (Expr × ObjectState) :=
  if offset.isConstant then .error .assertFailed
  else do
    let o ← o.flushRangeForRead
    return (ReadExpr.create o.getUpdates.1 o.getUpdates.2.head (ZExtExpr.create offset 32), o.getUpdates.2)

omit [Options] in
def write8At (value : Expr) : ObjectState :=
  match value with
  | .constant c => o.writeByte offset (c.bits.setWidth 8)
  | value => ((o.setKnownSymbolic offset (some value)).markByteSymbolic offset).markByteUnflushed offset

/-- The offset is symbolic. -/
def write8 (offset value : Expr) : Except Trap ObjectState :=
  if offset.isConstant then .error .assertFailed
  else do
    let o ← o.flushRangeForWrite
    return o.extend (ZExtExpr.create offset 32) value

/-! ## Several bytes -/

omit [Options] in
/-- `NumBytes`. -/
def numBytes (width : Nat) : Nat := width / 8

/-- The loop of `read`: the bytes read so far are the low ones of the result. -/
def readBytes (readByte : ObjectState → Nat → Except Trap (Expr × ObjectState)) (o : ObjectState) :
    Nat → Except Trap (Option Expr × ObjectState)
  | 0 => .ok (none, o)
  | i + 1 => do
    let r ← readBytes readByte o i
    let b ← readByte r.2 i
    return (some (r.1.elim b.1 (ConcatExpr.create b.1)), b.2)

/-- `read`, given how the byte at a distance from the offset is read, and how the byte at the offset itself is. -/
def readWith (readByte : ObjectState → Nat → Except Trap (Expr × ObjectState))
    (readFirst : Except Trap (Expr × ObjectState)) (width : Nat) : Except Trap (Expr × ObjectState) :=
  if width = 1 then do
    let r ← readFirst
    return (ExtractExpr.create r.1 0 1, r.2)
  else if width = 8 * numBytes width then do
    let r ← readBytes readByte o (numBytes width)
    match r.1 with
    | some e => return (e, r.2)
    | none => .error .assertFailed
  else .error .assertFailed

def readAt (width : Nat) : Except Trap (Expr × ObjectState) :=
  o.readWith (fun o i => o.read8At (offset + i)) (o.read8At offset) width

def read (offset : Expr) (width : Nat) : Except Trap (Expr × ObjectState) :=
  match ZExtExpr.create offset 32 with
  | .constant c => o.readAt c.getZExtValue width
  | offset => o.readWith (fun o i => o.read8 (AddExpr.create offset (.const i 32))) (o.read8 offset) width

/-- The general case of `write`, given how the byte at a distance from the offset is written, and how the byte at the
offset itself is. -/
def writeWith (writeByte : ObjectState → Nat → Expr → Except Trap ObjectState) (writeFirst : Expr → Except Trap ObjectState)
    (value : Expr) : Except Trap ObjectState :=
  if value.getWidth = 1 then writeFirst (ZExtExpr.create value 8)
  else if value.getWidth = 8 * numBytes value.getWidth then
    (range (numBytes value.getWidth)).foldlM
      (fun o i => writeByte o i (ExtractExpr.create value (8 * i) 8)) o
  else .error .assertFailed

omit [Options] in
/-- `write16`, `write32` and `write64`. -/
def writeConstant (c : APInt) : ObjectState :=
  (range (numBytes c.width)).foldl (fun o i => o.writeByte (offset + i) (c.bits.extractLsb' (8 * i) 8)) o

def writeAt (value : Expr) : Except Trap ObjectState :=
  let general := o.writeWith (fun o i e => .ok (o.write8At (offset + i) e)) (fun e => .ok (o.write8At offset e)) value
  match value with
  | .constant c =>
    if 64 < c.width then general
    else if c.width = 1 ∨ c.width = 8 then .ok (o.writeByte offset (c.bits.setWidth 8))
    else if c.width = 16 ∨ c.width = 32 ∨ c.width = 64 then .ok (o.writeConstant offset c)
    else .error .assertFailed
  | _ => general

def write (offset value : Expr) : Except Trap ObjectState :=
  match ZExtExpr.create offset 32 with
  | .constant c => o.writeAt c.getZExtValue value
  | offset => o.writeWith (fun o i e => o.write8 (AddExpr.create offset (.const i 32)) e) (o.write8 offset) value

end ObjectState

/-! ## Sequences of accesses -/

/-- `Expr::getMinBytesForWidth`. -/
def getMinBytesForWidth (width : Nat) : Nat := (width + 7) / 8

/-- Whether all bytes of a range of `width` bits are concrete. -/
def ObjectState.isConcrete (o : ObjectState) (offset width : Nat) : Bool :=
  match o.concreteMask with
  | none => true
  | some _ => (range (getMinBytesForWidth width)).all fun i => o.isByteConcrete (offset + i)

def ObjectState.isAllConcrete (o : ObjectState) : Bool := (range o.size).all o.isByteConcrete

def ObjectState.readConcrete8 (o : ObjectState) (offset : Nat) : Option (BitVec 8) :=
  if o.isByteConcrete offset then some (o.concreteStore offset) else none

/-- How an object starts: with a concrete store, or with the contents of an array. -/
inductive Initial
  | concrete (useConstantArrays : Bool) (tmpId arrayId size : Nat) (h : size < 2 ^ 32) (store : Nat → BitVec 8)
  | symbolic (array : Array) (arrayId : Nat) (store : Nat → BitVec 8)

def Initial.object : Initial → ObjectState
  | .concrete useConstantArrays tmpId arrayId size h store => .concrete useConstantArrays tmpId arrayId size h store
  | .symbolic array arrayId store => .symbolic array arrayId store

inductive Access
  | readAt (offset width : Nat)
  | read (offset : Expr) (width : Nat)
  | writeAt (offset : Nat) (value : Expr)
  | write (offset value : Expr)

variable [Options]

/-- What an access returns, nothing if it is a write, and the object after it. -/
def ObjectState.access (o : ObjectState) : Access → Except Trap (Option Expr × ObjectState)
  | .readAt offset width => do
    let r ← o.readAt offset width
    return (some r.1, r.2)
  | .read offset width => do
    let r ← o.read offset width
    return (some r.1, r.2)
  | .writeAt offset value => do
    let o ← o.writeAt offset value
    return (none, o)
  | .write offset value => do
    let o ← o.write offset value
    return (none, o)

def ObjectState.run (o : ObjectState) : List Access → Except Trap (List (Option Expr) × ObjectState)
  | [] => .ok ([], o)
  | a :: as => do
    let r ← o.access a
    let rs ← r.2.run as
    return (r.1 :: rs.1, rs.2)

end S2E.Klee
