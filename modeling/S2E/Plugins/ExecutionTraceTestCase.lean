import S2E.Lib.Records

/-!
# `ExecutionTraceTestCase`

The inputs of a test case as the payload of a trace item: for each a header with two sizes, its name and its data.

* `serialize` : `none` where it writes behind the buffer that it allocates;
* `deserialize` : `none` where it reads behind the buffer that it is given. It believes the sizes in the headers.
-/

namespace S2E.Plugins.ExecutionTraceTestCase
open S2E.Lib List

abbrev Byte := BitVec 8

structure Header where
  nameSize : BitVec 32
  dataSize : BitVec 32

/-- The name of a variable, and its value. -/
abbrev VarValuePair := List Byte × List Byte

abbrev ConcreteInputs := List VarValuePair

def Header.bytes (hdr : Header) : List Byte := leBytes 4 hdr.nameSize ++ leBytes 4 hdr.dataSize

def Header.ofBytes (s : List Byte) : Header := ⟨ofLeBytes 4 s, ofLeBytes 4 (s.drop 4)⟩

def headerFormat : HeaderFormat Byte Header where
  length := 8
  encode := Header.bytes
  decode := Header.ofBytes
  size hdr := hdr.nameSize.toNat + hdr.dataSize.toNat
  length_pos := by decide
  length_encode hdr := by simp [Header.bytes]
  decode_encode hdr s := by
    rw [Header.ofBytes, Header.bytes, append_assoc, drop_left' (length_leBytes 4 _)]
    exact congrArg₂ Header.mk (ofLeBytes_leBytes 4 _ _) (ofLeBytes_leBytes 4 _ _)
  encode_decode s hs := by
    rw [Header.bytes, Header.ofBytes, leBytes_ofLeBytes 4 s (by omega),
      leBytes_ofLeBytes 4 (s.drop 4) (by rw [length_drop]; omega), ← take_add]

/-! ## The code -/

/-- The sum that `bufsize` holds, before it is cut to 32 bits. -/
def totalSize (inputs : ConcreteInputs) : Nat := (inputs.map fun it => 8 + it.1.length + it.2.length).sum

/-- What one turn of the second loop of `serialize` writes. -/
def itemBytes (it : VarValuePair) : List Byte :=
  Header.bytes ⟨BitVec.ofNat 32 it.1.length, BitVec.ofNat 32 it.2.length⟩ ++ (it.1 ++ it.2)

def serialize (inputs : ConcreteInputs) : Option (List Byte) :=
  let bufsize : BitVec 32 := BitVec.ofNat 32 (totalSize inputs)
  let a := inputs.flatMap itemBytes
  if a.length ≤ bufsize.toNat then some a else none

/-- The loop of `deserialize` over the bytes of the buffer from `a` on. There are `buflen` of them, as long as none is read
that is behind the buffer. -/
def deserializeFrom (a : List Byte) (out : ConcreteInputs) : Option ConcreteInputs :=
  if a = [] then some out
  else if _h : a.length < 8 then none
  else
    let hdr := Header.ofBytes a
    let n := hdr.nameSize.toNat
    let d := hdr.dataSize.toNat
    let a' := a.drop 8
    if a'.length < n + d then none
    else deserializeFrom (a'.drop (n + d)) (out ++ [(a'.take n, (a'.drop n).take d)])
termination_by a.length
decreasing_by
  simp only [length_drop]
  omega

def deserialize (buf : List Byte) : Option ConcreteInputs := deserializeFrom buf []

/-! ## Records -/

/-- One turn of the loop, where the name and the data that the header announces are there. -/
theorem deserializeFrom_turn (hdr : Header) {name data : List Byte} (hn : name.length = hdr.nameSize.toNat)
    (hd : data.length = hdr.dataSize.toNat) (s : List Byte) (out : ConcreteInputs) :
    deserializeFrom (hdr.bytes ++ (name ++ (data ++ s))) out = deserializeFrom s (out ++ [(name, data)]) := by
  have eight : hdr.bytes.length = 8 := headerFormat.length_encode hdr
  have header : Header.ofBytes (hdr.bytes ++ (name ++ (data ++ s))) = hdr := headerFormat.decode_encode hdr _
  have long : ¬ (hdr.bytes ++ (name ++ (data ++ s))).length < 8 := by
    rw [length_append]
    omega
  rw [deserializeFrom, if_neg (by intro h; simp [h] at long), dif_neg long]
  simp only [header, ← hn, ← hd]
  rw [drop_left' eight, if_neg (by simp), take_left' rfl, drop_left' rfl, take_left' rfl,
    ← drop_drop, drop_left' rfl, drop_left' rfl]

/-- Where no record is left, only the end of the buffer stops the loop in time. -/
theorem deserializeFrom_stops {s : List Byte} (hs : Stops headerFormat s) (out : ConcreteInputs) :
    (deserializeFrom s out).isSome ↔ s = [] := by
  have short : ¬ s.length < 8 → (s.drop 8).length < headerFormat.size (Header.ofBytes s) := by
    intro long
    have := hs.resolve_left long
    change s.length < 8 + headerFormat.size (Header.ofBytes s) at this
    rw [length_drop]
    omega
  rw [deserializeFrom]
  split
  · simp_all
  · split
    · simp_all
    · rename_i empty long
      refine iff_of_false ?_ empty
      exact ne_of_eq_of_ne (congrArg Option.isSome (if_pos (short long))) Bool.false_ne_true

/-- The records of a buffer are read one after the other, up to a rest that is none. -/
theorem isSome_deserializeFrom (rs : List (Record headerFormat)) {s : List Byte} (hs : Stops headerFormat s)
    (out : ConcreteInputs) : (deserializeFrom (stream rs ++ s) out).isSome ↔ s = [] := by
  induction rs generalizing out with
  | nil => exact deserializeFrom_stops hs out
  | cons r rs ih =>
    have hp : r.payload.length = r.hdr.nameSize.toNat + r.hdr.dataSize.toNat := r.length_payload
    have bytes : stream (r :: rs) ++ s = r.hdr.bytes ++ (r.payload.take r.hdr.nameSize.toNat ++
        (r.payload.drop r.hdr.nameSize.toNat ++ (stream rs ++ s))) := by
      rw [stream_cons, ← append_assoc (r.payload.take _), take_append_drop, append_assoc]
      exact append_assoc _ _ _
    rw [bytes, deserializeFrom_turn r.hdr (by rw [length_take]; omega) (by rw [length_drop]; omega)]
    exact ih _

theorem length_flatMap_itemBytes (inputs : ConcreteInputs) : (inputs.flatMap itemBytes).length = totalSize inputs := by
  induction inputs with
  | nil => rfl
  | cons it inputs ih =>
    simp only [flatMap_cons, length_append, ih, itemBytes, totalSize, Header.bytes, length_leBytes, map_cons, sum_cons]
    omega

theorem deserializeFrom_serialized (inputs out : ConcreteInputs) (h : totalSize inputs < 2 ^ 32) :
    deserializeFrom (inputs.flatMap itemBytes) out = some (out ++ inputs) := by
  induction inputs generalizing out with
  | nil => rw [append_nil, flatMap_nil, deserializeFrom, if_pos rfl]
  | cons it inputs ih =>
    have total : totalSize (it :: inputs) = 8 + it.1.length + it.2.length + totalSize inputs := rfl
    rw [flatMap_cons, itemBytes, append_assoc, append_assoc, deserializeFrom_turn, ih _ (by omega), append_assoc]
    · rfl
    · exact (Nat.mod_eq_of_lt (by omega)).symm
    · exact (Nat.mod_eq_of_lt (by omega)).symm

/-- Inputs are read back as they were exactly if their serialised size fits into 32 bits, and a buffer is read without
leaving it exactly if it is a sequence of records: headers, each with as many bytes after it as it says. -/
theorem deserialize_right_iff (inputs : ConcreteInputs) (buf : List Byte) :
    ((∃ bytes, serialize inputs = some bytes ∧ deserialize bytes = some inputs) ↔ totalSize inputs < 2 ^ 32) ∧
    ((deserialize buf).isSome ↔ ∃ rs : List (Record headerFormat), buf = stream rs) := by
  refine ⟨⟨?_, ?_⟩, ?_⟩
  · rintro ⟨bytes, hs, -⟩
    obtain ⟨fits, -⟩ := Option.ite_none_right_eq_some.1 hs
    rw [length_flatMap_itemBytes] at fits
    exact fits.trans_lt (BitVec.isLt _)
  · intro h
    refine ⟨inputs.flatMap itemBytes, ?_, deserializeFrom_serialized inputs [] h⟩
    rw [serialize]
    exact if_pos (by rw [length_flatMap_itemBytes, BitVec.toNat_ofNat, Nat.mod_eq_of_lt h])
  · obtain ⟨rs, rest, rfl, stops⟩ := exists_stream headerFormat buf
    rw [exists_eq_stream_iff stops]
    exact isSome_deserializeFrom rs stops []

/-- Of a buffer of one byte the header is read. -/
theorem deserialize_one_byte : deserialize [0] = none := by
  rw [deserialize, deserializeFrom]
  rfl

end S2E.Plugins.ExecutionTraceTestCase
