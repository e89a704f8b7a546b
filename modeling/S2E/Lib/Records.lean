import Mathlib.Tactic

/-!
# Streams of records

* `leBytes k v` : the `k` bytes of a word, the lowest first; `ofLeBytes k s` : the word that the first `k` bytes of `s`
  make. Each undoes the other (`ofLeBytes_leBytes`, `leBytes_ofLeBytes`);
* `HeaderFormat β H` : headers of a fixed length, which say how long a payload follows them;
* `Record F` : a header with a payload of that length, and `bytes`, its place in a stream;
* `stream rs` : the records one after the other; `Stops F s` : no complete record stands at the start of `s`.

Every list is a stream followed by a rest that stops (`exists_stream`), and in one way only (`stream_append_inj`).
-/

namespace S2E.Lib
open List

/-! ## Words -/

def leBytes : (k : Nat) → BitVec (8 * k) → List (BitVec 8)
  | 0, _ => []
  | k + 1, v => v.extractLsb' 0 8 :: leBytes k (v.extractLsb' 8 (8 * k))

def ofLeBytes : (k : Nat) → List (BitVec 8) → BitVec (8 * k)
  | 0, _ => 0
  | k + 1, s => ofLeBytes k s.tail ++ s.headD 0

@[simp] theorem length_leBytes (k : Nat) (v : BitVec (8 * k)) : (leBytes k v).length = k := by
  induction k with
  | zero => rfl
  | succ k ih => rw [leBytes, length_cons, ih]

theorem ofLeBytes_leBytes (k : Nat) (v : BitVec (8 * k)) (s : List (BitVec 8)) :
    ofLeBytes k (leBytes k v ++ s) = v := by
  induction k with
  | zero => grind
  | succ k ih =>
    rw [leBytes, cons_append, ofLeBytes, tail_cons, headD_cons, ih]
    apply BitVec.eq_of_getLsbD_eq
    intro i hi
    rw [BitVec.getLsbD_append, BitVec.getLsbD_extractLsb', BitVec.getLsbD_extractLsb']
    by_cases h : i < 8
    · simp [h]
    · grind

theorem leBytes_ofLeBytes (k : Nat) (s : List (BitVec 8)) (hs : k ≤ s.length) :
    leBytes k (ofLeBytes k s) = s.take k := by
  induction k generalizing s with
  | zero => rw [leBytes, take_zero]
  | succ k ih =>
    obtain _ | ⟨b, s⟩ := s
    · simp at hs
    · rw [leBytes, ofLeBytes, tail_cons, headD_cons, take_succ_cons, BitVec.extractLsb'_append_eq_right,
        BitVec.extractLsb'_append_eq_left, ih s (by simpa using hs)]

/-! ## Records -/

structure HeaderFormat (β H : Type) where
  length : Nat
  encode : H → List β
  decode : List β → H
  /-- The number of elements that follow the header. -/
  size : H → Nat
  length_pos : 0 < length
  length_encode (h : H) : (encode h).length = length
  decode_encode (h : H) (s : List β) : decode (encode h ++ s) = h
  encode_decode (s : List β) (hs : length ≤ s.length) : encode (decode s) = s.take length

variable {β H : Type} {F : HeaderFormat β H}

structure Record (F : HeaderFormat β H) where
  hdr : H
  payload : List β
  length_payload : payload.length = F.size hdr

namespace Record

def bytes (r : Record F) : List β := F.encode r.hdr ++ r.payload

theorem length_bytes (r : Record F) : r.bytes.length = F.length + F.size r.hdr := by
  rw [bytes, length_append, F.length_encode, r.length_payload]

@[simp] theorem decode_bytes (r : Record F) (s : List β) : F.decode (r.bytes ++ s) = r.hdr := by
  rw [bytes, append_assoc, F.decode_encode]

theorem bytes_append_inj {r r' : Record F} {s s' : List β} (h : r.bytes ++ s = r'.bytes ++ s') : r = r' ∧ s = s' := by
  have hdr : r.hdr = r'.hdr := by rw [← r.decode_bytes s, h, decode_bytes]
  have bytes := append_inj h (by rw [length_bytes, length_bytes, hdr])
  refine ⟨?_, bytes.2⟩
  obtain ⟨hd, payload, hp⟩ := r
  obtain ⟨hd', payload', hp'⟩ := r'
  obtain rfl : hd = hd' := hdr
  obtain rfl : payload = payload' := append_cancel_left bytes.1
  rfl

end Record

/-- Fewer elements than a header has, or than the record has whose header comes first. -/
def Stops (F : HeaderFormat β H) (s : List β) : Prop :=
  s.length < F.length ∨ s.length < F.length + F.size (F.decode s)

theorem stops_nil : Stops F [] := Or.inl F.length_pos

theorem not_stops_bytes (r : Record F) (s : List β) : ¬ Stops F (r.bytes ++ s) := by
  rw [Stops, r.decode_bytes, length_append, r.length_bytes]
  omega

theorem exists_record {s : List β} (h : ¬ Stops F s) : ∃ (r : Record F) (t : List β), s = r.bytes ++ t := by
  rw [Stops, not_or, Nat.not_lt, Nat.not_lt] at h
  refine ⟨⟨F.decode s, (s.drop F.length).take (F.size (F.decode s)), ?_⟩,
    (s.drop F.length).drop (F.size (F.decode s)), ?_⟩
  · grind
  · rw [Record.bytes, F.encode_decode s h.1, append_assoc, take_append_drop, take_append_drop]

def stream (rs : List (Record F)) : List β := rs.flatMap Record.bytes

@[simp] theorem stream_nil : stream ([] : List (Record F)) = [] := rfl

@[simp] theorem stream_cons (r : Record F) (rs : List (Record F)) : stream (r :: rs) = r.bytes ++ stream rs := by
  rw [stream, flatMap_cons, stream]

@[simp] theorem stream_append (rs rs' : List (Record F)) : stream (rs ++ rs') = stream rs ++ stream rs' := by
  rw [stream, flatMap_append, stream, stream]

theorem length_le_stream (rs : List (Record F)) : rs.length ≤ (stream rs).length := by
  induction rs with
  | nil => simp
  | cons r rs ih =>
    have := F.length_pos
    rw [stream_cons, length_cons, length_append, r.length_bytes]
    omega

theorem exists_stream (F : HeaderFormat β H) (s : List β) :
    ∃ (rs : List (Record F)) (rest : List β), s = stream rs ++ rest ∧ Stops F rest := by
  -- on the length: a record at the start leaves fewer elements
  induction hn : s.length using Nat.strong_induction_on generalizing s with
  | _ n ih =>
    by_cases h : Stops F s
    · exact ⟨[], s, rfl, h⟩
    · obtain ⟨r, t, rfl⟩ := exists_record h
      have := F.length_pos
      have shorter : t.length < n := by
        rw [← hn, length_append, r.length_bytes]
        omega
      obtain ⟨rs, rest, rfl, stops⟩ := ih t.length shorter t rfl
      exact ⟨r :: rs, rest, by rw [stream_cons, append_assoc], stops⟩

theorem stream_append_inj {rs rs' : List (Record F)} {s s' : List β} (h : stream rs ++ s = stream rs' ++ s')
    (hs : Stops F s) (hs' : Stops F s') : rs = rs' ∧ s = s' := by
  induction rs generalizing rs' with
  | nil =>
    obtain _ | ⟨r', rs'⟩ := rs'
    · exact ⟨rfl, h⟩
    · rw [stream_nil, nil_append, stream_cons, append_assoc] at h
      exact absurd (h ▸ hs) (not_stops_bytes r' _)
  | cons r rs ih =>
    rw [stream_cons, append_assoc] at h
    obtain _ | ⟨r', rs'⟩ := rs'
    · rw [stream_nil, nil_append] at h
      exact absurd (h.symm ▸ hs') (not_stops_bytes r _)
    · rw [stream_cons, append_assoc] at h
      obtain ⟨rfl, tails⟩ := Record.bytes_append_inj h
      obtain ⟨rfl, rfl⟩ := ih tails
      exact ⟨rfl, rfl⟩

/-- A rest that stops is the remainder of a whole stream only if it is empty. -/
theorem exists_eq_stream_iff {rs : List (Record F)} {rest : List β} (hr : Stops F rest) :
    (∃ rs' : List (Record F), stream rs ++ rest = stream rs') ↔ rest = [] := by
  constructor
  · rintro ⟨rs', h⟩
    rw [← append_nil (stream rs')] at h
    exact (stream_append_inj h hr stops_nil).2
  · rintro rfl
    exact ⟨rs, append_nil _⟩

end S2E.Lib
