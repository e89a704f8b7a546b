import S2E.Lib.Triple

/-!
# `S2EDeviceState`: the snapshot of the devices

A save writes the devices into a buffer and a restore reads them back. The buffer grows where it is too short, is cut
down after a save, and is used again by the next one.

* `Snapshot` : the buffer, its size and the offset of the next access;
* `Holds s w n` : up to the offset the buffer is `w`, and `n` more bytes fit in. `putBuffer` appends to `w`.
-/

namespace S2E.Qemu

open Lib List

abbrev Bytes := List (BitVec 8)

inductive Stop
  /-- `exit(-1)`, where there is no memory. -/
  | exited
  | assertFailed
  /-- An access outside the buffer. -/
  | outside

structure Snapshot where
  /-- No byte for a null pointer. -/
  state : Bytes
  stateSize : BitVec 32
  offset : BitVec 32

/-- A call of `PutBuffer`, or of `PutByte` for one byte. -/
structure Put where
  buf : Bytes
  /-- What new memory holds, if there is any. -/
  fresh : Option (Nat → BitVec 8)

/-- A save; `shrinks` says whether the last `realloc` succeeds. -/
structure Save where
  puts : List Put
  shrinks : Bool
  pos : 0 < (puts.map Put.buf).flatten.length
  le : (puts.map Put.buf).flatten.length ≤ 2 ^ 30

inductive SnapshotOp
  | save (c : Save)
  | restore

namespace Snapshot

def realloc (b : Bytes) (size : BitVec 32) : Option (Nat → BitVec 8) → Except Stop Bytes
  | none => .error .exited
  | some fresh => .ok ((b ++ (range size.toNat).map fresh).take size.toNat)

variable (s : Snapshot)

def allocateBuffer (sz : BitVec 32) (fresh : Option (Nat → BitVec 8)) : Except Stop Snapshot :=
  let newSize := if sz < 256 then 256 else sz
  if s.state = [] then (realloc [] newSize fresh).map (⟨·, newSize, 0⟩)
  else if s.offset + sz ≥ s.stateSize then
    (realloc s.state (s.stateSize + newSize) fresh).map (⟨·, s.stateSize + newSize, s.offset⟩)
  else .ok s

def shrinkBuffer (shrinks : Bool) : Snapshot :=
  if s.offset ≠ s.stateSize ∧ shrinks then ⟨s.state.take s.offset.toNat, s.offset, s.offset⟩ else s

/-- `memcpy` to the buffer, from the offset on. -/
def copyIn (buf : Bytes) : Except Stop Snapshot :=
  let stop := s.offset.toNat + buf.length
  if stop ≤ s.state.length then
    .ok ⟨s.state.take s.offset.toNat ++ buf ++ s.state.drop stop, s.stateSize, s.offset + .ofNat 32 buf.length⟩
  else .error .outside

def putBuffer (p : Put) : Except Stop Snapshot :=
  s.allocateBuffer (.ofNat 32 p.buf.length) p.fresh >>= (copyIn · p.buf)

def saveDeviceState (c : Save) : Except Stop Snapshot :=
  (c.puts.foldlM putBuffer { s with offset := 0 }).map (shrinkBuffer · c.shrinks)

/-- `GetBuffer`, or `GetByte` for one byte. -/
def getBuffer (size : Nat) : Except Stop (Bytes × Snapshot) :=
  if s.offset + .ofNat 32 size ≤ s.stateSize then
    if s.offset.toNat + size ≤ s.state.length then
      .ok ((s.state.drop s.offset.toNat).take size, { s with offset := s.offset + .ofNat 32 size })
    else .error .outside
  else .error .assertFailed

def getBuffers (s : Snapshot) : List Nat → Except Stop (List Bytes × Snapshot)
  | [] => .ok ([], s)
  | size :: sizes => do
    let (buf, s) ← s.getBuffer size
    let (bufs, s) ← s.getBuffers sizes
    return (buf :: bufs, s)

def restoreDeviceState (sizes : List Nat) : Except Stop (List Bytes × Snapshot) :=
  if s.stateSize = 0 ∨ s.state = [] then .error .assertFailed else { s with offset := 0 }.getBuffers sizes

/-- Each restore returns what was put in the last save, and a save fails only for want of memory. -/
def Right (s : Snapshot) (last : Save) : List SnapshotOp → Prop
  | [] => True
  | .save c :: ops => Outcome (s.saveDeviceState c) (Right · c ops) (· = .exited)
  | .restore :: ops => ∃ s', s.restoreDeviceState (last.puts.map (·.buf.length)) = .ok (last.puts.map (·.buf), s') ∧
      Right s' last ops

structure Holds (w : Bytes) (n : Nat) : Prop where
  length : s.state.length = s.stateSize.toNat
  le : s.stateSize.toNat ≤ 2 ^ 31
  starts : w <+: s.state
  offset : s.offset.toNat = w.length
  room : w.length + n ≤ s.stateSize.toNat

variable {s} {w : Bytes} {sz : BitVec 32} {p : Put}

theorem realloc_holds {b : Bytes} (hw : w <+: b) {size offset : BitVec 32} (hoff : offset.toNat = w.length)
    (hle : size.toNat ≤ 2 ^ 31) {n : Nat} (hroom : w.length + n ≤ size.toNat) (fresh : Option (Nat → BitVec 8)) :
    Outcome ((realloc b size fresh).map (⟨·, size, offset⟩)) (Holds · w n) (· = .exited) := by
  cases fresh with
  | none => rfl
  | some fresh =>
    have hstarts := prefix_take_iff.2 ⟨hw.trans (prefix_append b ((range size.toNat).map fresh)),
      (Nat.le_add_right ..).trans hroom⟩
    exact ⟨by simp, hle, hstarts, hoff, hroom⟩

section

variable (h : s.Holds w 0)

include h

/-- A buffer grows only if it is no longer than what has to fit in. -/
theorem Holds.allocateBuffer (hle : w.length + sz.toNat ≤ 2 ^ 30) (fresh : Option (Nat → BitVec 8)) :
    Outcome (s.allocateBuffer sz fresh) (Holds · w sz.toNat) (· = .exited) := by
  obtain ⟨hlen, hsize, hw, hoff, hroom⟩ := h
  have hnew : sz.toNat ≤ (if sz < 256 then 256 else sz).toNat ∧ (if sz < 256 then 256 else sz).toNat ≤ 2 ^ 30 := by
    split <;> bv_omega
  rw [Snapshot.allocateBuffer]
  generalize (if sz < 256 then 256 else sz) = newSize at hnew ⊢
  split_ifs with hnil hgrow
  · obtain rfl := prefix_nil.1 (hnil ▸ hw)
    exact realloc_holds nil_prefix rfl (by omega) (by simpa using hnew.1) fresh
  · have hsum : (s.stateSize + newSize).toNat = s.stateSize.toNat + newSize.toNat := by bv_omega
    have hge : s.stateSize.toNat ≤ s.offset.toNat + sz.toNat := by bv_omega
    exact realloc_holds hw hoff (by omega) (by omega) fresh
  · exact ⟨hlen, hsize, hw, hoff, by bv_omega⟩

omit h in
theorem Holds.copyIn {buf : Bytes} (h : s.Holds w buf.length) :
    ∃ s', s.copyIn buf = .ok s' ∧ s'.Holds (w ++ buf) 0 := by
  obtain ⟨hlen, hsize, ⟨rest, hrest⟩, hoff, hroom⟩ := h
  have hn : (BitVec.ofNat 32 buf.length).toNat = buf.length := Nat.mod_eq_of_lt (by omega)
  rw [Snapshot.copyIn, if_pos (by omega), hoff, ← hrest, take_left, drop_append]
  refine ⟨_, rfl, ?_, hsize, prefix_append .., ?_, ?_⟩
  · have := congrArg List.length hrest
    simp at *
    omega
  · rw [length_append, BitVec.toNat_add_of_lt (by omega), hoff, hn]
  · simpa using hroom

theorem Holds.putBuffer (hle : (w ++ p.buf).length ≤ 2 ^ 30) :
    Outcome (s.putBuffer p) (Holds · (w ++ p.buf) 0) (· = .exited) := by
  rw [length_append] at hle
  have hn : (BitVec.ofNat 32 p.buf.length).toNat = p.buf.length := Nat.mod_eq_of_lt (by omega)
  refine (h.allocateBuffer (by omega) p.fresh).bind fun s' h' => ?_
  rw [hn] at h'
  obtain ⟨s'', hcopy, h''⟩ := h'.copyIn
  rw [hcopy]
  exact h''

theorem Holds.putBuffers {puts : List Put} (hle : (w ++ (puts.map Put.buf).flatten).length ≤ 2 ^ 30) :
    Outcome (puts.foldlM Snapshot.putBuffer s) (Holds · (w ++ (puts.map Put.buf).flatten) 0) (· = .exited) := by
  induction puts generalizing s w with
  | nil => exact (append_nil w).symm ▸ h
  | cons p puts ih =>
    rw [map_cons, flatten_cons, ← append_assoc] at *
    exact (h.putBuffer (by rw [length_append] at hle; omega)).bind fun s' h' => ih h' hle

theorem Holds.shrinkBuffer (shrinks : Bool) : (s.shrinkBuffer shrinks).Holds w 0 := by
  rw [Snapshot.shrinkBuffer]
  split
  · have hcut : w = s.state.take s.offset.toNat := h.offset ▸ prefix_iff_eq_take.1 h.starts
    have hle := h.offset.le.trans h.room
    exact ⟨hcut ▸ h.offset.symm, hle.trans h.le, hcut ▸ prefix_rfl, h.offset, h.offset.ge⟩
  · exact h

theorem Holds.saveDeviceState (c : Save) :
    Outcome (s.saveDeviceState c) (Holds · (c.puts.map Put.buf).flatten 0) (· = .exited) := by
  have hstart : { s with offset := 0 }.Holds [] 0 := ⟨h.length, h.le, nil_prefix, rfl, Nat.zero_le _⟩
  exact (hstart.putBuffers c.le).map fun s' h' => h'.shrinkBuffer c.shrinks

theorem Holds.getBuffers {d : Bytes} {bufs : List Bytes} (hw : d ++ bufs.flatten = w) :
    { s with offset := .ofNat 32 d.length }.getBuffers (bufs.map List.length) = .ok (bufs, s) := by
  induction bufs generalizing d with
  | nil =>
    rw [← hw, flatten_nil, append_nil] at h
    rw [← h.offset, BitVec.ofNat_toNat, BitVec.setWidth_eq]
    rfl
  | cons buf bufs ih =>
    obtain ⟨rest, hrest⟩ := h.starts
    rw [← hw, flatten_cons, append_assoc, append_assoc] at hrest
    have hlen := h.length
    have hle := h.le
    have ih := ih (append_assoc d buf _ ▸ hw)
    rw [length_append, BitVec.ofNat_add] at ih
    simp only [← hrest, length_append] at hlen
    have hd : (BitVec.ofNat 32 d.length).toNat = d.length := Nat.mod_eq_of_lt (by omega)
    have hbuf : (BitVec.ofNat 32 buf.length).toNat = buf.length := Nat.mod_eq_of_lt (by omega)
    have hget : { s with offset := .ofNat 32 d.length }.getBuffer buf.length =
        .ok (buf, { s with offset := .ofNat 32 d.length + .ofNat 32 buf.length }) := by
      rw [getBuffer, if_pos (by bv_omega), if_pos]
      · simp only [hd, ← hrest, drop_left, take_left]
      · simp only [hd, ← hrest, length_append]
        omega
    simp only [map_cons, Snapshot.getBuffers, hget, ok_bind, ih]
    rfl

theorem Holds.restoreDeviceState {c : Save} (hw : (c.puts.map Put.buf).flatten = w) :
    s.restoreDeviceState (c.puts.map (·.buf.length)) = .ok (c.puts.map (·.buf), s) := by
  have hpos : 0 < s.stateSize.toNat := (hw ▸ c.pos).trans_le h.room
  have hne : ¬ (s.stateSize = 0 ∨ s.state = []) := by
    rintro (hz | hz)
    · rw [hz] at hpos
      cases hpos
    · rw [← h.length, hz] at hpos
      cases hpos
  rw [Snapshot.restoreDeviceState, if_neg hne, ← h.getBuffers (d := []) hw, map_map]
  rfl

end

theorem Holds.right {c : Save} (h : s.Holds (c.puts.map Put.buf).flatten 0) (ops : List SnapshotOp) : s.Right c ops := by
  induction ops generalizing s c with
  | nil => trivial
  | cons op ops ih =>
    cases op with
    | save c' => exact (h.saveDeviceState c').conseq (fun s' h' => ih h') fun _ h => h
    | restore => exact ⟨s, h.restoreDeviceState rfl, ih h⟩

end Snapshot

end S2E.Qemu
