import S2E.Klee.Expr.APInt
import S2E.Lib.Records
import S2E.Lib.Triple

/-!
# `ExecutionTracer`

The plugin appends the items of a trace to a file: each a packed header of 25 bytes, with the payload after it.

* `headerFormat` : the layout of `ExecutionTraceItemHeader`, a header format of `S2E.Lib`; `Item` : its records;
* `writeData` : one item, with what the two calls of `fwrite` did (`Fwrite`);
* `onProcessFork` : the file is closed before a fork; the parent appends to it afterwards, the child starts another;
* `run_file` : as long as an `fwrite` that fails to write a header leaves nothing of it behind, the file is the stream of
  the items written to it.
-/

namespace S2E.Plugins
open S2E.Klee S2E.Lib List

abbrev Byte := BitVec 8

inductive ExecTraceEntryType
  | modLoad
  | modUnload
  | procUnload
  | call
  | ret
  | tbStart
  | tbEnd
  | moduleDesc
  | fork
  | cacheSim
  | testCase
  | branchCov
  | memory
  | pageFault
  | tlbMiss
  | iCount
  | max
deriving DecidableEq

/-- `TRACE_MAX`: the number of the types that an item can have. -/
def traceMax : Nat := ExecTraceEntryType.max.ctorIdx

theorem ExecTraceEntryType.ctorIdx_lt {type : ExecTraceEntryType} (h : type ≠ .max) : type.ctorIdx < traceMax := by
  cases type with
  | max => exact absurd rfl h
  | _ => decide

/-! ## The header -/

structure ExecutionTraceItemHeader where
  timeStamp : BitVec 64
  /-- The size of the payload. -/
  size : BitVec 32
  type : BitVec 8
  stateId : BitVec 32
  pid : BitVec 64
deriving DecidableEq

namespace ExecutionTraceItemHeader

def bytes (hdr : ExecutionTraceItemHeader) : List Byte :=
  leBytes 8 hdr.timeStamp ++ (leBytes 4 hdr.size ++ (leBytes 1 hdr.type ++ (leBytes 4 hdr.stateId ++ leBytes 8 hdr.pid)))

/-- The header that a pointer to these bytes is cast to. -/
def ofBytes (s : List Byte) : ExecutionTraceItemHeader where
  timeStamp := ofLeBytes 8 s
  size := ofLeBytes 4 (s.drop 8)
  type := ofLeBytes 1 (s.drop 12)
  stateId := ofLeBytes 4 (s.drop 13)
  pid := ofLeBytes 8 (s.drop 17)

/-- `sizeof(ExecutionTraceItemHeader)`. -/
def sizeOf : Nat := 25

theorem length_bytes (hdr : ExecutionTraceItemHeader) : hdr.bytes.length = sizeOf := by
  simp [bytes, sizeOf]

theorem ofBytes_bytes (hdr : ExecutionTraceItemHeader) (s : List Byte) : ofBytes (hdr.bytes ++ s) = hdr := by
  obtain ⟨timeStamp, size, type, stateId, pid⟩ := hdr
  simp only [bytes, ofBytes, append_assoc, mk.injEq]
  refine ⟨ofLeBytes_leBytes 8 _ _, ?_, ?_, ?_, ?_⟩
  · rw [drop_left' (length_leBytes 8 _)]
    exact ofLeBytes_leBytes 4 _ _
  · rw [← append_assoc, drop_left' (by simp)]
    exact ofLeBytes_leBytes 1 _ _
  · rw [← append_assoc, ← append_assoc, drop_left' (by simp)]
    exact ofLeBytes_leBytes 4 _ _
  · rw [← append_assoc, ← append_assoc, ← append_assoc, drop_left' (by simp)]
    exact ofLeBytes_leBytes 8 _ _

theorem bytes_ofBytes (s : List Byte) (hs : sizeOf ≤ s.length) : (ofBytes s).bytes = s.take sizeOf := by
  have field (k n : Nat) (h : n + k ≤ s.length) : leBytes k (ofLeBytes k (s.drop n)) = (s.drop n).take k :=
    leBytes_ofLeBytes k _ (by rw [length_drop]; omega)
  have join (n k l : Nat) : (s.drop n).take k ++ (s.drop (n + k)).take l = (s.drop n).take (k + l) := by
    rw [← drop_drop, ← take_add]
  rw [sizeOf] at hs
  have timeStamp := field 8 0 (by omega)
  rw [drop_zero] at timeStamp
  simp only [bytes, ofBytes]
  rw [timeStamp, field 4 8 (by omega), field 1 12 (by omega), field 4 13 (by omega), field 8 17 (by omega),
    join 13 4 8, join 12 1 12, join 8 4 13, ← take_add]
  rfl

end ExecutionTraceItemHeader

def headerFormat : HeaderFormat Byte ExecutionTraceItemHeader where
  length := ExecutionTraceItemHeader.sizeOf
  encode := ExecutionTraceItemHeader.bytes
  decode := ExecutionTraceItemHeader.ofBytes
  size hdr := hdr.size.toNat
  length_pos := by decide
  length_encode := ExecutionTraceItemHeader.length_bytes
  decode_encode := ExecutionTraceItemHeader.ofBytes_bytes
  encode_decode := ExecutionTraceItemHeader.bytes_ofBytes

/-- A complete item: a header and as many bytes as it says. -/
abbrev Item := Record headerFormat

/-! ## The plugin -/

/-- What a call of `fwrite` did: it wrote everything, or failed after some bytes. -/
inductive Fwrite
  | done
  | failed (written : Nat)
deriving DecidableEq

def Fwrite.append (file bytes : List Byte) : Fwrite → List Byte
  | .done => file ++ bytes
  | .failed written => file ++ bytes.take written

/-- The arguments of `writeData`, with the time and what it asks the state for. -/
structure Write where
  timeStamp : BitVec 64
  stateId : BitVec 32
  pid : BitVec 64
  data : List Byte
  type : ExecTraceEntryType
  /-- The argument `size` is an `unsigned`. -/
  size_lt : data.length < 2 ^ 32

variable {w : Write} {payload : Fwrite} {items : List Item} {r : BitVec 32}

namespace Write

def header (w : Write) : ExecutionTraceItemHeader where
  timeStamp := w.timeStamp
  size := BitVec.ofNat 32 w.data.length
  type := BitVec.ofNat 8 w.type.ctorIdx
  stateId := w.stateId
  pid := w.pid

def item (w : Write) : Item where
  hdr := w.header
  payload := w.data
  length_payload := by
    show w.data.length = (BitVec.ofNat 32 w.data.length).toNat
    rw [BitVec.toNat_ofNat, Nat.mod_eq_of_lt w.size_lt]

theorem item_known (h : w.type ≠ .max) : w.item.hdr.type.toNat < traceMax := by
  have lt := ExecTraceEntryType.ctorIdx_lt h
  show (BitVec.ofNat 8 w.type.ctorIdx).toNat < traceMax
  rwa [BitVec.toNat_ofNat, Nat.mod_eq_of_lt (lt.trans (by decide))]

end Write

structure ExecutionTracer where
  /-- The contents of the file called `m_fileName`. -/
  file : List Byte
  /-- `m_LogFile` is not null. -/
  isOpen : Bool
  currentIndex : BitVec 32
deriving DecidableEq

namespace ExecutionTracer

/-- After `createNewTraceFile(false)`. -/
def initial : ExecutionTracer where
  file := []
  isOpen := true
  currentIndex := 0

def writeData (t : ExecutionTracer) (w : Write) (header payload : Fwrite) : Except Trap (BitVec 32 × ExecutionTracer) :=
  if t.isOpen = false then .error .assertFailed
  else
    let file := header.append t.file w.header.bytes
    match header with
    | .failed _ => .ok (0, { t with file := file })
    | .done =>
      if w.data.length = 0 then .ok (t.currentIndex + 1, { t with file := file, currentIndex := t.currentIndex + 1 })
      else
        match payload with
        | .failed _ => .error .assertFailed
        | .done =>
          .ok (t.currentIndex + 1, { t with file := payload.append file w.data, currentIndex := t.currentIndex + 1 })

def onProcessFork (t : ExecutionTracer) (preFork isChild : Bool) : ExecutionTracer :=
  if preFork then { t with isOpen := false }
  else if isChild then initial
  else { t with isOpen := true, currentIndex := 0 }

inductive Action
  | write (w : Write) (header payload : Fwrite)
  | processFork (preFork isChild : Bool)

def step (t : ExecutionTracer) : Action → Except Trap ExecutionTracer
  | .write w header payload => (t.writeData w header payload).map Prod.snd
  | .processFork preFork isChild => .ok (t.onProcessFork preFork isChild)

def run (t : ExecutionTracer) (actions : List Action) : Except Trap ExecutionTracer := actions.foldlM step t

namespace Action

/-- The items in the file after an action: `writeData` adds one unless the header could not be written, and the child of a
fork starts a file of its own. -/
def written (items : List Item) : Action → List Item
  | .write w .done _ => items ++ [w.item]
  | .write _ (.failed _) _ => items
  | .processFork false true => []
  | .processFork _ _ => items

/-- An item of a type of its own; and if its header cannot be written, nothing of it is. -/
def Clean : Action → Prop
  | .write w header _ => w.type ≠ .max ∧ (header = .done ∨ header = .failed 0)
  | .processFork _ _ => True

instance : DecidablePred Clean
  | .write w header _ => inferInstanceAs (Decidable (w.type ≠ .max ∧ (header = .done ∨ header = .failed 0)))
  | .processFork _ _ => inferInstanceAs (Decidable True)

end Action

def written (actions : List Action) : List Item := actions.foldl Action.written []

variable {t t' : ExecutionTracer} {actions : List Action}

theorem writeData_done (h : t.writeData w .done payload = .ok (r, t')) : t'.file = t.file ++ w.item.bytes := by
  unfold writeData at h
  split at h
  · cases h
  · by_cases empty : w.data.length = 0
    · simp only [empty, if_true] at h
      cases h
      show t.file ++ w.header.bytes = t.file ++ (w.header.bytes ++ w.data)
      rw [length_eq_zero_iff.1 empty, append_nil]
    · simp only [empty, if_false] at h
      cases payload with
      | failed n => cases h
      | done =>
        cases h
        exact append_assoc _ _ _

theorem writeData_failed (h : t.writeData w (.failed 0) payload = .ok (r, t')) : t'.file = t.file := by
  unfold writeData at h
  split at h
  · cases h
  · cases h
    show t.file ++ List.take 0 _ = t.file
    rw [take_zero, append_nil]

theorem step_file {a : Action} (clean : a.Clean) (hf : t.file = stream items)
    (h : t.step a = .ok t') : t'.file = stream (a.written items) := by
  cases a with
  | write w header payload =>
    obtain ⟨⟨r, t''⟩, hw, rfl⟩ := exists_of_map_ok h
    obtain ⟨-, rfl | rfl⟩ := clean
    · rw [writeData_done hw, hf, Action.written, stream_append, stream_cons, stream_nil, append_nil]
    · rw [writeData_failed hw, hf, Action.written]
  | processFork preFork isChild =>
    cases h
    cases preFork <;> cases isChild <;> first | exact hf | rfl

theorem run_file (clean : ∀ a ∈ actions, a.Clean) (hf : t.file = stream items) (h : t.run actions = .ok t') :
    t'.file = stream (actions.foldl Action.written items) := by
  induction actions generalizing t items with
  | nil =>
    cases h
    exact hf
  | cons a actions ih =>
    rw [run, foldlM_cons] at h
    obtain ⟨t₁, h₁, h⟩ := exists_of_bind_ok h
    have clean := forall_mem_cons.1 clean
    exact ih clean.2 (step_file clean.1 hf h₁) h

theorem written_known (clean : ∀ a ∈ actions, a.Clean) (known : ∀ item ∈ items, item.hdr.type.toNat < traceMax) :
    ∀ item ∈ actions.foldl Action.written items, item.hdr.type.toNat < traceMax := by
  induction actions generalizing items with
  | nil => exact known
  | cons a actions ih =>
    have clean := forall_mem_cons.1 clean
    apply ih clean.2
    cases a with
    | write w header payload =>
      obtain ⟨type, rfl | rfl⟩ := clean.1
      · intro item h
        rcases mem_append.1 h with h | h
        · exact known item h
        · rw [mem_singleton.1 h]
          exact Write.item_known type
      · exact known
    | processFork preFork isChild =>
      cases preFork <;> cases isChild <;> first | exact known | exact fun item h => absurd h not_mem_nil

end ExecutionTracer

end S2E.Plugins
