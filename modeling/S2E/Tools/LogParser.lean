import S2E.Plugins.ExecutionTracer

/-!
# `LogParser`

The tools read the files that `ExecutionTracer` writes. `parse` maps a file and walks over its items: each is handed to the
listeners (`processItem`), and its address is kept for `getItem`.

* `Address`, `Delivery` : a place in a mapped file; a call of the listeners;
* `Consistent p` : the deliveries are what the recorded addresses point at. It holds after any run (`Consistent.parseFiles`),
  so `getItem` returns what was delivered (`Consistent.getItem_eq`);
* `TraceFile` : complete items of known types, and a rest that is too short for a header, or shorter than the payload alone
  that its header announces. On such a file `parse` delivers the items, and says whether there is a rest
  (`parse_traceFile`). On any other it stops at an assertion, or delivers an item that is not in the file
  (`exists_traceFile`): the check before a payload is delivered leaves the size of the header out.
-/

namespace S2E.Tools
open S2E.Klee S2E.Lib S2E.Plugins ExecutionTracer List
open ExecutionTraceItemHeader (ofBytes)

/-- A pointer into the mapping of a file, given by the number of the mapping. -/
structure Address where
  file : Nat
  offset : Nat
deriving DecidableEq

/-- Where the payload of the item at this address is. -/
def Address.payload (a : Address) : Address where
  file := a.file
  offset := a.offset + ExecutionTraceItemHeader.sizeOf

/-- A call of the listeners of `onEachItem`. -/
structure Delivery where
  currentItem : Nat
  hdr : ExecutionTraceItemHeader
  data : Address
deriving DecidableEq

structure LogParser where
  /-- The files mapped so far; a mapping stays as long as the parser lives. -/
  mappings : List (List Byte) := []
  itemAddresses : List Address := []
  delivered : List Delivery := []
deriving DecidableEq

namespace LogParser

def headerAt (p : LogParser) (a : Address) : ExecutionTraceItemHeader :=
  .ofBytes ((p.mappings.getD a.file []).drop a.offset)

def processItem (p : LogParser) (currentItem : Nat) (hdr : ExecutionTraceItemHeader) (data : Address) :
    Except Trap LogParser :=
  if hdr.type.toNat < traceMax then .ok { p with delivered := p.delivered ++ [⟨currentItem, hdr, data⟩] }
  else .error .assertFailed

/-- The loop of `parse` over the file of mapping `m`. -/
def parseLoop (file : List Byte) (m : Nat) : Nat → Nat → Nat → LogParser → Except Trap (Bool × LogParser)
  | 0, currentOffset, _, p => if currentOffset < file.length then .error .outOfFuel else .ok (true, p)
  | fuel + 1, currentOffset, currentItem, p =>
    if currentOffset < file.length then
      if currentOffset + ExecutionTraceItemHeader.sizeOf > file.length then .ok (false, p)
      else
        let hdr := ExecutionTraceItemHeader.ofBytes (file.drop currentOffset)
        -- the payload begins after the header, but the header is not counted here
        if hdr.size.toNat > 0 ∧ currentOffset + hdr.size.toNat > file.length then .ok (false, p)
        else do
          let buffer : Address := ⟨m, currentOffset⟩
          let p ← p.processItem currentItem hdr buffer.payload
          parseLoop file m fuel (currentOffset + (ExecutionTraceItemHeader.sizeOf + hdr.size.toNat)) (currentItem + 1)
            { p with itemAddresses := p.itemAddresses ++ [buffer] }
    else .ok (true, p)

/-- Every turn of the loop advances, so there are no more turns than bytes. -/
def parse (p : LogParser) (file : List Byte) : Except Trap (Bool × LogParser) :=
  parseLoop file p.mappings.length file.length 0 p.itemAddresses.length { p with mappings := p.mappings ++ [file] }

/-- `parse` for a list of files, with what it returns for each. The source prints that a file is incomplete where this is
`false`, and goes on. -/
def parseFiles (p : LogParser) : List (List Byte) → Except Trap (List Bool × LogParser)
  | [] => .ok ([], p)
  | file :: files => do
    let (complete, p) ← p.parse file
    let (others, p) ← p.parseFiles files
    return (complete :: others, p)

def getItem (p : LogParser) (index : Nat) : Except Trap (ExecutionTraceItemHeader × Option Address) :=
  match p.itemAddresses[index]? with
  | none => .error .assertFailed
  | some buffer =>
    let hdr := p.headerAt buffer
    .ok (hdr, if hdr.size.toNat > 0 then some buffer.payload else none)

/-! ## The loop, turn by turn -/

/-- The parser after one turn. -/
def deliver (p : LogParser) (currentItem : Nat) (hdr : ExecutionTraceItemHeader) (buffer : Address) : LogParser where
  mappings := p.mappings
  itemAddresses := p.itemAddresses ++ [buffer]
  delivered := p.delivered ++ [⟨currentItem, hdr, buffer.payload⟩]

section Loop

variable {file : List Byte} {m n off i : Nat} {p p' : LogParser} {b : Bool}

theorem parseLoop_end (h : file.length ≤ off) : parseLoop file m n off i p = .ok (true, p) := by
  cases n with
  | zero => rw [parseLoop, if_neg (Nat.not_lt.2 h)]
  | succ n => rw [parseLoop, if_neg (Nat.not_lt.2 h)]

/-- There is no room for a header, or none for the payload even if it began where the header does. -/
theorem parseLoop_short (h₁ : off < file.length) (h₂ : file.length < off + ExecutionTraceItemHeader.sizeOf ∨
      file.length < off + (ofBytes (file.drop off)).size.toNat) :
    parseLoop file m (n + 1) off i p = .ok (false, p) := by
  rw [parseLoop, if_pos h₁]
  by_cases header : file.length < off + ExecutionTraceItemHeader.sizeOf
  · rw [if_pos header]
  · grind

theorem parseLoop_turn (h₁ : off + ExecutionTraceItemHeader.sizeOf ≤ file.length)
    (h₂ : off + (ofBytes (file.drop off)).size.toNat ≤ file.length) :
    parseLoop file m (n + 1) off i p =
      if (ofBytes (file.drop off)).type.toNat < traceMax then
        parseLoop file m n
          (off + (ExecutionTraceItemHeader.sizeOf + (ofBytes (file.drop off)).size.toNat)) (i + 1)
          (p.deliver i (.ofBytes (file.drop off)) ⟨m, off⟩)
      else .error .assertFailed := by
  have inside : off < file.length := by
    rw [ExecutionTraceItemHeader.sizeOf] at h₁
    omega
  rw [parseLoop, if_pos inside, if_neg (Nat.not_lt.2 h₁)]
  dsimp only
  rw [if_neg fun h => Nat.not_lt.2 h₂ h.2, processItem]
  split
  · rfl
  · rfl

/-- What every turn that delivers an item preserves, a run of the loop does. -/
theorem parseLoop_rule {P : Nat → LogParser → Prop}
    (turn : ∀ i p off, P i p → P (i + 1) (p.deliver i (.ofBytes (file.drop off)) ⟨m, off⟩))
    (h : parseLoop file m n off i p = .ok (b, p')) (hp : P i p) : ∃ j, P j p' := by
  induction n generalizing off i p with
  | zero =>
    rw [parseLoop] at h
    split at h
    · cases h
    · grind
  | succ n ih =>
    by_cases last : file.length ≤ off
    · rw [parseLoop_end last] at h
      cases h
      exact ⟨i, hp⟩
    · by_cases short : file.length < off + ExecutionTraceItemHeader.sizeOf ∨
          file.length < off + (ofBytes (file.drop off)).size.toNat
      · rw [parseLoop_short (Nat.not_le.1 last) short] at h
        cases h
        exact ⟨i, hp⟩
      · rw [not_or, Nat.not_lt, Nat.not_lt] at short
        rw [parseLoop_turn short.1 short.2] at h
        split at h
        · exact ih h (turn i p off hp)
        · cases h

end Loop

/-! ## What any run does -/

section Runs

variable {p p' : LogParser} {file : List Byte} {files : List (List Byte)} {b : Bool} {bs : List Bool}

theorem parse_mappings (h : p.parse file = .ok (b, p')) : p'.mappings = p.mappings ++ [file] := by
  rw [parse] at h
  obtain ⟨-, run⟩ := parseLoop_rule (P := fun _ q => q.mappings = p.mappings ++ [file]) (fun _ _ _ hq => hq) h rfl
  exact run

theorem parse_delivered (h : p.parse file = .ok (b, p')) : p.delivered ⊆ p'.delivered := by
  rw [parse] at h
  obtain ⟨-, run⟩ := parseLoop_rule (P := fun _ q => p.delivered ⊆ q.delivered)
    (fun _ _ _ hq => subset_append_of_subset_left _ hq) h (List.Subset.refl _)
  exact run

theorem parseFiles_cons (h : p.parseFiles (file :: files) = .ok (bs, p')) :
    ∃ b bs' q, p.parse file = .ok (b, q) ∧ q.parseFiles files = .ok (bs', p') ∧ bs = b :: bs' := by
  rw [parseFiles] at h
  obtain ⟨⟨b, q⟩, hq, h⟩ := exists_of_bind_ok h
  obtain ⟨⟨bs', q'⟩, hq', h⟩ := exists_of_bind_ok h
  cases h
  exact ⟨b, bs', q, hq, hq', rfl⟩

/-- What every call of `parse` preserves, a run over a list of files does. -/
theorem parseFiles_rule {P : LogParser → Prop} (one : ∀ p p' file b, P p → p.parse file = .ok (b, p') → P p') (hp : P p)
    (h : p.parseFiles files = .ok (bs, p')) : P p' := by
  induction files generalizing p bs with
  | nil =>
    cases h
    exact hp
  | cons file files ih =>
    obtain ⟨b, bs', q, hq, h, -⟩ := parseFiles_cons h
    exact ih (one _ _ _ _ hp hq) h

theorem parseFiles_delivered (h : p.parseFiles files = .ok (bs, p')) : p.delivered ⊆ p'.delivered :=
  parseFiles_rule (P := fun q => p.delivered ⊆ q.delivered)
    (fun _ _ _ _ hq h => List.Subset.trans hq (parse_delivered h)) (List.Subset.refl _) h

theorem parseFiles_mappings (h : p.parseFiles files = .ok (bs, p')) : p'.mappings = p.mappings ++ files := by
  induction files generalizing p bs with
  | nil =>
    cases h
    exact (append_nil _).symm
  | cons file files ih =>
    obtain ⟨b, bs', q, hq, h, -⟩ := parseFiles_cons h
    rw [ih h, parse_mappings hq, append_assoc, singleton_append]

end Runs

/-! ## `getItem` -/

/-- The recorded addresses are in mapped files, and the deliveries are those of the items at them. -/
structure Consistent (p : LogParser) : Prop where
  mapped : ∀ a ∈ p.itemAddresses, a.file < p.mappings.length
  delivered : p.delivered = p.itemAddresses.mapIdx fun i a => ⟨i, p.headerAt a, a.payload⟩

namespace Consistent

variable {p p' : LogParser} {file : List Byte} {files : List (List Byte)} {b : Bool} {bs : List Bool}

section

variable (hp : p.Consistent)

include hp

theorem map (file : List Byte) : Consistent { p with mappings := p.mappings ++ [file] } where
  mapped a ha := (hp.mapped a ha).trans (by simp)
  delivered := by
    refine hp.delivered.trans (mapIdx_eq_mapIdx_iff.2 fun i hi => ?_)
    have lt := hp.mapped _ (getElem_mem hi)
    simp only [headerAt, getD_eq_getElem?_getD, List.getElem?_append_left lt]

theorem deliver {m off : Nat} (hm : p.mappings[m]? = some file) :
    (p.deliver p.itemAddresses.length (.ofBytes (file.drop off)) ⟨m, off⟩).Consistent where
  mapped a ha := by
    rcases mem_append.1 ha with ha | ha
    · exact hp.mapped a ha
    · rw [mem_singleton.1 ha]
      exact (List.getElem?_eq_some_iff.1 hm).1
  delivered := by
    have header : p.headerAt ⟨m, off⟩ = .ofBytes (file.drop off) := by
      rw [headerAt, getD_eq_getElem?_getD, hm, Option.getD_some]
    show p.delivered ++ _ = List.mapIdx _ (p.itemAddresses ++ _)
    rw [mapIdx_append, mapIdx_singleton, hp.delivered, Nat.zero_add, ← header]
    rfl

theorem parse (h : p.parse file = .ok (b, p')) : p'.Consistent := by
  -- the loop counts the items, and its file stays mapped
  have run := parseLoop_rule
    (P := fun i q => i = q.itemAddresses.length ∧ q.mappings[p.mappings.length]? = some file ∧ q.Consistent)
    (by
      rintro i q off ⟨rfl, hm, hq⟩
      exact ⟨by simp [LogParser.deliver], hm, hq.deliver hm⟩)
    h ⟨rfl, by simp, hp.map file⟩
  exact run.elim fun _ hq => hq.2.2

theorem parseFiles (h : p.parseFiles files = .ok (bs, p')) : p'.Consistent :=
  parseFiles_rule (P := Consistent) (fun _ _ _ _ hq h => hq.parse h) hp h

/-- `getItem` returns the header that was delivered, and the same place for the payload if there is one. -/
theorem getItem_eq {i : Nat} {d : Delivery} (hd : p.delivered[i]? = some d) :
    d.currentItem = i ∧ p.getItem i = .ok (d.hdr, if d.hdr.size.toNat > 0 then some d.data else none) := by
  rw [hp.delivered, List.getElem?_mapIdx, Option.map_eq_some_iff] at hd
  obtain ⟨a, ha, rfl⟩ := hd
  refine ⟨rfl, ?_⟩
  rw [getItem, ha]

end

end Consistent

end LogParser

/-! ## Items in files -/

/-- The delivery is of a complete item of its file. -/
def Holds (files : List (List Byte)) (d : Delivery) (item : Item) : Prop :=
  ∃ before after, files[d.data.file]? = some (before ++ (item.bytes ++ after)) ∧ d.hdr = item.hdr ∧
    d.data.offset = before.length + ExecutionTraceItemHeader.sizeOf

variable {files : List (List Byte)}

theorem Holds.inside {d : Delivery} {item : Item} {file : List Byte} (h : Holds files d item)
    (hf : files[d.data.file]? = some file) : d.data.offset + d.hdr.size.toNat ≤ file.length := by
  obtain ⟨before, after, hf', hdr, offset⟩ := h
  obtain rfl : file = before ++ (item.bytes ++ after) := Option.some.inj (hf.symm.trans hf')
  rw [offset, hdr, length_append, length_append, item.length_bytes]
  show _ + item.hdr.size.toNat ≤ _ + (ExecutionTraceItemHeader.sizeOf + item.hdr.size.toNat + _)
  omega

/-- A file that `parse` reads as it should. -/
structure TraceFile where
  items : List Item
  rest : List Byte
  known : ∀ item ∈ items, item.hdr.type.toNat < traceMax
  short : rest.length < ExecutionTraceItemHeader.sizeOf ∨
    rest.length < (ExecutionTraceItemHeader.ofBytes rest).size.toNat

namespace TraceFile

def bytes (t : TraceFile) : List Byte := stream t.items ++ t.rest

theorem stops (t : TraceFile) : Stops headerFormat t.rest := by
  refine t.short.imp_right fun h => ?_
  exact h.trans_le (Nat.le_add_left _ _)

theorem exists_eq_stream_iff (t : TraceFile) : (∃ items : List Item, t.bytes = stream items) ↔ t.rest = [] :=
  Lib.exists_eq_stream_iff t.stops

end TraceFile

namespace LogParser

/-- The parser after turns for complete items that stand one after the other from `off` on. -/
def deliverAll (p : LogParser) (m off i : Nat) : List Item → LogParser
  | [] => p
  | item :: items => (p.deliver i item.hdr ⟨m, off⟩).deliverAll m (off + item.bytes.length) (i + 1) items

section Stream

variable {file before rest : List Byte} {items : List Item} {m n i : Nat} {p p' : LogParser} {b : Bool}

theorem parseLoop_item {item : Item} {after : List Byte} (hf : file = before ++ (item.bytes ++ after)) :
    parseLoop file m (n + 1) before.length i p =
      if item.hdr.type.toNat < traceMax then
        parseLoop file m n (before.length + item.bytes.length) (i + 1) (p.deliver i item.hdr ⟨m, before.length⟩)
      else .error .assertFailed := by
  have header : ofBytes (file.drop before.length) = item.hdr := by
    rw [hf, drop_left]
    exact item.decode_bytes after
  have length : file.length = before.length + (ExecutionTraceItemHeader.sizeOf + item.hdr.size.toNat + after.length) := by
    rw [hf, length_append, length_append, item.length_bytes]
    rfl
  have turn := @parseLoop_turn file m n before.length i p (by omega) (by rw [header]; omega)
  rw [header] at turn
  rw [turn, item.length_bytes]
  rfl

theorem parseLoop_stream (hf : file = before ++ (stream items ++ rest))
    (known : ∀ item ∈ items, item.hdr.type.toNat < traceMax) :
    parseLoop file m (n + items.length) before.length i p =
      parseLoop file m n (before.length + (stream items).length) (i + items.length)
        (p.deliverAll m before.length i items) := by
  induction items generalizing before i p with
  | nil => rfl
  | cons item items ih =>
    rw [stream_cons, append_assoc] at hf
    have known := forall_mem_cons.1 known
    rw [length_cons, ← Nat.add_assoc, parseLoop_item hf, if_pos known.1, ← length_append,
      ih (by rw [hf, append_assoc]) known.2, stream_cons, length_append, length_append, Nat.add_assoc,
      Nat.add_assoc, Nat.add_comm 1, deliverAll]

/-- The loop only comes past items of known types. -/
theorem known_of_parseLoop (hf : file = before ++ (stream items ++ rest))
    (h : parseLoop file m (n + items.length) before.length i p = .ok (b, p')) :
    ∀ item ∈ items, item.hdr.type.toNat < traceMax := by
  induction items generalizing before i p with
  | nil => exact fun item hi => absurd hi not_mem_nil
  | cons item items ih =>
    rw [stream_cons, append_assoc] at hf
    rw [length_cons, ← Nat.add_assoc, parseLoop_item hf] at h
    split at h
    · next known =>
      rw [← length_append] at h
      exact forall_mem_cons.2 ⟨known, ih (by rw [hf, append_assoc]) h⟩
    · cases h

theorem deliverAll_delivered (hm : files[m]? = some (before ++ (stream items ++ rest))) :
    ∃ new, (p.deliverAll m before.length i items).delivered = p.delivered ++ new ∧
      List.Forall₂ (Holds files) new items := by
  induction items generalizing before i p with
  | nil => exact ⟨[], (append_nil _).symm, .nil⟩
  | cons item items ih =>
    rw [stream_cons, append_assoc] at hm
    have tail : files[m]? = some ((before ++ item.bytes) ++ (stream items ++ rest)) := by
      rw [hm, append_assoc]
    obtain ⟨new, delivered, holds⟩ := ih (p := p.deliver i item.hdr ⟨m, before.length⟩) (i := i + 1) tail
    rw [length_append] at delivered
    refine ⟨⟨i, item.hdr, Address.payload ⟨m, before.length⟩⟩ :: new, ?_, .cons ⟨before, _, hm, rfl, rfl⟩ holds⟩
    rw [deliverAll, delivered, deliver, append_assoc, singleton_append]

/-- The items of a file leave enough fuel for its rest. -/
theorem exists_fuel (items : List Item) (rest : List Byte) :
    ∃ n, (stream items ++ rest).length = n + items.length ∧ rest.length ≤ n := by
  have := length_le_stream items
  exact ⟨(stream items).length + rest.length - items.length, by rw [length_append]; omega, by omega⟩

end Stream

/-! ## Right files -/

theorem parse_traceFile (p : LogParser) (t : TraceFile) : p.parse t.bytes = .ok (t.rest.isEmpty,
      deliverAll { p with mappings := p.mappings ++ [t.bytes] } p.mappings.length 0 p.itemAddresses.length t.items) := by
  obtain ⟨n, fuel, rest⟩ := exists_fuel t.items t.rest
  have run := @parseLoop_stream t.bytes [] t.rest t.items p.mappings.length n p.itemAddresses.length
    { p with mappings := p.mappings ++ [t.bytes] } rfl t.known
  have drop : t.bytes.drop (stream t.items).length = t.rest := drop_left
  have length : t.bytes.length = (stream t.items).length + t.rest.length := length_append
  rw [length_nil, Nat.zero_add] at run
  rw [parse, show t.bytes.length = n + t.items.length from fuel, run]
  by_cases empty : t.rest = []
  · rw [parseLoop_end (by simp [length, empty]), empty]
    rfl
  · have pos : 0 < t.rest.length := length_pos_iff.2 empty
    obtain ⟨n, rfl⟩ : ∃ k, n = k + 1 := ⟨n - 1, by omega⟩
    rw [parseLoop_short (by omega), isEmpty_eq_false_iff.2 empty]
    rw [drop, length]
    exact t.short.imp (Nat.add_lt_add_left · _) (Nat.add_lt_add_left · _)

/-- A file that is read to a result, with complete items delivered only. -/
theorem exists_traceFile {p p' : LogParser} {file : List Byte} {b : Bool}
    (h : p.parse file = .ok (b, p')) (hf : files[p.mappings.length]? = some file)
    (holds : ∀ d ∈ p'.delivered, ∃ item, Holds files d item) : ∃ t : TraceFile, t.bytes = file := by
  obtain ⟨items, rest, rfl, stops⟩ := exists_stream headerFormat file
  obtain ⟨n, fuel, hn⟩ := exists_fuel items rest
  rw [parse, fuel] at h
  have known := @known_of_parseLoop _ [] rest items _ n _ _ _ _ rfl h
  refine ⟨⟨items, rest, known, ?_⟩, rfl⟩
  by_contra long
  rw [not_or, Nat.not_lt, Nat.not_lt] at long
  -- the loop delivers an item from the rest
  have length : (stream items ++ rest).length = (stream items).length + rest.length := length_append
  have drop : (stream items ++ rest).drop (stream items).length = rest := drop_left
  have run := @parseLoop_stream (stream items ++ rest) [] rest items p.mappings.length n p.itemAddresses.length
    { p with mappings := p.mappings ++ [stream items ++ rest] } rfl known
  rw [length_nil, Nat.zero_add] at run
  obtain ⟨n, rfl⟩ : ∃ k, n = k + 1 := ⟨n - 1, by
    have := long.1
    rw [ExecutionTraceItemHeader.sizeOf] at this
    omega⟩
  have stop : rest.length < ExecutionTraceItemHeader.sizeOf + (ofBytes rest).size.toNat :=
    stops.resolve_left (Nat.not_lt.2 long.1)
  rw [run, parseLoop_turn (by omega) (by rw [drop]; omega), drop] at h
  split at h
  · rw [parseLoop_end (by omega)] at h
    cases h
    -- but it does not end in the file
    obtain ⟨item, holds⟩ := holds _ (mem_append_right _ (mem_singleton.2 rfl))
    have inside := holds.inside hf
    simp only [Address.payload] at inside
    omega
  · cases h

theorem traceFile_of_parseFiles {p p' : LogParser} {bs : List Bool} (h : p.parseFiles files = .ok (bs, p'))
    (holds : ∀ d ∈ p'.delivered, ∃ item, Holds (p.mappings ++ files) d item) :
    ∀ file ∈ files, ∃ t : TraceFile, t.bytes = file := by
  induction files generalizing p bs with
  | nil => exact fun file hf => absurd hf not_mem_nil
  | cons file files ih =>
    obtain ⟨b, bs', q, hq, h, -⟩ := parseFiles_cons h
    refine forall_mem_cons.2 ⟨?_, ih h ?_⟩
    · have mapped : (p.mappings ++ file :: files)[p.mappings.length]? = some file := by simp
      exact exists_traceFile hq mapped fun d hd => holds d (parseFiles_delivered h hd)
    · rwa [parse_mappings hq, append_assoc, singleton_append]

theorem parseFiles_traceFiles (p : LogParser) (ts : List TraceFile) :
    ∃ p' new, p.parseFiles (ts.map TraceFile.bytes) = .ok (ts.map (·.rest.isEmpty), p') ∧
      p'.delivered = p.delivered ++ new ∧
      List.Forall₂ (Holds (p.mappings ++ ts.map TraceFile.bytes)) new (ts.flatMap TraceFile.items) := by
  induction ts generalizing p with
  | nil => exact ⟨p, [], rfl, (append_nil _).symm, .nil⟩
  | cons t ts ih =>
    have parsed := p.parse_traceFile t
    generalize hq : deliverAll _ _ _ _ _ = q at parsed
    have mapped : (p.mappings ++ (t :: ts).map TraceFile.bytes)[p.mappings.length]? =
        some ([] ++ (stream t.items ++ t.rest)) := by simp [TraceFile.bytes]
    obtain ⟨first, delivered₁, holds₁⟩ := deliverAll_delivered mapped
      (p := { p with mappings := p.mappings ++ [t.bytes] }) (i := p.itemAddresses.length)
    obtain ⟨p', others, run, delivered₂, holds₂⟩ := ih q
    rw [length_nil, hq] at delivered₁
    rw [parse_mappings parsed, append_assoc, singleton_append] at holds₂
    refine ⟨p', first ++ others, ?_, ?_, ?_⟩
    · rw [map_cons, parseFiles, parsed]
      show (q.parseFiles _ >>= _) = _
      rw [run]
      rfl
    · rw [delivered₂, delivered₁, append_assoc]
    · rw [flatMap_cons]
      exact rel_append holds₁ holds₂

end LogParser

/-- What reading these files should come to. -/
structure Right (files : List (List Byte)) (complete : List Bool) (p : LogParser) : Prop where
  mappings : p.mappings = files
  inside : ∀ d ∈ p.delivered, ∃ item, Holds files d item
  complete : List.Forall₂ (fun file b => b = true ↔ ∃ items : List Item, file = stream items) files complete
  getItem : ∀ i d, p.delivered[i]? = some d →
    d.currentItem = i ∧ p.getItem i = .ok (d.hdr, if d.hdr.size.toNat > 0 then some d.data else none)

theorem right_traceFiles (ts : List TraceFile) :
    ∃ bs p, LogParser.parseFiles {} (ts.map TraceFile.bytes) = .ok (bs, p) ∧ Right (ts.map TraceFile.bytes) bs p := by
  obtain ⟨p, new, run, delivered, holds⟩ := LogParser.parseFiles_traceFiles {} ts
  have consistent : LogParser.Consistent {} := ⟨fun a ha => absurd ha not_mem_nil, rfl⟩
  refine ⟨_, p, run, LogParser.parseFiles_mappings run, ?_, ?_, fun i d => (consistent.parseFiles run).getItem_eq⟩
  · rw [delivered, nil_append]
    have each := holds.imp fun d item h => And.intro (Exists.intro item h) h
    exact ((forall₂_and_left _ _).1 each).1
  · rw [forall₂_map_left_iff, forall₂_map_right_iff, forall₂_same]
    intro t _
    rw [t.exists_eq_stream_iff, List.isEmpty_iff]

/-- The files of runs of the plugin, as files that `parse` reads. -/
theorem exists_traceFiles_of_runs {runs : List (List ExecutionTracer.Action)} {tracers : List ExecutionTracer}
    (clean : ∀ actions ∈ runs, ∀ a ∈ actions, a.Clean)
    (h : List.Forall₂ (fun actions t => initial.run actions = .ok t) runs tracers) :
    ∃ ts : List TraceFile, tracers.map file = ts.map TraceFile.bytes ∧
      (tracers.map fun _ => true) = ts.map (·.rest.isEmpty) ∧
      runs.flatMap written = ts.flatMap TraceFile.items := by
  induction h with
  | nil => exact ⟨[], rfl, rfl, rfl⟩
  | @cons actions t runs tracers run _ ih =>
    have clean := forall_mem_cons.1 clean
    obtain ⟨ts, files, complete, items⟩ := ih clean.2
    have file : t.file = stream (written actions) :=
      run_file clean.1 stream_nil.symm run
    have known : ∀ item ∈ written actions, item.hdr.type.toNat < traceMax :=
      written_known clean.1 fun item h => absurd h not_mem_nil
    refine ⟨⟨_, [], known, Or.inl (by decide)⟩ :: ts, ?_, ?_, ?_⟩
    · rw [map_cons, map_cons, files, file, TraceFile.bytes, append_nil]
    · grind
    · rw [flatMap_cons, flatMap_cons, items]

/-- Files are read as they should be exactly if each is a `TraceFile`; those that `writeData` produced are, and give back
the items written. -/
theorem parseFiles_right_iff (files : List (List Byte)) (runs : List (List ExecutionTracer.Action))
    (tracers : List ExecutionTracer) :
    ((∃ bs p, LogParser.parseFiles {} files = .ok (bs, p) ∧ Right files bs p) ↔
      ∀ file ∈ files, ∃ t : TraceFile, t.bytes = file) ∧
    ((∀ actions ∈ runs, ∀ a ∈ actions, a.Clean) →
      List.Forall₂ (fun actions t => initial.run actions = .ok t) runs tracers →
      ∃ p, LogParser.parseFiles {} (tracers.map file) = .ok (tracers.map fun _ => true, p) ∧
        List.Forall₂ (Holds (tracers.map file)) p.delivered
          (runs.flatMap written)) := by
  constructor
  · constructor
    · rintro ⟨bs, p, run, right⟩
      exact LogParser.traceFile_of_parseFiles run right.inside
    · intro h
      obtain ⟨ts, rfl⟩ : files ∈ Set.range (List.map TraceFile.bytes) := by
        rw [Set.range_list_map]
        exact h
      exact right_traceFiles ts
  · intro clean h
    obtain ⟨ts, files, complete, items⟩ := exists_traceFiles_of_runs clean h
    obtain ⟨p, new, run, delivered, holds⟩ := LogParser.parseFiles_traceFiles {} ts
    rw [nil_append] at delivered holds
    rw [files, complete, items]
    exact ⟨p, run, delivered ▸ holds⟩

/-- A fork, with two bytes of payload. -/
def forkWrite : Write := ⟨5, 1, 7, [1, 2], .fork, by decide⟩

theorem parseFiles_right_fork : (∃ bs p, LogParser.parseFiles {} [forkWrite.item.bytes ++ [0]] = .ok (bs, p) ∧
      Right [forkWrite.item.bytes ++ [0]] bs p) ∧
    ∃ p, LogParser.parseFiles {} [forkWrite.item.bytes] = .ok ([true], p) ∧
      List.Forall₂ (Holds [forkWrite.item.bytes]) p.delivered [forkWrite.item] := by
  constructor
  · refine (parseFiles_right_iff _ [] []).1.2 fun file hf => ⟨⟨[forkWrite.item], [0], ?_, ?_⟩, ?_⟩
    · intro item hi
      rw [mem_singleton.1 hi]
      decide
    · decide
    · rw [mem_singleton.1 hf, TraceFile.bytes, stream_cons, stream_nil, append_nil]
  · refine (parseFiles_right_iff [] [[.write forkWrite .done .done]] [⟨forkWrite.item.bytes, true, 1⟩]).2 ?_ ?_
    · decide
    · exact .cons rfl .nil

/-- An item whose payload of one byte is missing. -/
def cutFile : List Byte := ExecutionTraceItemHeader.bytes ⟨0, 1, 0, 0, 0⟩

/-- The item is delivered although its payload begins where the file ends, and `parse` returns `true`; and one of an
unknown type stops the tool. -/
theorem parseFiles_cutFile : (∃ p d, LogParser.parseFiles {} [cutFile] = .ok ([true], p) ∧ d ∈ p.delivered ∧
      cutFile.length < d.data.offset + d.hdr.size.toNat) ∧
    (¬ ∃ items : List Item, cutFile = stream items) ∧
    LogParser.parseFiles {} [ExecutionTraceItemHeader.bytes ⟨0, 0, 16, 0, 0⟩] = .error .assertFailed := by
  refine ⟨⟨⟨[cutFile], [⟨0, 0⟩], [⟨0, ⟨0, 1, 0, 0, 0⟩, ⟨0, 25⟩⟩]⟩, ⟨0, ⟨0, 1, 0, 0, 0⟩, ⟨0, 25⟩⟩, ?_, ?_, ?_⟩, ?_, ?_⟩
  · rfl
  · exact mem_singleton.2 rfl
  · decide
  · have stops : Stops headerFormat cutFile := Or.inr (by decide)
    have empty := @exists_eq_stream_iff _ _ headerFormat [] cutFile stops
    rw [stream_nil, nil_append] at empty
    rw [empty]
    decide
  · rfl

end S2E.Tools
