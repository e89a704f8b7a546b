import S2E.Lib.Records

/-!
# `TreeStreamWriter`

A tree of streams in one file: a stream that is opened as the child of another goes on from what the other holds by then.

* `TreeStreamWriter` : the writer, with the buffer that all streams share; `write`, `openStream`, `flush`;
* `readStream` : finds the chain of streams above the one asked for (`findRoots`), then collects what was written to each of
  them before the next one was opened (`collect`);
* `Forest` : what the streams hold, as the purpose of the class has it: a child starts as a copy;
* `Chunk` : a piece of the file; `fileOf` : the file of a list of chunks, `replay` : the forest of such a list. On the file
  `readStream` finds what `replay` says (`readFile_fileOf`).

A block of `bufferSize` bytes or more is not copied to the file: `write` passes the buffer itself to `output->write`.
-/

namespace S2E.Klee.TreeStream
open S2E.Lib List Option
open BitVec (ofNat toNat_add toNat_ofNat)

def bufferSize : Nat := 4 * 4096

/-- The bit of a tag that tells the opening of a stream from the size of a block. -/
def forkBit : BitVec 32 := 1#32 <<< 31

/-- A block of memory with its size, which is an `unsigned`. -/
structure Block where
  bytes : List (BitVec 8)
  size_lt : bytes.length < 2 ^ 32

def Block.size (s : Block) : BitVec 32 := BitVec.ofNat 32 s.bytes.length

theorem Block.toNat_size (s : Block) : s.size.toNat = s.bytes.length := Nat.mod_eq_of_lt s.size_lt

structure TreeStreamWriter where
  buffer : List (BitVec 8)
  lastID : BitVec 32
  bufferCount : BitVec 32
  /-- The bytes that the file holds once it is flushed. -/
  output : List (BitVec 8)
  ids : BitVec 32
  length_buffer : buffer.length = bufferSize
  bufferCount_le : bufferCount.toNat ≤ bufferSize

namespace TreeStreamWriter

/-- The constructor, for a path that can be opened. The buffer is not initialised. -/
def init (buffer : List (BitVec 8)) (h : buffer.length = bufferSize) : TreeStreamWriter where
  buffer := buffer
  lastID := 0
  bufferCount := 0
  output := []
  ids := 1
  length_buffer := h
  bufferCount_le := Nat.zero_le _

section

variable (w : TreeStreamWriter)

def flushBuffer : TreeStreamWriter :=
  if w.bufferCount ≠ 0 then
    { w with
      output := w.output ++ (leBytes 4 w.lastID ++ (leBytes 4 w.bufferCount ++ w.buffer.take w.bufferCount.toNat))
      bufferCount := 0
      bufferCount_le := Nat.zero_le _ }
  else w

def flush : TreeStreamWriter := w.flushBuffer

/-- `open(const TreeOStream &os)`, with the id of the new stream. -/
def openStream (os : BitVec 32) : BitVec 32 × TreeStreamWriter :=
  let w := w.flushBuffer
  let id := w.ids
  let tag := id ||| forkBit
  (id, { w with
    ids := w.ids + 1
    output := w.output ++ (leBytes 4 os ++ leBytes 4 tag) })

/-- `open()`. -/
def openRoot : BitVec 32 × TreeStreamWriter := w.openStream 0

end

/-- `memcpy(&buffer[pos], s, size)`, for a block that fits. -/
def copyTo (buffer : List (BitVec 8)) (pos : Nat) (s : List (BitVec 8)) : List (BitVec 8) :=
  buffer.take pos ++ s ++ buffer.drop (pos + s.length)

theorem length_copyTo {buffer s : List (BitVec 8)} {pos : Nat} (h : pos + s.length ≤ buffer.length) :
    (copyTo buffer pos s).length = buffer.length := by
  simp only [copyTo, length_append, length_take, length_drop]
  omega

section

variable (w : TreeStreamWriter) (os : BitVec 32) (s : Block)

/-- The buffer is written out if it holds another stream, or has no room for the block. -/
def makeRoom : TreeStreamWriter :=
  if w.bufferCount ≠ 0 ∧ (os ≠ w.lastID ∨ bufferSize < (s.size + w.bufferCount).toNat) then w.flushBuffer else w

/-- The rest of `write`. `none` where memory beyond the buffer is written or read. -/
def put : Option TreeStreamWriter :=
  if w.bufferCount ≠ 0 then
    if h : w.bufferCount.toNat + s.bytes.length ≤ bufferSize then
      some { w with
        buffer := copyTo w.buffer w.bufferCount.toNat s.bytes
        bufferCount := w.bufferCount + s.size
        length_buffer := by rw [length_copyTo (w.length_buffer ▸ h), w.length_buffer]
        bufferCount_le := by
          rw [BitVec.toNat_add, s.toNat_size]
          exact (Nat.mod_le _ _).trans h }
    else none
  else if h : s.bytes.length < bufferSize then
    some { w with
      lastID := os
      buffer := copyTo w.buffer 0 s.bytes
      bufferCount := s.size
      length_buffer := by rw [length_copyTo (by rw [w.length_buffer]; omega), w.length_buffer]
      bufferCount_le := by rw [s.toNat_size]; exact h.le }
  -- the buffer is written out where `s` should be
  else if s.bytes.length ≤ bufferSize then
    some { w with output := w.output ++ (leBytes 4 os ++ (leBytes 4 s.size ++ w.buffer.take s.bytes.length)) }
  else none

def write : Option TreeStreamWriter := (w.makeRoom os s).put os s

end

/-! ## Reading -/

/-- From a stream up to one that has no parent. The streams passed are put in front of `roots`, where the source has them at
the back. -/
def climb (parents : List (BitVec 32 × BitVec 32)) : Nat → BitVec 32 → List (BitVec 32) → Option (List (BitVec 32))
  | 0, id, roots => if id = 0 then some roots else none
  | fuel + 1, id, roots =>
    if id = 0 then some roots else (parents.lookup id).bind fun parent => climb parents fuel parent (id :: roots)

/-- The first loop of `readStream`. A parent that is known is kept, as by `parents.insert`. -/
def findRoots (streamID : BitVec 32) : Nat → List (BitVec 8) → List (BitVec 32 × BitVec 32) → Option (List (BitVec 32))
  | 0, _, _ => none
  | fuel + 1, is, parents =>
    if is.length < 8 then none
    else
      let id : BitVec 32 := ofLeBytes 4 is
      let tag : BitVec 32 := ofLeBytes 4 (is.drop 4)
      if tag.msb then
        let child := tag ^^^ forkBit
        if child = streamID then climb parents parents.length id [child]
        else findRoots streamID fuel (is.drop 8) (parents ++ [(child, id)])
      else findRoots streamID fuel ((is.drop 8).drop tag.toNat) parents

/-- What `size` calls of `is.get()` return. -/
def gets (is : List (BitVec 8)) (size : Nat) : List (BitVec 8) :=
  is.take size ++ replicate (size - is.length) 0xFF

/-- The next stream of the chain is opened. -/
def pop {α : Type} [DecidableEq α] (id child : α) : List α → List α
  | back :: next :: rest => if id = back ∧ child = next then next :: rest else back :: next :: rest
  | roots => roots

/-- The second loop of `readStream`. -/
def collect : Nat → List (BitVec 8) → List (BitVec 32) → List (BitVec 8) → Option (List (BitVec 8))
  | 0, is, _, out => if is.length < 8 then some out else none
  | fuel + 1, is, roots, out =>
    if is.length < 8 then some out
    else
      let id : BitVec 32 := ofLeBytes 4 is
      let tag : BitVec 32 := ofLeBytes 4 (is.drop 4)
      if tag.msb then collect fuel (is.drop 8) (pop id (tag ^^^ forkBit) roots) out
      else
        let out := if roots.head? = some id then out ++ gets (is.drop 8) tag.toNat else out
        collect fuel ((is.drop 8).drop tag.toNat) roots out

/-- Both loops, each with as many turns as the file has bytes. -/
def readFile (streamID : BitVec 32) (file : List (BitVec 8)) : Option (List (BitVec 8)) := do
  let roots ← findRoots streamID file.length file []
  collect file.length file roots []

def readStream (w : TreeStreamWriter) (streamID : BitVec 32) : Option (List (BitVec 8)) :=
  if 0 < streamID ∧ streamID < w.ids then readFile streamID w.flush.output else none

end TreeStreamWriter

open TreeStreamWriter

/-! ## Streams and chunks -/

/-- What the streams hold, by their ids. Stream 0, the parent of those opened by `open()`, stays empty. -/
abbrev Forest := List (List (BitVec 8))

/-- A stream is opened, with the next id, or a block is written to one. -/
inductive Chunk
  | fork (parent : Nat)
  | data (id : Nat) (bytes : List (BitVec 8))

def Chunk.apply (f : Forest) : Chunk → Forest
  | .fork parent => f ++ [f.getD parent []]
  | .data id bytes => f.modify id (· ++ bytes)

def replay (f : Forest) (cs : List Chunk) : Forest := cs.foldl Chunk.apply f

/-- The bytes of chunks that follow the opening of `n` streams. -/
def fileOf : Nat → List Chunk → List (BitVec 8)
  | _, [] => []
  | n, .fork parent :: cs =>
    leBytes 4 (BitVec.ofNat 32 parent) ++ (leBytes 4 (BitVec.ofNat 32 (n + 1) ||| forkBit) ++ fileOf (n + 1) cs)
  | n, .data id bytes :: cs =>
    leBytes 4 (BitVec.ofNat 32 id) ++ (leBytes 4 (BitVec.ofNat 32 bytes.length) ++ (bytes ++ fileOf n cs))

def forks : List Chunk → Nat
  | [] => 0
  | .fork _ :: cs => forks cs + 1
  | .data _ _ :: cs => forks cs

/-- The chunks name streams that are open, and their numbers leave the bit of a tag free that marks a fork. -/
def Valid : Nat → List Chunk → Prop
  | _, [] => True
  | n, .fork parent :: cs => parent ≤ n ∧ n + 1 < 2 ^ 31 ∧ Valid (n + 1) cs
  | n, .data id bytes :: cs => 0 < id ∧ id ≤ n ∧ bytes.length < 2 ^ 31 ∧ Valid n cs

/-- The way to stream `id` once `n` streams are open: the last of them on it, and those that `cs` opens after it. -/
def path : Nat → List Chunk → Nat → Nat × List Nat
  | _, [], id => (id, [])
  | n, .fork parent :: cs, id =>
    let (a, rest) := path (n + 1) cs id
    if a = n + 1 then (parent, a :: rest) else (a, rest)
  | n, .data _ _ :: cs, id => path n cs id

/-! ## The words of the file -/

variable {a fuel id n parent pos : Nat} {s : Block} {f f' : Forest} {os streamID : BitVec 32} {cs ds : List Chunk}
  {out : List (BitVec 8)} {rest : List Nat} {roots : List (BitVec 32)} {parents : List (BitVec 32 × BitVec 32)}

theorem msb_fork : (ofNat 32 n ||| forkBit).msb = true := by
  rw [BitVec.msb_or, show forkBit.msb = true by decide, Bool.or_true]

theorem child_fork (h : n < 2 ^ 31) : (ofNat 32 n ||| forkBit) ^^^ forkBit = ofNat 32 n := by
  apply BitVec.eq_of_getLsbD_eq
  intro i hi
  have bit : forkBit.getLsbD i = decide (i = 31) := by
    simp only [forkBit, BitVec.getLsbD_shiftLeft, BitVec.getLsbD_one]
    grind
  rw [BitVec.getLsbD_xor, BitVec.getLsbD_or, bit]
  by_cases top : i = 31
  · grind
  · simp [top]

theorem msb_size (h : n < 2 ^ 31) : (ofNat 32 n).msb = false := by
  rw [BitVec.msb_eq_decide, toNat_ofNat, decide_eq_false_iff_not]
  omega

theorem toNat_size (h : n < 2 ^ 31) : (ofNat 32 n).toNat = n := Nat.mod_eq_of_lt (by omega)

section Words

variable {a t : BitVec 32} {is : List (BitVec 8)}

theorem not_short : ¬ (leBytes 4 a ++ (leBytes 4 t ++ is)).length < 8 := by
  simp only [length_append, length_leBytes]
  omega

theorem drop_words : (leBytes 4 a ++ (leBytes 4 t ++ is)).drop 8 = is := by
  rw [← append_assoc]
  exact drop_left' (by simp)

theorem drop_word : (leBytes 4 a ++ is).drop 4 = is := drop_left' (length_leBytes 4 a)

theorem findRoots_fork (ht : t.msb = true) :
    findRoots streamID (fuel + 1) (leBytes 4 a ++ (leBytes 4 t ++ is)) parents =
      if t ^^^ forkBit = streamID then climb parents parents.length a [t ^^^ forkBit]
      else findRoots streamID fuel is (parents ++ [(t ^^^ forkBit, a)]) := by
  rw [findRoots, if_neg not_short]
  simp only [ofLeBytes_leBytes, drop_word, drop_words, ht, if_true]

theorem findRoots_data (ht : t.msb = false) :
    findRoots streamID (fuel + 1) (leBytes 4 a ++ (leBytes 4 t ++ is)) parents =
      findRoots streamID fuel (is.drop t.toNat) parents := by
  rw [findRoots, if_neg not_short]
  simp only [ofLeBytes_leBytes, drop_word, drop_words, ht, Bool.false_eq_true, if_false]

theorem collect_fork (ht : t.msb = true) : collect (fuel + 1) (leBytes 4 a ++ (leBytes 4 t ++ is)) roots out =
      collect fuel is (pop a (t ^^^ forkBit) roots) out := by
  rw [collect, if_neg not_short]
  simp only [ofLeBytes_leBytes, drop_word, drop_words, ht, if_true]

theorem collect_data (ht : t.msb = false) : collect (fuel + 1) (leBytes 4 a ++ (leBytes 4 t ++ is)) roots out =
      collect fuel (is.drop t.toNat) roots (if roots.head? = some a then out ++ gets is t.toNat else out) := by
  rw [collect, if_neg not_short]
  simp only [ofLeBytes_leBytes, drop_word, drop_words, ht, Bool.false_eq_true, if_false]

end Words

/-! ## The chain of a stream -/

theorem forks_append (cs ds : List Chunk) : forks (cs ++ ds) = forks cs + forks ds := by
  induction cs with
  | nil => simp [forks]
  | cons c cs ih =>
    cases c with
    | fork parent => simp only [cons_append, forks, ih]; omega
    | data id bytes => simp only [cons_append, forks, ih]

theorem valid_append : Valid n (cs ++ ds) ↔ Valid n cs ∧ Valid (n + forks cs) ds := by
  induction cs generalizing n with
  | nil => simp [Valid, forks]
  | cons c cs ih =>
    cases c with
    | fork parent => simp [Valid, forks, ih, and_assoc, Nat.add_assoc, Nat.add_comm]
    | data id bytes => simp [Valid, forks, ih, and_assoc]

theorem fileOf_append (cs ds : List Chunk) (n : Nat) : fileOf n (cs ++ ds) = fileOf n cs ++ fileOf (n + forks cs) ds := by
  induction cs generalizing n with
  | nil => simp [fileOf, forks]
  | cons c cs ih =>
    cases c with
    | fork parent => simp [fileOf, forks, ih, Nat.add_assoc, Nat.add_comm]
    | data id bytes => simp [fileOf, forks, ih]

theorem path_of_le (h : id ≤ n) : path n cs id = (id, []) := by
  induction cs generalizing n with
  | nil => rfl
  | cons c cs ih =>
    cases c with
    | fork parent =>
      simp only [path, ih (Nat.le_succ_of_le h)]
      rw [if_neg (by omega)]
    | data _ _ => exact ih h

/-- The way to a stream that one of the chunks opens. -/
theorem path_fork (cs ds : List Chunk) (n parent : Nat) : path n (cs ++ .fork parent :: ds) (n + forks cs + 1) =
      ((path n cs parent).1, (path n cs parent).2 ++ [n + forks cs + 1]) := by
  induction cs generalizing n with
  | nil => simp [path, forks, path_of_le]
  | cons c cs ih =>
    cases c with
    | fork q =>
      have h := ih (n + 1)
      simp only [cons_append, path, forks]
      rw [show n + (forks cs + 1) + 1 = n + 1 + forks cs + 1 by omega, h]
      by_cases ha : (path (n + 1) cs parent).1 = n + 1
      · simp [ha]
      · simp [ha]
    | data _ _ => simpa only [cons_append, path, forks] using ih n

/-- The chunks that open a stream and its ancestors decide the way to it. -/
theorem path_append (ds : List Chunk) (h : id ≤ n + forks cs) : path n (cs ++ ds) id = path n cs id := by
  induction cs generalizing n with
  | nil => exact path_of_le h
  | cons c cs ih =>
    cases c with
    | fork q => simp only [cons_append, path, ih (n := n + 1) (by rw [forks] at h; omega)]
    | data _ _ => exact ih h

theorem path_bounds (hv : Valid n cs) (h : id ≤ n + forks cs) :
    (path n cs id).1 ≤ n ∧ ∀ b ∈ (path n cs id).2, n < b ∧ b ≤ n + forks cs := by
  induction cs generalizing n with
  | nil => exact ⟨h, by simp [path]⟩
  | cons c cs ih =>
    cases c with
    | fork q =>
      obtain ⟨hq, -, hv⟩ := hv
      rw [forks] at h ⊢
      obtain ⟨head, rest⟩ := ih hv (by omega)
      simp only [path]
      by_cases ha : (path (n + 1) cs id).1 = n + 1
      · rw [if_pos ha]
        refine ⟨hq, ?_⟩
        rintro b (_ | ⟨_, hb⟩)
        · omega
        · have := rest b hb
          omega
      · grind
    | data _ _ => exact ih hv.2.2.2 h

theorem exists_fork (h₁ : n < id) (h₂ : id ≤ n + forks cs) :
    ∃ cs₁ parent cs₂, cs = cs₁ ++ .fork parent :: cs₂ ∧ id = n + forks cs₁ + 1 := by
  induction cs generalizing n with
  | nil =>
    rw [forks] at h₂
    omega
  | cons c cs ih =>
    cases c with
    | fork q =>
      by_cases first : id = n + 1
      · exact ⟨[], q, cs, rfl, first⟩
      · obtain ⟨cs₁, parent, cs₂, rfl, hid⟩ := ih (n := n + 1) (by omega) (by rw [forks] at h₂; omega)
        refine ⟨.fork q :: cs₁, parent, cs₂, rfl, ?_⟩
        rw [forks]
        omega
    | data i bytes =>
      obtain ⟨cs₁, parent, cs₂, rfl, hid⟩ := ih h₁ h₂
      exact ⟨.data i bytes :: cs₁, parent, cs₂, rfl, hid⟩

/-! ## The first loop -/

/-- The map `parents` after the chunks. -/
def parentsOf : Nat → List Chunk → List (BitVec 32 × BitVec 32)
  | _, [] => []
  | n, .fork parent :: cs => (BitVec.ofNat 32 (n + 1), BitVec.ofNat 32 parent) :: parentsOf (n + 1) cs
  | n, .data _ _ :: cs => parentsOf n cs

theorem length_parentsOf (cs : List Chunk) (n : Nat) : (parentsOf n cs).length = forks cs := by
  induction cs generalizing n with
  | nil => rfl
  | cons c cs ih =>
    cases c with
    | fork parent => rw [parentsOf, length_cons, ih, forks]
    | data _ _ => exact ih n

theorem parentsOf_append (cs ds : List Chunk) (n : Nat) :
    parentsOf n (cs ++ ds) = parentsOf n cs ++ parentsOf (n + forks cs) ds := by
  induction cs generalizing n with
  | nil => simp [parentsOf, forks]
  | cons c cs ih =>
    cases c with
    | fork parent => simp [parentsOf, forks, ih, Nat.add_assoc, Nat.add_comm]
    | data _ _ => simp [parentsOf, forks, ih]

theorem ofNat_inj {b : Nat} (ha : a < 2 ^ 31) (hb : b < 2 ^ 31) : ofNat 32 a = ofNat 32 b ↔ a = b := by
  rw [← BitVec.toNat_inj, toNat_ofNat, toNat_ofNat]
  omega

theorem Valid.forks_lt (h : Valid n cs) (hn : n < 2 ^ 31) : n + forks cs < 2 ^ 31 := by
  induction cs generalizing n with
  | nil => exact hn
  | cons c cs ih =>
    cases c with
    | fork parent =>
      have := ih h.2.2 h.2.1
      rw [forks]
      omega
    | data _ _ => exact ih h.2.2.2 hn

theorem lookup_parentsOf (hn : n + forks cs + 1 < 2 ^ 31) :
    (parentsOf n (cs ++ .fork parent :: ds)).lookup (ofNat 32 (n + forks cs + 1)) =
      some (ofNat 32 parent) := by
  induction cs generalizing n with
  | nil => simp [parentsOf, forks]
  | cons c cs ih =>
    cases c with
    | fork q =>
      rw [forks] at hn ⊢
      have later : ¬ ofNat 32 (n + (forks cs + 1) + 1) = ofNat 32 (n + 1) := by
        rw [ofNat_inj hn (by omega)]
        omega
      rw [cons_append, parentsOf, lookup_cons, beq_false_of_ne later]
      simpa only [Nat.add_assoc, Nat.add_comm, Nat.add_left_comm] using ih (n := n + 1) (by omega)
    | data _ _ => exact ih hn

theorem climb_parentsOf (hv : Valid 0 cs) {q : Nat} (hq : q ≤ forks cs) (hf : q ≤ fuel) (roots : List (BitVec 32)) :
    climb (parentsOf 0 cs) fuel (ofNat 32 q) roots = some ((path 0 cs q).2.map (ofNat 32) ++ roots) := by
  have bound := hv.forks_lt (by decide)
  induction fuel generalizing q roots with
  | zero =>
    obtain rfl : q = 0 := by omega
    simp [climb, path_of_le]
  | succ fuel ih =>
    by_cases h0 : q = 0
    · subst h0
      simp [climb, path_of_le]
    · have pos : 0 < q := Nat.pos_of_ne_zero h0
      obtain ⟨cs₁, parent, cs₂, rfl, hid⟩ := exists_fork pos (by rwa [Nat.zero_add])
      have hp : parent ≤ forks cs₁ := by simpa using (valid_append.1 hv).2.1
      have nonzero : ¬ ofNat 32 q = 0 := by
        rw [show (0 : BitVec 32) = ofNat 32 0 from rfl, ofNat_inj (by omega) (by omega)]
        exact h0
      have above := ih (q := parent) (by omega) (by omega) (ofNat 32 q :: roots)
      rw [path_append _ (by omega)] at above
      rw [climb, if_neg nonzero, hid, lookup_parentsOf (by omega), bind_some, ← hid, above, hid, path_fork]
      simp

theorem findRoots_fileOf (cs pre : List Chunk) (fuel : Nat) (hv : Valid 0 (pre ++ cs))
    (h₁ : forks pre < id) (h₂ : id ≤ forks (pre ++ cs)) (hf : cs.length ≤ fuel) :
    findRoots (ofNat 32 id) fuel (fileOf (forks pre) cs) (parentsOf 0 pre) =
      some ((path 0 (pre ++ cs) id).2.map (ofNat 32)) := by
  have bound := hv.forks_lt (by decide)
  induction cs generalizing pre fuel with
  | nil => grind
  | cons c cs ih =>
    obtain ⟨fuel, rfl⟩ : ∃ k, fuel = k + 1 := ⟨fuel - 1, by simp at hf; omega⟩
    have assoc : pre ++ [c] ++ cs = pre ++ c :: cs := by rw [append_assoc, singleton_append]
    have next := ih (pre ++ [c]) fuel (by rwa [assoc])
    rw [assoc, forks_append, parentsOf_append, Nat.zero_add] at next
    obtain ⟨hpre, hc⟩ := valid_append.1 hv
    rw [Nat.zero_add] at hc
    rw [length_cons] at hf
    cases c with
    | fork parent =>
      rw [fileOf, findRoots_fork msb_fork, child_fork hc.2.1]
      by_cases found : forks pre + 1 = id
      · subst found
        have last := path_fork pre cs 0 parent
        rw [Nat.zero_add] at last
        rw [if_pos rfl, climb_parentsOf hpre hc.1 (by rw [length_parentsOf]; exact hc.1), last]
        simp
      · rw [if_neg (by rw [ofNat_inj hc.2.1 (by omega)]; exact found)]
        simpa only [forks, parentsOf, Nat.zero_add] using next (by simp only [forks]; omega) h₂ (by omega) (by omega)
    | data i bytes =>
      rw [fileOf, findRoots_data (msb_size hc.2.2.1), toNat_size hc.2.2.1, drop_left]
      simpa only [forks, parentsOf, append_nil, Nat.add_zero] using next h₁ h₂ (by omega) (by omega)

/-! ## The second loop -/

section Forest

variable {f : Forest} {i j : Nat}

theorem getD_fork_of_lt (parent : Nat) (h : i < f.length) : (Chunk.apply f (.fork parent)).getD i [] = f.getD i [] := by
  simp [Chunk.apply, getElem?_append_left h]

theorem getD_fork_length (parent : Nat) : (Chunk.apply f (.fork parent)).getD f.length [] = f.getD parent [] := by
  simp [Chunk.apply]

theorem getD_data_self (bytes : List (BitVec 8)) (h : i < f.length) :
    (Chunk.apply f (.data i bytes)).getD i [] = f.getD i [] ++ bytes := by
  simp [Chunk.apply, h]

theorem getD_data_of_ne (bytes : List (BitVec 8)) (h : i ≠ j) :
    (Chunk.apply f (.data i bytes)).getD j [] = f.getD j [] := by
  simp [Chunk.apply, h]

end Forest

/-- The chain as the loop has it: without the parent of all streams. -/
def chain (way : Nat × List Nat) : List Nat := if way.1 = 0 then way.2 else way.1 :: way.2

theorem pop_map {child : Nat} {l : List Nat} (hi : id < 2 ^ 31) (hc : child < 2 ^ 31) (hl : ∀ b ∈ l, b < 2 ^ 31) :
    pop (ofNat 32 id) (ofNat 32 child) (l.map (ofNat 32)) =
      (pop id child l).map (ofNat 32) := by
  obtain _ | ⟨back, _ | ⟨next, rest⟩⟩ := l
  · rfl
  · rfl
  · simp only [map_cons, pop, ofNat_inj hi (hl back (by simp)), ofNat_inj hc (hl next (by simp))]
    split
    · rfl
    · rfl

/-- The next stream of the chain is opened by the one that is read. -/
theorem pop_chain : pop parent (n + 1) (chain (parent, (n + 1) :: rest)) = chain (n + 1, rest) := by
  by_cases h : parent = 0
  · subst h
    cases rest with
    | nil => simp [chain, pop]
    | cons b rest => simp [chain, pop]
  · simp [chain, pop, h]

theorem pop_chain_of_ne (hp : parent ≤ n) (hr : ∀ b ∈ rest, n + 1 < b) :
    pop parent (n + 1) (chain (a, rest)) = chain (a, rest) := by
  by_cases ha : a = 0
  · obtain _ | ⟨b, _ | ⟨b', rest⟩⟩ := rest
    · simp [chain, pop, ha]
    · simp [chain, pop, ha]
    · have := hr b (by simp)
      simp only [chain, pop, ha, if_true]
      rw [if_neg (by omega)]
  · obtain _ | ⟨b, rest⟩ := rest
    · simp [chain, pop, ha]
    · have := hr b (by simp)
      simp only [chain, pop, ha, if_false]
      rw [if_neg (by omega)]

theorem chain_lt (hv : Valid n cs) (hn : n < 2 ^ 31) (hid : id ≤ n + forks cs) :
    ∀ b ∈ chain (path n cs id), b < 2 ^ 31 := by
  obtain ⟨head, rest⟩ := path_bounds hv hid
  have total := hv.forks_lt hn
  intro b hb
  rw [chain] at hb
  split at hb
  · grind
  · rcases mem_cons.1 hb with rfl | hb
    · omega
    · grind

/-- The stream that is read is the one the block is for, or is not opened yet. -/
theorem head_chain {way : Nat × List Nat} {i : Nat} (rest : ∀ b ∈ way.2, n < b) (small : ∀ b ∈ chain way, b < 2 ^ 31)
    (h0 : 0 < i) (hi : i ≤ n) (hn : n < 2 ^ 31) :
    ((chain way).map (ofNat 32)).head? = some (ofNat 32 i) ↔ way.1 = i := by
  obtain ⟨a, l⟩ := way
  have hi' : i < 2 ^ 31 := by omega
  by_cases ha : a = 0
  · subst ha
    obtain _ | ⟨b, l⟩ := l
    · simp [chain]
      omega
    · have later := rest b (by simp)
      have hb := small b (by simp [chain])
      simp only [chain, if_true, map_cons, head?_cons, some.injEq, ofNat_inj hb hi']
      omega
  · have hb := small a (by simp [chain, ha])
    simp only [chain, ha, if_false, map_cons, head?_cons, some.injEq, ofNat_inj hb hi']

theorem collect_fileOf (cs : List Chunk) (fuel : Nat) (f : Forest) (hv : Valid n cs) (hn : n < 2 ^ 31)
    (hf : f.length = n + 1) (root : f.getD 0 [] = []) (hid : id ≤ n + forks cs) (fuel_le : cs.length ≤ fuel) :
    collect fuel (fileOf n cs) ((chain (path n cs id)).map (ofNat 32)) (f.getD (path n cs id).1 []) =
      some ((replay f cs).getD id []) := by
  -- what is collected is always what the stream that is read holds by now
  induction cs generalizing n fuel f with
  | nil =>
    cases fuel with
    | zero => simp [collect, fileOf, replay, path]
    | succ fuel => simp [collect, fileOf, replay, path]
  | cons c cs ih =>
    obtain ⟨fuel, rfl⟩ : ∃ k, fuel = k + 1 := ⟨fuel - 1, by simp at fuel_le; omega⟩
    rw [length_cons] at fuel_le
    have bounds := path_bounds hv hid
    have small := chain_lt hv hn hid
    cases c with
    | fork parent =>
      obtain ⟨hp, hn', hv⟩ := hv
      have hid' : id ≤ n + 1 + forks cs := by rw [forks] at hid; omega
      have next := ih fuel (Chunk.apply f (.fork parent)) hv hn' (by simp [Chunk.apply, hf])
        (by rw [getD_fork_of_lt _ (by omega), root]) hid' (by omega)
      have bounds' := path_bounds hv hid'
      rw [fileOf, collect_fork msb_fork, child_fork hn', pop_map (by omega) hn' small]
      by_cases opened : (path (n + 1) cs id).1 = n + 1
      · have way : path n (.fork parent :: cs) id = (parent, (n + 1) :: (path (n + 1) cs id).2) := by
          simp [path, opened]
        have same : (n + 1, (path (n + 1) cs id).2) = path (n + 1) cs id := Prod.ext opened.symm rfl
        rw [opened, ← hf, getD_fork_length, hf] at next
        rw [way, pop_chain, same]
        exact next
      · have way : path n (.fork parent :: cs) id = path (n + 1) cs id := by simp [path, opened]
        rw [way] at bounds ⊢
        rw [getD_fork_of_lt _ (by omega)] at next
        rw [pop_chain_of_ne hp fun b hb => (bounds'.2 b hb).1]
        exact next
    | data i bytes =>
      have head := head_chain (fun b hb => (bounds.2 b hb).1) small hv.1 hv.2.1 hn
      obtain ⟨hi, hin, hb, hv⟩ := hv
      have next := ih fuel (Chunk.apply f (.data i bytes)) hv hn (by simpa [Chunk.apply] using hf)
        (by rw [getD_data_of_ne _ (by omega), root]) hid (by omega)
      rw [fileOf, collect_data (msb_size hb), toNat_size hb, drop_left]
      by_cases read : (path n cs id).1 = i
      · rw [read, getD_data_self _ (by omega)] at next
        have all : gets (bytes ++ fileOf n cs) bytes.length = bytes := by simp [gets]
        rw [if_pos (head.2 read), all]
        rw [← read] at next ⊢
        exact next
      · rw [if_neg fun h => read (head.1 h)]
        rw [getD_data_of_ne _ (Ne.symm read)] at next
        exact next

theorem length_le_fileOf (cs : List Chunk) (n : Nat) : cs.length ≤ (fileOf n cs).length := by
  induction cs generalizing n with
  | nil => simp
  | cons c cs ih =>
    cases c with
    | fork parent =>
      have := ih (n + 1)
      simp only [fileOf, length_append, length_leBytes, length_cons]
      omega
    | data id bytes =>
      have := ih n
      simp only [fileOf, length_append, length_leBytes, length_cons]
      omega

theorem readFile_fileOf (hv : Valid 0 cs) (pos : 0 < id) (hid : id ≤ forks cs) :
    readFile (ofNat 32 id) (fileOf 0 cs) = some ((replay [[]] cs).getD id []) := by
  have hid' : id ≤ 0 + forks cs := by omega
  have roots := findRoots_fileOf cs [] _ hv pos hid (length_le_fileOf cs 0)
  have all := collect_fileOf cs _ [[]] hv (by decide) rfl rfl hid' (length_le_fileOf cs 0)
  have top : (path 0 cs id).1 = 0 := Nat.le_zero.1 (path_bounds hv hid').1
  rw [chain, if_pos top, top] at all
  rw [readFile]
  simp only [nil_append, forks, parentsOf] at roots
  rw [roots]
  exact all

/-! ## Writing -/

/-- An operation on the writer, with the id of the stream that it is for. -/
inductive Op
  | openRoot
  | openStream (os : BitVec 32)
  | write (os : BitVec 32) (s : Block)
  | flush

def Op.exec (w : TreeStreamWriter) : Op → Option TreeStreamWriter
  | .openRoot => some w.openRoot.2
  | .openStream os => some (w.openStream os).2
  | .write os s => w.write os s
  | .flush => some w.flush

def run (w : TreeStreamWriter) (ops : List Op) : Option TreeStreamWriter := ops.foldlM Op.exec w

variable {w : TreeStreamWriter} {op : Op} {ops : List Op}

/-- What an operation is for, on streams that exist. -/
def Op.meaning (f : Forest) : Op → Option Forest
  | .openRoot => some (f ++ [[]])
  | .openStream os => if 0 < os.toNat ∧ os.toNat < f.length then some (f ++ [f.getD os.toNat []]) else none
  | .write os s => if 0 < os.toNat ∧ os.toNat < f.length then some (f.modify os.toNat (· ++ s.bytes)) else none
  | .flush => some f

def meaning (f : Forest) (ops : List Op) : Option Forest := ops.foldlM Op.meaning f

/-- The block is shorter than the buffer. -/
def Op.Short : Op → Prop
  | .write _ s => s.bytes.length < bufferSize
  | _ => True

/-- The block that is in the buffer. -/
def TreeStreamWriter.pending (w : TreeStreamWriter) : List Chunk :=
  if w.bufferCount = 0 then [] else [.data w.lastID.toNat (w.buffer.take w.bufferCount.toNat)]

/-- The file holds the chunks `cs`, and together with the buffer the streams `f`. -/
structure Logs (w : TreeStreamWriter) (f : Forest) (cs : List Chunk) : Prop where
  output : w.output = fileOf 0 cs
  valid : Valid 0 (cs ++ w.pending)
  forest : replay [[]] (cs ++ w.pending) = f
  ids : w.ids.toNat = f.length

open TreeStreamWriter (init pending)

theorem length_replay (f : Forest) (cs : List Chunk) : (replay f cs).length = f.length + forks cs := by
  induction cs generalizing f with
  | nil => rfl
  | cons c cs ih =>
    rw [replay, foldl_cons, ← replay, ih]
    cases c with
    | fork parent => simp only [Chunk.apply, length_append, length_singleton, forks]; omega
    | data id bytes => simp only [Chunk.apply, length_modify, forks]

theorem root_replay (hv : Valid n cs) (hf : f.length = n + 1)
    (root : f.getD 0 [] = []) : (replay f cs).getD 0 [] = [] := by
  induction cs generalizing n f with
  | nil => exact root
  | cons c cs ih =>
    rw [replay, foldl_cons, ← replay]
    cases c with
    | fork parent =>
      apply ih hv.2.2
      · simp [Chunk.apply, hf]
      · rw [getD_fork_of_lt _ (by omega), root]
    | data id bytes =>
      have pos := hv.1
      apply ih hv.2.2.2
      · simpa [Chunk.apply] using hf
      · rw [getD_data_of_ne _ (by omega), root]

theorem replay_append (f : Forest) (cs ds : List Chunk) : replay f (cs ++ ds) = replay (replay f cs) ds :=
  foldl_append

namespace Logs

variable {w : TreeStreamWriter} {f : Forest} {cs : List Chunk}

theorem length_eq (h : Logs w f cs) : f.length = forks (cs ++ w.pending) + 1 := by
  rw [← h.forest, length_replay]
  simp
  omega

theorem pending_of_zero (h : w.bufferCount = 0) : w.pending = [] := by rw [pending, if_pos h]

theorem bufferCount_flushBuffer (w : TreeStreamWriter) : w.flushBuffer.bufferCount = 0 := by
  rw [TreeStreamWriter.flushBuffer]
  split
  · rfl
  · simp_all

theorem take_copyTo (buffer s : List (BitVec 8)) (h : pos ≤ buffer.length) :
    (copyTo buffer pos s).take (pos + s.length) = buffer.take pos ++ s := by
  rw [copyTo]
  apply take_left'
  rw [length_append, length_take, min_eq_left h]

theorem modify_modify (f : Forest) (i : Nat) (s t : List (BitVec 8)) :
    (f.modify i (· ++ s)).modify i (· ++ t) = f.modify i (· ++ (s ++ t)) := by
  apply ext_getElem?
  intro j
  by_cases h : i = j
  · simp [h, Function.comp_def]
  · simp [h]

/-- A writer whose file holds the chunks `cs`, with `bytes` in the buffer. -/
theorem of_buffer {bytes : List (BitVec 8)} (hv : Valid 0 cs) (output : w.output = fileOf 0 cs)
    (ids : w.ids.toNat = forks cs + 1) (pos : 0 < w.lastID.toNat) (hid : w.lastID.toNat ≤ forks cs)
    (count : w.bufferCount.toNat = bytes.length) (buffer : w.buffer.take bytes.length = bytes) :
    Logs w ((replay [[]] cs).modify w.lastID.toNat (· ++ bytes)) cs := by
  have length : ((replay [[]] cs).modify w.lastID.toNat (· ++ bytes)).length = forks cs + 1 := by
    rw [length_modify, length_replay]
    simp
    omega
  have small := w.bufferCount_le
  rw [bufferSize] at small
  by_cases h0 : w.bufferCount = 0
  · have empty : bytes = [] := by
      rw [h0] at count
      exact length_eq_zero_iff.1 count.symm
    refine ⟨output, ?_, ?_, ids.trans length.symm⟩
    · rwa [pending_of_zero h0, append_nil]
    · rw [pending_of_zero h0, append_nil, empty]
      simp only [append_nil]
      exact (modify_id _ _).symm
  · have pending : w.pending = [.data w.lastID.toNat bytes] := by
      rw [pending, if_neg h0, count, buffer]
    refine ⟨output, ?_, ?_, ids.trans length.symm⟩
    · rw [pending, valid_append]
      exact ⟨hv, pos, by omega, by omega, trivial⟩
    · rw [pending, replay_append]
      rfl

section

variable (h : Logs w f cs)

include h

theorem output_flushBuffer : w.flushBuffer.output = fileOf 0 (cs ++ w.pending) := by
  by_cases h0 : w.bufferCount = 0
  · simp [TreeStreamWriter.flushBuffer, pending, h0, h.output]
  · have length : min w.bufferCount.toNat w.buffer.length = w.bufferCount.toNat := by
      rw [w.length_buffer]
      exact min_eq_left w.bufferCount_le
    rw [TreeStreamWriter.flushBuffer, if_pos h0, pending, if_neg h0, fileOf_append, h.output]
    simp [fileOf, length]

theorem flushBuffer : Logs w.flushBuffer f (cs ++ w.pending) where
  output := h.output_flushBuffer
  valid := by
    rw [pending_of_zero (bufferCount_flushBuffer w), append_nil]
    exact h.valid
  forest := by
    rw [pending_of_zero (bufferCount_flushBuffer w), append_nil]
    exact h.forest
  ids := by
    rw [TreeStreamWriter.flushBuffer]
    split
    · exact h.ids
    · exact h.ids

theorem openStream (os : BitVec 32) (hos : os.toNat < f.length) (hf : f.length < 2 ^ 31) :
    Logs (w.openStream os).2 (f ++ [f.getD os.toNat []]) (cs ++ w.pending ++ [.fork os.toNat]) := by
  have hl := h.length_eq
  have flushed := h.flushBuffer
  have hz : (w.openStream os).2.pending = [] := pending_of_zero (bufferCount_flushBuffer w)
  have next : ofNat 32 (forks (cs ++ w.pending) + 1) = w.flushBuffer.ids := by
    rw [← hl, ← flushed.ids, BitVec.ofNat_toNat, BitVec.setWidth_eq]
  constructor
  · rw [fileOf_append, ← h.output_flushBuffer, Nat.zero_add, fileOf, next]
    simp [TreeStreamWriter.openStream, fileOf]
  · rw [hz, append_nil, valid_append]
    refine ⟨h.valid, ?_, ?_, trivial⟩
    · omega
    · omega
  · rw [hz, append_nil, replay_append, h.forest]
    rfl
  · have := flushed.ids
    have one : (1 : BitVec 32).toNat = 1 := rfl
    simp only [TreeStreamWriter.openStream, toNat_add, length_append, length_singleton]
    omega

theorem makeRoom (short : s.bytes.length < bufferSize) :
    ∃ cs', Logs (w.makeRoom os s) f cs' ∧ ((w.makeRoom os s).bufferCount ≠ 0 →
      (w.makeRoom os s).lastID = os ∧ (w.makeRoom os s).bufferCount.toNat + s.bytes.length ≤ bufferSize) := by
  by_cases room : w.bufferCount ≠ 0 ∧ (os ≠ w.lastID ∨ bufferSize < (s.size + w.bufferCount).toNat)
  · rw [TreeStreamWriter.makeRoom, if_pos room]
    exact ⟨_, h.flushBuffer, fun hc => absurd (bufferCount_flushBuffer w) hc⟩
  · rw [TreeStreamWriter.makeRoom, if_neg room]
    refine ⟨cs, h, ?_⟩
    intro hc
    -- neither summand is large enough for the sum to wrap around
    have le := w.bufferCount_le
    simp only [hc, ne_eq, not_false_eq_true, true_and, not_or, not_not, Nat.not_lt, toNat_add, s.toNat_size] at room
    simp only [bufferSize] at *
    exact ⟨room.1.symm, by omega⟩

theorem put (pos : 0 < os.toNat) (hos : os.toNat < f.length) (short : s.bytes.length < bufferSize)
    (fits : w.bufferCount ≠ 0 → w.lastID = os ∧ w.bufferCount.toNat + s.bytes.length ≤ bufferSize) :
    ∃ w', w.put os s = some w' ∧ Logs w' (f.modify os.toNat (· ++ s.bytes)) cs := by
  have hl := h.length_eq
  have hv := (valid_append.1 h.valid).1
  by_cases hc : w.bufferCount = 0
  · rw [TreeStreamWriter.put, if_neg (not_not.2 hc), dif_pos short]
    rw [pending_of_zero hc, append_nil] at hl
    rw [← h.forest, pending_of_zero hc, append_nil]
    refine ⟨_, rfl, of_buffer hv h.output (h.ids.trans hl) pos ?_ s.toNat_size ?_⟩
    · dsimp only
      omega
    · simpa using take_copyTo w.buffer s.bytes (Nat.zero_le _)
  · obtain ⟨rfl, room⟩ := fits hc
    have pending : w.pending = [.data w.lastID.toNat (w.buffer.take w.bufferCount.toNat)] := by
      rw [pending, if_neg hc]
    have count := w.bufferCount_le
    have held : (w.buffer.take w.bufferCount.toNat).length = w.bufferCount.toNat := by
      rw [length_take, w.length_buffer, min_eq_left count]
    rw [TreeStreamWriter.put, if_pos hc, dif_pos room]
    rw [pending, forks_append] at hl
    simp only [forks, Nat.add_zero] at hl
    rw [← h.forest, pending, replay_append, replay, foldl_cons, foldl_nil, Chunk.apply, modify_modify]
    refine ⟨_, rfl, of_buffer hv h.output (h.ids.trans hl) pos ?_ ?_ ?_⟩
    · dsimp only
      omega
    · rw [length_append, held]
      simp only [toNat_add, s.toNat_size, bufferSize] at *
      omega
    · rw [length_append, held]
      exact take_copyTo w.buffer s.bytes (by rw [w.length_buffer]; exact count)

theorem write (pos : 0 < os.toNat) (hos : os.toNat < f.length) (short : s.bytes.length < bufferSize) :
    ∃ w' cs', w.write os s = some w' ∧ Logs w' (f.modify os.toNat (· ++ s.bytes)) cs' := by
  obtain ⟨cs', logs, fits⟩ := h.makeRoom short
  obtain ⟨w', done, logs'⟩ := logs.put pos hos short fits
  exact ⟨w', cs', done, logs'⟩

theorem exec (hm : op.meaning f = some f') (short : op.Short)
    (hf : f'.length ≤ 2 ^ 31) : ∃ w' cs', op.exec w = some w' ∧ Logs w' f' cs' := by
  cases op with
  | openRoot =>
    cases hm
    rw [length_append, length_singleton] at hf
    have root : f.getD (0 : BitVec 32).toNat [] = [] := by
      rw [← h.forest]
      exact root_replay h.valid rfl rfl
    have logs := h.openStream 0 (by rw [h.length_eq]; simp) (by omega)
    rw [root] at logs
    exact ⟨_, _, rfl, logs⟩
  | openStream os =>
    obtain ⟨open', hm⟩ := ite_none_right_eq_some.1 hm
    cases hm
    rw [length_append, length_singleton] at hf
    exact ⟨_, _, rfl, h.openStream os open'.2 (by omega)⟩
  | write os s =>
    obtain ⟨open', hm⟩ := ite_none_right_eq_some.1 hm
    cases hm
    exact h.write open'.1 open'.2 short
  | flush =>
    cases hm
    exact ⟨_, _, rfl, h.flushBuffer⟩

theorem readStream {id : BitVec 32} (pos : 0 < id.toNat) (hid : id.toNat < f.length) :
    w.readStream id = some (f.getD id.toNat []) := by
  have hl := h.length_eq
  have checked : 0 < id ∧ id < w.ids := by
    rw [BitVec.lt_def, BitVec.lt_def, h.ids]
    exact ⟨pos, hid⟩
  have read := readFile_fileOf h.valid pos (by omega)
  rw [BitVec.ofNat_toNat, BitVec.setWidth_eq, h.forest] at read
  rw [TreeStreamWriter.readStream, if_pos checked, TreeStreamWriter.flush, h.output_flushBuffer, read]

end

end Logs

theorem length_meaning (h : op.meaning f = some f') : f.length ≤ f'.length := by
  cases op with
  | openRoot => cases h; simp
  | openStream os | write os s =>
    obtain ⟨-, h⟩ := ite_none_right_eq_some.1 h
    cases h
    simp
  | flush => cases h; simp

theorem length_le_of_meaning (h : meaning f ops = some f') : f.length ≤ f'.length := by
  induction ops generalizing f with
  | nil =>
    cases h
    exact le_rfl
  | cons op ops ih =>
    obtain ⟨f₁, h₁, h₂⟩ := bind_eq_some_iff.1 h
    exact (length_meaning h₁).trans (ih h₂)

theorem Logs.run (h : Logs w f cs)
    (hm : meaning f ops = some f') (short : ∀ op ∈ ops, op.Short) (hf : f'.length ≤ 2 ^ 31) :
    ∃ w' cs', TreeStream.run w ops = some w' ∧ Logs w' f' cs' := by
  induction ops generalizing w f cs with
  | nil =>
    cases hm
    exact ⟨w, cs, rfl, h⟩
  | cons op ops ih =>
    obtain ⟨f₁, h₁, h₂⟩ := bind_eq_some_iff.1 hm
    obtain ⟨w₁, cs₁, done, logs⟩ := h.exec h₁ (short op (by simp)) ((length_le_of_meaning h₂).trans hf)
    obtain ⟨w', cs', rest, logs'⟩ := ih logs h₂ fun op hop => short op (mem_cons_of_mem _ hop)
    refine ⟨w', cs', ?_, logs'⟩
    rw [TreeStream.run, foldlM_cons, done]
    exact rest

theorem logs_init (buffer : List (BitVec 8)) (hb : buffer.length = bufferSize) : Logs (init buffer hb) [[]] [] where
  output := rfl
  valid := trivial
  forest := rfl
  ids := rfl

/-- As long as every block is shorter than the buffer, and the ids leave the top bit free, every stream is read back as what
its ancestors held when it was opened, and what was written to it afterwards. -/
theorem readStream_run {buffer : List (BitVec 8)} (hb : buffer.length = bufferSize) {ops : List Op} {f : Forest}
    (hm : meaning [[]] ops = some f) (short : ∀ op ∈ ops, op.Short) (streams : f.length ≤ 2 ^ 31) :
    ∃ w, run (.init buffer hb) (ops ++ [.flush]) = some w ∧
      ∀ id : BitVec 32, 0 < id.toNat → id.toNat < f.length → w.readStream id = some (f.getD id.toNat []) := by
  obtain ⟨w, cs, done, logs⟩ := (logs_init buffer hb).run hm short streams
  refine ⟨w.flush, ?_, ?_⟩
  · rw [run, foldlM_append, ← run, done]
    rfl
  · intro id pos hid
    exact logs.flushBuffer.readStream pos hid

/-- Two streams, the second opened between two writes to the first. -/
def twoStreams : List Op :=
  [.openRoot, .write 1 ⟨[1, 2], by decide⟩, .openStream 1, .write 2 ⟨[3], by decide⟩, .write 1 ⟨[4], by decide⟩]

theorem readStream_twoStreams : meaning [[]] twoStreams = some [[], [1, 2, 4], [1, 2, 3]] ∧
      ∃ w, run (.init (replicate bufferSize 0) length_replicate) (twoStreams ++ [.flush]) = some w ∧
        ∀ id : BitVec 32, 0 < id.toNat → id.toNat < 3 → w.readStream id = some ([[], [1, 2, 4], [1, 2, 3]].getD id.toNat []) := by
  have hm : meaning [[]] twoStreams = some [[], [1, 2, 4], [1, 2, 3]] := by decide
  have short : ∀ op ∈ twoStreams, op.Short := by simp [twoStreams, Op.Short, bufferSize]
  exact ⟨hm, readStream_run length_replicate hm short (by decide)⟩

/-- For a block of the size of the buffer the stream gets what the buffer happens to hold. -/
theorem Logs.write_large (h : Logs w f cs) (os : BitVec 32) (s : Block)
    (pos : 0 < os.toNat) (hos : os.toNat < f.length) (hs : s.bytes.length = bufferSize) (hc : w.bufferCount = 0) :
    ∃ w' cs', w.write os s = some w' ∧ Logs w' (f.modify os.toNat (· ++ w.buffer)) cs' := by
  have held : w.buffer.take s.bytes.length = w.buffer := by rw [hs, ← w.length_buffer, take_length]
  have size : s.size = ofNat 32 w.buffer.length := by rw [Block.size, hs, w.length_buffer]
  have hl := h.length_eq
  have hv := h.valid
  have hf := h.forest
  rw [pending_of_zero hc, append_nil] at hl hv hf
  have none : w.makeRoom os s = w := by rw [TreeStreamWriter.makeRoom, if_neg fun room => room.1 hc]
  rw [TreeStreamWriter.write, none, TreeStreamWriter.put, if_neg (not_not.2 hc), dif_neg (by omega), if_pos hs.le]
  refine ⟨_, cs ++ [.data os.toNat w.buffer], rfl, ?_⟩
  · have pending : ∀ output, pending { w with output } = [] := fun _ => pending_of_zero hc
    have small : w.buffer.length < 2 ^ 31 := by
      rw [w.length_buffer]
      decide
    constructor
    · simp [held, size, h.output, fileOf_append, fileOf]
    · rw [pending, append_nil, valid_append]
      exact ⟨hv, pos, by omega, small, trivial⟩
    · rw [pending, append_nil, replay_append, hf]
      rfl
    · rw [length_modify]
      exact h.ids

/-- A block of ones, as large as the buffer. -/
def ones : Block where
  bytes := replicate bufferSize 1
  size_lt := by
    rw [length_replicate]
    decide

/-- The stream should hold ones, and is read back as zeros. -/
theorem readStream_ones : meaning [[]] [.openRoot, .write 1 ones, .flush] = some [[], replicate bufferSize 1] ∧
    ∃ w, run (.init (replicate bufferSize 0) length_replicate) [.openRoot, .write 1 ones, .flush] = some w ∧
      w.readStream 1 = some (replicate bufferSize 0) := by
  have opened := (logs_init (replicate bufferSize 0) length_replicate).openStream 0 (by decide) (by decide)
  obtain ⟨w, cs, done, logs⟩ := opened.write_large 1 ones (by decide) (by decide) length_replicate rfl
  refine ⟨rfl, w.flush, ?_, logs.flushBuffer.readStream (by decide) (by decide)⟩
  rw [run, foldlM_cons]
  simp only [Op.exec, TreeStreamWriter.openRoot, bind_eq_bind, bind_some, foldlM_cons, done, foldlM_nil]
  rfl

end S2E.Klee.TreeStream
