import Mathlib.Data.Finset.Basic
import Mathlib.Tactic

/-!
# `HostFiles`

The guest opens, reads and closes files of the host by custom instructions. All states share one table of open files.

* `HostFiles` : the table, and the descriptors that the host has open;
* `openFile`, `closeFile`, `readFile` : the three requests, with the value that the register gets; `Fault` : what must not
  happen;
* `resolve` : the file that a name leads to. The names that `openFile` lets pass have no slash, but may be `..`;
* `readFile` lets a descriptor pass that is the size of the table.
-/

namespace S2E.Plugins

abbrev FileName := List (BitVec 8)

structure HostFiles where
  /-- `m_openFiles`, with `-1` for `none`. -/
  openFiles : List (Option Nat)
  /-- The descriptors that the host has open. -/
  descriptors : Finset Nat

namespace HostFiles

inductive Fault
  /-- `m_openFiles` is indexed beyond its end. -/
  | outOfBounds
  /-- A descriptor is used that is not open. -/
  | closedDescriptor
  /-- A path is opened that does not lead into the base directory. -/
  | outsideBase
deriving DecidableEq

/-- How the host answers `open`: not at all, or with a descriptor that is not in use. -/
structure HostOpen where
  answer : Finset Nat → Option Nat
  fresh : ∀ {s : Finset Nat} {fd : Nat}, answer s = some fd → fd ∉ s

def allOnes : BitVec 32 := -1

/-- `isalnum`, or one of `,`, `_`, `-` and `.`. -/
def allowed (c : BitVec 8) : Bool :=
  (0x30 ≤ c && c ≤ 0x39) || (0x41 ≤ c && c ≤ 0x5A) || (0x61 ≤ c && c ≤ 0x7A) ||
    c = 0x2C || c = 0x5F || c = 0x2D || c = 0x2E

/-- `..` -/
def dotDot : FileName := [0x2E, 0x2E]

/-- The file that a name without a slash leads to in a directory, as the names from the root on. -/
def resolve (dir : List FileName) (name : FileName) : List FileName :=
  if name = dotDot then dir.dropLast else if name = [0x2E] then dir else dir ++ [name]

variable (baseDir : List FileName)

/-- The name is `none` where a register is symbolic or the string cannot be read. -/
def openFile (p : HostFiles) (fname : Option FileName) (host : HostOpen) : Except Fault (BitVec 32 × HostFiles) :=
  match fname with
  | none => .ok (allOnes, p)
  | some fname =>
    if fname = [] ∨ ¬ fname.all allowed then .ok (allOnes, p)
    else if ¬ baseDir <+: resolve baseDir fname then .error .outsideBase
    else match host.answer p.descriptors with
      | none => .ok (allOnes, p)
      | some fd =>
        let openFiles := p.openFiles ++ [some fd]
        .ok (BitVec.ofNat 32 (openFiles.length - 1), ⟨openFiles, insert fd p.descriptors⟩)

/-- `ret` is what `close` returns. -/
def closeFile (p : HostFiles) (guestFd : Option (BitVec 32)) (ret : BitVec 32) : Except Fault (BitVec 32 × HostFiles) :=
  match guestFd with
  | none => .ok (allOnes, p)
  | some guestFd =>
    match p.openFiles[guestFd.toNat]? with
    | some (some fd) =>
      if fd ∈ p.descriptors then .ok (ret, ⟨p.openFiles.set guestFd.toNat none, p.descriptors.erase fd⟩)
      else .error .closedDescriptor
    | _ => .ok (allOnes, p)

/-- `ret` is what `read` returns, or all ones if the guest's buffer cannot be written. The arguments are the descriptor and
the count, where all registers are concrete. -/
def readFile (p : HostFiles) (args : Option (BitVec 32 × BitVec 32)) (ret : BitVec 32) :
    Except Fault (BitVec 32 × HostFiles) :=
  match args with
  | none => .ok (allOnes, p)
  | some (guestFd, count) =>
    if 1024 * 64 < count.toNat then .ok (allOnes, p)
    else if p.openFiles.length < guestFd.toNat then .ok (allOnes, p)
    else match p.openFiles[guestFd.toNat]? with
      | none => .error .outOfBounds
      | some none => .ok (allOnes, p)
      | some (some fd) => if fd ∈ p.descriptors then .ok (ret, p) else .error .closedDescriptor

inductive Request
  | openFile (fname : Option FileName) (host : HostOpen)
  | closeFile (guestFd : Option (BitVec 32)) (ret : BitVec 32)
  | readFile (args : Option (BitVec 32 × BitVec 32)) (ret : BitVec 32)

def onCustomInstruction (p : HostFiles) : Request → Except Fault (BitVec 32 × HostFiles)
  | .openFile fname host => p.openFile baseDir fname host
  | .closeFile guestFd ret => p.closeFile guestFd ret
  | .readFile args ret => p.readFile args ret

/-! ## Requests -/

/-- The guest descriptor of a request to close or read. -/
def Request.descriptor : Request → Option (BitVec 32)
  | .openFile .. => none
  | .closeFile guestFd _ => guestFd
  | .readFile args _ => args.map Prod.fst

def IsOpen (p : HostFiles) (guestFd : BitVec 32) : Prop := ∃ fd, p.openFiles[guestFd.toNat]? = some (some fd)

/-- The two requests that go wrong: to open `..`, and to read with the size of the table as the descriptor. -/
def Bad (p : HostFiles) : Request → Prop
  | .openFile fname _ => fname = some dotDot ∧ baseDir ≠ []
  | .readFile (some (guestFd, count)) _ => count.toNat ≤ 1024 * 64 ∧ guestFd.toNat = p.openFiles.length
  | _ => False

/-- Nothing happens that must not, and a request on a descriptor that is not open gets all ones. -/
def Safe (p : HostFiles) (r : Request) : Prop :=
  match p.onCustomInstruction baseDir r with
  | .ok (ret, _) => ∀ guestFd, r.descriptor = some guestFd → ¬ p.IsOpen guestFd → ret = allOnes
  | .error _ => False

/-- All requests are safe, each in the state that those before it lead to. -/
def AllSafe (p : HostFiles) : List Request → Prop
  | [] => True
  | r :: rs => p.Safe baseDir r ∧ ∀ ret p', p.onCustomInstruction baseDir r = .ok (ret, p') → p'.AllSafe rs

def NoneBad (p : HostFiles) : List Request → Prop
  | [] => True
  | r :: rs => ¬ p.Bad baseDir r ∧ ∀ ret p', p.onCustomInstruction baseDir r = .ok (ret, p') → p'.NoneBad rs

/-! ## The table -/

/-- The descriptors in the table are open, and no two entries have the same one. -/
structure Inv (p : HostFiles) : Prop where
  isOpen : ∀ (i : Nat) fd, p.openFiles[i]? = some (some fd) → fd ∈ p.descriptors
  inj : ∀ (i j : Nat) fd, p.openFiles[i]? = some (some fd) → p.openFiles[j]? = some (some fd) → i = j

variable {baseDir} {p : HostFiles}

theorem base_resolve_iff {fname : FileName} : baseDir <+: resolve baseDir fname ↔ fname ≠ dotDot ∨ baseDir = [] := by
  unfold resolve
  split
  · rename_i up
    rw [up]
    constructor
    · intro h
      have := h.length_le
      rw [List.length_dropLast] at this
      exact .inr (List.length_eq_zero_iff.1 (by omega))
    · rintro (h | rfl)
      · exact absurd rfl h
      · exact List.nil_prefix
  · rename_i stays
    refine iff_of_true ?_ (.inl stays)
    split
    · exact List.prefix_rfl
    · exact List.prefix_append _ _

/-- The entry that a new descriptor gets is the only one that has it. -/
theorem Inv.push (h : p.Inv) {fd : Nat} (hfd : fd ∉ p.descriptors) :
    Inv ⟨p.openFiles ++ [some fd], insert fd p.descriptors⟩ where
  isOpen i fd' hi := by
    have := h.isOpen i fd'
    grind
  inj i j fd' hi hj := by
    have := h.inj i j fd'
    have := h.isOpen i fd'
    have := h.isOpen j fd'
    grind

theorem Inv.erase (h : p.Inv) {i fd : Nat} (hi : p.openFiles[i]? = some (some fd)) :
    Inv ⟨p.openFiles.set i none, p.descriptors.erase fd⟩ where
  isOpen j fd' hj := by
    have := h.isOpen j fd'
    have := h.inj i j fd hi
    grind
  inj j k fd' hj hk := by
    have := h.inj j k fd'
    grind

theorem Inv.onCustomInstruction (h : p.Inv) {r : Request} {ret : BitVec 32} {p' : HostFiles}
    (hr : p.onCustomInstruction baseDir r = .ok (ret, p')) : p'.Inv := by
  cases r with
  | openFile fname host =>
    simp only [HostFiles.onCustomInstruction, openFile] at hr
    have := @host.fresh p.descriptors
    have := @h.push
    grind
  | closeFile guestFd ret =>
    simp only [HostFiles.onCustomInstruction, closeFile] at hr
    have := @h.erase
    grind
  | readFile args ret =>
    simp only [HostFiles.onCustomInstruction, readFile] at hr
    grind

theorem Inv.safe_iff (h : p.Inv) (r : Request) : p.Safe baseDir r ↔ ¬ p.Bad baseDir r := by
  have hopen := h.isOpen
  cases r with
  | openFile fname host =>
    have hdot : dotDot ≠ [] ∧ dotDot.all allowed := by decide
    have inside := @base_resolve_iff baseDir
    simp only [Safe, Bad, HostFiles.onCustomInstruction, openFile, Request.descriptor]
    grind
  | closeFile guestFd ret =>
    simp only [Safe, Bad, HostFiles.onCustomInstruction, closeFile, Request.descriptor, IsOpen]
    grind
  | readFile args ret =>
    obtain _ | ⟨guestFd, count⟩ := args
    · simp [Safe, Bad, HostFiles.onCustomInstruction, readFile]
    · simp only [Safe, Bad, HostFiles.onCustomInstruction, readFile, Request.descriptor, IsOpen]
      grind

theorem Inv.allSafe_iff (h : p.Inv) (rs : List Request) : p.AllSafe baseDir rs ↔ p.NoneBad baseDir rs := by
  induction rs generalizing p with
  | nil => rfl
  | cons r rs ih =>
    rw [AllSafe, NoneBad, h.safe_iff]
    exact and_congr_right fun _ => forall₂_congr fun ret p' => forall_congr' fun hr => ih (h.onCustomInstruction hr)

/-- From the empty table on, whatever the host has open already, all requests are safe exactly if none of them opens `..`
below the root, or reads with the size of the table as the descriptor. -/
theorem requests_safe_iff (baseDir : List FileName) (descriptors : Finset Nat) (rs : List Request) :
    AllSafe baseDir ⟨[], descriptors⟩ rs ↔ NoneBad baseDir ⟨[], descriptors⟩ rs :=
  Inv.allSafe_iff ⟨by simp, by simp⟩ rs

/-- Before any file is open, descriptor 0 is looked up in the empty table. -/
theorem readFile_empty_table : onCustomInstruction [] ⟨[], ∅⟩ (.readFile (some (0, 16)) 0) = .error .outOfBounds := by
  rfl

end HostFiles

end S2E.Plugins
