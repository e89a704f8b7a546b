import Mathlib.Logic.Function.Basic
import Mathlib.Tactic

/-!
# `WindowsImage::InitExports`

The exported functions of a 32-bit image. The format has three tables: the entry `k` of the names table goes with the entry
`k` of the table of ordinals, which selects an entry of the table of functions. The code reads `NumberOfFunctions` names
and takes the function at the index of the name.

* `Image` : what the reads of guest memory return; `ExportDirectory` : the fields of the directory that matter here;
* `initExports` : the return code and `m_Exports`, `none` where it reads behind its copies of the tables;
* `Exported` : what the format says, `OrdinalsAreIndices` : when the code does the same.
-/

namespace S2E.Plugins.WindowsImage
open Function List Option

abbrev Byte := BitVec 8

structure Image where
  base : BitVec 64
  imageSize : BitVec 32
  /-- `readMemoryConcrete` of an entry of a table, of four and of two bytes. -/
  word : BitVec 64 → Option (BitVec 32)
  half : BitVec 64 → Option (BitVec 16)
  /-- What `readString` leaves in the string. -/
  string : BitVec 64 → List Byte

structure ExportDirectory where
  numberOfFunctions : BitVec 32
  numberOfNames : BitVec 32
  addressOfFunctions : BitVec 32
  addressOfNames : BitVec 32
  addressOfNameOrdinals : BitVec 32

abbrev Exports := List Byte → Option (BitVec 64)

/-- A `char` from `0x80` on is negative. -/
def isValidString (s : List Byte) : Bool := s.all fun c => 0x20 < c.toNat ∧ c.toNat < 0x80

namespace Image

variable (img : Image)

def address (rva : BitVec 32) (offset : Nat) : BitVec 64 := img.base + rva.setWidth 64 + BitVec.ofNat 64 offset

/-- Entry `i` of a table of words. -/
def entry (rva : BitVec 32) (i : Nat) : Option (BitVec 32) := img.word (img.address rva (4 * i))

def table (rva : BitVec 32) (n : Nat) : Option (List (BitVec 32)) :=
  (range n).mapM (img.entry rva)

/-- The name at an entry of the names table, unless the loop goes on without it. -/
def functionName (rva : BitVec 32) : Option (List Byte) :=
  let effAddr : BitVec 32 := (rva.setWidth 64 + img.base).setWidth 32
  if effAddr.setWidth 64 < img.base ∨ img.base + img.imageSize.setWidth 64 ≤ effAddr.setWidth 64 then none
  else
    let name := img.string (img.address rva 0)
    if isValidString name then some name else none

/-- A turn of the loop, with `Names[i]` and `FcnPtrs[i]`. -/
def addExport (exports : Exports) (entry : BitVec 32 × BitVec 32) : Exports :=
  match img.functionName entry.1 with
  | none => exports
  | some name => update exports name (some (entry.2.setWidth 64 + img.base))

def initExports (dir : ExportDirectory) : Option (Int × Exports) :=
  let n := dir.numberOfFunctions.toNat
  -- `TblSz` has 32 bits
  if 2 ^ 32 ≤ 4 * n then none
  else
    match img.table dir.addressOfNames n with
    | none => some (-6, fun _ => none)
    | some names =>
      match img.table dir.addressOfFunctions n with
      | none => some (-7, fun _ => none)
      | some fcnPtrs => some (0, (names.zip fcnPtrs).foldl img.addExport fun _ => none)

/-! ## The format -/

section

variable (dir : ExportDirectory) (k : Nat)

/-- The name at index `k` of the names table. -/
def name : Option (List Byte) := (img.entry dir.addressOfNames k).bind img.functionName

/-- The entry at index `k` of the table of functions. -/
def function : Option (BitVec 32) := img.entry dir.addressOfFunctions k

/-- The entry of the table of functions that the ordinal of the name at index `k` selects. -/
def selected : Option (BitVec 32) :=
  (img.half (img.address dir.addressOfNameOrdinals (2 * k))).bind fun ordinal => img.function dir ordinal.toNat

/-- A name of the directory, with the address of its function. -/
def Exported (name : List Byte) (function : BitVec 64) : Prop :=
  ∃ k < dir.numberOfNames.toNat, img.name dir k = some name ∧
    ∃ entry, img.selected dir k = some entry ∧ function = entry.setWidth 64 + img.base

/-- What the format says: the names are different, their ordinals select functions, and the table of functions is in
memory. -/
structure WellFormed : Prop where
  names : ∀ k < dir.numberOfNames.toNat, ∀ k' < dir.numberOfNames.toNat, (img.name dir k).isSome →
    img.name dir k = img.name dir k' → k = k'
  ordinals : ∀ k < dir.numberOfNames.toNat, (img.name dir k).isSome → (img.selected dir k).isSome
  functions : ∀ i < dir.numberOfFunctions.toNat, (img.function dir i).isSome
  size : 4 * dir.numberOfFunctions.toNat < 2 ^ 32

end

/-- The exports are those of the directory. -/
def Right (dir : ExportDirectory) : Prop :=
  ∃ res exports, img.initExports dir = some (res, exports) ∧
    ∀ name function, exports name = some function ↔ img.Exported dir name function

/-- The entry at index `k` of the names table is the last one below `NumberOfFunctions` with its name. -/
def Last (dir : ExportDirectory) (k : Nat) : Prop :=
  ∀ i, k < i → i < dir.numberOfFunctions.toNat → img.name dir i ≠ img.name dir k

/-- The ordinals do nothing: each name stands below `NumberOfFunctions` and its ordinal selects the entry at its own index.
The names table is in memory to that end; an entry behind it that reads as a name is one of the names, with its function. -/
structure OrdinalsAreIndices (dir : ExportDirectory) : Prop where
  inside : ∀ k < dir.numberOfNames.toNat, (img.name dir k).isSome → k < dir.numberOfFunctions.toNat ∧
    (∀ i < dir.numberOfFunctions.toNat, (img.entry dir.addressOfNames i).isSome) ∧
    (img.Last dir k → img.selected dir k = img.function dir k)
  behind : (∀ i < dir.numberOfFunctions.toNat, (img.entry dir.addressOfNames i).isSome) →
    ∀ i, dir.numberOfNames.toNat ≤ i → i < dir.numberOfFunctions.toNat → (img.name dir i).isSome → img.Last dir i →
      ∃ k < dir.numberOfNames.toNat, img.name dir k = img.name dir i ∧ img.selected dir k = img.function dir i

/-! ## The loop -/

/-- The function stored for a name is that of the last entry for it. -/
theorem foldl_addExport (rvas fcns : Nat → BitVec 32) (n : Nat) (name : List Byte) (function : BitVec 64) :
    ((range n).map fun i => (rvas i, fcns i)).foldl img.addExport (fun _ => none) name = some function ↔
      ∃ k < n, img.functionName (rvas k) = some name ∧
        (∀ i, k < i → i < n → img.functionName (rvas i) ≠ some name) ∧ function = (fcns k).setWidth 64 + img.base := by
  induction n with
  | zero => simp
  | succ n ih =>
    rw [range_succ, map_append, foldl_append, map_singleton, foldl_cons, foldl_nil]
    by_cases h : img.functionName (rvas n) = some name
    · have stored (exports : Exports) : img.addExport exports (rvas n, fcns n) name =
          some ((fcns n).setWidth 64 + img.base) := by
        simp [addExport, h]
      rw [stored]
      constructor
      · rintro ⟨⟩
        exact ⟨n, Nat.lt_succ_self n, h, by omega, rfl⟩
      · rintro ⟨k, hk, -, hlater, rfl⟩
        obtain rfl : k = n := by
          by_contra hkn
          exact hlater n (by omega) (Nat.lt_succ_self n) h
        rfl
    · have kept (exports : Exports) : img.addExport exports (rvas n, fcns n) name = exports name := by
        unfold addExport
        cases hother : img.functionName (rvas n) with
        | none => rfl
        | some other => exact update_of_ne (fun he => h (by rw [hother, he])) _ _
      rw [kept, ih]
      grind

theorem mapM_eq (f : Nat → Option (BitVec 32)) (l : List Nat) :
    l.mapM f = if ∀ i ∈ l, (f i).isSome then some (l.map fun i => (f i).getD 0) else none := by
  induction l with
  | nil => rfl
  | cons a l ih =>
    rw [mapM_cons, ih]
    cases hf : f a with
    | none => simp [hf]
    | some word =>
      simp only [forall_mem_cons, hf, isSome_some, true_and]
      split <;> simp [hf]

theorem table_eq (rva : BitVec 32) (n : Nat) :
    img.table rva n = if ∀ i < n, (img.entry rva i).isSome then
      some ((range n).map fun i => (img.entry rva i).getD 0) else none := by
  simp only [table, mapM_eq, mem_range]

/-- What `InitExports` stores. -/
theorem initExports_spec {dir : ExportDirectory} (wf : img.WellFormed dir) :
    ∃ res exports, img.initExports dir = some (res, exports) ∧ ∀ name function, exports name = some function ↔
      (∀ i < dir.numberOfFunctions.toNat, (img.entry dir.addressOfNames i).isSome) ∧
        ∃ k < dir.numberOfFunctions.toNat, img.name dir k = some name ∧ img.Last dir k ∧
          ∃ entry, img.function dir k = some entry ∧ function = entry.setWidth 64 + img.base := by
  have functions := wf.functions
  unfold Image.function at functions
  unfold initExports
  rw [if_neg (Nat.not_le.2 wf.size), img.table_eq dir.addressOfFunctions, if_pos functions, table_eq]
  by_cases readable : ∀ i < dir.numberOfFunctions.toNat, (img.entry dir.addressOfNames i).isSome
  · rw [if_pos readable]
    refine ⟨0, _, rfl, fun name function => ?_⟩
    have named {k : Nat} (hk : k < dir.numberOfFunctions.toNat) :
        img.functionName ((img.entry dir.addressOfNames k).getD 0) = img.name dir k := by
      obtain ⟨rva, hrva⟩ := isSome_iff_exists.1 (readable k hk)
      rw [Image.name, hrva]
      rfl
    rw [zip_map', foldl_addExport]
    constructor
    · rintro ⟨k, hk, hname, hlater, rfl⟩
      obtain ⟨word, hword⟩ := isSome_iff_exists.1 (functions k hk)
      refine ⟨readable, k, hk, (named hk).symm.trans hname, fun i hi hn => ?_, word, hword, by rw [hword]; rfl⟩
      rw [← named hn, ← named hk, hname]
      exact hlater i hi hn
    · rintro ⟨-, k, hk, hname, hlast, word, hword, rfl⟩
      refine ⟨k, hk, (named hk).trans hname, fun i hi hn => ?_, by rw [show img.entry _ k = _ from hword]; rfl⟩
      rw [named hn, ← hname]
      exact hlast i hi hn
  · rw [if_neg readable]
    exact ⟨-6, _, rfl, fun _ _ => iff_of_false nofun fun h => readable h.1⟩

theorem exists_last {dir : ExportDirectory} {k : Nat} (hk : k < dir.numberOfFunctions.toNat) :
    ∃ i < dir.numberOfFunctions.toNat, img.name dir i = img.name dir k ∧ img.Last dir i := by
  by_cases h : img.Last dir k
  · exact ⟨k, hk, rfl, h⟩
  · unfold Last at h
    push Not at h
    obtain ⟨j, hkj, hj, hsame⟩ := h
    obtain ⟨i, hi, hname, hlast⟩ := exists_last hj
    exact ⟨i, hi, hname.trans hsame, hlast⟩
termination_by dir.numberOfFunctions.toNat - k

/-- The exports of a well-formed directory are right exactly if its ordinals do nothing. -/
theorem initExports_right_iff (dir : ExportDirectory) (wf : img.WellFormed dir) :
    img.Right dir ↔ img.OrdinalsAreIndices dir := by
  obtain ⟨res, exports, done, stored⟩ := img.initExports_spec wf
  have hright : img.Right dir ↔ ∀ name function, exports name = some function ↔ img.Exported dir name function := by
    unfold Right
    rw [done]
    constructor
    · rintro ⟨_, _, ⟨⟩, h⟩
      exact h
    · exact fun h => ⟨res, exports, rfl, h⟩
  have offset {a b : BitVec 32} (h : a.setWidth 64 + img.base = b.setWidth 64 + img.base) : a = b := by bv_omega
  rw [hright]
  constructor
  · intro right
    constructor
    · intro k hk named
      obtain ⟨name, hname⟩ := isSome_iff_exists.1 named
      obtain ⟨word, hword⟩ := isSome_iff_exists.1 (wf.ordinals k hk named)
      obtain ⟨readable, i, hi, hi', hlast, word', hword', hsame⟩ :=
        (stored name _).1 ((right name _).2 ⟨k, hk, hname, word, hword, rfl⟩)
      -- the name is stored at its own index, or behind the table
      have hik : i = k ∨ dir.numberOfNames.toNat ≤ i := by
        by_contra! h
        exact h.1 (wf.names i h.2 k hk (by rw [hi']; rfl) (hi'.trans hname.symm))
      refine ⟨by omega, readable, fun hk' => ?_⟩
      obtain rfl | hlt := eq_or_lt_of_le (Nat.le_of_not_lt fun h => hk' i h hi (hi'.trans hname.symm))
      · rw [hword, hword', offset hsame]
      · exact absurd (hname.trans hi'.symm) (hlast k hlt (by omega))
    · intro readable i hi hlt named hlast
      obtain ⟨name, hname⟩ := isSome_iff_exists.1 named
      obtain ⟨word, hword⟩ := isSome_iff_exists.1 (wf.functions i hlt)
      obtain ⟨k, hk, hname', word', hword', hsame⟩ :=
        (right name _).1 ((stored name _).2 ⟨readable, i, hlt, hname, hlast, word, hword, rfl⟩)
      exact ⟨k, hk, hname'.trans hname.symm, by rw [hword', hword, offset hsame]⟩
  · intro h name function
    rw [stored]
    constructor
    · rintro ⟨readable, i, hi, hname, hlast, word, hword, rfl⟩
      by_cases hin : i < dir.numberOfNames.toNat
      · have := (h.inside i hin (by rw [hname]; rfl)).2.2 hlast
        exact ⟨i, hin, hname, word, this.trans hword, rfl⟩
      · obtain ⟨k, hk, hname', hword'⟩ := h.behind readable i (by omega) hi (by rw [hname]; rfl) hlast
        exact ⟨k, hk, hname'.trans hname, word, hword'.trans hword, rfl⟩
    · rintro ⟨k, hk, hname, word, hword, rfl⟩
      obtain ⟨hlt, readable, hsame⟩ := h.inside k hk (by rw [hname]; rfl)
      obtain ⟨i, hi, hname', hlast⟩ := img.exists_last hlt
      have hword' : img.selected dir k = img.function dir i := by
        by_cases hin : i < dir.numberOfNames.toNat
        · obtain rfl := wf.names k hk i hin (by rw [hname]; rfl) hname'.symm
          exact hsame hlast
        · obtain ⟨k', hk', hname'', hword'⟩ := h.behind readable i (by omega) hi (by rw [hname', hname]; rfl) hlast
          obtain rfl := wf.names k hk k' hk' (by rw [hname]; rfl) (hname''.trans hname').symm
          exact hword'
      exact ⟨readable, i, hi, hname'.trans hname, hlast, word, hword'.symm.trans hword, rfl⟩

end Image

/-- Two functions at `16` and `24`, and the names `a` and `b`, with their ordinals. -/
def twoNames (ordinals : List (BitVec 16)) : Image where
  base := 0
  imageSize := 64
  word a := [16, 24, 32, 40][a.toNat / 4]?
  half a := ordinals[(a.toNat - 16) / 2]?
  string a := if a = 32 then [0x61] else [0x62]

theorem initExports_right_iff_twoNames : (twoNames [0, 1]).Right ⟨2, 2, 0, 8, 16⟩ := by
  refine ((twoNames [0, 1]).initExports_right_iff ⟨2, 2, 0, 8, 16⟩ ⟨?_, ?_, ?_, ?_⟩).2 ⟨?_, ?_⟩
  · decide
  · decide
  · decide
  · decide
  · have same : ∀ k < 2, (twoNames [0, 1]).selected ⟨2, 2, 0, 8, 16⟩ k = (twoNames [0, 1]).function ⟨2, 2, 0, 8, 16⟩ k := by
      decide
    exact fun k hk _ => ⟨hk, by decide, fun _ => same k hk⟩
  · exact fun _ i h h' => absurd h (Nat.not_le.2 h')

/-- The name `a` is that of the function at `24`, and goes with the one at `16`. -/
theorem swapped_wrong : ¬ (twoNames [1, 0]).Right ⟨2, 2, 0, 8, 16⟩ := by
  rintro ⟨res, exports, done, right⟩
  have exported : (twoNames [1, 0]).Exported ⟨2, 2, 0, 8, 16⟩ [0x61] 24 := ⟨0, by decide, by decide, 24, by decide⟩
  have found := (right [0x61] 24).2 exported
  cases done
  exact absurd found (by decide)

end S2E.Plugins.WindowsImage
