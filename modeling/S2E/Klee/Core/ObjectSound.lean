import S2E.Klee.Core.ObjectState
import S2E.Klee.Expr.Denotes
import S2E.Klee.Expr.Folded
import S2E.Lib.FlatMemory
import S2E.Lib.Triple

/-!
# An object is a flat array of bytes

Under an assignment every byte of an object has one value, wherever it is kept.

* `Updates.eval_eq_latest`, `latest_pullConcreteWrites` : the update list, and the constant array that is made from its
  oldest writes;
* `Sync σ n m o` : the object `o` stands for the first `n` bytes of the flat array `m`. The fields are the cache invariants
  of `Memory.cpp`, with the values;
* `Sync.flushRangeForRead`, `Sync.read8At`, ..., `Sync.access` : every routine keeps the object in step with the array;
* `readWith_returns`, `writeWith_keeps` : the loops over the bytes, for any invariant of the accesses to one byte.
-/

namespace S2E.Klee

open S2E.Lib Function FlatMemory List Option
open List (range)
open Nat (succ_pos)
open BitVec (ofNat ofNat_toNat setWidth_eq)

/-! ## The update list -/

/-- The byte at the index `i` after the writes, `b` being the one before them. -/
def latest (σ : Assignment) (i : BitVec 32) (b : BitVec 8) (writes : List (Expr × Expr)) : BitVec 8 :=
  writes.foldl (fun b w => if i = w.1.eval σ 32 then w.2.eval σ 8 else b) b

theorem Updates.eval_eq_latest (σ : Assignment) (root : Array) (i : BitVec 32) (u : Updates) :
    u.eval σ root i = latest σ i (σ.initial root i.toNat) u.oldestFirst := by
  cases u with
  | nil => simp only [eval, oldestFirst, latest, foldl_nil]
  | cons index value next =>
    simp only [eval, oldestFirst, latest, foldl_append, foldl_cons, foldl_nil]
    rw [eval_eq_latest σ root i next, latest]

theorem Updates.oldestFirst_extendAll (writes : List (Expr × Expr)) :
    ∀ u : Updates, (u.extendAll writes).oldestFirst = u.oldestFirst ++ writes := by
  induction writes with
  | nil => intro u; simp [extendAll]
  | cons w writes ih =>
    intro u
    show ((Updates.cons w.1 w.2 u).extendAll writes).oldestFirst = _
    rw [ih, oldestFirst, append_assoc]
    rfl

/-- A write as `UpdateNode` takes it. -/
def WriteOk (P : NodeCond) (w : Expr × Expr) : Prop :=
  w.1.Ok P ∧ w.2.Ok P ∧ w.1.getWidth = 32 ∧ w.2.getWidth = 8

theorem Updates.ok_iff {P : NodeCond} (u : Updates) : u.Ok P ↔ ∀ w ∈ u.oldestFirst, WriteOk P w := by
  cases u with
  | nil => simp [Updates.Ok, oldestFirst]
  | cons index value next =>
    simp only [Updates.Ok, oldestFirst, ok_iff next, mem_append, mem_singleton]
    constructor
    · rintro ⟨hi, hv, hiw, hvw, hn⟩ w (hw | rfl)
      · exact hn w hw
      · exact ⟨hi, hv, hiw, hvw⟩
    · intro h
      obtain ⟨hi, hv, hiw, hvw⟩ := h _ (.inr rfl)
      exact ⟨hi, hv, hiw, hvw, fun w hw => h w (.inl hw)⟩

variable {i off w n : Nat} {e offset value : Expr} {σ : Assignment} {S : ObjectState → Prop} {v : BitVec w}
  {P : NodeCond} {m' : FlatMemory} {readByte : ObjectState → Nat → Except Trap (Expr × ObjectState)}

namespace ObjectState

theorem pullConcreteWrites_suffix (writes : List (Expr × Expr)) (contents : List (BitVec 8)) :
    (pullConcreteWrites writes contents).2 <:+ writes := by
  fun_induction pullConcreteWrites writes contents with
  | case1 index value writes contents ih => exact ih.trans (suffix_cons _ _)
  | case2 writes contents => exact suffix_rfl

/-- The concrete writes that go into the contents of the array have the same effect there. -/
theorem latest_pullConcreteWrites (σ : Assignment) (i : BitVec 32) (writes : List (Expr × Expr))
    (contents : List (BitVec 8)) (hw : ∀ w ∈ writes, WriteOk P w) (hi : i.toNat < contents.length) :
    latest σ i ((pullConcreteWrites writes contents).1.getD i.toNat 0) (pullConcreteWrites writes contents).2 =
      latest σ i (contents.getD i.toNat 0) writes := by
  fun_induction pullConcreteWrites writes contents with
  | case1 index value writes contents ih =>
    obtain ⟨w, x⟩ := index
    obtain ⟨-, -, hiw, -⟩ := hw _ mem_cons_self
    obtain rfl : w = 32 := hiw
    rw [ih (fun w h => hw w (mem_cons_of_mem _ h)) (by rwa [length_set])]
    simp only [latest, foldl_cons, Expr.eval, APInt.getZExtValue, setWidth_eq]
    congr 1
    by_cases h : i = x
    · grind
    · have hn : x.toNat ≠ i.toNat := fun hx => h (BitVec.eq_of_toNat_eq hx.symm)
      rw [if_neg h]
      simp [getD_eq_getElem?_getD, getElem?_set_ne hn]
  | case2 writes contents => rfl

/-! ## The masks -/

section Masks

variable {o : ObjectState} {i j : Nat}

@[simp] theorem isByteConcrete_markByteConcrete :
    (o.markByteConcrete i).isByteConcrete j = if j = i then true else o.isByteConcrete j := by
  unfold isByteConcrete markByteConcrete
  cases o.concreteMask with
  | none => simp
  | some m => exact update_apply m i true j

@[simp] theorem isByteConcrete_markByteSymbolic :
    (o.markByteSymbolic i).isByteConcrete j = if j = i then false else o.isByteConcrete j := by
  unfold isByteConcrete markByteSymbolic
  cases o.concreteMask with
  | none => exact update_apply _ i false j
  | some m => exact update_apply m i false j

@[simp] theorem isByteFlushed_markByteUnflushed :
    (o.markByteUnflushed i).isByteFlushed j = if j = i then false else o.isByteFlushed j := by
  unfold isByteFlushed markByteUnflushed
  cases o.flushMask with
  | none => simp
  | some m => grind

theorem isByteFlushed_markByteFlushed (h : o.flushMask.isSome) :
    (o.markByteFlushed i).isByteFlushed j = if j = i then true else o.isByteFlushed j := by
  obtain ⟨m, hm⟩ := isSome_iff_exists.1 h
  simp only [isByteFlushed, markByteFlushed, hm, elim_some, update_apply]
  split <;> rfl

@[simp] theorem isByteFlushed_makeFlushMask : o.makeFlushMask.isByteFlushed j = o.isByteFlushed j := by
  unfold isByteFlushed makeFlushMask
  cases o.flushMask <;> rfl

@[simp] theorem knownSymbolic_setKnownSymbolic {value : Option Expr} :
    (o.setKnownSymbolic i value).knownSymbolic j = if j = i then value else o.knownSymbolic j := by
  unfold knownSymbolic setKnownSymbolic
  cases o.knownSymbolics with
  | some known => exact update_apply known i value j
  | none =>
    cases value with
    | none => simp
    | some e => exact update_apply (fun _ => none) i (some e) j

end Masks

/-! ## The invariant -/

variable (σ : Assignment)

/-- The byte that the update list holds. The lazily made constant array is zero before the writes. -/
def updated (o : ObjectState) (i : Nat) : BitVec 8 :=
  latest σ (BitVec.ofNat 32 i) (o.root.elim 0 (σ.initial · i)) o.head.oldestFirst

theorem updated_extend (o : ObjectState) (index value : Expr) (i : Nat) : (o.extend index value).updated σ i =
    if ofNat 32 i = index.eval σ 32 then value.eval σ 8 else o.updated σ i := by
  simp only [updated, extend, Updates.oldestFirst, latest, foldl_append, foldl_cons, foldl_nil]

/-- An offset of an object as an index of its updates. -/
theorem toNat_index (hi : i < 2 ^ 32) : (ofNat 32 i).toNat = i := by
  rw [BitVec.toNat_ofNat, Nat.mod_eq_of_lt hi]

theorem index_inj {j : Nat} (hi : i < 2 ^ 32) (hj : j < 2 ^ 32) : ofNat 32 j = ofNat 32 i ↔ j = i := by
  rw [← BitVec.toNat_inj, toNat_index hi, toNat_index hj]

variable [Options]

/-- The byte at `i` is `b`, wherever it is kept. -/
structure ByteSync (o : ObjectState) (i : Nat) (b : BitVec 8) : Prop where
  exclusive : o.isByteConcrete i = true → o.knownSymbolic i = none
  cached : ∀ e, o.cached i = some e → e.Denotes σ b
  flushed : o.isByteFlushed i = true → o.updated σ i = b
  unflushed : o.isByteFlushed i = false → o.cached i ≠ none

/-- The object has `n` bytes, those of `m`. -/
structure Sync (n : Nat) (m : FlatMemory) (o : ObjectState) : Prop where
  size : o.size = n
  byte : ∀ i < n, ByteSync σ o i (m i)
  head : o.head.InBounds σ
  root : ∀ r, o.root = some r → r.size = n

variable {σ} {n : Nat} {m : FlatMemory} {o o' : ObjectState} {i j : Nat} {b : BitVec 8}

theorem Sync.congr (h : Sync σ n m o) (hm : ∀ i < n, m i = m' i) : Sync σ n m' o :=
  ⟨h.size, fun i hi => hm i hi ▸ h.byte i hi, h.head, h.root⟩

theorem Sync.lt (h : Sync σ n m o) (hi : i < n) : i < 2 ^ 32 := hi.trans (h.size ▸ o.size_lt)

omit [Options] in
theorem cached_congr (hc : o'.isByteConcrete j = o.isByteConcrete j) (hk : o'.knownSymbolic j = o.knownSymbolic j)
    (hs : o'.concreteStore j = o.concreteStore j) : o'.cached j = o.cached j := by
  unfold cached
  rw [hc, hk, hs]

theorem ByteSync.congr (h : ByteSync σ o j b) (hc : o'.isByteConcrete j = o.isByteConcrete j)
    (hk : o'.knownSymbolic j = o.knownSymbolic j) (hs : o'.concreteStore j = o.concreteStore j)
    (hf : o'.isByteFlushed j = o.isByteFlushed j) (hu : o'.updated σ j = o.updated σ j) : ByteSync σ o' j b where
  exclusive := by rw [hc, hk]; exact h.exclusive
  cached := by rw [cached_congr hc hk hs]; exact h.cached
  flushed := by rw [hf, hu]; exact h.flushed
  unflushed := by rw [hf, cached_congr hc hk hs]; exact h.unflushed

/-- A byte that is at hand goes to the update list. -/
theorem Sync.flush (h : Sync σ n m o) (hm : o.flushMask.isSome) (hi : i < n) (he : o.cached i = some e) :
    Sync σ n m ((o.extend (.const i 32) e).markByteFlushed i) := by
  have hd := (h.byte i hi).cached e he
  have hfl : ∀ j, ((o.extend (.const i 32) e).markByteFlushed i).isByteFlushed j =
      if j = i then true else o.isByteFlushed j := fun j => isByteFlushed_markByteFlushed hm
  have hup : ∀ j < n, ((o.extend (.const i 32) e).markByteFlushed i).updated σ j =
      if j = i then m i else o.updated σ j := by
    intro j hj
    refine (updated_extend σ o _ e j).trans ?_
    simp only [Expr.eval, APInt.ofNat, setWidth_eq, index_inj (h.lt hi) (h.lt hj), hd.eval]
  refine ⟨h.size, fun j hj => ?_, ⟨succ_pos 31, hd.inBounds, rfl, hd.width, h.head⟩, h.root⟩
  by_cases hji : j = i
  · subst hji
    refine ⟨(h.byte j hj).exclusive, (h.byte j hj).cached, fun _ => ?_, fun hf => ?_⟩
    · rw [hup j hj, if_pos rfl]
    · grind
  · refine (h.byte j hj).congr rfl rfl rfl ?_ ?_
    · rw [hfl, if_neg hji]
    · rw [hup j hj, if_neg hji]

section DropCached

omit [Options]

theorem isByteConcrete_dropCached :
    (o.dropCached i).isByteConcrete j = if j = i then false else o.isByteConcrete j := by
  unfold dropCached
  split
  · exact isByteConcrete_markByteSymbolic
  · rename_i hc
    have : o.isByteConcrete j = if j = i then false else o.isByteConcrete j := by
      split
      · grind
      · rfl
    split
    · exact this
    · exact this

theorem knownSymbolic_dropCached (h : o.isByteConcrete i = true → o.knownSymbolic i = none) :
    (o.dropCached i).knownSymbolic j = if j = i then none else o.knownSymbolic j := by
  unfold dropCached
  split
  · rename_i hc
    show o.knownSymbolic j = _
    split
    · grind
    · rfl
  · split
    · exact knownSymbolic_setKnownSymbolic
    · rename_i hk
      split
      · rename_i hji
        rw [hji]
        exact not_isSome_iff_eq_none.1 hk
      · rfl

/-- The other fields are not touched. -/
theorem dropCached_fields : (o.dropCached i).size = o.size ∧ (o.dropCached i).head = o.head ∧
    (o.dropCached i).root = o.root ∧ (o.dropCached i).concreteStore = o.concreteStore ∧
    (o.dropCached i).flushMask = o.flushMask := by
  unfold dropCached
  split
  · exact ⟨rfl, rfl, rfl, rfl, rfl⟩
  · split
    · exact ⟨rfl, rfl, rfl, rfl, rfl⟩
    · exact ⟨rfl, rfl, rfl, rfl, rfl⟩

theorem cached_dropCached (h : o.isByteConcrete i = true → o.knownSymbolic i = none) :
    (o.dropCached i).cached j = if j = i then none else o.cached j := by
  obtain ⟨-, -, -, hs, -⟩ := dropCached_fields (o := o) (i := i)
  unfold cached
  rw [isByteConcrete_dropCached, knownSymbolic_dropCached h, hs]
  by_cases hji : j = i
  · simp [hji]
  · simp [hji]

theorem dropCached_markByteFlushed : (o.dropCached i).markByteFlushed j = (o.markByteFlushed j).dropCached i := by
  have hc : (o.markByteFlushed j).isByteConcrete i = o.isByteConcrete i := rfl
  have hk : (o.markByteFlushed j).isByteKnownSymbolic i = o.isByteKnownSymbolic i := rfl
  unfold dropCached
  rw [hc, hk]
  split
  · rfl
  · split
    · rfl
    · rfl

theorem flushForWrite_eq : o.flushForWrite i = (o.flushForRead i).map (dropCached · i) := by
  unfold flushForWrite flushForRead
  split
  · rfl
  · cases o.cached i with
    | none => rfl
    | some e => exact congrArg Except.ok dropCached_markByteFlushed

end DropCached

theorem Sync.dropCached (h : Sync σ n m o) (hi : i < n) (hf : o.isByteFlushed i = true) :
    Sync σ n m (o.dropCached i) := by
  obtain ⟨hsize, hhead, hroot, hstore, hmask⟩ := dropCached_fields (o := o) (i := i)
  have hex := (h.byte i hi).exclusive
  have hfl : ∀ j, (o.dropCached i).isByteFlushed j = o.isByteFlushed j := fun j => by
    unfold isByteFlushed
    rw [hmask]
  have hup : ∀ j, (o.dropCached i).updated σ j = o.updated σ j := fun j => by
    unfold updated
    rw [hroot, hhead]
  refine ⟨hsize.trans h.size, fun j hj => ?_, hhead ▸ h.head, fun r hr => h.root r (hroot ▸ hr)⟩
  by_cases hji : j = i
  · subst hji
    refine ⟨fun _ => ?_, fun e he => ?_, fun _ => ?_, fun hff => ?_⟩
    · rw [knownSymbolic_dropCached hex, if_pos rfl]
    · rw [cached_dropCached hex, if_pos rfl] at he
      cases he
    · rw [hup]
      exact (h.byte j hj).flushed hf
    · grind
  · refine (h.byte j hj).congr ?_ ?_ (by rw [hstore]) (hfl j) (hup j)
    · rw [isByteConcrete_dropCached, if_neg hji]
    · rw [knownSymbolic_dropCached hex, if_neg hji]

/-! ## The flush loops -/

/-- What a step of a flush loop finds and leaves. -/
structure Flushing (σ : Assignment) (n : Nat) (m : FlatMemory) (o : ObjectState) : Prop extends Sync σ n m o where
  mask : o.flushMask.isSome

theorem Flushing.flushForRead (h : Flushing σ n m o) (hi : i < n) : ∃ o', o.flushForRead i = .ok o' ∧
    Flushing σ n m o' ∧ o'.isByteFlushed i = true ∧ (∀ j, o.isByteFlushed j = true → o'.isByteFlushed j = true) ∧
    ∀ j, o'.cached j = o.cached j := by
  unfold ObjectState.flushForRead
  by_cases hf : o.isByteFlushed i = true
  · grind
  · rw [if_neg hf]
    obtain ⟨e, he⟩ := ne_none_iff_exists'.1 ((h.byte i hi).unflushed (Bool.eq_false_iff.2 hf))
    have hmark : ∀ j, ((o.extend (.const i 32) e).markByteFlushed i).isByteFlushed j =
        if j = i then true else o.isByteFlushed j := fun j => isByteFlushed_markByteFlushed h.mask
    rw [he]
    refine ⟨_, rfl, ⟨h.flush h.mask hi he, rfl⟩, ?_, fun j hj => ?_, fun j => rfl⟩
    · rw [hmark, if_pos rfl]
    · rw [hmark, hj, ite_self]

theorem Flushing.flushForWrite (h : Flushing σ n m o) (hi : i < n) : ∃ o', o.flushForWrite i = .ok o' ∧
    Flushing σ n m o' ∧ o'.cached i = none ∧ ∀ j, o.cached j = none → o'.cached j = none := by
  obtain ⟨o', ho', hfl, hif, -, hca⟩ := h.flushForRead hi
  have hex := (hfl.byte i hi).exclusive
  obtain ⟨-, -, -, -, hmask⟩ := dropCached_fields (o := o') (i := i)
  refine ⟨o'.dropCached i, ?_, ⟨hfl.dropCached hi hif, ?_⟩, ?_, fun j hj => ?_⟩
  · rw [flushForWrite_eq, ho']
    rfl
  · rw [hmask]
    exact hfl.mask
  · rw [cached_dropCached hex, if_pos rfl]
  · rw [cached_dropCached hex, hca, hj, ite_self]

/-- A loop over the first bytes, each step of which establishes `R` at its byte and keeps it elsewhere. -/
theorem Flushing.foldlM {step : ObjectState → Nat → Except Trap ObjectState} {R : ObjectState → Nat → Prop}
    (hstep : ∀ (o : ObjectState) (i : Nat), Flushing σ n m o → i < n → ∃ o', step o i = .ok o' ∧
      Flushing σ n m o' ∧ R o' i ∧ ∀ j, R o j → R o' j) (h : Flushing σ n m o) (k : Nat) (hk : k ≤ n) :
    ∃ o', (range k).foldlM step o = .ok o' ∧ Flushing σ n m o' ∧ ∀ j < k, R o' j := by
  induction k with
  | zero => exact ⟨o, rfl, h, fun j hj => by omega⟩
  | succ k ih =>
    obtain ⟨o₁, h₁, hf₁, hR₁⟩ := ih (by omega)
    obtain ⟨o₂, h₂, hf₂, hR, hmono⟩ := hstep o₁ k hf₁ (by omega)
    refine ⟨o₂, foldlM_range_succ h₁ h₂, hf₂, fun j hj => ?_⟩
    by_cases hjk : j = k
    · exact hjk ▸ hR
    · exact hmono j (hR₁ j (by omega))

section

variable (h : Sync σ n m o)

include h

theorem Sync.makeFlushMask : Flushing σ n m o.makeFlushMask where
  size := h.size
  byte i hi := (h.byte i hi).congr rfl rfl rfl isByteFlushed_makeFlushMask rfl
  head := h.head
  root := h.root
  mask := rfl

theorem Sync.flushRangeForRead : ∃ o', o.flushRangeForRead = .ok o' ∧ Sync σ n m o' ∧
    ∀ i < n, o'.isByteFlushed i = true := by
  obtain ⟨o', ho', hs, hf⟩ := Flushing.foldlM (R := fun o i => o.isByteFlushed i = true)
    (fun o i hfl hi => by
      obtain ⟨o', ho', hfl', hfi, hmono, -⟩ := hfl.flushForRead hi
      exact ⟨o', ho', hfl', hfi, hmono⟩) h.makeFlushMask n le_rfl
  refine ⟨o', ?_, hs.toSync, hf⟩
  rw [ObjectState.flushRangeForRead, h.size, ho']

theorem Sync.flushRangeForWrite : ∃ o', o.flushRangeForWrite = .ok o' ∧ Sync σ n m o' ∧
    ∀ i < n, o'.cached i = none := by
  obtain ⟨o', ho', hs, hc⟩ := Flushing.foldlM (R := fun o i => o.cached i = none)
    (fun o i hfl hi => hfl.flushForWrite hi) h.makeFlushMask n le_rfl
  refine ⟨o', ?_, hs.toSync, hc⟩
  rw [ObjectState.flushRangeForWrite, h.size, ho']

/-! ## One byte -/

omit [Options] h in
theorem updated_startUpdates (h : o.head.Ok P) (hr : o.root = none) (hj : j < o.size) :
    o.startUpdates.updated σ j = o.updated σ j := by
  have hj32 : (ofNat 32 j).toNat = j := toNat_index (hj.trans o.size_lt)
  have hpull := latest_pullConcreteWrites σ (ofNat 32 j) o.head.oldestFirst
    (replicate o.size 0) ((Updates.ok_iff o.head).1 h) (by rwa [length_replicate, hj32])
  have hlen : j < (pullConcreteWrites o.head.oldestFirst (replicate o.size 0)).1.length := by
    rwa [length_pullConcreteWrites, length_replicate]
  rw [hj32, getD_eq_getElem?_getD, getElem?_eq_getElem hlen] at hpull
  unfold updated startUpdates
  rw [hr, Updates.oldestFirst_extendAll]
  simp only [elim_some, elim_none, Assignment.initial, constantArray]
  rw [getD_eq_getElem?_getD, getElem?_eq_getElem hlen]
  simpa [getD_eq_getElem?_getD, hj, Updates.oldestFirst] using hpull

theorem Sync.startUpdates (hr : o.root = none) : Sync σ n m o.startUpdates where
  size := h.size
  byte i hi := (h.byte i hi).congr rfl rfl rfl rfl (updated_startUpdates h.head hr (h.size ▸ hi))
  head := by
    refine (Updates.ok_iff _).2 fun w hw => (Updates.ok_iff o.head).1 h.head w ?_
    rw [ObjectState.startUpdates, Updates.oldestFirst_extendAll] at hw
    exact (pullConcreteWrites_suffix _ _).subset hw
  root r hr := by
    cases hr
    exact h.size

/-- `getUpdates` gives a list with a root, without changing what is flushed. -/
theorem Sync.getUpdates : Sync σ n m o.getUpdates.2 ∧ o.getUpdates.2.root = some o.getUpdates.1 ∧
    ∀ i, o.getUpdates.2.isByteFlushed i = o.isByteFlushed i := by
  unfold ObjectState.getUpdates
  cases hr : o.root with
  | some root => exact ⟨h, hr, fun _ => rfl⟩
  | none => exact ⟨h.startUpdates hr, rfl, fun _ => rfl⟩

theorem Sync.readUpdates {index : Expr} (hd : index.Denotes σ (ofNat 32 i))
    (hi : i < n) (hf : o.isByteFlushed i = true) :
    (ReadExpr.create o.getUpdates.1 o.getUpdates.2.head index).Denotes σ (m i) := by
  obtain ⟨hs, hroot, hfl⟩ := h.getUpdates
  have hi32 : (ofNat 32 i).toNat = i := toNat_index (h.lt hi)
  have hlt : (ofNat 32 i).toNat < o.getUpdates.1.size := by rwa [hi32, hs.root _ hroot]
  have hup := (hs.byte i hi).flushed ((hfl i).trans hf)
  rw [updated, hroot, elim_some] at hup
  have hread := ReadExpr.create_denotes hs.head hd hlt
  rwa [Updates.eval_eq_latest, hi32, hup] at hread

/-- A read returns an expression of the value `v`, and the object stands for the array `m`. -/
def Reads (σ : Assignment) (n : Nat) (m : FlatMemory) {w : Nat} (v : BitVec w) (r : Except Trap (Expr × ObjectState)) :
    Prop :=
  ∃ e o, r = .ok (e, o) ∧ e.Denotes σ v ∧ Sync σ n m o

theorem Sync.read8At (hi : i < n) : Reads σ n m (m i) (o.read8At i) := by
  unfold ObjectState.read8At
  cases hc : o.cached i with
  | some e => exact ⟨e, o, rfl, (h.byte i hi).cached e hc, h⟩
  | none =>
    have hf : o.isByteFlushed i = true := by
      by_contra hn
      exact (h.byte i hi).unflushed (Bool.eq_false_iff.2 hn) hc
    dsimp only
    rw [if_pos hf]
    exact ⟨_, _, rfl, h.readUpdates (Expr.denotes_const σ _ (succ_pos 31)) hi hf, h.getUpdates.1⟩

theorem Sync.unique (h' : Sync σ n m' o) (hi : i < n) : m i = m' i := by
  obtain ⟨e, o₁, he, hd, -⟩ := h.read8At hi
  obtain ⟨e', o₂, he', hd', -⟩ := h'.read8At hi
  cases he.symm.trans he'
  exact hd.eval.symm.trans hd'.eval

theorem Sync.read8 (hn : offset.isConstant = false)
    (hd : offset.Denotes σ (ofNat 32 i)) (hi : i < n) : Reads σ n m (m i) (o.read8 offset) := by
  obtain ⟨o', ho', hs, hf⟩ := h.flushRangeForRead
  have hd' := ZExtExpr.create_denotes hd (k := 32) (succ_pos 31)
  rw [setWidth_eq] at hd'
  unfold ObjectState.read8
  rw [hn, ho']
  exact ⟨_, _, rfl, hs.readUpdates hd' hi (hf i hi), hs.getUpdates.1⟩

end

/-- A byte whose value is at hand and not in the update list. -/
theorem ByteSync.of_cached (hx : o.isByteConcrete i = true → o.knownSymbolic i = none)
    (hc : o.cached i = some e) (hd : e.Denotes σ b) (hf : o.isByteFlushed i = false) : ByteSync σ o i b where
  exclusive := hx
  cached e' he' := by grind
  flushed hff := by grind
  unflushed _ := by grind

section

variable (h : Sync σ n m o)

include h

/-- A store of one byte: the masks and caches differ at that byte alone, where the new value is at hand. -/
theorem Sync.set (hsize : o'.size = o.size) (hhead : o'.head = o.head) (hroot : o'.root = o.root)
    {c : Bool} {k : Option Expr} {v : BitVec 8}
    (hc : ∀ j, o'.isByteConcrete j = if j = i then c else o.isByteConcrete j)
    (hk : ∀ j, o'.knownSymbolic j = if j = i then k else o.knownSymbolic j)
    (hs : ∀ j, o'.concreteStore j = if j = i then v else o.concreteStore j)
    (hf : ∀ j, o'.isByteFlushed j = if j = i then false else o.isByteFlushed j)
    (hx : c = true → k = none) (he : (if c then some (.const v.toNat 8) else k) = some e) (hd : e.Denotes σ b) :
    Sync σ n (update m i b) o' := by
  refine ⟨hsize.trans h.size, fun j hj => ?_, hhead ▸ h.head, fun r hr => h.root r (hroot ▸ hr)⟩
  by_cases hji : j = i
  · rw [hji, update_self]
    refine .of_cached ?_ ?_ hd ?_
    · rw [hc, hk, if_pos rfl, if_pos rfl]
      exact hx
    · rw [ObjectState.cached, hc, hk, hs, if_pos rfl, if_pos rfl, if_pos rfl]
      exact he
    · rw [hf, if_pos rfl]
  · rw [update_of_ne hji]
    refine (h.byte j hj).congr ((hc j).trans (if_neg hji)) ((hk j).trans (if_neg hji)) ((hs j).trans (if_neg hji))
      ((hf j).trans (if_neg hji)) ?_
    unfold updated
    rw [hroot, hhead]

theorem Sync.writeByte (v : BitVec 8) : Sync σ n (update m i v) (o.writeByte i v) := by
  have hd := Expr.denotes_const σ v.toNat (succ_pos 7)
  rw [ofNat_toNat, setWidth_eq] at hd
  exact h.set rfl rfl rfl (fun _ => isByteConcrete_markByteConcrete) (fun _ => knownSymbolic_setKnownSymbolic)
    (update_apply _ i v) (fun _ => isByteFlushed_markByteUnflushed) (fun _ => rfl) rfl hd

/-- The branch of `write8` for a symbolic value. -/
theorem Sync.writeSymbolic (hd : value.Denotes σ b) : Sync σ n (update m i b)
      (((o.setKnownSymbolic i (some value)).markByteSymbolic i).markByteUnflushed i) := by
  have hs (j : Nat) : o.concreteStore j = if j = i then o.concreteStore i else o.concreteStore j := by
    split
    · rename_i hji
      rw [hji]
    · rfl
  exact h.set rfl rfl rfl (fun _ => isByteConcrete_markByteSymbolic) (fun _ => knownSymbolic_setKnownSymbolic) hs
    (fun _ => isByteFlushed_markByteUnflushed) nofun rfl hd

theorem Sync.write8At (hd : value.Denotes σ b) : Sync σ n (update m i b) (o.write8At i value) := by
  unfold ObjectState.write8At
  split
  · rename_i c
    obtain ⟨w, c⟩ := c
    obtain rfl : w = 8 := hd.width
    have hb : c = b := (Expr.eval_constant c σ).symm.trans hd.eval
    rw [← hb, setWidth_eq]
    exact h.writeByte c
  · exact h.writeSymbolic hd

/-- After the flush every byte is in the update list alone, which is then extended. -/
theorem Sync.write8 (hn : offset.isConstant = false)
    (hd : offset.Denotes σ (ofNat 32 i)) (hi : i < n) (hv : value.Denotes σ b) :
    ∃ o', o.write8 offset value = .ok o' ∧ Sync σ n (update m i b) o' := by
  obtain ⟨o', ho', hs, hc⟩ := h.flushRangeForWrite
  have hd' := ZExtExpr.create_denotes hd (k := 32) (succ_pos 31)
  rw [setWidth_eq] at hd'
  refine ⟨o'.extend (ZExtExpr.create offset 32) value, ?_, hs.size, fun j hj => ?_, ?_, hs.root⟩
  · unfold ObjectState.write8
    rw [hn, ho']
    rfl
  · have hflj : o'.isByteFlushed j = true := by
      by_contra hf
      exact (hs.byte j hj).unflushed (Bool.eq_false_iff.2 hf) (hc j hj)
    refine ⟨(hs.byte j hj).exclusive, fun e he => ?_, fun _ => ?_, fun hf => ?_⟩
    · exact absurd (he.symm.trans (hc j hj)) (some_ne_none e)
    · rw [updated_extend, hd'.eval, hv.eval, update_apply]
      by_cases hji : j = i
      · rw [if_pos hji, hji, if_pos rfl]
      · rw [if_neg hji, if_neg (mt (index_inj (h.lt hi) (h.lt hj)).1 hji)]
        exact (hs.byte j hj).flushed hflj
    · exact absurd (hf.symm.trans hflj) (by decide)
  · exact ⟨hd'.inBounds, hv.inBounds, hd'.width, hv.width, hs.head⟩

end

/-! ## Several bytes

The loops go through the object one byte at a time. What they keep is whatever the accesses to one byte keep: `S` below.
-/

/-- A write returns, and the object stands for the array `m`. -/
def Writes (σ : Assignment) (n : Nat) (m : FlatMemory) (r : Except Trap ObjectState) : Prop :=
  ∃ o, r = .ok o ∧ Sync σ n m o

/-- A read returns an expression of the value `v`, and the object meets `S`. -/
def Returns (σ : Assignment) (S : ObjectState → Prop) {w : Nat} (v : BitVec w) (r : Except Trap (Expr × ObjectState)) :
    Prop :=
  ∃ e o, r = .ok (e, o) ∧ e.Denotes σ v ∧ S o

section Widths

omit [Options]

/-- One bit, or some whole bytes. -/
def ByteWidth (w : Nat) : Prop := w = 1 ∨ 0 < w ∧ w % 8 = 0

theorem ByteWidth.cases (h : ByteWidth w) : w = 1 ∧ getMinBytesForWidth w = 1 ∨
    w ≠ 1 ∧ 0 < numBytes w ∧ w = 8 * numBytes w ∧ getMinBytesForWidth w = numBytes w := by
  unfold numBytes getMinBytesForWidth
  obtain rfl | ⟨hpos, h8⟩ := h
  · exact .inl ⟨rfl, rfl⟩
  · exact .inr (by omega)

theorem ByteWidth.pos (h : ByteWidth w) : 0 < getMinBytesForWidth w := by
  obtain ⟨-, hb⟩ | ⟨-, hpos, -, hb⟩ := h.cases <;> omega

theorem byteWidth_of_mem (h : w ∈ [1, 8, 16, 32, 64]) : ByteWidth w := by
  simp only [mem_cons, not_mem_nil, or_false] at h
  unfold ByteWidth
  omega

theorem getMinBytesForWidth_pos (h : w ∈ [1, 8, 16, 32, 64]) : 0 < getMinBytesForWidth w :=
  (byteWidth_of_mem h).pos

end Widths

section Loops

/-- The bytes read so far make up the low end of the value. -/
theorem readBytes_returns
    {k : Nat} (hb : ∀ o i, S o → i < k → Returns σ S (m (off + i)) (readByte o i)) (h : S o) (hk : 0 < k) :
    ∃ e o', readBytes readByte o k = .ok (some e, o') ∧ e.Denotes σ (ofNat (8 * k) (m.read off k)) ∧ S o' := by
  induction k, hk using Nat.le_induction with
  | base =>
    obtain ⟨e, o', he, hd, hs⟩ := hb o 0 h Nat.one_pos
    refine ⟨e, o', ?_, ?_, hs⟩
    · show (readByte o 0 >>= _) = _
      rw [he]
      rfl
    · rw [read_one, ofNat_toNat]
      exact hd
  | succ k hk ih =>
    obtain ⟨e, o₁, he, hd, hs₁⟩ := ih fun o i ho hi => hb o i ho (by omega)
    obtain ⟨e', o₂, he', hd', hs₂⟩ := hb o₁ k hs₁ (by omega)
    refine ⟨ConcatExpr.create e' e, o₂, ?_, ?_, hs₂⟩
    · simp only [ObjectState.readBytes, he]
      show (readByte o₁ k >>= _) = _
      rw [he']
      rfl
    · have hc := ConcatExpr.create_denotes hd' hd
      rw [append_read, show 8 + 8 * k = 8 * (k + 1) by ring] at hc
      exact hc

theorem readWith_returns {readFirst : Except Trap (Expr × ObjectState)} (hw : ByteWidth w)
    (hb : ∀ o i, S o → i < getMinBytesForWidth w → Returns σ S (m (off + i)) (readByte o i))
    (hf : Returns σ S (m off) readFirst) (h : S o) :
    Returns σ S (ofNat w (m.read off (getMinBytesForWidth w))) (o.readWith readByte readFirst w) := by
  unfold ObjectState.readWith
  obtain ⟨rfl, hbytes⟩ | ⟨hw1, hpos, hw8, hbytes⟩ := hw.cases
  · obtain ⟨e, o', he, hd, hs⟩ := hf
    refine ⟨ExtractExpr.create e 0 1, o', by rw [if_pos rfl, he]; rfl, ?_, hs⟩
    have hx := ExtractExpr.create_denotes hd 0 1 Nat.one_pos (by omega)
    rw [hbytes, read_one, ofNat_toNat]
    rwa [← BitVec.setWidth_eq_extractLsb' (by omega)] at hx
  · rw [hbytes] at hb ⊢
    obtain ⟨e, o', he, hd, hs⟩ := readBytes_returns hb h hpos
    rw [← hw8] at hd
    refine ⟨e, o', ?_, hd, hs⟩
    rw [if_neg hw1, if_pos hw8, he]
    rfl

theorem readAt_returns (hw : ByteWidth w)
    (hb : ∀ o i, S o → off ≤ i → i < off + getMinBytesForWidth w → Returns σ S (m i) (o.read8At i)) (h : S o) :
    Returns σ S (ofNat w (m.read off (getMinBytesForWidth w))) (o.readAt off w) := by
  have hpos := hw.pos
  exact readWith_returns hw (fun o i ho hi => hb o (off + i) ho (by omega) (by omega)) (hb o off h le_rfl (by omega)) h

variable {S : FlatMemory → ObjectState → Prop}

section

variable (hb : ∀ m o i v, S m o → S (update m i v) (o.writeByte i v))

include hb

omit [Options] in
theorem writeBytes_keeps (buf : List (BitVec 8)) :
    ∀ {m : FlatMemory} {o : ObjectState} {off : Nat}, S m o → S (m.store off buf) (o.writeBytes off buf) := by
  induction buf with
  | nil =>
    intro m o off h
    rw [store_nil]
    exact h
  | cons b buf ih =>
    intro m o off h
    rw [store_cons]
    exact ih (hb m o off b h)

omit [Options] in
/-- The bytes stored so far are those of a shorter write. -/
theorem writeConstant_keeps (h : S m o)
    (c : APInt) : S (m.write off (numBytes c.width) c.bits.toNat) (o.writeConstant off c) := by
  unfold ObjectState.writeConstant
  induction numBytes c.width with
  | zero =>
    rw [write_zero]
    exact h
  | succ k ih =>
    rw [range_succ, foldl_append, write_succ, byte_eq]
    exact hb _ _ _ _ ih

omit hb in
theorem writeWith_keeps {writeByte : ObjectState → Nat → Expr → Except Trap ObjectState}
    {writeFirst : Expr → Except Trap ObjectState} (hw : ByteWidth w) (hv : value.Denotes σ v)
    (hb : ∀ o m i e (b : BitVec 8), S m o → i < getMinBytesForWidth w → e.Denotes σ b →
      ∃ o', writeByte o i e = .ok o' ∧ S (update m (off + i) b) o')
    (hf : ∀ e (b : BitVec 8), e.Denotes σ b → ∃ o', writeFirst e = .ok o' ∧ S (update m off b) o')
    (h : S m o) : ∃ o', o.writeWith writeByte writeFirst value = .ok o' ∧
      S (m.write off (getMinBytesForWidth w) v.toNat) o' := by
  unfold ObjectState.writeWith
  rw [hv.width]
  obtain ⟨rfl, hbytes⟩ | ⟨hw1, hpos, hw8, hbytes⟩ := hw.cases
  · rw [if_pos rfl, hbytes, write_one, ofNat_toNat]
    exact hf _ _ (ZExtExpr.create_denotes hv (succ_pos 7))
  · rw [if_neg hw1, if_pos hw8, hbytes]
    rw [hbytes] at hb
    suffices hall : ∀ k ≤ numBytes w, ∃ o', (range k).foldlM
        (fun o i => writeByte o i (ExtractExpr.create value (8 * i) 8)) o = .ok o' ∧ S (m.write off k v.toNat) o' from
      hall _ le_rfl
    intro k hk
    induction k with
    | zero =>
      rw [write_zero]
      exact ⟨o, rfl, h⟩
    | succ k ih =>
      obtain ⟨o₁, ho₁, hs₁⟩ := ih (by omega)
      have hd := ExtractExpr.create_denotes hv (8 * k) 8 (by omega) (by omega)
      obtain ⟨o₂, ho₂, hs₂⟩ := hb o₁ _ k _ _ hs₁ (by omega) hd
      refine ⟨o₂, foldlM_range_succ ho₁ ho₂, ?_⟩
      rw [write_succ, byte_eq]
      exact hs₂

/-- A constant is written by the routine for its width, and there is none for three bytes. -/
theorem writeAt_keeps
    (h8 : ∀ m o i e (b : BitVec 8), S m o → e.Denotes σ b → S (update m i b) (o.write8At i e)) (h : S m o)
    (off : Nat) (hw : ByteWidth w) (hc : value.isConstant = true → w ∈ [1, 8, 16, 32, 64]) (hv : value.Denotes σ v) :
    ∃ o', o.writeAt off value = .ok o' ∧ S (m.write off (getMinBytesForWidth w) v.toNat) o' := by
  have hgeneral : ∃ o', o.writeWith (fun o i e => .ok (o.write8At (off + i) e)) (fun e => .ok (o.write8At off e)) value =
      .ok o' ∧ S (m.write off (getMinBytesForWidth w) v.toNat) o' :=
    writeWith_keeps hw hv (fun o m i e b ho _ hd => ⟨_, rfl, h8 m o (off + i) e b ho hd⟩)
      (fun e b hd => ⟨_, rfl, h8 m o off e b h hd⟩) h
  unfold ObjectState.writeAt
  cases value with
  | constant c =>
    obtain ⟨w', c⟩ := c
    obtain rfl : w' = w := hv.width
    obtain rfl : c = v := (Expr.eval_constant c σ).symm.trans hv.eval
    have hmem := hc rfl
    simp only [mem_cons, not_mem_nil, or_false] at hmem
    have hle : ¬ 64 < w' := by omega
    dsimp only
    rw [if_neg hle]
    by_cases hone : w' = 1 ∨ w' = 8
    · have hbytes : getMinBytesForWidth w' = 1 := by rcases hone with rfl | rfl <;> rfl
      rw [if_pos hone, hbytes, write_one, ofNat_toNat]
      exact ⟨_, rfl, hb _ _ _ _ h⟩
    · have h16 : w' = 16 ∨ w' = 32 ∨ w' = 64 := by omega
      have hbytes : getMinBytesForWidth w' = numBytes w' := by rcases h16 with rfl | rfl | rfl <;> rfl
      rw [if_neg hone, if_pos h16, hbytes]
      exact ⟨_, rfl, writeConstant_keeps hb h ⟨w', c⟩⟩
  | _ => exact hgeneral

end

end Loops

theorem Sync.readAt (h : Sync σ n m o) (hw : w ∈ [1, 8, 16, 32, 64]) (hle : off + getMinBytesForWidth w ≤ n) :
    Reads σ n m (ofNat w (m.read off (getMinBytesForWidth w))) (o.readAt off w) := by
  apply readAt_returns (byteWidth_of_mem hw) _ h
  intro o i ho _ hi
  exact ho.read8At (by omega)

theorem Sync.writeAt (h : Sync σ n m o) (off : Nat) (hw : w ∈ [1, 8, 16, 32, 64]) (hv : value.Denotes σ v) :
    Writes σ n (m.write off (getMinBytesForWidth w) v.toNat) (o.writeAt off value) := by
  apply writeAt_keeps _ _ h off (byteWidth_of_mem hw) (fun _ => hw) hv
  · exact fun m o i v ho => ho.writeByte v
  · exact fun m o i e b ho hd => ho.write8At hd

/-! ## Symbolic offsets -/

theorem denotes_offset (h : offset.InBounds σ) :
    (ZExtExpr.create offset 32).Denotes σ (ofNat 32 (offset.value σ).toNat) := by
  rw [ofNat_toNat]
  exact ZExtExpr.create_denotes h.denotes (succ_pos 31)

theorem denotes_add (h : e.Denotes σ (ofNat 32 off)) (i : Nat) :
    (AddExpr.create e (.const i 32)).Denotes σ (ofNat 32 (off + i)) := by
  rw [BitVec.ofNat_add]
  exact AddExpr.create_denotes h (Expr.denotes_const σ _ (succ_pos 31))

theorem symbolic_add (hf : offset.Folded) (hn : ∀ c, ZExtExpr.create offset 32 = .constant c → False)
    (i : Nat) : (AddExpr.create (ZExtExpr.create offset 32) (.const i 32)).isConstant = false := by
  apply AddExpr.create_isConstant
  · show 32 ≠ 1
    decide
  · exact ZExtExpr.create_folded hf
  · exact Expr.isConstant_eq_false hn

theorem offset_constant (h : offset.InBounds σ) {c : APInt} (hc : ZExtExpr.create offset 32 = .constant c)
    (hlt : (offset.value σ).toNat < 2 ^ 32) : c.getZExtValue = (offset.value σ).toNat := by
  have hd := denotes_offset h
  rw [hc] at hd
  obtain ⟨w, c⟩ := c
  obtain rfl : w = 32 := hd.width
  show c.toNat = _
  rw [← Expr.eval_constant c σ, hd.eval, toNat_index hlt]

theorem Sync.read (h : Sync σ n m o) (hw : w ∈ [1, 8, 16, 32, 64]) (hi : offset.InBounds σ)
    (hf : offset.Folded) (hle : (offset.value σ).toNat + getMinBytesForWidth w ≤ n) :
    Reads σ n m (ofNat w (m.read (offset.value σ).toNat (getMinBytesForWidth w))) (o.read offset w) := by
  have hpos := getMinBytesForWidth_pos hw
  have hd := denotes_offset hi
  unfold ObjectState.read
  split
  · rename_i c hc
    rw [offset_constant hi hc (h.lt (by omega))]
    exact h.readAt hw hle
  · rename_i hn
    refine readWith_returns (byteWidth_of_mem hw) (fun o i ho hi => ?_)
      (h.read8 (Expr.isConstant_eq_false hn) hd (by omega)) h
    exact ho.read8 (symbolic_add hf hn i) (denotes_add hd i) (by omega)

theorem Sync.write (h : Sync σ n m o) (hw : w ∈ [1, 8, 16, 32, 64])
    (hv : value.Denotes σ v) (hi : offset.InBounds σ) (hf : offset.Folded)
    (hle : (offset.value σ).toNat + getMinBytesForWidth w ≤ n) :
    Writes σ n (m.write (offset.value σ).toNat (getMinBytesForWidth w) v.toNat) (o.write offset value) := by
  have hpos := getMinBytesForWidth_pos hw
  have hd := denotes_offset hi
  unfold ObjectState.write
  split
  · rename_i c hc
    rw [offset_constant hi hc (h.lt (by omega))]
    exact h.writeAt _ hw hv
  · rename_i hn
    refine writeWith_keeps (byteWidth_of_mem hw) hv (fun o m i e b ho hi hd' => ?_)
      (fun e b hd' => h.write8 (Expr.isConstant_eq_false hn) hd (by omega) hd') h
    exact ho.write8 (symbolic_add hf hn i) (denotes_add hd i) (by omega) hd'

/-! ## Objects as they are made -/

theorem sync_concrete (useConstantArrays : Bool) (tmpId arrayId size : Nat) (hsize : size < 2 ^ 32)
    (store : Nat → BitVec 8) :
    Sync σ size store (concrete useConstantArrays tmpId arrayId size hsize store) where
  size := rfl
  byte i _ := by
    have hd := Expr.denotes_const σ (store i).toNat (succ_pos 7)
    rw [ofNat_toNat, setWidth_eq] at hd
    exact ByteSync.of_cached (fun _ => rfl) rfl hd rfl
  head := trivial
  root r hr := by
    cases useConstantArrays with
    | true => cases hr
    | false =>
      cases hr
      rfl

section MakeSymbolic

omit [Options]

theorem isByteFlushed_markByteFlushed_of (h : j = i ∨ o.isByteFlushed j = true) :
    (o.markByteFlushed i).isByteFlushed j = true := by
  by_cases hm : o.flushMask.isSome
  · rw [isByteFlushed_markByteFlushed hm]
    rcases h with rfl | hf
    · exact if_pos rfl
    · rw [hf, ite_self]
  · rw [isByteFlushed, markByteFlushed, not_isSome_iff_eq_none.1 hm]
    rfl

/-- Every byte that the loop has passed is in the update list alone; the other fields are not touched. -/
theorem makeSymbolic_loop (k : Nat) : ((range k).foldl makeByteSymbolic o).size = o.size ∧
    ((range k).foldl makeByteSymbolic o).head = o.head ∧
    ((range k).foldl makeByteSymbolic o).root = o.root ∧
    ∀ j < k, ((range k).foldl makeByteSymbolic o).isByteConcrete j = false ∧
      ((range k).foldl makeByteSymbolic o).knownSymbolic j = none ∧
      ((range k).foldl makeByteSymbolic o).isByteFlushed j = true := by
  induction k with
  | zero => exact ⟨rfl, rfl, rfl, fun j hj => by omega⟩
  | succ k ih =>
    obtain ⟨hsize, hhead, hroot, hbyte⟩ := ih
    rw [range_succ, foldl_append, foldl_cons, foldl_nil]
    generalize (range k).foldl makeByteSymbolic o = o' at hsize hhead hroot hbyte
    refine ⟨hsize, hhead, hroot, fun j hj => ?_⟩
    have hc : (o'.makeByteSymbolic k).isByteConcrete j = if j = k then false else o'.isByteConcrete j :=
      isByteConcrete_markByteSymbolic
    have hk : (o'.makeByteSymbolic k).knownSymbolic j = if j = k then none else o'.knownSymbolic j :=
      knownSymbolic_setKnownSymbolic
    by_cases hjk : j = k
    · rw [hc, hk, if_pos hjk, if_pos hjk]
      exact ⟨rfl, rfl, isByteFlushed_markByteFlushed_of (.inl hjk)⟩
    · obtain ⟨h1, h2, h3⟩ := hbyte j (by omega)
      rw [hc, hk, if_neg hjk, if_neg hjk]
      exact ⟨h1, h2, isByteFlushed_markByteFlushed_of (.inr h3)⟩

end MakeSymbolic

theorem sync_symbolic (array : Array) (arrayId : Nat) (store : Nat → BitVec 8) :
    Sync σ array.size (σ.initial array) (symbolic array arrayId store) := by
  unfold symbolic makeSymbolic
  obtain ⟨hsize, hhead, hroot, hbyte⟩ := makeSymbolic_loop array.size
    (o := ⟨array.size, array.size_lt, store, none, none, none, some array, .nil, arrayId⟩)
  refine ⟨hsize, fun i hi => ?_, hhead ▸ trivial, fun r hr => ?_⟩
  · obtain ⟨hc, hk, hf⟩ := hbyte i hi
    refine ⟨fun _ => hk, fun e he => ?_, fun _ => ?_, fun hff => ?_⟩
    · rw [cached, hc, hk] at he
      cases he
    · rw [updated, hroot, hhead]
      rfl
    · grind
  · grind

end ObjectState

/-! ## Sequences of accesses -/

/-- The bytes with which an object starts. -/
def Initial.contents (σ : Assignment) : Initial → FlatMemory
  | .concrete _ _ _ _ _ store => store
  | .symbolic array _ _ => σ.initial array

def Initial.size : Initial → Nat
  | .concrete _ _ _ size _ _ => size
  | .symbolic array _ _ => array.size

/-- The access to the flat array. -/
def Access.flat (σ : Assignment) (m : FlatMemory) : Access → Option APInt × FlatMemory
  | .readAt offset width => (some (.ofNat (m.read offset (getMinBytesForWidth width)) width), m)
  | .read offset width => (some (.ofNat (m.read (offset.value σ).toNat (getMinBytesForWidth width)) width), m)
  | .writeAt offset value => (none, m.write offset (getMinBytesForWidth value.getWidth) (value.value σ).toNat)
  | .write offset value =>
    (none, m.write (offset.value σ).toNat (getMinBytesForWidth value.getWidth) (value.value σ).toNat)

def flatRun (σ : Assignment) : FlatMemory → List Access → List (Option APInt)
  | _, [] => []
  | m, a :: as => (a.flat σ m).1 :: flatRun σ (a.flat σ m).2 as

/-- The constant to which an expression evaluates. -/
def Expr.evaluate (σ : Assignment) (e : Expr) : APInt := ⟨e.getWidth, e.value σ⟩

section

variable [Options]

/-- The access is of one of the widths of the code, and inside the object. A symbolic offset is one that the `create`
functions have built. -/
def Access.Valid (σ : Assignment) (size : Nat) : Access → Prop
  | .readAt offset width => width ∈ [1, 8, 16, 32, 64] ∧ offset + getMinBytesForWidth width ≤ size
  | .read offset width => width ∈ [1, 8, 16, 32, 64] ∧ offset.InBounds σ ∧ offset.Folded ∧
      (offset.value σ).toNat + getMinBytesForWidth width ≤ size
  | .writeAt offset value => value.getWidth ∈ [1, 8, 16, 32, 64] ∧ value.InBounds σ ∧
      offset + getMinBytesForWidth value.getWidth ≤ size
  | .write offset value => value.getWidth ∈ [1, 8, 16, 32, 64] ∧ value.InBounds σ ∧ offset.InBounds σ ∧
      offset.Folded ∧ (offset.value σ).toNat + getMinBytesForWidth value.getWidth ≤ size

theorem Expr.Denotes.evaluate (h : e.Denotes σ v) : e.evaluate σ = ⟨w, v⟩ := by
  obtain rfl := h.width
  exact congrArg (APInt.mk e.getWidth) h.eval

theorem ObjectState.Sync.access {m : FlatMemory} {o : ObjectState} (h : Sync σ n m o)
    (a : Access) (ha : a.Valid σ n) : ∃ r o', o.access a = .ok (r, o') ∧
      r.map (Expr.evaluate σ) = (a.flat σ m).1 ∧ Sync σ n (a.flat σ m).2 o' := by
  cases a with
  | readAt offset width =>
    obtain ⟨e, o', he, hd, hs⟩ := h.readAt ha.1 ha.2
    exact ⟨some e, o', by rw [ObjectState.access, he]; rfl, congrArg some hd.evaluate, hs⟩
  | read offset width =>
    obtain ⟨e, o', he, hd, hs⟩ := h.read ha.1 ha.2.1 ha.2.2.1 ha.2.2.2
    exact ⟨some e, o', by rw [ObjectState.access, he]; rfl, congrArg some hd.evaluate, hs⟩
  | writeAt offset value =>
    obtain ⟨o', ho', hs⟩ := h.writeAt offset ha.1 ha.2.1.denotes
    exact ⟨none, o', by rw [ObjectState.access, ho']; rfl, rfl, hs⟩
  | write offset value =>
    obtain ⟨hw, hv, hi, hf, hle⟩ := ha
    obtain ⟨o', ho', hs⟩ := h.write hw hv.denotes hi hf hle
    exact ⟨none, o', by rw [ObjectState.access, ho']; rfl, rfl, hs⟩

theorem ObjectState.Sync.run (as : List Access) (ha : ∀ a ∈ as, a.Valid σ n) :
    ∀ {m : FlatMemory} {o : ObjectState}, Sync σ n m o → ∃ rs o', o.run as = .ok (rs, o') ∧
      rs.map (Option.map (Expr.evaluate σ)) = flatRun σ m as := by
  induction as with
  | nil => exact fun {m o} _ => ⟨[], o, rfl, rfl⟩
  | cons a as ih =>
    intro m o h
    obtain ⟨r, o₁, h₁, hr, hs⟩ := h.access a (ha a mem_cons_self)
    obtain ⟨rs, o₂, h₂, hrs⟩ := ih (fun b hb => ha b (mem_cons_of_mem a hb)) hs
    refine ⟨r :: rs, o₂, ?_, ?_⟩
    · rw [ObjectState.run, h₁]
      show (o₁.run as >>= _) = _
      rw [h₂]
      rfl
    · rw [map_cons, hr, hrs, flatRun]

theorem Initial.sync (σ : Assignment) : ∀ init : Initial, init.object.Sync σ init.size (init.contents σ)
  | .concrete _ _ _ _ _ _ => ObjectState.sync_concrete ..
  | .symbolic _ _ _ => ObjectState.sync_symbolic ..

/-- Every access of a sequence returns, and each read evaluates to what the flat array holds at that point. -/
theorem run_flat (init : Initial) (σ : Assignment) (accesses : List Access) (h : ∀ a ∈ accesses, a.Valid σ init.size) :
    ∃ results o, init.object.run accesses = .ok (results, o) ∧
      results.map (Option.map (Expr.evaluate σ)) = flatRun σ (init.contents σ) accesses :=
  ObjectState.Sync.run accesses h (init.sync σ)

end

def offsetByte : Expr := symbolicByte 0 "offset"

/-- Two bytes at a symbolic offset of an object of four, read back at that offset and from the start. -/
theorem run_flat_symbolicOffset : ∃ results o, (Initial.concrete true 0 0 4 (by decide) fun _ => 5).object.run
      [.write (.zext offsetByte 64) (.zext offsetByte 16), .read (.zext offsetByte 64) 16, .readAt 0 32] =
        .ok (results, o) ∧
    results.map (Option.map (Expr.evaluate fun _ _ => 1)) =
      [none, some (.ofNat 1 16), some (.ofNat 0x05000105 32)] := by
  have hz : ∀ w, 8 ≤ w → (Expr.zext offsetByte w).InBounds fun _ _ => 1 :=
    fun w hw => ⟨symbolicByte_inBounds _ 0 "offset", hw⟩
  have hf : offsetByte.Folded := ⟨trivial, trivial⟩
  refine run_flat _ _ _ fun a ha => ?_
  simp only [mem_cons, not_mem_nil, or_false] at ha
  rcases ha with rfl | rfl | rfl
  · exact ⟨by decide, hz 16 (by decide), hz 64 (by decide), hf, by decide⟩
  · exact ⟨by decide, hz 64 (by decide), hf, by decide⟩
  · exact ⟨by decide, by decide⟩

end S2E.Klee
