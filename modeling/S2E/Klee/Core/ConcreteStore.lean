import S2E.Klee.Core.ObjectSound

/-!
# An object whose store is written from outside

`getConcreteStore` hands out the store itself. A byte that is written there while the update list has a copy of it is
stale in the list, which accesses at constant offsets do not look at as long as the byte is concrete.

`ConstSync` : the object stands for a flat array as far as these accesses go. It is `Sync` for the object with its concrete
bytes taken out of the update list, and the accesses do not care whether that was done.
-/

namespace S2E.Klee.ObjectState

open S2E.Lib Option

/-- All bytes of the range are concrete. -/
def ConcreteOn (o : ObjectState) (offset n : Nat) : Prop := ∀ i, offset ≤ i → i < offset + n → o.isByteConcrete i = true

/-- None of them is. -/
def SymbolicOn (o : ObjectState) (offset n : Nat) : Prop := ∀ i, offset ≤ i → i < offset + n → o.isByteConcrete i = false

theorem isConcrete_iff {o : ObjectState} {offset width : Nat} :
    o.isConcrete offset width = true ↔ o.ConcreteOn offset (getMinBytesForWidth width) := by
  have hall : (List.range (getMinBytesForWidth width)).all (fun i => o.isByteConcrete (offset + i)) = true ↔
      o.ConcreteOn offset (getMinBytesForWidth width) := by
    simp only [List.all_eq_true, List.mem_range]
    constructor
    · intro h i hle hlt
      have := h (i - offset) (by omega)
      rwa [Nat.add_sub_cancel' hle] at this
    · exact fun h i hi => h (offset + i) (by omega) (by omega)
  unfold isConcrete
  cases hm : o.concreteMask with
  | some mask => exact hall
  | none =>
    refine iff_of_true rfl fun i _ _ => ?_
    unfold isByteConcrete
    rw [hm]

/-- The object with its concrete bytes taken out of the update list. -/
def unflushConcrete (o : ObjectState) : ObjectState :=
  { o with flushMask := o.flushMask.map fun mask i => mask i || o.isByteConcrete i }

section

variable (o : ObjectState) (i : Nat)

include o i

theorem isByteFlushed_unflushConcrete :
    o.unflushConcrete.isByteFlushed i = (o.isByteFlushed i && !o.isByteConcrete i) := by
  unfold isByteFlushed unflushConcrete
  cases o.flushMask with
  | none => rfl
  | some mask => exact Bool.not_or ..

theorem unflushConcrete_writeByte (v : BitVec 8) :
    (o.writeByte i v).unflushConcrete = o.unflushConcrete.writeByte i v := by
  have hc : ∀ j, (o.writeByte i v).isByteConcrete j = if j = i then true else o.isByteConcrete j :=
    fun j => isByteConcrete_markByteConcrete
  unfold unflushConcrete
  simp only [hc]
  unfold writeByte markByteUnflushed markByteConcrete setKnownSymbolic
  cases o.flushMask with
  | none => rfl
  | some mask =>
    simp only [map_some, mk.injEq, some.injEq, true_and, and_true]
    funext j
    by_cases hj : j = i
    · simp [hj]
    · simp [hj]

theorem unflushConcrete_writeSymbolic (value : Expr) :
    (((o.setKnownSymbolic i (some value)).markByteSymbolic i).markByteUnflushed i).unflushConcrete =
      ((o.unflushConcrete.setKnownSymbolic i (some value)).markByteSymbolic i).markByteUnflushed i := by
  have hc : ∀ j, (((o.setKnownSymbolic i (some value)).markByteSymbolic i).markByteUnflushed i).isByteConcrete j =
      if j = i then false else o.isByteConcrete j := fun j => isByteConcrete_markByteSymbolic
  unfold unflushConcrete
  simp only [hc]
  unfold markByteUnflushed markByteSymbolic setKnownSymbolic
  cases o.flushMask with
  | none => rfl
  | some mask =>
    simp only [map_some, mk.injEq, some.injEq, true_and, and_true]
    funext j
    by_cases hj : j = i
    · simp [hj]
    · simp [hj]

theorem unflushConcrete_write8At (value : Expr) :
    (o.write8At i value).unflushConcrete = o.unflushConcrete.write8At i value := by
  unfold write8At
  split
  · exact unflushConcrete_writeByte ..
  · exact unflushConcrete_writeSymbolic ..

end

variable [Options]

theorem unflushConcrete_read8At (o : ObjectState) (i : Nat) :
    o.unflushConcrete.read8At i = (o.read8At i).map (Prod.map id unflushConcrete) := by
  have hcached : o.unflushConcrete.cached i = o.cached i := rfl
  have hupd : o.unflushConcrete.getUpdates = (o.getUpdates.1, o.getUpdates.2.unflushConcrete) := by
    have hroot : o.unflushConcrete.root = o.root := rfl
    unfold getUpdates
    rw [hroot]
    cases o.root <;> rfl
  unfold read8At
  rw [hcached, isByteFlushed_unflushConcrete, hupd]
  cases hc : o.cached i with
  | some e => rfl
  | none =>
    -- A byte that is not at hand is not concrete.
    have hn : o.isByteConcrete i = false := by
      by_contra h
      rw [cached, if_pos (Bool.not_eq_false _ ▸ h)] at hc
      cases hc
    rw [hn, Bool.not_false, Bool.and_true]
    cases o.isByteFlushed i <;> rfl

section SetStore

variable {σ : Assignment} {n : Nat} {m m' : FlatMemory} {o : ObjectState} {i : Nat}

theorem Sync.concreteStore_eq (h : Sync σ n m o) (hi : i < n) (hc : o.isByteConcrete i = true) :
    o.concreteStore i = m i := by
  have hd := (h.byte i hi).cached (.const (o.concreteStore i).toNat 8) (if_pos hc)
  have hv := (Expr.eval_constant _ σ).symm.trans hd.eval
  rwa [BitVec.ofNat_toNat, BitVec.setWidth_eq] at hv

/-- The store is replaced, and the bytes of which the update list has a copy are as they were. A byte that is not concrete
keeps its value. -/
theorem Sync.setStore (h : Sync σ n m o) {store : Nat → BitVec 8}
    (hm : ∀ i < n, m' i = if o.isByteConcrete i then store i else m i)
    (hcopy : ∀ i < n, o.isByteConcrete i = true → o.isByteFlushed i = true → store i = o.concreteStore i) :
    Sync σ n m' { o with concreteStore := store } where
  size := h.size
  byte i hi := by
    have hb := h.byte i hi
    rw [hm i hi]
    cases hc : o.isByteConcrete i with
    | true =>
      have hcached : ({ o with concreteStore := store } : ObjectState).cached i = some (.const (store i).toNat 8) :=
        if_pos hc
      have hd := Expr.denotes_const σ (store i).toNat (Nat.succ_pos 7)
      rw [BitVec.ofNat_toNat, BitVec.setWidth_eq] at hd
      refine ⟨hb.exclusive, fun e he => ?_, fun hf => ?_, fun _ => by simp [hcached]⟩
      · grind
      · rw [if_pos rfl, hcopy i hi hc hf, h.concreteStore_eq hi hc]
        exact hb.flushed hf
    | false =>
      have hcached : ({ o with concreteStore := store } : ObjectState).cached i = o.cached i := by
        show (if o.isByteConcrete i then _ else _) = if o.isByteConcrete i then _ else _
        rw [hc]
        rfl
      refine ⟨hb.exclusive, fun e he => hb.cached e (hcached ▸ he), hb.flushed, fun hf => ?_⟩
      rw [hcached]
      exact hb.unflushed hf
  head := h.head
  root := h.root

end SetStore

/-- The object stands for `m` as far as accesses at constant offsets go. -/
def ConstSync (σ : Assignment) (n : Nat) (m : FlatMemory) (o : ObjectState) : Prop := Sync σ n m o.unflushConcrete

namespace ConstSync

variable {σ : Assignment} {n : Nat} {m m' : FlatMemory} {o : ObjectState} {i : Nat}

theorem size_eq (h : ConstSync σ n m o) : o.size = n := @Sync.size _ _ _ _ o.unflushConcrete h

theorem of_sync (h : Sync σ n m o) : ConstSync σ n m o where
  size := h.size
  byte i hi := by
    have hb := h.byte i hi
    refine ⟨hb.exclusive, hb.cached, fun hf => ?_, fun hf => ?_⟩
    · rw [isByteFlushed_unflushConcrete, Bool.and_eq_true] at hf
      exact hb.flushed hf.1
    · rw [isByteFlushed_unflushConcrete, Bool.and_eq_false_iff, Bool.not_eq_false'] at hf
      obtain hf | hc := hf
      · exact hb.unflushed hf
      · show o.cached i ≠ none
        rw [cached, if_pos hc]
        exact some_ne_none _
  head := h.head
  root := h.root

variable (h : ConstSync σ n m o)
include h

theorem congr (hm : ∀ i < n, m i = m' i) : ConstSync σ n m' o :=
  Sync.congr h hm

theorem concreteStore_eq (hi : i < n) (hc : o.isByteConcrete i = true) :
    o.concreteStore i = m i := @Sync.concreteStore_eq _ _ _ _ o.unflushConcrete _ h hi hc

/-- A read does not change which bytes are concrete. -/
theorem read8At (hi : i < n) : ∃ e o', o.read8At i = .ok (e, o') ∧ e.Denotes σ (m i) ∧
    ConstSync σ n m o' ∧ o'.isByteConcrete = o.isByteConcrete := by
  obtain ⟨e, o', he, hd, hs⟩ := Sync.read8At h hi
  rw [unflushConcrete_read8At] at he
  have hmask : ∀ r, o.read8At i = .ok r → r.2.isByteConcrete = o.isByteConcrete := by
    intro r hr
    unfold ObjectState.read8At getUpdates at hr
    split at hr
    · cases hr
      rfl
    · split at hr
      · cases hr
        cases o.root <;> rfl
      · cases hr
  cases hr : o.read8At i with
  | error t =>
    rw [hr] at he
    cases he
  | ok r =>
    rw [hr] at he
    cases he
    exact ⟨r.1, r.2, rfl, hd, hs, hmask r hr⟩

theorem writeByte (v : BitVec 8) : ConstSync σ n (Function.update m i v) (o.writeByte i v) := by
  unfold ConstSync
  rw [unflushConcrete_writeByte]
  exact Sync.writeByte h v

theorem write8At {value : Expr} {b : BitVec 8} (hd : value.Denotes σ b) :
    ConstSync σ n (Function.update m i b) (o.write8At i value) := by
  unfold ConstSync
  rw [unflushConcrete_write8At]
  exact Sync.write8At h hd

theorem readAt {off w : Nat} (hw : ByteWidth w) (hle : off + getMinBytesForWidth w ≤ n) :
    ∃ e o', o.readAt off w = .ok (e, o') ∧ e.Denotes σ (BitVec.ofNat w (m.read off (getMinBytesForWidth w))) ∧
      ConstSync σ n m o' ∧ o'.isByteConcrete = o.isByteConcrete := by
  refine readAt_returns (S := fun o' => ConstSync σ n m o' ∧ o'.isByteConcrete = o.isByteConcrete) hw ?_ ⟨h, rfl⟩
  intro o₁ i h₁ _ hi
  obtain ⟨e, o₂, he, hd, hs, hc⟩ := h₁.1.read8At (i := i) (by omega)
  exact ⟨e, o₂, he, hd, hs, hc.trans h₁.2⟩

theorem writeAt (off : Nat) {w : Nat} (hw : ByteWidth w) {value : Expr}
    (hc : value.isConstant = true → w ∈ [1, 8, 16, 32, 64]) {v : BitVec w} (hv : value.Denotes σ v) :
    ∃ o', o.writeAt off value = .ok o' ∧ ConstSync σ n (m.write off (getMinBytesForWidth w) v.toNat) o' := by
  apply writeAt_keeps _ _ h off hw hc hv
  · exact fun m o i v ho => ho.writeByte v
  · exact fun m o i e b ho hd => ho.write8At hd

/-- The store is replaced. A byte that is not concrete keeps its value. -/
theorem setStore {store : Nat → BitVec 8} (hm : ∀ i < n, m' i = if o.isByteConcrete i then store i else m i) :
    ConstSync σ n m' { o with concreteStore := store } := by
  refine Sync.setStore h hm fun i _ hc hf => ?_
  -- a concrete byte is not in the list
  rw [isByteFlushed_unflushConcrete, show o.isByteConcrete i = true from hc, Bool.not_true, Bool.and_false] at hf
  cases hf

end ConstSync

end S2E.Klee.ObjectState
