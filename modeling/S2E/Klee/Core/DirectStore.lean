import S2E.Klee.Core.ConcreteStore

/-!
# Accesses mixed with direct stores

`dmaWrite` stores the bytes that are concrete in the store itself, to which it has no pointer if a byte of the object is
symbolic. `copyInConcretes` and `switchToSymbolic` replace the whole store. None of them tells the masks. An access at a
symbolic offset has put copies of the concrete bytes into the update list, and later ones take them from there.

* `DirectAction`, `runActions` : sequences of accesses and direct stores; `DirectAction.flat` : the same for a flat array.
-/

namespace S2E.Klee

open S2E.Lib Function List

inductive DirectAction
  | access (a : Access)
  /-- `dmaWrite`, as far as it writes to this object. -/
  | dmaWrite (offset : Nat) (buf : List (BitVec 8))
  /-- `memcpy` to the concrete store. -/
  | copyIn (image : Nat → BitVec 8)

namespace ObjectState

variable (o : ObjectState)

/-- The loop of `dmaWrite`. A byte that is not concrete goes through `write8`. -/
def dmaBytes (concreteStore : Bool) (o : ObjectState) (offset : Nat) : List (BitVec 8) → Except Trap ObjectState
  | [] => .ok o
  | b :: bs =>
    if o.isByteConcrete offset then
      -- through a null pointer
      if !concreteStore then .error .assertFailed
      else dmaBytes concreteStore { o with concreteStore := update o.concreteStore offset b } (offset + 1) bs
    else dmaBytes concreteStore (o.writeByte offset b) (offset + 1) bs

/-- The pointer of `getConcreteStore()` is taken before the loop; it is null if a byte is symbolic. -/
def dmaWrite (offset : Nat) (buf : List (BitVec 8)) : Except Trap ObjectState := o.dmaBytes o.isAllConcrete offset buf

def copyIn (image : Nat → BitVec 8) : ObjectState :=
  { o with concreteStore := fun i => if i < o.size then image i else o.concreteStore i }

variable [Options]

def act : DirectAction → Except Trap (Option Expr × ObjectState)
  | .access a => o.access a
  | .dmaWrite offset buf => (o.dmaWrite offset buf).map (none, ·)
  | .copyIn image => .ok (none, o.copyIn image)

end ObjectState

/-- The action on the flat array, for an object whose concrete bytes are given: only these are written by `memcpy`. -/
def DirectAction.flat (σ : Assignment) (isByteConcrete : Nat → Bool) (m : FlatMemory) :
    DirectAction → Option APInt × FlatMemory
  | .access a => a.flat σ m
  | .dmaWrite offset buf => (none, m.store offset buf)
  | .copyIn image => (none, fun i => if isByteConcrete i then image i else m i)

/-- The update list has no copy of a byte that is changed, and `dmaWrite` of a concrete byte finds no symbolic one. -/
def DirectAction.Clean (o : ObjectState) : DirectAction → Prop
  | .access _ => True
  | .dmaWrite offset buf => ∀ p ∈ buf.zipIdx offset, o.isByteConcrete p.2 = true →
    o.isAllConcrete = true ∧ (o.isByteFlushed p.2 = true → p.1 = o.concreteStore p.2)
  | .copyIn image => ∀ i < o.size, o.isByteConcrete i = true → o.isByteFlushed i = true → image i = o.concreteStore i

section

variable [Options]

def DirectAction.Valid (σ : Assignment) (size : Nat) : DirectAction → Prop
  | .access a => a.Valid σ size
  | .dmaWrite offset buf => offset + buf.length ≤ size
  | .copyIn _ => True

/-- The results of the reads, beside what the flat array holds there. -/
def ObjectState.runActions (σ : Assignment) (o : ObjectState) (m : FlatMemory) :
    List DirectAction → Except Trap (List (Option Expr × Option APInt))
  | [] => .ok []
  | a :: as => do
    let r ← o.act a
    let f := a.flat σ o.isByteConcrete m
    let rs ← r.2.runActions σ f.2 as
    return (r.1, f.1) :: rs

/-- All direct stores of the run are clean. -/
def ObjectState.CleanRun (o : ObjectState) : List DirectAction → Prop
  | [] => True
  | a :: as => a.Clean o ∧ ∀ r, o.act a = .ok r → r.2.CleanRun as

namespace ObjectState

variable {σ : Assignment} {n : Nat} {m : FlatMemory} {o : ObjectState}

/-- The store of one concrete byte. -/
theorem Sync.storeByte (h : Sync σ n m o) {offset : Nat} {b : BitVec 8} (hc : o.isByteConcrete offset = true)
    (hb : o.isByteFlushed offset = true → b = o.concreteStore offset) :
    Sync σ n (update m offset b) { o with concreteStore := update o.concreteStore offset b } := by
  refine h.setStore (fun i hi => ?_) fun i hi hci hf => ?_
  · by_cases hio : i = offset
    · grind
    · rw [update_of_ne hio, update_of_ne hio]
      split_ifs with hci
      · exact (h.concreteStore_eq hi hci).symm
      · rfl
  · by_cases hio : i = offset
    · subst hio
      rw [update_self]
      exact hb hf
    · rw [update_of_ne hio]

theorem Sync.dmaBytes {store : Bool} : ∀ {buf : List (BitVec 8)} {offset : Nat} {m : FlatMemory} {o : ObjectState},
    Sync σ n m o → (∀ p ∈ buf.zipIdx offset, o.isByteConcrete p.2 = true →
      store = true ∧ (o.isByteFlushed p.2 = true → p.1 = o.concreteStore p.2)) →
    ∃ o', o.dmaBytes store offset buf = .ok o' ∧ Sync σ n (m.store offset buf) o'
  | [], _, _, o, h, _ => ⟨o, rfl, by simpa using h⟩
  | b :: bs, offset, m, o, h, hbuf => by
    rw [zipIdx_cons, forall_mem_cons] at hbuf
    obtain ⟨hfirst, hrest⟩ := hbuf
    -- the bytes after the first are as they were
    have hne : ∀ p ∈ bs.zipIdx (offset + 1), p.2 ≠ offset := fun p hp => by
      have := le_snd_of_mem_zipIdx hp
      omega
    rw [ObjectState.dmaBytes, FlatMemory.store_cons]
    by_cases hc : o.isByteConcrete offset = true
    · obtain ⟨rfl, hflushed⟩ := hfirst hc
      rw [if_pos hc, Bool.not_true, if_neg Bool.false_ne_true]
      refine Sync.dmaBytes (h.storeByte hc hflushed) fun p hp hcp => ⟨rfl, fun hf => ?_⟩
      exact ((hrest p hp hcp).2 hf).trans (update_of_ne (hne p hp) ..).symm
    · rw [if_neg hc]
      refine Sync.dmaBytes (h.writeByte b) fun p hp hcp => ?_
      have hstore : (o.writeByte offset b).concreteStore p.2 = o.concreteStore p.2 := update_of_ne (hne p hp) ..
      have hconcrete : (o.writeByte offset b).isByteConcrete p.2 = o.isByteConcrete p.2 :=
        isByteConcrete_markByteConcrete.trans (if_neg (hne p hp))
      have hflushed : (o.writeByte offset b).isByteFlushed p.2 = o.isByteFlushed p.2 :=
        isByteFlushed_markByteUnflushed.trans (if_neg (hne p hp))
      rw [hstore, hflushed]
      exact hrest p hp (hconcrete ▸ hcp)

theorem Sync.act (h : Sync σ n m o) (a : DirectAction) (ha : a.Valid σ n) (hclean : a.Clean o) :
    ∃ r o', o.act a = .ok (r, o') ∧ r.map (Expr.evaluate σ) = (a.flat σ o.isByteConcrete m).1 ∧
      Sync σ n (a.flat σ o.isByteConcrete m).2 o' := by
  cases a with
  | access a => exact h.access a ha
  | dmaWrite offset buf =>
    obtain ⟨o', ho, hs⟩ := h.dmaBytes hclean
    exact ⟨none, o', congrArg (Except.map (none, ·)) ho, rfl, hs⟩
  | copyIn image =>
    refine ⟨none, o.copyIn image, rfl, rfl, h.setStore (fun i hi => ?_) fun i hi hc hf => ?_⟩
    · have hlt : i < o.size := h.size.symm ▸ hi
      simp only [if_pos hlt]
      rfl
    · have hlt : i < o.size := h.size.symm ▸ hi
      rw [if_pos hlt]
      exact hclean i hlt hc hf

theorem Sync.runActions (as : List DirectAction) (ha : ∀ a ∈ as, a.Valid σ n) :
    ∀ {m : FlatMemory} {o : ObjectState}, Sync σ n m o → o.CleanRun as →
      ∃ rs, o.runActions σ m as = .ok rs ∧ ∀ r ∈ rs, r.1.map (Expr.evaluate σ) = r.2 := by
  induction as with
  | nil => exact fun _ _ => ⟨[], rfl, by simp⟩
  | cons a as ih =>
    intro m o h hclean
    obtain ⟨r, o₁, h₁, hr, hs⟩ := h.act a (ha a mem_cons_self) hclean.1
    obtain ⟨rs, h₂, hrs⟩ := ih (fun b hb => ha b (mem_cons_of_mem a hb)) hs (hclean.2 _ h₁)
    refine ⟨(r, (a.flat σ o.isByteConcrete m).1) :: rs, ?_, ?_⟩
    · rw [ObjectState.runActions, h₁]
      show (o₁.runActions σ _ as >>= _) = _
      rw [h₂]
      rfl
    · intro p hp
      rcases mem_cons.mp hp with rfl | hp
      · exact hr
      · exact hrs p hp

end ObjectState

end

end S2E.Klee
