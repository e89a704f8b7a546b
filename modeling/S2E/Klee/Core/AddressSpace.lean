import Mathlib.Tactic

/-!
# Copy on write: `AddressSpace`

* `AddressSpace` : the key of the space and the objects bound in it. `copy`, `bindObject`, `unbindObject`, `getWriteable`
  follow `AddressSpace.h` and `AddressSpace.cpp`;
* `System` : the address spaces of all execution states, the object states, and the host memory behind the objects that
  are shared by all states;
* `Op`, `step`, `run` : copies, bindings and writes in any of the states, in any order;
* `System.Inv` : no key is below the owner of an object that its space reaches, and an object whose owner is the key of a
  space is reached from that space only.

What an object state holds is a parameter `C`. A write is any function on it.
-/

namespace S2E.Klee
open Function List
open List (getElem?_append_left length_set getElem?_map length_map)
open Option (bind_eq_some_iff bind_some)
open BitVec (ofNat)

structure MemoryObject where
  id : Nat
  /-- The bytes of the object are those of the host memory at its address. -/
  isSharedConcrete : Bool
deriving DecidableEq

variable {C : Type}

/-- An object state: who may write to it, and what it holds. -/
structure OwnedState (C : Type) where
  copyOnWriteOwner : BitVec 32
  readOnly : Bool
  contents : C

/-- The object states; a reference is an index. -/
abbrev ObjectHeap (C : Type) := List (OwnedState C)

structure AddressSpace where
  cowKey : BitVec 32
  objects : MemoryObject → Option Nat

namespace AddressSpace

/-- The first address space of an execution. -/
def new : AddressSpace := ⟨1, fun _ => none⟩

/-- The copy constructor: the original and the copy both get the next key. -/
def copy (b : AddressSpace) : AddressSpace × AddressSpace :=
  ({ b with cowKey := b.cowKey + 1 }, ⟨b.cowKey + 1, b.objects⟩)

section

variable (a : AddressSpace)

def findObject (mo : MemoryObject) : Option Nat := a.objects mo

/-- `objects.replace`. -/
def replace (mo : MemoryObject) (os : Nat) : AddressSpace :=
  { a with objects := update a.objects mo (some os) }

/-- A new object state is bound. -/
def bindObject (heap : ObjectHeap C) (mo : MemoryObject) (os : OwnedState C) : Option (AddressSpace × ObjectHeap C) :=
  if os.copyOnWriteOwner = 0 then
    some (a.replace mo heap.length, heap ++ [{ os with copyOnWriteOwner := a.cowKey }])
  else none

def unbindObject (mo : MemoryObject) : AddressSpace :=
  { a with objects := update a.objects mo none }

/-- The object state to write to: the one that is bound if the space owns it, and a copy otherwise. -/
def getWriteable (heap : ObjectHeap C) (mo : MemoryObject) (os : Nat) : Option (AddressSpace × ObjectHeap C × Nat) := do
  let o ← heap[os]?
  if o.readOnly then none
  else if a.cowKey = o.copyOnWriteOwner then some (a, heap, os)
  else some (a.replace mo heap.length, heap ++ [⟨a.cowKey, false, o.contents⟩], heap.length)

end

end AddressSpace

/-- All execution states. -/
structure System (C : Type) where
  spaces : List AddressSpace
  heap : ObjectHeap C
  host : MemoryObject → C

inductive Op (C : Type)
  /-- State `i` is copied. -/
  | copy (i : Nat)
  | bindObject (i : Nat) (mo : MemoryObject) (os : OwnedState C)
  | unbindObject (i : Nat) (mo : MemoryObject)
  /-- State `i` asks for the object in order to write to it, and writes. -/
  | write (i : Nat) (mo : MemoryObject) (f : C → C)

namespace System

/-- One execution state, nothing bound. -/
def init (host : MemoryObject → C) : System C := ⟨[.new], [], host⟩

/-- What state `i` reads from the object. -/
def read (s : System C) (i : Nat) (mo : MemoryObject) : Option C := do
  let a ← s.spaces[i]?
  let os ← a.findObject mo
  if mo.isSharedConcrete then some (s.host mo) else s.heap[os]?.map (·.contents)

def copy (s : System C) (i : Nat) : Option (System C) := do
  let a ← s.spaces[i]?
  some { s with spaces := s.spaces.set i a.copy.1 ++ [a.copy.2] }

def bindObject (s : System C) (i : Nat) (mo : MemoryObject) (os : OwnedState C) : Option (System C) := do
  let a ← s.spaces[i]?
  let r ← a.bindObject s.heap mo os
  some { s with spaces := s.spaces.set i r.1, heap := r.2 }

def unbindObject (s : System C) (i : Nat) (mo : MemoryObject) : Option (System C) := do
  let a ← s.spaces[i]?
  some { s with spaces := s.spaces.set i (a.unbindObject mo) }

/-- A write to a shared object goes to the host memory. -/
def write (s : System C) (i : Nat) (mo : MemoryObject) (f : C → C) : Option (System C) := do
  let a ← s.spaces[i]?
  let os ← a.findObject mo
  let r ← a.getWriteable s.heap mo os
  some {
    spaces := s.spaces.set i r.1
    heap := if mo.isSharedConcrete then r.2.1 else r.2.1.modify r.2.2 fun o => { o with contents := f o.contents }
    host := if mo.isSharedConcrete then update s.host mo (f (s.host mo)) else s.host }

def step (s : System C) : Op C → Option (System C)
  | .copy i => s.copy i
  | .bindObject i mo os => s.bindObject i mo os
  | .unbindObject i mo => s.unbindObject i mo
  | .write i mo f => s.write i mo f

def run (s : System C) (ops : List (Op C)) : Option (System C) := ops.foldlM step s

/-- The key of the state that the operation copies does not wrap around. -/
def NoWrap (s : System C) : Op C → Prop
  | .copy i => ∀ a, s.spaces[i]? = some a → a.cowKey.toNat + 1 < 2 ^ 32
  | _ => True

/-- The states of an execution in which no key wraps around. -/
inductive Reachable (host : MemoryObject → C) : System C → Prop
  | init : Reachable host (init host)
  | step {s s' : System C} (op : Op C) : Reachable host s → s.NoWrap op → s.step op = some s' → Reachable host s'

end System

/-! ## Ownership -/

/-- What the keys say about the objects. `owners` lists the owners of the object states. -/
structure Owned (spaces : List AddressSpace) (owners : List (BitVec 32)) : Prop where
  alloc : ∀ {i : Nat} {a : AddressSpace} {mo o}, spaces[i]? = some a → a.objects mo = some o → o < owners.length
  owner_le : ∀ {i : Nat} {a : AddressSpace} {mo o} {k : BitVec 32}, spaces[i]? = some a → a.objects mo = some o →
    owners[o]? = some k → k.toNat ≤ a.cowKey.toNat
  sole : ∀ {i j : Nat} {a b : AddressSpace} {mo mo' o}, spaces[i]? = some a → spaces[j]? = some b →
    a.objects mo = some o → b.objects mo' = some o → owners[o]? = some a.cowKey → j = i

variable {i j : Nat} {f : C → C} {a' b : AddressSpace} {mo : MemoryObject}

namespace Owned

variable {spaces : List AddressSpace} {owners : List (BitVec 32)} {i : Nat} {a : AddressSpace}

theorem init : Owned [.new] [] where
  alloc := by
    intro i a mo o ha ho
    obtain ⟨rfl, rfl⟩ : 0 = i ∧ AddressSpace.new = a := by
      cases i with
      | zero => exact ⟨rfl, by simpa using ha⟩
      | succ i => simp at ha
    cases ho
  owner_le := by grind
  sole := by grind

/-- The spaces after a copy: the copied one and the copy have the next key, the others are as they were. -/
theorem copy_cases (ha : spaces[i]? = some a) (hb : (spaces.set i a.copy.1 ++ [a.copy.2])[j]? = some b) :
    ((j = i ∨ j = spaces.length) ∧ b.cowKey = a.cowKey + 1 ∧ b.objects = a.objects) ∨
      (j ≠ i ∧ spaces[j]? = some b) := by
  rcases lt_trichotomy j spaces.length with hj | rfl | hj
  · rw [getElem?_append_left (by rwa [length_set])] at hb
    by_cases hji : j = i
    · subst hji
      rw [getElem?_set_self hj] at hb
      cases hb
      exact .inl ⟨.inl rfl, rfl, rfl⟩
    · grind
  · rw [getElem?_append_right (by rw [length_set]), length_set, Nat.sub_self] at hb
    cases hb
    exact .inl ⟨.inr rfl, rfl, rfl⟩
  · grind

/-- The copy has what the copied space has, and nothing else changes. -/
theorem copy_objects (ha : spaces[i]? = some a) (j : Nat) (mo : MemoryObject) :
    ((spaces.set i a.copy.1 ++ [a.copy.2])[j]?).bind (·.findObject mo) =
      (spaces[if j = spaces.length then i else j]?).bind (·.findObject mo) := by
  rcases lt_trichotomy j spaces.length with hj | rfl | hj
  · rw [if_neg (Nat.ne_of_lt hj), getElem?_append_left (by rwa [length_set])]
    by_cases hji : j = i
    · subst hji
      rw [getElem?_set_self hj, ha]
      rfl
    · rw [getElem?_set_ne (Ne.symm hji)]
  · rw [if_pos rfl, getElem?_append_right (by rw [length_set]), length_set, Nat.sub_self, ha]
    rfl
  · grind

section

variable (h : Owned spaces owners) (ha : spaces[i]? = some a)

include h ha

/-- After a copy neither side owns what the copied space reached. -/
theorem copy (hwrap : a.cowKey.toNat + 1 < 2 ^ 32) : Owned (spaces.set i a.copy.1 ++ [a.copy.2]) owners := by
  have hkey : (a.cowKey + 1).toNat = a.cowKey.toNat + 1 := by grind
  have hfresh : ∀ {mo o}, a.objects mo = some o → owners[o]? ≠ some (a.cowKey + 1) := by
    intro mo o ho hk
    have := h.owner_le ha ho hk
    omega
  constructor
  · intro j b mo o hb ho
    rcases copy_cases ha hb with ⟨-, -, hobj⟩ | ⟨-, hb⟩
    · exact h.alloc ha (hobj ▸ ho)
    · exact h.alloc hb ho
  · intro j b mo o k hb ho hk
    rcases copy_cases ha hb with ⟨-, hb', hobj⟩ | ⟨-, hb⟩
    · have := h.owner_le ha (hobj ▸ ho) hk
      rw [hb', hkey]
      omega
    · exact h.owner_le hb ho hk
  · intro j j' b b' mo mo' o hb hb' ho ho' hk
    rcases copy_cases ha hb with ⟨-, hkey', hobj⟩ | ⟨hj, hb⟩
    · rw [hkey'] at hk
      exact absurd hk (hfresh (hobj ▸ ho))
    · rcases copy_cases ha hb' with ⟨-, -, hobj'⟩ | ⟨-, hb'⟩
      · exact absurd (h.sole hb ha ho (hobj' ▸ ho') hk).symm hj
      · exact h.sole hb hb' ho ho' hk

omit h ha in
theorem set_cases (hb : (spaces.set i a')[j]? = some b) : (j = i ∧ b = a') ∨ (j ≠ i ∧ spaces[j]? = some b) := by
  by_cases hji : j = i
  · grind
  · grind

theorem restrict (hkey : a'.cowKey = a.cowKey)
    (hobj : ∀ mo o, a'.objects mo = some o → a.objects mo = some o) : Owned (spaces.set i a') owners := by
  -- Every space after the change is bounded by the one that was at its place.
  have hcases : ∀ {j : Nat} {b : AddressSpace}, (spaces.set i a')[j]? = some b → ∃ b₀, spaces[j]? = some b₀ ∧ b.cowKey = b₀.cowKey ∧
      ∀ mo o, b.objects mo = some o → b₀.objects mo = some o := by
    intro j b hb
    rcases set_cases hb with ⟨rfl, rfl⟩ | ⟨-, hb⟩
    · exact ⟨a, ha, hkey, hobj⟩
    · exact ⟨b, hb, rfl, fun _ _ h => h⟩
  constructor
  · intro j b mo o hb ho
    obtain ⟨b₀, hb₀, -, hsub⟩ := hcases hb
    exact h.alloc hb₀ (hsub _ _ ho)
  · intro j b mo o k hb ho hk
    obtain ⟨b₀, hb₀, hk₀, hsub⟩ := hcases hb
    rw [hk₀]
    exact h.owner_le hb₀ (hsub _ _ ho) hk
  · intro j j' b b' mo mo' o hb hb' ho ho' hk
    obtain ⟨b₀, hb₀, hk₀, hsub⟩ := hcases hb
    obtain ⟨b₁, hb₁, -, hsub'⟩ := hcases hb'
    rw [hk₀] at hk
    exact h.sole hb₀ hb₁ (hsub _ _ ho) (hsub' _ _ ho') hk

theorem replace (mo : MemoryObject) : Owned (spaces.set i (a.replace mo owners.length)) (owners ++ [a.cowKey]) := by
  -- A reference after the change is new, and then of space `i`, or it was there before.
  have hcases : ∀ {j : Nat} {b : AddressSpace} {mo' o}, (spaces.set i (a.replace mo owners.length))[j]? = some b → b.objects mo' = some o →
      (j = i ∧ o = owners.length ∧ b.cowKey = a.cowKey) ∨
      (o < owners.length ∧ ∃ b₀, spaces[j]? = some b₀ ∧ b₀.cowKey = b.cowKey ∧ b₀.objects mo' = some o) := by
    intro j b mo' o hb ho
    rcases set_cases hb with ⟨rfl, rfl⟩ | ⟨-, hb⟩
    · by_cases hmo : mo' = mo
      · subst hmo
        simp only [AddressSpace.replace, update_self, Option.some.injEq] at ho
        exact .inl ⟨rfl, ho.symm, rfl⟩
      · simp only [AddressSpace.replace, update_of_ne hmo] at ho
        exact .inr ⟨h.alloc ha ho, a, ha, rfl, ho⟩
    · exact .inr ⟨h.alloc hb ho, b, hb, rfl, ho⟩
  constructor
  · grind
  · intro j b mo' o k hb ho hk
    rcases hcases hb ho with ⟨-, rfl, hkey⟩ | ⟨hlt, b₀, hb₀, hkey, ho₀⟩
    · grind
    · rw [getElem?_append_left hlt] at hk
      rw [← hkey]
      exact h.owner_le hb₀ ho₀ hk
  · intro j j' b b' mo₁ mo₂ o hb hb' ho ho' hk
    rcases hcases hb ho with ⟨rfl, rfl, -⟩ | ⟨hlt, b₀, hb₀, hkey, ho₀⟩
    · rcases hcases hb' ho' with ⟨rfl, -, -⟩ | ⟨hlt, -⟩
      · rfl
      · exact absurd hlt (lt_irrefl _)
    · rcases hcases hb' ho' with ⟨-, rfl, -⟩ | ⟨-, b₁, hb₁, -, ho₁⟩
      · exact absurd hlt (lt_irrefl _)
      · rw [getElem?_append_left hlt, ← hkey] at hk
        exact h.sole hb₀ hb₁ ho₀ ho₁ hk

end

end Owned

/-! ## Steps -/

theorem AddressSpace.getWriteable_cases {a : AddressSpace} {heap : ObjectHeap C} {os : Nat}
    {r : AddressSpace × ObjectHeap C × Nat} (h : a.getWriteable heap mo os = some r) : ∃ o, heap[os]? = some o ∧
      ((o.copyOnWriteOwner = a.cowKey ∧ r = (a, heap, os)) ∨ (o.copyOnWriteOwner ≠ a.cowKey ∧
          r = (a.replace mo heap.length, heap ++ [⟨a.cowKey, false, o.contents⟩], heap.length))) := by
  obtain ⟨o, ho, h⟩ := bind_eq_some_iff.1 h
  refine ⟨o, ho, ?_⟩
  split at h
  · cases h
  · split at h
    · grind
    · grind

namespace System

variable {s s' : System C} {host : MemoryObject → C}

def owners (s : System C) : List (BitVec 32) := s.heap.map (·.copyOnWriteOwner)

def Inv (s : System C) : Prop := Owned s.spaces s.owners

theorem owners_modify (heap : ObjectHeap C) (n : Nat) (f : C → C) :
    (heap.modify n fun o => { o with contents := f o.contents }).map (·.copyOnWriteOwner) =
      heap.map (·.copyOnWriteOwner) := by
  apply ext_getElem?
  intro j
  rw [getElem?_map, getElem?_map, getElem?_modify]
  split
  · cases heap[j]? <;> rfl
  · cases heap[j]? <;> rfl

theorem write_cases (h : s.write i mo f = some s') :
    ∃ a os r, s.spaces[i]? = some a ∧ a.objects mo = some os ∧ a.getWriteable s.heap mo os = some r ∧
      s'.spaces = s.spaces.set i r.1 ∧ s'.heap = (if mo.isSharedConcrete then r.2.1
        else r.2.1.modify r.2.2 fun o => { o with contents := f o.contents }) ∧
      s'.host = (if mo.isSharedConcrete then update s.host mo (f (s.host mo)) else s.host) := by
  obtain ⟨a, ha, h⟩ := bind_eq_some_iff.1 h
  obtain ⟨os, hos, h⟩ := bind_eq_some_iff.1 h
  obtain ⟨r, hr, h⟩ := bind_eq_some_iff.1 h
  cases h
  exact ⟨a, os, r, ha, hos, hr, rfl, rfl, rfl⟩

theorem Inv.step (h : s.Inv) {op : Op C} (hw : s.NoWrap op) (hs : s.step op = some s') : s'.Inv := by
  cases op with
  | copy i =>
    obtain ⟨a, ha, hs⟩ := bind_eq_some_iff.1 hs
    cases hs
    exact Owned.copy h ha (hw a ha)
  | bindObject i mo os =>
    obtain ⟨a, ha, hs⟩ := bind_eq_some_iff.1 hs
    obtain ⟨r, hr, hs⟩ := bind_eq_some_iff.1 hs
    unfold AddressSpace.bindObject at hr
    split at hr
    · cases hr
      cases hs
      have := Owned.replace h ha mo
      rw [owners, length_map] at this
      rwa [Inv, owners, map_append]
    · cases hr
  | unbindObject i mo =>
    obtain ⟨a, ha, hs⟩ := bind_eq_some_iff.1 hs
    cases hs
    refine Owned.restrict h ha rfl fun mo' o ho => ?_
    by_cases hmo : mo' = mo
    · subst hmo
      simp [AddressSpace.unbindObject] at ho
    · simpa only [AddressSpace.unbindObject, update_of_ne hmo] using ho
  | write i mo f =>
    obtain ⟨a, os, r, ha, hos, hr, hsp, hheap, -⟩ := write_cases hs
    have howners : s'.owners = r.2.1.map (·.copyOnWriteOwner) := by
      rw [owners, hheap]
      split
      · rfl
      · exact owners_modify _ _ _
    rw [Inv, howners, hsp]
    obtain ⟨o, ho, ⟨-, rfl⟩ | ⟨-, rfl⟩⟩ := AddressSpace.getWriteable_cases hr
    · exact Owned.restrict h ha rfl fun _ _ h => h
    · have := Owned.replace h ha mo
      rw [owners, length_map] at this
      rwa [map_append]

theorem Reachable.inv (h : Reachable host s) : s.Inv := by
  induction h with
  | init => exact Owned.init
  | step op _ hw hs ih => exact ih.step hw hs

/-- A write to an object that is not shared leaves the other states alone. -/
theorem Inv.write_frame (h : s.Inv) {mo' : MemoryObject}
    (hmo : mo.isSharedConcrete = false) (hs : s.write i mo f = some s') (hj : j ≠ i) :
    s'.read j mo' = s.read j mo' := by
  obtain ⟨a, os, r, ha, hos, hr, hsp, hheap, hhost⟩ := write_cases hs
  rw [hmo, if_neg Bool.false_ne_true] at hheap hhost
  unfold read
  rw [hsp, hheap, hhost, getElem?_set_ne (Ne.symm hj)]
  cases hb : s.spaces[j]? with
  | none => rfl
  | some b =>
    cases hbo : b.findObject mo' with
    | none => simp [hbo]
    | some os' =>
      have hlt : os' < s.heap.length := by
        have := h.alloc hb hbo
        rwa [owners, length_map] at this
      -- The other state does not reach the object state that is written to.
      have hsame : (r.2.1.modify r.2.2 fun o => { o with contents := f o.contents })[os']? = s.heap[os']? := by
        obtain ⟨o, ho, ⟨hown, rfl⟩ | ⟨-, rfl⟩⟩ := AddressSpace.getWriteable_cases hr
        · have hne : os ≠ os' := by
            rintro rfl
            have hk : s.owners[os]? = some a.cowKey := by rw [owners, getElem?_map, ho, ← hown]; rfl
            exact hj (h.sole ha hb hos hbo hk)
          exact getElem?_modify_ne _ _ hne
        · exact (getElem?_modify_ne _ _ (Nat.ne_of_gt hlt)).trans (getElem?_append_left hlt)
      show ((b.findObject mo').bind fun os => _) = (b.findObject mo').bind fun os => _
      rw [hbo]
      simp only [bind_some, hsame]

/-- The object state is bound in space `i`. -/
def Reaches (s : System C) (i os : Nat) : Prop := ∃ a mo, s.spaces[i]? = some a ∧ a.findObject mo = some os

/-- In every state of an execution in which no key has wrapped around: an object state whose owner is the key of a space
is bound in that space only, and a write by one state to an object that is not shared does not change what another state
reads from any of its objects. -/
theorem run_isolated (h : Reachable host s) :
    (∀ (i j os : Nat) (a : AddressSpace) (o : OwnedState C), s.spaces[i]? = some a → s.heap[os]? = some o →
      o.copyOnWriteOwner = a.cowKey → s.Reaches i os → s.Reaches j os → j = i) ∧
    ∀ i j mo mo' f s', mo.isSharedConcrete = false → s.step (.write i mo f) = some s' → j ≠ i →
      s'.read j mo' = s.read j mo' := by
  constructor
  · rintro i j os a o ha ho hown ⟨a', mo, ha', hos⟩ ⟨b, mo', hb, hos'⟩
    rw [ha] at ha'
    cases ha'
    refine h.inv.sole ha hb hos hos' ?_
    rw [owners, getElem?_map, ho, ← hown]
    rfl
  · intro i j mo mo' f s' hmo hs hj
    exact h.inv.write_frame hmo hs hj

/-! ## Two states over one object -/

def memory : MemoryObject := ⟨0, false⟩

def device : MemoryObject := ⟨1, true⟩

/-- An object is bound and the state is copied. -/
def forked (mo : MemoryObject) : List (Op Nat) := [.bindObject 0 mo ⟨0, false, 0⟩, .copy 0]

theorem run_isolated_forked : ∃ s s' : System Nat, (init fun _ => 0).run (forked memory) = some s ∧
      s.step (.write 0 memory fun _ => 7) = some s' ∧ s'.read 0 memory = some 7 ∧
      s'.read 1 memory = s.read 1 memory := by
  refine ⟨_, _, rfl, rfl, rfl, (run_isolated (.step (.copy 0) (.step (.bindObject 0 memory ⟨0, false, 0⟩)
    .init trivial rfl) ?_ rfl)).2 0 1 memory memory (fun _ => 7) _ rfl rfl (by decide)⟩
  intro a ha
  cases ha
  decide

/-- The bytes of a shared object are those of the host memory, in every state. -/
theorem write_shared : ∃ s s' : System Nat, (init fun _ => 0).run (forked device) = some s ∧
      s.step (.write 0 device fun _ => 7) = some s' ∧ s.read 1 device = some 0 ∧ s'.read 1 device = some 7 :=
  ⟨_, _, rfl, rfl, rfl, rfl⟩

theorem run_append (s : System C) (ops ops' : List (Op C)) : s.run (ops ++ ops') = (s.run ops).bind (·.run ops') :=
  foldlM_append

/-- The first state is copied `n` times. -/
theorem run_copies (n : Nat) : ∀ (a : AddressSpace) (rest : List AddressSpace) (heap : ObjectHeap C)
    (host : MemoryObject → C), ∃ copies, run ⟨a :: rest, heap, host⟩ (replicate n (.copy 0)) =
      some ⟨{ a with cowKey := a.cowKey + ofNat 32 n } :: (rest ++ copies), heap, host⟩ := by
  induction n with
  | zero =>
    intro a rest heap host
    refine ⟨[], ?_⟩
    rw [append_nil, BitVec.add_zero]
    rfl
  | succ n ih =>
    intro a rest heap host
    obtain ⟨copies, hrun⟩ := ih a.copy.1 (rest ++ [a.copy.2]) heap host
    refine ⟨a.copy.2 :: copies, ?_⟩
    have hkey : a.copy.1.cowKey + ofNat 32 n = a.cowKey + ofNat 32 (n + 1) := by
      show a.cowKey + 1#32 + ofNat 32 n = _
      rw [BitVec.add_assoc, BitVec.add_comm (ofNat 32 1), ← BitVec.ofNat_add]
    rw [hkey, append_assoc] at hrun
    exact hrun

/-- After `2 ^ 32` copies of one state its key is the one that it started with, and it owns again what it shares. -/
theorem write_wrapped :
    ∃ s s' : System Nat, (init fun _ => 0).run (forked memory ++ replicate (2 ^ 32 - 1) (.copy 0)) = some s ∧
      s.step (.write 0 memory fun _ => 7) = some s' ∧ s.read 1 memory = some 0 ∧ s'.read 1 memory = some 7 := by
  let bound := (AddressSpace.new.replace memory 0).copy
  let heap : ObjectHeap Nat := [⟨1#32, false, 0⟩]
  obtain ⟨copies, hrun⟩ := run_copies (2 ^ 32 - 1) bound.1 [bound.2] heap fun _ => 0
  have hkey : bound.1.cowKey + ofNat 32 (2 ^ 32 - 1) = 1#32 := by decide
  rw [hkey] at hrun
  have hforked : (init fun _ => 0).run (forked memory) = some ⟨[bound.1, bound.2], heap, fun _ => 0⟩ := rfl
  let spaces : List AddressSpace := { bound.1 with cowKey := 1#32 } :: ([bound.2] ++ copies)
  refine ⟨⟨spaces, heap, fun _ => 0⟩, ⟨spaces, [⟨1#32, false, 7⟩], fun _ => 0⟩, ?_, rfl, rfl, rfl⟩
  rw [run_append, hforked, bind_some]
  exact hrun

end System

end S2E.Klee
