import S2E.Klee.Core.AddressSpace

/-!
# What a state finds in its address space

* `Distinct.write`, `Distinct.touch` : a state reads what it wrote, and its other objects are as they were. `touch` is what
  a read does to the caches of an object state;
* `contents`, `replaceContents` : the same for the object states themselves, as for states that are not active.
-/

namespace S2E.Klee.System
open Function Option

variable {C : Type} {s s' : System C}

/-! ## One state

What a state reads after a write or a read of its own.
-/

/-- A read may fill in caches of the object state, which it does in place. -/
def touch (s : System C) (i : Nat) (mo : MemoryObject) (c : C) : Option (System C) := do
  let a ← s.spaces[i]?
  let os ← a.findObject mo
  some { s with
    heap := if mo.isSharedConcrete then s.heap else s.heap.modify os fun o => { o with contents := c }
    host := if mo.isSharedConcrete then update s.host mo c else s.host }

/-- The object states that are bound in the space are there, each for one memory object. -/
structure Distinct (s : System C) (i : Nat) : Prop where
  alloc : ∀ {a : AddressSpace} {mo os}, s.spaces[i]? = some a → a.objects mo = some os → os < s.heap.length
  inj : ∀ {a : AddressSpace} {mo mo' os}, s.spaces[i]? = some a → a.objects mo = some os → a.objects mo' = some os →
    mo' = mo

/-- The memory object is bound in the space, to an object state that may be written to. -/
def Writable (s : System C) (i : Nat) (mo : MemoryObject) : Prop :=
  ∃ (a : AddressSpace) (os : Nat) (o : OwnedState C), s.spaces[i]? = some a ∧ a.objects mo = some os ∧
    s.heap[os]? = some o ∧ o.readOnly = false

variable {i os : Nat} {a : AddressSpace} {mo mo' : MemoryObject}

theorem read_eq (ha : s.spaces[i]? = some a) (hos : a.objects mo = some os) :
    s.read i mo = if mo.isSharedConcrete then some (s.host mo) else s.heap[os]?.map (·.contents) := by
  unfold read
  rw [ha]
  show (a.objects mo).bind _ = _
  rw [hos]
  rfl

theorem read_none (ha : s.spaces[i]? = some a) (hos : a.objects mo = none) : s.read i mo = none := by
  unfold read
  rw [ha]
  show (a.objects mo).bind _ = _
  rw [hos]
  rfl

/-- The two ways to get at a writeable object state come to the same for the state that asks. -/
theorem Distinct.getWriteable {o : OwnedState C}
    (h : s.Distinct i) (ha : s.spaces[i]? = some a) (hos : a.objects mo = some os) (ho : s.heap[os]? = some o)
    (hro : o.readOnly = false) : ∃ a' heap k o', a.getWriteable s.heap mo os = some (a', heap, k) ∧
      a'.objects = update a.objects mo (some k) ∧ heap[k]? = some o' ∧ o'.contents = o.contents ∧
      o'.readOnly = false ∧ s.heap.length ≤ heap.length ∧ (∀ j < s.heap.length, heap[j]? = s.heap[j]?) ∧
      ∀ mo' os', mo' ≠ mo → a.objects mo' = some os' → os' ≠ k := by
  unfold AddressSpace.getWriteable
  rw [ho]
  show ∃ a' heap k o', (if o.readOnly then _ else if a.cowKey = o.copyOnWriteOwner then _ else _) = _ ∧ _
  rw [hro, if_neg Bool.false_ne_true]
  by_cases hown : a.cowKey = o.copyOnWriteOwner
  · rw [if_pos hown]
    refine ⟨a, s.heap, os, o, rfl, ?_, ho, rfl, hro, le_rfl, fun _ _ => rfl, fun mo' os' hne hos' => ?_⟩
    · rw [← hos, update_eq_self]
    · rintro rfl
      exact hne (h.inj ha hos hos')
  · rw [if_neg hown]
    refine ⟨_, _, _, ⟨a.cowKey, false, o.contents⟩, rfl, rfl, List.getElem?_concat_length, rfl, rfl, ?_,
      fun j hj => List.getElem?_append_left hj, fun mo' os' _ hos' => ?_⟩
    · grind
    · exact Nat.ne_of_lt (h.alloc ha hos')

/-- A memory object of a space that is bound to another object state is that one, or it was bound before. -/
theorem binding_cases {objects : MemoryObject → Option Nat} {k : Nat}
    (h : update objects mo (some k) mo' = some os) : mo' = mo ∧ os = k ∨ mo' ≠ mo ∧ objects mo' = some os := by
  by_cases hne : mo' = mo
  · grind
  · grind

/-- In state `i` the object `mo`, bound to `os`, has been given other contents by `f`: it is bound to `k` in a heap in which
`k` holds what `os` did and which agrees with the old one, and the contents were changed there. -/
structure Changes (s s' : System C) (i : Nat) (mo : MemoryObject) (f : C → C) (a a' : AddressSpace) (os k : Nat)
    (o o' : OwnedState C) (heap : ObjectHeap C) : Prop where
  space : s.spaces[i]? = some a
  bound : a.objects mo = some os
  object : s.heap[os]? = some o
  space' : s'.spaces[i]? = some a'
  objects : a'.objects = update a.objects mo (some k)
  object' : heap[k]? = some o'
  contents : o'.contents = o.contents
  length : s.heap.length ≤ heap.length
  agrees : ∀ j < s.heap.length, heap[j]? = s.heap[j]?
  fresh : ∀ mo' os', mo' ≠ mo → a.objects mo' = some os' → os' ≠ k
  heap' : s'.heap = (if mo.isSharedConcrete then heap else heap.modify k fun o => { o with contents := f o.contents })
  host' : s'.host = (if mo.isSharedConcrete then update s.host mo (f (s.host mo)) else s.host)

namespace Changes

variable {i os k : Nat} {mo : MemoryObject} {f : C → C} {a a' : AddressSpace} {o o' : OwnedState C}
  {heap : ObjectHeap C}

variable (c : Changes s s' i mo f a a' os k o o' heap)
include c

theorem heap_other (h : s.Distinct i) {os' : Nat}
    (hne : mo' ≠ mo) (hos' : a.objects mo' = some os') : s'.heap[os']? = s.heap[os']? := by
  rw [c.heap']
  split
  · exact c.agrees os' (h.alloc c.space hos')
  · rw [List.getElem?_modify_ne _ _ (Ne.symm (c.fresh mo' os' hne hos'))]
    exact c.agrees os' (h.alloc c.space hos')

theorem heap_self : s'.heap[k]? = some (if mo.isSharedConcrete then o' else { o' with contents := f o'.contents }) := by
  rw [c.heap']
  split
  · exact c.object'
  · rw [List.getElem?_modify_eq, c.object']
    rfl

theorem objects_other (hne : mo' ≠ mo) : a'.objects mo' = a.objects mo' := by
  rw [c.objects, update_of_ne hne]

theorem objects_self : a'.objects mo = some k := by
  rw [c.objects, update_self]

theorem read (h : s.Distinct i) (mo' : MemoryObject) :
    s'.read i mo' = if mo' = mo then (s.read i mo).map f else s.read i mo' := by
  by_cases hne : mo' = mo
  · subst hne
    rw [if_pos rfl, read_eq c.space' c.objects_self, read_eq c.space c.bound, c.host', c.heap_self, c.object]
    cases mo'.isSharedConcrete with
    | true => simp
    | false => simp [c.contents]
  · rw [if_neg hne]
    cases hos' : a.objects mo' with
    | none => rw [read_none c.space' ((c.objects_other hne).trans hos'), read_none c.space hos']
    | some os' =>
      rw [read_eq c.space' ((c.objects_other hne).trans hos'), read_eq c.space hos', c.heap_other h hne hos', c.host']
      cases mo.isSharedConcrete with
      | true => simp [update_of_ne hne]
      | false => simp

theorem distinct (h : s.Distinct i) : s'.Distinct i where
  alloc {b mo' os'} hb hos' := by
    have hlen : s'.heap.length = heap.length := by
      rw [c.heap']
      split
      · rfl
      · exact List.length_modify ..
    obtain rfl := some.inj (c.space'.symm.trans hb)
    rw [c.objects] at hos'
    rw [hlen]
    obtain ⟨-, rfl⟩ | ⟨-, hos'⟩ := binding_cases hos'
    · exact (List.getElem?_eq_some_iff.1 c.object').1
    · exact (h.alloc c.space hos').trans_le c.length
  inj {b mo₁ mo₂ os'} hb h₁ h₂ := by
    obtain rfl := some.inj (c.space'.symm.trans hb)
    rw [c.objects] at h₁ h₂
    obtain ⟨rfl, rfl⟩ | ⟨hne₁, hos₁⟩ := binding_cases h₁
    · obtain ⟨rfl, -⟩ | ⟨hne₂, hos₂⟩ := binding_cases h₂
      · rfl
      · exact absurd rfl (c.fresh mo₂ _ hne₂ hos₂)
    · obtain ⟨rfl, rfl⟩ | ⟨-, hos₂⟩ := binding_cases h₂
      · exact absurd rfl (c.fresh mo₁ _ hne₁ hos₁)
      · exact h.inj c.space hos₁ hos₂

theorem writable (h : s.Distinct i) (hro : o'.readOnly = false) (hw : s.Writable i mo') : s'.Writable i mo' := by
  obtain ⟨b, os', o₁, hb, hos', ho₁, hro₁⟩ := hw
  obtain rfl := some.inj (c.space.symm.trans hb)
  by_cases hne : mo' = mo
  · subst hne
    refine ⟨a', k, _, c.space', c.objects_self, c.heap_self, ?_⟩
    split
    · exact hro
    · exact hro
  · exact ⟨a', os', o₁, c.space', (c.objects_other hne).trans hos', (c.heap_other h hne hos').trans ho₁, hro₁⟩

end Changes

theorem Distinct.write (h : s.Distinct i) (hw : s.Writable i mo) (f : C → C) : ∃ s', s.write i mo f = some s' ∧
      (∀ mo', s'.read i mo' = if mo' = mo then (s.read i mo).map f else s.read i mo') ∧ s'.Distinct i ∧
      ∀ mo', s.Writable i mo' → s'.Writable i mo' := by
  obtain ⟨a, os, o, ha, hos, ho, hro⟩ := hw
  obtain ⟨a', heap, k, o', hget, hobjects, hk, hcontents, hro', hlen, hheap, hfresh⟩ := h.getWriteable ha hos ho hro
  have hi : i < s.spaces.length := (List.getElem?_eq_some_iff.1 ha).1
  have hwrite : ∃ s', s.write i mo f = some s' ∧ s'.spaces = s.spaces.set i a' ∧
      s'.heap = (if mo.isSharedConcrete then heap else heap.modify k fun o => { o with contents := f o.contents }) ∧
      s'.host = (if mo.isSharedConcrete then update s.host mo (f (s.host mo)) else s.host) := by
    refine ⟨⟨s.spaces.set i a', _, _⟩, ?_, rfl, rfl, rfl⟩
    unfold System.write
    rw [ha]
    show (a.objects mo).bind _ = _
    rw [hos]
    show (a.getWriteable s.heap mo os).bind _ = _
    rw [hget]
    rfl
  obtain ⟨s', hwrite, hspaces, hs'heap, hs'host⟩ := hwrite
  have ha' : s'.spaces[i]? = some a' := by rw [hspaces, List.getElem?_set_self hi]
  have c : Changes s s' i mo f a a' os k o o' heap :=
    ⟨ha, hos, ho, ha', hobjects, hk, hcontents, hlen, hheap, hfresh, hs'heap, hs'host⟩
  exact ⟨s', hwrite, c.read h, c.distinct h, fun _ => c.writable h hro'⟩

theorem Distinct.touch (h : s.Distinct i) (hw : s.Writable i mo) (c : C) :
    ∃ s', s.touch i mo c = some s' ∧ (∀ mo', s'.read i mo' = if mo' = mo then some c else s.read i mo') ∧
      s'.Distinct i ∧ ∀ mo', s.Writable i mo' → s'.Writable i mo' := by
  obtain ⟨a, os, o, ha, hos, ho, hro⟩ := hw
  have htouch : ∃ s', s.touch i mo c = some s' ∧ s'.spaces = s.spaces ∧
      s'.heap = (if mo.isSharedConcrete then s.heap else s.heap.modify os fun o => { o with contents := c }) ∧
      s'.host = (if mo.isSharedConcrete then update s.host mo c else s.host) := by
    refine ⟨⟨s.spaces, if _ then _ else _, if _ then _ else _⟩, ?_, rfl, rfl, rfl⟩
    unfold System.touch
    rw [ha]
    show (a.objects mo).bind _ = _
    rw [hos]
    rfl
  obtain ⟨s', htouch, hspaces, hs'heap, hs'host⟩ := htouch
  have hread : s.read i mo = some (if mo.isSharedConcrete then s.host mo else o.contents) := by
    rw [read_eq ha hos, ho]
    cases mo.isSharedConcrete <;> rfl
  have hobjects : a.objects = update a.objects mo (some os) := by rw [← hos, update_eq_self]
  have hfresh : ∀ mo' os', mo' ≠ mo → a.objects mo' = some os' → os' ≠ os := fun mo' os' hne hos' heq =>
    hne (h.inj ha hos (heq ▸ hos'))
  have changes : Changes s s' i mo (fun _ => c) a a os os o o s.heap :=
    ⟨ha, hos, ho, hspaces ▸ ha, hobjects, ho, rfl, le_rfl, fun _ _ => rfl, hfresh, hs'heap, hs'host⟩
  refine ⟨s', htouch, fun mo' => ?_, changes.distinct h, fun _ => changes.writable h hro⟩
  rw [changes.read h mo', hread]
  rfl

/-! ## Contents of object states

The object state that is bound, whether its bytes are in use or those of the host memory are.
-/

def contents (s : System C) (i : Nat) (mo : MemoryObject) : Option C := do
  let a ← s.spaces[i]?
  let os ← a.findObject mo
  s.heap[os]?.map (·.contents)

/-- The contents are replaced in the object state to write to. -/
def replaceContents (s : System C) (i : Nat) (mo : MemoryObject) (c : C) : Option (System C) := do
  let a ← s.spaces[i]?
  let os ← a.findObject mo
  let r ← a.getWriteable s.heap mo os
  some { s with spaces := s.spaces.set i r.1, heap := r.2.1.modify r.2.2 fun o => { o with contents := c } }

/-- The object states that are bound in any of the spaces are there, each for one memory object. -/
structure Tagged (s : System C) : Prop where
  alloc : ∀ {i : Nat} {a : AddressSpace} {mo os}, s.spaces[i]? = some a → a.objects mo = some os → os < s.heap.length
  inj : ∀ {i j : Nat} {a b : AddressSpace} {mo mo' os}, s.spaces[i]? = some a → s.spaces[j]? = some b →
    a.objects mo = some os → b.objects mo' = some os → mo' = mo

theorem contents_eq (ha : s.spaces[i]? = some a) (mo : MemoryObject) :
    s.contents i mo = (a.objects mo).bind fun os => s.heap[os]?.map (·.contents) := by
  unfold contents
  rw [ha]
  rfl

theorem replaceContents_cases {c : C} (h : s.Tagged)
    (hs : s.replaceContents i mo c = some s') : ∃ (a : AddressSpace) (k : Nat) (o : OwnedState C) (heap : ObjectHeap C)
      (a' : AddressSpace), s.spaces[i]? = some a ∧ s'.spaces = s.spaces.set i a' ∧
      a'.objects = update a.objects mo (some k) ∧ heap[k]? = some o ∧ s.heap.length ≤ heap.length ∧
      (∀ os < s.heap.length, heap[os]? = s.heap[os]?) ∧ s'.heap = heap.modify k (fun o => { o with contents := c }) ∧
      ∀ (j : Nat) (b : AddressSpace) (mo' os), s.spaces[j]? = some b → mo' ≠ mo → b.objects mo' = some os → os ≠ k := by
  obtain ⟨a, ha, hs⟩ := bind_eq_some_iff.1 hs
  obtain ⟨os, hos, hs⟩ := bind_eq_some_iff.1 hs
  obtain ⟨r, hr, hs⟩ := bind_eq_some_iff.1 hs
  cases hs
  obtain ⟨o, ho, ⟨-, rfl⟩ | ⟨-, rfl⟩⟩ := AddressSpace.getWriteable_cases hr
  · refine ⟨a, os, o, s.heap, a, ha, rfl, ?_, ho, le_rfl, fun _ _ => rfl, rfl, fun j b mo' os' hb hne hos' => ?_⟩
    · rw [← show a.objects mo = some os from hos, update_eq_self]
    · rintro rfl
      exact hne (h.inj ha hb hos hos')
  · refine ⟨a, s.heap.length, ⟨a.cowKey, false, o.contents⟩, _, _, ha, rfl, rfl, List.getElem?_concat_length, ?_,
      fun j hj => List.getElem?_append_left hj, rfl, fun j b mo' os' hb _ hos' => ?_⟩
    · grind
    · exact Nat.ne_of_lt (h.alloc hb hos')

theorem Tagged.replaceContents {c : C} (h : s.Tagged) (hs : s.replaceContents i mo c = some s') : s'.Tagged ∧
      (∀ mo', s'.contents i mo' = if mo' = mo then some c else s.contents i mo') ∧
      ∀ j mo', j ≠ i → mo' ≠ mo → s'.contents j mo' = s.contents j mo' := by
  obtain ⟨a, k, o, heap, a', ha, hspaces, hobjects, hk, hlen, hheap, hs'heap, hfresh⟩ := replaceContents_cases h hs
  have hi : i < s.spaces.length := (List.getElem?_eq_some_iff.1 ha).1
  have ha' : s'.spaces[i]? = some a' := by rw [hspaces, List.getElem?_set_self hi]
  have hlen' : s'.heap.length = heap.length := by rw [hs'heap, List.length_modify]
  -- A binding of the new spaces is the new one or an old one.
  have hbind : ∀ {j : Nat} {b : AddressSpace} {mo' os}, s'.spaces[j]? = some b → b.objects mo' = some os →
      (j = i ∧ mo' = mo ∧ os = k) ∨ (∃ b₀, s.spaces[j]? = some b₀ ∧ b₀.objects mo' = some os ∧ (j = i → mo' ≠ mo)) := by
    intro j b mo' os hb hos
    by_cases hji : j = i
    · subst hji
      obtain rfl := some.inj (ha'.symm.trans hb)
      rw [hobjects] at hos
      obtain ⟨hmo, hk⟩ | ⟨hmo, hos⟩ := binding_cases hos
      · exact .inl ⟨rfl, hmo, hk⟩
      · exact .inr ⟨a, ha, hos, fun _ => hmo⟩
    · grind
  have hother : ∀ (j : Nat) (b : AddressSpace) (mo' os), s.spaces[j]? = some b → mo' ≠ mo → b.objects mo' = some os →
      s'.heap[os]? = s.heap[os]? := by
    intro j b mo' os hb hne hos
    rw [hs'heap, List.getElem?_modify_ne _ _ (Ne.symm (hfresh j b mo' os hb hne hos))]
    exact hheap os (h.alloc hb hos)
  refine ⟨⟨?_, ?_⟩, fun mo' => ?_, fun j mo' hji hne => ?_⟩
  · intro j b mo' os hb hos
    rw [hlen']
    obtain ⟨-, -, rfl⟩ | ⟨b₀, hb₀, hos₀, -⟩ := hbind hb hos
    · exact (List.getElem?_eq_some_iff.1 hk).1
    · exact (h.alloc hb₀ hos₀).trans_le hlen
  · intro j j' b b' mo₁ mo₂ os hb hb' h₁ h₂
    obtain ⟨-, rfl, rfl⟩ | ⟨b₀, hb₀, h₁₀, -⟩ := hbind hb h₁
    · obtain ⟨-, rfl, -⟩ | ⟨b₀, hb₀, h₂₀, -⟩ := hbind hb' h₂
      · rfl
      · grind
    · obtain ⟨-, rfl, rfl⟩ | ⟨b₁, hb₁, h₂₀, -⟩ := hbind hb' h₂
      · grind
      · exact h.inj hb₀ hb₁ h₁₀ h₂₀
  · rw [contents_eq ha', contents_eq ha, hobjects]
    by_cases hne : mo' = mo
    · grind
    · rw [if_neg hne, update_of_ne hne]
      cases hos : a.objects mo' with
      | none => rfl
      | some os => rw [bind_some, bind_some, hother i a mo' os ha hne hos]
  · unfold contents
    rw [hspaces, List.getElem?_set_ne (Ne.symm hji)]
    cases hb : s.spaces[j]? with
    | none => rfl
    | some b =>
      show (b.objects mo').bind _ = (b.objects mo').bind _
      cases hos : b.objects mo' with
      | none => rfl
      | some os => rw [bind_some, bind_some, hother j b mo' os hb hne hos]

end S2E.Klee.System
