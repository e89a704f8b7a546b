import S2E.Qemu.StateSwitch.Machine

/-!
# Copy on write under a switch

`getWriteable` moves no byte: what a state has stored stays (`Refreshes`), also where `s2e_tlb_table` is made to point to
the copy (`Alike`). A store to an object state that the space owns is seen by no other state (`storeAt_stored`). So
`saveObject` changes what one state has stored for one object, and nothing else (`Saves`).
-/

namespace S2E.Qemu.StateSwitch
open S2E.Klee Function List Option

namespace Machine

variable {l : Layout} {m m' m'' : Machine} {i j o os os' : Nat} {mo mo' : MemoryObject} {s : S2EExecutionState}
  {c : Contents}

theorem findObject_eq_some : m.findObject i mo = some o ↔ m.Binds i mo o := bind_eq_some_iff

theorem Owns.binds (h : m.Owns i mo o) : m.Binds i mo o :=
  let ⟨a, ha, ho, _⟩ := h
  ⟨a, ha, ho⟩

theorem Binds.stored (h : m.Binds i mo o) : m.stored i mo = m.bytesAt o := by
  unfold Machine.stored
  rw [findObject_eq_some.2 h]
  rfl

theorem Sound.lt (h : m.Sound) (hb : m.Binds i mo o) : o < m.heap.length := by
  obtain ⟨a, ha, ho⟩ := hb
  have := h.owned.alloc ha ho
  rwa [owners, length_map] at this

/-- An object state that a space owns is bound in no other, and there to one object only. -/
theorem Sound.sole (h : m.Sound) (ho : m.Owns i mo o) (hb : m.Binds j mo' o) : j = i ∧ mo' = mo := by
  obtain ⟨a, ha, hao, hk⟩ := ho
  obtain ⟨b, hb, hbo⟩ := hb
  obtain rfl := h.owned.sole ha hb hao hbo hk
  exact ⟨rfl, h.injective ⟨b, hb, hbo⟩ ⟨a, ha, hao⟩⟩

/-- What is stored depends on the bindings and on the bytes of what is bound. -/
theorem stored_congr (hf : m'.findObject j mo = m.findObject j mo) (hb : ∀ o, m.Binds j mo o → m'.bytesAt o = m.bytesAt o) :
    m'.stored j mo = m.stored j mo := by
  unfold Machine.stored
  rw [hf]
  cases h : m.findObject j mo with
  | none => rfl
  | some o => exact hb o (findObject_eq_some.1 h)

/-! ## Steps that touch no byte -/

/-- The machines differ in pointers of `s2e_tlb_table` at most. -/
structure Alike (m m' : Machine) : Prop where
  spaces : m'.spaces = m.spaces
  states : m'.states = m.states
  owners : m'.owners = m.owners
  bytesAt : ∀ o, m'.bytesAt o = m.bytesAt o
  host : ∀ mo, (m'.host mo).bytes = (m.host mo).bytes

theorem Alike.refl (m : Machine) : Alike m m := ⟨rfl, rfl, rfl, fun _ => rfl, fun _ => rfl⟩

theorem bytesAt_modify (heap : ObjectHeap Contents) (f : Contents → Contents) (n k : Nat) :
    ((heap.modify n fun os => { os with contents := f os.contents })[k]?).map (·.contents.bytes) =
      if k = n then heap[k]?.map fun os => (f os.contents).bytes else heap[k]?.map (·.contents.bytes) := by
  by_cases h : k = n
  · grind
  · rw [if_neg h, List.getElem?_modify_ne _ _ (Ne.symm h)]

theorem addressSpaceChange_alike {old new : Nat} (h : m.addressSpaceChange l i mo old new = some m') : Alike m m' := by
  unfold addressSpaceChange at h
  split at h
  · obtain ⟨s, -, h⟩ := bind_eq_some_iff.1 h
    split at h
    · cases h
      refine ⟨rfl, rfl, rfl, fun _ => rfl, fun mo' => ?_⟩
      show (update m.host _ _ mo').bytes = _
      by_cases hmo : mo' = l.cpuSystemState
      · subst hmo
        rw [update_self]
        rfl
      · rw [update_of_ne hmo]
    · cases h
      refine ⟨rfl, rfl, System.owners_modify _ _ _, fun k => ?_, fun _ => rfl⟩
      show Option.map _ _ = Option.map _ _
      rw [bytesAt_modify]
      split <;> rfl
  · cases h
    exact .refl m

/-! ## A new object state -/

/-- A new object state is bound to `mo` in space `i`, which owns it. -/
structure NewObject (i : Nat) (a : AddressSpace) (mo : MemoryObject) (m m' : Machine) : Prop where
  at_i : m.spaces[i]? = some a
  spaces : m'.spaces = m.spaces.set i (a.replace mo m.heap.length)
  owners : m'.owners = m.owners ++ [a.cowKey]
  states : m'.states = m.states
  bytesAt : ∀ k < m.heap.length, m'.bytesAt k = m.bytesAt k

namespace NewObject

variable {a : AddressSpace}

variable (h : NewObject i a mo m m')
include h

theorem binds_new : m'.Binds i mo m.heap.length := by
  have hi := (List.getElem?_eq_some_iff.1 h.at_i).1
  refine ⟨a.replace mo m.heap.length, ?_, update_self _ _ _⟩
  rw [h.spaces, List.getElem?_set_self hi]

theorem owns_new : m'.Owns i mo m.heap.length := by
  have hi := (List.getElem?_eq_some_iff.1 h.at_i).1
  refine ⟨a.replace mo m.heap.length, ?_, update_self _ _ _, ?_⟩
  · rw [h.spaces, List.getElem?_set_self hi]
  · rw [h.owners, List.getElem?_append_right (by simp [Machine.owners])]
    simp [Machine.owners, AddressSpace.replace]

section

variable (hne : j ≠ i ∨ mo' ≠ mo)

include hne

/-- The other bindings are as before, also what the spaces own by them. -/
theorem space_of_ne {b : AddressSpace} (hb : m.spaces[j]? = some b) :
    ∃ b', m'.spaces[j]? = some b' ∧ b'.objects mo' = b.objects mo' ∧ b'.cowKey = b.cowKey := by
  rw [h.spaces]
  by_cases hj : j = i
  · subst hj
    have hmo : mo' ≠ mo := hne.resolve_left fun hn => hn rfl
    rw [h.at_i] at hb
    cases hb
    exact ⟨_, List.getElem?_set_self (List.getElem?_eq_some_iff.1 h.at_i).1, update_of_ne hmo _ _, rfl⟩
  · exact ⟨b, (List.getElem?_set_ne (Ne.symm hj)).trans hb, rfl, rfl⟩

theorem binds (hb : m.Binds j mo' o) : m'.Binds j mo' o := by
  obtain ⟨b, hb, ho⟩ := hb
  obtain ⟨b', hb', hobj, -⟩ := h.space_of_ne hne hb
  exact ⟨b', hb', hobj.trans ho⟩

theorem owns (hb : m.Owns j mo' o) : m'.Owns j mo' o := by
  obtain ⟨b, hb, ho, hk⟩ := hb
  obtain ⟨b', hb', hobj, hkey⟩ := h.space_of_ne hne hb
  refine ⟨b', hb', hobj.trans ho, ?_⟩
  rw [h.owners, hkey, List.getElem?_append_left (List.getElem?_eq_some_iff.1 hk).1]
  exact hk

end

theorem binds_cases (hb : m'.Binds j mo' o) :
    (j = i ∧ mo' = mo ∧ o = m.heap.length) ∨ ((j ≠ i ∨ mo' ≠ mo) ∧ m.Binds j mo' o) := by
  obtain ⟨b, hb, ho⟩ := hb
  rw [h.spaces] at hb
  rcases Owned.set_cases hb with ⟨rfl, rfl⟩ | ⟨hj, hb⟩
  · by_cases hmo : mo' = mo
    · subst hmo
      simp only [AddressSpace.replace, update_self, some.injEq] at ho
      exact .inl ⟨rfl, rfl, ho.symm⟩
    · simp only [AddressSpace.replace, update_of_ne hmo] at ho
      exact .inr ⟨.inr hmo, a, h.at_i, ho⟩
  · exact .inr ⟨.inl hj, b, hb, ho⟩

theorem sound (hs : m.Sound) : m'.Sound where
  length := by
    rw [h.states, h.spaces, length_set]
    exact hs.length
  owned := by
    have := Owned.replace hs.owned h.at_i mo
    rw [Machine.owners, length_map] at this
    rw [h.spaces, h.owners]
    exact this
  injective h₁ h₂ := by
    rcases h.binds_cases h₁ with ⟨rfl, rfl, rfl⟩ | ⟨-, h₁⟩
    · rcases h.binds_cases h₂ with ⟨-, rfl, -⟩ | ⟨-, h₂⟩
      · rfl
      · exact absurd (hs.lt h₂) (lt_irrefl _)
    · rcases h.binds_cases h₂ with ⟨-, -, rfl⟩ | ⟨-, h₂⟩
      · exact absurd (hs.lt h₁) (lt_irrefl _)
      · exact hs.injective h₁ h₂

theorem keys : m'.spaces.map (·.cowKey) = m.spaces.map (·.cowKey) := by
  obtain ⟨hi, ha⟩ := List.getElem?_eq_some_iff.1 h.at_i
  have hlt : i < (m.spaces.map (·.cowKey)).length := by simpa using hi
  have hget : (m.spaces.map (·.cowKey))[i] = a.cowKey := by rw [getElem_map, ha]
  rw [h.spaces, map_set]
  show (m.spaces.map (·.cowKey)).set i a.cowKey = _
  rw [← hget]
  exact set_getElem_self hlt

theorem stored (hs : m.Sound) (hne : j ≠ i ∨ mo' ≠ mo) : m'.stored j mo' = m.stored j mo' := by
  refine stored_congr (ext fun o => ?_) fun o ho => h.bytesAt o (hs.lt ho)
  rw [findObject_eq_some, findObject_eq_some]
  constructor
  · intro hb
    rcases h.binds_cases hb with ⟨rfl, rfl, -⟩ | ⟨-, hb⟩
    · simp at hne
    · exact hb
  · exact h.binds hne

end NewObject

/-! ## `getWriteable` -/

/-- Calls of `getWriteable`: no byte changes, and what is owned stays where it is. -/
structure Refreshes (m m' : Machine) : Prop where
  sound : m'.Sound
  states : m'.states = m.states
  keys : m'.spaces.map (·.cowKey) = m.spaces.map (·.cowKey)
  host : ∀ mo, (m'.host mo).bytes = (m.host mo).bytes
  stored : ∀ j mo, m'.stored j mo = m.stored j mo
  owns : ∀ {j mo o}, m.Owns j mo o → m'.Owns j mo o

theorem Refreshes.trans (h₁ : Refreshes m m') (h₂ : Refreshes m' m'') : Refreshes m m'' where
  sound := h₂.sound
  states := h₂.states.trans h₁.states
  keys := h₂.keys.trans h₁.keys
  host mo := (h₂.host mo).trans (h₁.host mo)
  stored j mo := (h₂.stored j mo).trans (h₁.stored j mo)
  owns ho := h₂.owns (h₁.owns ho)

/-- One call, for object `mo` of state `i`: the other bindings stay. -/
structure Rebinds (i : Nat) (mo : MemoryObject) (m m' : Machine) : Prop extends Refreshes m m' where
  binds : ∀ {j mo' o}, j ≠ i ∨ mo' ≠ mo → m.Binds j mo' o → m'.Binds j mo' o

/-- Nothing changes, or the object state bound was not owned and a copy takes its place. -/
theorem getWriteable_cases (hb : m.Binds i mo os) (hw : m.getWriteable l i mo os = some (m', os')) :
    (m' = m ∧ os' = os ∧ m.Owns i mo os) ∨
    (¬ m.Owns i mo os ∧ os' = m.heap.length ∧ (∃ a, NewObject i a mo m m') ∧ m'.bytesAt os' = m.bytesAt os ∧
      ∀ mo', (m'.host mo').bytes = (m.host mo').bytes) := by
  obtain ⟨a, ha, hao⟩ := hb
  unfold getWriteable at hw
  rw [ha, bind_eq_bind, bind_some] at hw
  obtain ⟨r, hr, hw⟩ := bind_eq_some_iff.1 hw
  obtain ⟨os₀, hos, ⟨hown, rfl⟩ | ⟨hown, rfl⟩⟩ := AddressSpace.getWriteable_cases hr
  · left
    rw [if_pos rfl] at hw
    cases hw
    refine ⟨rfl, rfl, a, ha, hao, ?_⟩
    rw [owners, List.getElem?_map, hos, ← hown]
    rfl
  · right
    have hlt := (List.getElem?_eq_some_iff.1 hos).1
    rw [if_neg (Nat.ne_of_gt hlt)] at hw
    obtain ⟨m₁, hm₁, hw⟩ := bind_eq_some_iff.1 hw
    cases hw
    have hal := addressSpaceChange_alike hm₁
    have hold : ∀ k < m.heap.length, m₁.bytesAt k = m.bytesAt k := by
      intro k hk
      rw [hal.bytesAt]
      show Option.map _ _ = Option.map _ _
      rw [List.getElem?_append_left hk]
    refine ⟨?_, rfl, ⟨a, ha, by rw [← hal.spaces], ?_, hal.states, hold⟩, ?_, hal.host⟩
    · rintro ⟨a', ha', -, hk⟩
      rw [ha] at ha'
      cases ha'
      rw [owners, List.getElem?_map, hos] at hk
      exact hown (some.inj hk)
    · show m₁.owners = _
      rw [hal.owners]
      exact map_append
    · show m₁.bytesAt _ = _
      rw [hal.bytesAt, bytesAt, bytesAt, hos]
      show Option.map _ (m.heap ++ _)[_]? = _
      rw [List.getElem?_append_right le_rfl, Nat.sub_self]
      rfl

theorem getWriteable_spec (h : m.Sound) (hb : m.Binds i mo os) (hw : m.getWriteable l i mo os = some (m', os')) :
    Rebinds i mo m m' ∧ m'.Owns i mo os' := by
  rcases getWriteable_cases hb hw with ⟨rfl, rfl, hown⟩ | ⟨hown, rfl, ⟨a, hnew⟩, hbytes, hhost⟩
  · exact ⟨⟨⟨h, rfl, rfl, fun _ => rfl, fun _ _ => rfl, id⟩, fun _ => id⟩, hown⟩
  · refine ⟨⟨⟨hnew.sound h, hnew.states, hnew.keys, hhost, ?_, ?_⟩, fun hne => hnew.binds hne⟩, hnew.owns_new⟩
    · intro j mo'
      by_cases hne : j ≠ i ∨ mo' ≠ mo
      · exact hnew.stored h hne
      · obtain ⟨rfl, rfl⟩ : j = i ∧ mo' = mo := by simpa using hne
        rw [hnew.binds_new.stored, hb.stored, hbytes]
    · intro j mo' o ho
      refine hnew.owns ?_ ho
      by_contra hne
      obtain ⟨rfl, rfl⟩ : j = i ∧ mo' = mo := by simpa using hne
      obtain ⟨b, hb', ho', hk⟩ := ho
      obtain ⟨a', ha', hos⟩ := hb
      rw [hb'] at ha'
      cases ha'
      rw [ho'] at hos
      cases hos
      exact hown ⟨b, hb', ho', hk⟩

/-! ## A store to an object state that the space owns -/

theorem storeAt_alike_owners (m : Machine) (o : Nat) (c : Contents) : (m.storeAt o c).owners = m.owners :=
  System.owners_modify m.heap o fun _ => c

theorem storeAt_bytesAt (m : Machine) (o : Nat) (c : Contents) (k : Nat) :
    (m.storeAt o c).bytesAt k = if k = o then (m.bytesAt k).map fun _ => c.bytes else m.bytesAt k := by
  show Option.map _ (modify _ _ _)[k]? = _
  rw [bytesAt_modify m.heap (fun _ => c) o k, bytesAt, Option.map_map]
  rfl

theorem storeAt_owns : (m.storeAt o c).Owns j mo os ↔ m.Owns j mo os := by
  unfold Owns
  rw [storeAt_alike_owners]
  rfl

theorem storeAt_sound (h : m.Sound) : (m.storeAt o c).Sound where
  length := h.length
  owned := by
    rw [storeAt_alike_owners]
    exact h.owned
  injective h₁ h₂ := h.injective h₁ h₂

theorem storeAt_stored_self (h : m.Sound) (ho : m.Owns i mo o) : (m.storeAt o c).stored i mo = some c.bytes := by
  have hb : (m.storeAt o c).Binds i mo o := ho.binds
  rw [hb.stored, storeAt_bytesAt, if_pos rfl, bytesAt, List.getElem?_eq_getElem (h.lt ho.binds)]
  rfl

theorem storeAt_stored (h : m.Sound) (ho : m.Owns i mo o) (hne : j ≠ i ∨ mo' ≠ mo) :
    (m.storeAt o c).stored j mo' = m.stored j mo' := by
  refine stored_congr rfl fun k hk => ?_
  rw [storeAt_bytesAt, if_neg]
  rintro rfl
  obtain ⟨rfl, rfl⟩ := h.sole ho hk
  simp at hne

/-! ## `saveObject`, `restoreObject` -/

/-- The native bytes of some objects are in the stores of state `i`. -/
structure Saves (i : Nat) (objects : MemoryObject → Prop) (m m' : Machine) : Prop where
  sound : m'.Sound
  states : m'.states = m.states
  host : ∀ mo, (m'.host mo).bytes = (m.host mo).bytes
  owns : ∀ {j mo o}, m.Owns j mo o → m'.Owns j mo o
  saved : ∀ {mo}, objects mo → m'.stored i mo = some (m.host mo).bytes
  stored : ∀ {j mo}, j ≠ i ∨ ¬ objects mo → m'.stored j mo = m.stored j mo

theorem saveObject_spec (h : m.Sound) (hs : m.saveObject l i mo = some m') : Saves i (· = mo) m m' := by
  obtain ⟨os, hos, hs⟩ := bind_eq_some_iff.1 hs
  obtain ⟨⟨m₁, o⟩, hr, hs⟩ := bind_eq_some_iff.1 hs
  cases hs
  obtain ⟨hre, hown⟩ := getWriteable_spec h (findObject_eq_some.1 hos) hr
  refine ⟨storeAt_sound hre.sound, hre.states, hre.host, fun ho => storeAt_owns.2 (hre.owns ho), ?_, ?_⟩
  · rintro mo rfl
    rw [storeAt_stored_self hre.sound hown, hre.host]
  · intro j mo' hne
    rw [storeAt_stored hre.sound hown hne, hre.stored]

/-- The loop of `doStateFork` over the other objects. -/
theorem saveObjects_spec : ∀ (L : List MemoryObject) {m : Machine}, m.Sound →
    L.foldlM (fun m mo => m.saveObject l i mo) m = some m' → Saves i (· ∈ L) m m'
  | [], m, h, hs => by
    cases hs
    exact ⟨h, rfl, fun _ => rfl, id, fun h => (nomatch h), fun _ => rfl⟩
  | mo :: L, m, h, hs => by
    obtain ⟨m₁, h₁, hs⟩ := bind_eq_some_iff.1 hs
    have hfst := saveObject_spec h h₁
    have hrest := saveObjects_spec L hfst.sound hs
    refine ⟨hrest.sound, hrest.states.trans hfst.states, fun mo' => (hrest.host mo').trans (hfst.host mo'),
      fun ho => hrest.owns (hfst.owns ho), ?_, ?_⟩
    · intro mo' hmo
      by_cases hL : mo' ∈ L
      · rw [hrest.saved hL, hfst.host]
      · rw [hrest.stored (.inr hL), hfst.saved ((mem_cons.1 hmo).resolve_right hL)]
    · intro j mo' hne
      have hne' : (j ≠ i ∨ ¬ mo' ∈ L) ∧ (j ≠ i ∨ ¬ mo' = mo) := by grind
      rw [hrest.stored hne'.1, hfst.stored hne'.2]

end Machine

end S2E.Qemu.StateSwitch
