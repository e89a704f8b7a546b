import S2E.Qemu.StateSwitch.Switch

/-!
# `clone`, `doStateFork`

`clone` copies the address space, so that neither side owns what it reaches, and then takes the CPU structure and the dirty
mask for each side (`Clones`). The states that a fork makes are alike (`Copied`) until `doStateFork` has saved the native
memory for each of them (`SavesNew`).
-/

namespace S2E.Qemu.StateSwitch
open S2E.Klee List
open Option (bind_eq_some_iff)

namespace Machine

variable {l : Layout} {m m' m'' : Machine} {i j o os os' : Nat} {mo mo' : MemoryObject} {s : S2EExecutionState}
  {c : Contents}

/-! ## `clone` -/

section Clone

variable {a : AddressSpace}

theorem withCopy_findObject (ha : m.spaces[i]? = some a) (j : Nat) (mo : MemoryObject) :
    (m.withCopy l i a s).findObject j mo = m.findObject (if j = m.spaces.length then i else j) mo :=
  Owned.copy_objects ha j mo

theorem withCopy_binds (ha : m.spaces[i]? = some a) :
    (m.withCopy l i a s).Binds j mo o ↔ m.Binds (if j = m.spaces.length then i else j) mo o := by
  rw [← findObject_eq_some, withCopy_findObject ha, findObject_eq_some]

theorem withCopy_stored (ha : m.spaces[i]? = some a) (j : Nat) (mo : MemoryObject) :
    (m.withCopy l i a s).stored j mo = m.stored (if j = m.spaces.length then i else j) mo := by
  unfold stored
  rw [withCopy_findObject ha]
  rfl

theorem withCopy_sound (h : m.Sound) (ha : m.spaces[i]? = some a) (hwrap : a.cowKey.toNat + 1 < 2 ^ 32) :
    (m.withCopy l i a s).Sound where
  length := by
    show (m.states ++ [s]).length = (m.spaces.set i a.copy.1 ++ [a.copy.2]).length
    rw [length_append, length_append, length_set, h.length, length_singleton, length_singleton]
  owned := Owned.copy h.owned ha hwrap
  injective h₁ h₂ := h.injective ((withCopy_binds ha).1 h₁) ((withCopy_binds ha).1 h₂)

theorem withCopy_owns (hji : j ≠ i) (ho : m.Owns j mo o) : (m.withCopy l i a s).Owns j mo o := by
  obtain ⟨b, hb, hbo, hk⟩ := ho
  have hj := (List.getElem?_eq_some_iff.1 hb).1
  refine ⟨b, ?_, hbo, hk⟩
  show (m.spaces.set i a.copy.1 ++ [a.copy.2])[j]? = _
  rw [List.getElem?_append_left (by rwa [length_set]), List.getElem?_set_ne (Ne.symm hji)]
  exact hb

/-- No key is above the bound. -/
def KeysBelow (m : Machine) (bound : Nat) : Prop := ∀ k ∈ m.spaces.map (·.cowKey), k.toNat ≤ bound

theorem Refreshes.keysBelow {bound : Nat} (h : Refreshes m m') (hk : m.KeysBelow bound) : m'.KeysBelow bound := by
  unfold KeysBelow
  rw [h.keys]
  exact hk

theorem withCopy_keysBelow {bound : Nat} (ha : m.spaces[i]? = some a) (hk : m.KeysBelow bound) :
    (m.withCopy l i a s).KeysBelow (bound + 1) := by
  have hle : a.cowKey.toNat ≤ bound := hk _ (mem_map_of_mem (mem_of_getElem? ha))
  have hnext : (a.cowKey + 1).toNat ≤ bound + 1 := by grind
  intro k hk'
  obtain ⟨b, hb, rfl⟩ := mem_map.1 hk'
  rcases mem_append.1 hb with hb | hb
  · rcases mem_or_eq_of_mem_set hb with hb | rfl
    · exact (hk _ (mem_map_of_mem hb)).trans (Nat.le_succ _)
    · exact hnext
  · rw [mem_singleton.1 hb]
    exact hnext

/-- What `clone` makes of state `i` and its copy `n`. -/
structure Clones (l : Layout) (i : Nat) (s : S2EExecutionState) (m m' : Machine) (n : Nat) : Prop where
  fresh : n = m.states.length
  sound : m'.Sound
  length : m'.states.length = m.states.length + 1
  states : ∀ {j}, j ≠ i → j ≠ n → m'.states[j]? = m.states[j]?
  state : ∀ {j}, j = i ∨ j = n → ∃ t, m'.states[j]? = some t ∧ Cached l m' j t ∧ t.active = s.active ∧
    t.runningConcrete = s.runningConcrete
  owns : ∀ {j mo o}, j ≠ i → m.Owns j mo o → m'.Owns j mo o
  stored : ∀ j mo, m'.stored j mo = m.stored (if j = n then i else j) mo
  keys : ∀ {bound}, m.KeysBelow bound → bound + 1 < 2 ^ 32 → m'.KeysBelow (bound + 1)

theorem clone_spec {n : Nat} (h : m.Sound) (hs : m.states[i]? = some s) (hc : Cached l m i s)
    (hwrap : ∀ {a : AddressSpace}, m.spaces[i]? = some a → a.cowKey.toNat + 1 < 2 ^ 32) (hm : m.clone l i = some (m', n)) :
    Clones l i s m m' n := by
  unfold clone at hm
  rw [hs, Option.bind_eq_bind, Option.bind_some] at hm
  obtain ⟨a, ha, hm⟩ := bind_eq_some_iff.1 hm
  split at hm
  · have hi : i < m.spaces.length := (List.getElem?_eq_some_iff.1 ha).1
    have hin : i ≠ m.spaces.length := Nat.ne_of_lt hi
    have hrs : l.cpuSystemState ≠ l.cpuRegistersState := Layout.cpu_ne_registers l
    have hdr : l.dirtyMask ≠ l.cpuRegistersState := Layout.dirty_ne_registers l
    have hds : l.dirtyMask ≠ l.cpuSystemState := l.dirty_ne_cpu
    -- What both sides bind before the six calls.
    have hbind : ∀ {mo o}, m.Owns i mo o →
        (m.withCopy l i a s).Binds m.spaces.length mo o ∧ (m.withCopy l i a s).Binds i mo o := by
      intro mo o ho
      rw [withCopy_binds ha, withCopy_binds ha, if_pos rfl, if_neg hin]
      exact ⟨ho.binds, ho.binds⟩
    obtain ⟨hsysN, hsysI⟩ := hbind hc.system
    obtain ⟨hregN, hregI⟩ := hbind hc.registers
    obtain ⟨hdirN, hdirI⟩ := hbind hc.dirty
    obtain ⟨⟨m₁, r₁⟩, h₁, hm⟩ := bind_eq_some_iff.1 hm
    obtain ⟨R₁, O₁⟩ := getWriteable_spec (withCopy_sound h ha (hwrap ha)) hregN h₁
    obtain ⟨⟨m₂, r₂⟩, h₂, hm⟩ := bind_eq_some_iff.1 hm
    obtain ⟨R₂, O₂⟩ := getWriteable_spec R₁.sound (R₁.binds (.inr hrs) hsysN) h₂
    have B₂ : ∀ {mo o}, (m.withCopy l i a s).Binds i mo o → m₂.Binds i mo o := fun hb =>
      R₂.binds (.inl hin) (R₁.binds (.inl hin) hb)
    obtain ⟨⟨m₃, r₃⟩, h₃, hm⟩ := bind_eq_some_iff.1 hm
    obtain ⟨R₃, O₃⟩ := getWriteable_spec R₂.sound (B₂ hregI) h₃
    obtain ⟨⟨m₄, r₄⟩, h₄, hm⟩ := bind_eq_some_iff.1 hm
    obtain ⟨R₄, O₄⟩ := getWriteable_spec R₃.sound (R₃.binds (.inr hrs) (B₂ hsysI)) h₄
    have hdirN₄ : m₄.Binds m.spaces.length l.dirtyMask s.dirtyMaskObject :=
      R₄.binds (.inl hin.symm) (R₃.binds (.inl hin.symm) (R₂.binds (.inr hds) (R₁.binds (.inr hdr) hdirN)))
    have hdirI₄ : m₄.Binds i l.dirtyMask s.dirtyMaskObject :=
      R₄.binds (.inr hds) (R₃.binds (.inr hdr) (B₂ hdirI))
    obtain ⟨⟨m₅, r₅⟩, h₅, hm⟩ := bind_eq_some_iff.1 hm
    obtain ⟨R₅, O₅⟩ := getWriteable_spec R₄.sound hdirN₄ h₅
    obtain ⟨⟨m₆, r₆⟩, h₆, hm⟩ := bind_eq_some_iff.1 hm
    obtain ⟨R₆, O₆⟩ := getWriteable_spec R₅.sound (R₅.binds (.inl hin) hdirI₄) h₆
    obtain ⟨rfl, rfl⟩ := Prod.mk.inj (Option.some.inj hm)
    have F₄ : Refreshes m₄ m₆ := R₅.toRefreshes.trans R₆.toRefreshes
    have F₂ : Refreshes m₂ m₆ := (R₃.toRefreshes.trans R₄.toRefreshes).trans F₄
    have F₀ : Refreshes (m.withCopy l i a s) m₆ := (R₁.toRefreshes.trans R₂.toRefreshes).trans F₂
    have hlen : m₆.states.length = m.spaces.length + 1 := by
      rw [F₀.states, ← h.length]
      exact length_append
    refine ⟨h.length.symm, (F₀.sound.setState _ _).setState _ _, ?_, ?_, ?_, ?_, ?_, ?_⟩
    · show ((m₆.states.set _ _).set _ _).length = _
      rw [length_set, length_set, hlen, h.length]
    · intro j hji hjn
      show ((m₆.states.set _ _).set _ _)[j]? = _
      rw [List.getElem?_set_ne (Ne.symm hji), List.getElem?_set_ne (Ne.symm hjn), F₀.states]
      show (m.states ++ [s])[j]? = _
      rcases Nat.lt_or_ge j m.states.length with hj | hj
      · exact List.getElem?_append_left hj
      · have hgt : m.states.length < j := lt_of_le_of_ne hj (by rw [h.length]; exact Ne.symm hjn)
        rw [List.getElem?_eq_none hj, List.getElem?_eq_none (by rw [length_append]; exact hgt)]
    · rintro j (rfl | rfl)
      · refine ⟨⟨s.active, s.runningConcrete, r₃, r₄, r₆⟩, ?_, ⟨?_, ?_, O₆⟩, rfl, rfl⟩
        · show ((m₆.states.set _ _).set _ _)[j]? = _
          rw [List.getElem?_set_self (by rw [length_set, hlen]; omega)]
        · exact F₄.owns O₄
        · exact F₄.owns (R₄.owns O₃)
      · refine ⟨⟨s.active, s.runningConcrete, r₁, r₂, r₅⟩, ?_, ⟨?_, ?_, ?_⟩, rfl, rfl⟩
        · show ((m₆.states.set _ _).set _ _)[_]? = _
          rw [List.getElem?_set_ne hin]
          exact List.getElem?_set_self (by rw [hlen]; omega)
        · exact F₂.owns O₂
        · exact F₂.owns (R₂.owns O₁)
        · exact R₆.owns O₅
    · intro j mo o hj ho
      exact F₀.owns (withCopy_owns hj ho)
    · intro j mo
      exact (F₀.stored j mo).trans (withCopy_stored ha j mo)
    · intro bound hk hb
      exact F₀.keysBelow (withCopy_keysBelow ha hk)
  · cases hm

end Clone

end Machine

open Machine

variable {l : Layout} {m m' : Machine}

/-! ## Forks -/

/-- The machine after some copies were made of state `i`: the states of `group` are alike, the others untouched. -/
structure Copied (l : Layout) (i : Nat) (m₀ : Machine) (group : List Nat) (m : Machine) : Prop where
  sound : m.Sound
  cached : ∀ {j : Nat} {s : S2EExecutionState}, m.states[j]? = some s → Cached l m j s
  self : i ∈ group
  member : ∀ {j}, j ∈ group → (∃ s, m.states[j]? = some s ∧ s.active = true ∧ s.runningConcrete = false) ∧
    ∀ mo, m.stored j mo = m₀.stored i mo
  other : ∀ {j}, j ∉ group → m.states[j]? = m₀.states[j]? ∧ ∀ mo, m.stored j mo = m₀.stored j mo

theorem Copied.clone {i es n : Nat} {m₀ : Machine} {group : List Nat} (h : Copied l i m₀ group m) (hes : es ∈ group)
    {s : S2EExecutionState} (hact : s.active = true) (hrun : s.runningConcrete = false)
    (hcl : Clones l es s m m' n) : Copied l i m₀ (group ++ [n]) m' := by
  constructor
  · exact hcl.sound
  · intro j t ht
    by_cases hj : j = es ∨ j = n
    · obtain ⟨t', ht', hc, -⟩ := hcl.state hj
      rw [ht] at ht'
      cases ht'
      exact hc
    · obtain ⟨hj₁, hj₂⟩ := not_or.1 hj
      rw [hcl.states hj₁ hj₂] at ht
      exact (h.cached ht).of_owns (hcl.owns hj₁)
  · exact mem_append_left _ h.self
  · intro j hj
    constructor
    · by_cases hj' : j = es ∨ j = n
      · obtain ⟨t, ht, -, ha, hr⟩ := hcl.state hj'
        exact ⟨t, ht, ha.trans hact, hr.trans hrun⟩
      · obtain ⟨hj₁, hj₂⟩ := not_or.1 hj'
        rw [hcl.states hj₁ hj₂]
        exact (h.member ((mem_append.1 hj).resolve_right fun hn => hj₂ (mem_singleton.1 hn))).1
    · intro mo
      rw [hcl.stored]
      split
      · exact (h.member hes).2 mo
      · rename_i hjn
        exact (h.member ((mem_append.1 hj).resolve_right fun hn => hjn (mem_singleton.1 hn))).2 mo
  · intro j hj
    obtain ⟨hj, hjn⟩ := not_or.1 (mt mem_append.2 hj)
    have hjn : j ≠ n := fun he => hjn (mem_singleton.2 he)
    have hjes : j ≠ es := fun he => hj (he ▸ hes)
    refine ⟨(hcl.states hjes hjn).trans (h.other hj).1, fun mo => ?_⟩
    rw [hcl.stored, if_neg hjn]
    exact (h.other hj).2 mo

theorem Machine.KeysBelow.lt {bound i : Nat} {a : AddressSpace} (h : m.KeysBelow bound) (ha : m.spaces[i]? = some a) :
    a.cowKey.toNat ≤ bound := h _ (mem_map_of_mem (mem_of_getElem? ha))

theorem copies_spec {i : Nat} {m₀ : Machine} : ∀ (choices : List Nat) {m : Machine} {group : List Nat} {bound : Nat}
    {r : Machine × List Nat}, Copied l i m₀ group m → m.KeysBelow bound → bound + choices.length < 2 ^ 32 →
    copies l m group choices = some r → Copied l i m₀ r.2 r.1
  | [], m, group, bound, r, h, _, _, hr => by
    cases hr
    exact h
  | c :: choices, m, group, bound, r, h, hk, hb, hr => by
    rw [length_cons] at hb
    obtain ⟨es, hes, hr⟩ := bind_eq_some_iff.1 hr
    obtain ⟨⟨m', n⟩, hm, hr⟩ := bind_eq_some_iff.1 hr
    have hmem := mem_of_getElem? hes
    obtain ⟨⟨s, hs, hact, hrun⟩, -⟩ := h.member hmem
    have hwrap : ∀ {a : AddressSpace}, m.spaces[es]? = some a → a.cowKey.toNat + 1 < 2 ^ 32 := by
      intro a ha
      have := hk.lt ha
      omega
    have hcl := clone_spec h.sound hs (h.cached hs) hwrap hm
    exact copies_spec choices (h.clone hmem hact hrun hcl) (hcl.keys hk (by omega)) (by omega) hr

/-- After `doStateFork` for the states `L`: each has what is native in its stores, and is not active. -/
structure SavesNew (l : Layout) (L : List Nat) (m m' : Machine) : Prop where
  sound : m'.Sound
  cached : ∀ {j : Nat} {s : S2EExecutionState}, m'.states[j]? = some s → Cached l m' j s
  host : ∀ mo, (m'.host mo).bytes = (m.host mo).bytes
  state : ∀ {j}, j ∈ L → ∀ {t : S2EExecutionState}, m'.states[j]? = some t →
    t.active = false ∧ ∃ s, m.states[j]? = some s ∧ t.runningConcrete = s.runningConcrete
  states : ∀ {j}, j ∉ L → m'.states[j]? = m.states[j]?
  saved : ∀ {j}, j ∈ L → ∀ {mo}, l.Covered mo → mo ≠ l.cpuRegistersState → m'.stored j mo = some (m.host mo).bytes
  stored : ∀ {j mo}, j ∉ L ∨ mo = l.cpuRegistersState → m'.stored j mo = m.stored j mo

theorem saveNew_spec {j : Nat} (h : m.Sound)
    (hc : ∀ {j : Nat} {s : S2EExecutionState}, m.states[j]? = some s → Cached l m j s) (hm : m.saveNew l j = some m') :
    SavesNew l [j] m m' := by
  obtain ⟨s, hs, hm⟩ := bind_eq_some_iff.1 hm
  have hj := (List.getElem?_eq_some_iff.1 hs).1
  have hsys := (hc hs).system
  have hsave := saveObjects_spec l.saved ((storeAt_sound h).setState _ _) hm
  have hstates : m'.states = m.states.set j { s with active := false } := hsave.states
  have howns : ∀ {k mo o}, m.Owns k mo o → m'.Owns k mo o := fun ho => hsave.owns (storeAt_owns.2 ho)
  refine ⟨hsave.sound, fun {k t} ht => ?_, hsave.host, fun {k} hk t ht => ?_, fun {k} hk => ?_, fun {k} hk mo hmo hne => ?_,
    fun {k mo} hk => ?_⟩
  · rw [hstates] at ht
    by_cases hkj : k = j
    · subst hkj
      rw [List.getElem?_set_self hj] at ht
      cases ht
      have hc' := (hc hs).of_owns howns
      exact ⟨hc'.system, hc'.registers, hc'.dirty⟩
    · rw [List.getElem?_set_ne (Ne.symm hkj)] at ht
      exact (hc ht).of_owns howns
  · grind
  · grind
  · obtain rfl := mem_singleton.1 hk
    rcases covered_cases hmo with hmo | rfl | rfl
    · exact hsave.saved hmo
    · rw [hsave.stored (.inr fun h => saved_ne_cpu h rfl)]
      exact storeAt_stored_self h hsys
    · exact absurd rfl hne
  · have hne : k ≠ j ∨ mo ∉ l.saved := hk.imp (fun hk he => hk (mem_singleton.2 he)) fun he hm =>
      saved_ne_registers hm he
    have hne' : k ≠ j ∨ mo ≠ l.cpuSystemState := hk.imp (fun hk he => hk (mem_singleton.2 he)) fun he hm =>
      Layout.cpu_ne_registers l (hm.symm.trans he)
    rw [hsave.stored hne]
    exact storeAt_stored h hsys hne'

theorem saveNews_spec : ∀ (L : List Nat) {m : Machine}, m.Sound →
    (∀ {j : Nat} {s : S2EExecutionState}, m.states[j]? = some s → Cached l m j s) →
    L.foldlM (fun m j => m.saveNew l j) m = some m' → SavesNew l L m m'
  | [], m, h, hc, hm => by
    cases hm
    exact ⟨h, hc, fun _ => rfl, fun h => (nomatch h), fun _ => rfl, fun h => (nomatch h), fun _ => rfl⟩
  | j :: L, m, h, hc, hm => by
    obtain ⟨m₁, h₁, hm⟩ := bind_eq_some_iff.1 hm
    have hfst := saveNew_spec h hc h₁
    have hrest := saveNews_spec L hfst.sound hfst.cached hm
    refine ⟨hrest.sound, hrest.cached, fun mo => (hrest.host mo).trans (hfst.host mo), ?_, ?_, ?_, ?_⟩
    · intro k hk t ht
      by_cases hL : k ∈ L
      · obtain ⟨ha, t₁, ht₁, hr⟩ := hrest.state hL ht
        by_cases hkj : k ∈ [j]
        · obtain ⟨-, s, hs, hr'⟩ := hfst.state hkj ht₁
          exact ⟨ha, s, hs, hr.trans hr'⟩
        · rw [hfst.states hkj] at ht₁
          exact ⟨ha, t₁, ht₁, hr⟩
      · rw [hrest.states hL] at ht
        exact hfst.state (mem_singleton.2 ((mem_cons.1 hk).resolve_right hL)) ht
    · intro k hk
      rw [mem_cons, not_or] at hk
      rw [hrest.states hk.2, hfst.states fun h => hk.1 (mem_singleton.1 h)]
    · intro k hk mo hmo hne
      by_cases hL : k ∈ L
      · rw [hrest.saved hL hmo hne, hfst.host]
      · rw [hrest.stored (.inl hL), hfst.saved (mem_singleton.2 ((mem_cons.1 hk).resolve_right hL)) hmo hne]
    · intro k mo hk
      rw [mem_cons, not_or] at hk
      rw [hrest.stored (hk.imp_left And.right), hfst.stored (hk.imp_left fun h hm => h.1 (mem_singleton.1 hm))]

end S2E.Qemu.StateSwitch
