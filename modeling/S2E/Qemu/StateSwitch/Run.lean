import S2E.Qemu.StateSwitch.Fork

/-!
# Runs of states

* `Run l m held` : `m` is reached by guest steps of the active state, forks and switches, and `held i` is what state `i` saw
  when it last was active, or what its parent saw when it was made.
-/

namespace S2E.Qemu.StateSwitch
open S2E.Klee List
open Option (bind_eq_some_iff)

/-- For every state, the bytes of the objects when it last was active, or those of its parent when it was made. -/
abbrev Held := Nat → MemoryObject → Option Bytes

open Machine

variable {l : Layout} {m m' : Machine} {held : Held}

/-- What every run keeps. -/
structure Inv (l : Layout) (held : Held) (m : Machine) : Prop where
  sound : m.Sound
  cached : ∀ {i : Nat} {s : S2EExecutionState}, m.states[i]? = some s → Cached l m i s
  sole : ∀ {i j : Nat} {s t : S2EExecutionState}, m.states[i]? = some s → m.states[j]? = some t →
    s.active = true → t.active = true → i = j
  concrete : ∀ {i : Nat} {s : S2EExecutionState}, m.states[i]? = some s → s.runningConcrete = true → s.active = true
  held : ∀ {i : Nat} {s : S2EExecutionState} {mo}, m.states[i]? = some s → s.active = false → l.Covered mo →
    m.stored i mo = held i mo

/-- A switch, where `NULL` is left only if no state is active. -/
theorem Inv.switch (h : Inv l held m) {old new : Option Nat} (hs : Switches l old new m m')
    (hnull : old = none → ∀ s ∈ m.states, s.active = false) :
    Inv l (fun i => if old = some i then m.seen l i else held i) m' := by
  -- Only the new state is active afterwards.
  have hidle : ∀ {k : Nat} {s : S2EExecutionState}, m.states[k]? = some s → old ≠ some k → s.active = false := by
    intro k s hk ho
    by_contra hact
    rw [Bool.not_eq_false] at hact
    cases hold : old with
    | none => grind
    | some i =>
      obtain ⟨s', hs', hact'⟩ := hs.old_active hold
      exact ho (by rw [hold, h.sole hs' hk hact' hact])
  have hnew : ∀ {k : Nat} {t : S2EExecutionState}, m'.states[k]? = some t → t.active = true → new = some k := by
    intro k t ht hact
    obtain ⟨s, hs', -, hcases, -⟩ := hs.state ht
    rcases hcases hact with hn | ⟨ho, hact⟩
    · exact hn
    · grind
  obtain ⟨m₁, m₂, hL, hE, hX⟩ := hs.parts
  refine ⟨hX.sound, fun {k t} ht => ?_, fun {i j s t} hi hj ha hb => ?_, fun {k t} ht hrun => ?_, fun {k t mo} ht hact hmo => ?_⟩
  · obtain ⟨s, hs', hcached, -⟩ := hs.state ht
    exact hcached ((h.cached hs').of_owns fun ho => hX.owns (hE.owns.2 (hL.owns.2 ho)))
  · grind
  · obtain ⟨s, hs', -, -, -, hconc⟩ := hs.state ht
    obtain ⟨ho, hrun⟩ := hconc hrun
    have := h.concrete hs' hrun
    rw [hidle hs' ho] at this
    cases this
  · obtain ⟨s, hs', -⟩ := hs.state ht
    by_cases ho : old = some k
    · rw [if_pos ho, hs.stored_old ho hmo]
    · rw [if_neg ho, hs.stored ho, h.held hs' (hidle hs' ho) hmo]

/-! ## Guest steps -/

/-- A step of state `i` that changes nothing of the other states. -/
structure Private (i : Nat) (m m' : Machine) : Prop where
  sound : m'.Sound
  owns : ∀ {j mo o}, j ≠ i → m.Owns j mo o → m'.Owns j mo o
  stored : ∀ {j}, j ≠ i → ∀ mo, m'.stored j mo = m.stored j mo

variable {i : Nat} {mo : MemoryObject} {s : S2EExecutionState}

theorem Inv.private_step (h : Inv l held m) (hs : m.states[i]? = some s)
    (hact : s.active = true) (hp : Private i m m') (hc : Cached l m' i s) {r : Bool}
    (hstates : m'.states = m.states.set i { s with runningConcrete := r }) : Inv l held m' := by
  have hi := (List.getElem?_eq_some_iff.1 hs).1
  have hstate : ∀ {k : Nat} {t : S2EExecutionState}, m'.states[k]? = some t →
      (k = i ∧ t = { s with runningConcrete := r }) ∨ (k ≠ i ∧ m.states[k]? = some t) := by
    intro k t ht
    rw [hstates] at ht
    by_cases hk : k = i
    · grind
    · grind
  have hactive : ∀ {k : Nat} {t : S2EExecutionState}, m'.states[k]? = some t → t.active = true → k = i := by
    intro k t ht ha
    rcases hstate ht with ⟨rfl, -⟩ | ⟨-, ht⟩
    · rfl
    · exact h.sole ht hs ha hact
  refine ⟨hp.sound, fun {k t} ht => ?_, fun hi hj ha hb => ?_, fun {k t} ht hrun => ?_, fun {k t mo} ht ha hmo => ?_⟩
  · rcases hstate ht with ⟨rfl, rfl⟩ | ⟨hk, ht⟩
    · exact ⟨hc.system, hc.registers, hc.dirty⟩
    · exact (h.cached ht).of_owns (hp.owns hk)
  · rw [hactive hi ha, hactive hj hb]
  · rcases hstate ht with ⟨rfl, rfl⟩ | ⟨hk, ht⟩
    · exact hact
    · exact h.concrete ht hrun
  · rcases hstate ht with ⟨rfl, rfl⟩ | ⟨hk, ht⟩
    · grind
    · rw [hp.stored hk, h.held ht ha hmo]

theorem set_self_state (hs : m.states[i]? = some s) :
    m.states = m.states.set i { s with runningConcrete := s.runningConcrete } := by
  obtain ⟨hi, rfl⟩ := List.getElem?_eq_some_iff.1 hs
  exact (set_getElem_self hi).symm

section

variable (h : m.Sound) (hc : Cached l m i s)

include h hc

theorem write_private {f : Contents → Contents} (hw : m.write l i mo f = some m') : Private i m m' ∧ Cached l m' i s ∧ m'.states = m.states := by
  obtain ⟨os, hos, hw⟩ := bind_eq_some_iff.1 hw
  obtain ⟨⟨m₁, o⟩, h₁, hw⟩ := bind_eq_some_iff.1 hw
  obtain ⟨c, -, hw⟩ := bind_eq_some_iff.1 hw
  obtain ⟨hre, hown⟩ := getWriteable_spec h (findObject_eq_some.1 hos) h₁
  have hc₁ : Cached l m₁ i s := hc.of_owns hre.owns
  cases hw
  split
  · exact ⟨⟨hre.sound.setHost _ _, fun _ ho => hre.owns ho, fun _ => hre.stored _⟩,
      ⟨hc₁.system, hc₁.registers, hc₁.dirty⟩, hre.states⟩
  · refine ⟨⟨storeAt_sound hre.sound, fun _ ho => storeAt_owns.2 (hre.owns ho), fun hj mo' => ?_⟩,
      hc₁.of_owns storeAt_owns.2, hre.states⟩
    rw [storeAt_stored hre.sound hown (.inl hj), hre.stored]

theorem bindObject_private {c : Contents} (hmo : ¬ l.Covered mo) (hw : m.bindObject i mo c = some m') :
    Private i m m' ∧ Cached l m' i s ∧ m'.states = m.states := by
  obtain ⟨a, ha, hw⟩ := bind_eq_some_iff.1 hw
  obtain ⟨r, hr, hw⟩ := bind_eq_some_iff.1 hw
  cases hw
  cases hr
  have hnew : NewObject i a mo m { m with
      spaces := m.spaces.set i (a.replace mo m.heap.length), heap := m.heap ++ [⟨a.cowKey, false, c⟩] } := by
    refine ⟨ha, rfl, map_append, rfl, fun k hk => ?_⟩
    show Option.map _ (m.heap ++ _)[k]? = _
    rw [List.getElem?_append_left hk]
    rfl
  refine ⟨⟨hnew.sound h, fun hj => hnew.owns (.inl hj), fun hj mo' => hnew.stored h (.inl hj)⟩, ⟨?_, ?_, ?_⟩, rfl⟩
  · exact hnew.owns (.inr fun he => hmo (he ▸ .inr (.inl rfl))) hc.system
  · exact hnew.owns (.inr fun he => hmo (he ▸ .inr (.inr rfl))) hc.registers
  · exact hnew.owns (.inr fun he => hmo (he ▸ .inl l.dirty_saved)) hc.dirty

theorem unbindObject_private (hmo : ¬ l.Covered mo) (hw : m.unbindObject i mo = some m') :
    Private i m m' ∧ Cached l m' i s ∧ m'.states = m.states := by
  obtain ⟨a, ha, hw⟩ := bind_eq_some_iff.1 hw
  cases hw
  have hi := (List.getElem?_eq_some_iff.1 ha).1
  have hsub : ∀ mo' o, (a.unbindObject mo).objects mo' = some o → a.objects mo' = some o := by
    intro mo' o ho
    by_cases he : mo' = mo
    · subst he
      simp [AddressSpace.unbindObject] at ho
    · simpa only [AddressSpace.unbindObject, Function.update_of_ne he] using ho
  have hbinds : ∀ {j mo' o}, Machine.Binds { m with spaces := m.spaces.set i (a.unbindObject mo) } j mo' o →
      m.Binds j mo' o := by
    rintro j mo' o ⟨b, hb, ho⟩
    rcases Owned.set_cases hb with ⟨rfl, rfl⟩ | ⟨-, hb⟩
    · exact ⟨a, ha, hsub _ _ ho⟩
    · exact ⟨b, hb, ho⟩
  have howns : ∀ {j mo' o}, mo' ≠ mo → m.Owns j mo' o →
      Machine.Owns { m with spaces := m.spaces.set i (a.unbindObject mo) } j mo' o := by
    rintro j mo' o hne ⟨b, hb, ho, hk⟩
    by_cases hj : j = i
    · subst hj
      rw [ha] at hb
      cases hb
      refine ⟨_, List.getElem?_set_self hi, ?_, hk⟩
      simpa only [AddressSpace.unbindObject, Function.update_of_ne hne] using ho
    · exact ⟨b, (List.getElem?_set_ne (Ne.symm hj)).trans hb, ho, hk⟩
  refine ⟨⟨⟨?_, Owned.restrict h.owned ha rfl hsub, fun h₁ h₂ => h.injective (hbinds h₁) (hbinds h₂)⟩, ?_, ?_⟩,
    ⟨?_, ?_, ?_⟩, rfl⟩
  · show m.states.length = (m.spaces.set i _).length
    rw [length_set]
    exact h.length
  · rintro j mo' o hj ⟨b, hb, ho, hk⟩
    exact ⟨b, (List.getElem?_set_ne (Ne.symm hj)).trans hb, ho, hk⟩
  · intro j hj mo'
    refine stored_congr ?_ fun _ _ => rfl
    show ((m.spaces.set i _)[j]?).bind _ = _
    rw [List.getElem?_set_ne (Ne.symm hj)]
    rfl
  · exact howns (fun he => hmo (he ▸ .inr (.inl rfl))) hc.system
  · exact howns (fun he => hmo (he ▸ .inr (.inr rfl))) hc.registers
  · exact howns (fun he => hmo (he ▸ .inl l.dirty_saved)) hc.dirty

end

theorem Inv.guest (h : Inv l held m) {op : GuestOp} (hm : m.guest l i op = some m') : Inv l held m' := by
  obtain ⟨s, hs, hm⟩ := bind_eq_some_iff.1 hm
  have hc := h.cached hs
  split at hm
  · rename_i hact
    cases op with
    | native mo f =>
      simp only at hm
      split at hm
      · cases hm
        exact h.private_step hs hact ⟨h.sound.setHost _ _, fun _ ho => ho, fun _ _ => rfl⟩
          ⟨hc.system, hc.registers, hc.dirty⟩ (set_self_state hs)
      · cases hm
    | write mo f =>
      obtain ⟨hp, hc', hst⟩ := write_private h.sound hc hm
      exact h.private_step hs hact hp hc' (hst.trans (set_self_state hs))
    | bindObject mo c =>
      simp only at hm
      split at hm
      · cases hm
      · rename_i hmo
        obtain ⟨hp, hc', hst⟩ := bindObject_private h.sound hc hmo hm
        exact h.private_step hs hact hp hc' (hst.trans (set_self_state hs))
    | unbindObject mo =>
      simp only at hm
      split at hm
      · cases hm
      · rename_i hmo
        obtain ⟨hp, hc', hst⟩ := unbindObject_private h.sound hc hmo hm
        exact h.private_step hs hact hp hc' (hst.trans (set_self_state hs))
    | switchToConcrete =>
      simp only [switchToConcrete, hs, Option.bind_eq_bind, Option.bind_some] at hm
      split at hm
      · cases hm
      · obtain ⟨o, -, hm⟩ := bind_eq_some_iff.1 hm
        cases hm
        exact h.private_step hs hact ⟨(h.sound.setHost _ _).setState _ _, fun _ ho => ho, fun _ _ => rfl⟩
          ⟨hc.system, hc.registers, hc.dirty⟩ rfl
    | switchToSymbolic =>
      obtain ⟨-, hsound, hst, -, howns, -, hstored⟩ := switchToSymbolic_spec h.sound hs hc hm
      exact h.private_step hs hact ⟨hsound, fun _ ho => howns.2 ho, fun hj mo => hstored (.inl hj)⟩
        (hc.of_owns howns.2) hst
  · cases hm

/-! ## Forks -/

/-- What the states of a group but the first hold after a fork: what the first sees. -/
def Held.fork (held : Held) (i : Nat) (group : List Nat) (seen : MemoryObject → Option Bytes) : Held :=
  fun j => if j ∈ group ∧ j ≠ i then seen else held j

section

variable (h : Inv l held m) (hs : m.states[i]? = some s) (hact : s.active = true)

include h hs hact

theorem Inv.fork
    {group : List Nat} {m₁ : Machine} (hcopied : Copied l i m group m₁) (hm : m₁.doStateFork l i group = some m') :
    Inv l (held.fork i group (m₁.seen l i)) m' := by
  unfold doStateFork at hm
  split at hm
  · have hsave := saveNews_spec _ hcopied.sound hcopied.cached hm
    have hmem : ∀ {k}, k ∈ group.filter (· ≠ i) ↔ k ∈ group ∧ k ≠ i := by grind
    obtain ⟨⟨si, hsi, hacti, hruni⟩, hstoredi⟩ := hcopied.member hcopied.self
    -- The states that were not made by the fork, but for `i`, are as before and idle.
    have hidle : ∀ {k : Nat} {t : S2EExecutionState}, k ∉ group.filter (· ≠ i) → k ≠ i → m'.states[k]? = some t →
        k ∉ group ∧ m.states[k]? = some t := by
      intro k t hk hki ht
      have hkg : k ∉ group := fun hkg => hk (hmem.2 ⟨hkg, hki⟩)
      rw [hsave.states hk, (hcopied.other hkg).1] at ht
      exact ⟨hkg, ht⟩
    have hactive : ∀ {k : Nat} {t : S2EExecutionState}, m'.states[k]? = some t → t.active = true → k = i := by
      intro k t ht ha
      by_contra hki
      by_cases hk : k ∈ group.filter (· ≠ i)
      · rw [(hsave.state hk ht).1] at ha
        cases ha
      · exact hki (h.sole (hidle hk hki ht).2 hs ha hact)
    refine ⟨hsave.sound, hsave.cached, fun hi hj ha hb => (hactive hi ha).trans (hactive hj hb).symm,
      fun {k t} ht hrun => ?_, fun {k t mo} ht ha hmo => ?_⟩
    · by_cases hk : k ∈ group.filter (· ≠ i)
      · obtain ⟨-, t₁, ht₁, hr⟩ := hsave.state hk ht
        obtain ⟨⟨t₂, ht₂, -, hr₂⟩, -⟩ := hcopied.member (hmem.1 hk).1
        rw [ht₁] at ht₂
        cases ht₂
        rw [hr, hr₂] at hrun
        cases hrun
      · by_cases hki : k = i
        · subst hki
          rw [hsave.states hk, hsi] at ht
          cases ht
          exact hacti
        · exact h.concrete (hidle hk hki ht).2 hrun
    · unfold Held.fork
      by_cases hk : k ∈ group.filter (· ≠ i)
      · rw [if_pos (hmem.1 hk)]
        by_cases hreg : mo = l.cpuRegistersState
        · subst hreg
          rw [hsave.stored (.inr rfl), (hcopied.member (hmem.1 hk).1).2, seen_registers hsi hruni, hstoredi]
        · have hshared : mo.isSharedConcrete = true := by
            rcases covered_cases hmo with hmo | rfl | rfl
            · exact saved_shared hmo
            · exact l.cpu_shared
            · exact absurd rfl hreg
          rw [hsave.saved hk hmo hreg, seen_shared hsi hshared]
      · have hki : k ≠ i := by
          rintro rfl
          rw [hsave.states hk, hsi] at ht
          cases ht
          rw [hacti] at ha
          cases ha
        obtain ⟨hkg, ht₀⟩ := hidle hk hki ht
        rw [if_neg fun hg => hkg hg.1, hsave.stored (.inl hk), (hcopied.other hkg).2, h.held ht₀ ha hmo]
  · cases hm

theorem Inv.copied (hrun : s.runningConcrete = false) : Copied l i m [i] m := by
  refine ⟨h.sound, h.cached, mem_singleton_self i, ?_, fun _ => ⟨rfl, fun _ => rfl⟩⟩
  intro j hj
  obtain rfl := mem_singleton.1 hj
  exact ⟨⟨s, hs, hact, hrun⟩, fun _ => rfl⟩

end

/-! ## Runs -/

/-- One state, which is active. -/
structure Initial (l : Layout) (m : Machine) : Prop where
  sound : m.Sound
  single : ∃ s, m.states = [s] ∧ s.active = true ∧ Cached l m 0 s

/-- Guest steps of the active state, forks and switches, with what each state holds. -/
inductive Run (l : Layout) : Machine → Held → Prop
  | init {m : Machine} (held : Held) (h : Initial l m) : Run l m held
  | guest {m m' : Machine} {held : Held} {i : Nat} {op : GuestOp} (h : Run l m held) (hm : m.guest l i op = some m') :
      Run l m' held
  /-- The active state, in symbolic mode, is forked. No key wraps around. -/
  | fork {m m₁ m' : Machine} {held : Held} {i bound : Nat} {s : S2EExecutionState} {choices group : List Nat}
      (h : Run l m held) (hs : m.states[i]? = some s) (hact : s.active = true) (hrun : s.runningConcrete = false)
      (hkeys : m.KeysBelow bound) (hbound : bound + choices.length < 2 ^ 32)
      (hcopies : copies l m [i] choices = some (m₁, group)) (hm : m₁.doStateFork l i group = some m') :
      Run l m' (held.fork i group (m₁.seen l i))
  /-- A switch. As in `selectNextState`, `NULL` is left only if no state is active. -/
  | switch {m m' : Machine} {held : Held} {old new : Option Nat} (h : Run l m held)
      (hnull : old = none → ∀ s ∈ m.states, s.active = false) (hm : m.doStateSwitch l old new = some m') :
      Run l m' (fun i => if old = some i then m.seen l i else held i)

theorem Run.inv (h : Run l m held) : Inv l held m := by
  induction h with
  | @init m held h =>
    obtain ⟨s, hst, hact, hc⟩ := h.single
    have hzero : ∀ {i : Nat} {t : S2EExecutionState}, m.states[i]? = some t → i = 0 ∧ t = s := by
      intro i t ht
      rw [hst] at ht
      cases i with
      | zero => exact ⟨rfl, by simpa using ht.symm⟩
      | succ i => simp at ht
    refine ⟨h.sound, fun ht => ?_, fun hi hj _ _ => ?_, fun ht _ => ?_, fun ht ha _ => ?_⟩
    · grind
    · rw [(hzero hi).1, (hzero hj).1]
    · grind
    · grind
  | guest _ hm ih => exact ih.guest hm
  | fork _ hs hact hrun hkeys hbound hcopies hm ih =>
    exact ih.fork hs hact (copies_spec _ (ih.copied hs hact hrun) hkeys hbound hcopies) hm
  | switch _ hnull hm ih => exact ih.switch (doStateSwitch_spec ih.sound ih.cached hm) hnull

/-- In every run at most one state is active, and a state that becomes active sees, of the objects saved on a context switch
and of the CPU structure, the bytes that it held, the `jmp_env` apart. -/
theorem run_restores (h : Run l m held) :
    (∀ {i j : Nat} {s t : S2EExecutionState}, m.states[i]? = some s → m.states[j]? = some t → s.active = true →
      t.active = true → i = j) ∧
    ∀ {old : Option Nat} {j : Nat} {m' : Machine}, m.doStateSwitch l old (some j) = some m' →
      ∀ mo, l.Covered mo → Sees l m' j mo (held j mo) := by
  refine ⟨h.inv.sole, fun {old j m'} hm mo hmo => ?_⟩
  have hsw := doStateSwitch_spec h.inv.sound h.inv.cached hm
  obtain ⟨s, hs, hin, -⟩ := hsw.new_inactive rfl
  rw [← h.inv.held hs hin hmo]
  exact hsw.sees h.inv.sound h.inv.cached rfl hmo

/-! ## Two states -/

namespace Two

def cpu : MemoryObject := ⟨0, true⟩

def registers : MemoryObject := ⟨1, false⟩

def dirtyMask : MemoryObject := ⟨2, true⟩

/-- Video memory, which is saved on a context switch and to which `s2e_tlb_table` points. -/
def videoRam : MemoryObject := ⟨3, true⟩

/-- The arguments of a translation block: shared, and not saved. -/
def functionArgs : MemoryObject := ⟨4, true⟩

def layout : Layout where
  cpuSystemState := cpu
  cpuRegistersState := registers
  dirtyMask := dirtyMask
  saveOnContextSwitch := [cpu, dirtyMask, videoRam]
  isRam mo := mo = videoRam
  jmpEnv k := k = 0
  clearOwned := id
  cpu_shared := rfl
  registers_private := rfl
  dirty_saved := by decide
  dirty_ne_cpu := by decide
  saved_shared := by decide
  saved_nodup := by decide

def objects : List MemoryObject := [cpu, registers, dirtyMask, videoRam, functionArgs]

def zero : Contents := ⟨fun _ => 0, fun _ => none⟩

/-- Each object has an object state, the space owns them, and the first pointer of `s2e_tlb_table` is to the video memory. -/
def start : Machine where
  spaces := [⟨1, fun mo => objects.idxOf? mo⟩]
  heap := replicate 5 ⟨1, false, zero⟩
  host mo := if mo = cpu then ⟨fun _ => 0, fun k => if k = 0 then some 3 else none⟩ else zero
  states := [⟨true, false, 1, 0, 2⟩]

theorem start_binds {o : Nat} (h : start.Binds i mo o) : i = 0 ∧ objects[o]? = some mo := by
  obtain ⟨a, ha, ho⟩ := h
  cases i with
  | zero =>
    cases ha
    obtain ⟨hlt, hget, -⟩ := idxOf?_eq_some_iff.1 ho
    exact ⟨rfl, List.getElem?_eq_some_iff.2 ⟨hlt, hget⟩⟩
  | succ i => cases ha

theorem start_initial : Initial layout start := by
  have hbound : ∀ {i o : Nat} {mo : MemoryObject}, start.Binds i mo o → o < 5 := fun hb =>
    (List.getElem?_eq_some_iff.1 (start_binds hb).2).1
  refine ⟨⟨rfl, ⟨fun ha ho => hbound ⟨_, ha, ho⟩, ?_, ?_⟩, ?_⟩, _, rfl, rfl, ⟨_, rfl, rfl, rfl⟩, ⟨_, rfl, rfl, rfl⟩, ⟨_, rfl, rfl, rfl⟩⟩
  · intro i a mo o k ha ho hk
    obtain ⟨rfl, -⟩ := start_binds ⟨a, ha, ho⟩
    cases ha
    have : k = 1#32 := by
      obtain ⟨os, hos, rfl⟩ := mem_map.1 (mem_of_getElem? hk)
      rw [eq_of_mem_replicate hos]
      rfl
    rw [this]
    exact le_rfl
  · intro i j a b mo mo' o ha hb ho ho' _
    rw [(start_binds ⟨a, ha, ho⟩).1, (start_binds ⟨b, hb, ho'⟩).1]
  · intro i mo mo' o h₁ h₂
    have := (start_binds h₁).2.symm.trans (start_binds h₂).2
    exact Option.some.inj this

/-- State `0` is copied, -/
def copied : Machine × List Nat := (copies layout start [0] [0]).getD (start, [])

/-- the fork is completed, -/
def forked : Machine := (copied.1.doStateFork layout 0 copied.2).getD start

/-- and state `1` becomes active. -/
def switched : Machine := (forked.doStateSwitch layout (some 0) (some 1)).getD start

/-- Native code of state `1` runs concretely and writes to the registers and to the arguments. -/
def worked : Machine :=
  (do
    let m ← switched.guest layout 1 .switchToConcrete
    let m ← m.guest layout 1 (.native registers fun c => { c with bytes := fun _ => 9 })
    m.guest layout 1 (.native functionArgs fun c => { c with bytes := fun _ => 7 })).getD start

/-- State `0` becomes active again. -/
def resumed : Machine := (worked.doStateSwitch layout (some 1) (some 0)).getD start

theorem switched_run : ∃ held, Run layout switched held := by
  have hkeys : start.KeysBelow 1 := by
    intro k hk
    rw [mem_singleton.1 hk]
    decide
  have hfork : Run layout forked (Held.fork (fun _ _ => none) 0 copied.2 (copied.1.seen layout 0)) :=
    .fork (.init _ start_initial) rfl rfl rfl hkeys (show 1 + [0].length < 2 ^ 32 by decide)
      (show copies layout start [0] [0] = some copied from rfl) rfl
  have hswitch : forked.doStateSwitch layout (some 0) (some 1) = some switched := rfl
  refine ⟨_, hfork.switch ?_ hswitch⟩
  exact fun h => nomatch h

theorem run_restores_two :
    ∃ held returned, Run layout switched held ∧ switched.doStateSwitch layout (some 1) (some 0) = some returned ∧
      ∀ mo, layout.Covered mo → Sees layout returned 0 mo (held 0 mo) := by
  obtain ⟨held, hrun⟩ := switched_run
  obtain ⟨returned, hm⟩ : ∃ m', switched.doStateSwitch layout (some 1) (some 0) = some m' := ⟨_, rfl⟩
  exact ⟨held, returned, hrun, hm, (run_restores hrun).2 hm⟩

/-- The native registers and a shared object that is not saved are then as state `1` has left them, and the pointer to the
object state of the video memory follows the copy that was made of it. -/
theorem switch_keeps_native :
    copies layout start [0] [0] = some copied ∧ copied.1.doStateFork layout 0 copied.2 = some forked ∧
    forked.doStateSwitch layout (some 0) (some 1) = some switched ∧
    worked.doStateSwitch layout (some 1) (some 0) = some resumed ∧
    functionArgs.isSharedConcrete = true ∧ (forked.host functionArgs).bytes 0 = 0 ∧
    (resumed.host functionArgs).bytes 0 = 7 ∧
    (forked.host registers).bytes 0 = 0 ∧ (resumed.host registers).bytes 0 = 9 ∧
    (forked.host cpu).tlb 0 = some 3 ∧ (resumed.host cpu).tlb 0 = some 12 :=
  ⟨rfl, rfl, rfl, rfl, rfl, rfl, rfl, rfl, rfl, rfl, rfl⟩

end Two

end S2E.Qemu.StateSwitch
