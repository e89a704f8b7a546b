import S2E.Qemu.StateSwitch.Store

/-!
# `doStateSwitch`

The three parts of a switch: the old state is left (`Leaves`), the new one entered (`Enters`), and the objects saved on a
context switch go through the native memory from the one to the other (`Exchanges`). After it the old state has stored what
it saw (`Switches.stored_old`), the new one sees what it had stored (`Switches.sees`), and the stores of the others are as
they were (`Switches.stored`).
-/

namespace S2E.Qemu.StateSwitch
open S2E.Klee Function List
open Option (bind_eq_bind bind_some bind_eq_some_iff)

variable {i j : Nat} {new old : Option Nat} {mo : MemoryObject} {s : S2EExecutionState}

namespace Machine

variable {l : Layout} {m m' m'' : Machine} {i j o os os' : Nat} {mo mo' : MemoryObject} {s : S2EExecutionState}
  {c : Contents}

/-- The loop of `doStateSwitch`: the native bytes went to the old state, and those of the new state came from it. -/
structure Exchanges (old new : Option Nat) (L : List MemoryObject) (m m' : Machine) : Prop where
  sound : m'.Sound
  states : m'.states = m.states
  owns : ∀ {j mo o}, m.Owns j mo o → m'.Owns j mo o
  saved : ∀ {i mo}, old = some i → mo ∈ L → m'.stored i mo = some (m.host mo).bytes
  stored : ∀ {j mo}, old ≠ some j ∨ mo ∉ L → m'.stored j mo = m.stored j mo
  restored : ∀ {j mo}, new = some j → mo ∈ L → some (m'.host mo).bytes = m.stored j mo
  host : ∀ {mo}, mo ∉ L → (m'.host mo).bytes = (m.host mo).bytes

theorem saveOld_spec (h : m.Sound) (hs : m.saveOld l mo old = some m') :
    m'.Sound ∧ m'.states = m.states ∧ (∀ mo, (m'.host mo).bytes = (m.host mo).bytes) ∧
      (∀ {j mo o}, m.Owns j mo o → m'.Owns j mo o) ∧ (∀ {i}, old = some i → m'.stored i mo = some (m.host mo).bytes) ∧
      ∀ {j mo'}, old ≠ some j ∨ mo' ≠ mo → m'.stored j mo' = m.stored j mo' := by
  cases old with
  | none =>
    cases hs
    exact ⟨h, rfl, fun _ => rfl, id, fun h => (nomatch h), fun _ => rfl⟩
  | some i =>
    have hsave := saveObject_spec h hs
    refine ⟨hsave.sound, hsave.states, hsave.host, hsave.owns, ?_, ?_⟩
    · intro i' hi
      cases hi
      exact hsave.saved rfl
    · intro j mo' hne
      exact hsave.stored (hne.imp_left fun hn hj => hn (by rw [hj]))

theorem restoreNew_spec (h : m.Sound) (hs : m.restoreNew mo new = some m') :
    m'.Sound ∧ m'.states = m.states ∧ (∀ {j mo o}, m.Owns j mo o → m'.Owns j mo o) ∧
      (∀ j mo, m'.stored j mo = m.stored j mo) ∧ (∀ {j}, new = some j → some (m'.host mo).bytes = m.stored j mo) ∧
      ∀ {mo'}, mo' ≠ mo → m'.host mo' = m.host mo' := by
  cases new with
  | none =>
    cases hs
    exact ⟨h, rfl, id, fun _ _ => rfl, fun h => (nomatch h), fun _ => rfl⟩
  | some j =>
    obtain ⟨os, hos, hs⟩ := bind_eq_some_iff.1 hs
    obtain ⟨o, ho, hs⟩ := bind_eq_some_iff.1 hs
    cases hs
    refine ⟨⟨h.length, h.owned, h.injective⟩, rfl, id, fun _ _ => rfl, ?_, fun hne => update_of_ne hne _ _⟩
    intro j' hj
    cases hj
    rw [(findObject_eq_some.1 hos).stored, bytesAt, ho]
    show some (update m.host mo o.contents mo).bytes = _
    rw [update_self]
    rfl

theorem exchange_spec {old new : Option Nat} (hne : ∀ i, old = some i → new ≠ some i) :
    ∀ (L : List MemoryObject), L.Nodup → ∀ {m : Machine}, m.Sound → L.foldlM (exchange l old new) m = some m' →
      Exchanges old new L m m'
  | [], _, m, h, hs => by
    cases hs
    exact ⟨h, rfl, id, fun _ h => (nomatch h), fun _ => rfl, fun _ h => (nomatch h), fun _ => rfl⟩
  | mo :: L, hnd, m, h, hs => by
    obtain ⟨hmo, hnd⟩ := nodup_cons.1 hnd
    obtain ⟨m₂, h₂, hs⟩ := bind_eq_some_iff.1 hs
    obtain ⟨m₁, h₁, h₂⟩ := bind_eq_some_iff.1 h₂
    obtain ⟨hsound₁, hstates₁, hhost₁, howns₁, hsaved₁, hstored₁⟩ := saveOld_spec h h₁
    obtain ⟨hsound₂, hstates₂, howns₂, hstored₂, hrestored₂, hhost₂⟩ := restoreNew_spec hsound₁ h₂
    have hrest := exchange_spec hne L hnd hsound₂ hs
    have hhost : ∀ mo' ≠ mo, (m₂.host mo').bytes = (m.host mo').bytes := fun mo' hmo' => by
      rw [hhost₂ hmo', hhost₁]
    refine ⟨hrest.sound, (hrest.states.trans hstates₂).trans hstates₁, fun ho => hrest.owns (howns₂ (howns₁ ho)), ?_, ?_, ?_, ?_⟩
    · intro i mo' hi hmo'
      by_cases hL : mo' ∈ L
      · rw [hrest.saved hi hL, hhost mo' (fun he => hmo (he ▸ hL))]
      · obtain rfl := (mem_cons.1 hmo').resolve_right hL
        rw [hrest.stored (.inr hL), hstored₂, hsaved₁ hi]
    · intro j mo' hj
      rw [mem_cons, not_or] at hj
      rw [hrest.stored (hj.imp_right And.right), hstored₂, hstored₁ (hj.imp_right And.left)]
    · intro j mo' hj hmo'
      have hold : old ≠ some j := fun ho => hne j ho hj
      by_cases hL : mo' ∈ L
      · rw [hrest.restored hj hL, hstored₂, hstored₁ (.inl hold)]
      · obtain rfl := (mem_cons.1 hmo').resolve_right hL
        rw [hrest.host hL, hrestored₂ hj, hstored₁ (.inl hold)]
    · intro mo' hmo'
      rw [mem_cons, not_or] at hmo'
      rw [hrest.host hmo'.2, hhost mo' hmo'.1]

/-! ## `doStateSwitch` -/

theorem setState_stored (m : Machine) (i : Nat) (s : S2EExecutionState) : (m.setState i s).stored = m.stored := rfl

theorem setState_owns (m : Machine) (i : Nat) (s : S2EExecutionState) : (m.setState i s).Owns = m.Owns := rfl

theorem Sound.setState (h : m.Sound) (i : Nat) (s : S2EExecutionState) : (m.setState i s).Sound :=
  ⟨(length_set).trans h.length, h.owned, h.injective⟩

theorem Sound.setHost (h : m.Sound) (mo : MemoryObject) (c : Contents) : (m.setHost mo c).Sound :=
  ⟨h.length, h.owned, h.injective⟩

/-- The state keeps its part of the CPU structure in object states of its own. -/
structure Cached (l : Layout) (m : Machine) (i : Nat) (s : S2EExecutionState) : Prop where
  system : m.Owns i l.cpuSystemState s.cpuSystemObject
  registers : m.Owns i l.cpuRegistersState s.cpuRegistersObject
  dirty : m.Owns i l.dirtyMask s.dirtyMaskObject

theorem Cached.of_owns (h : Cached l m i s) (howns : ∀ {mo o}, m.Owns i mo o → m'.Owns i mo o) : Cached l m' i s :=
  ⟨howns h.system, howns h.registers, howns h.dirty⟩

theorem Layout.cpu_ne_registers (l : Layout) : l.cpuSystemState ≠ l.cpuRegistersState := by
  intro h
  have := l.cpu_shared
  rw [h, l.registers_private] at this
  cases this

theorem Layout.dirty_ne_registers (l : Layout) : l.dirtyMask ≠ l.cpuRegistersState := by
  intro h
  have := l.saved_shared _ l.dirty_saved
  rw [h, l.registers_private] at this
  cases this

theorem isNative_registers (s : S2EExecutionState) : isNative l s l.cpuRegistersState = s.runningConcrete := by
  simp [isNative, l.registers_private]

theorem isNative_of_shared (s : S2EExecutionState) (h : mo.isSharedConcrete = true) : isNative l s mo = true := by
  simp [isNative, h]

/-- The registers, after the state has been brought to symbolic mode. -/
theorem switchToSymbolic_spec (h : m.Sound) (hs : m.states[i]? = some s) (hc : Cached l m i s)
    (hm : m.switchToSymbolic l i = some m') :
    s.runningConcrete = true ∧ m'.Sound ∧ m'.states = m.states.set i { s with runningConcrete := false } ∧ m'.host = m.host ∧
      (∀ {j mo o}, m'.Owns j mo o ↔ m.Owns j mo o) ∧
      m'.stored i l.cpuRegistersState = some (m.host l.cpuRegistersState).bytes ∧
      ∀ {j mo}, j ≠ i ∨ mo ≠ l.cpuRegistersState → m'.stored j mo = m.stored j mo := by
  unfold switchToSymbolic at hm
  rw [hs, bind_eq_bind, bind_some] at hm
  split at hm
  · rename_i hrun
    cases hm
    refine ⟨hrun, (storeAt_sound h).setState _ _, rfl, rfl, ?_, storeAt_stored_self h hc.registers,
      fun hne => storeAt_stored h hc.registers hne⟩
    rw [setState_owns]
    exact storeAt_owns
  · cases hm

theorem ensureSymbolic_spec (h : m.Sound) (hs : m.states[i]? = some s) (hc : Cached l m i s)
    (hm : m.ensureSymbolic l i = some m') :
    m'.Sound ∧ m'.states = m.states.set i { s with runningConcrete := false } ∧ m'.host = m.host ∧
      (∀ {j mo o}, m'.Owns j mo o ↔ m.Owns j mo o) ∧ m'.stored i l.cpuRegistersState = m.seen l i l.cpuRegistersState ∧
      ∀ {j mo}, j ≠ i ∨ mo ≠ l.cpuRegistersState → m'.stored j mo = m.stored j mo := by
  have hseen : m.seen l i l.cpuRegistersState =
      if s.runningConcrete then some (m.host l.cpuRegistersState).bytes else m.stored i l.cpuRegistersState := by
    unfold seen
    rw [hs, bind_eq_bind, bind_some, isNative_registers]
  unfold ensureSymbolic at hm
  rw [hs, bind_eq_bind, bind_some] at hm
  split at hm
  · rename_i hrun
    obtain ⟨-, hsound, hstates, hhost, howns, hreg, hstored⟩ := switchToSymbolic_spec h hs hc hm
    rw [hseen, if_pos hrun]
    exact ⟨hsound, hstates, hhost, howns, hreg, hstored⟩
  · rename_i hrun
    cases hm
    rw [hseen, if_neg hrun]
    refine ⟨h, ?_, rfl, Iff.rfl, rfl, fun _ => rfl⟩
    rw [show ({ s with runningConcrete := false } : S2EExecutionState) = s by rw [← Bool.eq_false_iff.2 hrun]]
    obtain ⟨hi, rfl⟩ := List.getElem?_eq_some_iff.1 hs
    exact (set_getElem_self hi).symm

/-- The old state, if there is one, has its CPU structure in its stores and is not active. -/
structure Leaves (l : Layout) (old : Option Nat) (m m' : Machine) : Prop where
  sound : m'.Sound
  host : m'.host = m.host
  owns : ∀ {j mo o}, m'.Owns j mo o ↔ m.Owns j mo o
  states : ∀ {j}, old ≠ some j → m'.states[j]? = m.states[j]?
  state : ∀ {i s}, old = some i → m.states[i]? = some s →
    m'.states[i]? = some { s with active := false, runningConcrete := false }
  cpu : ∀ {i}, old = some i → m'.stored i l.cpuSystemState = some (m.host l.cpuSystemState).bytes
  registers : ∀ {i}, old = some i → m'.stored i l.cpuRegistersState = m.seen l i l.cpuRegistersState
  stored : ∀ {j mo}, old ≠ some j ∨ (mo ≠ l.cpuSystemState ∧ mo ≠ l.cpuRegistersState) → m'.stored j mo = m.stored j mo

section

variable (h : m.Sound) (hc : ∀ {i s}, m.states[i]? = some s → Cached l m i s)

include h hc

theorem leave_spec (hm : m.leave l old = some m') : Leaves l old m m' := by
  cases old with
  | none =>
    cases hm
    exact ⟨h, rfl, Iff.rfl, fun _ => rfl, fun h => (nomatch h), fun h => (nomatch h), fun h => (nomatch h), fun _ => rfl⟩
  | some i =>
    obtain ⟨m₁, h₁, hm⟩ := bind_eq_some_iff.1 hm
    obtain ⟨s, hs, -⟩ := bind_eq_some_iff.1 h₁
    have hi := (List.getElem?_eq_some_iff.1 hs).1
    obtain ⟨hsound, hstates, hhost, howns, hreg, hstored⟩ := ensureSymbolic_spec h hs (hc hs) h₁
    obtain ⟨s₁, hs₁, hm⟩ := bind_eq_some_iff.1 hm
    rw [hstates, List.getElem?_set_self hi] at hs₁
    cases hs₁
    cases hm
    have hown : m₁.Owns i l.cpuSystemState s.cpuSystemObject := howns.2 (hc hs).system
    have hne : l.cpuRegistersState ≠ l.cpuSystemState := (Layout.cpu_ne_registers l).symm
    refine ⟨(storeAt_sound hsound).setState _ _, hhost, ?_, ?_, ?_, ?_, ?_, ?_⟩
    · intro j mo o
      rw [setState_owns, storeAt_owns]
      exact howns
    · intro j hj
      show (m₁.states.set i _)[j]? = _
      have hij : i ≠ j := fun he => hj (by rw [he])
      rw [hstates, List.getElem?_set_ne hij, List.getElem?_set_ne hij]
    · intro i' s' hi' hs'
      cases hi'
      rw [hs] at hs'
      cases hs'
      show (m₁.states.set i _)[i]? = _
      rw [List.getElem?_set_self (by rw [hstates, length_set]; exact hi)]
    · intro i' hi'
      cases hi'
      rw [setState_stored, storeAt_stored_self hsound hown, hhost]
    · intro i' hi'
      cases hi'
      rw [setState_stored, storeAt_stored hsound hown (.inr hne), hreg]
    · intro j mo hj
      have hj' : j ≠ i ∨ (mo ≠ l.cpuSystemState ∧ mo ≠ l.cpuRegistersState) := hj.imp_left fun hn he => hn (by rw [he])
      rw [setState_stored, storeAt_stored hsound hown (hj'.imp_right And.left), hstored (hj'.imp_right And.right)]

/-- The new state, if there is one, is active and its CPU structure is the native one. -/
structure Enters (l : Layout) (new : Option Nat) (m m' : Machine) : Prop where
  sound : m'.Sound
  owns : ∀ {j mo o}, m'.Owns j mo o ↔ m.Owns j mo o
  stored : ∀ j mo, m'.stored j mo = m.stored j mo
  states : ∀ {j}, new ≠ some j → m'.states[j]? = m.states[j]?
  state : ∀ {i s}, new = some i → m.states[i]? = some s → m'.states[i]? = some { s with active := true }
  host : ∀ {mo}, mo ≠ l.cpuSystemState → m'.host mo = m.host mo
  cpu : ∀ {i}, new = some i → ∃ b, m.stored i l.cpuSystemState = some b ∧
    ∀ k, l.jmpEnv k = false → (m'.host l.cpuSystemState).bytes k = b k

theorem enter_spec (hm : m.enter l new = some m') : Enters l new m m' := by
  cases new with
  | none =>
    cases hm
    exact ⟨h, Iff.rfl, fun _ _ => rfl, fun _ => rfl, fun h => (nomatch h), fun _ => rfl, fun h => (nomatch h)⟩
  | some i =>
    obtain ⟨s, hs, hm⟩ := bind_eq_some_iff.1 hm
    obtain ⟨o, ho, hm⟩ := bind_eq_some_iff.1 hm
    cases hm
    refine ⟨(h.setHost _ _).setState _ _, Iff.rfl, fun _ _ => rfl, ?_, ?_, fun hne => update_of_ne hne _ _, ?_⟩
    · intro j hj
      exact List.getElem?_set_ne fun he => hj (by rw [he])
    · intro i' s' hi' hs'
      cases hi'
      rw [hs] at hs'
      cases hs'
      exact List.getElem?_set_self (List.getElem?_eq_some_iff.1 hs).1
    · intro i' hi'
      cases hi'
      refine ⟨o.contents.bytes, ?_, fun k hk => ?_⟩
      · rw [(hc hs).system.binds.stored, bytesAt, ho]
        rfl
      · show (update m.host _ _ _).bytes k = _
        rw [update_self]
        exact if_neg (Bool.eq_false_iff.1 hk)

end

end Machine

open Machine

variable {l : Layout} {m m' : Machine}

/-- The bytes agree, in the CPU structure outside of its `jmp_env`. -/
def Agree (l : Layout) (mo : MemoryObject) (b b' : Bytes) : Prop :=
  ∀ k, (mo = l.cpuSystemState → l.jmpEnv k = false) → b k = b' k

/-- State `i` sees the bytes `r` of the object. -/
def Sees (l : Layout) (m : Machine) (i : Nat) (mo : MemoryObject) (r : Option Bytes) : Prop :=
  ∃ b b', m.seen l i mo = some b ∧ r = some b' ∧ Agree l mo b b'

theorem covered_cases (h : l.Covered mo) : mo ∈ l.saved ∨ mo = l.cpuSystemState ∨ mo = l.cpuRegistersState := by
  rcases h with h | h
  · by_cases hc : mo = l.cpuSystemState
    · exact .inr (.inl hc)
    · exact .inl (mem_filter.2 ⟨h, by simpa using hc⟩)
  · exact .inr h

theorem saved_shared (h : mo ∈ l.saved) : mo.isSharedConcrete = true :=
  l.saved_shared mo (mem_filter.1 h).1

theorem saved_ne_cpu (h : mo ∈ l.saved) : mo ≠ l.cpuSystemState := by
  simpa using (mem_filter.1 h).2

theorem saved_ne_registers (h : mo ∈ l.saved) : mo ≠ l.cpuRegistersState := by
  rintro rfl
  have := saved_shared h
  rw [l.registers_private] at this
  cases this

theorem seen_shared (hs : m.states[i]? = some s)
    (h : mo.isSharedConcrete = true) : m.seen l i mo = some (m.host mo).bytes := by
  unfold seen
  rw [hs, bind_eq_bind, bind_some, isNative_of_shared s h]
  rfl

theorem seen_registers (hs : m.states[i]? = some s) (h : s.runningConcrete = false) :
    m.seen l i l.cpuRegistersState = m.stored i l.cpuRegistersState := by
  unfold seen
  rw [hs, bind_eq_bind, bind_some, isNative_registers, h]
  rfl

theorem Machine.Sound.stored_isSome {o : Nat} (h : m.Sound) (hb : m.Binds i mo o) : ∃ b, m.stored i mo = some b := by
  rw [hb.stored, bytesAt, List.getElem?_eq_getElem (h.lt hb)]
  exact ⟨_, rfl⟩

theorem mayLeave_cases (h : m.mayLeave old = true) (hi : old = some i) :
    ∃ s, m.states[i]? = some s ∧ s.active = true := by
  subst hi
  cases hs : m.states[i]? with
  | none => simp [mayLeave, hs] at h
  | some s => exact ⟨s, rfl, by simpa [mayLeave, hs] using h⟩

theorem mayEnter_cases (h : m.mayEnter new = true) (hj : new = some j) :
    ∃ s, m.states[j]? = some s ∧ s.active = false ∧ s.runningConcrete = false := by
  subst hj
  cases hs : m.states[j]? with
  | none => simp [mayEnter, hs] at h
  | some s => exact ⟨s, rfl, by simpa [mayEnter, hs] using h⟩

/-- The three parts of a switch. -/
structure Switches (l : Layout) (old new : Option Nat) (m m' : Machine) : Prop where
  old_active : ∀ {i}, old = some i → ∃ s, m.states[i]? = some s ∧ s.active = true
  new_inactive : ∀ {j}, new = some j → ∃ s, m.states[j]? = some s ∧ s.active = false ∧ s.runningConcrete = false
  parts : ∃ m₁ m₂, Leaves l old m m₁ ∧ Enters l new m₁ m₂ ∧ Exchanges old new l.saved m₂ m'

theorem old_ne_new (hold : ∀ {i}, old = some i → ∃ s, m.states[i]? = some s ∧ s.active = true)
    (hnew : ∀ {j}, new = some j → ∃ s, m.states[j]? = some s ∧ s.active = false ∧ s.runningConcrete = false)
    (i : Nat) (ho : old = some i) : new ≠ some i := by
  intro hn
  obtain ⟨s, hs, hact⟩ := hold ho
  obtain ⟨t, ht, hin, -⟩ := hnew hn
  rw [hs] at ht
  cases ht
  rw [hact] at hin
  cases hin

theorem Switches.ne (h : Switches l old new m m') (i : Nat) (ho : old = some i) : new ≠ some i :=
  old_ne_new h.old_active h.new_inactive i ho

theorem Machine.Leaves.cached (hL : Leaves l old m m')
    (hold : ∀ {i}, old = some i → ∃ s, m.states[i]? = some s ∧ s.active = true)
    (hc : ∀ {i : Nat} {s : S2EExecutionState}, m.states[i]? = some s → Cached l m i s)
    (hs : m'.states[i]? = some s) : Cached l m' i s := by
  by_cases ho : old = some i
  · obtain ⟨s₀, hs₀, -⟩ := hold ho
    rw [hL.state ho hs₀] at hs
    cases hs
    have h := (hc hs₀).of_owns hL.owns.2
    exact ⟨h.system, h.registers, h.dirty⟩
  · rw [hL.states ho] at hs
    exact (hc hs).of_owns hL.owns.2

theorem doStateSwitch_spec (h : m.Sound)
    (hc : ∀ {i : Nat} {s : S2EExecutionState}, m.states[i]? = some s → Cached l m i s)
    (hm : m.doStateSwitch l old new = some m') : Switches l old new m m' := by
  unfold doStateSwitch at hm
  split at hm
  · rename_i hguard
    rw [Bool.and_eq_true, Bool.and_eq_true] at hguard
    obtain ⟨⟨-, hleave⟩, henter⟩ := hguard
    obtain ⟨m₁, h₁, hm⟩ := bind_eq_some_iff.1 hm
    obtain ⟨m₂, h₂, hm⟩ := bind_eq_some_iff.1 hm
    have hL := leave_spec h hc h₁
    have hE := enter_spec hL.sound (hL.cached (mayLeave_cases hleave) hc) h₂
    have hne := old_ne_new (mayLeave_cases hleave) (mayEnter_cases henter)
    refine ⟨mayLeave_cases hleave, mayEnter_cases henter, m₁, m₂, hL, hE, ?_⟩
    exact exchange_spec hne l.saved (l.saved_nodup.filter _) hE.sound hm
  · cases hm

namespace Switches

variable {old new : Option Nat}

section

variable (h : Switches l old new m m')

include h

theorem state {k : Nat} {t : S2EExecutionState} (ht : m'.states[k]? = some t) :
    ∃ s, m.states[k]? = some s ∧ (Cached l m' k s → Cached l m' k t) ∧
      (t.active = true → new = some k ∨ (old ≠ some k ∧ s.active = true)) ∧ (new = some k → t.active = true) ∧
      (t.runningConcrete = true → old ≠ some k ∧ s.runningConcrete = true) := by
  obtain ⟨m₁, m₂, hL, hE, hX⟩ := h.parts
  rw [hX.states] at ht
  by_cases hn : new = some k
  · obtain ⟨s, hs, -, hrun⟩ := h.new_inactive hn
    have ho : old ≠ some k := fun ho => h.ne k ho hn
    rw [hE.state hn ((hL.states ho).trans hs)] at ht
    cases ht
    exact ⟨s, hs, fun h => ⟨h.system, h.registers, h.dirty⟩, fun _ => .inl hn, fun _ => rfl, fun hr => ⟨ho, hr⟩⟩
  · rw [hE.states hn] at ht
    by_cases ho : old = some k
    · obtain ⟨s, hs, -⟩ := h.old_active ho
      rw [hL.state ho hs] at ht
      cases ht
      exact ⟨s, hs, fun h => ⟨h.system, h.registers, h.dirty⟩, fun h => (nomatch h), fun h => absurd h hn,
        fun h => (nomatch h)⟩
    · rw [hL.states ho] at ht
      exact ⟨t, ht, id, fun h => .inr ⟨ho, h⟩, fun h => absurd h hn, fun h => ⟨ho, h⟩⟩

theorem stored (hj : old ≠ some j) (mo : MemoryObject) : m'.stored j mo = m.stored j mo := by
  obtain ⟨m₁, m₂, hL, hE, hX⟩ := h.parts
  rw [hX.stored (.inl hj), hE.stored, hL.stored (.inl hj)]

theorem stored_old (hi : old = some i) (hmo : l.Covered mo) : m'.stored i mo = m.seen l i mo := by
  obtain ⟨m₁, m₂, hL, hE, hX⟩ := h.parts
  obtain ⟨s, hs, -⟩ := h.old_active hi
  rcases covered_cases hmo with hmo | rfl | rfl
  · rw [hX.saved hi hmo, hE.host (saved_ne_cpu hmo), hL.host, seen_shared hs (saved_shared hmo)]
  · rw [hX.stored (.inr fun h => saved_ne_cpu h rfl), hE.stored, hL.cpu hi, seen_shared hs l.cpu_shared]
  · rw [hX.stored (.inr fun h => saved_ne_registers h rfl), hE.stored, hL.registers hi]

theorem sees (hsound : m.Sound)
    (hc : ∀ {i : Nat} {s : S2EExecutionState}, m.states[i]? = some s → Cached l m i s) (hj : new = some j)
    (hmo : l.Covered mo) : Sees l m' j mo (m.stored j mo) := by
  obtain ⟨m₁, m₂, hL, hE, hX⟩ := h.parts
  obtain ⟨s, hs, -, hrun⟩ := h.new_inactive hj
  have ho : old ≠ some j := fun ho => h.ne j ho hj
  have ht : m'.states[j]? = some { s with active := true } := by
    rw [hX.states]
    exact hE.state hj ((hL.states ho).trans hs)
  have hkeep : ∀ mo, m₁.stored j mo = m.stored j mo := fun mo => hL.stored (.inl ho)
  rcases covered_cases hmo with hmo | rfl | rfl
  · refine ⟨_, _, seen_shared ht (saved_shared hmo), ?_, fun k _ => rfl⟩
    rw [hX.restored hj hmo, hE.stored, hkeep]
  · obtain ⟨b, hb, hbytes⟩ := hE.cpu hj
    refine ⟨_, b, seen_shared ht l.cpu_shared, (hkeep _).symm.trans hb, fun k hk => ?_⟩
    rw [hX.host fun h => saved_ne_cpu h rfl]
    exact hbytes k (hk rfl)
  · obtain ⟨b, hb⟩ := hsound.stored_isSome (hc hs).registers.binds
    refine ⟨b, b, ?_, hb, fun _ _ => rfl⟩
    rw [seen_registers ht hrun, h.stored ho]
    exact hb

end

end Switches

end S2E.Qemu.StateSwitch
