import S2E.Klee.Expr.APInt
import S2E.Lib.Triple
import Mathlib.Data.List.Perm.Subperm

/-!
# `S2E::fork`: the slots of the processes

A fork raises the count and takes an index under one acquisition of the lock; the child claims a slot, or a failure of the
operating system lowers the count again, under another one. In between the fork is in flight.

* `Event`, `System.step` : what happens under one acquisition of the lock;
* `System.Inv` : what every step keeps, while the index has not reached `(unsigned) -1`, which marks a free slot;
* `run_safe` : the result for runs. The index has 32 bits, and `run_reuses_index` is what happens when it wraps around.
-/

namespace S2E.Qemu.ProcessSlots
open Function List
open S2E.Klee (Trap)
open S2E.Lib

/-- `m_currentProcessIndex` and `m_currentProcessId` of a process. -/
structure Instance where
  index : BitVec 32
  id : Nat
deriving DecidableEq

/-- `S2EShared`, the registered processes, and the indices of the forks in flight. -/
structure System where
  currentProcessCount : BitVec 32
  lastFileId : BitVec 32
  processIds : Nat → BitVec 32
  running : List Instance
  inFlight : List (BitVec 32)

/-- The value of a free slot. -/
abbrev free : BitVec 32 := -1

/-- What happens under one acquisition of the lock: a process enters `S2E::fork`; the fork of the operating system fails;
the child of a fork in flight claims a slot; a process is destroyed. -/
inductive Event
  | fork (caller : Instance)
  | osFailure (newProcessIndex : BitVec 32)
  | register (newProcessIndex : BitVec 32)
  | exit (p : Instance)

namespace System

/-- After the constructor of the first process. -/
def init : System := ⟨1, 1, fun i => if i = 0 then 0 else free, [⟨0, 0⟩], []⟩

variable (maxProcesses : BitVec 32)

def fork (s : System) : System :=
  if s.currentProcessCount = maxProcesses then s
  else { s with
    inFlight := s.lastFileId :: s.inFlight
    lastFileId := s.lastFileId + 1
    currentProcessCount := s.currentProcessCount + 1 }

def osFailure (newProcessIndex : BitVec 32) (s : System) : System :=
  { s with currentProcessCount := s.currentProcessCount - 1, inFlight := s.inFlight.erase newProcessIndex }

def register (newProcessIndex : BitVec 32) (s : System) : Except Trap System :=
  match (range maxProcesses.toNat).find? fun i => s.processIds i = free with
  | none => .error .assertFailed
  | some i => .ok { s with
      processIds := update s.processIds i newProcessIndex
      running := ⟨newProcessIndex, i⟩ :: s.running
      inFlight := s.inFlight.erase newProcessIndex }

def exit (p : Instance) (s : System) : Except Trap System :=
  if s.processIds p.id = p.index then
    .ok { s with
      processIds := update s.processIds p.id free
      currentProcessCount := s.currentProcessCount - 1
      running := s.running.erase p }
  else .error .assertFailed

def step (s : System) : Event → Except Trap System
  | .fork caller => .ok (if caller ∈ s.running then s.fork maxProcesses else s)
  | .osFailure x => .ok (if x ∈ s.inFlight then s.osFailure x else s)
  | .register x => if x ∈ s.inFlight then s.register maxProcesses x else .ok s
  | .exit p => if p ∈ s.running then s.exit p else .ok s

def run (events : List Event) (s : System) : Except Trap System := events.foldlM (step maxProcesses) s

/-- The count is right and within the maximum, there is a slot for the child of every fork in flight, and no two processes
share a slot or an index. -/
structure Safe (s : System) : Prop where
  count_le : s.currentProcessCount.toNat ≤ maxProcesses.toNat
  count_eq : s.currentProcessCount.toNat = s.running.length + s.inFlight.length
  slot : s.inFlight ≠ [] → ∃ i < maxProcesses.toNat, s.processIds i = free
  ids : (s.running.map Instance.id).Nodup
  indices : (s.running.map Instance.index).Nodup

/-- What all steps keep, after `n` forks. -/
structure Inv (n : Nat) (s : System) : Prop where
  count_le : s.currentProcessCount.toNat ≤ maxProcesses.toNat
  count_eq : s.currentProcessCount.toNat = s.running.length + s.inFlight.length
  last_le : s.lastFileId.toNat ≤ n + 1
  old : ∀ x ∈ s.running.map Instance.index ++ s.inFlight, x.toNat < s.lastFileId.toNat
  indices : (s.running.map Instance.index ++ s.inFlight).Nodup
  ids : (s.running.map Instance.id).Nodup
  claimed : ∀ p ∈ s.running, s.processIds p.id = p.index
  free_or_claimed : ∀ i, s.processIds i = free ∨ ∃ p ∈ s.running, p.id = i

variable {maxProcesses} {n : Nat} {s : System} {x : BitVec 32} {p : Instance}

theorem inv_init (h : maxProcesses ≠ 0) : Inv maxProcesses 0 init := by
  have hpos : 0 < maxProcesses.toNat := Nat.pos_of_ne_zero fun hz => h (BitVec.eq_of_toNat_eq hz)
  refine ⟨hpos, rfl, le_rfl, ?_, ?_, ?_, ?_, fun i => ?_⟩
  · simp [init]
  · simp [init]
  · simp [init]
  · simp [init]
  · by_cases hi : i = 0
    · exact .inr ⟨⟨0, 0⟩, mem_singleton_self _, hi.symm⟩
    · exact .inl (if_neg hi)

namespace Inv

variable (h : Inv maxProcesses n s)
include h

/-- A fork in flight is counted, so that the slots are not all claimed. -/
theorem exists_free (hfork : s.inFlight ≠ []) : ∃ i < maxProcesses.toNat, s.processIds i = free := by
  by_contra hall
  push Not at hall
  have hsub : range maxProcesses.toNat ⊆ s.running.map Instance.id := by
    intro i hi
    obtain ⟨p, hp, hid⟩ := (h.free_or_claimed i).resolve_left (hall i (mem_range.1 hi))
    exact mem_map.2 ⟨p, hp, hid⟩
  have hlen := (subperm_of_subset nodup_range hsub).length_le
  rw [length_range, length_map] at hlen
  have hle := h.count_le
  have heq := h.count_eq
  have hpos := length_pos_iff.2 hfork
  omega

theorem safe : Safe maxProcesses s :=
  ⟨h.count_le, h.count_eq, h.exists_free, h.ids, h.indices.of_append_left⟩

theorem mono : Inv maxProcesses (n + 1) s :=
  { h with last_le := h.last_le.trans (Nat.le_succ _) }

theorem fork (hn : n + 2 < 2 ^ 32) : Inv maxProcesses (n + 1) (s.fork maxProcesses) := by
  unfold System.fork
  split
  · exact h.mono
  · have hle := h.count_le
    have heq := h.count_eq
    have hlast := h.last_le
    have hnext : s.lastFileId.toNat < (s.lastFileId + 1).toNat := by bv_omega
    refine ⟨by bv_omega, ?_, by bv_omega, fun x hx => ?_, ?_, h.ids, h.claimed, h.free_or_claimed⟩
    · rw [length_cons]
      bv_omega
    · rcases mem_cons.1 (perm_middle.mem_iff.1 hx) with rfl | hx
      · exact hnext
      · exact (h.old x hx).trans hnext
    · refine perm_middle.nodup_iff.2 (nodup_cons.2 ⟨fun hmem => ?_, h.indices⟩)
      exact (h.old _ hmem).false

theorem osFailure (hx : x ∈ s.inFlight) : Inv maxProcesses n (s.osFailure x) := by
  have hsub := (erase_sublist (a := x) (l := s.inFlight)).append_left (s.running.map Instance.index)
  have hlen := length_erase_of_mem hx
  have hpos := length_pos_of_mem hx
  have hle := h.count_le
  have heq := h.count_eq
  have hcount : (s.currentProcessCount - 1).toNat = s.currentProcessCount.toNat - 1 := by bv_omega
  refine ⟨?_, ?_, h.last_le, fun y hy => h.old y (hsub.subset hy), h.indices.sublist hsub, h.ids, h.claimed,
    h.free_or_claimed⟩
  · show (s.currentProcessCount - 1).toNat ≤ _
    omega
  · show (s.currentProcessCount - 1).toNat = s.running.length + (s.inFlight.erase x).length
    omega

theorem register (hx : x ∈ s.inFlight) : ∃ s', s.register maxProcesses x = .ok s' ∧ Inv maxProcesses n s' := by
  obtain ⟨j, hj, hfree⟩ := h.exists_free (ne_nil_of_mem hx)
  unfold System.register
  split
  · rename_i hnone
    exact absurd hfree (by simpa using find?_eq_none.1 hnone j (mem_range.2 hj))
  · rename_i i hi
    have hslot : s.processIds i = free := by simpa using find?_some hi
    -- An index below `lastFileId` is not the mark of a free slot.
    have hmark (y : BitVec 32) (hy : y.toNat < s.lastFileId.toNat) : y ≠ free := by
      rintro rfl
      bv_omega
    have hnew (p : Instance) (hp : p ∈ s.running) : p.id ≠ i := by
      rintro rfl
      rw [h.claimed p hp] at hslot
      exact hmark _ (h.old _ (mem_append_left _ (mem_map_of_mem hp))) hslot
    have hperm : (s.running.map Instance.index ++ s.inFlight).Perm
        (x :: s.running.map Instance.index ++ s.inFlight.erase x) :=
      ((perm_cons_erase hx).append_left _).trans perm_middle
    have heq := h.count_eq
    have hlen := length_erase_of_mem hx
    have hpos := length_pos_of_mem hx
    refine ⟨_, rfl, h.count_le, ?_, h.last_le, fun y hy => h.old y (hperm.mem_iff.2 hy), hperm.nodup h.indices, ?_, ?_,
      fun k => ?_⟩
    · show s.currentProcessCount.toNat = s.running.length + 1 + (s.inFlight.erase x).length
      omega
    · refine nodup_cons.2 ⟨fun hmem => ?_, h.ids⟩
      obtain ⟨p, hp, hid⟩ := mem_map.1 hmem
      exact hnew p hp hid
    · intro p hp
      rcases mem_cons.1 hp with rfl | hp
      · exact update_self ..
      · exact (update_of_ne (hnew p hp) ..).trans (h.claimed p hp)
    · by_cases hk : k = i
      · exact .inr ⟨_, mem_cons_self, hk.symm⟩
      · refine (h.free_or_claimed k).imp (update_of_ne hk ..).trans ?_
        rintro ⟨p, hp, hid⟩
        exact ⟨p, mem_cons_of_mem _ hp, hid⟩

theorem exit (hp : p ∈ s.running) : ∃ s', s.exit p = .ok s' ∧ Inv maxProcesses n s' := by
  have hsub := erase_sublist (a := p) (l := s.running)
  have hindex := (hsub.map Instance.index).append_right s.inFlight
  have hlen := length_erase_of_mem hp
  have hpos := length_pos_of_mem hp
  have hle := h.count_le
  have heq := h.count_eq
  have hcount : (s.currentProcessCount - 1).toNat = s.currentProcessCount.toNat - 1 := by bv_omega
  have hother (q : Instance) (hq : q ∈ s.running.erase p) : q.id ≠ p.id := by
    intro hid
    have hmem := (h.ids.of_map _).mem_erase_iff.1 hq
    exact hmem.1 (inj_on_of_nodup_map h.ids hmem.2 hp hid)
  unfold System.exit
  rw [if_pos (h.claimed p hp)]
  refine ⟨_, rfl, ?_, ?_, h.last_le, fun y hy => h.old y (hindex.subset hy), h.indices.sublist hindex,
    h.ids.sublist (hsub.map _), fun q hq => ?_, fun i => ?_⟩
  · show (s.currentProcessCount - 1).toNat ≤ _
    omega
  · show (s.currentProcessCount - 1).toNat = (s.running.erase p).length + s.inFlight.length
    omega
  · exact (update_of_ne (hother q hq) ..).trans (h.claimed q (hsub.subset hq))
  · by_cases hi : i = p.id
    · exact .inl (hi ▸ update_self ..)
    · refine (h.free_or_claimed i).imp (update_of_ne hi ..).trans ?_
      rintro ⟨q, hq, rfl⟩
      exact ⟨q, (mem_erase_of_ne (by rintro rfl; exact hi rfl)).2 hq, rfl⟩

end Inv

/-- The number of forks that are attempted. -/
def forks (events : List Event) : Nat := events.countP fun e => match e with | .fork _ => true | _ => false

theorem Inv.step (h : Inv maxProcesses n s) (e : Event) (hn : n + forks [e] + 1 < 2 ^ 32) :
    ∃ s', s.step maxProcesses e = .ok s' ∧ Inv maxProcesses (n + forks [e]) s' := by
  cases e with
  | fork caller =>
    refine ⟨_, rfl, ?_⟩
    split
    · exact h.fork hn
    · exact h.mono
  | osFailure x =>
    refine ⟨_, rfl, ?_⟩
    split
    · exact h.osFailure ‹_›
    · exact h
  | register x =>
    rw [System.step]
    split
    · exact h.register ‹_›
    · exact ⟨s, rfl, h⟩
  | exit p =>
    rw [System.step]
    split
    · exact h.exit ‹_›
    · exact ⟨s, rfl, h⟩

theorem Inv.run (events : List Event) (h : Inv maxProcesses n s) (hn : n + forks events + 1 < 2 ^ 32) :
    ∃ s', run maxProcesses events s = .ok s' ∧ Inv maxProcesses (n + forks events) s' := by
  induction events generalizing n s with
  | nil => exact ⟨s, rfl, h⟩
  | cons e events ih =>
    have hsplit : forks ([e] ++ events) = forks [e] + forks events := countP_append
    rw [singleton_append] at hsplit
    rw [hsplit, ← Nat.add_assoc] at hn ⊢
    obtain ⟨s₁, h₁, hinv⟩ := h.step e (by omega)
    obtain ⟨s', h', hinv'⟩ := ih hinv hn
    refine ⟨s', ?_, hinv'⟩
    rw [System.run, foldlM_cons, h₁]
    exact h'

/-- As long as fewer than `2 ^ 32 - 1` forks are attempted, no assertion fails and every state that is reached is safe. -/
theorem run_safe (maxProcesses : BitVec 32) (hmax : maxProcesses ≠ 0) (events : List Event)
    (hforks : forks events < 2 ^ 32 - 1) : ∃ s, run maxProcesses events init = .ok s ∧ Safe maxProcesses s := by
  obtain ⟨s, hs, hinv⟩ := (inv_init hmax).run events (by omega)
  exact ⟨s, hs, hinv.safe⟩

theorem run_safe_two : ∃ s, run 2 [.fork ⟨0, 0⟩, .register 1, .fork ⟨1, 1⟩, .exit ⟨0, 0⟩] init = .ok s ∧ Safe 2 s :=
  run_safe 2 (by decide) _ (by decide)

/-- The first process alone, after some forks. -/
def alone (last : BitVec 32) : System := { init with lastFileId := last }

/-- Forks of the first process that the operating system refuses. -/
def failures : Nat → BitVec 32 → List Event
  | 0, _ => []
  | m + 1, last => .fork ⟨0, 0⟩ :: .osFailure last :: failures m (last + 1)

/-- Each of them takes an index. -/
theorem run_failures (m : Nat) (last : BitVec 32) :
    run 2 (failures m last) (alone last) = .ok (alone (last + BitVec.ofNat 32 m)) := by
  induction m generalizing last with
  | zero => simp [failures, run, pure, Except.pure]
  | succ m ih =>
    have hstep : run 2 (failures (m + 1) last) (alone last) = run 2 (failures m (last + 1)) (alone (last + 1)) := by
      simp [failures, run, step, fork, osFailure, alone, init]
    rw [hstep, ih, Nat.add_comm m, BitVec.ofNat_add, ← BitVec.add_assoc]
    rfl

/-- After `2 ^ 32 - 1` of them a child gets the index of the first process. -/
theorem run_reuses_index : ∃ events s, run 2 events init = .ok s ∧ ¬ (s.running.map Instance.index).Nodup := by
  have hwrap : run 2 (failures (2 ^ 32 - 1) 1) init = .ok (alone 0) := run_failures (2 ^ 32 - 1) 1
  have hchild : ∃ s, run 2 [.fork ⟨0, 0⟩, .register 0] (alone 0) = .ok s ∧ s.running = [⟨0, 1⟩, ⟨0, 0⟩] := ⟨_, rfl, rfl⟩
  obtain ⟨s, hs, hrunning⟩ := hchild
  refine ⟨failures (2 ^ 32 - 1) 1 ++ [.fork ⟨0, 0⟩, .register 0], s, ?_, ?_⟩
  · rw [run] at hwrap
    rw [run, foldlM_append, hwrap]
    exact hs
  · rw [hrunning]
    decide

end System

end S2E.Qemu.ProcessSlots
