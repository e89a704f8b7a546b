import S2E.Klee.Expr.APInt

/-!
# `S2EExecutor::doProcessFork`

When a state forks into several, the process may fork too. Each of the two processes keeps one half of the new states
and terminates the other, and goes on halving what it keeps until there is no slot left or nothing to halve.

* `Process` : the sets of states of the executor; fork copies them. `Alive` : a state is there and not terminated;
* `terminateStateAtFork`, `doProcessFork` : the code. `slots path` says whether the call of `S2E::fork` made after the
  outcomes `path` (`true` : in the child) finds a slot; the result is the list of all processes;
* `Owns` : what a process has kept of the new states; `Shares` : how the processes that come from it share them;
* `doProcessFork_partition` for the new states, `doProcessFork_others_iff` for all others.

`onProcessFork` of the plugins writes counters and messages, and none of these sets.
-/

namespace S2E.Qemu
open S2E.Klee List

/-- A state is known by its number. -/
structure Process where
  states : Finset Nat
  addedStates : Finset Nat
  removedStates : Finset Nat
  /-- `m_succeeded` of the state manager. -/
  suspended : Finset Nat
  /-- The state manager is loaded. -/
  stateManager : Bool
  forkProcTerminateCurrentState : Bool

namespace Process

section

variable (p : Process) (s : Nat)

/-- `StateManager::resumeSucceededState` -/
def resumeSucceededState : Process :=
  if p.stateManager ∧ s ∈ p.suspended then { p with suspended := p.suspended.erase s, states := insert s p.states } else p

/-- `Executor::terminateState` -/
def terminateState : Process :=
  if s ∈ p.addedStates then { p with addedStates := p.addedStates.erase s }
  else { p with removedStates := insert s p.removedStates }

def terminateStateAtFork : Process := (p.resumeSucceededState s).terminateState s

def Alive : Prop :=
  (s ∈ p.states ∨ s ∈ p.addedStates ∨ s ∈ p.suspended) ∧ s ∉ p.removedStates

end

instance (p : Process) (s : Nat) : Decidable (p.Alive s) := inferInstanceAs (Decidable (_ ∧ _))

/-- An added state is not known to the searcher or the state manager. -/
def Fresh (p : Process) : Prop := ∀ s ∈ p.addedStates, s ∉ p.states ∧ s ∉ p.suspended

end Process

/-- The loop that terminates the states of a range, and whether the original state was among them. -/
def terminateRange (original : Nat) (range : List Nat) (p : Process) (exitLoop : Bool) : Process × Bool :=
  range.foldl (fun acc s => (acc.1.terminateStateAtFork s, acc.2 || s == original)) (p, exitLoop)

/-- `newStates[i]`, ..., `newStates[j - 1]`. -/
def segment (newStates : List Nat) (i j : Int) : List Nat := (newStates.drop i.toNat).take (j - i).toNat

/-- After the loop. The assertion there is an assignment, and never fails. -/
def afterLoop (p : Process) (exitLoop : Bool) : Process :=
  if exitLoop then { p with forkProcTerminateCurrentState := true } else p

section

variable (loop : Process → Int → Int → Int → Bool → Except Trap (List Process)) (original : Nat) (newStates : List Nat) (p : Process)

/-- What the parent does after a fork; `loop` are the iterations that follow. -/
def inParent (low splitIndex high : Int) (exitLoop : Bool) : Except Trap (List Process) :=
  let r := terminateRange original (segment newStates splitIndex (high + 1)) p exitLoop
  let high := splitIndex - 1
  let splitIndex := (high - low).tdiv 2 + low
  if splitIndex = low then .ok [afterLoop r.1 r.2] else loop r.1 low splitIndex high r.2

/-- What the child does. -/
def inChild (low splitIndex high : Int) (exitLoop : Bool) : Except Trap (List Process) :=
  let r := terminateRange original (segment newStates low splitIndex) p exitLoop
  let diff := if high - splitIndex = 1 then 2 else high - splitIndex
  let low := splitIndex
  let splitIndex := diff.tdiv 2 + splitIndex
  if high = splitIndex then .ok [afterLoop r.1 r.2] else loop r.1 low splitIndex high r.2

end

def forkLoop (slots : List Bool → Bool) (original : Nat) (newStates : List Nat) :
    Nat → List Bool → Process → Int → Int → Int → Bool → Except Trap (List Process)
  | 0, _, _, _, _, _, _ => .error .outOfFuel
  | fuel + 1, path, p, low, splitIndex, high, exitLoop =>
    if ¬ (low ≤ high ∧ (splitIndex ≤ high ∧ splitIndex ≥ low) ∧ splitIndex ≥ 0 ∧ splitIndex < newStates.length) then
      .error .assertFailed
    else if slots path = false then .ok [afterLoop p exitLoop]
    else do
      let parents ← inParent (forkLoop slots original newStates fuel (path ++ [false])) original newStates p low
        splitIndex high exitLoop
      let children ← inChild (forkLoop slots original newStates fuel (path ++ [true])) original newStates p low
        splitIndex high exitLoop
      return parents ++ children

def doProcessFork (slots : List Bool → Bool) (original : Nat) (newStates : List Nat) (p : Process) :
    Except Trap (List Process) :=
  forkLoop slots original newStates (newStates.length + 1) [] p 0 ((newStates.length : Int).tdiv 2)
    (newStates.length - 1) false

/-! ## Terminating states -/

theorem Process.resumeSucceededState_alive (p : Process) (s t : Nat) :
    (p.resumeSucceededState s).Alive t ↔ p.Alive t := by
  unfold resumeSucceededState
  split
  · rename_i h
    by_cases hts : t = s
    · subst hts
      simp [Alive, h.2]
    · simp [Alive, hts]
  · rfl

theorem Process.Fresh.resumeSucceededState {p : Process} (h : p.Fresh) (s : Nat) :
    (p.resumeSucceededState s).Fresh := by
  unfold Process.resumeSucceededState
  split
  · rename_i hs
    intro t ht
    obtain ⟨hstates, hsusp⟩ := h t ht
    have hts : t ≠ s := fun heq => hsusp (heq ▸ hs.2)
    simp [hts, hstates, hsusp]
  · exact h

theorem Process.terminateStateAtFork_spec {p : Process} (h : p.Fresh) (s : Nat) : (p.terminateStateAtFork s).Fresh ∧
    (p.terminateStateAtFork s).forkProcTerminateCurrentState = p.forkProcTerminateCurrentState ∧
    ∀ t, (p.terminateStateAtFork s).Alive t ↔ p.Alive t ∧ t ≠ s := by
  have hflag : (p.resumeSucceededState s).forkProcTerminateCurrentState = p.forkProcTerminateCurrentState := by
    unfold resumeSucceededState
    split <;> rfl
  have hfresh := h.resumeSucceededState s
  simp only [← p.resumeSucceededState_alive s, ← hflag, terminateStateAtFork]
  generalize p.resumeSucceededState s = q at hfresh
  unfold terminateState
  split
  · rename_i hs
    obtain ⟨hstates, hsusp⟩ := hfresh s hs
    refine ⟨fun t ht => hfresh t (Finset.mem_of_mem_erase ht), rfl, fun t => ?_⟩
    by_cases hts : t = s
    · subst hts
      simp [Alive, hstates, hsusp]
    · simp [Alive, hts]
  · refine ⟨hfresh, rfl, fun t => ?_⟩
    by_cases hts : t = s
    · subst hts
      simp [Alive]
    · simp [Alive, hts]

theorem terminateRange_spec {original : Nat} {range : List Nat} {p : Process} {exitLoop : Bool} (h : p.Fresh) :
    (terminateRange original range p exitLoop).1.Fresh ∧
    (terminateRange original range p exitLoop).1.forkProcTerminateCurrentState = p.forkProcTerminateCurrentState ∧
    (∀ t, (terminateRange original range p exitLoop).1.Alive t ↔ p.Alive t ∧ t ∉ range) ∧
    ((terminateRange original range p exitLoop).2 = true ↔ exitLoop = true ∨ original ∈ range) := by
  induction range generalizing p exitLoop with
  | nil => simp [terminateRange, h]
  | cons s range ih =>
    obtain ⟨hfresh, hflag, halive⟩ := Process.terminateStateAtFork_spec h s
    obtain ⟨ih1, ih2, ih3, ih4⟩ := @ih (p.terminateStateAtFork s) (exitLoop || s == original) hfresh
    refine ⟨ih1, ih2.trans hflag, fun t => (ih3 t).trans ?_, ih4.trans ?_⟩
    · grind
    · rw [mem_cons, Bool.or_eq_true, beq_iff_eq, eq_comm (a := s), or_assoc]

/-! ## Shares of the new states -/

section Shares

variable {base : Process} {newStates : List Nat} {original : Nat}

/-- The process has kept, of the new states, those of `kept`. -/
structure Owns (base : Process) (newStates : List Nat) (original : Nat) (p : Process) (exitLoop : Bool)
    (kept : List Nat) : Prop where
  fresh : p.Fresh
  flag : p.forkProcTerminateCurrentState = base.forkProcTerminateCurrentState
  alive : ∀ t, p.Alive t ↔ base.Alive t ∧ (t ∈ newStates → t ∈ kept)
  exitLoop_iff : exitLoop = true ↔ original ∈ newStates ∧ original ∉ kept

/-- The processes share the new states of `kept`, have all other states that there were, and the flag is set where the
original state was terminated. -/
structure Shares (base : Process) (newStates : List Nat) (original : Nat) (kept : List Nat)
    (procs : List Process) : Prop where
  nonempty : procs ≠ []
  count : ∀ t ∈ newStates, procs.countP (fun q => q.Alive t) = if t ∈ kept then 1 else 0
  others : ∀ t, t ∉ newStates → ∀ q ∈ procs, q.Alive t ↔ base.Alive t
  flag : ∀ q ∈ procs, q.forkProcTerminateCurrentState = true ↔
    base.forkProcTerminateCurrentState = true ∨ original ∈ newStates ∧ ¬ q.Alive original

theorem Owns.terminate {p : Process} {exitLoop : Bool} {kept rest range : List Nat}
    (h : Owns base newStates original p exitLoop kept) (hkept : ∀ t ∈ newStates, t ∈ rest ↔ t ∈ kept ∧ t ∉ range)
    (hrange : ∀ t ∈ range, t ∈ newStates) :
    Owns base newStates original (terminateRange original range p exitLoop).1
      (terminateRange original range p exitLoop).2 rest := by
  obtain ⟨hfresh, hflag, halive, hexit⟩ := @terminateRange_spec original range p exitLoop h.fresh
  refine ⟨hfresh, hflag.trans h.flag, fun t => ?_, ?_⟩
  · rw [halive, h.alive]
    by_cases ht : t ∈ newStates
    · simp only [ht, forall_true_left, hkept t ht, and_assoc]
    · grind
  · rw [hexit, h.exitLoop_iff]
    by_cases ho : original ∈ newStates
    · grind
    · grind

theorem Owns.shares {p : Process} {exitLoop : Bool} {kept : List Nat} (hbase : ∀ t ∈ newStates, base.Alive t)
    (h : Owns base newStates original p exitLoop kept) :
    Shares base newStates original kept [afterLoop p exitLoop] := by
  have halive : ∀ t, (afterLoop p exitLoop).Alive t ↔ p.Alive t := fun t => by
    unfold afterLoop
    split <;> rfl
  refine ⟨cons_ne_nil _ _, fun t ht => ?_, fun t ht q hq => ?_, fun q hq => ?_⟩
  · rw [countP_singleton]
    simp only [decide_eq_true_eq, halive, h.alive, hbase t ht, ht, forall_true_left, true_and]
  · obtain rfl := mem_singleton.1 hq
    rw [halive, h.alive]
    exact and_iff_left fun hmem => absurd hmem ht
  · obtain rfl := mem_singleton.1 hq
    have hexit : exitLoop = true ↔ original ∈ newStates ∧ ¬ p.Alive original := by
      rw [h.exitLoop_iff, h.alive]
      refine and_congr_right fun ho => not_congr ?_
      simp [hbase original ho, ho]
    rw [halive, ← hexit, ← h.flag]
    cases exitLoop <;> simp [afterLoop]

theorem Shares.append {kept kept' : List Nat} {procs procs' : List Process}
    (h : Shares base newStates original kept procs) (h' : Shares base newStates original kept' procs')
    (hdisjoint : ∀ t ∈ kept, t ∉ kept') : Shares base newStates original (kept ++ kept') (procs ++ procs') where
  nonempty := append_ne_nil_of_left_ne_nil h.nonempty _
  count t ht := by
    rw [countP_append, h.count t ht, h'.count t ht]
    by_cases hk : t ∈ kept
    · simp [hk, hdisjoint t hk]
    · simp [hk]
  others t ht q hq := (mem_append.1 hq).elim (h.others t ht q) (h'.others t ht q)
  flag q hq := (mem_append.1 hq).elim (h.flag q) (h'.flag q)

end Shares

/-! ## Segments -/

section Segment

variable {newStates : List Nat} {lo mid hi : Nat}

theorem segment_cast : segment newStates lo hi = (newStates.drop lo).take (hi - lo) := by
  unfold segment
  congr 1
  omega

theorem segment_split (h₁ : lo ≤ mid) (h₂ : mid ≤ hi) :
    segment newStates lo hi = segment newStates lo mid ++ segment newStates mid hi := by
  rw [segment_cast, segment_cast, segment_cast, show hi - lo = (mid - lo) + (hi - mid) by omega, take_add,
    drop_drop, show lo + (mid - lo) = mid by omega]

theorem mem_of_mem_segment {t : Nat} (h : t ∈ segment newStates lo hi) : t ∈ newStates := by
  rw [segment_cast] at h
  exact mem_of_mem_drop (mem_of_mem_take h)

theorem segment_disjoint (hnodup : newStates.Nodup) (h₁ : lo ≤ mid) (h₂ : mid ≤ hi) {t : Nat}
    (ht : t ∈ segment newStates lo mid) : t ∉ segment newStates mid hi := by
  have hsub : (segment newStates lo hi).Sublist newStates := by
    rw [segment_cast]
    exact (take_sublist _ _).trans (drop_sublist _ _)
  have happend := hnodup.sublist hsub
  rw [segment_split h₁ h₂] at happend
  exact disjoint_of_nodup_append happend ht

end Segment

/-! ## The loop -/

section Loop

variable {slots : List Bool → Bool} {base : Process} {newStates : List Nat} {original : Nat}

/-- The processes that come from one share what it has kept, as long as that is at most `size` states. -/
def LoopSpec (base : Process) (newStates : List Nat) (original size : Nat)
    (loop : Process → Int → Int → Int → Bool → Except Trap (List Process)) : Prop :=
  ∀ (p : Process) (exitLoop : Bool) (lo mid hi : Nat), lo < mid → mid < hi → hi ≤ newStates.length → hi - lo ≤ size →
    Owns base newStates original p exitLoop (segment newStates lo hi) →
    ∃ procs, loop p lo mid (hi - 1) exitLoop = .ok procs ∧
      Shares base newStates original (segment newStates lo hi) procs

section Halves

variable {size lo mid hi : Nat} {p : Process} {exitLoop : Bool}
  {loop : Process → Int → Int → Int → Bool → Except Trap (List Process)}
  (hnodup : newStates.Nodup) (hbase : ∀ t ∈ newStates, base.Alive t) (hlo : lo < mid) (hhi : mid < hi)
  (hlen : hi ≤ newStates.length) (hsize : hi - lo ≤ size + 1)
  (hloop : LoopSpec base newStates original size loop)
  (howns : Owns base newStates original p exitLoop (segment newStates lo hi))

include hnodup hbase hlo hhi hlen hsize hloop howns

theorem inParent_spec : ∃ procs, inParent loop original newStates p lo mid (hi - 1) exitLoop = .ok procs ∧
    Shares base newStates original (segment newStates lo mid) procs := by
  have hrest : Owns base newStates original
      (terminateRange original (segment newStates mid hi) p exitLoop).1
      (terminateRange original (segment newStates mid hi) p exitLoop).2 (segment newStates lo mid) := by
    refine howns.terminate (fun t _ => ?_) fun t => mem_of_mem_segment
    rw [segment_split hlo.le hhi.le, mem_append]
    have := segment_disjoint (t := t) hnodup hlo.le hhi.le
    tauto
  have hmid : ((mid : Int) - 1 - lo).tdiv 2 + lo = ((lo + (mid - 1 - lo) / 2 : Nat) : Int) := by grind
  simp only [inParent, sub_add_cancel, hmid]
  split
  · exact ⟨_, rfl, hrest.shares hbase⟩
  · exact hloop _ _ lo (lo + (mid - 1 - lo) / 2) mid (by omega) (by omega) (by omega) (by omega) hrest

theorem inChild_spec : ∃ procs, inChild loop original newStates p lo mid (hi - 1) exitLoop = .ok procs ∧
    Shares base newStates original (segment newStates mid hi) procs := by
  have hrest : Owns base newStates original
      (terminateRange original (segment newStates lo mid) p exitLoop).1
      (terminateRange original (segment newStates lo mid) p exitLoop).2 (segment newStates mid hi) := by
    refine howns.terminate (fun t _ => ?_) fun t => mem_of_mem_segment
    rw [segment_split hlo.le hhi.le, mem_append]
    have := segment_disjoint (t := t) hnodup hlo.le hhi.le
    tauto
  obtain ⟨mid', hmid', heq⟩ : ∃ mid' : Nat, (mid' + 1 = hi ∨ mid < mid' ∧ mid' < hi) ∧
      (if (hi : Int) - 1 - mid = 1 then 2 else (hi : Int) - 1 - mid).tdiv 2 + mid = mid' := by
    split
    · exact ⟨mid + 1, by omega, by norm_num; omega⟩
    · refine ⟨mid + (hi - 1 - mid) / 2, by omega, ?_⟩
      rw [Int.tdiv_eq_ediv_of_nonneg (by omega)]
      omega
  simp only [inChild, heq]
  split
  · exact ⟨_, rfl, hrest.shares hbase⟩
  · exact hloop _ _ mid mid' hi (by omega) (by omega) hlen (by omega) hrest

end Halves

/-- One iteration: either it is the last one, or there are processes on both sides. -/
theorem forkLoop_succ (hnodup : newStates.Nodup) (hbase : ∀ t ∈ newStates, base.Alive t) {fuel : Nat} {path : List Bool}
    (hloop : ∀ path, LoopSpec base newStates original fuel (forkLoop slots original newStates fuel path))
    {p : Process} {exitLoop : Bool} {lo mid hi : Nat} (hlo : lo < mid) (hhi : mid < hi) (hlen : hi ≤ newStates.length)
    (hsize : hi - lo ≤ fuel + 1) (howns : Owns base newStates original p exitLoop (segment newStates lo hi)) :
    ∃ procs, forkLoop slots original newStates (fuel + 1) path p lo mid (hi - 1) exitLoop = .ok procs ∧
      Shares base newStates original (segment newStates lo hi) procs ∧ (procs.length = 1 ↔ slots path = false) := by
  unfold forkLoop
  rw [if_neg (by omega)]
  split
  · rename_i hslot
    exact ⟨_, rfl, howns.shares hbase, iff_of_true rfl hslot⟩
  · rename_i hslot
    obtain ⟨parents, hparents, hshare⟩ :=
      inParent_spec hnodup hbase hlo hhi hlen hsize (hloop (path ++ [false])) howns
    obtain ⟨children, hchildren, hshare'⟩ :=
      inChild_spec hnodup hbase hlo hhi hlen hsize (hloop (path ++ [true])) howns
    refine ⟨parents ++ children, ?_, ?_, iff_of_false ?_ hslot⟩
    · rw [hparents, hchildren]
      rfl
    · rw [segment_split hlo.le hhi.le]
      exact hshare.append hshare' fun t => segment_disjoint hnodup hlo.le hhi.le
    · have h1 := length_pos_iff.2 hshare.nonempty
      have h2 := length_pos_iff.2 hshare'.nonempty
      rw [length_append]
      omega

theorem forkLoop_spec (hnodup : newStates.Nodup) (hbase : ∀ t ∈ newStates, base.Alive t) (fuel : Nat)
    (path : List Bool) : LoopSpec base newStates original fuel (forkLoop slots original newStates fuel path) := by
  induction fuel generalizing path with
  | zero => intro p exitLoop lo mid hi hlo hhi hlen hsize; omega
  | succ fuel ih =>
    intro p exitLoop lo mid hi hlo hhi hlen hsize howns
    obtain ⟨procs, hok, hshare, -⟩ := forkLoop_succ hnodup hbase ih hlo hhi hlen hsize howns
    exact ⟨procs, hok, hshare⟩

end Loop

/-! ## The fork of a process -/

section Fork

variable {slots : List Bool → Bool} {original : Nat} {newStates : List Nat} {p : Process}

theorem doProcessFork_spec (hn : 2 ≤ newStates.length) (hnodup : newStates.Nodup) (hfresh : p.Fresh)
    (halive : ∀ s ∈ newStates, p.Alive s) :
    ∃ procs, doProcessFork slots original newStates p = .ok procs ∧ Shares p newStates original newStates procs ∧
      (procs.length = 1 ↔ slots [] = false) := by
  have hall : segment newStates (0 : Nat) newStates.length = newStates := by
    rw [segment_cast]
    simp
  have howns : Owns p newStates original p false (segment newStates (0 : Nat) newStates.length) := by
    rw [hall]
    exact ⟨hfresh, rfl, fun t => (and_iff_left id).symm, by simp⟩
  have hmid : (newStates.length : Int).tdiv 2 = (newStates.length / 2 : Nat) := by grind
  have hfork := @forkLoop_succ slots p newStates original hnodup halive newStates.length []
    (forkLoop_spec hnodup halive _) p false 0 (newStates.length / 2) newStates.length (by omega) (by omega) le_rfl
    (by omega) howns
  rwa [hall, ← hmid] at hfork

/-- For every number of new states and all outcomes of the forks, each new state is left in exactly one of the resulting
processes, and the flag is set by this fork exactly where the original state was terminated. There is one process only if
the first fork finds no slot. -/
theorem doProcessFork_partition (hn : 2 ≤ newStates.length) (hnodup : newStates.Nodup) (hfresh : p.Fresh)
    (halive : ∀ s ∈ newStates, p.Alive s) (horiginal : p.Alive original) :
    ∃ procs, doProcessFork slots original newStates p = .ok procs ∧ (procs.length = 1 ↔ slots [] = false) ∧
      (∀ s ∈ newStates, procs.countP (fun q => q.Alive s) = 1) ∧
      ∀ q ∈ procs, q.forkProcTerminateCurrentState = true ↔
        p.forkProcTerminateCurrentState = true ∨ ¬ q.Alive original := by
  obtain ⟨procs, hok, hshare, hlen⟩ := @doProcessFork_spec slots original newStates p hn hnodup hfresh halive
  refine ⟨procs, hok, hlen, fun s hs => by rw [hshare.count s hs, if_pos hs], fun q hq => ?_⟩
  rw [hshare.flag q hq]
  refine or_congr_right ⟨fun h => h.2, fun h => ⟨?_, h⟩⟩
  by_contra hnew
  exact h ((hshare.others original hnew q hq).2 horiginal)

/-- The states that are not among the new ones are left in exactly one process each only if there are none, or if the
first fork fails: every process has all of them. -/
theorem doProcessFork_others_iff (hn : 2 ≤ newStates.length) (hnodup : newStates.Nodup) (hfresh : p.Fresh)
    (halive : ∀ s ∈ newStates, p.Alive s) :
    ∃ procs, doProcessFork slots original newStates p = .ok procs ∧
      ((∀ s, p.Alive s → s ∉ newStates → procs.countP (fun q => q.Alive s) = 1) ↔
        slots [] = false ∨ ∀ s, p.Alive s → s ∈ newStates) := by
  obtain ⟨procs, hok, hshare, hlen⟩ := @doProcessFork_spec slots original newStates p hn hnodup hfresh halive
  have hcount : ∀ s, p.Alive s → s ∉ newStates → procs.countP (fun q => q.Alive s) = procs.length := by
    intro s hs hnew
    exact countP_eq_length.2 fun q hq => decide_eq_true ((hshare.others s hnew q hq).2 hs)
  refine ⟨procs, hok, fun h => ?_, fun h s hs hnew => ?_⟩
  · by_cases hnone : ∀ s, p.Alive s → s ∈ newStates
    · exact .inr hnone
    · grind
  · rcases h with hslot | hnone
    · rw [hcount s hs hnew, hlen.2 hslot]
    · exact absurd (hnone s hs) hnew

end Fork

/-- A process whose current state 0 forks into 0, 2 and 3 while the state 1 is pending. -/
def forking : Process := ⟨{0, 1}, {2, 3}, ∅, ∅, false, false⟩

theorem forking_fresh : forking.Fresh := by
  unfold Process.Fresh
  decide

theorem doProcessFork_partition_three : ∃ procs, doProcessFork (fun _ => true) 0 [0, 2, 3] forking = .ok procs ∧
      (procs.length = 1 ↔ (fun _ : List Bool => true) [] = false) ∧ (∀ s ∈ [0, 2, 3], procs.countP (fun q => q.Alive s) = 1) ∧
      ∀ q ∈ procs, q.forkProcTerminateCurrentState = true ↔
        forking.forkProcTerminateCurrentState = true ∨ ¬ q.Alive 0 :=
  doProcessFork_partition (by decide) (by decide) forking_fresh (by decide) (by decide)

theorem doProcessFork_others_iff_three : ∃ procs, doProcessFork (fun _ => true) 0 [0, 2, 3] forking = .ok procs ∧
      ((∀ s, forking.Alive s → s ∉ [0, 2, 3] → procs.countP (fun q => q.Alive s) = 1) ↔
        (fun _ : List Bool => true) [] = false ∨ ∀ s, forking.Alive s → s ∈ [0, 2, 3]) :=
  doProcessFork_others_iff (by decide) (by decide) forking_fresh (by decide)

/-- With one more state pending and a slot free, that state is left in both processes. -/
theorem doProcessFork_duplicates :
    ∃ procs, doProcessFork (fun _ => true) 0 [0, 2] ⟨{0, 1}, {2}, ∅, ∅, false, false⟩ = .ok procs ∧
      procs.length = 2 ∧ procs.countP (fun q => q.Alive 1) = 2 :=
  ⟨_, rfl, rfl, by decide⟩

end S2E.Qemu
