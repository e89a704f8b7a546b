import S2E.Klee.Core.PTree.Marks

/-!
# Runs of the executor on its process tree

* `View` : the live states, which of them are suspended, and the sets of the executor; `Cmd.apply` : what an operation
  does to it. There is no result where the source stops at an assertion;
* `Spread node status L` : the leaves `L` hold the live states, each once and marked unless it is suspended;
* `Sim e v` : the executor with its tree in memory is in the state `v`; `exec_sim` : one operation, `runAll_sim` : a run.
-/

namespace S2E.Klee.PTree

open Lib Lib.ParentTree Function Option

variable {S : Type} [LinearOrder S]

def Cmd.exec : Cmd S → Executor S → Except Fault (Executor S)
  | .fork current new swap => PTree.fork current new swap
  | .terminateState state => PTree.terminateState state
  | .updateStates => PTree.updateStates
  | .suspendState state => PTree.suspendState state
  | .resumeState state => PTree.resumeState state

def runAll : List (Cmd S) → Executor S → Except Fault (Executor S)
  | [], e => return e
  | c :: cs, e => do runAll cs (← c.exec e)

/-- `status s` is `some true` for a live state, and `some false` for one that is suspended. -/
structure View (S : Type) where
  status : S → Option Bool
  states : Finset S
  addedStates : Finset S
  removedStates : Finset S

def View.dropRemoved : List S → View S → Option (View S)
  | [], v => some v
  | state :: rest, v =>
    if state ∈ v.states then
      View.dropRemoved rest { v with status := update v.status state none, states := v.states.erase state }
    else none

def Cmd.apply (v : View S) : Cmd S → Option (View S)
  | .fork current new _ =>
    match v.status current, v.status new with
    | some true, none => some { v with
        status := update v.status new (some true)
        addedStates := insert new v.addedStates }
    | some false, none => none
    | _, _ => some v
  | .terminateState state =>
    if v.status state = none then some v
    else if state ∈ v.addedStates then some { v with
      status := update v.status state none
      addedStates := v.addedStates.erase state }
    else some { v with removedStates := insert state v.removedStates }
  | .updateStates => do
    let v ← View.dropRemoved (MapOfSets.elements v.removedStates)
      { v with states := v.states ∪ v.addedStates, addedStates := ∅ }
    return { v with removedStates := ∅ }
  | .suspendState state =>
    if v.status state = none then some v
    else if state ∈ v.states then some { v with
      status := update v.status state (some false)
      states := v.states.erase state }
    else none
  | .resumeState state =>
    if v.status state = none ∨ state ∈ v.states then some v
    else some { v with status := update v.status state (some true), states := insert state v.states }

def applyAll (v : View S) : List (Cmd S) → Option (View S)
  | [] => some v
  | c :: cs => do applyAll (← c.apply v) cs

/-! ## The states at the leaves -/

def Spread (node : S → Option Nat) (status : S → Option Bool) (L : List (Leaf S)) : Prop :=
  (L.map (·.1)).Nodup ∧ ∀ s a b, (s, a, b) ∈ L ↔ node s = some a ∧ status s = some b

section Spread

variable {node : S → Option Nat} {status : S → Option Bool} {L L' : List (Leaf S)} {s : S} {a : Nat} {b : Bool}

omit [LinearOrder S] in
theorem Spread.perm (h : Spread node status L) (hp : L'.Perm L) : Spread node status L' :=
  ⟨(hp.map _).nodup_iff.2 h.1, fun s a b => hp.mem_iff.trans (h.2 s a b)⟩

theorem spread_cons : Spread node status ((s, a, b) :: L) ↔
    (node s = some a ∧ status s = some b) ∧ Spread (update node s none) (update status s none) L := by
  constructor
  · rintro ⟨hnodup, hmem⟩
    obtain ⟨hs, hrest⟩ := List.nodup_cons.1 hnodup
    refine ⟨(hmem s a b).1 List.mem_cons_self, hrest, fun s' a' b' => ?_⟩
    by_cases heq : s' = s
    · subst heq
      simp only [update_self, reduceCtorEq, false_and, iff_false]
      exact fun he => hs (List.mem_map.2 ⟨_, he, rfl⟩)
    · rw [update_of_ne heq, update_of_ne heq, ← hmem, List.mem_cons]
      simp [heq]
  · rintro ⟨⟨hnode, hstatus⟩, hrest, hmem⟩
    refine ⟨List.nodup_cons.2 ⟨?_, hrest⟩, fun s' a' b' => ?_⟩
    · intro hs
      obtain ⟨⟨s', a', b'⟩, he, rfl⟩ := List.mem_map.1 hs
      have := ((hmem _ _ _).1 he).1
      rw [update_self] at this
      cases this
    · rw [List.mem_cons, hmem]
      by_cases heq : s' = s
      · subst heq
        simp only [Prod.mk.injEq, true_and, update_self, reduceCtorEq, false_and, or_false, hnode, hstatus,
          some.injEq]
        exact and_congr eq_comm eq_comm
      · simp [heq]

end Spread

/-! ## Steps -/

structure Sim (e : Executor S) (v : View S) : Prop where
  states : e.states = v.states
  addedStates : e.addedStates = v.addedStates
  removedStates : e.removedStates = v.removedStates
  live : ∀ s, e.ptreeNode s = none ↔ v.status s = none
  tree : (∀ s, v.status s = none) ∨
    ∃ t, Holds e.tree t [] ∧ t ≠ .nil ∧ Correct t ∧ Spread e.ptreeNode v.status (leaves t)

variable {node : S → Option Nat} {status : S → Option Bool}

section Steps

variable {e : Executor S} {v : View S} {s : S} {a : Nat}

section

omit [LinearOrder S]

theorem Sim.focus (h : Sim e v) (hs : e.ptreeNode s = some a) : ∃ b fs, v.status s = some b ∧
    Holds e.tree (.node (a, ⟨some s, b⟩) .nil .nil) fs ∧ PathCorrect b fs ∧
    Spread e.ptreeNode v.status ((s, a, b) :: outside fs) := by
  have hstatus : v.status s ≠ none := fun hnone => by
    rw [(h.live s).2 hnone] at hs
    cases hs
  obtain ⟨b, hb⟩ := ne_none_iff_exists'.1 hstatus
  rcases h.tree with hnone | ⟨t, hh, -, hc, hspread⟩
  · exact absurd (hnone s) hstatus
  · obtain ⟨fs, hh', hp, hperm⟩ := exists_focus hh hc trivial ((hspread.2 s a b).2 ⟨hs, hb⟩)
    rw [outside, List.append_nil] at hperm
    exact ⟨b, fs, hb, hh', hp, hspread.perm hperm.symm⟩

theorem onTree_eq {α : Type} {m : TreeM S α} {x : α} {h : ParentTree.Heap (NodeData S)} (hm : m.run e.tree = .ok (x, h)) :
    e.onTree m = .ok (x, { e with tree := h }) := by
  rw [Executor.onTree, hm]
  rfl

theorem Spread.none_of_nil (h : Spread node status [])
    (hlive : ∀ s, node s = none ↔ status s = none) (s : S) : status s = none := by
  cases hs : status s with
  | none => rfl
  | some b =>
    cases ha : node s with
    | none => rw [← hs, (hlive s).1 ha]
    | some a => cases (h.2 s a b).2 ⟨ha, hs⟩

end

/-- What an operation makes of the executor. -/
def Follows (r : Except Fault (Executor S)) (v : Option (View S)) : Prop :=
  match v with
  | none => r = .error .assertFailed
  | some v => ∃ e, r = .ok e ∧ Sim e v

theorem live_update (h : ∀ s, node s = none ↔ status s = none)
    (s : S) (o : Option Nat) (p : Option Bool) (hop : o = none ↔ p = none) :
    ∀ s', update node s o s' = none ↔ update status s p s' = none := by
  intro s'
  by_cases heq : s' = s
  · subst heq
    rwa [update_self, update_self]
  · rw [update_of_ne heq, update_of_ne heq]
    exact h s'

theorem deleteState_sim (h : Sim e v) : ∃ e', deleteState s e = .ok e' ∧
    Sim e' { v with status := update v.status s none } := by
  rw [deleteState]
  cases hs : e.ptreeNode s with
  | none =>
    have hnone := (h.live s).1 hs
    have hsame : update v.status s none = v.status := by rw [← hnone, update_eq_self]
    rw [hsame]
    exact ⟨e, rfl, h⟩
  | some a =>
    obtain ⟨b, fs, hb, hh, hp, hspread⟩ := h.focus hs
    obtain ⟨_, h', hrun, hresult⟩ := remove_runs hh hp
    obtain ⟨-, hrest⟩ := spread_cons.1 hspread
    have hlive := live_update h.live s none none (by simp)
    refine ⟨{ e with tree := h', ptreeNode := update e.ptreeNode s none }, ?_, h.states, h.addedStates,
      h.removedStates, hlive, ?_⟩
    · show (e.onTree (remove a) >>= _) = _
      rw [onTree_eq hrun]
      rfl
    · rcases hresult with hnil | ⟨t', hh', hne', hc', hperm⟩
      · rw [hnil] at hrest
        exact .inl (hrest.none_of_nil hlive)
      · exact .inr ⟨t', hh', hne', hc', hrest.perm hperm⟩

theorem setMark_sim {m : TreeM S Unit} {b : Bool} (b' : Bool) {fs : List (Frame (NodeData S))} (h : Sim e v)
    (hs : e.ptreeNode s = some a) (hspread : Spread e.ptreeNode v.status ((s, a, b) :: outside fs))
    (hm : Runs m e.tree fun _ h' => ∃ fs', Holds h' (.node (withActive b' (a, ⟨some s, b⟩)) .nil .nil) fs' ∧
      PathCorrect b' fs' ∧ outside fs' = outside fs) : ∃ h', e.onTree m = .ok ((), { e with tree := h' }) ∧
      Sim { e with tree := h' } { v with status := update v.status s (some b') } := by
  obtain ⟨_, h', hrun, fs', hh', hp', hout⟩ := hm
  refine ⟨h', onTree_eq hrun, h.states, h.addedStates, h.removedStates, ?_, .inr ?_⟩
  · have hlive := live_update h.live s (some a) (some b') (by simp)
    rwa [← hs, update_eq_self] at hlive
  · obtain ⟨t', hh'', hne', hc', hperm⟩ := zip_up hh' (by simp) ⟨.inl ⟨rfl, rfl, by simp [withActive]⟩, trivial, trivial⟩ hp'
    refine ⟨t', hh'', hne', hc', Spread.perm (L := (s, a, b') :: outside fs) ?_ ?_⟩
    · obtain ⟨-, hrest⟩ := spread_cons.1 hspread
      refine spread_cons.2 ⟨⟨hs, update_self ..⟩, ?_⟩
      rwa [update_idem]
    · rw [hout] at hperm
      exact hperm

theorem spread_fork {L : List (Leaf S)} {current new : S} {n l r : Nat}
    {first second : S} (hpair : first = current ∧ second = new ∨ first = new ∧ second = current)
    (hspread : Spread node status ((current, n, true) :: L)) (hnode : node new = none) (hstatus : status new = none) :
    Spread (update (update node first (some l)) second (some r))
      (update status new (some true)) ((first, l, true) :: (second, r, true) :: L) := by
  obtain ⟨⟨hn, ht⟩, hrest⟩ := spread_cons.1 hspread
  have hne : current ≠ new := by
    rintro rfl
    rw [hnode] at hn
    cases hn
  have hmarked : ∀ s, s = current ∨ s = new → update status new (some true) s = some true := by
    rintro s (rfl | rfl)
    · rwa [update_of_ne hne]
    · rw [update_self]
  have hdiff : first ≠ second := by
    rcases hpair with ⟨rfl, rfl⟩ | ⟨rfl, rfl⟩
    · exact hne
    · exact hne.symm
  have hfirst : first = current ∨ first = new := hpair.imp And.left And.left
  have hsecond : second = current ∨ second = new := hpair.symm.imp And.right And.right
  refine spread_cons.2 ⟨⟨?_, hmarked first hfirst⟩, spread_cons.2 ⟨⟨?_, ?_⟩, ?_⟩⟩
  · rw [update_of_ne hdiff, update_self]
  · rw [update_of_ne hdiff.symm, update_self]
  · rw [update_of_ne hdiff.symm]
    exact hmarked second hsecond
  · -- away from the two states nothing has changed
    have hclear : ∀ {β : Type} (f g : S → Option β), (∀ s, s ≠ first → s ≠ second → f s = g s) → g new = none →
        update (update f first none) second none = update g current none := by
      intro β f g hfg hg
      funext s
      by_cases hs : s = current ∨ s = new
      · have hleft : update (update f first none) second none s = none := by
          by_cases heq : s = second
          · rw [heq, update_self]
          · have hsf : s = first := by
              rcases hpair with ⟨rfl, rfl⟩ | ⟨rfl, rfl⟩
              · exact hs.resolve_right heq
              · exact hs.resolve_left heq
            rw [update_of_ne heq, hsf, update_self]
        rw [hleft]
        rcases hs with rfl | rfl
        · rw [update_self]
        · rw [update_of_ne hne.symm, hg]
      · obtain ⟨hsc, hsn⟩ := not_or.1 hs
        have hs₁ : s ≠ first := by rintro rfl; exact hs hfirst
        have hs₂ : s ≠ second := by rintro rfl; exact hs hsecond
        rw [update_of_ne hs₂, update_of_ne hs₁, update_of_ne hsc, hfg s hs₁ hs₂]
    rw [hclear _ node (fun s h₁ h₂ => by rw [update_of_ne h₂, update_of_ne h₁]) hnode,
      hclear _ status (fun s h₁ h₂ => ?_) hstatus]
    · exact hrest
    · refine update_of_ne ?_ ..
      rintro rfl
      rcases hpair with ⟨-, rfl⟩ | ⟨rfl, -⟩
      · exact h₂ rfl
      · exact h₁ rfl

omit [LinearOrder S] in
/-- The state of a leaf that forks is taken out of it. -/
theorem Sim.clear {b : Bool} {fs : List (Frame (NodeData S))} {γ : Type} {m : TreeM S γ}
    (hh : Holds e.tree (.node (a, ⟨some s, b⟩) .nil .nil) fs) : ∃ h, Holds h (.node (a, ⟨none, b⟩) .nil .nil) fs ∧
      (do update a fun c => { c with data := { c.data with data := none } }; m : TreeM S γ).run e.tree = m.run h := by
  have hset := Holds.setData (d := .left) hh (⟨none, b⟩ : NodeData S)
  obtain ⟨_, _, hrun, rfl⟩ := update_runs (g := fun c => { c with data := { c.data with data := none } })
    (Q := fun _ h' => h' = e.tree.set a (some (.along .left (up fs) none none ⟨none, b⟩))) hh.cell rfl
  exact ⟨_, hset, run_bind_ok hrun⟩

variable (h : Sim e v)
include h

omit [LinearOrder S] in
theorem Sim.exists_status : ∃ status, v = ⟨status, e.states, e.addedStates, e.removedStates⟩ :=
  ⟨v.status, by rw [h.states, h.addedStates, h.removedStates]⟩

theorem fork_sim (current new : S) (swap : Bool) :
    Follows (fork current new swap e) ((Cmd.fork current new swap).apply v) := by
  rw [fork, Cmd.apply]
  cases hn : e.ptreeNode current with
  | none =>
    rw [(h.live current).1 hn]
    exact ⟨e, rfl, h⟩
  | some n =>
    obtain ⟨b, fs, hb, hh, hp, hspread⟩ := h.focus hn
    rw [hb]
    cases hnew : e.ptreeNode new with
    | some k =>
      obtain ⟨b', fs', hb', -⟩ := h.focus hnew
      rw [hb']
      cases b <;> exact ⟨e, rfl, h⟩
    | none =>
      have hfresh := (h.live new).1 hnew
      rw [hfresh]
      have hpair : (if swap then current else new) = current ∧ (if swap then new else current) = new ∨
          (if swap then current else new) = new ∧ (if swap then new else current) = current := by
        cases swap <;> simp
      revert hpair
      generalize (if swap then current else new) = first
      generalize (if swap then new else current) = second
      intro hpair
      obtain ⟨h₁, hh₁, hclear⟩ := Sim.clear (m := split n first second) hh
      cases b with
      | false =>
        show (e.onTree _ >>= _) = _
        rw [Executor.onTree, hclear, split_fails hh₁ rfl]
        rfl
      | true =>
        obtain ⟨⟨l, r⟩, h₂, hsplit, t', hh₂, hne, hc, hperm⟩ := split_runs hh₁ rfl hp first second
        refine ⟨{ e with
            tree := h₂
            ptreeNode := update (update e.ptreeNode first (some l)) second (some r)
            addedStates := insert new e.addedStates }, ?_, ?_⟩
        · show (e.onTree _ >>= _) = _
          rw [onTree_eq (hclear.trans hsplit)]
          rfl
        · refine ⟨h.states, congrArg (insert new) h.addedStates, h.removedStates, ?_, .inr ⟨t', hh₂, hne, hc, ?_⟩⟩
          · have hne : current ≠ new := by
              rintro rfl
              cases hn.symm.trans hnew
            have hlive := live_update (live_update h.live first (some l) (some true) (by simp)) second (some r) (some true)
              (by simp)
            have hstatus : update (update v.status first (some true)) second (some true) =
                update v.status new (some true) := by
              rcases hpair with ⟨rfl, rfl⟩ | ⟨rfl, rfl⟩
              · rw [← hb, update_eq_self]
              · rw [update_comm hne.symm, ← hb, update_eq_self]
            rwa [hstatus] at hlive
          · exact (spread_fork hpair hspread hnew hfresh).perm hperm

theorem terminateState_sim (state : S) : Follows (terminateState state e) ((Cmd.terminateState state).apply v) := by
  obtain ⟨status, rfl⟩ := h.exists_status
  rw [terminateState, Cmd.apply]
  by_cases hs : e.ptreeNode state = none
  · rw [if_pos hs, if_pos ((h.live state).1 hs)]
    exact ⟨e, rfl, h⟩
  rw [if_neg hs, if_neg fun hnone => hs ((h.live state).2 hnone)]
  split_ifs with hadded
  · have hsim : Sim { e with addedStates := e.addedStates.erase state }
        ⟨status, e.states, e.addedStates.erase state, e.removedStates⟩ := ⟨rfl, rfl, rfl, h.live, h.tree⟩
    exact deleteState_sim hsim
  · exact ⟨_, rfl, rfl, rfl, rfl, h.live, h.tree⟩

theorem dropRemoved_sim (L : List S) : Follows (dropRemoved L e) (View.dropRemoved L v) := by
  induction L generalizing e v with
  | nil => exact ⟨e, rfl, h⟩
  | cons state rest ih =>
    obtain ⟨status, rfl⟩ := h.exists_status
    rw [dropRemoved, View.dropRemoved]
    split_ifs with hmem
    · have hsim : Sim { e with states := e.states.erase state } ⟨status, e.states.erase state, e.addedStates, e.removedStates⟩ :=
        ⟨rfl, rfl, rfl, h.live, h.tree⟩
      obtain ⟨e', hdelete, hsim'⟩ := deleteState_sim (s := state) hsim
      rw [hdelete]
      exact ih hsim'
    · rfl

theorem updateStates_sim : Follows (updateStates e) (Cmd.updateStates.apply v) := by
  obtain ⟨status, rfl⟩ := h.exists_status
  have hsim : Sim { e with states := e.states ∪ e.addedStates, addedStates := ∅ }
      ⟨status, e.states ∪ e.addedStates, ∅, e.removedStates⟩ := ⟨rfl, rfl, rfl, h.live, h.tree⟩
  have hdrop := dropRemoved_sim hsim (MapOfSets.elements e.removedStates)
  rw [updateStates, Cmd.apply]
  cases hv : View.dropRemoved (MapOfSets.elements e.removedStates)
      ⟨status, e.states ∪ e.addedStates, ∅, e.removedStates⟩ with
  | none =>
    rw [hv] at hdrop
    rw [show dropRemoved _ _ = _ from hdrop]
    rfl
  | some v' =>
    rw [hv] at hdrop
    obtain ⟨e', hrun, hsim'⟩ := hdrop
    rw [hrun]
    exact ⟨_, rfl, hsim'.states, hsim'.addedStates, rfl, hsim'.live, hsim'.tree⟩

theorem suspendState_sim (state : S) : Follows (suspendState state e) ((Cmd.suspendState state).apply v) := by
  obtain ⟨status, rfl⟩ := h.exists_status
  rw [suspendState, Cmd.apply]
  cases hs : e.ptreeNode state with
  | none =>
    rw [if_pos ((h.live state).1 hs)]
    exact ⟨e, rfl, h⟩
  | some a =>
    obtain ⟨b, fs, hb, hh, hp, hspread⟩ := h.focus hs
    rw [if_neg fun hnone => by cases hb.symm.trans hnone]
    by_cases hmem : state ∈ e.states
    · obtain ⟨h', hrun, hsim⟩ := setMark_sim false h hs hspread (deactivate_runs hh hp)
      simp only [if_pos hmem]
      rw [show e.onTree (deactivate a) = _ from hrun]
      exact ⟨_, rfl, rfl, rfl, rfl, hsim.live, hsim.tree⟩
    · simp only [if_neg hmem]
      rfl

theorem resumeState_sim (state : S) : Follows (resumeState state e) ((Cmd.resumeState state).apply v) := by
  obtain ⟨status, rfl⟩ := h.exists_status
  rw [resumeState, Cmd.apply]
  cases hs : e.ptreeNode state with
  | none =>
    rw [if_pos (.inl ((h.live state).1 hs))]
    exact ⟨e, rfl, h⟩
  | some a =>
    obtain ⟨b, fs, hb, hh, hp, hspread⟩ := h.focus hs
    by_cases hmem : state ∈ e.states
    · rw [if_pos (.inr hmem)]
      simp only [if_pos hmem]
      exact ⟨e, rfl, h⟩
    · rw [if_neg (not_or.2 ⟨(fun hnone => by cases hb.symm.trans hnone), hmem⟩)]
      simp only [if_neg hmem]
      obtain ⟨h', hrun, hsim⟩ := setMark_sim true h hs hspread (activate_runs hh hp)
      rw [show e.onTree (activate a) = _ from hrun]
      exact ⟨_, rfl, rfl, rfl, rfl, hsim.live, hsim.tree⟩

theorem exec_sim (c : Cmd S) : Follows (c.exec e) (c.apply v) := by
  cases c with
  | fork current new swap => exact fork_sim h current new swap
  | terminateState state => exact terminateState_sim h state
  | updateStates => exact updateStates_sim h
  | suspendState state => exact suspendState_sim h state
  | resumeState state => exact resumeState_sim h state

theorem runAll_sim (cs : List (Cmd S)) : Follows (runAll cs e) (applyAll v cs) := by
  induction cs generalizing e v with
  | nil => exact ⟨e, rfl, h⟩
  | cons c cs ih =>
    have hstep := exec_sim h c
    rw [runAll, applyAll]
    cases hv : c.apply v with
    | none =>
      rw [hv] at hstep
      rw [show c.exec e = _ from hstep]
      rfl
    | some v' =>
      rw [hv] at hstep
      obtain ⟨e', hrun, hsim⟩ := hstep
      rw [hrun]
      exact ih hsim

end Steps

/-! ## Runs -/

/-- The executor with its first state. -/
def Executor.start (root : S) : Executor S :=
  ⟨PTree.start root, update (fun _ => none) root (some 0), {root}, ∅, ∅⟩

def View.start (root : S) : View S := ⟨update (fun _ => none) root (some true), {root}, ∅, ∅⟩

theorem start_sim (root : S) : Sim (Executor.start root) (View.start root) := by
  refine ⟨rfl, rfl, rfl, live_update (fun _ => by simp) root (some 0) (some true) (by simp), .inr ?_⟩
  refine ⟨.node (0, ⟨some root, true⟩) .nil .nil, ⟨⟨?_, trivial, trivial⟩, rfl, fun a => ?_, fun a ha => ?_, le_rfl⟩, by simp,
    ⟨.inl ⟨rfl, rfl, by simp⟩, trivial, trivial⟩, ?_⟩
  · simp [Executor.start, PTree.start, up]
  · rw [occ_node, occ_nil, occPath_nil]
    split_ifs <;> omega
  · rw [occ_node, occ_nil, occPath_nil] at ha
    split_ifs at ha with h0
    · subst h0
      exact Nat.one_pos
    · omega
  · refine spread_cons.2 ⟨by simp [Executor.start, View.start], List.nodup_nil, fun s a b => ?_⟩
    simp [Executor.start, View.start, leaves]

/-- From the first state on, over every run of forks, terminations, suspensions and resumptions that does not stop at an
assertion, the tree in memory has the live states at its leaves, marked unless they are suspended, every node is marked if
and only if a leaf below it is, and the searcher, whatever the random numbers, returns a state that is not suspended if
there is one. -/
theorem tree_marks_and_selection (root : S) (cs : List (Cmd S)) : match applyAll (View.start root) cs with
    | none => runAll cs (Executor.start root) = .error .assertFailed
    | some v => ∃ e, runAll cs (Executor.start root) = .ok e ∧
        ((∃ s, v.status s ≠ none) → ∃ t, Holds e.tree t [] ∧ Correct t ∧ Marked t ∧
          ∀ s b, v.status s = some b ↔ ∃ a, e.ptreeNode s = some a ∧ (s, a, b) ∈ leaves t) ∧
        ((∃ s, v.status s = some true) → ∀ rng, Runs (selectState rng) e.tree fun s h =>
          h = e.tree ∧ v.status s = some true) := by
  have hrun := runAll_sim (start_sim root) cs
  cases hv : applyAll (View.start root) cs with
  | none =>
    rw [hv] at hrun
    exact hrun
  | some v =>
    rw [hv] at hrun
    obtain ⟨e, hok, hsim⟩ := hrun
    refine ⟨e, hok, ?_, ?_⟩
    · rintro ⟨s, hs⟩
      rcases hsim.tree with hnone | ⟨t, hh, -, hc, hspread⟩
      · exact absurd (hnone s) hs
      · refine ⟨t, hh, hc, hc.marked, fun s' b => ⟨fun hb => ?_, fun ⟨a, ha, he⟩ => ((hspread.2 s' a b).1 he).2⟩⟩
        have hnode : e.ptreeNode s' ≠ none := fun hnone => by cases hb.symm.trans ((hsim.live s').1 hnone)
        obtain ⟨a, ha⟩ := ne_none_iff_exists'.1 hnode
        exact ⟨a, ha, (hspread.2 s' a b).2 ⟨ha, hb⟩⟩
    · rintro ⟨s, hs⟩ rng
      rcases hsim.tree with hnone | ⟨t, hh, -, hc, hspread⟩
      · cases hs.symm.trans (hnone s)
      · have hnode : e.ptreeNode s ≠ none := fun hnone => by cases hs.symm.trans ((hsim.live s).1 hnone)
        obtain ⟨a, ha⟩ := ne_none_iff_exists'.1 hnode
        refine (selectState_runs rng hh hc ⟨(s, a, true), (hspread.2 s a true).2 ⟨ha, hs⟩, rfl⟩).mono ?_
        rintro s' _ ⟨rfl, a', he⟩
        exact ⟨rfl, ((hspread.2 s' a' true).1 he).2⟩

end S2E.Klee.PTree
