import S2E.Klee.Core.MergingSearcher.Code

/-!
# What `MergingSearcher` does with the states

For a base searcher that holds the states it was given and not told to remove (`Keeps`), every live state is in it or waits
at a merge point, and in one of the two only (`Placed`).

A state that was merged away waits until the next `updateStates`, and the recursion of `selectState` may toss it back if all
states come to a merge point again. It is not returned then: one instruction ahead of it there is a state that was at a
merge point (`Lags`), so that the instruction it comes to is one.
-/

namespace S2E.Klee.MergingSearcher

open Lib Lib.ParentTree Finset
open MapOfSets (elements mem_elements elements_nodup)

variable {S B : Type} [LinearOrder S]

/-- A searcher that holds the states it was told to add and not told to remove. -/
structure Keeps (I : Searcher S B) (Valid : B → Prop) (members : B → Finset S) : Prop where
  empty_iff : ∀ {b}, Valid b → (I.empty b = true ↔ members b = ∅)
  selects : ∀ {b}, Valid b → (members b).Nonempty →
    ∃ es b', I.selectState b = .ok (es, b') ∧ Valid b' ∧ members b' = members b ∧ es ∈ members b
  updates : ∀ {b} (current : Option S) {added removed : Finset S}, Valid b → Disjoint (members b) added →
    removed ⊆ members b ∪ added →
    ∃ b', I.update b current added removed = .ok b' ∧ Valid b' ∧ members b' = (members b ∪ added) \ removed

variable {I : Searcher S B} {P : Program} {outcome : Nat → S → S → Bool} {Valid : B → Prop} {members : B → Finset S}
  {w : World S B}

variable (Valid members) in
structure Placed (w : World S B) : Prop where
  valid : Valid w.base
  apart : ∀ s ∈ members w.base, s ∉ w.statesAtMerge
  live : ∀ s, s ∈ w.states ↔ s ∈ members w.base ∨ s ∈ w.statesAtMerge

theorem lt_of_getMergePoint {pc : Nat} (h : getMergePoint P pc ≠ 0) : pc < P.code.length := by
  by_contra hge
  apply h
  unfold getMergePoint
  rw [List.getElem?_eq_none (Nat.le_of_not_lt hge)]
  cases P.mergeFunction <;> rfl

omit [LinearOrder S] in
theorem onBase_run {α : Type} {f : B → Except Fault (α × B)} {a : α} {b : B} (h : f w.base = .ok (a, b)) :
    (onBase f).run w = .ok (a, { w with base := b }) := by
  show (f w.base >>= fun p => pure (p, w)) >>= _ = _
  rw [h]
  rfl

theorem mem_flatten_merges {s : S} : s ∈ (merges w).flatten ↔ s ∈ w.statesAtMerge := by
  simp only [merges, List.mem_flatten, List.mem_map, mem_elements, mem_image]
  constructor
  · rintro ⟨_, ⟨mp, _, rfl⟩, hs⟩
    exact (mem_filter.mp (mem_elements.mp hs)).1
  · intro hs
    exact ⟨_, ⟨w.mergePoint s, ⟨s, hs, rfl⟩, rfl⟩, mem_elements.mpr (mem_filter.mpr ⟨hs, rfl⟩)⟩

theorem nodup_flatten_merges : (merges w).flatten.Nodup := by
  rw [List.nodup_flatten]
  constructor
  · intro l hl
    obtain ⟨mp, _, rfl⟩ := List.mem_map.mp hl
    exact elements_nodup _
  · rw [merges, List.pairwise_map]
    refine (elements_nodup _).imp fun hne s hs hs' => hne ?_
    have h₁ := (mem_filter.mp (mem_elements.mp hs)).2
    have h₂ := (mem_filter.mp (mem_elements.mp hs')).2
    exact h₁.symm.trans h₂

section Base

variable (hk : Keeps I Valid members)

include hk

theorem select_runs (hv : Valid w.base) (hne : (members w.base).Nonempty) : Runs (onBase I.selectState) w fun es w' =>
      es ∈ members w.base ∧ ∃ b, w' = { w with base := b } ∧ Valid b ∧ members b = members w.base := by
  obtain ⟨es, b, hsel, hb, hmem, hes⟩ := hk.selects hv hne
  exact ⟨es, { w with base := b }, onBase_run hsel, hes, b, rfl, hb, hmem⟩

theorem updateBase_runs (current : Option S) {added removed : Finset S} (hv : Valid w.base)
    (hd : Disjoint (members w.base) added) (hr : removed ⊆ members w.base ∪ added) :
    Runs (updateBase I current added removed) w fun _ w' =>
      ∃ b, w' = { w with base := b } ∧ Valid b ∧ members b = (members w.base ∪ added) \ removed := by
  obtain ⟨b, hup, hb, hmem⟩ := hk.updates current hv hd hr
  refine ⟨(), { w with base := b }, onBase_run ?_, b, rfl, hb, hmem⟩
  rw [hup]
  rfl

theorem queueStateForMerge_runs {es : S} (mp : Nat) (hw : Placed Valid members w) (hes : es ∈ members w.base) :
    Runs (queueStateForMerge I es mp) w fun _ w' =>
      Placed Valid members w' ∧ members w'.base = (members w.base).erase es ∧
      w'.statesAtMerge = insert es w.statesAtMerge ∧ w'.pc = w.pc ∧ w'.states = w.states ∧
      w'.removedStates = w.removedStates ∧ w'.running = w.running := by
  have hup := updateBase_runs (w := w) hk (some es) hw.valid (disjoint_empty_right _)
    (show {es} ⊆ members w.base ∪ ∅ by simpa using hes)
  refine hup.bind ?_
  rintro _ _ ⟨b, rfl, hb, hmem⟩
  have hmem' : members b = (members w.base).erase es := by
    rw [hmem, union_empty, sdiff_singleton_eq_erase]
  have := hw.apart
  have := hw.live
  refine ⟨(), _, rfl, ⟨hb, ?_, ?_⟩, hmem', rfl, rfl, rfl, rfl, rfl⟩
  · grind
  · grind

/-! ## The loop over the base searcher -/

variable (P members) in
/-- What the loop has done when it stops: the states that were taken out of the base searcher wait. -/
structure Scanned (w w' : World S B) : Prop where
  pc : w'.pc = w.pc
  states : w'.states = w.states
  removed : w'.removedStates = w.removedStates
  running : w'.running = w.running
  sub : members w'.base ⊆ members w.base
  waits : ∀ s, s ∈ w'.statesAtMerge ↔ s ∈ w.statesAtMerge ∨ s ∈ members w.base ∧ s ∉ members w'.base
  atMerge : ∀ s ∈ members w.base, s ∉ members w'.base → getMergePoint P (w.pc s) ≠ 0

omit [LinearOrder S] hk in
theorem Scanned.of_base {b : B} (hmem : members b = members w.base) : Scanned P members w { w with base := b } := by
  refine ⟨rfl, rfl, rfl, rfl, hmem.subset, fun s => ?_, fun s hs hs' => absurd (hmem ▸ hs) hs'⟩
  show s ∈ w.statesAtMerge ↔ s ∈ w.statesAtMerge ∨ s ∈ members w.base ∧ s ∉ members b
  rw [hmem]
  tauto

theorem scan_runs : ∀ {fuel : Nat} {w : World S B}, Placed Valid members w → (members w.base).card < fuel →
    Runs (scan I P fuel) w fun r w' => Placed Valid members w' ∧ Scanned P members w w' ∧
      match r with
      | none => members w'.base = ∅
      | some es => es ∈ members w'.base ∧ getMergePoint P (w'.pc es) = 0
  | fuel + 1, w, hw, hfuel => by
    rw [scan]
    refine Runs.get_bind ?_
    by_cases hempty : I.empty w.base = true
    · rw [if_pos hempty]
      exact Runs.pure ⟨hw, Scanned.of_base rfl, (hk.empty_iff hw.valid).mp hempty⟩
    rw [if_neg hempty]
    have hne : (members w.base).Nonempty := by
      rw [nonempty_iff_ne_empty]
      exact fun h => hempty ((hk.empty_iff hw.valid).mpr h)
    refine (select_runs hk hw.valid hne).bind ?_
    rintro es _ ⟨hes, b, rfl, hb, hmem⟩
    have hw₁ : Placed Valid members { w with base := b } := by
      refine ⟨hb, fun s hs => hw.apart s (hmem ▸ hs), fun s => ?_⟩
      rw [hmem]
      exact hw.live s
    by_cases hmp : getMergePoint P (w.pc es) = 0
    · rw [if_pos hmp]
      exact Runs.pure ⟨hw₁, Scanned.of_base hmem, hmem ▸ hes, hmp⟩
    rw [if_neg hmp]
    have hq := queueStateForMerge_runs hk (getMergePoint P (w.pc es)) hw₁ (hmem ▸ hes)
    refine hq.bind ?_
    rintro _ w₂ ⟨hw₂, hbase, hat, hpc, hst, hre, hrun⟩
    replace hbase : members w₂.base = (members w.base).erase es := by rw [hbase, hmem]
    have hcard : (members w₂.base).card < fuel := by grind
    refine (scan_runs hw₂ hcard).mono ?_
    rintro r w₃ ⟨hw₃, hs, hr⟩
    refine ⟨hw₃, ⟨hs.pc.trans hpc, hs.states.trans hst, hs.removed.trans hre, hs.running.trans hrun, ?_,
      fun s => ?_, fun s h h' => ?_⟩, hr⟩
    · exact hs.sub.trans (hbase ▸ erase_subset _ _)
    · have := hs.sub
      rw [hs.waits, hat, hbase]
      grind
    · by_cases hse : s = es
      · exact hse ▸ hmp
      · have := hs.atMerge s (by rw [hbase]; exact mem_erase.mpr ⟨hse, h⟩) h'
        rwa [hpc] at this

/-! ## Merging -/

omit [LinearOrder S] hk in
/-- Attempts change nothing but their number. The states merged are those at the same instruction for which one ended
well. -/
theorem mergeAll_runs {base : S} : ∀ {l : List S} {w : World S B}, Runs (mergeAll outcome base l) w fun toErase w' =>
      (∃ n, w' = { w with attempts := n }) ∧
      (∀ s ∈ toErase, s ∈ l ∧ w.pc base = w.pc s ∧ ∃ k, outcome k base s = true)
  | [], w => Runs.pure ⟨⟨w.attempts, rfl⟩, by simp⟩
  | m :: rest, w => by
    rw [mergeAll]
    have hm : Runs (merge outcome base m) w fun merged w' =>
        w' = { w with attempts := w.attempts + 1 } ∧
          (merged = true → w.pc base = w.pc m ∧ ∃ k, outcome k base m = true) := by
      refine ⟨_, _, rfl, rfl, fun hm => ?_⟩
      obtain ⟨hpc, hk⟩ := Bool.and_eq_true_iff.1 hm
      exact ⟨of_decide_eq_true hpc, _, hk⟩
    refine hm.bind ?_
    rintro merged _ ⟨rfl, hpc⟩
    refine mergeAll_runs.bind ?_
    rintro toErase _ ⟨⟨n, rfl⟩, hl⟩
    refine Runs.pure ⟨⟨n, rfl⟩, ?_⟩
    cases merged with
    | false => exact fun s hs => ⟨List.mem_cons_of_mem m (hl s hs).1, (hl s hs).2⟩
    | true =>
      intro s hs
      rcases List.mem_cons.mp hs with rfl | hs
      · exact ⟨List.mem_cons_self, hpc rfl⟩
      · exact ⟨List.mem_cons_of_mem m (hl s hs).1, (hl s hs).2⟩

/-- No attempt to merge the running state into another ends well. -/
def Spares (outcome : Nat → S → S → Bool) (w : World S B) : Prop :=
  ∀ r ∈ w.running, ∀ k base, outcome k base r = false

variable (members) in
/-- What is done with a set of waiting states: some are tossed back, one instruction further, and each of the others was at
the same instruction as one of these. What is terminated was not tossed back. -/
structure Merged (A : Finset S) (w w' : World S B) : Prop where
  states : w'.states = w.states
  running : w'.running = w.running
  sub : members w.base ⊆ members w'.base
  new : ∀ s ∈ members w'.base, s ∉ members w.base → s ∈ A
  pc : ∀ s, w'.pc s = if s ∈ members w'.base ∧ s ∉ members w.base then w.pc s + 1 else w.pc s
  removed : ∀ s ∈ w'.removedStates, s ∈ w.removedStates ∨ s ∈ A ∧ s ∉ members w'.base
  ahead : ∀ s ∈ A, ∃ t ∈ members w'.base, t ∉ members w.base ∧ w.pc t = w.pc s

omit hk in
theorem Merged.refl : Merged members ∅ w w :=
  ⟨rfl, rfl, subset_rfl, fun s h h' => absurd h h', fun s => by simp, fun s h => .inl h, by simp⟩

omit hk in
theorem Merged.trans {A A' : Finset S} {w₁ w₂ : World S B} (h : Merged members A w w₁) (h' : Merged members A' w₁ w₂)
    (hA : Disjoint A A') : Merged members (A ∪ A') w w₂ := by
  have hd := disjoint_left.mp hA
  refine ⟨h'.states.trans h.states, h'.running.trans h.running, h.sub.trans h'.sub, fun s hs hs' => ?_, fun s => ?_,
    fun s hs => ?_, fun s hs => ?_⟩
  · by_cases hs₁ : s ∈ members w₁.base
    · exact mem_union_left _ (h.new s hs₁ hs')
    · exact mem_union_right _ (h'.new s hs hs₁)
  · have := @h.sub s
    have := @h'.sub s
    rw [h'.pc, h.pc]
    grind
  · rcases h'.removed s hs with hs | ⟨hs, hs'⟩
    · rcases h.removed s hs with hs | ⟨hs, hs'⟩
      · exact .inl hs
      · refine .inr ⟨mem_union_left _ hs, fun hs₂ => ?_⟩
        exact hd hs (h'.new s hs₂ hs')
    · exact .inr ⟨mem_union_right _ hs, hs'⟩
  · rcases mem_union.mp hs with hs | hs
    · obtain ⟨t, ht, ht', hpc⟩ := h.ahead s hs
      exact ⟨t, h'.sub ht, ht', hpc⟩
    · obtain ⟨t, ht, ht', hpc⟩ := h'.ahead s hs
      -- neither of the two was tossed back with the first set
      rw [h.pc, h.pc, if_neg fun hc => ht' hc.1, if_neg fun hc => hd (h.new s hc.1 hc.2) hs] at hpc
      exact ⟨t, ht, fun hc => ht' (h.sub hc), hpc⟩

theorem tossBack_runs {base : S} {toErase : List S} (hw : Placed Valid members w) (hbase : base ∈ w.statesAtMerge)
    (hne : base ∉ toErase) (hrun : ∀ r ∈ w.running, r ∉ toErase)
    (hin : ∀ s ∈ toErase, s ∈ w.statesAtMerge ∧ w.pc base = w.pc s) :
    Runs (tossBack I base toErase) w fun _ w' =>
      Placed Valid members w' ∧ Merged members (insert base toErase.toFinset) w w' ∧
      w'.statesAtMerge = w.statesAtMerge.erase base := by
  have hnot : base ∉ members w.base := fun h => hw.apart base h hbase
  let w₁ : World S B := { w with
    removedStates := w.removedStates ∪ toErase.toFinset
    statesAtMerge := w.statesAtMerge.erase base
    pc := Function.update w.pc base (w.pc base + 1) }
  have hup := updateBase_runs (w := w₁) hk none hw.valid (disjoint_singleton_right.mpr hnot)
    (empty_subset (members w.base ∪ {base}))
  obtain ⟨_, _, hup, b, rfl, hb, hmem⟩ := hup
  replace hmem : members b = insert base (members w.base) := by grind
  have hapart := hw.apart
  have hlive := hw.live
  refine Runs.get_bind ?_
  rw [if_neg fun ⟨r, hr, hr'⟩ => hrun r hr hr']
  refine ⟨(), _, hup, ⟨hb, fun s hs => ?_, fun s => ?_⟩, ⟨rfl, rfl, ?_, fun s hs hs' => ?_, fun s => ?_, fun s hs => ?_,
    fun s hs => ?_⟩, rfl⟩
  · grind
  · grind
  · grind
  · grind
  · grind
  · replace hs : s ∈ w.removedStates ∪ toErase.toFinset := hs
    show _ ∨ _ ∧ s ∉ members b
    grind [List.mem_toFinset]
  · refine ⟨base, ?_, hnot, ?_⟩
    · grind
    · grind [List.mem_toFinset]

theorem mergeGroup_runs : ∀ {fuel : Nat} {l : List S} {w : World S B}, l.length ≤ fuel → l.Nodup →
    (∀ s ∈ l, s ∈ w.statesAtMerge) → Placed Valid members w → Spares outcome w →
    Runs (mergeGroup I outcome fuel l) w fun _ w' =>
      Placed Valid members w' ∧ Merged members l.toFinset w w' ∧ ∀ s ∈ w.statesAtMerge, s ∉ l → s ∈ w'.statesAtMerge
  | fuel, [], w, _, _, _, hw, _ => by
    rw [mergeGroup]
    exact Runs.pure ⟨hw, Merged.refl, fun s h _ => h⟩
  | fuel + 1, base :: rest, w, hlen, hnd, hin, hw, hsp => by
    rw [mergeGroup]
    obtain ⟨hbase, hnd'⟩ := List.nodup_cons.mp hnd
    refine mergeAll_runs.bind ?_
    rintro toErase _ ⟨⟨n, rfl⟩, hl⟩
    have hne : base ∉ toErase := fun h => hbase (hl base h).1
    have hw₀ : Placed Valid members { w with attempts := n } := ⟨hw.valid, hw.apart, hw.live⟩
    have hrun : ∀ r ∈ w.running, r ∉ toErase := fun r hr hmem => by
      obtain ⟨k, hk⟩ := (hl r hmem).2.2
      rw [hsp r hr] at hk
      cases hk
    have htoss := tossBack_runs hk hw₀ (hin base List.mem_cons_self) hne hrun
      fun s hs => ⟨hin s (List.mem_cons_of_mem _ (hl s hs).1), (hl s hs).2.1⟩
    refine htoss.bind ?_
    rintro _ w₁ ⟨hw₁, hm₁, hat₁⟩
    replace hm₁ : Merged members (insert base toErase.toFinset) w w₁ :=
      ⟨hm₁.states, hm₁.running, hm₁.sub, hm₁.new, hm₁.pc, hm₁.removed, hm₁.ahead⟩
    replace hat₁ : w₁.statesAtMerge = w.statesAtMerge.erase base := hat₁
    have hlen' : (rest.filter (· ∉ toErase)).length ≤ fuel := by grind
    have hin' : ∀ s ∈ rest.filter (· ∉ toErase), s ∈ w₁.statesAtMerge := by grind
    have hsp₁ : Spares outcome w₁ := fun r hr => hsp r (hm₁.running ▸ hr)
    refine (mergeGroup_runs hlen' (hnd'.filter _) hin' hw₁ hsp₁).mono ?_
    rintro _ w₂ ⟨hw₂, hm₂, hat₂⟩
    have hd : Disjoint (insert base toErase.toFinset) (rest.filter (· ∉ toErase)).toFinset := by
      rw [disjoint_left]
      intro s hs hs'
      simp only [mem_insert, List.mem_toFinset, List.mem_filter, decide_eq_true_eq] at hs hs'
      rcases hs with rfl | hs
      · exact hbase hs'.1
      · exact hs'.2 hs
    refine ⟨hw₂, ?_, fun s hs hs' => hat₂ s ?_ ?_⟩
    · have hset : insert base toErase.toFinset ∪ (rest.filter (· ∉ toErase)).toFinset = (base :: rest).toFinset := by
        ext s
        have := fun h => (hl s h).1
        simp only [mem_union, mem_insert, List.mem_toFinset, List.mem_filter, decide_eq_true_eq, List.mem_cons]
        tauto
      rw [← hset]
      exact hm₁.trans hm₂ hd
    · grind
    · exact fun h => hs' (List.mem_cons_of_mem _ (List.mem_filter.mp h).1)

theorem mergeGroups_runs : ∀ {groups : List (List S)} {w : World S B}, groups.flatten.Nodup →
    (∀ s ∈ groups.flatten, s ∈ w.statesAtMerge) → Placed Valid members w → Spares outcome w →
    Runs (mergeGroups I outcome groups) w fun _ w' =>
      Placed Valid members w' ∧ Merged members groups.flatten.toFinset w w'
  | [], w, _, _, hw, _ => Runs.pure ⟨hw, Merged.refl⟩
  | group :: rest, w, hnd, hin, hw, hsp => by
    rw [mergeGroups]
    rw [List.flatten_cons] at hnd hin
    obtain ⟨hnd₁, hnd₂, hd⟩ := List.nodup_append.mp hnd
    refine (mergeGroup_runs hk le_rfl hnd₁ (fun s hs => hin s (List.mem_append_left _ hs)) hw hsp).bind ?_
    rintro _ w₁ ⟨hw₁, hm₁, hat₁⟩
    have hin' : ∀ s ∈ rest.flatten, s ∈ w₁.statesAtMerge := fun s hs =>
      hat₁ s (hin s (List.mem_append_right _ hs)) fun hs' => hd s hs' s hs rfl
    have hsp₁ : Spares outcome w₁ := fun r hr => hsp r (hm₁.running ▸ hr)
    refine (mergeGroups_runs hnd₂ hin' hw₁ hsp₁).mono ?_
    rintro _ w₂ ⟨hw₂, hm₂⟩
    refine ⟨hw₂, ?_⟩
    rw [List.flatten_cons, List.toFinset_append]
    refine hm₁.trans hm₂ (disjoint_left.mpr fun s hs hs' => ?_)
    exact hd s (List.mem_toFinset.mp hs) s (List.mem_toFinset.mp hs') rfl

/-! ## Selection -/

variable (P members) in
/-- For each state that was merged away there is one in the base searcher, one instruction ahead. If it is in the base
searcher itself, it is at a merge point. -/
def Lags (w : World S B) : Prop :=
  ∀ d ∈ w.removedStates, (d ∈ members w.base → getMergePoint P (w.pc d) ≠ 0) ∧ ∃ b ∈ members w.base, w.pc b = w.pc d + 1

omit hk in
/-- After the waiting states have been merged the dead ones lag again. The base searcher was empty before, and what was
ahead of a dead state was at a merge point. -/
theorem Lags.of_merged {w' : World S B} (hempty : members w.base = ∅) (hm : Merged members w.statesAtMerge w w')
    (hsub : w.removedStates ⊆ w.states) (hlive : ∀ s ∈ w.states, s ∈ w.statesAtMerge)
    (hahead : ∀ d ∈ w.removedStates, ∃ b ∈ w.statesAtMerge, w.pc b = w.pc d + 1 ∧ getMergePoint P (w.pc b) ≠ 0) :
    Lags P members w' := by
  have hnot : ∀ s, s ∉ members w.base := fun s => by simp [hempty]
  -- something that was tossed back from where `s` was
  have hstep : ∀ s ∈ w.statesAtMerge, ∃ t ∈ members w'.base, w'.pc t = w.pc s + 1 := by
    intro s hs
    obtain ⟨t, ht, ht', hpc⟩ := hm.ahead s hs
    refine ⟨t, ht, ?_⟩
    rw [hm.pc, if_pos ⟨ht, ht'⟩, hpc]
  intro d hd
  by_cases hback : d ∈ members w'.base
  · have hpc : w'.pc d = w.pc d + 1 := by rw [hm.pc, if_pos ⟨hback, hnot d⟩]
    have hold : d ∈ w.removedStates := by
      rcases hm.removed d hd with h | h
      · exact h
      · exact absurd hback h.2
    obtain ⟨b, hb, hbpc, hbm⟩ := hahead d hold
    obtain ⟨t, ht, htpc⟩ := hstep b hb
    rw [hpc, ← hbpc]
    exact ⟨fun _ => hbm, t, ht, htpc⟩
  · have hpc : w'.pc d = w.pc d := by rw [hm.pc, if_neg fun h => hback h.1]
    have hin : d ∈ w.statesAtMerge := by
      rcases hm.removed d hd with h | h
      · exact hlive d (hsub h)
      · exact h.1
    rw [hpc]
    exact ⟨fun h => absurd h hback, hstep d hin⟩

/-- `selectState`, from where a state is at instruction `n` at least: each further call finds one that is further on, and
no merge point is past the end of the code. -/
theorem selectState_runs {rounds : Nat} : ∀ {calls n : Nat} {w : World S B}, 0 < calls → P.code.length + 2 ≤ calls + n →
    (∃ s ∈ w.states, n ≤ w.pc s ∧ (s ∈ members w.base ∨ n = 0)) → Placed Valid members w →
    w.removedStates ⊆ w.states → Lags P members w → w.states.card < rounds → Spares outcome w →
    Runs (selectState I P outcome calls rounds) w fun es w' =>
      Placed Valid members w' ∧ w'.states = w.states ∧ w'.removedStates ⊆ w'.states ∧ es ∈ members w'.base ∧
      es ∉ w'.removedStates
  | calls + 1, n, w, _, hcalls, ⟨s, hs, hn, hbase⟩, hw, hsub, hlag, hcard, hsp => by
    rw [selectState]
    have hmem : members w.base ⊆ w.states := fun s hs => (hw.live s).mpr (.inl hs)
    refine (scan_runs hk hw (lt_of_le_of_lt (card_le_card hmem) hcard)).bind ?_
    rintro r w₁ ⟨hw₁, hscan, hr⟩
    have hsub₁ : w₁.removedStates ⊆ w₁.states := by
      rw [hscan.removed, hscan.states]
      exact hsub
    cases r with
    | some es =>
      refine Runs.pure ⟨hw₁, hscan.states, hsub₁, hr.1, fun hdead => ?_⟩
      -- a dead state in the base searcher is at a merge point
      have := (hlag es (hscan.removed ▸ hdead)).1 (hscan.sub hr.1)
      rw [← hscan.pc] at this
      exact this hr.2
    | none =>
      refine Runs.get_bind ?_
      have hall : ∀ s ∈ w₁.states, s ∈ w₁.statesAtMerge := by
        intro s hs
        rcases (hw₁.live s).mp hs with h | h
        · grind
        · exact h
      have hset : (merges w₁).flatten.toFinset = w₁.statesAtMerge := by
        ext s
        rw [List.mem_toFinset, mem_flatten_merges]
      have hsp₁ : Spares outcome w₁ := fun r hr => hsp r (hscan.running ▸ hr)
      refine (mergeGroups_runs hk nodup_flatten_merges (fun s => mem_flatten_merges.mp) hw₁ hsp₁).bind ?_
      rw [hset]
      rintro _ w₂ ⟨hw₂, hm⟩
      have hdrained : ∀ b ∈ members w.base, getMergePoint P (w₁.pc b) ≠ 0 := by
        intro b hb
        rw [hscan.pc]
        exact hscan.atMerge b hb (by simp [hr])
      have hlag₂ : Lags P members w₂ := by
        refine Lags.of_merged hr hm hsub₁ hall fun d hd => ?_
        obtain ⟨b, hb, hpc⟩ := (hlag d (hscan.removed ▸ hd)).2
        refine ⟨b, hall b (hscan.states ▸ hmem hb), ?_, hdrained b hb⟩
        rw [hscan.pc, hpc]
      have hsub₂ : w₂.removedStates ⊆ w₂.states := by
        intro d hd
        rw [hm.states]
        rcases hm.removed d hd with h | h
        · exact hsub₁ h
        · exact (hw₁.live d).mpr (.inr h.1)
      have hlt : n = 0 ∨ n < P.code.length := by
        rcases hbase with h | h
        · have := lt_of_getMergePoint (hdrained s h)
          rw [hscan.pc] at this
          exact .inr (lt_of_le_of_lt hn this)
        · exact .inl h
      obtain ⟨t, ht, _, htpc⟩ := hm.ahead s (hall s (hscan.states ▸ hs))
      have hnext : n + 1 ≤ w₂.pc t := by
        rw [hm.pc, if_pos ⟨ht, by simp [hr]⟩, htpc, hscan.pc]
        omega
      have hst₂ : w₂.states = w.states := hm.states.trans hscan.states
      refine (selectState_runs (by omega) (by omega) ⟨t, (hw₂.live t).mpr (.inl ht), hnext, .inl ht⟩ hw₂ hsub₂ hlag₂
        (hst₂ ▸ hcard) fun r hr => hsp₁ r (hm.running ▸ hr)).mono ?_
      rintro es w₃ ⟨hw₃, hst₃, hsub₃, hes⟩
      exact ⟨hw₃, hst₃.trans hst₂, hsub₃, hes⟩

theorem selectState_runs_of_placed (hw : Placed Valid members w) (hrem : w.removedStates = ∅) (hne : w.states.Nonempty)
    (hsp : Spares outcome w) :
    Runs (selectState I P outcome (P.code.length + 2) (w.states.card + 1)) w fun es w' =>
      Placed Valid members w' ∧ w'.states = w.states ∧ w'.removedStates ⊆ w'.states ∧ es ∈ members w'.base ∧
      es ∉ w'.removedStates := by
  obtain ⟨s, hs⟩ := hne
  have hlag : Lags P members w := fun d hd => by simp [hrem] at hd
  exact selectState_runs hk (Nat.succ_pos _) le_rfl ⟨s, hs, Nat.zero_le _, .inr rfl⟩ hw (by simp [hrem]) hlag
    (Nat.lt_succ_self _) hsp

/-! ## Rounds -/

theorem update_runs (current : Option S) {added removed : Finset S} (hw : Placed Valid members w)
    (hadded : Disjoint w.states added) (hremoved : removed ⊆ w.states) :
    Runs (update I current added removed) w fun _ w' =>
      Valid w'.base ∧ (∀ s, s ∈ members w'.base ↔ (s ∈ members w.base ∨ s ∈ added) ∧ s ∉ removed) ∧
      w'.statesAtMerge = w.statesAtMerge \ removed ∧ w'.states = w.states := by
  have hmem : members w.base ⊆ w.states := fun s hs => (hw.live s).mpr (.inl hs)
  have hd := disjoint_left.mp hadded
  have hlive := hw.live
  have halt : removed.filter (· ∉ w.statesAtMerge) ⊆ members w.base ∪ added := by
    intro s hs
    obtain ⟨hs, hs'⟩ := mem_filter.mp hs
    rcases (hlive s).mp (hremoved hs) with h | h
    · exact mem_union_left _ h
    · exact absurd h hs'
  have hup := updateBase_runs (w := { w with statesAtMerge := w.statesAtMerge \ removed }) hk current hw.valid
    (hadded.mono_left hmem) halt
  refine Runs.get_bind (hup.mono ?_)
  rintro _ _ ⟨b, rfl, hb, hbm⟩
  refine ⟨hb, fun s => ?_, rfl, rfl⟩
  have := hw.apart s
  have := @hd s
  have := hlive s
  show s ∈ members b ↔ _
  rw [hbm, mem_sdiff, mem_union, mem_filter]
  tauto

theorem advance_runs {es : S} (step : Step S) (hw : Placed Valid members w) (hsub : w.removedStates ⊆ w.states)
    (hes : es ∈ members w.base) :
    Runs (advance I es step) w fun _ w' => Placed Valid members w' ∧ w'.removedStates = ∅ := by
  let forked := step.forked \ w.states
  let w₁ : World S B :=
    { w with pc := fun s => if s = es ∨ s ∈ forked then step.pc s else w.pc s, running := some es }
  have hw₁ : Placed Valid members w₁ := ⟨hw.valid, hw.apart, hw.live⟩
  have hqueue : Runs (queue I es step.queued) w₁ fun _ w₂ => Placed Valid members w₂ ∧ w₂.states = w.states := by
    cases step.queued with
    | none => exact Runs.pure ⟨hw₁, rfl⟩
    | some mp => exact (queueStateForMerge_runs hk mp hw₁ hes).mono fun _ _ h => ⟨h.1, h.2.2.2.2.1⟩
  have hset : Runs (set w₁ : MergeM S B PUnit) w fun _ w' => w' = w₁ := ⟨⟨⟩, w₁, rfl, rfl⟩
  refine Runs.get_bind (hset.bind ?_)
  rintro _ _ rfl
  refine hqueue.bind ?_
  rintro _ w₂ ⟨hw₂, hst₂⟩
  have hadded : Disjoint w₂.states (forked \ step.terminated) := by
    rw [hst₂]
    exact disjoint_sdiff.mono_right sdiff_subset
  have hremoved : w.removedStates ∪ (step.terminated ∩ w.states) ⊆ w₂.states := by grind
  refine (update_runs hk (some es) hw₂ hadded hremoved).bind ?_
  rintro _ w₃ ⟨hv₃, hmem₃, hat₃, hst₃⟩
  refine ⟨(), _, rfl, ⟨hv₃, fun s hs => ?_, fun s => ?_⟩, rfl⟩
  · have := (hmem₃ s).mp hs
    show s ∉ w₃.statesAtMerge
    rw [hat₃, mem_sdiff]
    rcases this.1 with h | h
    · exact fun hc => hw₂.apart s h hc.1
    · exact fun hc => disjoint_right.mp hadded h ((hw₂.live s).mpr (.inr hc.1))
  · show s ∈ (w₃.states ∪ (forked \ step.terminated)) \ (w.removedStates ∪ step.terminated ∩ w.states) ↔
      s ∈ members w₃.base ∨ s ∈ w₃.statesAtMerge
    rw [hmem₃, hat₃, hst₃]
    simp only [mem_sdiff, mem_union, hw₂.live s]
    tauto

variable (I P) in
omit hk in
/-- In each round the running state is spared. -/
def SparedRun (w : World S B) : List (Step S) → Prop
  | [] => True
  | step :: steps => Spares step.outcome w ∧ ∀ w', (round I P step).run w = .ok ((), w') → SparedRun w' steps

theorem run_runs : ∀ {steps : List (Step S)} {w : World S B}, Placed Valid members w → w.removedStates = ∅ →
    SparedRun I P w steps → Runs (run I P steps) w fun _ w' => Placed Valid members w' ∧ w'.removedStates = ∅
  | [], w, hw, hrem, _ => Runs.pure ⟨hw, hrem⟩
  | step :: steps, w, hw, hrem, ⟨hsp, hrest⟩ => by
    rw [run]
    refine Runs.get_bind ?_
    by_cases hempty : w.states = ∅
    · rw [if_pos hempty]
      exact Runs.pure ⟨hw, hrem⟩
    rw [if_neg hempty]
    have hround : Runs (round I P step) w fun _ w' => Placed Valid members w' ∧ w'.removedStates = ∅ := by
      refine Runs.get_bind ((selectState_runs_of_placed hk hw hrem (nonempty_iff_ne_empty.mpr hempty) hsp).bind ?_)
      rintro es w₁ ⟨hw₁, _, hsub₁, hes₁, _⟩
      exact advance_runs hk step hw₁ hsub₁ hes₁
    obtain ⟨_, w₁, hrun, hw₁, hrem₁⟩ := hround
    have hstep : Runs (round I P step) w fun _ w' => w' = w₁ := ⟨_, w₁, hrun, rfl⟩
    refine hstep.bind ?_
    rintro _ _ rfl
    exact run_runs hw₁ hrem₁ (hrest _ hrun)

end Base

/-! ## The base searchers of the source -/

theorem dfsRemove_eq {l : List S} {es : S} (hl : l.Nodup) (hes : es ∈ l) : dfsRemove l es = .ok (l.erase es) := by
  unfold dfsRemove
  by_cases hlast : l.getLast? = some es
  · rw [if_pos hlast]
    obtain ⟨ys, rfl⟩ := List.getLast?_eq_some_iff.mp hlast
    have hnot : es ∉ ys := fun h => (List.nodup_append.mp hl).2.2 es h es (List.mem_singleton_self es) rfl
    rw [List.dropLast_concat, List.erase_append_right _ hnot, List.erase_cons_head, List.append_nil]
    rfl
  · rw [if_neg hlast, if_pos hes]
    rfl

theorem foldlM_dfsRemove : ∀ {removed l : List S}, l.Nodup → removed.Nodup → (∀ s ∈ removed, s ∈ l) →
    ∃ l', removed.foldlM dfsRemove l = .ok l' ∧ l'.Nodup ∧ ∀ s, s ∈ l' ↔ s ∈ l ∧ s ∉ removed
  | [], l, hl, _, _ => ⟨l, rfl, hl, by simp⟩
  | es :: rest, l, hl, hr, hin => by
    obtain ⟨hes, hr'⟩ := List.nodup_cons.mp hr
    have hin' : ∀ s ∈ rest, s ∈ l.erase es := fun s hs =>
      (List.mem_erase_of_ne (ne_of_mem_of_not_mem hs hes)).mpr (hin s (List.mem_cons_of_mem _ hs))
    obtain ⟨l', hrun, hl', hmem⟩ := foldlM_dfsRemove (hl.erase es) hr' hin'
    refine ⟨l', ?_, hl', fun s => ?_⟩
    · rw [List.foldlM_cons, dfsRemove_eq hl (hin es List.mem_cons_self)]
      exact hrun
    · grind

/-- The vector of a `DFSSearcher` holds each state once. -/
theorem dfsSearcher_keeps : Keeps (dfsSearcher : Searcher S (List S)) List.Nodup List.toFinset where
  empty_iff _ := by simp [dfsSearcher]
  selects := by
    intro l hl hne
    have hne' : l ≠ [] := fun h => by simp [h] at hne
    refine ⟨l.getLast hne', l, ?_, hl, rfl, List.mem_toFinset.mpr (List.getLast_mem hne')⟩
    simp only [dfsSearcher, List.getLast?_eq_getLast_of_ne_nil hne']
    rfl
  updates := by
    intro l current added removed hl hd hsub
    have hnd : (l ++ elements added).Nodup := by
      refine List.nodup_append.mpr ⟨hl, elements_nodup _, fun s hs t ht hst => ?_⟩
      subst hst
      exact disjoint_left.mp hd (List.mem_toFinset.mpr hs) (mem_elements.mp ht)
    have hin : ∀ s ∈ elements removed, s ∈ l ++ elements added := by
      intro s hs
      have := hsub (mem_elements.mp hs)
      simpa using this
    obtain ⟨l', hrun, hl', hmem⟩ := foldlM_dfsRemove hnd (elements_nodup _) hin
    refine ⟨l', hrun, hl', ?_⟩
    ext s
    simp [hmem]

/-- For every base searcher that keeps its states, every program and every run from a placed world, whatever the merges
come to unless one takes the running state away: the run goes on, each live state is in exactly one place after it, and if
there is one, the next `selectState` returns a state that is live, not merged away, and leaves each live state in exactly
one place. -/
theorem selectState_returns_live (I : Searcher S B) (Valid : B → Prop) (members : B → Finset S)
    (hk : Keeps I Valid members) (P : Program) (w : World S B) (hw : Placed Valid members w)
    (hrem : w.removedStates = ∅) (steps : List (Step S)) (hsp : SparedRun I P w steps) :
    ∃ w₁, (run I P steps).run w = .ok ((), w₁) ∧ Placed Valid members w₁ ∧ (w₁.states.Nonempty →
      ∀ outcome, Spares outcome w₁ →
      ∃ es w₂, (selectState I P outcome (P.code.length + 2) (w₁.states.card + 1)).run w₁ = .ok (es, w₂) ∧
        es ∈ w₂.states ∧ es ∉ w₂.removedStates ∧ w₂.states = w₁.states ∧ Placed Valid members w₂) := by
  obtain ⟨_, w₁, hrun, hw₁, hrem₁⟩ := run_runs hk hw hrem hsp
  refine ⟨w₁, hrun, hw₁, fun hne outcome hsp₁ => ?_⟩
  obtain ⟨es, w₂, hsel, hw₂, hst, _, hes, hdead⟩ := selectState_runs_of_placed hk hw₁ hrem₁ hne hsp₁
  exact ⟨es, w₂, hsel, (hw₂.live es).mpr (.inl hes), hdead, hst, hw₂⟩

/-- A state that calls the merge function, in front of an instruction of another kind. -/
def mergeCall : Program := ⟨[.call (some 0), .other], some 0⟩

/-- The only state, in a base searcher. It runs. -/
def alone {B : Type} (base : B) : World Nat B := ⟨base, ∅, fun _ => 0, fun _ => 0, {0}, ∅, some 0, 0⟩

theorem selectState_returns_live_alone :
    ∃ w₁, (run (dfsSearcher : Searcher Nat (List Nat)) mergeCall []).run (alone [0]) = .ok ((), w₁) ∧
      Placed List.Nodup List.toFinset w₁ ∧ (w₁.states.Nonempty → ∀ outcome, Spares outcome w₁ →
      ∃ es w₂, (selectState dfsSearcher mergeCall outcome 4 (w₁.states.card + 1)).run w₁ = .ok (es, w₂) ∧
        es ∈ w₂.states ∧ es ∉ w₂.removedStates ∧ w₂.states = w₁.states ∧ Placed List.Nodup List.toFinset w₂) :=
  selectState_returns_live dfsSearcher List.Nodup List.toFinset dfsSearcher_keeps mergeCall (alone [0])
    ⟨by simp [alone], by simp [alone], by simp [alone]⟩ rfl [] trivial

/-- The executor at its start, with one state. -/
def startExecutor : PTree.Executor Nat := ⟨PTree.start 0, fun _ => some 0, {0}, ∅, ∅⟩

/-- A `RandomPathSearcher` that is told to remove the only state selects it again, so that the loop has no end. -/
theorem scan_randomPathSearcher (rng : Nat → BitVec 32) : ∀ (fuel : Nat) (w : World Nat (PTree.Executor Nat)),
    w.base = startExecutor → w.pc = (fun _ => 0) →
    (scan (randomPathSearcher rng) mergeCall fuel).run w = .error .outOfFuel
  | 0, _, _, _ => rfl
  | fuel + 1, w, hbase, hpc => by
    obtain ⟨base, at', mp, pc, states, removed, running, n⟩ := w
    obtain rfl : base = startExecutor := hbase
    obtain rfl : pc = fun _ => 0 := hpc
    exact scan_randomPathSearcher rng fuel _ rfl rfl

theorem selectState_randomPathSearcher_loops :
    ¬ ∃ calls rounds r, (selectState (randomPathSearcher fun _ => 0) mergeCall (fun _ _ _ => true) calls rounds).run
      (alone startExecutor) = .ok r := by
  rintro ⟨calls, rounds, r, h⟩
  cases calls with
  | zero => cases h
  | succ calls =>
    rw [selectState, StateT.run_bind, scan_randomPathSearcher _ rounds _ rfl rfl] at h
    cases h

end S2E.Klee.MergingSearcher
