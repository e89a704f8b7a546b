import Mathlib.Tactic

/-!
# Computations with a state that may fail

`Outcome m Q E` : the computation `m` returns a value that meets `Q`, or fails with an error that meets `E`.

`Triple I m Q E` : run from a state that meets `I`, the computation `m` either returns a value that meets `Q`, in a state
that meets `I` again, or fails with an error that meets `E`. One rule for each way of building a computation; a proof
about a recursive function applies them along its body.

`Refines m m'` : whatever run of `m` returns, the run of `m'` from the same state returns the same.

`Runs m s Q` : run from `s`, the computation `m` returns a value, in a state, that meet `Q`.
-/

namespace S2E.Lib
open List

variable {σ ε α β : Type} {I : σ → Prop}

def Outcome (m : Except ε α) (Q : α → Prop) (E : ε → Prop) : Prop :=
  match m with
  | .ok a => Q a
  | .error t => E t

variable {s : σ} {a : α} {b : β} {t : ε} {R : β → Prop} {E : ε → Prop} {x : Except ε α} {m : StateT σ (Except ε) α}
  {f : α → StateT σ (Except ε) β}

namespace Outcome

variable {m : Except ε α} {Q : α → Prop} {E : ε → Prop}

section

variable (h : Outcome m Q E)

include h

theorem conseq {Q' : α → Prop} {E' : ε → Prop} (hQ : ∀ a, Q a → Q' a) (hE : ∀ t, E t → E' t) : Outcome m Q' E' := by
  cases m with
  | ok a => exact hQ a h
  | error t => exact hE t h

theorem bind {f : α → Except ε β} (hf : ∀ a, Q a → Outcome (f a) R E) : Outcome (m >>= f) R E := by
  cases m with
  | ok a => exact hf a h
  | error t => exact h

theorem map {f : α → β} (hf : ∀ a, Q a → R (f a)) : Outcome (m.map f) R E := by
  cases m with
  | ok a => exact hf a h
  | error t => exact h

theorem of_ok (hm : m = .ok a) : Q a := by
  subst hm
  exact h

end

theorem exists_ok (h : Outcome m Q fun _ => False) : ∃ a, m = .ok a ∧ Q a := by
  cases m with
  | ok a => exact ⟨a, rfl, h⟩
  | error t => exact h.elim

theorem fails (h : Outcome m Q E) (hQ : ∀ a, ¬ Q a) : ∃ t, m = .error t ∧ E t := by
  cases m with
  | ok a => exact absurd h (hQ a)
  | error t => exact ⟨t, rfl, h⟩

end Outcome

@[simp] theorem ok_bind (a : α) (f : α → Except ε β) : (Except.ok a >>= f) = f a := rfl

theorem exists_of_bind_ok {f : α → Except ε β} (h : (x >>= f) = .ok b) : ∃ a, x = .ok a ∧ f a = .ok b := by
  cases x with
  | error t => cases h
  | ok a => exact ⟨a, rfl, h⟩

theorem foldlM_range_succ {f : α → Nat → Except ε α} {a₁ a₂ : α} {k : Nat}
    (h₁ : (range k).foldlM f a = .ok a₁) (h₂ : f a₁ k = .ok a₂) : (range (k + 1)).foldlM f a = .ok a₂ := by
  rw [range_succ, foldlM_append, h₁, ok_bind, foldlM_cons, h₂]
  rfl

/-- Every element of the list of a loop that returns is passed by a step that returns. -/
theorem exists_of_mem_foldlM {f : β → α → Except ε β} {l : List α} {b' : β} (h : l.foldlM f b = .ok b')
    (ha : a ∈ l) : ∃ c c', f c a = .ok c' := by
  induction l generalizing b with
  | nil => cases ha
  | cons x l ih =>
    rw [foldlM_cons] at h
    obtain ⟨c, hc, hrest⟩ := exists_of_bind_ok h
    rcases mem_cons.1 ha with rfl | ha
    · exact ⟨b, c, hc⟩
    · exact ih hrest ha

theorem exists_of_map_ok {f : α → β} (h : x.map f = .ok b) : ∃ a, x = .ok a ∧ f a = b := by
  cases x with
  | error t => cases h
  | ok a => exact ⟨a, rfl, Except.ok.inj h⟩

theorem run_bind_ok {s' : σ} (h : m.run s = .ok (a, s')) : (m >>= f).run s = (f a).run s' := by
  show (m.run s).bind (fun p => (f p.1).run p.2) = _
  rw [h]
  rfl

theorem Outcome.run_bind {Q : α × σ → Prop} {R : β × σ → Prop} (hm : Outcome (m.run s) Q E)
    (hf : ∀ a s', Q (a, s') → Outcome ((f a).run s') R E) : Outcome ((m >>= f).run s) R E := by
  rw [StateT.run_bind]
  exact hm.bind fun p hp => hf p.1 p.2 hp

theorem Outcome.get_bind {f : σ → StateT σ (Except ε) β} {R : β × σ → Prop}
    (hf : Outcome ((f s).run s) R E) : Outcome ((MonadState.get >>= f).run s) R E := hf

def Triple (I : σ → Prop) (m : StateT σ (Except ε) α) (Q : α → Prop) (E : ε → Prop) : Prop :=
  ∀ s, I s → match m.run s with
    | .ok (a, s') => Q a ∧ I s'
    | .error t => E t

namespace Triple

variable {m : StateT σ (Except ε) α} {Q : α → Prop} {E : ε → Prop}

theorem iff_outcome : Triple I m Q E ↔ ∀ s, I s → Outcome (m.run s) (fun p => Q p.1 ∧ I p.2) E := by
  refine forall₂_congr fun s _ => ?_
  unfold Outcome
  cases m.run s <;> exact Iff.rfl

theorem conseq {Q' : α → Prop} {E' : ε → Prop} (h : Triple I m Q E) (hQ : ∀ a, Q a → Q' a)
    (hE : ∀ t, E t → E' t) : Triple I m Q' E' := by
  intro s hs
  have := h s hs
  revert this
  cases m.run s with
  | error t => exact hE t
  | ok r => exact fun hr => ⟨hQ _ hr.1, hr.2⟩

theorem pure (h : Q a) : Triple I (Pure.pure a : StateT σ (Except ε) α) Q E :=
  fun _ hs => ⟨h, hs⟩

theorem throw (h : E t) : Triple I (MonadExcept.throw t : StateT σ (Except ε) α) Q E :=
  fun _ _ => h

theorem bind (h : Triple I m Q E) (hf : ∀ a, Q a → Triple I (f a) R E) : Triple I (m >>= f) R E := by
  intro s hs
  have h1 := h s hs
  show match (m.run s).bind (fun p => (f p.1).run p.2) with
    | .ok (a, s') => R a ∧ I s'
    | .error t => E t
  revert h1
  cases m.run s with
  | error t => exact id
  | ok r => exact fun hr => hf r.1 hr.1 r.2 hr.2

theorem get_bind {f : σ → StateT σ (Except ε) β} (h : ∀ s, I s → Triple I (f s) R E) :
    Triple I (MonadState.get >>= f) R E :=
  fun s hs => h s hs s hs

theorem modify {f : σ → σ} {Q : PUnit → Prop} (h : ∀ s, I s → I (f s)) (hQ : Q ⟨⟩) :
    Triple I (modify f : StateT σ (Except ε) PUnit) Q E :=
  fun s hs => ⟨hQ, h s hs⟩

theorem lift (h : Outcome x Q E) : Triple I (StateT.lift x) Q E := by
  intro s hs
  cases x with
  | error t => exact h
  | ok a => exact ⟨h, hs⟩

theorem mapM {f : α → StateT σ (Except ε) β} {R : α → β → Prop} :
    ∀ {l : List α}, (∀ a ∈ l, Triple I (f a) (R a) E) → Triple I (l.mapM f) (List.Forall₂ R l) E
  | [], _ => pure .nil
  | a :: l, h => by
    rw [mapM_cons]
    refine bind (h a mem_cons_self) fun b hb => ?_
    refine bind (mapM fun x hx => h x (mem_cons_of_mem a hx)) fun bs hbs => ?_
    exact pure (.cons hb hbs)

theorem outcome (h : Triple I m Q E) (hs : I s) : Outcome ((m.run s).map Prod.fst) Q E := by
  have := h s hs
  revert this
  cases m.run s with
  | error t => exact id
  | ok r => exact fun hr => hr.1

end Triple

def Refines (m m' : StateT σ (Except ε) α) : Prop := ∀ s r, m.run s = .ok r → m'.run s = .ok r

namespace Refines

theorem refl (m : StateT σ (Except ε) α) : Refines m m := fun _ _ h => h

/-- A computation that fails refines every other. -/
theorem throw : Refines (MonadExcept.throw t) m := fun _ _ h => nomatch h

theorem bind {m' : StateT σ (Except ε) α} {f' : α → StateT σ (Except ε) β} (h : Refines m m')
    (hf : ∀ a, Refines (f a) (f' a)) : Refines (m >>= f) (m' >>= f') := by
  intro s r hr
  show (m'.run s).bind (fun p => (f' p.1).run p.2) = .ok r
  replace hr : (m.run s).bind (fun p => (f p.1).run p.2) = .ok r := hr
  cases hm : m.run s with
  | error t =>
    rw [hm] at hr
    cases hr
  | ok p =>
    rw [hm] at hr
    rw [h s p hm]
    exact hf p.1 p.2 r hr

theorem get_bind {f f' : σ → StateT σ (Except ε) β} (h : ∀ s, Refines (f s) (f' s)) :
    Refines (MonadState.get >>= f) (MonadState.get >>= f') :=
  fun s r hr => h s s r hr

theorem mapM {f f' : α → StateT σ (Except ε) β} (h : ∀ a, Refines (f a) (f' a)) :
    ∀ l : List α, Refines (l.mapM f) (l.mapM f')
  | [] => refl _
  | a :: l => by
    rw [mapM_cons, mapM_cons]
    exact bind (h a) fun _ => bind (mapM h l) fun _ => refl _

end Refines

def Runs (m : StateT σ (Except ε) α) (s : σ) (Q : α → σ → Prop) : Prop := ∃ a s', m.run s = .ok (a, s') ∧ Q a s'

namespace Runs

variable {m : StateT σ (Except ε) α} {s : σ} {Q : α → σ → Prop}

theorem pure (h : Q a s) : Runs (Pure.pure a : StateT σ (Except ε) α) s Q := ⟨a, s, rfl, h⟩

theorem get_bind {f : σ → StateT σ (Except ε) β} {R : β → σ → Prop} (hf : Runs (f s) s R) :
    Runs (MonadState.get >>= f) s R := hf

theorem bind {R : β → σ → Prop} (hm : Runs m s Q) (hf : ∀ a s', Q a s' → Runs (f a) s' R) : Runs (m >>= f) s R := by
  obtain ⟨a, s', hrun, hq⟩ := hm
  obtain ⟨b, s'', hrun', hr⟩ := hf a s' hq
  exact ⟨b, s'', (run_bind_ok hrun).trans hrun', hr⟩

theorem outcome_bind {R : β × σ → Prop} (hm : Runs m s Q)
    (hf : ∀ a s', Q a s' → Outcome ((f a).run s') R E) : Outcome ((m >>= f).run s) R E := by
  obtain ⟨a, s', hrun, hq⟩ := hm
  rw [run_bind_ok hrun]
  exact hf a s' hq

theorem outcome {R : α × σ → Prop} (hm : Runs m s Q) (hQ : ∀ a s', Q a s' → R (a, s')) : Outcome (m.run s) R E := by
  obtain ⟨a, s', hrun, hq⟩ := hm
  rw [hrun]
  exact hQ a s' hq

theorem of_outcome {R : α × σ → Prop} (h : Outcome (m.run s) R E) (hE : ∀ t, ¬ E t) :
    Runs m s fun a s' => R (a, s') := by
  obtain ⟨⟨a, s'⟩, hrun, hr⟩ := Outcome.exists_ok (h.conseq (fun _ hr => hr) hE)
  exact ⟨a, s', hrun, hr⟩

theorem mono {R : α → σ → Prop} (hm : Runs m s Q) (hQ : ∀ a s', Q a s' → R a s') : Runs m s R := by
  obtain ⟨a, s', hrun, hq⟩ := hm
  exact ⟨a, s', hrun, hQ a s' hq⟩

end Runs

end S2E.Lib
