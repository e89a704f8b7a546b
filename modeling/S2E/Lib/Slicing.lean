import Mathlib.Tactic

/-!
# Slicing a set of constraints

An assignment `σ : A` has a value `get σ i` at every coordinate `i`. `DecidedBy get Γ f S` : among the assignments of `Γ`,
what `f` says is decided by the coordinates in `S`. `Gluable get Γ` : two assignments of `Γ` can be glued along any set of
coordinates.

If a query and the constraints of a slice are decided by `S`, and the other constraints by the complement of `S`, then a
model of the slice and a model of the rest can be glued; so the query takes the same values under the slice as under all
constraints, provided that these have a model (`feasible_iff`).
-/

namespace S2E.Lib

variable {A ι β γ κ : Type*}

def DecidedBy (get : A → ι → β) (Γ : Set A) (f : A → γ) (S : Set ι) : Prop :=
  ∀ σ ∈ Γ, ∀ τ ∈ Γ, (∀ i ∈ S, get σ i = get τ i) → f σ = f τ

def Gluable (get : A → ι → β) (Γ : Set A) : Prop :=
  ∀ (S : Set ι), ∀ σ ∈ Γ, ∀ τ ∈ Γ, ∃ ρ ∈ Γ, (∀ i ∈ S, get ρ i = get σ i) ∧ ∀ i ∉ S, get ρ i = get τ i

variable {get : A → ι → β} {Γ : Set A} {S : Set ι} {q : A → γ} {holds : κ → A → Prop} {slice all : κ → Prop}

theorem feasible_iff (hΓ : Gluable get Γ) (hq : DecidedBy get Γ q S)
    (hslice : ∀ c, slice c → all c ∧ DecidedBy get Γ (holds c) S)
    (hall : ∀ c, all c → slice c ∨ DecidedBy get Γ (holds c) Sᶜ) (hsat : ∃ τ ∈ Γ, ∀ c, all c → holds c τ) (v : γ) :
    (∃ σ ∈ Γ, (∀ c, slice c → holds c σ) ∧ q σ = v) ↔ ∃ σ ∈ Γ, (∀ c, all c → holds c σ) ∧ q σ = v := by
  constructor
  · rintro ⟨σ, hσ, hσslice, rfl⟩
    obtain ⟨τ, hτ, hτall⟩ := hsat
    obtain ⟨ρ, hρ, hS, hnS⟩ := hΓ S σ hσ τ hτ
    refine ⟨ρ, hρ, fun c hc => ?_, hq ρ hρ σ hσ hS⟩
    rcases hall c hc with hin | hout
    · rw [(hslice c hin).2 ρ hρ σ hσ hS]
      exact hσslice c hin
    · rw [hout ρ hρ τ hτ hnS]
      exact hτall c hc
  · grind

end S2E.Lib
