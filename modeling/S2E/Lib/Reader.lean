import Mathlib.Tactic

/-!
# Readers

* `Reader β α` : takes a value off the front of a list, or fails;
* `Reads r bs o` : in front of `bs` the reader takes off all of `bs` and gives `o`, whatever comes after (`Reads.pure`,
  `Reads.bind`, `reads_guard`); where `o` is `none` it fails there;
* `many r n` : `n` values one after the other (`Reads.many`); `mapAll` : the values that it gives.
-/

namespace S2E.Lib
open List

abbrev Reader (β α : Type) := StateT (List β) Option α

variable {β α γ : Type}

def Reads (r : Reader β α) (bs : List β) (o : Option α) : Prop :=
  ∀ rest, r.run (bs ++ rest) = o.map fun a => (a, rest)

theorem Reads.pure (a : α) : Reads (Pure.pure a : Reader β α) [] (some a) := fun _ => rfl

variable {bs cs : List β} {r : Reader β α} {a : α} {p : Prop} {δ : Type} {o : Option α} {k : α → Reader β γ}
  {encode : δ → List β} {value : δ → Option α}

theorem Reads.bind {oc : α → Option γ}
    (h : Reads r bs o) (hk : ∀ a, o = some a → Reads (k a) cs (oc a)) : Reads (r >>= k) (bs ++ cs) (o.bind oc) := by
  intro rest
  rw [StateT.run_bind, append_assoc, h]
  cases o with
  | none => rfl
  | some a => exact hk a rfl rest

theorem Reads.then {oc : Option γ}
    (h : Reads r bs (some a)) (hk : Reads (k a) cs oc) : Reads (r >>= k) (bs ++ cs) oc := by
  intro rest
  rw [StateT.run_bind, append_assoc, h]
  exact hk rest

theorem Reads.bind_pure (h : Reads r bs o) (f : α → γ) : Reads (r >>= fun a => Pure.pure (f a)) bs (o.map f) := by
  intro rest
  rw [StateT.run_bind, h]
  cases o <;> rfl

theorem reads_guard [Decidable p] : Reads (guard p : Reader β Unit) [] (guard p : Option Unit) := by
  intro rest
  by_cases h : p
  · simp [h]
  · simp only [guard, if_neg h]
    rfl

theorem guard_bind_eq_some [Decidable p] {f : Unit → Option α} :
    (guard p : Option Unit).bind f = some a ↔ p ∧ f () = some a := by
  by_cases h : p
  · simp [h]
  · simp [h, guard]

def many (r : Reader β α) : (n : Nat) → Reader β { as : List α // as.length = n }
  | 0 => pure ⟨[], rfl⟩
  | n + 1 => do
    let a ← r
    let as ← many r n
    pure ⟨a :: as.val, congrArg (· + 1) as.property⟩

/-- The values of all elements, if all of them have one. -/
def mapAll {δ : Type} (value : δ → Option α) : (xs : List δ) → Option { as : List α // as.length = xs.length }
  | [] => some ⟨[], rfl⟩
  | x :: xs => do
    let a ← value x
    let as ← mapAll value xs
    pure ⟨a :: as.val, congrArg (· + 1) as.property⟩

theorem Reads.many (h : ∀ x, Reads r (encode x) (value x)) (xs : List δ) :
    Reads (Lib.many r xs.length) (xs.flatMap encode) (mapAll value xs) := by
  induction xs with
  | nil => exact Reads.pure _
  | cons x xs ih =>
    rw [flatMap_cons]
    apply (h x).bind
    intro a _
    rw [← append_nil (xs.flatMap encode)]
    apply ih.bind
    intro as _
    exact Reads.pure _

theorem Reads.many_bind (h : ∀ x, Reads r (encode x) (value x)) {xs : List δ} {n : Nat} (hn : xs.length = n)
    {k : { as : List α // as.length = n } → Reader β γ} {oc : { as : List α // as.length = xs.length } → Option γ}
    (hk : ∀ as, Reads (k ⟨as.val, as.property.trans hn⟩) cs (oc as)) :
    Reads (Lib.many r n >>= k) (xs.flatMap encode ++ cs) (mapAll value xs >>= oc) := by
  subst hn
  apply (Reads.many h xs).bind
  intro as _
  exact hk as

theorem mapAll_eq_some_self {value : α → Option α} (xs : List α) :
    mapAll value xs = some ⟨xs, rfl⟩ ↔ ∀ x ∈ xs, value x = some x := by
  induction xs with
  | nil => simp [mapAll]
  | cons x xs ih =>
    simp only [mapAll, Option.bind_eq_bind, Option.bind_eq_some_iff, Option.pure_def, Option.some.injEq,
      Subtype.mk.injEq, cons.injEq, forall_mem_cons, ← ih]
    constructor
    · grind
    · grind

end S2E.Lib
