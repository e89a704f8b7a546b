import Mathlib.Data.Nat.Find

/-!
# `readString`, `readUnicodeString`

The counter of characters is an `unsigned` that is compared with zero by `>=`, so that only a character that is zero or
cannot be read ends the loop: `strings_right_iff`.
-/

namespace S2E.Qemu.Strings
open BitVec

open BitVec (ofNat toNat)

/-- What `readMemory` gives for each byte: none where it is not mapped or not constant. -/
abbrev GuestMemory := BitVec 64 → Option (BitVec 8)

variable (mem : GuestMemory)

def readMemoryConcrete (address : BitVec 64) : Nat → Option (List (BitVec 8))
  | 0 => some []
  | size + 1 => do
    let b ← mem address
    let rest ← readMemoryConcrete (address + 1) size
    return b :: rest

/-- The value of `c` after `SREADR(this, address, c)`, where `c` has the size. The lowest byte comes first. -/
def readCharacter (size : Nat) (address : BitVec 64) : Option Nat :=
  (readMemoryConcrete mem address size).map fun bytes => bytes.foldr (fun b c => b.toNat + 256 * c) 0

/-- What is returned, the string, and how many characters have been asked for. -/
structure Result where
  success : Bool
  s : List (BitVec 8)
  reads : Nat

/-- The loop, for characters of the size. It returns nothing when it runs out of fuel. -/
def readLoop (size : Nat) : Nat → BitVec 64 → List (BitVec 8) → BitVec 32 → Nat → Option Result
  | 0, _, _, _, _ => none
  | fuel + 1, address, s, maxLen, reads =>
    match readCharacter mem size address with
    | none => some ⟨false, s, reads + 1⟩
    | some c =>
      if c ≠ 0 then
        let s := s ++ [ofNat 8 c]
        let maxLen := maxLen - 1
        if maxLen ≥ 0 then readLoop size fuel (address + ofNat 64 size) s maxLen (reads + 1)
        else some ⟨true, s, reads + 1⟩
      else some ⟨true, s, reads + 1⟩

def readString (fuel : Nat) (address : BitVec 64) (maxLen : BitVec 32) : Option Result :=
  readLoop mem 1 fuel address [] maxLen 0

def readUnicodeString (fuel : Nat) (address : BitVec 64) (maxLen : BitVec 32) : Option Result :=
  readLoop mem 2 fuel address [] maxLen 0

/-! ## What the functions are for -/

section Spec

variable (size : Nat) (address : BitVec 64)

/-- The character number `i` of the memory from the address on. -/
def character (i : Nat) : Option Nat := readCharacter mem size (address + ofNat 64 (size * i))

/-- The first `n` characters are there and not zero. -/
def Characters (n : Nat) : Prop := ∀ i < n, ∃ c, character mem size address i = some c ∧ c ≠ 0

/-- The characters before the first terminator, or the first `maxLen` characters. -/
def Exactly (maxLen : Nat) (s : List Nat) : Prop :=
  Characters mem size address s.length ∧ (∀ i < s.length, s[i]? = character mem size address i) ∧
    (s.length = maxLen ∨ s.length < maxLen ∧ character mem size address s.length = some 0)

/-- The call terminates, reads at most `maxLen` characters, and on success returns the right ones. -/
def Right (maxLen : BitVec 32) (call : Nat → Option Result) : Prop :=
  ∃ fuel r, call fuel = some r ∧ r.reads ≤ maxLen.toNat ∧
    (r.success = true → Exactly mem size address maxLen.toNat (r.s.map toNat))

/-- The first character that is zero or cannot be read. -/
def Stops (n : Nat) : Prop :=
  Characters mem size address n ∧ (character mem size address n = none ∨ character mem size address n = some 0)

/-- The characters fit into the `char` they are cast to. -/
def Narrow (n : Nat) : Prop := ∀ i < n, ∀ c, character mem size address i = some c → c < 256

end Spec

/-! ## The loop -/

section Loop

variable {mem} {size : Nat} {address : BitVec 64} {maxLen : BitVec 32} {n : Nat}

/-- What the first `n` characters leave in the string. -/
def narrowed (mem : GuestMemory) (size : Nat) (address : BitVec 64) (n : Nat) : List (BitVec 8) :=
  (List.range n).map fun i => ofNat 8 ((character mem size address i).getD 0)

theorem readLoop_characters (h : Characters mem size address n) (maxLen : BitVec 32) (fuel : Nat) :
    ∃ left, readLoop mem size (n + fuel) address [] maxLen 0 =
      readLoop mem size fuel (address + ofNat 64 (size * n)) (narrowed mem size address n) left n := by
  induction n generalizing fuel with
  | zero => exact ⟨maxLen, by simp [narrowed]⟩
  | succ n ih =>
    obtain ⟨left, hrun⟩ := ih (fun i hi => h i (by omega)) (fuel + 1)
    obtain ⟨c, hc, hne⟩ := h n (Nat.lt_succ_self n)
    refine ⟨left - 1, ?_⟩
    rw [show n + 1 + fuel = n + (fuel + 1) by omega, hrun, readLoop]
    have hnext : address + ofNat 64 (size * n) + ofNat 64 size =
        address + ofNat 64 (size * (n + 1)) := by
      rw [BitVec.add_assoc, ← BitVec.ofNat_add, Nat.mul_succ]
    have hs : narrowed mem size address (n + 1) = narrowed mem size address n ++ [ofNat 8 c] := by
      simp [narrowed, List.range_succ, hc]
    have hlow : left - 1 ≥ 0 := Nat.zero_le _
    unfold character at hc
    rw [hc, hs]
    simp only [hne, ne_eq, not_false_eq_true, if_true, hlow, hnext]

/-- The outcome, whatever the bound is. -/
theorem readLoop_eq_some_iff (h : Stops mem size address n) {fuel : Nat} {r : Result} :
    readLoop mem size fuel address [] maxLen 0 = some r ↔
      n < fuel ∧ r = ⟨(character mem size address n).isSome, narrowed mem size address n, n + 1⟩ := by
  by_cases hf : n < fuel
  · obtain ⟨k, rfl⟩ : ∃ k, fuel = n + (k + 1) := ⟨fuel - n - 1, by omega⟩
    obtain ⟨left, hrun⟩ := readLoop_characters h.1 maxLen (k + 1)
    rw [hrun, readLoop, and_iff_right hf]
    show (match character mem size address n with | none => _ | some c => _) = _ ↔ _
    rcases h.2 with hn | hn
    · simp [hn, eq_comm]
    · simp [hn, eq_comm]
  · obtain ⟨left, hrun⟩ := readLoop_characters (fun i (hi : i < fuel) => h.1 i (by omega)) maxLen 0
    rw [Nat.add_zero] at hrun
    rw [hrun]
    exact iff_of_false nofun fun h => hf h.1

/-- Without such a character the loop does not end. -/
theorem readLoop_eq_none (h : ∀ n, Characters mem size address n) (fuel : Nat) :
    readLoop mem size fuel address [] maxLen 0 = none := by
  obtain ⟨left, hrun⟩ := readLoop_characters (h fuel) maxLen 0
  rwa [Nat.add_zero] at hrun

theorem exists_stops (h : ¬ ∀ n, Characters mem size address n) : ∃ n, Stops mem size address n := by
  classical
  have hfirst : ∃ i, ¬ ∃ c, character mem size address i = some c ∧ c ≠ 0 := by
    by_contra hall
    push Not at hall
    exact h fun n i _ => hall i
  refine ⟨Nat.find hfirst, fun i hi => not_not.1 (Nat.find_min hfirst hi), ?_⟩
  have hspec := Nat.find_spec hfirst
  generalize Nat.find hfirst = n at hspec ⊢
  cases hc : character mem size address n with
  | none => exact .inl rfl
  | some c => exact .inr (congrArg some (not_not.1 fun hne => hspec ⟨c, hc, hne⟩))

theorem Stops.not_lt {m : Nat} (h : Stops mem size address n) (h' : Stops mem size address m) : ¬ n < m := by
  intro hlt
  obtain ⟨c, hc, hne⟩ := h'.1 n hlt
  rcases h.2 with hn | hn
  · cases hn.symm.trans hc
  · cases hn.symm.trans hc
    exact hne rfl

/-- The characters are returned as they are if and only if they fit. -/
theorem exactly_iff (h : Characters mem size address n) (hn : character mem size address n = some 0)
    (hlt : n < maxLen.toNat) :
    Exactly mem size address maxLen.toNat ((narrowed mem size address n).map toNat) ↔ Narrow mem size address n := by
  have hlen : ((narrowed mem size address n).map toNat).length = n := by simp [narrowed]
  have hget (i c : Nat) (hi : i < n) (hc : character mem size address i = some c) :
      ((narrowed mem size address n).map toNat)[i]? = some (c % 256) := by
    simp [narrowed, hi, hc]
  unfold Exactly
  rw [hlen, and_iff_right h, and_iff_left (.inr ⟨hlt, hn⟩)]
  refine forall₂_congr fun i hi => ?_
  obtain ⟨c, hc, -⟩ := h i hi
  rw [hget i c hi hc, hc]
  grind

theorem right_iff (mem : GuestMemory) (size : Nat) (address : BitVec 64) (maxLen : BitVec 32) :
    Right mem size address maxLen (fun fuel => readLoop mem size fuel address [] maxLen 0) ↔
      ∃ n < maxLen.toNat, Stops mem size address n ∧
        (character mem size address n = some 0 → Narrow mem size address n) := by
  by_cases hall : ∀ n, Characters mem size address n
  · refine iff_of_false ?_ ?_
    · rintro ⟨fuel, r, hr, -⟩
      cases (readLoop_eq_none hall fuel).symm.trans hr
    · rintro ⟨n, -, hn, -⟩
      obtain ⟨c, hc, hne⟩ := hall (n + 1) n (Nat.lt_succ_self n)
      rcases hn.2 with hn | hn <;> cases hn.symm.trans hc
      exact hne rfl
  · obtain ⟨n, hn⟩ := exists_stops hall
    constructor
    · rintro ⟨fuel, r, hr, hreads, hs⟩
      obtain ⟨-, rfl⟩ := (readLoop_eq_some_iff hn).1 hr
      refine ⟨n, hreads, hn, fun hzero => ?_⟩
      exact (exactly_iff hn.1 hzero hreads).1 (hs (by simp [hzero]))
    · rintro ⟨m, hm, hm', hnarrow⟩
      obtain rfl : n = m := by
        have := hn.not_lt hm'
        have := hm'.not_lt hn
        omega
      refine ⟨n + 1, _, (readLoop_eq_some_iff hn).2 ⟨Nat.lt_succ_self n, rfl⟩, hm, fun hsuccess => ?_⟩
      have hzero : character mem size address n = some 0 := by
        rcases hn.2 with h | h
        · rw [h] at hsuccess
          cases hsuccess
        · exact h
      exact (exactly_iff hn.1 hzero hm).2 (hnarrow hzero)

end Loop

/-- A byte fits into a `char`. -/
theorem narrow_byte (address : BitVec 64) (n : Nat) : Narrow mem 1 address n := by
  intro i _ c hc
  cases hb : mem (address + ofNat 64 i) with
  | none => simp [character, readCharacter, readMemoryConcrete, hb] at hc
  | some b =>
    simp [character, readCharacter, readMemoryConcrete, hb] at hc
    omega

/-- Both functions are right if and only if a character among the first `maxLen` is zero or cannot be read, and, for
`readUnicodeString`, those before a terminator fit into a `char`. -/
theorem strings_right_iff (address : BitVec 64) (maxLen : BitVec 32) :
    (Right mem 1 address maxLen (fun fuel => readString mem fuel address maxLen) ↔
      ∃ n < maxLen.toNat, Stops mem 1 address n) ∧
    (Right mem 2 address maxLen (fun fuel => readUnicodeString mem fuel address maxLen) ↔
      ∃ n < maxLen.toNat, Stops mem 2 address n ∧
        (character mem 2 address n = some 0 → Narrow mem 2 address n)) := by
  refine ⟨(right_iff mem 1 address maxLen).trans ?_, right_iff mem 2 address maxLen⟩
  refine exists_congr fun n => and_congr_right fun _ => ?_
  exact and_iff_left fun _ => narrow_byte mem address n

/-- Memory without a zero: no bound ends the loop. -/
theorem readString_never_ends : ¬ ∃ fuel r, readString (fun _ => some 0x41) fuel 0 4 = some r := by
  rintro ⟨fuel, r, h⟩
  have hall (n : Nat) : Characters (fun _ => some 0x41) 1 0 n := fun i _ => ⟨0x41, rfl, by decide⟩
  cases (readLoop_eq_none hall fuel).symm.trans h

end S2E.Qemu.Strings
