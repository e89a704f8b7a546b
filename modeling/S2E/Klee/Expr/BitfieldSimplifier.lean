import S2E.Klee.Expr.Rewrites
import S2E.Lib.KnownBits
import S2E.Lib.Triple

/-!
# `BitfieldSimplifier`

* `BitsInfo` : which bits of an expression are known, and which bits its context ignores;
* `applyKind` : the switch of `doSimplifyBits`. It computes the known bits of a node and the bits that the node ignores in
  each kid;
* `doSimplifyBits` : the recursion with the table `m_bitsInfoCache`.

`doSimplifyBits` takes an observer `allow`. The observer is shown the expression of every call together with the entry
that answers it, if one does, and can stop the run; the code is the run whose observer allows everything.
-/

namespace S2E.Klee

open S2E.Lib BitVec

namespace BitfieldSimplifier

structure BitsInfo where
  ignoredBits : BitVec 64
  knownOneBits : BitVec 64
  knownZeroBits : BitVec 64
deriving DecidableEq

def zeroMask (w : Nat) : BitVec 64 := if w < 64 then allOnes 64 <<< w else 0#64

/-- Every bit is known or ignored. -/
def BitsInfo.covered (b : BitsInfo) : Bool := ~~~(b.knownOneBits ||| b.knownZeroBits ||| b.ignoredBits) = 0#64

/-- One kid in the arrays of `doSimplifyBits`: `kids[i]`, `bits[i]`, and what `bits[i]` was when `oldIgnoredBits[i]` was
taken from it. -/
structure Kid where
  expr : Expr
  bits : BitsInfo
  oldBits : BitsInfo

/-- `bits[i].ignoredBits = ignoredBits`. -/
def Kid.ignore (k : Kid) (ignoredBits : BitVec 64) : Kid := { k with bits.ignoredBits := ignoredBits }

/-- A kid of `And`, all of whose bits are one or ignored, is replaced by ones. -/
def Kid.ones (k : Kid) : Kid :=
  if ~~~(k.bits.knownOneBits ||| k.bits.ignoredBits) = 0#64 then
    { k with bits.knownOneBits := allOnes 64, bits.knownZeroBits := 0#64 }
  else k

/-- A kid of `Or`, all of whose bits are zero or ignored, is replaced by zeros. -/
def Kid.zeros (k : Kid) : Kid :=
  if ~~~(k.bits.knownZeroBits ||| k.bits.ignoredBits) = 0#64 then
    { k with bits.knownOneBits := 0#64, bits.knownZeroBits := allOnes 64 }
  else k

theorem Kid.ones_expr (k : Kid) : k.ones.expr = k.expr := by unfold Kid.ones; split <;> rfl

theorem Kid.ones_ignoredBits (k : Kid) : k.ones.bits.ignoredBits = k.bits.ignoredBits := by
  unfold Kid.ones; split <;> rfl

theorem Kid.zeros_expr (k : Kid) : k.zeros.expr = k.expr := by unfold Kid.zeros; split <;> rfl

theorem Kid.zeros_ignoredBits (k : Kid) : k.zeros.bits.ignoredBits = k.bits.ignoredBits := by
  unfold Kid.zeros; split <;> rfl

/-- The known bits of a shift to the left by a constant, and the bits it ignores. -/
def applyShl (ignoredBits : BitVec 64) (width shift : Nat) (k₀ : Kid) : BitsInfo × Kid :=
  if shift < width then
    (⟨ignoredBits, (k₀.bits.knownOneBits <<< shift) &&& ~~~zeroMask width,
      (k₀.bits.knownZeroBits <<< shift) ||| zeroMask width ||| ~~~zeroMask shift⟩,
      k₀.ignore (((ignoredBits &&& ~~~zeroMask width) >>> shift) ||| zeroMask (width - shift)))
  else (⟨ignoredBits, 0#64, allOnes 64⟩, k₀.ignore (allOnes 64))

def applyLShr (ignoredBits : BitVec 64) (width shift : Nat) (k₀ : Kid) : BitsInfo × Kid :=
  if shift < width then
    (⟨ignoredBits, k₀.bits.knownOneBits >>> shift, (k₀.bits.knownZeroBits >>> shift) ||| zeroMask (width - shift)⟩,
      k₀.ignore ((ignoredBits <<< shift) ||| ~~~zeroMask shift ||| zeroMask width))
  else (⟨ignoredBits, 0#64, allOnes 64⟩, k₀.ignore (allOnes 64))

/-- Only a shift by a constant is looked into. -/
def applyShift (apply : BitVec 64 → Nat → Nat → Kid → BitsInfo × Kid) (ignoredBits : BitVec 64) (width : Nat)
    (k₀ k₁ : Kid) : BitsInfo × List Kid :=
  match k₁.expr with
  | .constant c₁ =>
    let r := apply ignoredBits width c₁.getZExtValue k₀
    (r.1, [r.2, k₁])
  | _ => (⟨ignoredBits, 0#64, zeroMask width⟩, [k₀, k₁])

def applySExt (ignoredBits : BitVec 64) (width : Nat) (k₀ : Kid) : BitsInfo × Kid :=
  -- The bits determined by the sign.
  let mask := zeroMask k₀.expr.getWidth &&& ~~~zeroMask width
  let sign := 1#64 <<< (k₀.expr.getWidth - 1)
  let one := k₀.bits.knownOneBits
  let zero := k₀.bits.knownZeroBits
  (if one &&& sign ≠ 0#64 then ⟨ignoredBits, one ||| mask, zero &&& ~~~mask⟩
    else if zero &&& sign ≠ 0#64 then ⟨ignoredBits, one, zero ||| mask⟩
    else ⟨ignoredBits, one, zero &&& ~~~mask⟩,
    k₀.ignore (if mask &&& ~~~ignoredBits ≠ 0#64 then ignoredBits &&& ~~~sign else ignoredBits))

/-- The switch of `doSimplifyBits`: `rbits`, and the kids with their `bits` brought up to date. -/
def applyKind (ignoredBits : BitVec 64) : Expr → List Kid → BitsInfo × List Kid
  | .bin .and _ _, [k₀, k₁] =>
    (⟨ignoredBits, k₀.bits.knownOneBits &&& k₁.bits.knownOneBits, k₀.bits.knownZeroBits ||| k₁.bits.knownZeroBits⟩,
      [(k₀.ignore (ignoredBits ||| k₁.bits.knownZeroBits)).ones,
        (k₁.ignore (ignoredBits ||| (k₀.bits.knownZeroBits &&& ~~~k₁.bits.knownZeroBits))).ones])
  | .bin .or _ _, [k₀, k₁] =>
    (⟨ignoredBits, k₀.bits.knownOneBits ||| k₁.bits.knownOneBits, k₀.bits.knownZeroBits &&& k₁.bits.knownZeroBits⟩,
      [(k₀.ignore (ignoredBits ||| k₁.bits.knownOneBits)).zeros,
        (k₁.ignore (ignoredBits ||| (k₀.bits.knownOneBits &&& ~~~k₁.bits.knownOneBits))).zeros])
  | .bin .xor _ _, [k₀, k₁] =>
    (⟨ignoredBits,
      (k₀.bits.knownZeroBits &&& k₁.bits.knownOneBits) ||| (k₀.bits.knownOneBits &&& k₁.bits.knownZeroBits),
      (k₀.bits.knownOneBits &&& k₁.bits.knownOneBits) ||| (k₀.bits.knownZeroBits &&& k₁.bits.knownZeroBits)⟩,
      [k₀.ignore ignoredBits, k₁.ignore ignoredBits])
  | .not e, [k₀] =>
    (⟨ignoredBits, k₀.bits.knownZeroBits &&& ~~~zeroMask e.getWidth, k₀.bits.knownOneBits ||| zeroMask e.getWidth⟩,
      [k₀.ignore ignoredBits])
  | .bin .shl l _, [k₀, k₁] => applyShift applyShl ignoredBits l.getWidth k₀ k₁
  | .bin .lshr l _, [k₀, k₁] => applyShift applyLShr ignoredBits l.getWidth k₀ k₁
  | .extract _ offset width, [k₀] =>
    let mask := zeroMask width
    (⟨ignoredBits, (k₀.bits.knownOneBits >>> offset) &&& ~~~mask, (k₀.bits.knownZeroBits >>> offset) ||| mask⟩,
      [k₀.ignore ((ignoredBits <<< offset) ||| ~~~(~~~mask <<< offset))])
  | .concat _ _, [k₀, k₁] =>
    let shift := k₁.expr.getWidth
    (⟨ignoredBits, (k₀.bits.knownOneBits <<< shift) ||| k₁.bits.knownOneBits,
      (k₀.bits.knownZeroBits <<< shift) ||| (k₁.bits.knownZeroBits &&& ~~~zeroMask k₁.expr.getWidth)⟩,
      [k₀.ignore ((ignoredBits >>> shift) ||| zeroMask k₀.expr.getWidth),
        k₁.ignore (ignoredBits ||| zeroMask k₁.expr.getWidth)])
  | .select _ t _, [k₀, k₁, k₂] =>
    (⟨ignoredBits, k₁.bits.knownOneBits &&& k₂.bits.knownOneBits,
      (k₁.bits.knownZeroBits &&& k₂.bits.knownZeroBits) ||| zeroMask t.getWidth⟩,
      [k₀, k₁.ignore ignoredBits, k₂.ignore ignoredBits])
  | .zext _ _, [k₀] => (⟨ignoredBits, k₀.bits.knownOneBits, k₀.bits.knownZeroBits⟩, [k₀.ignore ignoredBits])
  | .sext _ width, [k₀] => ((applySExt ignoredBits width k₀).1, [(applySExt ignoredBits width k₀).2])
  | .constant c, kids =>
    let value := BitVec.ofNat 64 c.getZExtValue
    (⟨ignoredBits, value, ~~~value⟩, kids)
  -- The most general assumption.
  | e, kids => (⟨ignoredBits, 0#64, zeroMask e.getWidth⟩, kids)

/-! ## The recursion -/

/-- `m_bitsInfoCache`. -/
abbrev Cache := List (Expr × BitsInfo)

def Cache.erase (cache : Cache) (e : Expr) : Cache := cache.filter fun entry => entry.1 ≠ e

/-- `m_bitsInfoCache.insert`: an entry that is there stays. -/
def Cache.insert (cache : Cache) (e : Expr) (b : BitsInfo) : Cache :=
  if (cache.lookup e).isSome then cache else (e, b) :: cache

/-- The entry that answers a call: the bits to ignore are among those that were ignored when the entry was made. -/
def Cache.answer (cache : Cache) (e : Expr) (ignoredBits : BitVec 64) : Option BitsInfo :=
  (cache.lookup e).filter fun b => ignoredBits &&& ~~~b.ignoredBits = 0#64

/-- How a run can stop: as the code stops, or because the observer does not allow a call. -/
inductive Stop
  | trap (t : Trap)
  | refused
deriving DecidableEq

abbrev SimplifyM := StateT Cache (Except Stop)

def isConstantOf (value : BitVec 64) : Expr → Bool
  | .constant c => c.getZExtValue = value.toNat
  | _ => false

def replaceWithConstant (e : Expr) (value : BitVec 64) : SimplifyM Expr := do
  if isConstantOf value e then return e
  modify fun cache => (e.kids.foldl Cache.erase cache).erase e
  return .const (value &&& ~~~zeroMask e.getWidth).toNat e.getWidth

/-- The three assertions after the switch. -/
def BitsInfo.valid (b : BitsInfo) (width : Nat) : Bool :=
  b.knownOneBits &&& b.knownZeroBits = 0#64 ∧ b.knownOneBits &&& zeroMask width = 0#64 ∧
    b.knownZeroBits &&& zeroMask width = zeroMask width

section

variable [Options] (visit : Expr → BitVec 64 → SimplifyM (Expr × BitsInfo))

/-- The first loop: the known bits of a kid. No bit is ignored. -/
def visitKid (e : Expr) : SimplifyM Kid := do
  let r ← visit e 0#64
  return ⟨r.1, r.2, r.2⟩

/-- The second loop: a kid is replaced, or simplified again with the bits that are ignored. -/
def updateKid (k : Kid) : SimplifyM Expr :=
  if k.bits.covered then replaceWithConstant k.expr k.bits.knownOneBits
  else if k.bits.ignoredBits &&& ~~~k.oldBits.ignoredBits ≠ 0#64 then do
    let r ← visit k.expr k.bits.ignoredBits
    return r.1
  else return k.expr

/-- The kids brought up to date, and the node over them. -/
def rebuildNode (e : Expr) (kids : List Kid) : SimplifyM Expr := do
  let kids ← kids.mapM (updateKid visit)
  if kids = e.kids then return e
  StateT.lift ((e.rebuild kids).mapError .trap)

/-- The node is replaced if all its bits are known or ignored, and rebuilt otherwise. -/
def improveNode (e : Expr) (rbits : BitsInfo) (kids : List Kid) : SimplifyM Expr :=
  if !e.isConstant && rbits.covered then replaceWithConstant e rbits.knownOneBits else rebuildNode visit e kids

/-- Only complex expressions are cached. -/
def remember (e : Expr) (rbits : BitsInfo) : SimplifyM PUnit :=
  if 1 < e.kids.length then modify (·.insert e rbits) else pure ⟨⟩

/-- `doSimplifyBits` on an expression that no entry answers. -/
def simplifyNode (e : Expr) (ignoredBits : BitVec 64) : SimplifyM (Expr × BitsInfo) := do
  let kids ← e.kids.mapM (visitKid visit)
  let r := applyKind ignoredBits e kids
  if r.1.valid e.getWidth then
    let e' ← improveNode visit e r.1 r.2
    remember e' r.1
    return (e', r.1)
  else throw (.trap .assertFailed)

end

variable [Options]

def doSimplifyBits (allow : Expr → Option BitsInfo → Bool) : Nat → Expr → BitVec 64 → SimplifyM (Expr × BitsInfo)
  | 0, _, _ => throw (.trap .outOfFuel)
  | fuel + 1, e, ignoredBits => do
    let cache ← get
    if allow e (cache.answer e ignoredBits) then
      match cache.answer e ignoredBits with
      | some b => return (e, b)
      | none => simplifyNode (doSimplifyBits allow fuel) e ignoredBits
    else throw .refused

/-- The observer of the code as it runs. -/
def allowAll : Expr → Option BitsInfo → Bool := fun _ _ => true

def simplify (allow : Expr → Option BitsInfo → Bool) (e : Expr) : SimplifyM Expr := do
  let r ← doSimplifyBits allow (e.weight + 1) e 0#64
  return r.1

/-- The calls of a run, on a new simplifier. -/
def simplifyAll (allow : Expr → Option BitsInfo → Bool) (es : List Expr) : Except Stop (List Expr) :=
  ((es.mapM (simplify allow)).run []).map Prod.fst

/-! ## The observer changes nothing but where a run stops -/

section Refines

variable {visit visit' : Expr → BitVec 64 → SimplifyM (Expr × BitsInfo)}

omit [Options] in
theorem updateKid_refines (h : ∀ e I, Refines (visit e I) (visit' e I)) (k : Kid) :
    Refines (updateKid visit k) (updateKid visit' k) := by
  unfold updateKid
  split
  · exact .refl _
  · split
    · exact .bind (h _ _) fun _ => .refl _
    · exact .refl _

theorem simplifyNode_refines (h : ∀ e I, Refines (visit e I) (visit' e I)) (e : Expr) (I : BitVec 64) :
    Refines (simplifyNode visit e I) (simplifyNode visit' e I) := by
  unfold simplifyNode
  refine .bind (.mapM (fun k => .bind (h k _) fun _ => .refl _) _) fun kids => ?_
  dsimp only
  split
  · refine .bind ?_ fun _ => .refl _
    unfold improveNode
    split
    · exact .refl _
    · exact .bind (.mapM (updateKid_refines h) _) fun _ => .refl _
  · exact .refl _

theorem doSimplifyBits_refines (allow : Expr → Option BitsInfo → Bool) :
    ∀ n e I, Refines (doSimplifyBits allow n e I) (doSimplifyBits allowAll n e I)
  | 0, _, _ => .refl _
  | n + 1, e, I => by
    unfold doSimplifyBits
    refine .get_bind fun cache => ?_
    rw [if_pos (show allowAll e (cache.answer e I) = true from rfl)]
    split
    · split
      · exact .refl _
      · exact simplifyNode_refines (doSimplifyBits_refines allow n) e I
    · exact .throw

end Refines

theorem simplifyAll_refines {allow : Expr → Option BitsInfo → Bool} {es es' : List Expr}
    (h : simplifyAll allow es = .ok es') : simplifyAll allowAll es = .ok es' := by
  unfold simplifyAll at h ⊢
  cases hr : (es.mapM (simplify allow)).run [] with
  | error t =>
    rw [hr] at h
    cases h
  | ok r =>
    have href : Refines (es.mapM (simplify allow)) (es.mapM (simplify allowAll)) :=
      .mapM (fun e => .bind (doSimplifyBits_refines allow _ e _) fun _ => .refl _) es
    rw [href _ _ hr, ← h, hr]

end BitfieldSimplifier

end S2E.Klee
