import S2E.Klee.Expr.Syntax
import S2E.Klee.Solver.ConstantDivision
import S2E.Stp.VCExpr

/-!
# `STPBuilder`

Expressions as terms of STP. A term for an expression of width one is a formula, any other a bit vector.

* `bvLeftShift`, ..., `constructSDivByConstant` : terms for shifts, and for products and quotients by constants;
* `constantTerm`, `extractTerm`, ... : what `constructActual` makes of a node, given the terms of its kids;
* `constructActual`, `getArrayForUpdate` : the recursion, with the terms that were kept;
* `construct` : the entry point.

The variable of an array stands for its name, which has the address in it.
-/

namespace S2E.Klee.STPBuilder

open S2E.Stp

abbrev Term := VCExpr Array

/-! ## Constants -/

section

variable (width : Nat)

def bvConst32 (value : BitVec 32) : Term := .bvConst width value.toNat

/-- Only the low bits count. -/
def bvConst64 (value : BitVec 64) : Term := .bvConst width (value.toNat % 2 ^ width)

def bvOne : Term := bvConst32 width 1

def bvZero : Term := bvConst32 width 0

def bvMinusOne : Term := bvConst64 width (-1)

end

def bvBoolExtract (expr : Term) (bit : Nat) : Term := .eqExpr (.bvExtract expr bit bit) (bvOne 1)

/-! ## Shifts -/

def getShiftBits (amount : Nat) : Nat := if amount = 64 then 6 else 5

def bvRightShift (expr : Term) (amount shiftBits : Nat) : Term :=
  let width := expr.getBVLength
  let shift := amount % 2 ^ shiftBits
  if shift = 0 then expr
  else if shift ≥ width then bvZero width
  else .bvConcatExpr (bvZero shift) (.bvExtract expr (width - 1) shift)

def bvLeftShift (expr : Term) (amount shiftBits : Nat) : Term :=
  let width := expr.getBVLength
  let shift := amount % 2 ^ shiftBits
  if shift = 0 then expr
  else if shift ≥ width then bvZero width
  else .bvConcatExpr (.bvExtract expr (width - shift - 1) 0) (bvZero shift)

def constructAShrByConstant (expr : Term) (amount : Nat) (isSigned : Term) (shiftBits : Nat) : Term :=
  let width := expr.getBVLength
  let shift := amount % 2 ^ shiftBits
  if shift = 0 then expr
  else if shift ≥ width - 1 then .iteExpr isSigned (bvMinusOne width) (bvZero width)
  else .iteExpr isSigned (.bvConcatExpr (bvMinusOne shift) (.bvExtract expr (width - 1) shift))
    (bvRightShift expr shift shiftBits)

/-- The part of the amount that counts. -/
def shiftAmount (amount : Term) (shiftBits : Nat) : Term := .bvExtract amount (shiftBits - 1) 0

/-- One case for each amount: the loop from `n - 1` down to zero. -/
def shiftCases (shift : Term) (shiftBits : Nat) (byConstant : Nat → Term) (n : Nat) (res : Term) : Term :=
  (List.range n).foldr (fun i res => .iteExpr (.eqExpr shift (bvConst32 shiftBits (BitVec.ofNat 32 i))) (byConstant i) res) res

section

variable (expr amount : Term) (width : Nat)

def bvVarLeftShift : Term :=
  let shiftBits := getShiftBits width
  shiftCases (shiftAmount amount shiftBits) shiftBits (bvLeftShift expr · shiftBits) width (bvZero width)

def bvVarRightShift : Term :=
  let shiftBits := getShiftBits width
  shiftCases (shiftAmount amount shiftBits) shiftBits (bvRightShift expr · shiftBits) width (bvZero width)

def bvVarArithRightShift : Term :=
  let shiftBits := getShiftBits width
  let signedBool := bvBoolExtract expr (width - 1)
  shiftCases (shiftAmount amount shiftBits) shiftBits (constructAShrByConstant expr · signedBool shiftBits) (width - 1)
    (constructAShrByConstant expr (width - 1) signedBool shiftBits)

end

/-! ## Products and quotients by constants -/

/-- The body of the loop over the bits of the two sets. -/
def mulStep (expr : Term) (width : Nat) (add sub : BitVec 64) (res : Option Term) (j : Nat) :
    Except Trap (Option Term) :=
  let op := bvLeftShift expr j (getShiftBits width)
  match add.getLsbD j, sub.getLsbD j with
  | true, true => throw .assertFailed
  | true, false => return some (res.elim op fun res => .bvExpr .plus width res op)
  | false, true => return some (res.elim (.bvUMinusExpr op) fun res => .bvExpr .minus width res op)
  | false, false => return res

def constructMulByConstant (expr : Term) (width : Nat) (x : BitVec 64) : Except Trap Term := do
  let (add, sub) ← computeMultConstants64 x
  let res ← (List.range 64).reverse.foldlM
    (mulStep expr width (Bits64.truncateToNBits add width) (Bits64.truncateToNBits sub width)) none
  return res.getD (bvZero width)

def constructUDivByConstant (n : Term) (width : Nat) (d : BitVec 32) : Except Trap Term :=
  if width = 32 then do
    let (mprime, sh1, sh2) := computeUDivConstants32 d
    let t1 ← constructMulByConstant (.bvConcatExpr (bvZero 32) n) 64 (mprime.setWidth 64)
    let t1 := VCExpr.bvExtract t1 63 32
    let shifted := bvVarRightShift (.bvExpr .minus width n t1) (bvConst32 32 (BitVec.ofNat 32 sh1)) 32
    return bvVarRightShift (.bvExpr .plus width shifted t1) (bvConst32 32 (BitVec.ofNat 32 sh2)) 32
  else throw .assertFailed

def constructSDivByConstant (n : Term) (width : Nat) (d : BitVec 32) : Except Trap Term :=
  if width = 32 then do
    let (mprime, dsign, shpost) := computeSDivConstants32 d
    let mult ← constructMulByConstant (.bvSignExtend n 64) 64 (mprime.signExtend 64)
    let sum := VCExpr.bvExpr .plus width n (.bvExtract mult 63 32)
    let shifted := bvVarRightShift (.bvSignExtend sum 64) (bvConst32 32 (BitVec.ofNat 32 shpost)) 64
    let xsign := VCExpr.iteExpr (bvBoolExtract n 31) (bvMinusOne 32) (bvZero 32)
    let q0 := VCExpr.bvExpr .minus width (.bvExtract shifted 31 0) xsign
    return .bvExpr .minus width (.bvBitExpr .xor q0 (bvConst32 32 dsign)) (bvConst32 32 dsign)
  else throw .assertFailed

/-! ## Nodes -/

/-- The words of a constant of more than 64 bits, after the first. The width of `tmp` does not change. -/
def wideConstant : Nat → APInt → Term → Term
  | 0, _, res => res
  | i + 1, tmp, res =>
    let tmp := tmp.bin .lshr (.ofNat 64 tmp.width)
    wideConstant i tmp (.bvConcatExpr (bvConst64 (min 64 tmp.width) (tmp.extract 0 64).bits) res)

def constantTerm (c : APInt) : Term :=
  if c.width = 1 then if c.isTrue then .trueExpr else .falseExpr
  else if c.width ≤ 32 then bvConst32 c.width (c.bits.setWidth 32)
  else if c.width ≤ 64 then bvConst64 c.width (c.bits.setWidth 64)
  else wideConstant (c.width / 64 - 1) c (bvConst64 64 (c.extract 0 64).bits)

/-- The array before any update. The values of a constant array are written to it. -/
def initialTerm (root : Array) : Term :=
  if root.isConstantArray then
    (List.range root.size).foldl (fun prev i =>
      .writeExpr prev (constantTerm (.ofNat i 32)) (constantTerm ⟨8, root.constantValues.getD i 0⟩)) (.varExpr root)
  else .varExpr root

/-- One bit is always the lowest. -/
def extractTerm (src : Term) (offset width : Nat) : Term :=
  if width = 1 then bvBoolExtract src 0 else .bvExtract src (offset + width - 1) offset

def zextTerm (src : Term) (srcWidth width : Nat) : Term :=
  if srcWidth = 1 then .iteExpr src (bvOne width) (bvZero width) else .bvConcatExpr (bvZero (width - srcWidth)) src

def sextTerm (src : Term) (srcWidth width : Nat) : Term :=
  if srcWidth = 1 then .iteExpr src (bvMinusOne width) (bvZero width) else .bvSignExtend src width

def notTerm (expr : Term) (width : Nat) : Term := if width = 1 then .notExpr expr else .bvNotExpr expr

section

variable (left right : Term) (width : Nat)

def andTerm : Term :=
  if width = 1 then .andExpr left right else .bvBitExpr .and left right

def orTerm : Term :=
  if width = 1 then .orExpr left right else .bvBitExpr .or left right

def xorTerm : Term :=
  if width = 1 then .iteExpr left (.notExpr right) right else .bvBitExpr .xor left right

end

/-- A formula for a left operand that is a constant is the right operand or its negation. -/
def eqTerm (l : Expr) (left right : Term) (width : Nat) : Term :=
  if width = 1 then
    match l with
    | .constant c => if c.isTrue then right else .notExpr right
    | _ => .iffExpr left right
  else .eqExpr left right

end S2E.Klee.STPBuilder

namespace S2E.Klee

open S2E.Stp STPBuilder

/-- The options. -/
structure STPBuilder where
  useConstructHash : Bool
  optimizeDivides : Bool

namespace STPBuilder

/-- A constant that fits a word. -/
def smallConstant : Expr → Option (BitVec 64)
  | .constant c => if c.width ≤ 64 then some (c.bits.setWidth 64) else none
  | _ => none

/-- The terms that were kept: by the builder for an expression and its width, by an array, and by an update. -/
structure Cache where
  constructed : Expr → Option (Term × Nat)
  stpInitialArray : Array → Option Term
  stpArray : Array → Updates → Option Term

def Cache.empty : Cache := ⟨fun _ => none, fun _ => none, fun _ _ => none⟩

abbrev BuildM := StateT Cache (Except Trap)

variable (b : STPBuilder)

def mulByConstant (left : Expr) (right : Term × Nat) : Option (Except Trap Term) :=
  (smallConstant left).map (constructMulByConstant right.1 right.2)

def udivByConstant (left : Term × Nat) (right : Expr) : Option (Except Trap Term) :=
  match smallConstant right with
  | some divisor =>
    if Bits64.isPowerOfTwo divisor then
      some (.ok (bvRightShift left.1 (Bits64.indexOfSingleBit divisor) (getShiftBits left.2)))
    else if b.optimizeDivides && left.2 == 32 then
      some (constructUDivByConstant left.1 left.2 (divisor.setWidth 32))
    else none
  | none => none

def sdivByConstant (left : Term × Nat) : Expr → Option (Except Trap Term)
  | .constant c =>
    if b.optimizeDivides && left.2 == 32 then some (constructSDivByConstant left.1 left.2 (c.bits.setWidth 32)) else none
  | _ => none

/-- The remainder by a constant that is not a power of two. -/
def constructURemByConstant (left : Term) (width : Nat) (divisor : BitVec 64) : Except Trap Term := do
  let quotient ← constructUDivByConstant left width (divisor.setWidth 32)
  let product ← constructMulByConstant quotient width divisor
  return .bvExpr .minus width left product

def uremByConstant (left : Term × Nat) (right : Expr) : Option (Except Trap Term) :=
  match smallConstant right with
  | some divisor =>
    if Bits64.isPowerOfTwo divisor then
      let bits := Bits64.indexOfSingleBit divisor
      if bits = 0 then some (.ok (bvZero left.2))
      else some (.ok (.bvConcatExpr (bvZero (left.2 - bits)) (.bvExtract left.1 (bits - 1) 0)))
    else if b.optimizeDivides && left.2 == 32 then some (constructURemByConstant left.1 left.2 divisor)
    else none
  | none => none

/-- `assert(*width_out != 1)`. -/
def assertNotBool (width : Nat) : BuildM Unit := if width = 1 then throw .assertFailed else return ()

/-- The constant is used where there is a term for it; the other operand is not built then. -/
def constantOr (term : Option (Except Trap Term)) (width : Nat) (generic : BuildM (Term × Nat)) : BuildM (Term × Nat) :=
  match term with
  | some term => StateT.lift (term.map (·, width))
  | none => generic

/-- `construct`, for what `constructActual` would build. -/
def lookup (e : Expr) (build : BuildM (Term × Nat)) : BuildM (Term × Nat) := fun s =>
  if !b.useConstructHash || e.isConstant then build s
  else
    match s.constructed e with
    | some r => .ok (r, s)
    | none => (build s).map fun p =>
      (p.1, { p.2 with constructed := Function.update p.2.constructed e (some p.1) })

def getInitialArray (root : Array) : BuildM Term := fun s =>
  match s.stpInitialArray root with
  | some t => .ok (t, s)
  | none =>
    .ok (initialTerm root, { s with stpInitialArray := Function.update s.stpInitialArray root (some (initialTerm root)) })

/-- The array of an update, for what would be built. -/
def lookupArray (root : Array) (un : Updates) (build : BuildM Term) : BuildM Term := fun s =>
  match s.stpArray root un with
  | some t => .ok (t, s)
  | none => (build s).map fun p =>
    (p.1, { p.2 with
      stpArray := Function.update p.2.stpArray root (Function.update (p.2.stpArray root) un (some p.1)) })

/-- `(unsigned) CE->getLimitedValue()`. -/
def getLimitedValue (c : APInt) : Nat := min c.getZExtValue (2 ^ 64 - 1) % 2 ^ 32

mutual

def constructActual : Expr → BuildM (Term × Nat)
  | .constant c => return (constantTerm c, c.width)
  | .notOptimized src => b.lookup src (constructActual src)
  | .read root head index => do
    let a ← getArrayForUpdate root head
    let i ← b.lookup index (constructActual index)
    return (.readExpr a i.1, 8)
  | .select c t f => do
    let cond ← b.lookup c (constructActual c)
    let tExpr ← b.lookup t (constructActual t)
    let fExpr ← b.lookup f (constructActual f)
    return (.iteExpr cond.1 tExpr.1 fExpr.1, fExpr.2)
  | .concat l r => do
    let right ← b.lookup r (constructActual r)
    let left ← b.lookup l (constructActual l)
    return (.bvConcatExpr left.1 right.1, l.getWidth + r.getWidth)
  | .extract e offset width => do
    let src ← b.lookup e (constructActual e)
    return (extractTerm src.1 offset width, width)
  | .zext e width => do
    let src ← b.lookup e (constructActual e)
    return (zextTerm src.1 src.2 width, width)
  | .sext e width => do
    let src ← b.lookup e (constructActual e)
    return (sextTerm src.1 src.2 width, width)
  | .not e => do
    let expr ← b.lookup e (constructActual e)
    return (notTerm expr.1 expr.2, expr.2)
  | .bin .add l r => do
    let left ← b.lookup l (constructActual l)
    let right ← b.lookup r (constructActual r)
    assertNotBool right.2
    return (.bvExpr .plus right.2 left.1 right.1, right.2)
  | .bin .sub l r => do
    let left ← b.lookup l (constructActual l)
    let right ← b.lookup r (constructActual r)
    assertNotBool right.2
    return (.bvExpr .minus right.2 left.1 right.1, right.2)
  | .bin .mul l r => do
    let right ← b.lookup r (constructActual r)
    assertNotBool right.2
    constantOr (mulByConstant l right) right.2 do
      let left ← b.lookup l (constructActual l)
      return (.bvExpr .mult left.2 left.1 right.1, left.2)
  | .bin .udiv l r => do
    let left ← b.lookup l (constructActual l)
    assertNotBool left.2
    constantOr (b.udivByConstant left r) left.2 do
      let right ← b.lookup r (constructActual r)
      return (.bvExpr .div right.2 left.1 right.1, right.2)
  | .bin .sdiv l r => do
    let left ← b.lookup l (constructActual l)
    assertNotBool left.2
    constantOr (b.sdivByConstant left r) left.2 do
      let right ← b.lookup r (constructActual r)
      return (.bvExpr .sbvDiv right.2 left.1 right.1, right.2)
  | .bin .urem l r => do
    let left ← b.lookup l (constructActual l)
    assertNotBool left.2
    constantOr (b.uremByConstant left r) left.2 do
      let right ← b.lookup r (constructActual r)
      return (.bvExpr .mod right.2 left.1 right.1, right.2)
  | .bin .srem l r => do
    let left ← b.lookup l (constructActual l)
    let right ← b.lookup r (constructActual r)
    assertNotBool right.2
    return (.bvExpr .sbvMod right.2 left.1 right.1, right.2)
  | .bin .and l r => do
    let left ← b.lookup l (constructActual l)
    let right ← b.lookup r (constructActual r)
    return (andTerm left.1 right.1 right.2, right.2)
  | .bin .or l r => do
    let left ← b.lookup l (constructActual l)
    let right ← b.lookup r (constructActual r)
    return (orTerm left.1 right.1 right.2, right.2)
  | .bin .xor l r => do
    let left ← b.lookup l (constructActual l)
    let right ← b.lookup r (constructActual r)
    return (xorTerm left.1 right.1 right.2, right.2)
  | .bin .shl l r => do
    let left ← b.lookup l (constructActual l)
    assertNotBool left.2
    match r with
    | .constant c => return (bvLeftShift left.1 (getLimitedValue c) (getShiftBits left.2), left.2)
    | r => do
      let amount ← b.lookup r (constructActual r)
      return (bvVarLeftShift left.1 amount.1 left.2, left.2)
  | .bin .lshr l r => do
    let left ← b.lookup l (constructActual l)
    assertNotBool left.2
    match r with
    | .constant c => return (bvRightShift left.1 (getLimitedValue c) (getShiftBits left.2), left.2)
    | r => do
      let amount ← b.lookup r (constructActual r)
      return (bvVarRightShift left.1 amount.1 left.2, left.2)
  | .bin .ashr l r => do
    let left ← b.lookup l (constructActual l)
    assertNotBool left.2
    match r with
    | .constant c =>
      return (constructAShrByConstant left.1 (getLimitedValue c) (bvBoolExtract left.1 (left.2 - 1))
        (getShiftBits left.2), left.2)
    | r => do
      let amount ← b.lookup r (constructActual r)
      return (bvVarArithRightShift left.1 amount.1 left.2, left.2)
  | .cmp .eq l r => do
    let left ← b.lookup l (constructActual l)
    let right ← b.lookup r (constructActual r)
    return (eqTerm l left.1 right.1 right.2, 1)
  | .cmp .ult l r => do
    let left ← b.lookup l (constructActual l)
    let right ← b.lookup r (constructActual r)
    assertNotBool right.2
    return (.bvRel .lt left.1 right.1, 1)
  | .cmp .ule l r => do
    let left ← b.lookup l (constructActual l)
    let right ← b.lookup r (constructActual r)
    assertNotBool right.2
    return (.bvRel .le left.1 right.1, 1)
  | .cmp .slt l r => do
    let left ← b.lookup l (constructActual l)
    let right ← b.lookup r (constructActual r)
    assertNotBool right.2
    return (.bvRel .sbvLt left.1 right.1, 1)
  | .cmp .sle l r => do
    let left ← b.lookup l (constructActual l)
    let right ← b.lookup r (constructActual r)
    assertNotBool right.2
    return (.bvRel .sbvLe left.1 right.1, 1)
  -- Not used in canonical expressions.
  | .cmp _ _ _ => throw .assertFailed

def getArrayForUpdate (root : Array) : Updates → BuildM Term
  | .nil => getInitialArray root
  | .cons index value next => lookupArray root (.cons index value next) do
    let a ← getArrayForUpdate root next
    let i ← b.lookup index (constructActual index)
    let v ← b.lookup value (constructActual value)
    return .writeExpr a i.1 v.1

end

def construct (e : Expr) : BuildM (Term × Nat) := b.lookup e (b.constructActual e)

end STPBuilder

end S2E.Klee
