import Mathlib.Tactic

/-!
# Constants of the expression language

`ConstantExpr` wraps `llvm::APInt`: a bit width and a value of that width (`APInt`). The constant operations of
`Expr.cpp` (`ConstantExpr::Add`, ..., `ConstantExpr::Sge`) are one definition for each of the two families of binary
kinds, `BinKind.eval` and `CmpKind.eval`; the same two functions give the meaning of the symbolic nodes.

`APInt` traps on a zero divisor. `BinKind.eval` reads a zero divisor as one, which is what `UDivExpr_create` and its
siblings do at width one; the trap itself is in `APInt.bin?`.
-/

namespace S2E.Klee

/-- `llvm::APInt`. -/
structure APInt where
  width : Nat
  bits : BitVec width
deriving DecidableEq

/-- The kinds of `ARITHMETIC_EXPR_CLASS`. -/
inductive BinKind
  | add | sub | mul | udiv | sdiv | urem | srem | and | or | xor | shl | lshr | ashr
deriving DecidableEq

/-- The kinds of `COMPARISON_EXPR_CLASS`. -/
inductive CmpKind
  | eq | ne | ult | ule | ugt | uge | slt | sle | sgt | sge
deriving DecidableEq

/-- The four kinds on which `APInt` traps when the right operand is zero. -/
def BinKind.isDiv : BinKind → Bool
  | .udiv | .sdiv | .urem | .srem => true
  | _ => false

def BinKind.eval : BinKind → {w : Nat} → BitVec w → BitVec w → BitVec w
  | .add, _, x, y => x + y
  | .sub, _, x, y => x - y
  | .mul, _, x, y => x * y
  | .udiv, _, x, y => if y = 0 then x else x / y
  | .sdiv, _, x, y => if y = 0 then x else x.sdiv y
  | .urem, _, x, y => if y = 0 then 0 else x % y
  | .srem, _, x, y => if y = 0 then 0 else x.srem y
  | .and, _, x, y => x &&& y
  | .or, _, x, y => x ||| y
  | .xor, _, x, y => x ^^^ y
  | .shl, _, x, y => x <<< y
  | .lshr, _, x, y => x >>> y
  | .ashr, _, x, y => x.sshiftRight' y

def CmpKind.eval : CmpKind → {w : Nat} → BitVec w → BitVec w → Bool
  | .eq, _, x, y => x == y
  | .ne, _, x, y => x != y
  | .ult, _, x, y => x.ult y
  | .ule, _, x, y => x.ule y
  | .ugt, _, x, y => y.ult x
  | .uge, _, x, y => y.ule x
  | .slt, _, x, y => x.slt y
  | .sle, _, x, y => x.sle y
  | .sgt, _, x, y => y.slt x
  | .sge, _, x, y => y.sle x

namespace APInt

/-- `ConstantExpr::alloc(v, w)`: the value is truncated to the width. -/
def ofNat (v w : Nat) : APInt := ⟨w, BitVec.ofNat w v⟩

section

variable (c : APInt)

/-- The value itself at every width. The source asserts that the width is at most 64, so that `isZero` and `isOne` stop
above, and `isAllOnes` shifts by more than the width of a word. -/
def getZExtValue : Nat := c.bits.toNat

def isZero : Bool := c.getZExtValue == 0

def isOne : Bool := c.getZExtValue == 1

def isTrue : Bool := c.getZExtValue == 1

def isFalse : Bool := c.getZExtValue == 0

/-- `getZExtValue() == bits64::maxValueOfNBits(width)`. -/
def isAllOnes : Bool := c.getZExtValue == 2 ^ c.width - 1

end

def bin (k : BinKind) (a b : APInt) : APInt := ⟨a.width, k.eval a.bits (b.bits.setWidth a.width)⟩

def cmp (k : CmpKind) (a b : APInt) : APInt :=
  ⟨1, BitVec.ofBool (k.eval a.bits (b.bits.setWidth a.width))⟩

def not (a : APInt) : APInt := ⟨a.width, ~~~a.bits⟩

/-- `ConstantExpr::Concat`. -/
def concat (a b : APInt) : APInt := ⟨a.width + b.width, a.bits ++ b.bits⟩

/-- `ConstantExpr::Extract`: an arithmetic shift, then `zextOrTrunc`. -/
def extract (a : APInt) (off w : Nat) : APInt := ⟨w, (a.bits.sshiftRight off).setWidth w⟩

def zext (a : APInt) (w : Nat) : APInt := ⟨w, a.bits.setWidth w⟩

def sext (a : APInt) (w : Nat) : APInt := ⟨w, a.bits.signExtend w⟩

end APInt

/-- How a run of the modelled code can stop without a result. -/
inductive Trap
  /-- `APInt::udiv` and its siblings on a zero divisor. -/
  | divideByZero
  /-- `assert(cast<ConstantExpr>(e)->isTrue())` of `addConstraintInternal`. -/
  | falseConstraint
  /-- Another assertion. -/
  | assertFailed
  | outOfFuel
deriving DecidableEq

/-- An assertion that a pointer is not null. -/
def Trap.check {α : Type} : Option α → Except Trap α
  | some a => .ok a
  | none => .error .assertFailed

theorem Trap.eq_some_of_check {α : Type} {o : Option α} {a : α} (h : Trap.check o = .ok a) : o = some a := by
  cases o with
  | none => cases h
  | some b => exact congrArg some (Except.ok.inj h)

/-- The constant operation as the code runs it: a zero divisor traps. -/
def APInt.bin? (k : BinKind) (a b : APInt) : Except Trap APInt :=
  if k.isDiv && b.isZero then .error .divideByZero else .ok (a.bin k b)

end S2E.Klee
