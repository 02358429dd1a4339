import Compiler16.Machine.Fault
import Compiler16.Machine.Flags

/-!
# Arithmetic and logic

The operations on 16-bit words and the flags they leave behind.  Every result
sets the zero and negative flags; addition, subtraction, multiplication and
division also set the carry flag, and the first two the overflow flag.
-/

namespace Compiler16.Machine

/-- Whether a word is negative as a two's-complement number. -/
def isNegative (v : UInt16) : Bool := v &&& 0x8000 != 0

namespace Flags

/-- Zero and negative flags of a result. -/
def afterResult (s : Flags) (result : UInt16) : Flags :=
  (s.assign .zero (result == 0)).assign .negative (isNegative result)

/-- Carry and overflow flags of `x + y`.  Two negative operands always count as
an overflow. -/
def afterAdd (s : Flags) (x y : UInt16) : Flags :=
  (s.assign .carry (x + y < x)).assign .overflow
    ((isNegative x && isNegative y) ||
      (!isNegative x && !isNegative y && isNegative (x + y)))

/-- Carry and overflow flags of `x - y`; the carry flag tells a borrow. -/
def afterSub (s : Flags) (x y : UInt16) : Flags :=
  (s.assign .carry (x < y)).assign .overflow
    (isNegative x != isNegative y && isNegative (x - y) != isNegative x)

/-- Carry flag of `x * y`: the product needs more than 16 bits. -/
def afterMul (s : Flags) (x y : UInt16) : Flags :=
  s.assign .carry (65535 < x.toNat * y.toNat)

/-- Carry flag of `x / y`: the division leaves a remainder. -/
def afterDiv (s : Flags) (x y : UInt16) : Flags :=
  s.assign .carry (y != 0 && x % y != 0)

end Flags

/-- An operation on two words. -/
inductive BinaryOp where
  | add | sub | and | or | xor | mul | div | mod
  deriving DecidableEq, Repr

/-- An operation on one word. -/
inductive UnaryOp where
  | not | neg
  deriving DecidableEq, Repr

/-- A shift. -/
inductive ShiftOp where
  /-- To the left. -/
  | shl
  /-- To the right, zeros coming in. -/
  | shr
  /-- To the right, copies of the sign coming in. -/
  | sar
  deriving DecidableEq, Repr

namespace BinaryOp

/-- The result modulo `2 ^ 16`; none for a division by zero. -/
def result? (op : BinaryOp) (x y : UInt16) : Option UInt16 :=
  match op with
  | add => some (x + y)
  | sub => some (x - y)
  | and => some (x &&& y)
  | or => some (x ||| y)
  | xor => some (x ^^^ y)
  | mul => some (x * y)
  | div => if y = 0 then none else some (x / y)
  | mod => if y = 0 then none else some (x % y)

/-- The carry and overflow flags of the operation. -/
def carryFlags (op : BinaryOp) (s : Flags) (x y : UInt16) : Flags :=
  match op with
  | add => s.afterAdd x y
  | sub => s.afterSub x y
  | mul => s.afterMul x y
  | div => s.afterDiv x y
  | and | or | xor | mod => s

theorem result?_eq_none_iff (op : BinaryOp) (x y : UInt16) :
    op.result? x y = none ↔ (op = div ∨ op = mod) ∧ y = 0 := by
  cases op <;> simp [result?]

end BinaryOp

namespace UnaryOp

/-- The result modulo `2 ^ 16`. -/
def apply (op : UnaryOp) (x : UInt16) : UInt16 :=
  match op with
  | not => ~~~x
  | neg => -x

end UnaryOp

namespace ShiftOp

/-- `x / 2 ^ n`, rounded down. -/
def logicalRight (x n : UInt16) : UInt16 := if n < 16 then x >>> n else 0

/-- The result of a shift by any amount; from 16 on all bits are shifted out. -/
def apply (op : ShiftOp) (x n : UInt16) : UInt16 :=
  match op with
  | shl => if n < 16 then x <<< n else 0
  | shr => logicalRight x n
  | sar => if isNegative x then ~~~logicalRight (~~~x) n else logicalRight x n

end ShiftOp

end Compiler16.Machine
