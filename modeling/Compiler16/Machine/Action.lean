import Compiler16.Machine.Arithmetic
import Compiler16.Machine.Word

/-!
# Actions

What an instruction word asks for, with its operands picked out.  The many
opcodes fall into a few actions: the forms of an opcode differ only in where
the operands come from and where the result goes.
-/

namespace Compiler16.Machine

/-- Where a 16-bit operand comes from. -/
inductive Operand where
  /-- From the word itself. -/
  | immediate (value : UInt16)
  /-- From a register. -/
  | register (r : Reg)
  deriving DecidableEq, Repr

/-- What a jump or call depends on. -/
inductive Test where
  | always
  /-- The carry flag is set. -/
  | carry
  /-- The condition of this code holds. -/
  | condition (code : Reg)
  /-- Two registers are equal. -/
  | equal (x y : Reg)
  deriving DecidableEq, Repr

/-- What an instruction word asks for. -/
inductive Action where
  | idle
  /-- A random number up to `bound`. -/
  | random (dest : Reg) (bound : UInt16)
  | jump (test : Test) (target : Operand)
  | call (test : Test) (target : Operand)
  | ret
  /-- Copy an operand to a register. -/
  | move (dest : Reg) (source : Operand)
  | setSp (value : UInt16)
  | load (dest : Reg) (address : Operand)
  | store (source : Reg) (address : Operand)
  /-- Without a destination only the flags are set. -/
  | binary (op : BinaryOp) (lhs : Reg) (rhs : Operand) (dest : Option Reg)
  | unary (op : UnaryOp) (operand : Operand) (dest : Reg)
  | shift (op : ShiftOp) (dest : Reg) (amount : Operand)
  | push (source : Reg)
  | pop (dest : Reg)
  | pushAll
  | popAll
  | pushFlags
  | popFlags
  deriving DecidableEq, Repr

namespace Action

/-- The form with an immediate operand, result in the first register. -/
def binaryImmediate (op : BinaryOp) (w : Word) : Action :=
  .binary op w.first (.immediate w.immediate) (some w.first)

/-- The form with two registers, result in the first one. -/
def binaryInplace (op : BinaryOp) (w : Word) : Action :=
  .binary op w.first (.register w.second) (some w.first)

/-- The form with three registers, result in the third one. -/
def binaryBasic (op : BinaryOp) (w : Word) : Action :=
  .binary op w.first (.register w.second) (some w.third)

/-- The form of a shift by the number in the third operand's place. -/
def shiftByNibble (op : ShiftOp) (w : Word) : Action :=
  .shift op w.first (.immediate (UInt16.ofNat w.third.val))

/-- The form of a shift by a register. -/
def shiftByRegister (op : ShiftOp) (w : Word) : Action :=
  .shift op w.first (.register w.second)

end Action

/-- What a word of this opcode asks for. -/
def Opcode.action (op : Opcode) (w : Word) : Action :=
  match op with
  | nop => .idle
  | rnd => .random w.first w.immediate
  | jmp => .jump .always (.immediate w.immediate)
  | jmc => .jump .carry (.immediate w.immediate)
  | jx => .jump (.condition w.first) (.immediate w.immediate)
  | jme => .jump (.equal w.first w.second) (.immediate w.immediate)
  | jmpReg => .jump .always (.register w.first)
  | call => .call .always (.immediate w.immediate)
  | cx => .call (.condition w.first) (.immediate w.immediate)
  | callReg => .call .always (.register w.first)
  | ret => .ret
  | ldi => .move w.first (.immediate w.immediate)
  | ldiSp => .setSp w.immediate
  | ldm => .load w.first (.immediate w.immediate)
  | ldmReg => .load w.first (.register w.second)
  | mov => .move w.first (.register w.second)
  | stm => .store w.first (.immediate w.immediate)
  | stmReg => .store w.first (.register w.second)
  | addi => .binaryImmediate .add w
  | addInplace => .binaryInplace .add w
  | add => .binaryBasic .add w
  | subi => .binaryImmediate .sub w
  | subInplace => .binaryInplace .sub w
  | sub => .binaryBasic .sub w
  | cmpi => .binary .sub w.first (.immediate w.immediate) none
  | cmp => .binary .sub w.first (.register w.second) none
  | andi => .binaryImmediate .and w
  | andInplace => .binaryInplace .and w
  | and => .binaryBasic .and w
  | tsti => .binary .and w.first (.immediate w.immediate) none
  | tst => .binary .and w.first (.register w.second) none
  | ori => .binaryImmediate .or w
  | orInplace => .binaryInplace .or w
  | or => .binaryBasic .or w
  | xori => .binaryImmediate .xor w
  | xorInplace => .binaryInplace .xor w
  | xor => .binaryBasic .xor w
  | muli => .binaryImmediate .mul w
  | mulInplace => .binaryInplace .mul w
  | mul => .binaryBasic .mul w
  | divi => .binaryImmediate .div w
  | divInplace => .binaryInplace .div w
  | div => .binaryBasic .div w
  | modi => .binaryImmediate .mod w
  | modInplace => .binaryInplace .mod w
  | mod => .binaryBasic .mod w
  | shl => .shiftByNibble .shl w
  | shr => .shiftByNibble .shr w
  | sar => .shiftByNibble .sar w
  | shlReg => .shiftByRegister .shl w
  | shrReg => .shiftByRegister .shr w
  | sarReg => .shiftByRegister .sar w
  | push => .push w.first
  | pop => .pop w.first
  | pushAll => .pushAll
  | popAll => .popAll
  | pushF => .pushFlags
  | popF => .popFlags
  | noti => .unary .not (.immediate w.immediate) w.first
  | notInplace => .unary .not (.register w.first) w.first
  | not => .unary .not (.register w.second) w.first
  | negi => .unary .neg (.immediate w.immediate) w.first
  | negInplace => .unary .neg (.register w.first) w.first
  | neg => .unary .neg (.register w.second) w.first

/-- What a word asks for; a word without an opcode asks for nothing. -/
def Word.action (w : Word) : Action :=
  match w.kind with
  | some op => op.action w
  | none => .idle

end Compiler16.Machine
