import Compiler16.Error
import Compiler16.Flow.Block

/-!
# Symbolic target instructions

Instructions of the machine before registers, addresses and encodings have been
settled: an operation with at most three operands, which may name stack slots,
blocks and functions.
-/

namespace Compiler16.Symbolic

open Compiler16.Flow

/-- The largest number of operands. -/
def maxOperands : Nat := 3

/-- An operation.  `Imm` marks the forms with an immediate operand. -/
inductive Op where
  | noOp | alloca | jump | call | ret
  | loadImm | loadSp | load | mov | store | push | pop
  | addImm | add | subImm | sub | gt | lt
  | andImm | and | orImm | or | xorImm | xor
  | mulImm | mul | divImm | div | lshift | rshift | modImm | mod
  | notImm | not | negImm | neg
  deriving DecidableEq, Repr

namespace Op

/-- All operations. -/
def all : List Op :=
  [noOp, alloca, jump, call, ret,
    loadImm, loadSp, load, mov, store, push, pop,
    addImm, add, subImm, sub, gt, lt,
    andImm, and, orImm, or, xorImm, xor,
    mulImm, mul, divImm, div, lshift, rshift, modImm, mod,
    notImm, not, negImm, neg]

/-- The assembler name of an operation. -/
def name : Op → String
  | noOp => "NOP"
  | alloca => "ALLOCA"
  | jump => "JMP"
  | call => "CALL"
  | ret => "RET"
  | loadImm => "LDI"
  | loadSp => "LDI_SP"
  | load => "LOAD"
  | mov => "MOV"
  | store => "STM"
  | push => "PUSH"
  | pop => "POP"
  | addImm => "ADDI"
  | add => "ADD"
  | subImm => "SUBI"
  | sub => "SUB"
  | gt => "GT"
  | lt => "LT"
  | andImm => "ANDI"
  | and => "AND"
  | orImm => "ORI"
  | or => "OR"
  | xorImm => "XORI"
  | xor => "XOR"
  | mulImm => "MULI"
  | mul => "MUL"
  | divImm => "DIVI"
  | div => "DIV"
  | lshift => "LSHIFT"
  | rshift => "RSHIFT"
  | modImm => "MODI"
  | mod => "MOD"
  | notImm => "NOTI"
  | not => "NOT"
  | negImm => "NEGI"
  | neg => "NEG"

/-- Whether control leaves the block at the operation. -/
def isTerminator : Op → Bool
  | jump | ret => true
  | _ => false

end Op

/-- An operand. -/
inductive Operand where
  | immediate (value : UInt32)
  | stackSlot (slot : UInt32)
  | register (number : UInt32)
  | target (block : Nat)
  | function (name : String)
  deriving DecidableEq, Repr

/-- The text of an operand. -/
def Operand.text : Operand → String
  | immediate value => s!"{value.toNat}"
  | stackSlot slot => s!"S{slot.toNat}"
  | register number => s!"R{number.toNat}"
  | target block => blockText block
  | function name => name

/-- A symbolic instruction. -/
structure Inst where
  /-- What it does. -/
  op : Op
  /-- What it does it to. -/
  operands : List Operand := []
  deriving DecidableEq, Repr

namespace Inst

/-- Adds an operand, if there is room for one. -/
def addOperand (i : Inst) (o : Operand) : Except Error Inst :=
  if i.operands.length < maxOperands then
    .ok { i with operands := i.operands ++ [o] }
  else .error .operandOverflow

/-- The text of an instruction. -/
def text (i : Inst) : String :=
  i.op.name ++ String.join (i.operands.map fun o => " " ++ o.text)

instance : Instr Inst where
  isTerminator i := i.op.isTerminator
  text := text

theorem length_operands_of_addOperand {i j : Inst} {o : Operand}
    (h : i.addOperand o = .ok j) : j.operands.length ≤ maxOperands := by
  unfold addOperand at h
  split at h
  · cases h
    simp only [List.length_append, List.length_singleton]
    omega
  · cases h

end Inst

end Compiler16.Symbolic
