/-!
# Opcodes

The operation codes of the machine, each with its byte and its assembler name.
A byte that is no opcode is no error: the machine skips such a word.
-/

namespace Compiler16.Machine

/-- An operation of the machine.  A trailing `i` marks the form with an
immediate operand, `Inplace` the form that writes its first operand. -/
inductive Opcode where
  | nop | rnd
  | jmp | jmc | jx | jme | call | ret | jmpReg | cx | callReg
  | ldi | ldiSp | ldm | ldmReg | mov
  | stm | stmReg
  | addi | addInplace | add
  | subi | subInplace | sub | cmpi | cmp
  | andi | andInplace | and | tsti | tst
  | ori | orInplace | or
  | xori | xorInplace | xor
  | muli | mulInplace | mul
  | divi | divInplace | div | modi | modInplace | mod
  | shl | shr | sar | shlReg | shrReg | sarReg
  | push | pop | pushAll | popAll | pushF | popF
  | noti | notInplace | not | negi | negInplace | neg
  deriving DecidableEq, Repr

namespace Opcode

/-- All opcodes, in the order of their bytes. -/
def all : List Opcode :=
  [nop, rnd,
    jmp, jmc, jx, jme, call, ret, jmpReg, cx, callReg,
    ldi, ldiSp, ldm, ldmReg, mov,
    stm, stmReg,
    addi, addInplace, add,
    subi, subInplace, sub, cmpi, cmp,
    andi, andInplace, and, tsti, tst,
    ori, orInplace, or,
    xori, xorInplace, xor,
    muli, mulInplace, mul,
    divi, divInplace, div, modi, modInplace, mod,
    shl, shr, sar, shlReg, shrReg, sarReg,
    push, pop, pushAll, popAll, pushF, popF,
    noti, notInplace, not, negi, negInplace, neg]

/-- The byte of an opcode. -/
def byte : Opcode → UInt8
  | nop => 0x00
  | rnd => 0x07
  | jmp => 0x10
  | jmc => 0x11
  | jx => 0x12
  | jme => 0x13
  | call => 0x14
  | ret => 0x15
  | jmpReg => 0x16
  | cx => 0x17
  | callReg => 0x18
  | ldi => 0x20
  | ldiSp => 0x21
  | ldm => 0x22
  | ldmReg => 0x23
  | mov => 0x24
  | stm => 0x30
  | stmReg => 0x31
  | addi => 0x40
  | addInplace => 0x41
  | add => 0x42
  | subi => 0x50
  | subInplace => 0x51
  | sub => 0x52
  | cmpi => 0x53
  | cmp => 0x54
  | andi => 0x60
  | andInplace => 0x61
  | and => 0x62
  | tsti => 0x63
  | tst => 0x64
  | ori => 0x70
  | orInplace => 0x71
  | or => 0x72
  | xori => 0x80
  | xorInplace => 0x81
  | xor => 0x82
  | muli => 0x90
  | mulInplace => 0x91
  | mul => 0x92
  | divi => 0xA0
  | divInplace => 0xA1
  | div => 0xA2
  | modi => 0xA3
  | modInplace => 0xA4
  | mod => 0xA5
  | shl => 0xB0
  | shr => 0xB1
  | sar => 0xB2
  | shlReg => 0xB3
  | shrReg => 0xB4
  | sarReg => 0xB5
  | push => 0xC0
  | pop => 0xC1
  | pushAll => 0xC2
  | popAll => 0xC3
  | pushF => 0xC4
  | popF => 0xC5
  | noti => 0xE0
  | notInplace => 0xE1
  | not => 0xE2
  | negi => 0xE3
  | negInplace => 0xE4
  | neg => 0xE5

/-- The assembler name of an opcode. -/
def name : Opcode → String
  | nop => "NOP"
  | rnd => "RND"
  | jmp => "JMP"
  | jmc => "JMC"
  | jx => "JX"
  | jme => "JME"
  | call => "CALL"
  | ret => "RET"
  | jmpReg => "JMP_REG"
  | cx => "CX"
  | callReg => "CALL_REG"
  | ldi => "LDI"
  | ldiSp => "LDI_SP"
  | ldm => "LDM"
  | ldmReg => "LDM_REG"
  | mov => "MOV"
  | stm => "STM"
  | stmReg => "STM_REG"
  | addi => "ADDI"
  | addInplace => "ADD_INPLACE"
  | add => "ADD"
  | subi => "SUBI"
  | subInplace => "SUB_INPLACE"
  | sub => "SUB"
  | cmpi => "CMPI"
  | cmp => "CMP"
  | andi => "ANDI"
  | andInplace => "AND_INPLACE"
  | and => "AND"
  | tsti => "TSTI"
  | tst => "TST"
  | ori => "ORI"
  | orInplace => "OR_INPLACE"
  | or => "OR"
  | xori => "XORI"
  | xorInplace => "XOR_INPLACE"
  | xor => "XOR"
  | muli => "MULI"
  | mulInplace => "MUL_INPLACE"
  | mul => "MUL"
  | divi => "DIVI"
  | divInplace => "DIV_INPLACE"
  | div => "DIV"
  | modi => "MODI"
  | modInplace => "MOD_INPLACE"
  | mod => "MOD"
  | shl => "SHL"
  | shr => "SHR"
  | sar => "SAR"
  | shlReg => "SHL_REG"
  | shrReg => "SHR_REG"
  | sarReg => "SAR_REG"
  | push => "PUSH"
  | pop => "POP"
  | pushAll => "PUSH_ALL"
  | popAll => "POP_ALL"
  | pushF => "PUSH_F"
  | popF => "POP_F"
  | noti => "NOTI"
  | notInplace => "NOT_INPLACE"
  | not => "NOT"
  | negi => "NEGI"
  | negInplace => "NEG_INPLACE"
  | neg => "NEG"

/-- The opcode of a byte, if it is one. -/
def ofByte? (b : UInt8) : Option Opcode := all.find? fun op => op.byte == b

@[simp] theorem ofByte?_byte (op : Opcode) : ofByte? op.byte = some op := by
  cases op <;> rfl

theorem byte_of_ofByte? {b : UInt8} {op : Opcode} (h : ofByte? b = some op) :
    op.byte = b := by
  simpa using List.find?_some h

end Opcode

end Compiler16.Machine
