import Compiler16.Text.Hex
import Compiler16.Machine.Layout
import Compiler16.Machine.Opcode

/-!
# Instruction words

A word is four bytes, in the order in which they lie in memory:

    opcode | second · first | low byte of the immediate | high byte

The two register numbers share the second byte, the low half being the first
operand.  The third operand is the low half of the third byte, so a word cannot
carry both a third operand and an immediate.

The setters only ever add bits, and they look at the opcode: a word whose opcode
ends in a zero digit takes an immediate and no second or third operand, and a
word with an odd opcode takes no third operand.
-/

namespace Compiler16.Machine

/-- An instruction word, byte by byte. -/
structure Word where
  /-- The byte of the opcode. -/
  opcode : UInt8 := 0
  /-- The second operand above the first. -/
  registers : UInt8 := 0
  /-- The low byte of the immediate. -/
  low : UInt8 := 0
  /-- The high byte of the immediate. -/
  high : UInt8 := 0
  deriving DecidableEq, Repr, Inhabited

/-- The register that the low half of a byte names. -/
def nibble (b : UInt8) : Reg := ⟨b.toNat % 16, Nat.mod_lt _ (by decide)⟩

/-- The word whose low byte is `low` and whose high byte is `high`. -/
def joinBytes (low high : UInt8) : UInt16 :=
  low.toUInt16 ||| (high.toUInt16 <<< 8)

/-- The low byte of a 16-bit word. -/
def lowByte (v : UInt16) : UInt8 := v.toUInt8

/-- The high byte of a 16-bit word. -/
def highByte (v : UInt16) : UInt8 := (v >>> 8).toUInt8

theorem toNat_joinBytes (low high : UInt8) :
    (joinBytes low high).toNat = low.toNat + 256 * high.toNat := by
  have hl := low.toNat_lt
  have hh := high.toNat_lt
  have h := Nat.shiftLeft_add_eq_or_of_lt hl high.toNat
  rw [Nat.or_comm, Nat.shiftLeft_eq] at h
  simp only [joinBytes, UInt16.toNat_or, UInt8.toNat_toUInt16, UInt16.toNat_shiftLeft,
    Nat.shiftLeft_eq]
  rw [Nat.mod_eq_of_lt (by simp; omega)]
  exact h.symm.trans (by omega)

theorem toNat_lowByte (v : UInt16) : (lowByte v).toNat = v.toNat % 256 := by
  simp [lowByte]

theorem toNat_highByte (v : UInt16) : (highByte v).toNat = v.toNat / 256 := by
  have hv := v.toNat_lt
  simp [highByte, Nat.shiftRight_eq_div_pow]
  omega

@[simp] theorem joinBytes_lowByte_highByte (v : UInt16) :
    joinBytes (lowByte v) (highByte v) = v := by
  rw [← UInt16.toNat_inj, toNat_joinBytes, toNat_lowByte, toNat_highByte]
  omega

@[simp] theorem lowByte_joinBytes (low high : UInt8) : lowByte (joinBytes low high) = low := by
  have hl := low.toNat_lt
  rw [← UInt8.toNat_inj, toNat_lowByte, toNat_joinBytes]
  omega

@[simp] theorem highByte_joinBytes (low high : UInt8) : highByte (joinBytes low high) = high := by
  have hl := low.toNat_lt
  rw [← UInt8.toNat_inj, toNat_highByte, toNat_joinBytes]
  omega

namespace Word

/-- The word of an opcode with all other bits clear. -/
def ofOpcode (op : Opcode) : Word := { opcode := op.byte }

/-- The word of a 32-bit number, most significant byte first. -/
def ofRaw (raw : UInt32) : Word where
  opcode := (raw >>> 24).toUInt8
  registers := (raw >>> 16).toUInt8
  low := (raw >>> 8).toUInt8
  high := raw.toUInt8

/-- The word as a 32-bit number, most significant byte first. -/
def raw (w : Word) : UInt32 :=
  (w.opcode.toUInt32 <<< 24) ||| (w.registers.toUInt32 <<< 16) |||
    (w.low.toUInt32 <<< 8) ||| w.high.toUInt32

/-- The bytes in memory order. -/
def toBytes (w : Word) : List UInt8 := [w.opcode, w.registers, w.low, w.high]

/-- The opcode, if the first byte is one. -/
def kind (w : Word) : Option Opcode := Opcode.ofByte? w.opcode

/-- The first operand. -/
def first (w : Word) : Reg := nibble w.registers

/-- The second operand. -/
def second (w : Word) : Reg := nibble (w.registers >>> 4)

/-- The third operand. -/
def third (w : Word) : Reg := nibble w.low

/-- The immediate, low byte first. -/
def immediate (w : Word) : UInt16 := joinBytes w.low w.high

/-- The opcode ends in a zero digit, so the setters write an immediate. -/
def usesImmediate (w : Word) : Bool := w.opcode &&& 0x0F == 0

/-- The opcode is odd, so the setters write no third operand. -/
def isInplace (w : Word) : Bool := w.opcode &&& 0x01 != 0

/-- The opcode is at least `0x05`. -/
def isArithmetic (w : Word) : Bool := 0x05 ≤ w.opcode

/-- The opcodes of words that are said to have a second operand. -/
def secondOperandOpcodes : List UInt8 :=
  [0x13, 0x23, 0x24, 0x31, 0x51, 0x52, 0x61, 0x62, 0x64, 0x71, 0x72, 0x74,
    0x81, 0x82, 0x91, 0x92, 0xA1, 0xA2, 0xB1, 0xB2, 0xC3, 0xC4, 0xC5, 0xD1,
    0xD2, 0xE1, 0xE2, 0xF1, 0xF2]

/-- The word is said to have a second operand. -/
def usesSecond (w : Word) : Bool := secondOperandOpcodes.contains w.opcode

/-- The word is said to have a third operand: its opcode ends in the digit 2. -/
def usesThird (w : Word) : Bool := w.isArithmetic && w.opcode &&& 0x0F == 2

/-- Adds the low half of `v` to the first operand. -/
def setFirst (w : Word) (v : UInt8) : Word :=
  { w with registers := w.registers ||| (v &&& 0x0F) }

/-- Adds the low half of `v` to the second operand, in a word without an
immediate. -/
def setSecond (w : Word) (v : UInt8) : Word :=
  if w.usesImmediate then w
  else { w with registers := w.registers ||| ((v &&& 0x0F) <<< 4) }

/-- Adds the low half of `v` to the third operand, in a word that has neither an
immediate nor an odd opcode. -/
def setThird (w : Word) (v : UInt8) : Word :=
  if w.usesImmediate || w.isInplace then w
  else { w with low := w.low ||| (v &&& 0x0F) }

/-- Adds `v` to the immediate, in a word with an immediate. -/
def setImmediate (w : Word) (v : UInt16) : Word :=
  if w.usesImmediate then
    { w with low := w.low ||| lowByte v, high := w.high ||| highByte v }
  else w

/-- The name of the opcode, or question marks, and the word in hexadecimal. -/
def text (w : Word) : String :=
  let name := match w.kind with
    | some op => op.name
    | none => "???"
  name ++ " " ++ Text.hex 8 w.raw.toNat

@[simp] theorem kind_ofOpcode (op : Opcode) : (ofOpcode op).kind = some op :=
  Opcode.ofByte?_byte op

@[simp] theorem opcode_setFirst (w : Word) (v : UInt8) :
    (w.setFirst v).opcode = w.opcode := rfl

@[simp] theorem opcode_setSecond (w : Word) (v : UInt8) :
    (w.setSecond v).opcode = w.opcode := by
  unfold setSecond; split <;> rfl

@[simp] theorem opcode_setThird (w : Word) (v : UInt8) :
    (w.setThird v).opcode = w.opcode := by
  unfold setThird; split <;> rfl

@[simp] theorem opcode_setImmediate (w : Word) (v : UInt16) :
    (w.setImmediate v).opcode = w.opcode := by
  unfold setImmediate; split <;> rfl

end Word

end Compiler16.Machine
