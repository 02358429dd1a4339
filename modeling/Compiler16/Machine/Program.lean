import Compiler16.Machine.Cpu

/-!
# Programs and ROMs

A program is an image of memory and the address of its first instruction.  A ROM
is the form in which a program is kept: a header of sixteen bytes, which starts
with four letters and holds the entry, and then the image.
-/

namespace Compiler16.Machine

/-- Why bytes are no ROM. -/
inductive ProgramError where
  /-- Nothing comes after the header. -/
  | noCode (size : Nat)
  /-- The image is larger than memory. -/
  | tooLarge (size : Nat)
  deriving DecidableEq, Repr

/-- The text of the reason. -/
def ProgramError.message : ProgramError → String
  | noCode size =>
    s!"ROM of {size} bytes holds no code after its {headerSize}-byte header"
  | tooLarge size => s!"image of {size} bytes exceeds memory"

/-- A program that can be loaded. -/
@[ext] structure Program where
  /-- The first program counter. -/
  entry : UInt16 := 0
  /-- The bytes from address zero on. -/
  image : List UInt8
  /-- The entry comes from one byte of a header, or is zero. -/
  entry_le : entry ≤ 0xFF := by decide
  deriving DecidableEq, Repr

namespace Program

/-- The letters at the start of a header. -/
def magic : List UInt8 := [0x43, 0x48, 0x31, 0x36]

theorem toUInt16_le (b : UInt8) : b.toUInt16 ≤ 0xFF := by
  have hb := b.toNat_lt
  simp only [UInt16.le_iff_toNat_le, UInt8.toNat_toUInt16, UInt16.reduceToNat]
  omega

/-- The program in a ROM. -/
def ofRom (rom : List UInt8) : Except ProgramError Program :=
  if rom.length ≤ headerSize then .error (.noCode rom.length)
  else if memorySize < rom.length - headerSize then
    .error (.tooLarge (rom.length - headerSize))
  else .ok
    { entry := (rom.getD entryOffset 0).toUInt16
      image := rom.drop headerSize
      entry_le := toUInt16_le _ }

/-- The program of a bare image, which starts at address zero. -/
def ofImage (image : List UInt8) : Program := { image }

/-- The program of a list of instruction words. -/
def ofWords (words : List Word) : Program := ofImage (words.flatMap Word.toBytes)

/-- The header of the program's ROM, of which one byte is for the entry. -/
def header (p : Program) : List UInt8 :=
  (magic ++ List.replicate (headerSize - magic.length) 0).set entryOffset (lowByte p.entry)

/-- The ROM of a program. -/
def toRom (p : Program) : List UInt8 := p.header ++ p.image

@[simp] theorem length_header (p : Program) : p.header.length = headerSize := by
  simp [header, magic, headerSize]

@[simp] theorem drop_toRom (p : Program) : p.toRom.drop headerSize = p.image := by
  rw [toRom, List.drop_append_of_le_length (by simp)]
  simp [List.drop_eq_nil_of_le]

end Program

/-- Puts a program into memory and the counter at its entry. -/
def Exec.loadProgram (p : Program) : Exec Unit := do
  loadImage p.image
  setPc p.entry

end Compiler16.Machine
