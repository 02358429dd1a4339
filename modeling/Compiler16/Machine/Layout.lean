/-!
# Sizes and the memory map

One flat address space of 64 KiB.  Code and data lie below `stackStart`, the
stack fills `stackStart ..< stackEnd` upwards, and the bytes from `stackEnd` on
are reserved.  `stackStart` is also the highest legal program counter.
-/

namespace Compiler16.Machine

/-- Number of bytes of the address space. -/
abbrev memorySize : Nat := 65536

/-- First byte of the stack region. -/
abbrev stackStart : UInt16 := 0xFDF0

/-- One past the last byte of the stack region. -/
abbrev stackEnd : UInt16 := 0xFFF0

/-- Number of general purpose registers. -/
abbrev registerCount : Nat := 16

/-- Number of bytes of an instruction word. -/
abbrev wordSize : UInt16 := 4

/-- Number of bytes of the header that precedes the image in a ROM. -/
abbrev headerSize : Nat := 16

/-- Where the header holds the first program counter. -/
abbrev entryOffset : Nat := 0x0A

/-- A register number. -/
abbrev Reg : Type := Fin registerCount

end Compiler16.Machine
