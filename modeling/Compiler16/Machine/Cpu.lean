import Compiler16.Machine.Fault
import Compiler16.Machine.Flags
import Compiler16.Machine.Memory

/-!
# The processor

Registers, flags, program counter, stack pointer and memory, and the primitives
that instructions are made of.  A primitive that can fail is an `Exec`: it ends
in a value or a fault, and either way in a processor, so that what was done
before the fault stays done.

The stack grows upwards, two bytes a word: `push` writes at the stack pointer
and then moves it, `pop` moves it back and then reads.
-/

namespace Compiler16.Machine

/-- The state of the processor. -/
structure Cpu where
  /-- The general purpose registers. -/
  registers : Vector UInt16 registerCount
  /-- The flag register. -/
  flags : Flags
  /-- The address of the next instruction word. -/
  pc : UInt16
  /-- The address of the first free stack word. -/
  sp : UInt16
  /-- The contents of memory. -/
  memory : Memory

/-- A computation on the processor that may end in a fault. -/
abbrev Exec := EStateM Fault Cpu

namespace Cpu

/-- The processor after power-on. -/
def fresh : Cpu where
  registers := Vector.replicate registerCount 0
  flags := {}
  pc := 0
  sp := stackStart
  memory := Memory.zero

/-- The contents of a register. -/
def reg (c : Cpu) (r : Reg) : UInt16 := c.registers[r.val]

/-- Changes a register. -/
def setReg (c : Cpu) (r : Reg) (v : UInt16) : Cpu :=
  { c with registers := c.registers.set r.val v r.isLt }

/-- The contents of the register of this number; zero if there is none. -/
def register (c : Cpu) (id : UInt8) : UInt16 :=
  if h : id.toNat < registerCount then c.reg ⟨id.toNat, h⟩ else 0

/-- Changes the flag register. -/
def mapFlags (c : Cpu) (f : Flags → Flags) : Cpu := { c with flags := f c.flags }

/-- Puts the low byte of a word into the flag register. -/
def setFlagWord (c : Cpu) (v : UInt16) : Cpu := { c with flags := ⟨v &&& 0xFF⟩ }

/-- The flag register as a word. -/
def flagWord (c : Cpu) : UInt16 := c.flags.bits

/-- The word at the program counter, which moves past it.  Addresses and counter
wrap around at the end of memory. -/
def fetch (c : Cpu) : Word × Cpu :=
  let word : Word :=
    { opcode := c.memory.read c.pc
      registers := c.memory.read (c.pc + 1)
      low := c.memory.read (c.pc + 2)
      high := c.memory.read (c.pc + 3) }
  (word, { c with pc := c.pc + wordSize })

@[simp] theorem reg_setReg (c : Cpu) (r s : Reg) (v : UInt16) :
    (c.setReg r v).reg s = if r = s then v else c.reg s := by
  simp only [reg, setReg, Vector.getElem_set, Fin.ext_iff]

end Cpu

namespace Exec

/-- Changes the register of this number. -/
def setRegister (id : UInt8) (v : UInt16) : Exec Unit := fun c =>
  if h : id.toNat < registerCount then .ok () (c.setReg ⟨id.toNat, h⟩ v)
  else .error (.unknownRegister id) c

/-- Moves the program counter; it may not point past the start of the stack. -/
def setPc (v : UInt16) : Exec Unit := fun c =>
  if v ≤ stackStart then .ok () { c with pc := v }
  else .error (.memoryError v.toUInt32) c

/-- Moves the stack pointer within the stack region, its end included. -/
def setSp (v : UInt16) : Exec Unit := fun c =>
  if stackStart ≤ v ∧ v ≤ stackEnd then .ok () { c with sp := v }
  else .error (.memoryError v.toUInt32) c

/-- Moves the program counter back by one word. -/
def stepBack : Exec Unit := fun c =>
  if wordSize ≤ c.pc then .ok () { c with pc := c.pc - wordSize }
  else .error (.memoryError c.pc.toUInt32) c

/-- Reads a word.  The inside of the stack region and the last address, which has
no next byte, cannot be read. -/
def load (a : UInt16) : Exec UInt16 := fun c =>
  if (stackStart < a ∧ a < stackEnd) ∨ a = 0xFFFF then
    .error (.memoryError a.toUInt32) c
  else .ok (c.memory.readWord a) c

/-- Writes a word at an address up to the start of the stack. -/
def store (a v : UInt16) : Exec Unit := fun c =>
  if a ≤ stackStart then .ok () { c with memory := c.memory.writeWord a v }
  else .error (.memoryError a.toUInt32) c

/-- Puts a word on the stack. -/
def push (v : UInt16) : Exec Unit := fun c =>
  if c.sp.toNat + 2 ≤ stackEnd.toNat then
    .ok () { c with memory := c.memory.writeWord c.sp v, sp := c.sp + 2 }
  else .error .stackOverflow c

/-- Takes a word off the stack. -/
def pop : Exec UInt16 := fun c =>
  if stackStart.toNat + 2 ≤ c.sp.toNat then
    .ok (c.memory.readWord (c.sp - 2)) { c with sp := c.sp - 2 }
  else .error .stackUnderflow c

/-- Puts the program counter on the stack. -/
def pushPc : Exec Unit := fun c => push c.pc c

/-- Copies bytes to the start of memory and leaves the rest as it is. -/
def loadImage (image : List UInt8) : Exec Unit := fun c =>
  if image.isEmpty then .error .emptyRom c
  else if memorySize < image.length then .error (.romOverflow image.length) c
  else .ok () { c with memory := c.memory.writeBytes 0 image }

/-- Carries out all computations, also after a fault, and ends in the first fault
if there was one. -/
def attemptAll : List (Exec Unit) → Exec Unit
  | [] => pure ()
  | x :: xs => fun c =>
    match x c with
    | .ok _ c => attemptAll xs c
    | .error fault c =>
      match attemptAll xs c with
      | .ok _ c => .error fault c
      | .error _ c => .error fault c

end Exec

end Compiler16.Machine
