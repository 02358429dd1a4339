import Compiler16.Text.Hex

/-!
# Faults

A primitive of the processor that cannot be carried out raises a `Fault`.  Runs
do not keep the faults themselves but the set of their kinds: `FaultSet` is that
set, one bit for each kind.
-/

namespace Compiler16.Machine

/-- What kind of fault arose. -/
inductive FaultKind where
  | unknownRegister
  | memoryError
  | stackOverflow
  | stackUnderflow
  | emptyRom
  | romOverflow
  | divideByZero
  deriving DecidableEq, Repr

/-- A fault with the value that caused it. -/
inductive Fault where
  /-- There is no register of this number. -/
  | unknownRegister (id : UInt8)
  /-- The address may not be accessed in this way. -/
  | memoryError (address : UInt32)
  /-- A push onto a full stack. -/
  | stackOverflow
  /-- A pop from an empty stack. -/
  | stackUnderflow
  /-- There is no byte to load. -/
  | emptyRom
  /-- More bytes to load than memory holds. -/
  | romOverflow (size : Nat)
  /-- A division or remainder by zero. -/
  | divideByZero
  deriving DecidableEq, Repr

namespace FaultKind

/-- All kinds, in the order of their bits. -/
def all : List FaultKind :=
  [unknownRegister, memoryError, stackOverflow, stackUnderflow, emptyRom,
    romOverflow, divideByZero]

/-- The bit that stands for the kind in a `FaultSet`. -/
def bit : FaultKind → UInt8
  | unknownRegister => 0x01
  | memoryError => 0x02
  | stackOverflow => 0x04
  | stackUnderflow => 0x08
  | emptyRom => 0x10
  | romOverflow => 0x20
  | divideByZero => 0x40

/-- The name of the bit. -/
def name : FaultKind → String
  | unknownRegister => "UNKNOWN_REGISTER"
  | memoryError => "MEMORY_ERROR"
  | stackOverflow => "STACK_OVERFLOW"
  | stackUnderflow => "STACK_UNDERFLOW"
  | emptyRom => "EMPTY_ROM"
  | romOverflow => "ROM_OVERFLOW"
  | divideByZero => "DIVIDE_BY_ZERO"

theorem mem_all (k : FaultKind) : k ∈ all := by
  cases k <;> decide

end FaultKind

namespace Fault

/-- The kind of a fault, its cause forgotten. -/
def kind : Fault → FaultKind
  | unknownRegister _ => .unknownRegister
  | memoryError _ => .memoryError
  | stackOverflow => .stackOverflow
  | stackUnderflow => .stackUnderflow
  | emptyRom => .emptyRom
  | romOverflow _ => .romOverflow
  | divideByZero => .divideByZero

/-- The text of a fault. -/
def message : Fault → String
  | unknownRegister id => s!"Unknown register R{id.toNat}"
  | memoryError address => "Invalid memory access at " ++ Text.hex 4 address.toNat
  | stackOverflow => "Stack overflow"
  | stackUnderflow => "Stack underflow"
  | emptyRom => "Empty ROM"
  | romOverflow size => s!"ROM of {size} bytes does not fit in memory"
  | divideByZero => "Division by zero"

end Fault

/-- A set of kinds of faults. -/
structure FaultSet where
  /-- One bit for each kind. -/
  bits : UInt8 := 0
  deriving DecidableEq, Repr

namespace FaultSet

/-- No fault. -/
def empty : FaultSet := {}

/-- Whether no fault was recorded. -/
def isEmpty (s : FaultSet) : Bool := s.bits == 0

/-- Whether a fault of kind `k` was recorded. -/
def contains (s : FaultSet) (k : FaultKind) : Bool := s.bits &&& k.bit != 0

/-- Adds a kind. -/
def insert (s : FaultSet) (k : FaultKind) : FaultSet := ⟨s.bits ||| k.bit⟩

/-- The kinds of either set. -/
def union (s t : FaultSet) : FaultSet := ⟨s.bits ||| t.bits⟩

/-- The set of one kind. -/
def single (k : FaultKind) : FaultSet := ⟨k.bit⟩

/-- Records what came of an attempt: a fault adds its kind, a success nothing. -/
def record (s : FaultSet) : Option Fault → FaultSet
  | none => s
  | some fault => s.insert fault.kind

theorem isEmpty_iff {s : FaultSet} : s.isEmpty = true ↔ s = empty := by
  cases s
  simp [isEmpty, empty]

@[simp] theorem empty_union (s : FaultSet) : empty.union s = s := by
  simp [empty, union]

@[simp] theorem union_empty (s : FaultSet) : s.union empty = s := by
  simp [empty, union]

theorem union_assoc (s t u : FaultSet) :
    (s.union t).union u = s.union (t.union u) := by
  simp [union, UInt8.or_assoc]

@[simp] theorem record_none (s : FaultSet) : s.record none = s := rfl

theorem record_eq_union (s : FaultSet) (f : Fault) :
    s.record (some f) = s.union (single f.kind) := rfl

end FaultSet

end Compiler16.Machine
