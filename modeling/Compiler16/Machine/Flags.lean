/-!
# Flags and conditions

The flag register is a word, of which four bits of the low byte have a meaning.  A condition
code of a conditional jump or call selects a predicate on those four.
-/

namespace Compiler16.Machine

/-- A bit of the flag register that has a meaning. -/
inductive Flag where
  | carry
  | zero
  | overflow
  | negative
  deriving DecidableEq, Repr

namespace Flag

/-- All flags, in the order of their bits. -/
def all : List Flag := [carry, zero, overflow, negative]

/-- The bit of the flag. -/
def mask : Flag → UInt16
  | carry => 0x02
  | zero => 0x04
  | overflow => 0x40
  | negative => 0x80

/-- The name of the flag. -/
def name : Flag → String
  | carry => "CARRY"
  | zero => "ZERO"
  | overflow => "OVERFLOW"
  | negative => "NEGATIVE"

end Flag

/-- The contents of the flag register. -/
structure Flags where
  /-- All sixteen bits, those without a meaning included. -/
  bits : UInt16 := 0
  deriving DecidableEq, Repr

namespace Flags

/-- The bits that have a meaning. -/
def known : UInt16 := 0xC6

/-- The known flags among the bits of a word. -/
def truncate (word : UInt16) : Flags := ⟨word &&& known⟩

/-- Whether the flag is set. -/
def has (s : Flags) (f : Flag) : Bool := s.bits &&& f.mask != 0

/-- Sets all bits of `t`. -/
def raise (s t : Flags) : Flags := ⟨s.bits ||| t.bits⟩

/-- Clears all bits of `t`. -/
def lower (s t : Flags) : Flags := ⟨s.bits &&& ~~~t.bits⟩

/-- Sets or clears one flag. -/
def assign (s : Flags) (f : Flag) (on : Bool) : Flags :=
  if on then s.raise ⟨f.mask⟩ else s.lower ⟨f.mask⟩

/-- The flags that are set, in the order of their bits. -/
def toList (s : Flags) : List Flag := Flag.all.filter s.has

end Flags

/-- A predicate on the flags that a jump or call can depend on. -/
inductive Condition where
  /-- Zero. -/
  | z
  /-- Not zero. -/
  | nz
  /-- Negative. -/
  | n
  /-- Not negative. -/
  | nn
  /-- Positive: neither negative nor zero. -/
  | p
  /-- Overflow. -/
  | o
  /-- No overflow. -/
  | no
  /-- Above, unsigned. -/
  | a
  /-- Above or equal, unsigned. -/
  | ae
  /-- Below, unsigned. -/
  | b
  /-- Below or equal, unsigned. -/
  | be
  /-- Greater, signed. -/
  | g
  /-- Greater or equal, signed. -/
  | ge
  /-- Less, signed. -/
  | l
  /-- Less or equal, signed. -/
  | le
  deriving DecidableEq, Repr

namespace Condition

/-- All conditions, in the order of their codes: the code of a condition is its
place in this list. -/
def all : List Condition := [z, nz, n, nn, p, o, no, a, ae, b, be, g, ge, l, le]

/-- The code of a condition. -/
def code : Condition → Nat
  | z => 0x0
  | nz => 0x1
  | n => 0x2
  | nn => 0x3
  | p => 0x4
  | o => 0x5
  | no => 0x6
  | a => 0x7
  | ae => 0x8
  | b => 0x9
  | be => 0xA
  | g => 0xB
  | ge => 0xC
  | l => 0xD
  | le => 0xE

/-- The name of a condition. -/
def name : Condition → String
  | z => "Z"
  | nz => "NZ"
  | n => "N"
  | nn => "NN"
  | p => "P"
  | o => "O"
  | no => "NO"
  | a => "A"
  | ae => "AE"
  | b => "B"
  | be => "BE"
  | g => "G"
  | ge => "GE"
  | l => "L"
  | le => "LE"

/-- The condition that the low four bits of a code select; `0xF` selects none. -/
def ofCode? (code : Nat) : Option Condition := all[code % 16]?

/-- Whether the flags satisfy the condition. -/
def evaluate (c : Condition) (s : Flags) : Bool :=
  let zero := s.has .zero
  let negative := s.has .negative
  let overflow := s.has .overflow
  let carry := s.has .carry
  match c with
  | z => zero
  | nz => !zero
  | n => negative
  | nn => !negative
  | p => !negative && !zero
  | o => overflow
  | no => !overflow
  | a => !carry && !zero
  | ae => !carry
  | b => carry
  | be => carry || zero
  | g => overflow == negative && !zero
  | ge => overflow == negative
  | l => overflow != negative
  | le => overflow != negative || zero

/-- Whether the condition of this code holds; a code without a condition never
does. -/
def holds (code : Nat) (s : Flags) : Bool :=
  match ofCode? code with
  | some c => c.evaluate s
  | none => false

@[simp] theorem ofCode?_code (c : Condition) : ofCode? c.code = some c := by
  cases c <;> rfl

end Condition

end Compiler16.Machine
