import Compiler16.Machine.Action
import Compiler16.Machine.Cpu

/-!
# Carrying out actions

`Action.exec` is the effect of an action on the processor.  An action that ends
in a fault has changed nothing, apart from calls, returns and the two actions on
all registers: a rejected call leaves its return address above the stack
pointer, a return takes the address off the stack before it is checked, and the
actions on all registers go on after a fault.
-/

namespace Compiler16.Machine

namespace Operand

/-- The value of an operand. -/
def value (c : Cpu) : Operand → UInt16
  | immediate v => v
  | register r => c.reg r

end Operand

namespace Test

/-- Whether the test succeeds. -/
def holds (c : Cpu) : Test → Bool
  | always => true
  | carry => c.flags.has .carry
  | condition code => Condition.holds code.val c.flags
  | equal x y => c.reg x == c.reg y

end Test

namespace Exec

/-- Calls a routine: the return address goes on the stack.  If the routine's
address is not legal, the stack pointer goes back, while the two bytes written
stay. -/
def callTo (target : UInt16) : Exec Unit := do
  pushPc
  if target ≤ stackStart then setPc target
  else do
    let _ ← pop
    throw (.memoryError target.toUInt32)

/-- Returns from a routine: the return address is off the stack before it is
checked. -/
def ret : Exec Unit := do
  let address ← pop
  setPc address

/-- Carries out an operation on two words and sets the flags.  A division by zero
changes nothing. -/
def binary (op : BinaryOp) (x y : UInt16) (dest : Option Reg) : Exec Unit := fun c =>
  match op.result? x y with
  | none => .error .divideByZero c
  | some result =>
    let c := c.mapFlags fun s => (op.carryFlags s x y).afterResult result
    match dest with
    | none => .ok () c
    | some r => .ok () (c.setReg r result)

/-- Writes a result and sets the zero and negative flags. -/
def writeResult (dest : Reg) (result : UInt16) : Exec Unit := fun c =>
  .ok () ((c.mapFlags (·.afterResult result)).setReg dest result)

/-- Pushes a register. -/
def pushReg (r : Reg) : Exec Unit := fun c => push (c.reg r) c

/-- Pops into a register. -/
def popReg (r : Reg) : Exec Unit := do
  let v ← pop
  modify (·.setReg r v)

end Exec

namespace Action

open Exec in
/-- Carries out an action.  `drawn` is the number that the generator offers; only
`random` looks at it. -/
def exec (drawn : UInt16) : Action → Exec Unit
  | idle => pure ()
  | random dest _ => modify (·.setReg dest drawn)
  | jump test target => fun c =>
    if test.holds c then setPc (target.value c) c else .ok () c
  | call test target => fun c =>
    if test.holds c then callTo (target.value c) c else .ok () c
  | ret => Exec.ret
  | move dest source => modify fun c => c.setReg dest (source.value c)
  | setSp value => Exec.setSp value
  | load dest address => do
    let v ← Exec.load (address.value (← get))
    modify (·.setReg dest v)
  | store source address => fun c => Exec.store (address.value c) (c.reg source) c
  | binary op lhs rhs dest => fun c => Exec.binary op (c.reg lhs) (rhs.value c) dest c
  | unary op operand dest => fun c => writeResult dest (op.apply (operand.value c)) c
  | shift op dest amount => fun c =>
    writeResult dest (op.apply (c.reg dest) (amount.value c)) c
  | push source => pushReg source
  | pop dest => popReg dest
  | pushAll => attemptAll ((List.finRange registerCount).map pushReg)
  | popAll => attemptAll ((List.finRange registerCount).reverse.map popReg)
  | pushFlags => fun c => Exec.push c.flagWord c
  | popFlags => do
    let v ← Exec.pop
    modify (·.setFlagWord v)

/-- The bound of the number that the action draws, if it draws one. -/
def drawBound? : Action → Option UInt16
  | random _ bound => some bound
  | _ => none

end Action

end Compiler16.Machine
