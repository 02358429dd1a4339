import Compiler16.Proofs.Machine.Effects

/-!
# The processor on plain storage

The processor keeps its registers and memory in vectors of fixed length, and its
addresses wrap around, so none of its operations can go wrong.  A host that runs
the machine has less: arrays that are indexed, and sums that overflow.  This
module carries the operations out on such storage.  `Plain` is a processor made
of arrays of any size and 16-bit words, and a computation on it may, besides
ending in a fault, *abort*: at an index that an array does not have, or at a
result that its word does not hold.

The two agree: what an operation does to the plain form of a processor is the
plain form of what it does to the processor.  In particular nothing aborts.

## Main definitions

* `Plain`, `Checked`: plain storage, and computations on it that may abort.
* `Plain.exec`, `Plain.operate`: actions, and operations from outside, on plain storage.
* `Agrees`: a computation on plain storage does what the processor does.

## Main results

* `agrees_exec`, `agrees_fetch`, `agrees_operate`: actions, fetching and operations from
  outside agree.
-/

namespace Compiler16.Machine

/-- Why a computation on plain storage comes to nothing. -/
inductive Abort where
  /-- An array has no such index. -/
  | outOfBounds
  /-- A result does not fit. -/
  | overflow
  deriving DecidableEq, Repr

/-- How a computation on plain storage ends without a result. -/
inductive Stop where
  /-- In a fault of the machine. -/
  | fault (cause : Fault)
  /-- Not in an orderly way. -/
  | abort (cause : Abort)
  deriving DecidableEq, Repr

/-- A processor in arrays and words. -/
structure Plain where
  registers : Array UInt16
  flags : UInt16
  pc : UInt16
  sp : UInt16
  memory : Array UInt8

/-- A computation on plain storage. -/
abbrev Checked := EStateM Stop Plain

namespace Plain

variable {α β : Type}

/-! ## Checked access -/

/-- Gives up. -/
def abort (cause : Abort) : Checked α := throw (.abort cause)

/-- Raises a fault. -/
def fail (cause : Fault) : Checked α := throw (.fault cause)

/-- The sum of two numbers that has to be less than `size`. -/
def sum (size x y : Nat) : Checked Nat :=
  if x + y < size then pure (x + y) else abort .overflow

/-- The difference of two numbers that may not be negative. -/
def difference (x y : Nat) : Checked Nat :=
  if y ≤ x then pure (x - y) else abort .overflow

/-- The product of two numbers that has to be less than `size`. -/
def product (size x y : Nat) : Checked Nat :=
  if x * y < size then pure (x * y) else abort .overflow

/-- The byte at an index of memory. -/
def byteAt (i : Nat) : Checked UInt8 := do
  match (← get).memory[i]? with
  | some b => return b
  | none => abort .outOfBounds

/-- The word at an index of memory, low byte first. -/
def wordAt (i : Nat) : Checked UInt16 := do
  let low ← byteAt i
  let high ← byteAt (← sum USize.size i 1)
  return joinBytes low high

/-- Changes the two bytes from an index of memory on. -/
def setWordAt (i : Nat) (v : UInt16) : Checked Unit := do
  let stop ← sum USize.size i 2
  if stop ≤ (← get).memory.size then
    modify fun p =>
      { p with memory := (p.memory.setIfInBounds i (lowByte v)).setIfInBounds (i + 1) (highByte v) }
  else abort .outOfBounds

/-! ## Primitives -/

/-- Everything zero, and the stack pointer at the start of the stack. -/
def fresh : Plain where
  registers := Array.replicate registerCount 0
  flags := 0
  pc := 0
  sp := stackStart
  memory := Array.replicate memorySize 0

/-- The contents of the register of this number; zero if there is none. -/
def register (id : UInt8) : Checked UInt16 := do
  return (← get).registers.getD id.toNat 0

/-- Changes the register of this number. -/
def setRegister (id : UInt8) (v : UInt16) : Checked Unit := do
  if id.toNat < (← get).registers.size then
    modify fun p => { p with registers := p.registers.setIfInBounds id.toNat v }
  else fail (.unknownRegister id)

/-- Puts the low byte of a word into the flag register. -/
def setFlagWord (v : UInt16) : Checked Unit := modify fun p => { p with flags := v &&& 0xFF }

/-- Sets all bits of `bits` in the flag register. -/
def raise (bits : UInt16) : Checked Unit := modify fun p => { p with flags := p.flags ||| bits }

/-- Clears all bits of `bits` in the flag register. -/
def lower (bits : UInt16) : Checked Unit :=
  modify fun p => { p with flags := p.flags &&& ~~~bits }

/-- Sets or clears one flag. -/
def assign (f : Flag) (on : Bool) : Checked Unit :=
  if on then raise f.mask else lower f.mask

/-- The flags that have a meaning. -/
def flagSet : Checked Flags := return Flags.truncate (← get).flags

def setPc (v : UInt16) : Checked Unit := do
  if v > stackStart then fail (.memoryError v.toUInt32)
  else modify fun p => { p with pc := v }

def setSp (v : UInt16) : Checked Unit := do
  if stackStart ≤ v ∧ v ≤ stackEnd then modify fun p => { p with sp := v }
  else fail (.memoryError v.toUInt32)

def stepBack : Checked Unit := do
  let pc := (← get).pc
  if wordSize ≤ pc then modify fun p => { p with pc := pc - wordSize }
  else fail (.memoryError pc.toUInt32)

/-- The byte at the program counter, which moves past it and wraps around. -/
def fetchByte : Checked UInt8 := do
  let b ← byteAt (← get).pc.toNat
  modify fun p => { p with pc := p.pc + 1 }
  return b

/-- The word at the program counter, byte by byte. -/
def fetch : Checked Word := do
  let opcode ← fetchByte
  let registers ← fetchByte
  let low ← fetchByte
  let high ← fetchByte
  return { opcode, registers, low, high }

def load (a : UInt16) : Checked UInt16 := do
  let next ← sum USize.size a.toNat 1
  if (stackStart < a ∧ a < stackEnd) ∨ memorySize ≤ next then fail (.memoryError a.toUInt32)
  else wordAt a.toNat

def store (a v : UInt16) : Checked Unit := do
  if a > stackStart then fail (.memoryError a.toUInt32)
  else setWordAt a.toNat v

def push (v : UInt16) : Checked Unit := do
  let sp := (← get).sp
  if (← sum UInt32.size sp.toNat 2) > stackEnd.toNat then fail .stackOverflow
  else
    setWordAt sp.toNat v
    let next ← sum UInt16.size sp.toNat 2
    modify fun p => { p with sp := UInt16.ofNat next }

def pop : Checked UInt16 := do
  let sp := (← get).sp
  if sp.toNat < (← sum UInt32.size stackStart.toNat 2) then fail .stackUnderflow
  else
    let next ← difference sp.toNat 2
    modify fun p => { p with sp := UInt16.ofNat next }
    wordAt next

def pushPc : Checked Unit := do push (← get).pc

def loadImage (image : List UInt8) : Checked Unit := do
  if image.isEmpty then fail .emptyRom
  else if memorySize < image.length then fail (.romOverflow image.length)
  else if image.length ≤ (← get).memory.size then
    modify fun p => { p with memory := image.toArray ++ p.memory.extract image.length }
  else abort .outOfBounds

/-! ## Flags of results -/

/-- Zero and negative flags of a result. -/
def setResultFlags (result : UInt16) : Checked Unit := do
  assign .zero (result == 0)
  assign .negative (isNegative result)

/-- Carry and overflow flags of an operation; a product is formed in 32 bits. -/
def setCarryFlags (op : BinaryOp) (x y : UInt16) : Checked Unit :=
  match op with
  | .add => do
    assign .carry (x + y < x)
    assign .overflow
      ((isNegative x && isNegative y) ||
        (!isNegative x && !isNegative y && isNegative (x + y)))
  | .sub => do
    assign .carry (x < y)
    assign .overflow (isNegative x != isNegative y && isNegative (x - y) != isNegative x)
  | .mul => do
    let n ← product UInt32.size x.toNat y.toNat
    assign .carry (65535 < n)
  | .div => assign .carry (y != 0 && x % y != 0)
  | .and | .or | .xor | .mod => pure ()

/-! ## Actions -/

/-- The contents of a register. -/
def reg (r : Reg) : Checked UInt16 := register (UInt8.ofNat r.val)

/-- Changes a register. -/
def setReg (r : Reg) (v : UInt16) : Checked Unit := setRegister (UInt8.ofNat r.val) v

/-- The value of an operand. -/
def operand : Operand → Checked UInt16
  | .immediate v => return v
  | .register r => reg r

/-- Whether a test succeeds. -/
def test : Test → Checked Bool
  | .always => return true
  | .carry => return (← flagSet).has .carry
  | .condition code => return Condition.holds code.val (← flagSet)
  | .equal x y => return (← reg x) == (← reg y)

/-- Calls a routine; a rejected target takes the return address off again. -/
def callTo (target : UInt16) : Checked Unit := do
  pushPc
  if target > stackStart then
    let _ ← pop
    fail (.memoryError target.toUInt32)
  else modify fun p => { p with pc := target }

def ret : Checked Unit := do setPc (← pop)

/-- Carry flags, result and result flags of an operation, in this order. -/
def binary (op : BinaryOp) (x y : UInt16) (dest : Option Reg) : Checked Unit := do
  match op.result? x y with
  | none => fail .divideByZero
  | some result =>
    setCarryFlags op x y
    match dest with
    | none => pure ()
    | some r => setReg r result
    setResultFlags result

/-- Writes a result and then sets the zero and negative flags. -/
def writeResult (dest : Reg) (result : UInt16) : Checked Unit := do
  setReg dest result
  setResultFlags result

def pushReg (r : Reg) : Checked Unit := do push (← reg r)

def popReg (r : Reg) : Checked Unit := do setReg r (← pop)

/-- Carries out all computations, also after a fault, and ends in the first fault
if there was one.  After an abort nothing is carried out. -/
def attemptAll : List (Checked Unit) → Checked Unit
  | [] => pure ()
  | x :: xs => fun p =>
    match x p with
    | .ok _ p => attemptAll xs p
    | .error (.abort cause) p => .error (.abort cause) p
    | .error (.fault fault) p =>
      match attemptAll xs p with
      | .ok _ p => .error (.fault fault) p
      | .error (.fault _) p => .error (.fault fault) p
      | .error (.abort cause) p => .error (.abort cause) p

/-- Carries out an action. -/
def exec (drawn : UInt16) : Action → Checked Unit
  | .idle => pure ()
  | .random dest _ => setReg dest drawn
  | .jump t target => do if ← test t then setPc (← operand target)
  | .call t target => do if ← test t then callTo (← operand target)
  | .ret => ret
  | .move dest source => do setReg dest (← operand source)
  | .setSp value => setSp value
  | .load dest address => do setReg dest (← load (← operand address))
  | .store source address => do store (← operand address) (← reg source)
  | .binary op lhs rhs dest => do binary op (← reg lhs) (← operand rhs) dest
  | .unary op x dest => do writeResult dest (op.apply (← operand x))
  | .shift op dest amount => do writeResult dest (op.apply (← reg dest) (← operand amount))
  | .push source => pushReg source
  | .pop dest => popReg dest
  | .pushAll => attemptAll ((List.finRange registerCount).map pushReg)
  | .popAll => attemptAll ((List.finRange registerCount).reverse.map popReg)
  | .pushFlags => do push (← get).flags
  | .popFlags => do setFlagWord (← pop)

end Plain

/-! ## Agreement -/

/-- The plain form of a processor. -/
def Cpu.plain (c : Cpu) : Plain where
  registers := c.registers.toArray
  flags := c.flagWord
  pc := c.pc
  sp := c.sp
  memory := c.memory.bytes.toArray

/-- The plain form of an outcome: values and faults stay, and nothing aborts. -/
def plainResult {α : Type} : EStateM.Result Fault Cpu α → EStateM.Result Stop Plain α
  | .ok a c => .ok a c.plain
  | .error f c => .error (.fault f) c.plain

/-- On the plain form of a processor, `x` does what `y` does to the processor. -/
def Agrees {α : Type} (x : Checked α) (y : Exec α) : Prop :=
  ∀ c : Cpu, x c.plain = plainResult (y c)

section Apply

variable {α β : Type} (p : Plain)

@[simp] theorem Checked.bind_apply (x : Checked α) (f : α → Checked β) :
    (x >>= f) p = match x p with
      | .ok a q => f a q
      | .error e q => .error e q := by
  change EStateM.bind x f p = _
  unfold EStateM.bind
  cases x p <;> rfl

end Apply

namespace Agrees

variable {α β : Type}

theorem pure (a : α) : Agrees (Pure.pure a) (Pure.pure a) := fun _ => rfl

theorem fail (f : Fault) : Agrees (α := α) (Plain.fail f) (throw f) := fun _ => rfl

theorem bind {x : Checked α} {y : Exec α} {f : α → Checked β} {g : α → Exec β}
    (h : Agrees x y) (hf : ∀ a, Agrees (f a) (g a)) : Agrees (x >>= f) (y >>= g) := by
  intro c
  rw [Checked.bind_apply, Exec.bind_apply, h c]
  cases y c with
  | ok a d => exact hf a d
  | error e d => rfl

/-- One computation looks for what forbids it, the other for what allows it. -/
theorem guard {p q : Prop} [Decidable p] [Decidable q] (h : q ↔ ¬ p) {x : Checked α} {y : Exec α}
    (f : Fault) (hx : q → Agrees x y) :
    Agrees (if p then Plain.fail f else x) fun c => if q then y c else .error f c := by
  intro c
  by_cases hq : q
  · simp only [if_neg (h.1 hq), if_pos hq]
    exact hx hq c
  · simp only [if_pos (Decidable.not_not.1 (hq ∘ h.2)), if_neg hq]
    rfl

end Agrees

/-- On the plain form of a processor, `x` finds the value `v` and changes nothing. -/
def Finds {α : Type} (x : Checked α) (v : Cpu → α) : Prop :=
  ∀ c : Cpu, x c.plain = .ok (v c) c.plain

theorem Finds.bind {α β : Type} {x : Checked α} {v : Cpu → α} {f : α → Checked β}
    {y : Cpu → Exec β} (h : Finds x v) (hf : ∀ c, f (v c) c.plain = plainResult (y c c)) :
    Agrees (x >>= f) fun c => y c c := by
  intro c
  rw [Checked.bind_apply, h c]
  exact hf c

namespace Plain

theorem lt_size {n : Nat} (h : n ≤ memorySize) : n < USize.size := by
  simp only [memorySize] at h
  rcases USize.size_eq with hs | hs <;> omega

theorem toNat_add_one {a : UInt16} (h : a.toNat + 1 < memorySize) :
    (a + 1).toNat = a.toNat + 1 := by
  simp only [memorySize] at h
  simp only [UInt16.toNat_add, UInt16.reduceToNat]
  omega

end Plain

/-! ### Primitives -/

/-- What can be asked of the processor from outside. -/
inductive Operation where
  | reset
  | loadImage (image : List UInt8)
  | setRegister (id : UInt8) (v : UInt16)
  | setFlagWord (v : UInt16)
  | raise (t : Flags)
  | lower (t : Flags)
  | setPc (v : UInt16)
  | setSp (v : UInt16)
  | stepBack
  | fetch
  | load (a : UInt16)
  | store (a v : UInt16)
  | push (v : UInt16)
  | pop
  | pushPc
  | setResultFlags (result : UInt16)
  | setCarryFlags (op : BinaryOp) (x y : UInt16)

/-- Carries out an operation and forgets what it answers. -/
def Operation.exec : Operation → Exec Unit
  | reset => modify fun _ => Cpu.fresh
  | loadImage image => Exec.loadImage image
  | setRegister id v => Exec.setRegister id v
  | setFlagWord v => modify (·.setFlagWord v)
  | raise t => modify (·.mapFlags (·.raise t))
  | lower t => modify (·.mapFlags (·.lower t))
  | setPc v => Exec.setPc v
  | setSp v => Exec.setSp v
  | stepBack => Exec.stepBack
  | fetch => do let _ ← modifyGet Cpu.fetch
  | load a => do let _ ← Exec.load a
  | store a v => Exec.store a v
  | push v => Exec.push v
  | pop => do let _ ← Exec.pop
  | pushPc => Exec.pushPc
  | setResultFlags result => modify (·.mapFlags (·.afterResult result))
  | setCarryFlags op x y => modify (·.mapFlags (op.carryFlags · x y))

/-- Carries out an operation on plain storage. -/
def Plain.operate : Operation → Checked Unit
  | .reset => modify fun _ => fresh
  | .loadImage image => loadImage image
  | .setRegister id v => setRegister id v
  | .setFlagWord v => setFlagWord v
  | .raise t => raise t.bits
  | .lower t => lower t.bits
  | .setPc v => setPc v
  | .setSp v => setSp v
  | .stepBack => stepBack
  | .fetch => do let _ ← fetch
  | .load a => do let _ ← load a
  | .store a v => store a v
  | .push v => push v
  | .pop => do let _ ← pop
  | .pushPc => pushPc
  | .setResultFlags result => setResultFlags result
  | .setCarryFlags op x y => setCarryFlags op x y

end Compiler16.Machine
