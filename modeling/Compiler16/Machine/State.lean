import Compiler16.Machine.Execution
import Compiler16.Machine.Program
import Compiler16.Machine.Random

/-!
# The machine

The processor together with the random number generator and the kinds of all
faults so far.  A step fetches a word and carries it out; a run repeats steps
until a limit is reached or a step faults.

A run without a limit on its length may never end.  Such a run has no result:
`State.runFrom` is the least function that satisfies its equation.
-/

namespace Compiler16.Machine

/-- The state of the machine, whose random numbers come from a `G`. -/
structure State (G : Type := Random) where
  /-- The processor. -/
  cpu : Cpu
  /-- The generator of random numbers. -/
  random : G
  /-- The kinds of all faults so far. -/
  status : FaultSet

/-- When a run ends. -/
structure Limits where
  /-- The largest number of steps; zero stands for no limit. -/
  maxInstructions : Nat := 1000000
  /-- Whether a fault ends the run. -/
  stopOnFault : Bool := true
  deriving DecidableEq, Repr

namespace Limits

/-- No limit on the number of steps. -/
def unlimited : Limits := { maxInstructions := 0 }

/-- Whether no further step is allowed after this many. -/
def isExhausted (l : Limits) (executed : Nat) : Bool :=
  l.maxInstructions != 0 && l.maxInstructions ≤ executed

end Limits

/-- Why a run ended. -/
inductive StopReason where
  | fault
  | instructionLimit
  deriving DecidableEq, Repr

/-- What is known after a run. -/
structure Summary where
  /-- The number of steps, a faulting last one included. -/
  executed : Nat
  /-- The kinds of faults of the run. -/
  status : FaultSet
  /-- Why it ended. -/
  reason : StopReason
  deriving DecidableEq, Repr

namespace State

variable {G : Type}

/-- The machine after power-on with this generator. -/
def start (g : G) : State G where
  cpu := Cpu.fresh
  random := g
  status := .empty

/-- The machine after power-on with the generator of a seed. -/
def fresh (seed : UInt64) : State := start (Random.ofSeed seed)

/-- Back to power-on; only the generator goes on. -/
def reset (m : State G) : State G := { m with cpu := Cpu.fresh, status := .empty }

/-- Carries out a computation on the machine's processor. -/
def onCpu {α : Type} (x : Exec α) : State G → Except Fault α × State G
  | ⟨cpu, random, status⟩ =>
    match x cpu with
    | .ok a cpu => (.ok a, ⟨cpu, random, status⟩)
    | .error fault cpu => (.error fault, ⟨cpu, random, status⟩)

/-- Loads a program. -/
def load (p : Program) (m : State G) : Except Fault Unit × State G :=
  m.onCpu (Exec.loadProgram p)

variable [Generator G]

/-- The number for an action that draws one, and the generator after it. -/
def drawFor (a : Action) (g : G) : UInt16 × G :=
  match a.drawBound? with
  | some bound => Generator.draw g bound
  | none => (0, g)

/-- Carries out a word.  Its fault, if any, is returned and remembered. -/
def execute (word : Word) : State G → FaultSet × State G
  | ⟨cpu, random, status⟩ =>
    let (drawn, random) := drawFor word.action random
    match word.action.exec drawn cpu with
    | .ok _ cpu => (.empty, ⟨cpu, random, status⟩)
    | .error fault cpu =>
      let faults := FaultSet.single fault.kind
      (faults, ⟨cpu, random, status.union faults⟩)

/-- Fetches the next word and carries it out. -/
def step : State G → FaultSet × State G
  | ⟨cpu, random, status⟩ =>
    let (word, cpu) := cpu.fetch
    execute word ⟨cpu, random, status⟩

/-- Goes on with a run that has taken `executed` steps with the faults `status`. -/
def runFrom (l : Limits) (executed : Nat) (status : FaultSet) (m : State G) :
    Option (Summary × State G) :=
  if l.isExhausted executed then
    some ({ executed, status, reason := .instructionLimit }, m)
  else
    let (faults, m) := m.step
    let status := status.union faults
    if l.stopOnFault && !faults.isEmpty then
      some ({ executed := executed + 1, status, reason := .fault }, m)
    else m |>.runFrom l (executed + 1) status
partial_fixpoint

/-- Repeats steps until the limits end the run. -/
def run (l : Limits) (m : State G) : Option (Summary × State G) :=
  runFrom l 0 .empty m

end State

end Compiler16.Machine
