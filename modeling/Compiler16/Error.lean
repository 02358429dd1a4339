import Compiler16.Machine.Program
import Compiler16.Ssa.BuildError

/-!
# Errors

The causes for which a call of the library can fail, and their texts.
-/

namespace Compiler16

/-- Why a call failed. -/
inductive Error where
  /-- The compilation unit has no function of this name. -/
  | functionNotFound (name : String)
  /-- The graph has no block of this number. -/
  | blockNotFound (id : Nat)
  /-- The construction of single-assignment form failed. -/
  | construction (cause : Ssa.BuildError)
  /-- A symbolic instruction already has all the operands it can have. -/
  | operandOverflow
  /-- The bytes are no program. -/
  | invalidProgram (cause : Machine.ProgramError)
  /-- The machine raised a fault. -/
  | fault (cause : Machine.Fault)
  deriving DecidableEq, Repr

/-- The text of an error. -/
def Error.message : Error → String
  | functionNotFound name => s!"Function '{name}' is not part of the module"
  | blockNotFound id => s!"Block {id} does not exist in this control flow graph"
  | construction cause => cause.message
  | operandOverflow => "Virtual instruction cannot hold more than 3 operands"
  | invalidProgram cause => "Invalid program - " ++ cause.message
  | fault cause => "Machine fault - " ++ cause.message

end Compiler16
