import Compiler16.Source.Operator

/-!
# Errors of the construction

Why a function could not be brought into single-assignment form.
-/

namespace Compiler16.Ssa

/-- What a node of the tree was used as when it turned out to have no symbol. -/
inductive NodeRole where
  | parameter
  | declaration
  | identifier
  | argument
  | call
  deriving DecidableEq, Repr

/-- The word for a role in messages. -/
def NodeRole.name : NodeRole → String
  | parameter => "parameter"
  | declaration => "variable"
  | identifier => "identifier"
  | argument => "argument"
  | call => "call"

/-- Why the construction failed. -/
inductive BuildError where
  /-- A function was begun before the open one was ended. -/
  | alreadyOpen (name opened : String)
  /-- The call needs an open function. -/
  | noFunction
  /-- The call needs a current block. -/
  | noCurrentBlock
  /-- The function ended while a block still waited for its predecessors. -/
  | unsealed (name : String) (block : Nat)
  /-- The node has no symbol. -/
  | unbound (role : NodeRole) (node : Nat)
  /-- The left side of an assignment is not a variable. -/
  | badTarget
  /-- The operator does not stand between two operands. -/
  | notBinary (op : Source.Operator)
  /-- The operator does not stand before one operand. -/
  | notUnary (op : Source.Operator)
  /-- The read went around a closed chain of sealed blocks, each the only
  predecessor of the next, in which the variable is never written. -/
  | endlessRead (symbol block : Nat)
  /-- Removals of PHIs set off each other without an end. -/
  | endlessRemoval (phi : Nat)
  deriving DecidableEq, Repr

/-- The text of an error. -/
def BuildError.message : BuildError → String
  | alreadyOpen name opened =>
    s!"Cannot begin function '{name}' while '{opened}' is open"
  | noFunction => "No function under construction"
  | noCurrentBlock => "No current block outside of a function"
  | unsealed name block => s!"Function '{name}' left block B{block} unsealed"
  | unbound role node => s!"Unbound {role.name} node {node}"
  | badTarget => "Assignment target is not an identifier"
  | notBinary op => s!"{op.name} is not a binary operator"
  | notUnary op => s!"{op.name} is not a unary operator"
  | endlessRead symbol block => s!"Endless read of variable {symbol} in block B{block}"
  | endlessRemoval phi => s!"Endless removal of PHI V{phi}"

end Compiler16.Ssa
