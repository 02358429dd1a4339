/-!
# Operators

The operators of expressions.  Which of them may stand between two operands and
which before one is decided when an expression is lowered: `minus` may do both.
-/

namespace Compiler16.Source

/-- An operator of the source language. -/
inductive Operator where
  | assignment
  | andBool
  | andInt
  | divide
  | equal
  | greaterThan
  | leftShift
  | lessThan
  | minus
  | modulo
  | mult
  | not
  | orBool
  | orInt
  | plus
  | rightShift
  | xor
  | negate
  deriving DecidableEq, Repr

namespace Operator

/-- All operators. -/
def all : List Operator :=
  [assignment, andBool, andInt, divide, equal, greaterThan, leftShift, lessThan,
    minus, modulo, mult, not, orBool, orInt, plus, rightShift, xor, negate]

/-- The name of an operator in messages. -/
def name : Operator → String
  | assignment => "Assignment"
  | andBool => "AndBool"
  | andInt => "AndInt"
  | divide => "Divide"
  | equal => "Equal"
  | greaterThan => "GreaterThan"
  | leftShift => "LeftShift"
  | lessThan => "LessThan"
  | minus => "Minus"
  | modulo => "Modulo"
  | mult => "Mult"
  | not => "Not"
  | orBool => "OrBool"
  | orInt => "OrInt"
  | plus => "Plus"
  | rightShift => "RightShift"
  | xor => "Xor"
  | negate => "Negate"

end Operator

end Compiler16.Source
