/-!
# Values

What an instruction in single-assignment form can have as an operand: an argument
of the function, a literal, the result of an instruction, or nothing known.
Arguments, literals and instructions take their numbers from one counter, and a
literal is only equal to itself: another one with the same payload has another
number.
-/

namespace Compiler16.Ssa

/-- A value. -/
inductive Value where
  /-- The value of a variable that was never written. -/
  | unknown
  /-- An argument of the function. -/
  | argument (id : Nat)
  /-- A literal. -/
  | literal (id : Nat) (payload : Int)
  /-- The result of the instruction of this number. -/
  | result (inst : Nat)
  deriving DecidableEq, Repr, Inhabited

namespace Value

/-- The number of a value, zero for the unknown one. -/
def id : Value → Nat
  | unknown => 0
  | argument id => id
  | literal id _ => id
  | result inst => inst

/-- The payload of a literal. -/
def payload? : Value → Option Int
  | literal _ payload => some payload
  | _ => none

/-- The number of the instruction whose result the value is. -/
def inst? : Value → Option Nat
  | result inst => some inst
  | _ => none

/-- Whether nothing is known of the value. -/
def isUnknown : Value → Bool
  | unknown => true
  | _ => false

/-- The value in a listing. -/
def text : Value → String
  | unknown => "undef"
  | argument id => s!"V{id}"
  | literal _ payload => toString payload
  | result inst => s!"V{inst}"

@[simp] theorem inst?_eq_some_iff (v : Value) (i : Nat) :
    v.inst? = some i ↔ v = result i := by
  cases v <;> simp [inst?]

end Value

end Compiler16.Ssa
