import Compiler16.Flow.Block
import Compiler16.Ssa.Value

/-!
# Instructions in single-assignment form

Every instruction has a number of its own, which is also the number of its
result, and keeps the numbers of the instructions that use the result.
-/

namespace Compiler16.Ssa

open Compiler16.Flow

/-- An operation. -/
inductive Op where
  | phi | br | call | ret | mov
  | add | sub | gt | lt | eq | and | or | xor | mul | div
  | lshift | rshift | mod | not | neg
  deriving DecidableEq, Repr

namespace Op

/-- All operations. -/
def all : List Op :=
  [phi, br, call, ret, mov, add, sub, gt, lt, eq, and, or, xor, mul, div,
    lshift, rshift, mod, not, neg]

/-- The name of an operation in listings. -/
def name : Op → String
  | phi => "PHI"
  | br => "BR"
  | call => "CALL"
  | ret => "RET"
  | mov => "MOV"
  | add => "ADD"
  | sub => "SUB"
  | gt => "GT"
  | lt => "LT"
  | eq => "EQ"
  | and => "AND"
  | or => "OR"
  | xor => "XOR"
  | mul => "MUL"
  | div => "DIV"
  | lshift => "LSHIFT"
  | rshift => "RSHIFT"
  | mod => "MOD"
  | not => "NOT"
  | neg => "NEG"

/-- Whether control leaves the block at the operation. -/
def isTerminator : Op → Bool
  | br | ret => true
  | _ => false

end Op

/-- An instruction. -/
structure Inst where
  /-- What it does. -/
  op : Op
  /-- Its number and that of its result. -/
  id : Nat
  /-- The block it belongs to. -/
  block : Nat
  /-- The values it uses, in order. -/
  operands : List Value := []
  /-- The blocks a branch leads to. -/
  targets : List Nat := []
  /-- The function that is called. -/
  callee : Option String := none
  /-- The instructions that use its result, in the order in which they came. -/
  users : List Nat := []
  deriving DecidableEq, Repr

namespace Inst

/-- The result as a value. -/
def result (i : Inst) : Value := .result i.id

/-- Whether it is a PHI. -/
def isPhi (i : Inst) : Bool := i.op == .phi

/-- Adds an operand at the end. -/
def addOperand (i : Inst) (v : Value) : Inst := { i with operands := i.operands ++ [v] }

/-- Adds a branch target at the end. -/
def addTarget (i : Inst) (block : Nat) : Inst := { i with targets := i.targets ++ [block] }

/-- Notes a user, unless it is known. -/
def addUser (i : Inst) (user : Nat) : Inst :=
  if user ∈ i.users then i else { i with users := i.users ++ [user] }

/-- Puts `new` in the place of every operand that is `old`. -/
def replaceOperand (i : Inst) (old new : Value) : Inst :=
  { i with operands := i.operands.map fun v => if v = old then new else v }

/-- The one value that a PHI merges: the only operand that is not its own result,
or the unknown value if there is none.  A PHI that merges two values has none. -/
def mergedValue? (i : Inst) : Option Value :=
  match i.operands.filter (· ≠ i.result) with
  | [] => some .unknown
  | v :: rest => if rest.all (· = v) then some v else none

/-- The instruction in a listing: callee, operands and targets, and the result
unless it makes control leave the block. -/
def text (i : Inst) : String :=
  let parts := i.callee.toList ++ i.operands.map Value.text ++
    i.targets.map blockText ++ (if i.op.isTerminator then [] else [i.result.text])
  if parts.isEmpty then i.op.name else i.op.name ++ " " ++ ", ".intercalate parts

instance : Instr Inst where
  isTerminator i := i.op.isTerminator
  text := text

@[simp] theorem id_addOperand (i : Inst) (v : Value) : (i.addOperand v).id = i.id := rfl

@[simp] theorem id_addUser (i : Inst) (user : Nat) : (i.addUser user).id = i.id := by
  unfold addUser; split <;> rfl

@[simp] theorem id_replaceOperand (i : Inst) (old new : Value) :
    (i.replaceOperand old new).id = i.id := rfl

theorem mem_users_addUser (i : Inst) (user other : Nat) :
    other ∈ (i.addUser user).users ↔ other ∈ i.users ∨ other = user := by
  unfold addUser
  split
  · next h => exact ⟨Or.inl, fun h' => h'.elim (fun m => m) (· ▸ h)⟩
  · simp

theorem nodup_users_addUser {i : Inst} (h : i.users.Nodup) (user : Nat) :
    (i.addUser user).users.Nodup := by
  unfold addUser
  split
  · exact h
  · next hu =>
    rw [List.nodup_append]
    exact ⟨h, by simp, fun a ha b hb hab => hu (by simp_all)⟩

end Inst

end Compiler16.Ssa
