import Compiler16.Flow.CompilationUnit
import Compiler16.Flow.Order
import Compiler16.Ssa.Inst

/-!
# Function bodies

A control-flow graph of instructions with the function's arguments, and an index
that says in which block an instruction lies.  The changes of a body keep the
users of instructions up to date, except that a PHI comes in without operands
and its users are noted as its operands are added.
-/

namespace Compiler16.Ssa

open Compiler16.Flow

/-- The body of a function. -/
structure Body where
  /-- The blocks. -/
  graph : Graph Inst := {}
  /-- The arguments in order. -/
  arguments : List Value := []
  /-- The block in which an instruction lies, by its number. -/
  home : OrderedMap Nat Nat := {}

/-- All that a program compiles to. -/
abbrev CompiledUnit : Type := CompilationUnit Inst Body

namespace Body

/-- No block and no argument. -/
def empty : Body := {}

/-- Adds an argument. -/
def addArgument (b : Body) (v : Value) : Body := { b with arguments := b.arguments ++ [v] }

/-- Adds an empty block. -/
def createBlock (b : Body) (name : Option String) : Nat × Body :=
  let (id, graph) := b.graph.createBlock name
  (id, { b with graph })

/-- Adds an edge. -/
def addEdge (source target : Nat) : EStateM Error Body Unit := fun b =>
  match Graph.addEdge source target b.graph with
  | .ok _ graph => .ok () { b with graph }
  | .error e graph => .error e { b with graph }

/-- The instruction of this number. -/
def inst? (b : Body) (id : Nat) : Option Inst := do
  let home ← b.home.get? id
  let block ← b.graph.block? home
  block.insts.find? (·.id == id)

/-- Changes the instruction of this number, if there is one. -/
def modifyInst (b : Body) (id : Nat) (f : Inst → Inst) : Body :=
  match b.home.get? id with
  | some home => { b with graph := b.graph.modifyBlock home (·.modifyFirst (·.id == id) f) }
  | none => b

/-- The instruction whose result the value is, if it lies in this body. -/
def definition? (b : Body) (v : Value) : Option Inst := v.inst?.bind b.inst?

/-- The users of an instruction, none if there is no such instruction. -/
def users (b : Body) (id : Nat) : List Nat :=
  match b.inst? id with
  | some i => i.users
  | none => []

/-- Whether the instruction of this number is a PHI. -/
def isPhi (b : Body) (id : Nat) : Bool := (b.inst? id).any Inst.isPhi

/-- Notes an instruction as a user of a value, if the value is the result of an
instruction of this body. -/
def registerUser (b : Body) (v : Value) (user : Nat) : Body :=
  match v.inst? with
  | some id => b.modifyInst id (·.addUser user)
  | none => b

/-- Adds an instruction at the end of its block and notes it as a user of its
operands. -/
def append (b : Body) (i : Inst) : Except Error Body :=
  if i.block < b.graph.size then
    let b : Body :=
      { b with
        graph := b.graph.modifyBlock i.block (·.append i)
        home := b.home.insert i.id i.block }
    .ok (i.operands.foldl (fun b v => b.registerUser v i.id) b)
  else .error (.blockNotFound i.block)

/-- The number of PHIs at the head of a block. -/
def phiPrefix (block : Block Inst) : Nat := (block.insts.takeWhile Inst.isPhi).length

/-- Adds an instruction to its block after the PHIs at the head. -/
def insertPhi (b : Body) (i : Inst) : Except Error Body :=
  if i.block < b.graph.size then
    .ok { b with
      graph := b.graph.modifyBlock i.block fun block =>
        block.insertAt (phiPrefix block) i
      home := b.home.insert i.id i.block }
  else .error (.blockNotFound i.block)

/-- Adds an operand to an instruction, which becomes a user of it.  Tells whether
there is such an instruction. -/
def addOperand (b : Body) (id : Nat) (v : Value) : Bool × Body :=
  match b.inst? id with
  | some _ => (true, (b.modifyInst id (·.addOperand v)).registerUser v id)
  | none => (false, b)

/-- Puts `new` in the place of the instruction of this number, in the block that
the instruction itself names.  Tells whether it was found there. -/
def replaceInst (b : Body) (id : Nat) (new : Inst) : Bool × Body :=
  match b.inst? id with
  | none => (false, b)
  | some old =>
    match b.graph.block? old.block with
    | none => (false, b)
    | some block =>
      if old ∈ block.insts then
        (true,
          { b with
            graph := b.graph.modifyBlock old.block (·.replace old new)
            home := if new.id = id then b.home
              else (b.home.erase id).insert new.id old.block })
      else (false, b)

/-- All instructions, block by block. -/
def insts (b : Body) : List Inst := b.graph.insts

/-- All PHIs, block by block. -/
def phis (b : Body) : List Inst := b.insts.filter Inst.isPhi

/-- The PHIs of a block, none if there is no such block. -/
def blockPhis (b : Body) (block : Nat) : List Inst :=
  match b.graph.block? block with
  | some block => block.insts.filter Inst.isPhi
  | none => []

/-- Turns a PHI into a copy of the value it merges, and makes its users use that
value instead. -/
def forwardPhi (b : Body) (phi : Inst) (v : Value) : Body :=
  let users := phi.users.filter (· ≠ phi.id)
  let copy : Inst :=
    { op := .mov, id := phi.id, block := phi.block, operands := [v], users }
  let b := ((b.replaceInst phi.id copy).2).registerUser v phi.id
  users.foldl (fun b user =>
    (b.modifyInst user (·.replaceOperand phi.result v)).registerUser v user) b

/-- The body in a listing. -/
def text (b : Body) : String :=
  let head := if b.arguments.isEmpty then ""
    else "Arguments: " ++ ", ".intercalate (b.arguments.map Value.text) ++ "\n"
  head ++ b.graph.text

end Body

end Compiler16.Ssa
