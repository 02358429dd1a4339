import Compiler16.Ssa.Body

/-!
# The state of the construction

The construction brings one function at a time into single-assignment form: it
creates blocks and edges, emits instructions, and keeps for every variable the
value that reaches the end of each block.  A block is *sealed* once all its
predecessors are known; in a block that is not, a read leaves a PHI that waits
for its operands.

A failing call keeps what it did before the failure: the numbers it drew are
used up.
-/

namespace Compiler16.Ssa

open Compiler16.Flow

/-- A function under construction. -/
structure OpenFunction where
  /-- Its name. -/
  name : String
  /-- What there is of it. -/
  body : Body

/-- The state of the construction. -/
structure Builder where
  /-- The next free number. -/
  nextId : Nat := 0
  /-- What is finished. -/
  compiled : CompiledUnit := {}
  /-- The function under construction. -/
  opened : Option OpenFunction := none
  /-- The block into which instructions go. -/
  current : Option Nat := none
  /-- The value of a variable at the end of a block. -/
  defs : OrderedMap (Nat × Nat) Value := {}
  /-- The value of a variable where no function has begun. -/
  globalDefs : OrderedMap Nat Value := {}
  /-- The PHIs of a block that wait for their operands, in the order of their
  variables. -/
  pending : OrderedMap Nat (List (Nat × Nat)) := {}
  /-- The sealed blocks. -/
  sealedBlocks : List Nat := []
  /-- The PHIs that were removed. -/
  removed : List Nat := []

/-- A step of the construction. -/
abbrev Build := EStateM Error Builder

namespace Builder

/-- Puts a PHI among the waiting ones of its block, in the order of variables. -/
def insertPending (symbol phi : Nat) : List (Nat × Nat) → List (Nat × Nat)
  | [] => [(symbol, phi)]
  | (other, waiting) :: rest =>
    if symbol < other then (symbol, phi) :: (other, waiting) :: rest
    else if symbol = other then (symbol, phi) :: rest
    else (other, waiting) :: insertPending symbol phi rest

/-- Whether the block is sealed. -/
def isSealed (s : Builder) (block : Nat) : Bool := s.sealedBlocks.contains block

/-- The body under construction. -/
def body? (s : Builder) : Option Body := s.opened.map (·.body)

/-- Whether the block exists and control leaves it at its last instruction. -/
def isTerminated (s : Builder) (block : Nat) : Bool :=
  match s.body? with
  | some body => (body.graph.block? block).any Block.isTerminated
  | none => false

/-- Ends in an error of the construction. -/
def fail {α : Type} (cause : BuildError) : Build α := throw (.construction cause)

/-- The body under construction. -/
def getBody : Build Body := do
  match (← get).opened with
  | some f => return f.body
  | none => fail .noFunction

/-- Changes the body under construction; a change that fails changes nothing. -/
def changeBody {α : Type} (f : Body → Except Error (α × Body)) : Build α := fun s =>
  match s.opened with
  | none => .error (.construction .noFunction) s
  | some fn =>
    match f fn.body with
    | .ok (a, body) => .ok a { s with opened := some { fn with body } }
    | .error e => .error e s

/-- Changes the body under construction in place: what a failing change has done by
then stays done. -/
def onBody {α : Type} (x : EStateM Error Body α) : Build α := fun s =>
  match s.opened with
  | none => .error (.construction .noFunction) s
  | some fn =>
    match x fn.body with
    | .ok a body => .ok a { s with opened := some { fn with body } }
    | .error e body => .error e { s with opened := some { fn with body } }

/-- The next free number. -/
def freshId : Build Nat := modifyGet fun s => (s.nextId, { s with nextId := s.nextId + 1 })

/-- A new literal. -/
def freshLiteral (payload : Int) : Build Value := do
  return .literal (← freshId) payload

/-- Begins a function with its entry block, which is sealed and current. -/
def beginFunction (name : String) : Build Nat := do
  match (← get).opened with
  | some f => fail (.alreadyOpen name f.name)
  | none =>
    let (entry, body) := Body.empty.createBlock none
    modify fun s =>
      { s with
        opened := some { name, body }
        current := some entry
        defs := {}
        pending := {}
        sealedBlocks := [entry] }
    return entry

/-- Ends the function.  No function is open afterwards, but only one without
waiting PHIs gets into the compilation unit. -/
def endFunction : Build Unit := do
  let s ← get
  match s.opened with
  | none => fail .noFunction
  | some f =>
    set { s with opened := none, current := none }
    match s.pending.keys.min? with
    | some block => fail (.unsealed f.name block)
    | none => modify fun s => { s with compiled := s.compiled.insertFunction f.name f.body }

/-- Adds a block to the open function. -/
def createBlock : Build Nat := changeBody fun body => .ok (body.createBlock none)

/-- Adds an edge to the open function. -/
def addEdge (source target : Nat) : Build Unit := onBody (Body.addEdge source target)

/-- Makes a block the current one. -/
def setCurrent (block : Nat) : Build Unit := modify ({ · with current := some block })

/-- The current block. -/
def getCurrent : Build Nat := do
  match (← get).current with
  | some block => return block
  | none => fail .noCurrentBlock

/-- Adds an instruction to the open function. -/
def append (i : Inst) : Build Unit := changeBody fun body => do
  return ((), ← body.append i)

/-- Emits an instruction into the current block, or among the global ones if
there is none.  The users of global instructions are not kept. -/
def emitInst (op : Op) (operands : List Value) (callee : Option String) : Build Value := do
  let current := (← get).current
  let id ← freshId
  match current with
  | some block => append { op, id, block, operands, callee }
  | none => modify fun s =>
    { s with compiled := s.compiled.insertGlobal { op, id, block := 0, operands, callee } }
  return .result id

/-- Emits an instruction that is not a call. -/
def emit (op : Op) (operands : List Value) : Build Value := emitInst op operands none

/-- Emits a call. -/
def emitCall (callee : String) (args : List Value) : Build Value :=
  emitInst .call args (some callee)

/-- Emits a branch at the end of a block. -/
def emitBranch (block : Nat) (cond : Option Value) (targets : List Nat) : Build Unit := do
  let id ← freshId
  append { op := .br, id, block, operands := cond.toList, targets }

/-- Makes control go on from the end of one block to another, unless it has left
the block before. -/
def branchTo (source target : Nat) : Build Unit := do
  unless (← get).isTerminated source do
    emitBranch source none [target]
    addEdge source target

/-- Gives a variable a value at the end of a block. -/
def writeVariable (symbol block : Nat) (v : Value) : Build Unit :=
  modify fun s => { s with defs := s.defs.insert (symbol, block) v }

/-- The value of a variable where no function has begun. -/
def globalValue (s : Builder) (symbol : Nat) : Value :=
  (s.globalDefs.get? symbol).getD .unknown

end Builder

end Compiler16.Ssa
