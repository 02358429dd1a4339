import Compiler16.Ssa.Removal

/-!
# Reading variables

The value of a variable at the end of a block is the one written there, or else
the one that reaches the block from its predecessors.  Reading finds it and
remembers it:

* in a block that is not sealed it is a PHI that waits for its operands;
* in a sealed block without predecessors it is the value before the function;
* in a sealed block with one predecessor it is the value at the end of that;
* in any other sealed block it is a PHI of the values at the ends of all
  predecessors.  The PHI counts as the value while they are read, so that a loop
  ends at it.

Along a chain of reads every PHI lies in a block of its own, and the blocks
between two PHIs have one predecessor each.  If no such blocks form a ring, a
chain in a graph of `n` blocks has at most `(n + 1) ^ 2` reads; that is the
depth to which `readFrom` recurs.  A ring that no write interrupts has no value,
and the read ends in an error.
-/

namespace Compiler16.Ssa

/-- What the construction is free to choose. -/
structure Options where
  /-- Whether PHIs that merge a single value are removed. -/
  removeTrivialPhis : Bool := true
  deriving DecidableEq, Repr

namespace Builder

/-- A new PHI without operands. -/
def newPhi (block : Nat) : Build Nat := do
  let id ← freshId
  changeBody fun body => do
    return ((), ← body.insertPhi { op := .phi, id, block })
  return id

/-- Makes a PHI wait for its operands. -/
def addPending (block symbol phi : Nat) : Build Unit := modify fun s =>
  let waiting := (s.pending.get? block).getD []
  { s with pending := s.pending.insert block (insertPending symbol phi waiting) }

/-- The blocks that a PHI merges the values of, in the order of its operands. -/
def mergedBlocks (body : Body) (phi : Nat) : List Nat :=
  match body.inst? phi with
  | some i => body.graph.predecessors i.block
  | none => []

/-- Gives a PHI its operands, one for each predecessor of its block as `read` finds
it, and removes it if it is trivial. -/
def completePhi (o : Options) (read : Nat → Build Value) (phi : Nat) : Build Value := do
  (mergedBlocks (← getBody) phi).forM fun block => do
    let v ← read block
    changeBody fun body => .ok ((), (body.addOperand phi v).2)
  if o.removeTrivialPhis then removeTrivialPhi phi else return .result phi

/-- The value of a variable at the end of a block, at most `depth` reads deep. -/
def readFrom (o : Options) (symbol : Nat) : Nat → Nat → Build Value
  | 0, block => fail (.endlessRead symbol block)
  | depth + 1, block => do
    let s ← get
    match s.defs.get? (symbol, block) with
    | some v => return v
    | none =>
      let v ← if s.isSealed block then do
          match (← getBody).graph.predecessors block with
          | [] => pure (s.globalValue symbol)
          | [source] => readFrom o symbol depth source
          | _ => do
            let phi ← newPhi block
            writeVariable symbol block (.result phi)
            completePhi o (readFrom o symbol depth) phi
        else do
          let phi ← newPhi block
          addPending block symbol phi
          pure (.result phi)
      writeVariable symbol block v
      return v

/-- How deep reads in the open function can go. -/
def readDepth (s : Builder) : Nat :=
  match s.body? with
  | some body => (body.graph.size + 1) * (body.graph.size + 1)
  | none => 1

/-- The value of a variable at the end of a block. -/
def readVariable (o : Options) (symbol block : Nat) : Build Value := do
  readFrom o symbol (← get).readDepth block

/-- Seals a block: its waiting PHIs get their operands. -/
def sealBlock (o : Options) (block : Nat) : Build Unit := do
  let s ← get
  unless s.isSealed block do
    set { s with pending := s.pending.erase block }
    ((s.pending.get? block).getD []).forM fun (symbol, phi) => do
      let _ ← completePhi o (readVariable o symbol) phi
    modify fun s => { s with sealedBlocks := s.sealedBlocks ++ [block] }

end Builder

end Compiler16.Ssa
