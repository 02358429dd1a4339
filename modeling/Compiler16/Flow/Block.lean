/-!
# Basic blocks

A straight sequence of instructions with the edges that leave and enter it.
Blocks are generic in the type of instruction; what they need to know about it
is the class `Instr`.  A block is known in its graph by a number, which is also
its place there.
-/

namespace Compiler16.Flow

/-- The text of a block's number. -/
def blockText (id : Nat) : String := s!"B{id}"

/-- What is known of every type of instruction. -/
class Instr (ι : Type) where
  /-- Whether control leaves the block at the instruction. -/
  isTerminator : ι → Bool
  /-- The instruction in a listing. -/
  text : ι → String

/-- A basic block. -/
structure Block (ι : Type) where
  /-- Its number. -/
  id : Nat
  /-- Its name in listings. -/
  name : String
  /-- Its instructions in order. -/
  insts : List ι := []
  /-- The targets of the edges that leave it, in the order in which they were
  added. -/
  successors : List Nat := []
  /-- The sources of the edges that enter it, in the order in which they were
  added. -/
  predecessors : List Nat := []
  deriving DecidableEq, Repr

namespace Block

variable {ι : Type}

/-- An empty block; without a name it is called after its number. -/
def new (id : Nat) (name : Option String) : Block ι :=
  { id, name := name.getD s!"Block{id}" }

/-- Adds an instruction at the end. -/
def append (b : Block ι) (i : ι) : Block ι := { b with insts := b.insts ++ [i] }

/-- Adds an instruction before the one at `index`, or at the end if there is
none. -/
def insertAt (b : Block ι) (index : Nat) (i : ι) : Block ι :=
  { b with insts := b.insts.take index ++ i :: b.insts.drop index }

/-- Puts `new` in the place of the first instruction that equals `old`. -/
def replace [DecidableEq ι] (b : Block ι) (old new : ι) : Block ι :=
  { b with insts := b.insts.replace old new }

/-- Changes the first instruction that satisfies `p`. -/
def modifyFirst (b : Block ι) (p : ι → Bool) (f : ι → ι) : Block ι :=
  { b with insts := b.insts.modify (b.insts.findIdx p) f }

/-- Exchanges the first and the last instruction. -/
def swapEnds (b : Block ι) : Block ι :=
  match b.insts with
  | first :: second :: rest =>
    let tail := second :: rest
    { b with insts := tail.getLast (by simp [tail]) :: (tail.dropLast ++ [first]) }
  | _ => b

/-- Adds an edge that leaves the block. -/
def addSuccessor (b : Block ι) (target : Nat) : Block ι :=
  { b with successors := b.successors ++ [target] }

/-- Adds an edge that enters the block. -/
def addPredecessor (b : Block ι) (source : Nat) : Block ι :=
  { b with predecessors := b.predecessors ++ [source] }

/-- The last instruction. -/
def last? (b : Block ι) : Option ι := b.insts.getLast?

/-- Whether the last instruction makes control leave the block. -/
def isTerminated [Instr ι] (b : Block ι) : Bool :=
  b.last?.any Instr.isTerminator

/-- The instructions of a listing, each on a line of its own. -/
def instLines [Instr ι] (insts : List ι) : String :=
  String.join (insts.map fun i => "    " ++ Instr.text i ++ "\n")

/-- The block in a listing. -/
def text [Instr ι] (b : Block ι) : String := b.name ++ ":\n" ++ instLines b.insts

@[simp] theorem insts_append (b : Block ι) (i : ι) :
    (b.append i).insts = b.insts ++ [i] := rfl

@[simp] theorem length_insertAt (b : Block ι) (index : Nat) (i : ι) :
    (b.insertAt index i).insts.length = b.insts.length + 1 := by
  simp only [insertAt, List.length_append, List.length_take, List.length_cons,
    List.length_drop]
  omega

theorem isTerminated_append [Instr ι] (b : Block ι) (i : ι) :
    (b.append i).isTerminated = Instr.isTerminator i := by
  simp [isTerminated, last?]

end Block

end Compiler16.Flow
