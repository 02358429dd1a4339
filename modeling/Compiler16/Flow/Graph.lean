import Compiler16.Error
import Compiler16.Flow.Block

/-!
# Control-flow graphs

The blocks of a function by number; block zero is where control enters.  An edge
stands both in the successors of its source and in the predecessors of its
target.  The two lists are changed one after the other, and a call that fails
leaves behind what it has changed by then.
-/

namespace Compiler16.Flow

/-- A control-flow graph. -/
structure Graph (ι : Type) where
  /-- The blocks, each at the place of its number. -/
  blocks : List (Block ι) := []
  deriving DecidableEq, Repr

namespace Graph

variable {ι : Type}

/-- No block. -/
def empty : Graph ι := {}

/-- The number of blocks. -/
def size (g : Graph ι) : Nat := g.blocks.length

/-- The block of this number. -/
def block? (g : Graph ι) (id : Nat) : Option (Block ι) := g.blocks[id]?

/-- The block where control enters. -/
def entry? (g : Graph ι) : Option (Block ι) := g.blocks.head?

/-- The successors of a block, none if there is no such block. -/
def successors (g : Graph ι) (id : Nat) : List Nat :=
  match g.block? id with
  | some b => b.successors
  | none => []

/-- The predecessors of a block, none if there is no such block. -/
def predecessors (g : Graph ι) (id : Nat) : List Nat :=
  match g.block? id with
  | some b => b.predecessors
  | none => []

/-- All instructions, block by block. -/
def insts (g : Graph ι) : List ι := g.blocks.flatMap (·.insts)

/-- Adds a block, which takes the next free number. -/
def insertBlock (g : Graph ι) (b : Block ι) : Nat × Graph ι :=
  (g.size, ⟨g.blocks ++ [{ b with id := g.size }]⟩)

/-- Adds an empty block. -/
def createBlock (g : Graph ι) (name : Option String) : Nat × Graph ι :=
  g.insertBlock (Block.new g.size name)

/-- Changes the block of this number, if there is one. -/
def modifyBlock (g : Graph ι) (id : Nat) (f : Block ι → Block ι) : Graph ι :=
  ⟨g.blocks.modify id f⟩

/-- Changes the block of this number, which has to exist. -/
def changeBlock (id : Nat) (f : Block ι → Block ι) : EStateM Error (Graph ι) Unit := fun g =>
  if id < g.size then .ok () (g.modifyBlock id f) else .error (.blockNotFound id) g

/-- Adds an edge to the successors of the source and then to the predecessors of the
target.  The target is looked up before anything is changed. -/
def addEdge (source target : Nat) : EStateM Error (Graph ι) Unit := do
  if (← get).size ≤ target then throw (.blockNotFound target)
  changeBlock source (·.addSuccessor target)
  changeBlock target (·.addPredecessor source)

/-- The graph in a listing. -/
def text [Instr ι] (g : Graph ι) : String := String.join (g.blocks.map Block.text)

@[simp] theorem size_modifyBlock (g : Graph ι) (id : Nat)
    (f : Block ι → Block ι) : (g.modifyBlock id f).size = g.size := by
  simp [modifyBlock, size]

theorem block?_modifyBlock (g : Graph ι) (id other : Nat)
    (f : Block ι → Block ι) :
    (g.modifyBlock id f).block? other =
      if id = other then (g.block? other).map f else g.block? other := by
  simp only [block?, modifyBlock, List.getElem?_modify]
  split <;> simp

theorem block?_isSome_iff (g : Graph ι) (id : Nat) :
    (g.block? id).isSome ↔ id < g.size := by
  simp [block?, size]

theorem block?_insertBlock (g : Graph ι) (b : Block ι) (id : Nat) :
    (g.insertBlock b).2.block? id =
      if id = g.size then some { b with id := g.size } else g.block? id := by
  simp only [insertBlock, block?, size]
  by_cases h : id = g.blocks.length
  · simp [h]
  · simp only [h, if_false]
    rcases Nat.lt_or_ge id g.blocks.length with hlt | hge
    · simp [List.getElem?_append_left hlt]
    · rw [List.getElem?_append_right hge, List.getElem?_eq_none hge]
      cases hd : id - g.blocks.length with
      | zero => omega
      | succ n => simp

theorem run_changeBlock (id : Nat) (f : Block ι → Block ι) (g : Graph ι) :
    (changeBlock id f).run g =
      if id < g.size then .ok () (g.modifyBlock id f) else .error (.blockNotFound id) g :=
  rfl

/-- The second of the two changes finds its block: that was checked before the first one, which
leaves the number of blocks as it is.  So an edge is added to both lists or to none. -/
theorem addEdge_apply (source target : Nat) (g : Graph ι) :
    addEdge source target g =
      if g.size ≤ target then .error (.blockNotFound target) g
      else if g.size ≤ source then .error (.blockNotFound source) g
      else .ok () ((g.modifyBlock source (·.addSuccessor target)).modifyBlock target
        (·.addPredecessor source)) := by
  change (addEdge source target).run g = _
  by_cases htarget : g.size ≤ target
  · simp [addEdge, htarget]
  · by_cases hsource : g.size ≤ source
    · simp [addEdge, run_changeBlock, htarget, hsource, Nat.not_lt.mpr hsource]
    · simp [addEdge, run_changeBlock, htarget, hsource, Nat.lt_of_not_le htarget,
        Nat.lt_of_not_le hsource]

/-- An edge cannot be added if one of its ends is missing, and the target is missed first.  Then
the graph stays as it is. -/
theorem addEdge_eq_error_iff {g g' : Graph ι} {source target : Nat} {e : Error} :
    addEdge source target g = .error e g' ↔
      (g.size ≤ target ∧ e = .blockNotFound target ∨
        target < g.size ∧ g.size ≤ source ∧ e = .blockNotFound source) ∧ g' = g := by
  rw [addEdge_apply]
  by_cases htarget : g.size ≤ target
  · simp [htarget, Nat.not_lt.mpr htarget, eq_comm]
  · by_cases hsource : g.size ≤ source
    · simp [htarget, hsource, Nat.lt_of_not_le htarget, eq_comm]
    · simp [htarget, hsource]

theorem addEdge_eq_ok_iff {g g' : Graph ι} {source target : Nat} :
    addEdge source target g = .ok () g' ↔ target < g.size ∧ source < g.size ∧
      g' = (g.modifyBlock source (·.addSuccessor target)).modifyBlock target
        (·.addPredecessor source) := by
  rw [addEdge_apply]
  by_cases htarget : g.size ≤ target
  · simp [htarget, Nat.not_lt.mpr htarget]
  · by_cases hsource : g.size ≤ source
    · simp [htarget, hsource, Nat.not_lt.mpr hsource]
    · simp [htarget, hsource, Nat.lt_of_not_le, eq_comm]

end Graph

end Compiler16.Flow
