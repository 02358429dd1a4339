import Compiler16.Flow.Graph

/-!
# Reverse postorder

The reachable blocks of a graph in the order in which a depth-first search
leaves them, last first.  The search keeps the blocks it is inside of on a
stack, each with the successors it has not looked at yet.
-/

namespace Compiler16.Flow

/-- A block that the search is inside of, with the successors still to look at. -/
abbrev Frame : Type := Nat × List Nat

/-- How many successors and blocks the frames still hold. -/
def Frame.pending : List Frame → Nat
  | [] => 0
  | (_, rest) :: frames => rest.length + 1 + pending frames

namespace Graph

variable {ι : Type}

/-- Goes on with a search that has yet to see the blocks `unseen`, has left the
blocks `order`, last first, and is inside the blocks of the frames, innermost
first.  There is no result if an edge leads out of the graph. -/
def search (g : Graph ι) (unseen order : List Nat) :
    List Frame → Option (List Nat)
  | [] => some order
  | (b, []) :: frames => g.search unseen (b :: order) frames
  | (b, next :: rest) :: frames =>
    if next ∈ unseen then
      g.search (unseen.erase next) order
        ((next, g.successors next) :: (b, rest) :: frames)
    else if next < g.size then g.search unseen order ((b, rest) :: frames)
    else none
termination_by frames => (unseen.length, Frame.pending frames)
decreasing_by
  · simp only [Frame.pending]
    decreasing_tactic
  · next h =>
    have := List.length_erase_of_mem h
    have := List.length_pos_of_mem h
    apply Prod.Lex.left
    omega
  · apply Prod.Lex.right
    simp only [Frame.pending, List.length_cons]
    omega

/-- The reachable blocks, each before those that the search left earlier; none if
the number of the entry or an edge of a reachable block leads out of the graph. -/
def reversePostorder (g : Graph ι) : Option (List Nat) :=
  match g.entry? with
  | none => some []
  | some b =>
    if b.id < g.size then
      g.search ((List.range g.size).erase b.id) [] [(b.id, g.successors b.id)]
    else none

end Graph

end Compiler16.Flow
