import Compiler16.Proofs.Flow.Search
import Mathlib.Data.List.Perm.Basic

/-!
# The order in which a depth-first search leaves blocks

Stated recursively, a depth-first search visits blocks one after the other: it passes over a block
that it has seen, and of any other it visits the successors before it leaves the block itself.  The
search with a stack of frames does the same, for a frame holds what is left to do of one visit.

The blocks on the stack form a path, each of them leading to those above it.  So when a block is
left, an edge from it can only go to a block that was left before or to one that leads back.

## Main definitions

* `Graph.postorderFrom`, `Graph.postorder`: the recursive depth-first search
* `Graph.Nested`: what holds of the stack and of the order at every moment of a search
* `Graph.AcyclicFrom`, `Graph.TopologicalOrder`: graphs without cycles and their orders

## Main results

* `Graph.search_eq_postorderFrom`: a frame is what is left to do of a visit
* `Graph.reversePostorder_ordered`: the reverse postorder is the reverse of the postorder, and edges
  go forward in it unless they lead back
-/

namespace Compiler16.Flow

namespace Graph

variable {ι : Type} {g : Graph ι}

/-! ## The recursive search -/

/-- The blocks that a depth-first search leaves, in this order, when it visits the given blocks one
after the other and has yet to see the blocks `unseen`.  There is no result if an edge leads out of
the graph. -/
def postorderFrom (g : Graph ι) (unseen : List Nat) : List Nat → Option (List Nat)
  | [] => some []
  | b :: rest =>
    if b ∈ unseen then do
      let below ← g.postorderFrom (unseen.erase b) (g.successors b)
      -- a visit that is over has left all that it has seen
      let beside ← g.postorderFrom ((unseen.erase b).diff below) rest
      return below ++ b :: beside
    else if b < g.size then g.postorderFrom unseen rest
    else none
termination_by bs => (unseen.length, bs.length)
decreasing_by
  · next h =>
    have := List.length_erase_of_mem h
    have := List.length_pos_of_mem h
    apply Prod.Lex.left
    omega
  · next h =>
    have := List.length_erase_of_mem h
    have := List.length_pos_of_mem h
    have := ((unseen.erase b).diff_sublist below).length_le
    apply Prod.Lex.left
    omega
  · apply Prod.Lex.right
    exact Nat.lt_succ_self _

/-- The blocks that can be reached, in the order in which a depth-first search from the entry leaves
them. -/
def postorder (g : Graph ι) : Option (List Nat) :=
  match g.entry? with
  | none => some []
  | some e => g.postorderFrom (List.range g.size) [e.id]

/-- **A frame is what is left to do of a visit.**  The search visits the successors that wait in the
innermost frame, leaves the block of the frame and goes on with the other frames. -/
theorem search_eq_postorderFrom (unseen rest order : List Nat) (b : Nat) (frames : List Frame) :
    g.search unseen order ((b, rest) :: frames) =
      (g.postorderFrom unseen rest).bind fun below =>
        g.search (unseen.diff below) (b :: (below.reverse ++ order)) frames := by
  fun_induction postorderFrom g unseen rest generalizing b order frames with
  | case1 unseen => simp [search]
  | case2 unseen next rest hnext ihbelow ihbeside =>
    rw [search, if_pos hnext, ihbelow]
    simp only [Option.bind_eq_bind, Option.pure_def, Option.bind_assoc, Option.bind_some]
    congr 1
    funext below
    rw [ihbeside]
    congr 1
    funext beside
    -- both searches have seen the same blocks, if not in the same order
    have hseen : ((unseen.erase next).diff below).diff beside =
        unseen.diff (below ++ next :: beside) := by
      rw [← List.diff_append, ← List.diff_cons]
      exact List.perm_middle.symm.diff_left unseen
    rw [hseen]
    simp
  | case3 unseen next rest hnext hlt ih => rw [search, if_neg hnext, if_pos hlt, ih]
  | case4 unseen next rest hnext hlt => rw [search, if_neg hnext, if_neg hlt, Option.bind_none]

/-- The reverse postorder is the reverse of the postorder, also where there is none. -/
theorem reversePostorder_eq_map_reverse (g : Graph ι) :
    g.reversePostorder = g.postorder.map List.reverse := by
  unfold reversePostorder postorder
  cases g.entry? with
  | none => rfl
  | some e =>
    by_cases hlt : e.id < g.size
    · simp only [hlt, if_true]
      rw [search_eq_postorderFrom, postorderFrom, if_pos (List.mem_range.mpr hlt)]
      cases g.postorderFrom ((List.range g.size).erase e.id) (g.successors e.id) with
      | none => rfl
      | some below => simp [search, postorderFrom]
    · have hmem : e.id ∉ List.range g.size := mt List.mem_range.mp hlt
      simp only [hlt, if_false]
      rw [postorderFrom, if_neg hmem, if_neg hlt, Option.map_none]

/-! ## Edges in the order -/

/-- What holds of the stack and of the order at every moment of a search. -/
structure Nested (g : Graph ι) (order : List Nat) (frames : List Frame) : Prop where
  /-- The blocks on the stack form a path, innermost block last. -/
  path : (frames.map Prod.fst).Pairwise fun inner outer => g.Reaches outer inner
  /-- Edges from a block that has been left go to blocks that were left before, or else they lead
  back. -/
  edges : ∀ u ∈ order, ∀ v ∈ g.successors u, g.Reaches v u ∨ [u, v].Sublist order

namespace Nested

variable {root b next : Nat} {unseen order rest : List Nat} {frames : List Frame}

theorem start (g : Graph ι) (f : Frame) : g.Nested [] [f] where
  path := List.pairwise_singleton _ _
  edges _ hu := absurd hu List.not_mem_nil

/-- Leaving a block of which nothing waits. -/
theorem leave (h : g.Nested order ((b, []) :: frames))
    (hs : g.Searching root unseen order ((b, []) :: frames)) : g.Nested (b :: order) frames := by
  obtain ⟨hpath, hrest⟩ := List.pairwise_cons.mp h.path
  refine ⟨hrest, fun u hu v hv => ?_⟩
  rcases List.mem_cons.mp hu with rfl | hu
  · -- a successor has been left before, or it is the block itself or further out on the stack
    have hseen := (hs.inside _ List.mem_cons_self v hv).resolve_left List.not_mem_nil
    rcases List.mem_append.mp hseen with hleft | hinside
    · exact .inr ((List.singleton_sublist.mpr hleft).cons_cons u)
    · rcases List.mem_cons.mp hinside with rfl | houter
      · exact .inl .refl
      · exact .inl (hpath v houter)
  · exact (h.edges u hu v hv).imp_right fun hbefore => hbefore.cons b

/-- Entering an unseen block. -/
theorem enter (h : g.Nested order ((b, next :: rest) :: frames))
    (hs : g.Searching root unseen order ((b, next :: rest) :: frames)) :
    g.Nested order ((next, g.successors next) :: (b, rest) :: frames) := by
  have hedge : next ∈ g.successors b := hs.waiting _ List.mem_cons_self next List.mem_cons_self
  refine ⟨List.pairwise_cons.mpr ⟨fun c hc => ?_, h.path⟩, h.edges⟩
  rcases List.mem_cons.mp hc with rfl | hc
  · exact .single hedge
  · exact ((List.pairwise_cons.mp h.path).1 c hc).tail hedge

/-- Passing over a block that has been seen. -/
theorem skip (h : g.Nested order ((b, next :: rest) :: frames)) :
    g.Nested order ((b, rest) :: frames) :=
  ⟨h.path, h.edges⟩

/-- What holds when a search is over. -/
theorem outcome (h : g.Nested order frames) (hs : g.Searching root unseen order frames)
    {out : List Nat} (hout : g.search unseen order frames = some out) : g.Nested out [] := by
  fun_induction search g unseen order frames with
  | case1 unseen order =>
    cases hout
    exact h
  | case2 unseen order b frames ih => exact ih (h.leave hs) hs.leave hout
  | case3 unseen order b next rest frames hnext ih => exact ih (h.enter hs) (hs.enter hnext) hout
  | case4 unseen order b next rest frames hnext hlt ih => exact ih h.skip (hs.skip hnext hlt) hout
  | case5 unseen order b next rest frames hnext hlt => cases hout

end Nested

/-! ## Topological orders -/

/-- No edge on a way from `root` leads back. -/
def AcyclicFrom (g : Graph ι) (root : Nat) : Prop :=
  ∀ u, g.Reaches root u → ∀ v ∈ g.successors u, ¬ g.Reaches v u

/-- The order has the blocks that can be reached from `root`, each of them once, and all edges
between them go forward. -/
structure TopologicalOrder (g : Graph ι) (root : Nat) (order : List Nat) : Prop where
  nodup : order.Nodup
  mem_iff : ∀ b, b ∈ order ↔ g.Reaches root b
  forward : ∀ u ∈ order, ∀ v ∈ g.successors u, [u, v].Sublist order

/-- Control cannot leave a graph if none of its edges does. -/
theorem closed_of_forall_lt {root : Nat} (hroot : root < g.size)
    (h : ∀ b ∈ g.blocks, ∀ c ∈ b.successors, c < g.size) : g.Closed root := by
  refine ⟨hroot, fun b _ c hc => ?_⟩
  unfold successors block? at hc
  cases hb : g.blocks[b]? with
  | none => simp [hb] at hc
  | some block =>
    rw [hb] at hc
    exact h block (List.mem_of_getElem? hb) c hc

/-- Edges that all go to greater numbers make no cycle. -/
theorem acyclicFrom_of_forall_lt {root : Nat} (h : ∀ u, ∀ v ∈ g.successors u, u < v) :
    g.AcyclicFrom root := by
  intro u _ v hedge hback
  have hle : ∀ w, g.Reaches v w → v ≤ w := by
    intro w hw
    induction hw with
    | refl => exact Nat.le_refl v
    | tail _ hstep ih => exact Nat.le_trans ih (Nat.le_of_lt (h _ _ hstep))
  exact Nat.not_lt.mpr (hle u hback) (h u v hedge)

/-- The search of a graph that control cannot leave comes to an end. -/
theorem Closed.exists_search {root : Nat} (h : g.Closed root) :
    ∃ unseen order,
      g.search ((List.range g.size).erase root) [] [(root, g.successors root)] = some order ∧
      g.Searching root unseen order [] ∧ g.Nested order [] := by
  have hstart := Searching.start h.1
  cases hs : g.search ((List.range g.size).erase root) [] [(root, g.successors root)] with
  | none =>
    obtain ⟨b, hb, c, hc, hout⟩ := hstart.outcome.2 hs
    exact absurd (h.2 b hb c hc) (Nat.not_lt.mpr hout)
  | some order =>
    obtain ⟨unseen, hover⟩ := hstart.outcome.1 order hs
    exact ⟨unseen, order, rfl, hover, (Nested.start g _).outcome hstart hs⟩

/-- **The reverse postorder is a reverse postorder.**  It is the reverse of the order in which the
recursive search leaves the blocks, and there is none if that search has no result.  If no edge on
a way from the entry leads out of the graph, there is one, and in it a block comes before its
successors, except for those that lead back to the block, as the block itself does.  So without
cycles it is a topological order. -/
theorem reversePostorder_ordered (g : Graph ι) :
    g.reversePostorder = g.postorder.map List.reverse ∧
    ∀ e, g.entry? = some e → g.Closed e.id →
      ∃ order, g.reversePostorder = some order ∧ order.Nodup ∧
        (∀ u, g.Reaches e.id u → ∀ v ∈ g.successors u, g.Reaches v u ∨ [u, v].Sublist order) ∧
        (g.AcyclicFrom e.id → g.TopologicalOrder e.id order) := by
  refine ⟨g.reversePostorder_eq_map_reverse, fun e he hclosed => ?_⟩
  obtain ⟨unseen, order, hsearch, hover, hnested⟩ := hclosed.exists_search
  rw [reversePostorder_eq_search he hclosed.1]
  have hnodup : order.Nodup := by simpa using hover.nodup
  have hedges (u : Nat) (hu : g.Reaches e.id u) : ∀ v ∈ g.successors u, _ :=
    hnested.edges u (hover.mem_iff_reaches.mpr hu)
  refine ⟨order, hsearch, hnodup, hedges, fun hacyclic =>
    ⟨hnodup, fun _ => hover.mem_iff_reaches, ?_⟩⟩
  intro u hu v hv
  have hreaches := hover.mem_iff_reaches.mp hu
  exact (hedges u hreaches v hv).resolve_left (hacyclic u hreaches v hv)

/-- Two ways from the entry that meet again. -/
def diamond : Graph Nat :=
  ⟨[{ id := 0, name := "entry", successors := [1, 2] },
    { id := 1, name := "left", successors := [3], predecessors := [0] },
    { id := 2, name := "right", successors := [3], predecessors := [0] },
    { id := 3, name := "join", predecessors := [1, 2] }]⟩

theorem reversePostorder_ordered_diamond :
    diamond.Closed 0 ∧ diamond.AcyclicFrom 0 ∧
      ∃ order, diamond.reversePostorder = some order ∧ diamond.TopologicalOrder 0 order := by
  have hclosed : diamond.Closed 0 := closed_of_forall_lt (by decide) (by decide)
  have hacyclic : diamond.AcyclicFrom 0 := by
    refine acyclicFrom_of_forall_lt fun u v hv => ?_
    match u with
    | 0 | 1 | 2 => simp [diamond, successors, block?] at hv; omega
    | 3 => simp [diamond, successors, block?] at hv
    | u + 4 => simp [diamond, successors, block?] at hv
  obtain ⟨order, horder, _, _, htopological⟩ := (reversePostorder_ordered diamond).2 _ rfl hclosed
  exact ⟨hclosed, hacyclic, order, horder, htopological hacyclic⟩

end Graph

end Compiler16.Flow
