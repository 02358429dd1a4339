import Compiler16.Flow.Order
import Mathlib.Logic.Relation

/-!
# What a depth-first search visits

The search of a graph goes from block to block with a stack of frames: the blocks it is inside of,
each with the successors that it has not looked at.  A block is unseen, on the stack or left, and
it is one of these exactly once.  What has been seen can be reached from where the search began,
and no edge from there leads to an unseen block, except for the successors that wait in the frames.
When the stack is empty nothing waits, so what has been left is what can be reached.

## Main definitions

* `Graph.Reaches`: control can get from one block to another
* `Graph.Closed`: no edge on a way from a block leads out of the graph
* `Graph.Searching`: what holds of a search at every moment

## Main results

* `Graph.Searching.outcome`: how a search ends
* `Graph.reversePostorder_visits`: the reverse postorder has the reachable blocks, each once and the
  entry first
-/

namespace Compiler16.Flow

namespace Graph

variable {ι : Type} {g : Graph ι}

/-- Control can get from one block to another along edges. -/
def Reaches (g : Graph ι) : Nat → Nat → Prop :=
  Relation.ReflTransGen fun a b => b ∈ g.successors a

/-- `root` is the number of a block, and so are all successors of blocks that can be reached from
there. -/
def Closed (g : Graph ι) (root : Nat) : Prop :=
  root < g.size ∧ ∀ b, g.Reaches root b → ∀ c ∈ g.successors b, c < g.size

/-- The blocks that a search has seen: those it has left and those it is inside of. -/
def seen (order : List Nat) (frames : List Frame) : List Nat := order ++ frames.map Prod.fst

@[simp] theorem seen_nil (order : List Nat) : seen order [] = order := List.append_nil order

/-- What holds of a search that began at `root`, at every moment. -/
structure Searching (g : Graph ι) (root : Nat) (unseen order : List Nat) (frames : List Frame) :
    Prop where
  /-- Every block is unseen or seen, and only once. -/
  perm : (unseen ++ seen order frames).Perm (List.range g.size)
  /-- Control can get to what has been seen. -/
  reached : ∀ b ∈ seen order frames, g.Reaches root b
  /-- What waits in a frame are successors of its block. -/
  waiting : ∀ f ∈ frames, ∀ c ∈ f.2, c ∈ g.successors f.1
  /-- The successors of a block that has been left have been seen. -/
  left : ∀ b ∈ order, ∀ c ∈ g.successors b, c ∈ seen order frames
  /-- The successors of a block on the stack wait or have been seen. -/
  inside : ∀ f ∈ frames, ∀ c ∈ g.successors f.1, c ∈ f.2 ∨ c ∈ seen order frames
  /-- The first block is at the bottom of the stack, or else it was the last to be left. -/
  bottom : (frames.map Prod.fst).getLast?.or order.head? = some root

namespace Searching

open scoped List

variable {root b next : Nat} {unseen order rest : List Nat} {frames : List Frame}

theorem start (h : root < g.size) :
    g.Searching root ((List.range g.size).erase root) [] [(root, g.successors root)] where
  perm := by
    have hmem : root ∈ List.range g.size := List.mem_range.mpr h
    exact List.perm_append_comm.trans (List.perm_cons_erase hmem).symm
  reached c hc := by
    rw [List.mem_singleton.mp hc]
    exact .refl
  waiting f hf c hc := by
    rw [List.mem_singleton.mp hf] at hc ⊢
    exact hc
  left _ hb := by cases hb
  inside f hf c hc := by
    rw [List.mem_singleton.mp hf] at hc ⊢
    exact .inl hc
  bottom := rfl

/-- Leaving a block of which nothing waits. -/
theorem leave (h : g.Searching root unseen order ((b, []) :: frames)) :
    g.Searching root unseen (b :: order) frames := by
  -- the block moves from the stack to the order, so what has been seen stays the same
  have hseen : (seen (b :: order) frames).Perm (seen order ((b, []) :: frames)) :=
    List.perm_middle.symm
  refine ⟨(hseen.append_left unseen).trans h.perm, ?_, ?_, ?_, ?_, ?_⟩
  · exact fun c hc => h.reached c (hseen.mem_iff.mp hc)
  · exact fun f hf => h.waiting f (List.mem_cons_of_mem _ hf)
  · intro c hc d hd
    rw [hseen.mem_iff]
    rcases List.mem_cons.mp hc with rfl | hc
    · exact (h.inside _ List.mem_cons_self d hd).resolve_left List.not_mem_nil
    · exact h.left c hc d hd
  · intro f hf d hd
    rw [hseen.mem_iff]
    exact h.inside f (List.mem_cons_of_mem _ hf) d hd
  · -- with the last frame gone, the block that is left is the first one
    have hbottom := h.bottom
    rw [List.map_cons, List.getLast?_cons] at hbottom
    cases hl : (frames.map Prod.fst).getLast? <;> simpa [hl] using hbottom

/-- Entering an unseen block. -/
theorem enter (h : g.Searching root unseen order ((b, next :: rest) :: frames))
    (hnext : next ∈ unseen) :
    g.Searching root (unseen.erase next) order
      ((next, g.successors next) :: (b, rest) :: frames) := by
  have hseen : (seen order ((next, g.successors next) :: (b, rest) :: frames)).Perm
      (next :: seen order ((b, next :: rest) :: frames)) := List.perm_middle
  have hsub {c : Nat} (hc : c ∈ seen order ((b, next :: rest) :: frames)) :
      c ∈ seen order ((next, g.successors next) :: (b, rest) :: frames) :=
    hseen.mem_iff.mpr (List.mem_cons_of_mem _ hc)
  refine ⟨?_, ?_, ?_, fun c hc d hd => hsub (h.left c hc d hd), ?_, ?_⟩
  · calc unseen.erase next ++ seen order ((next, g.successors next) :: (b, rest) :: frames)
      _ ~ unseen.erase next ++ next :: seen order ((b, next :: rest) :: frames) :=
        hseen.append_left _
      _ ~ next :: unseen.erase next ++ seen order ((b, next :: rest) :: frames) :=
        List.perm_middle
      _ ~ unseen ++ seen order ((b, next :: rest) :: frames) :=
        (List.perm_cons_erase hnext).symm.append_right _
      _ ~ List.range g.size := h.perm
  · intro c hc
    rcases List.mem_cons.mp (hseen.mem_iff.mp hc) with rfl | hc
    · refine (h.reached b ?_).tail (h.waiting _ List.mem_cons_self c List.mem_cons_self)
      simp [seen]
    · exact h.reached c hc
  · intro f hf c hc
    rcases List.mem_cons.mp hf with rfl | hf
    · exact hc
    rcases List.mem_cons.mp hf with rfl | hf
    · exact h.waiting _ List.mem_cons_self c (List.mem_cons_of_mem _ hc)
    · exact h.waiting f (List.mem_cons_of_mem _ hf) c hc
  · intro f hf d hd
    rcases List.mem_cons.mp hf with rfl | hf
    · exact .inl hd
    rcases List.mem_cons.mp hf with rfl | hf
    · -- of the successors of `b` only `next` waits no more, and it has been seen now
      rcases h.inside _ List.mem_cons_self d hd with hd | hd
      · rcases List.mem_cons.mp hd with rfl | hd
        · exact .inr (hseen.mem_iff.mpr List.mem_cons_self)
        · exact .inl hd
      · exact .inr (hsub hd)
    · exact (h.inside f (List.mem_cons_of_mem _ hf) d hd).imp_right hsub
  · simpa using h.bottom

/-- Passing over a block that has been seen. -/
theorem skip (h : g.Searching root unseen order ((b, next :: rest) :: frames))
    (hnext : next ∉ unseen) (hlt : next < g.size) :
    g.Searching root unseen order ((b, rest) :: frames) where
  perm := h.perm
  reached := h.reached
  waiting f hf c hc := by
    rcases List.mem_cons.mp hf with rfl | hf
    · exact h.waiting _ List.mem_cons_self c (List.mem_cons_of_mem _ hc)
    · exact h.waiting f (List.mem_cons_of_mem _ hf) c hc
  left := h.left
  inside f hf d hd := by
    rcases List.mem_cons.mp hf with rfl | hf
    · rcases h.inside _ List.mem_cons_self d hd with hd | hd
      · rcases List.mem_cons.mp hd with rfl | hd
        · -- a block of the graph that is not unseen has been seen
          have hmem := h.perm.mem_iff.mpr (List.mem_range.mpr hlt)
          exact .inr ((List.mem_append.mp hmem).resolve_left hnext)
        · exact .inl hd
      · exact .inr hd
    · exact h.inside f (List.mem_cons_of_mem _ hf) d hd
  bottom := h.bottom

/-- **How a search ends.**  Either nothing is left on the stack, or the search has come upon an edge
that leads out of the graph. -/
theorem outcome (h : g.Searching root unseen order frames) :
    (∀ out, g.search unseen order frames = some out → ∃ unseen', g.Searching root unseen' out []) ∧
    (g.search unseen order frames = none →
      ∃ b, g.Reaches root b ∧ ∃ c ∈ g.successors b, g.size ≤ c) := by
  fun_induction search g unseen order frames with
  | case1 unseen order =>
    constructor
    · intro out hout
      cases hout
      exact ⟨unseen, h⟩
    · intro hnone
      cases hnone
  | case2 unseen order b frames ih => exact ih h.leave
  | case3 unseen order b next rest frames hnext ih => exact ih (h.enter hnext)
  | case4 unseen order b next rest frames hnext hlt ih => exact ih (h.skip hnext hlt)
  | case5 unseen order b next rest frames hnext hlt =>
    constructor
    · intro out hout
      cases hout
    · intro _
      have hb : g.Reaches root b := h.reached b (by simp [seen])
      exact ⟨b, hb, next, h.waiting _ List.mem_cons_self next List.mem_cons_self, Nat.not_lt.mp hlt⟩

/-- A search that is over has left what can be reached. -/
theorem mem_iff_reaches (h : g.Searching root unseen order []) {b : Nat} :
    b ∈ order ↔ g.Reaches root b := by
  refine ⟨fun hb => h.reached b (by simpa using hb), fun hb => ?_⟩
  -- along the way from the first block: the order has it, and the successors of what it has
  induction hb with
  | refl => exact List.mem_of_mem_head? h.bottom
  | tail _ hedge ih => simpa using h.left _ ih _ hedge

theorem lt_size (h : g.Searching root unseen order frames) {b : Nat} (hb : b ∈ seen order frames) :
    b < g.size :=
  List.mem_range.mp (h.perm.mem_iff.mp (List.mem_append_right _ hb))

/-- A search that is over has come upon no edge that leads out of the graph. -/
theorem closed (h : g.Searching root unseen order []) : g.Closed root := by
  refine ⟨h.lt_size (by simpa using h.mem_iff_reaches.mpr .refl), fun b hb c hc => ?_⟩
  exact h.lt_size (h.left b (h.mem_iff_reaches.mpr hb) c hc)

theorem nodup (h : g.Searching root unseen order frames) : (seen order frames).Nodup :=
  (List.nodup_append.mp (h.perm.nodup_iff.mpr List.nodup_range)).2.1

end Searching

theorem reversePostorder_eq_search {e : Block ι} (he : g.entry? = some e) (h : e.id < g.size) :
    g.reversePostorder =
      g.search ((List.range g.size).erase e.id) [] [(e.id, g.successors e.id)] := by
  simp only [reversePostorder, he, h, if_true]

/-- **Reverse postorder visits the reachable blocks.**  It is empty for a graph without blocks.
Otherwise, if the entry and all successors of blocks that can be reached from it are in the graph,
it has the blocks that can be reached, each of them once and the entry first.  If one of them is not
in the graph, there is no result. -/
theorem reversePostorder_visits (g : Graph ι) :
    (g.blocks = [] → g.reversePostorder = some []) ∧
    ∀ e, g.entry? = some e →
      (g.Closed e.id → ∃ order, g.reversePostorder = some order ∧ order.Nodup ∧
        (∀ b, b ∈ order ↔ g.Reaches e.id b) ∧ order.head? = some e.id) ∧
      (¬ g.Closed e.id → g.reversePostorder = none) := by
  refine ⟨fun h => ?_, fun e he => ⟨fun hclosed => ?_, fun hopen => ?_⟩⟩
  · simp only [reversePostorder, entry?, h, List.head?_nil]
  · obtain ⟨hsome, hnone⟩ := (Searching.start hclosed.1).outcome
    rw [reversePostorder_eq_search he hclosed.1]
    cases hs : g.search ((List.range g.size).erase e.id) [] [(e.id, g.successors e.id)] with
    | none =>
      obtain ⟨b, hb, c, hc, hout⟩ := hnone hs
      exact absurd (hclosed.2 b hb c hc) (Nat.not_lt.mpr hout)
    | some order =>
      obtain ⟨unseen, hover⟩ := hsome order hs
      exact ⟨order, rfl, by simpa using hover.nodup, fun b => hover.mem_iff_reaches, hover.bottom⟩
  · by_cases hlt : e.id < g.size
    · rw [reversePostorder_eq_search he hlt]
      cases hs : g.search ((List.range g.size).erase e.id) [] [(e.id, g.successors e.id)] with
      | none => rfl
      | some order =>
        obtain ⟨unseen, hover⟩ := (Searching.start hlt).outcome.1 order hs
        exact absurd hover.closed hopen
    · simp only [reversePostorder, he, hlt, if_false]

end Graph

end Compiler16.Flow
