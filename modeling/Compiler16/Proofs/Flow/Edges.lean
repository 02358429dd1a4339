import Compiler16.Flow.Graph

/-!
# The lists of edges

An edge is written down twice, with the block that it leaves and with the block that it enters.  A
graph grows by calls that add blocks and edges and change instructions; calls that fail may come in
between.  The successors of a block are then the targets of the edges that were added to leave it,
and the predecessors the sources of those that were added to enter it, both in the order of the
calls.  All else about the lists follows from that.

## Main definitions

* `Edit`: a change of the instructions of a block
* `Graph.Call`, `Graph.perform`, `Graph.performAll`: calls that change a graph
* `Graph.added`: the edges that calls have added
* `Graph.Grows`: the edges that come between two states of a graph

## Main results

* `Graph.grows_perform`, `Graph.grows_performAll`: what a call and what calls add
* `Graph.edgeLists_consistent`: the two lists of a graph agree
-/

namespace Compiler16.Flow

variable {ι : Type}

/-! ## Calls -/

/-- No edge leaves or enters the block. -/
def Block.Bare (b : Block ι) : Prop := b.successors = [] ∧ b.predecessors = []

/-- A change of the instructions of a block. -/
inductive Edit (ι : Type) where
  | append (i : ι)
  | insertAt (index : Nat) (i : ι)
  | replace (old new : ι)
  | modifyFirst (p : ι → Bool) (f : ι → ι)
  | swapEnds

/-- The block with the change. -/
def Edit.apply [DecidableEq ι] : Edit ι → Block ι → Block ι
  | append i, b => b.append i
  | insertAt index i, b => b.insertAt index i
  | replace old new, b => b.replace old new
  | modifyFirst p f, b => b.modifyFirst p f
  | swapEnds, b => b.swapEnds

/-- All but the instructions stays as it is. -/
theorem Edit.exists_insts_apply [DecidableEq ι] (e : Edit ι) (b : Block ι) :
    ∃ insts, e.apply b = { b with insts } := by
  cases e with
  | append i => exact ⟨_, rfl⟩
  | insertAt index i => exact ⟨_, rfl⟩
  | replace old new => exact ⟨_, rfl⟩
  | modifyFirst p f => exact ⟨_, rfl⟩
  | swapEnds =>
    show ∃ insts, b.swapEnds = { b with insts }
    unfold Block.swapEnds
    split
    · exact ⟨_, rfl⟩
    · exact ⟨b.insts, rfl⟩

namespace Graph

/-- A call that changes a graph. -/
inductive Call (ι : Type) where
  | create (name : Option String)
  | insert (b : Block ι) (bare : b.Bare)
  | addEdge (source target : Nat)
  | edit (id : Nat) (e : Edit ι)

variable [DecidableEq ι]

/-- Carries out a call. -/
def Call.exec : Call ι → EStateM Error (Graph ι) Unit
  | create name => modify fun g => (g.createBlock name).2
  | insert b _ => modify fun g => (g.insertBlock b).2
  | addEdge source target => Graph.addEdge source target
  | edit id e => modify fun g => g.modifyBlock id e.apply

/-- The graph that a call leaves behind, whether it succeeds or fails. -/
def perform (g : Graph ι) (c : Call ι) : Graph ι :=
  match c.exec g with
  | .ok _ g' => g'
  | .error _ g' => g'

/-- The edge that a call adds, if it adds one. -/
def Call.edges (g : Graph ι) : Call ι → List (Nat × Nat)
  | addEdge source target =>
    match Graph.addEdge source target g with
    | .ok _ _ => [(source, target)]
    | .error _ _ => []
  | _ => []

/-- The graph after calls, one after the other. -/
def performAll (g : Graph ι) : List (Call ι) → Graph ι
  | [] => g
  | c :: cs => (g.perform c).performAll cs

/-- The edges that calls have added, in the order of the calls. -/
def added (g : Graph ι) : List (Call ι) → List (Nat × Nat)
  | [] => []
  | c :: cs => c.edges g ++ (g.perform c).added cs

/-! ## Growing graphs -/

/-- The targets of the edges that leave a block. -/
def targets (edges : List (Nat × Nat)) (source : Nat) : List Nat :=
  (edges.filter fun e => e.1 = source).map Prod.snd

/-- The sources of the edges that enter a block. -/
def sources (edges : List (Nat × Nat)) (target : Nat) : List Nat :=
  (edges.filter fun e => e.2 = target).map Prod.fst

/-- Every block is at the place of its number. -/
def Placed (g : Graph ι) : Prop := ∀ k b, g.block? k = some b → b.id = k

/-- From `g` to `g'` these edges have been added, and perhaps blocks without edges. -/
structure Grows (g : Graph ι) (edges : List (Nat × Nat)) (g' : Graph ι) : Prop where
  /-- No block is lost. -/
  size : g.size ≤ g'.size
  /-- Blocks stay at their places. -/
  placed : g.Placed → g'.Placed
  /-- The blocks at the ends of the edges are there. -/
  inside : ∀ e ∈ edges, e.1 < g'.size ∧ e.2 < g'.size
  /-- The targets come last among the successors of the sources. -/
  successors : ∀ k, g'.successors k = g.successors k ++ targets edges k
  /-- The sources come last among the predecessors of the targets. -/
  predecessors : ∀ k, g'.predecessors k = g.predecessors k ++ sources edges k

section Lists

omit [DecidableEq ι]

variable {g g' : Graph ι} {source target : Nat}

theorem successors_eq_getD (g : Graph ι) (k : Nat) :
    g.successors k = ((g.block? k).map Block.successors).getD [] := by
  unfold successors
  cases g.block? k <;> rfl

theorem predecessors_eq_getD (g : Graph ι) (k : Nat) :
    g.predecessors k = ((g.block? k).map Block.predecessors).getD [] := by
  unfold predecessors
  cases g.block? k <;> rfl

theorem Placed.modifyBlock {f : Block ι → Block ι} (h : g.Placed) (id : Nat)
    (hf : ∀ b, (f b).id = b.id) : (g.modifyBlock id f).Placed := by
  intro k c hc
  rw [block?_modifyBlock] at hc
  split at hc
  · obtain ⟨b, hb, rfl⟩ := Option.map_eq_some_iff.mp hc
    exact (hf b).trans (h k b hb)
  · exact h k c hc

theorem block?_size (g : Graph ι) : g.block? g.size = none := List.getElem?_eq_none (Nat.le_refl _)

theorem targets_append (edges edges' : List (Nat × Nat)) (k : Nat) :
    targets (edges ++ edges') k = targets edges k ++ targets edges' k := by
  simp [targets]

theorem sources_append (edges edges' : List (Nat × Nat)) (k : Nat) :
    sources (edges ++ edges') k = sources edges k ++ sources edges' k := by
  simp [sources]

theorem count_targets (edges : List (Nat × Nat)) (a b : Nat) :
    (targets edges a).count b = edges.count (a, b) := by
  rw [targets, List.count_eq_countP, List.countP_map, List.countP_filter, List.count_eq_countP]
  refine List.countP_congr fun e _ => ?_
  simp [Prod.ext_iff, and_comm]

theorem count_sources (edges : List (Nat × Nat)) (a b : Nat) :
    (sources edges b).count a = edges.count (a, b) := by
  rw [sources, List.count_eq_countP, List.countP_map, List.countP_filter, List.count_eq_countP]
  refine List.countP_congr fun e _ => ?_
  simp [Prod.ext_iff]

end Lists

namespace Grows

omit [DecidableEq ι]

variable {g g' g'' : Graph ι} {edges edges' : List (Nat × Nat)} {source target : Nat}

theorem refl (g : Graph ι) : g.Grows [] g where
  size := Nat.le_refl _
  placed h := h
  inside _ he := absurd he List.not_mem_nil
  successors _ := (List.append_nil _).symm
  predecessors _ := (List.append_nil _).symm

theorem trans (h : g.Grows edges g') (h' : g'.Grows edges' g'') :
    g.Grows (edges ++ edges') g'' where
  size := Nat.le_trans h.size h'.size
  placed hg := h'.placed (h.placed hg)
  inside e he := by
    rcases List.mem_append.mp he with he | he
    · exact (h.inside e he).imp (Nat.lt_of_lt_of_le · h'.size) (Nat.lt_of_lt_of_le · h'.size)
    · exact h'.inside e he
  successors k := by rw [h'.successors, h.successors, targets_append, List.append_assoc]
  predecessors k := by rw [h'.predecessors, h.predecessors, sources_append, List.append_assoc]

/-- Adding a block without edges. -/
theorem insertBlock {b : Block ι} (hb : b.Bare) : g.Grows [] (g.insertBlock b).2 where
  size := by simp [Graph.insertBlock, Graph.size]
  placed hg k c hc := by
    rw [block?_insertBlock] at hc
    split at hc
    · next hk =>
      cases hc
      exact hk.symm
    · exact hg k c hc
  inside _ he := absurd he List.not_mem_nil
  successors k := by
    rw [successors_eq_getD, successors_eq_getD, block?_insertBlock]
    split
    · next hk => simp [hk, block?_size, hb.1, targets]
    · simp [targets]
  predecessors k := by
    rw [predecessors_eq_getD, predecessors_eq_getD, block?_insertBlock]
    split
    · next hk => simp [hk, block?_size, hb.2, sources]
    · simp [sources]

/-- Changing the instructions of a block. -/
theorem modifyBlock {f : Block ι → Block ι} (id : Nat)
    (hf : ∀ b, ∃ insts, f b = { b with insts }) : g.Grows [] (g.modifyBlock id f) where
  size := by simp
  placed hg := hg.modifyBlock id fun b => by
    obtain ⟨insts, hinsts⟩ := hf b
    rw [hinsts]
  inside _ he := absurd he List.not_mem_nil
  successors k := by
    have hsame : ∀ b, (f b).successors = b.successors := fun b => by
      obtain ⟨insts, hinsts⟩ := hf b
      rw [hinsts]
    rw [successors_eq_getD, successors_eq_getD, block?_modifyBlock]
    split <;> simp [Function.comp_def, hsame, targets]
  predecessors k := by
    have hsame : ∀ b, (f b).predecessors = b.predecessors := fun b => by
      obtain ⟨insts, hinsts⟩ := hf b
      rw [hinsts]
    rw [predecessors_eq_getD, predecessors_eq_getD, block?_modifyBlock]
    split <;> simp [Function.comp_def, hsame, sources]

/-- Adding an edge. -/
theorem addEdge (h : Graph.addEdge source target g = .ok () g') :
    g.Grows [(source, target)] g' := by
  obtain ⟨htarget, hsource, rfl⟩ := addEdge_eq_ok_iff.mp h
  obtain ⟨S, hS⟩ := Option.isSome_iff_exists.mp ((g.block?_isSome_iff _).mpr hsource)
  obtain ⟨T, hT⟩ := Option.isSome_iff_exists.mp ((g.block?_isSome_iff _).mpr htarget)
  refine ⟨by simp, fun hg => ?_, ?_, fun k => ?_, fun k => ?_⟩
  · have hleaving : (g.modifyBlock source (·.addSuccessor target)).Placed :=
      hg.modifyBlock source fun _ => rfl
    exact hleaving.modifyBlock target fun _ => rfl
  · simp [hsource, htarget]
  · -- the block that the edge enters may be the one that it leaves
    rw [successors_eq_getD, successors_eq_getD, block?_modifyBlock, block?_modifyBlock]
    by_cases hk : source = k
    · subst hk
      by_cases hloop : target = source <;>
        simp [hS, hloop, targets, Block.addSuccessor, Block.addPredecessor]
    · by_cases hk' : target = k <;>
        simp [hk, hk', targets, Function.comp_def, Block.addPredecessor]
  · rw [predecessors_eq_getD, predecessors_eq_getD, block?_modifyBlock, block?_modifyBlock]
    by_cases hk : target = k
    · subst hk
      by_cases hloop : source = target <;>
        simp [hT, hloop, sources, Block.addSuccessor, Block.addPredecessor]
    · by_cases hk' : source = k <;>
        simp [hk, hk', sources, Function.comp_def, Block.addSuccessor]

end Grows

/-- **What a call does to the lists.** -/
theorem grows_perform (g : Graph ι) (c : Call ι) : g.Grows (c.edges g) (g.perform c) := by
  cases c with
  | create name => exact .insertBlock ⟨rfl, rfl⟩
  | insert b bare => exact .insertBlock bare
  | addEdge source target =>
    cases h : Graph.addEdge source target g with
    | ok _ g' => simpa only [perform, Call.edges, Call.exec, h] using Grows.addEdge h
    | error e g' =>
      obtain ⟨-, rfl⟩ := addEdge_eq_error_iff.mp h
      simpa only [perform, Call.edges, Call.exec, h] using Grows.refl g'
  | edit id e => exact .modifyBlock id e.exists_insts_apply

theorem grows_performAll (g : Graph ι) (calls : List (Call ι)) :
    g.Grows (g.added calls) (g.performAll calls) := by
  induction calls generalizing g with
  | nil => exact .refl g
  | cons c calls ih => exact (g.grows_perform c).trans (ih (g.perform c))

/-! ## The lists of a graph -/

/-- **The lists of edges agree.**  Whatever calls have built a graph, each block is at the place of
its number, and the ends of all edges are in the graph.  The successors of a block are the targets
of the edges that were added to leave it, and the predecessors the sources of those that were added
to enter it, in the order of the calls; so each edge is as often in the one list as in the other,
once for each time that it was added.  An edge can be added if and only if both its ends are in the
graph, and otherwise the graph stays as it is. -/
theorem edgeLists_consistent (calls : List (Call ι)) :
    let g := (empty : Graph ι).performAll calls
    let edges := (empty : Graph ι).added calls
    (∀ k b, g.block? k = some b → b.id = k) ∧
    (∀ k, (∀ b ∈ g.successors k, b < g.size) ∧ ∀ a ∈ g.predecessors k, a < g.size) ∧
    (∀ a b, (g.successors a).count b = edges.count (a, b) ∧
      (g.predecessors b).count a = edges.count (a, b)) ∧
    (∀ k, g.successors k = targets edges k ∧ g.predecessors k = sources edges k) ∧
    ∀ source target,
      ((∃ e g', Graph.addEdge source target g = .error e g') ↔
        g.size ≤ source ∨ g.size ≤ target) ∧
      ∀ e g', Graph.addEdge source target g = .error e g' → g' = g := by
  intro g edges
  have hgrows : empty.Grows edges g := grows_performAll empty calls
  have hsuccessors (k : Nat) : g.successors k = targets edges k := hgrows.successors k
  have hpredecessors (k : Nat) : g.predecessors k = sources edges k := hgrows.predecessors k
  refine ⟨?_, fun k => ⟨fun b hb => ?_, fun a ha => ?_⟩, fun a b => ?_,
    fun k => ⟨hsuccessors k, hpredecessors k⟩, fun source target => ⟨?_, fun e g' he => ?_⟩⟩
  · exact hgrows.placed fun k b hb => by simp [empty, block?] at hb
  · rw [hsuccessors] at hb
    obtain ⟨e, he, rfl⟩ := List.mem_map.mp hb
    exact (hgrows.inside e (List.mem_filter.mp he).1).2
  · rw [hpredecessors] at ha
    obtain ⟨e, he, rfl⟩ := List.mem_map.mp ha
    exact (hgrows.inside e (List.mem_filter.mp he).1).1
  · rw [hsuccessors, hpredecessors]
    exact ⟨count_targets edges a b, count_sources edges a b⟩
  · constructor
    · rintro ⟨e, g', he⟩
      rcases (addEdge_eq_error_iff.mp he).1 with ⟨htarget, _⟩ | ⟨_, hsource, _⟩
      · exact .inr htarget
      · exact .inl hsource
    · intro hmissing
      cases h : Graph.addEdge source target g with
      | error e g' => exact ⟨e, g', rfl⟩
      | ok _ g' =>
        obtain ⟨htarget, hsource, _⟩ := addEdge_eq_ok_iff.mp h
        omega
  · exact (addEdge_eq_error_iff.mp he).2

end Graph

end Compiler16.Flow
