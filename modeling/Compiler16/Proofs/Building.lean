import Compiler16.Proofs.Answering
import Compiler16.Proofs.Edits
import Compiler16.Proofs.Tracing

/-!
# Calls that do not fail

While a function is lowered the current block exists, edges come from blocks that exist, and the
first edge into a block comes from an earlier one.  So blocks with one predecessor form no ring, and
of the calls that the lowering makes none fails.

## Main definitions

* `Built`: what the lowering of a function keeps
* `Watch.KeptByLowering`: a property that all calls of the lowering keep
* `Watch.At`: such a property in a function

## Main results

* `Built.noRing`: there is no ring
* `Watch.At.readVariable`, `Watch.At.emitInst`, `Watch.At.sealBlock`, `Watch.At.addEdge`: the calls
  do not fail
-/

namespace Compiler16.Ssa

open Compiler16.Source Compiler16.Flow

namespace Body

/-- Blocks and edges have come. -/
structure Grown (B B' : Body) : Prop where
  size : B.graph.size ≤ B'.graph.size
  preds : ∀ b, ∃ l, B'.preds b = B.preds b ++ l

variable {B B' B'' : Body}

theorem Grown.refl : Grown B B := ⟨le_rfl, fun _ => ⟨[], by simp⟩⟩

theorem Grown.trans (h : Grown B B') (h' : Grown B' B'') : Grown B B'' := by
  refine ⟨h.size.trans h'.size, fun b => ?_⟩
  obtain ⟨l, hl⟩ := h.preds b
  obtain ⟨l', hl'⟩ := h'.preds b
  exact ⟨l ++ l', by rw [hl', hl, List.append_assoc]⟩

theorem SameFrame.grown (h : B.SameFrame B') : Grown B B' :=
  ⟨h.size.ge, fun b => ⟨[], by rw [h.preds, List.append_nil]⟩⟩

theorem Grown.createBlock {name : Option String} : Grown B (B.createBlock name).2 :=
  ⟨by rw [size_createBlock]; exact Nat.le_succ _,
    fun b => ⟨[], by rw [preds_createBlock, List.append_nil]⟩⟩

theorem Grown.addEdge {p q : Nat} (h : addEdge p q B = .ok () B') : Grown B B' := by
  obtain ⟨_, _, hsize, _, _, _, hpreds, _⟩ := addEdge_ok h
  refine ⟨hsize.ge, fun b => ?_⟩
  rw [hpreds]
  split
  · exact ⟨[p], rfl⟩
  · exact ⟨[], by simp⟩

theorem Grown.addArgument {v : Value} : Grown B (B.addArgument v) :=
  ⟨le_rfl, fun _ => ⟨[], by simp; rfl⟩⟩

theorem Grown.preds_ne_nil {b : Nat} (h : Grown B B') (hb : B.preds b ≠ []) : B'.preds b ≠ [] := by
  obtain ⟨l, hl⟩ := h.preds b
  rw [hl]
  exact List.append_ne_nil_of_left_ne_nil hb l

end Body

namespace Builder

variable {s s' : Builder} {B B' : Body} {x b k p : Nat} {v : Value}

/-- What the lowering keeps while a function is open. -/
structure Built (s : Builder) (B : Body) (b : Nat) : Prop where
  coded : Coded s B
  queued : s.Queued B
  current : s.current = some b
  lt : b < B.graph.size
  preds_lt : ∀ k, ∀ q ∈ B.preds k, q < B.graph.size
  /-- The first edge into a block comes from an earlier one. -/
  forward : ∀ k q l, B.preds k = q :: l → q < k

theorem exists_beginFunction (h : s.opened = none) (name : String) :
    ∃ entry s', beginFunction name s = .ok entry s' := by
  unfold beginFunction
  simp only [bind_eq_ok, get_eq_ok]
  exact ⟨_, _, s, s, ⟨rfl, rfl⟩, by rw [h]; rfl⟩

/-- If a function is open, its index is exact and there is no ring. -/
def Fit (s : Builder) : Prop := ∀ B, s.body? = some B → Coded s B ∧ NoRing s B

theorem Fit.of_opened (h : s.opened = none) : s.Fit := by
  intro B hB
  rw [body?, h] at hB
  cases hB

namespace Built

theorem noRing (h : Built s B b) : NoRing s B := by
  have hlt : ∀ a k, Relation.TransGen (Passes s B) a k → k < a := by
    intro a k hak
    -- a block with one predecessor has it from its first edge, so the numbers go down
    induction hak with
    | single hpass => exact h.forward _ _ [] hpass.2
    | tail _ hpass ih => exact (h.forward _ _ [] hpass.2).trans ih
  exact fun k hk => lt_irrefl k (hlt k k hk)

theorem fit (h : Built s B b) : s.Fit := by
  intro C hC
  obtain rfl := Option.some.inj (h.coded.body.symm.trans hC)
  exact ⟨h.coded, h.noRing⟩

/-- Neither blocks nor edges have come. -/
theorem frame (h : Built s B b) (hcoded : Coded s' B') (hqueued : s'.Queued B')
    (hcurrent : s'.current = s.current) (hframe : B.SameFrame B') : Built s' B' b where
  coded := hcoded
  queued := hqueued
  current := hcurrent.trans h.current
  lt := hframe.size ▸ h.lt
  preds_lt k q hq := by
    rw [hframe.size]
    exact h.preds_lt k q (hframe.preds k ▸ hq)
  forward k q l hl := h.forward k q l (hframe.preds k ▸ hl)

/-- The body is the same. -/
theorem same (h : Built s B b) (hbody : s'.body? = s.body?) (hnext : s.nextId ≤ s'.nextId)
    (hpending : s'.pending = s.pending) (hcurrent : s'.current = s.current) : Built s' B b :=
  h.frame ⟨hbody.trans h.coded.body, h.coded.indexed,
    fun k i hi => lt_of_lt_of_le (h.coded.bound k i hi) hnext⟩ (h.queued.mono hpending le_rfl)
    hcurrent .refl

theorem addArgument {fn : OpenFunction} (h : Built s fn.body b) (v : Value) :
    Built { s with opened := some { fn with body := fn.body.addArgument v } }
      (fn.body.addArgument v) b :=
  ⟨⟨rfl, h.coded.indexed.congr (fun _ => rfl) rfl, h.coded.bound⟩, h.queued, h.current, h.lt,
    h.preds_lt, h.forward⟩

theorem setCurrent (h : Built s B b) (hk : k < B.graph.size) :
    Built { s with current := some k } B k :=
  ⟨⟨h.coded.body, h.coded.indexed, h.coded.bound⟩, h.queued, rfl, hk, h.preds_lt, h.forward⟩

theorem createBlock {fn : OpenFunction} (h : Built s fn.body b) :
    Built { s with opened := some { fn with body := (fn.body.createBlock none).2 } }
      (fn.body.createBlock none).2 b := by
  have hindexed : (fn.body.createBlock none).2.Indexed :=
    h.coded.indexed.congr (fun k => Body.code_createBlock _ _ k) rfl
  have hle : fn.body.graph.size ≤ (fn.body.createBlock none).2.graph.size :=
    Body.Grown.createBlock.size
  refine ⟨⟨rfl, hindexed, fun k i hi => ?_⟩, h.queued.mono rfl hle, h.current,
    lt_of_lt_of_le h.lt hle, fun k q hq => ?_, fun k q l hl => ?_⟩
  · exact h.coded.bound k i (Body.code_createBlock _ _ k ▸ hi)
  · exact lt_of_lt_of_le (h.preds_lt k q (Body.preds_createBlock _ _ k ▸ hq)) hle
  · exact h.forward k q l (Body.preds_createBlock _ _ k ▸ hl)

theorem addEdge {fn : OpenFunction} (h : Built s fn.body b)
    (hforward : p < k ∨ fn.body.preds k ≠ []) (hB' : Body.addEdge p k fn.body = .ok () B') :
    Built { s with opened := some { fn with body := B' } } B' b := by
  obtain ⟨hp, _, hsize, hcode, hhome, _, hpreds, _⟩ := Body.addEdge_ok hB'
  refine ⟨⟨rfl, h.coded.indexed.congr hcode hhome, fun a i hi => ?_⟩, h.queued.mono rfl hsize.ge,
    h.current, hsize ▸ h.lt, fun a q hq => ?_, fun a q l hl => ?_⟩
  · exact h.coded.bound a i (hcode a ▸ hi)
  · rw [hsize]
    rw [hpreds] at hq
    split at hq
    · rcases List.mem_append.mp hq with hq | hq
      · exact h.preds_lt a q hq
      · exact List.mem_singleton.mp hq ▸ hp
    · exact h.preds_lt a q hq
  · rw [hpreds] at hl
    split at hl
    · next ha =>
      subst ha
      -- the first predecessor is the new one only if there was none
      cases hold : fn.body.preds a with
      | nil =>
        rw [hold] at hl
        cases hl
        exact hforward.resolve_right (absurd hold)
      | cons q' l' =>
        rw [hold] at hl
        cases hl
        exact h.forward a q l' hold
    · exact h.forward a q l hl

end Built

/-! ## Properties that the lowering keeps -/

section

variable {W : Type} [Preorder W]

/-- The calls of the lowering keep the property. -/
structure Watch.KeptByLowering (X : Watch W) (c : Context) : Prop
    extends X.KeptByReads c.options where
  graph : ∀ {w s fn B}, s.opened = some fn → X.holds w s → (∀ b, B.code b = fn.body.code b) →
    B.home = fn.body.home → B.arguments = fn.body.arguments →
    X.holds w { s with opened := some { fn with body := B } }
  current : ∀ {w s} (b : Option Nat), X.holds w s → X.holds w { s with current := b }
  arrays : ∀ {w s} (l : List (String × List UInt8)), X.holds w s →
    X.holds w { s with compiled := { s.compiled with arrays := l } }
  literal : ∀ {w s} (n : Int), X.holds w s → ∃ w', w ≤ w' ∧
    X.holds w' { s with nextId := s.nextId + 1 } ∧ X.value w' (.literal s.nextId n)
  argument : ∀ {w s fn}, s.opened = some fn → X.holds w s → ∃ w', w ≤ w' ∧
    X.holds w' { s with
      nextId := s.nextId + 1
      opened := some { fn with body := fn.body.addArgument (.argument s.nextId) } } ∧
    X.value w' (.argument s.nextId)
  append : ∀ {w s B i s'}, Coded s B → X.holds w s → i.id = s.nextId → i.op ≠ .phi →
    (∀ v ∈ i.operands, X.value w v) →
    append i { s with nextId := s.nextId + 1 } = .ok () s' →
    ∃ w', w ≤ w' ∧ X.holds w' s' ∧ X.value w' (.result i.id)
  global : ∀ {w s i}, X.holds w s → i.id = s.nextId → (∀ v ∈ i.operands, X.value w v) →
    ∃ w', w ≤ w' ∧ X.holds w' { s with
      nextId := s.nextId + 1
      compiled := s.compiled.insertGlobal i } ∧ X.value w' (.result i.id)
  publish : ∀ {w s v} (x : Nat), X.holds w s → X.value w v →
    X.holds w { s with globalDefs := s.globalDefs.insert x v }
  begin : ∀ {w s name entry s'}, X.holds w s → beginFunction name s = .ok entry s' →
    ∃ w', w ≤ w' ∧ X.holds w' s'
  finish : ∀ {w s B s'}, Coded s B → X.holds w s → endFunction s = .ok () s' →
    ∃ w', w ≤ w' ∧ X.holds w' s'

theorem Watch.nothing_keptByLowering (c : Context) : (Watch.nothing W).KeptByLowering c where
  toKeptByReads := Watch.nothing_keptByReads W c.options
  graph _ _ _ _ _ := trivial
  current _ _ := trivial
  arrays _ _ := trivial
  literal _ _ := ⟨_, le_rfl, trivial, trivial⟩
  argument _ _ := ⟨_, le_rfl, trivial, trivial⟩
  append _ _ _ _ _ _ := ⟨_, le_rfl, trivial, trivial⟩
  global _ _ _ := ⟨_, le_rfl, trivial, trivial⟩
  publish _ _ _ := trivial
  begin _ _ := ⟨_, le_rfl, trivial⟩
  finish _ _ _ := ⟨_, le_rfl, trivial⟩

/-- The property holds at the block `b` of a function. -/
structure Watch.At (X : Watch W) (w : W) (s : Builder) (B : Body) (b : Nat) : Prop where
  built : Built s B b
  holds : X.holds w s

/-- Neither blocks nor edges have come since. -/
def Watch.Stays (X : Watch W) (w : W) (B : Body) (b : Nat) (s' : Builder) : Prop :=
  ∃ w' B', w ≤ w' ∧ X.At w' s' B' b ∧ B.SameFrame B'

/-- The value is one that the property allows, and neither blocks nor edges have come since. -/
def Watch.Gives (X : Watch W) (w : W) (B : Body) (b : Nat) (v : Value) (s' : Builder) : Prop :=
  ∃ w' B', w ≤ w' ∧ X.At w' s' B' b ∧ B.SameFrame B' ∧ X.value w' v

theorem Watch.Stays.fit {X : Watch W} {w : W} (h : X.Stays w B b s') : s'.Fit := by
  obtain ⟨w', B', _, hat, _⟩ := h
  exact hat.built.fit

namespace Watch.At

variable {X : Watch W} {c : Context} {w : W}

/-! ## Reads and instructions -/

theorem readVariable (hX : X.KeptByReads c.options) (h : X.At w s B b) (x : Nat) :
    Ends (Builder.readVariable c.options x b) s (X.Gives w B b) fun _ _ => False := by
  refine (hX.readVariable h.built.coded h.holds x b).imp ?_ ?_
  · rintro v s' ⟨B', w', hB', hww', hw', hv⟩
    exact ⟨w', B', hww', ⟨h.built.frame hB'.coded (hB'.queued h.built.queued) hB'.steady.current
      hB'.steady.frame, hw'⟩, hB'.steady.frame, hv⟩
  · rintro e s' ⟨_, he⟩
    obtain ⟨k, _, hk, rfl | ⟨a, ha⟩⟩ := he h.built.noRing
    · exact absurd h.built.lt (not_lt.mpr hk)
    · exact absurd (h.built.preds_lt a k ha) (not_lt.mpr hk)

theorem sealBlock (hX : X.KeptByReads c.options) (h : X.At w s B b) (k : Nat) :
    Ends (Builder.sealBlock c.options k) s (fun _ => X.Stays w B b) fun _ _ => False := by
  refine (hX.sealBlock h.built.coded h.holds k).imp ?_ ?_
  · rintro _ s' ⟨B', w', hB', hww', hw'⟩
    exact ⟨w', B', hww', ⟨h.built.frame hB'.coded (hB'.queued h.built.queued) hB'.current
      hB'.frame, hw'⟩, hB'.frame⟩
  · rintro e s' ⟨_, he⟩
    obtain ⟨a, _, ha, d, hd⟩ := he h.built.noRing
    exact absurd (h.built.preds_lt d a hd) (not_lt.mpr ha)

/-- An instruction comes last in a block. -/
theorem append (hX : X.KeptByLowering c) (h : X.At w s B b) {i : Inst} (hid : i.id = s.nextId)
    (hop : i.op ≠ .phi) (hoperands : ∀ v ∈ i.operands, X.value w v)
    (hblock : i.block < B.graph.size) :
    ∃ s', Builder.append i { s with nextId := s.nextId + 1 } = .ok () s' ∧
      X.Gives w B b (.result i.id) s' := by
  obtain ⟨fn, hfn, rfl⟩ := h.built.coded.exists_opened
  obtain ⟨B', hB'⟩ : ∃ B', fn.body.append i = .ok B' := ⟨_, if_pos hblock⟩
  have hrun : Builder.append i { s with nextId := s.nextId + 1 } = .ok () _ :=
    append_eq_ok.mpr ⟨fn, B', hfn, hB', rfl⟩
  obtain ⟨w', hww', hw', hv⟩ := hX.append h.built.coded h.holds hid hop hoperands hrun
  obtain ⟨hindexed, hframe, hbound⟩ := h.built.coded.append hid hB'
  exact ⟨_, hrun, w', B', hww', ⟨h.built.frame ⟨rfl, hindexed, hbound⟩
    (h.built.queued.mono rfl hframe.size.ge) rfl hframe, hw'⟩, hframe, hv⟩

theorem emitInst (hX : X.KeptByLowering c) (h : X.At w s B b) {op : Op} {operands : List Value}
    (callee : Option String) (hop : op ≠ .phi) (hoperands : ∀ v ∈ operands, X.value w v) :
    Ends (Builder.emitInst op operands callee) s (X.Gives w B b) fun _ _ => False := by
  obtain ⟨s', hrun, hs'⟩ := h.append hX (i := { op, id := s.nextId, block := b, operands, callee })
    rfl hop hoperands h.built.lt
  exact .of_ok ((emitInst_eq_ok h.built.current).mpr ⟨rfl, hrun⟩) hs'

theorem emitBranch (hX : X.KeptByLowering c) (h : X.At w s B b) (cond : Option Value)
    (targets : List Nat) (hk : k < B.graph.size) (hcond : ∀ v ∈ cond, X.value w v) :
    Ends (Builder.emitBranch k cond targets) s (fun _ => X.Stays w B b) fun _ _ => False := by
  obtain ⟨s', hrun, w', B', hww', hs', hframe, _⟩ := h.append hX
    (i := { op := .br, id := s.nextId, block := k, operands := cond.toList, targets })
    rfl (by simp) (by simpa using hcond) hk
  exact .of_ok (emitBranch_eq_ok.mpr hrun) ⟨w', B', hww', hs', hframe⟩

/-- A number is drawn for a literal. -/
theorem freshLiteral (hX : X.KeptByLowering c) (h : X.At w s B b) (n : Int) :
    Ends (Builder.freshLiteral n) s (X.Gives w B b) fun _ _ => False := by
  obtain ⟨w', hww', hw', hv⟩ := hX.literal n h.holds
  exact .of_ok rfl ⟨w', B, hww', ⟨h.built.same rfl (Nat.le_succ _) rfl rfl, hw'⟩, .refl, hv⟩

theorem internString (hX : X.KeptByLowering c) (h : X.At w s B b) (text : String) :
    Ends (Lowering.internString text) s (fun _ => X.Stays w B b) fun _ _ => False :=
  .of_ok rfl ⟨w, B, le_rfl, ⟨h.built.same rfl le_rfl rfl rfl, hX.arrays _ h.holds⟩, .refl⟩

theorem readCurrent (hX : X.KeptByReads c.options) (h : X.At w s B b) (x : Nat) :
    Ends (Lowering.readCurrent c x) s (X.Gives w B b) fun _ _ => False := by
  refine Ends.get_bind ?_
  rw [h.built.current]
  exact h.readVariable hX x

theorem assignVariable (hX : X.KeptByLowering c) (h : X.At w s B b) (hv : X.value w v) (x : Nat) :
    Ends (Lowering.assignVariable c x v) s (fun _ => X.Stays w B b) fun _ _ => False := by
  refine .of_ok rfl ⟨w, B, le_rfl, ?_, .refl⟩
  simp only [h.built.current]
  have hdefs := hX.remember (x, b) h.holds hv
  refine ⟨h.built.same rfl le_rfl rfl h.built.current.symm, ?_⟩
  rw [← h.built.current]
  -- a variable of the outermost scope is written for later functions too
  split
  · exact hX.publish x hdefs hv
  · exact hdefs

/-! ## Blocks and edges -/

theorem getCurrent (h : X.At w s B b) : Builder.getCurrent s = .ok b s :=
  getCurrent_eq_ok.mpr ⟨h.built.current, rfl⟩

theorem setCurrent (hX : X.KeptByLowering c) (h : X.At w s B b) (hk : k < B.graph.size) :
    Ends (Builder.setCurrent k) s (fun _ s' => X.At w s' B k) fun _ _ => False :=
  .of_ok rfl ⟨h.built.setCurrent hk, hX.current _ h.holds⟩

theorem createBlock (hX : X.KeptByLowering c) (h : X.At w s B b) :
    Ends Builder.createBlock s
      (fun k s' => k = B.graph.size ∧ X.At w s' (B.createBlock none).2 b ∧ s'.pending = s.pending)
      fun _ _ => False := by
  obtain ⟨fn, hfn, rfl⟩ := h.built.coded.exists_opened
  refine .of_ok (changeBody_eq_ok.mpr ⟨fn, _, hfn, rfl, rfl⟩) ⟨rfl, ⟨h.built.createBlock, ?_⟩, rfl⟩
  exact hX.graph hfn h.holds (fun k => Body.code_createBlock _ _ k) rfl rfl

/-- An edge comes from an earlier block, or into a block that has a predecessor. -/
theorem addEdge (hX : X.KeptByLowering c) (h : X.At w s B b) (hp : p < B.graph.size)
    (hk : k < B.graph.size) (hforward : p < k ∨ B.preds k ≠ []) :
    Ends (Builder.addEdge p k) s
      (fun _ s' => ∃ B', X.At w s' B' b ∧ B.Grown B' ∧ B'.graph.size = B.graph.size ∧
        B'.preds k ≠ [])
      fun _ _ => False := by
  obtain ⟨fn, hfn, rfl⟩ := h.built.coded.exists_opened
  obtain ⟨B', hB'⟩ : ∃ B', Body.addEdge p k fn.body = .ok () B' :=
    ⟨_, Body.addEdge_eq_ok_iff.mpr ⟨hk, hp, rfl⟩⟩
  have hrun : Builder.addEdge p k s = .ok () { s with opened := some { fn with body := B' } } := by
    rw [addEdge_eq_changeBody]
    exact changeBody_eq_ok.mpr ⟨fn, B', hfn, changed_eq_ok.mpr hB', rfl⟩
  obtain ⟨_, _, hsize, hcode, hhome, hargs, hpreds, _⟩ := Body.addEdge_ok hB'
  have hnew : B'.preds k ≠ [] := by simp [hpreds]
  exact .of_ok hrun ⟨B', ⟨h.built.addEdge hforward hB', hX.graph hfn h.holds hcode hhome hargs⟩,
    .addEdge hB', hsize, hnew⟩

end Watch.At

end

end Builder

end Compiler16.Ssa
