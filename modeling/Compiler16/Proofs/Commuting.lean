import Compiler16.Proofs.EarlyPhis
import Compiler16.Proofs.Marks

/-!
# Reading and sealing

A variable may be read in a block before it is sealed or afterwards.  Before, the read makes a PHI,
which gets its operands when the block is sealed; afterwards, the read goes to the predecessors.
The two orders do not lead to the same value in general:

* in a block without predecessors the PHI gets no operand and becomes the unknown value, whereas a
  read in the sealed block finds the value before the function;
* with one predecessor, what is found may be unknown in the sealed block, and the result of a PHI
  that has been removed in the other order, if nothing leads to the blocks;
* where two or more blocks come before it, the two orders do the same, but the answer of a read that
  removes a PHI is chosen before the removals that this one sets off.  A second read finds what
  these have left.

A value that is known and was there before is found in both orders, if there is one predecessor.

## Main definitions

* `sealThenRead`, `readSealRead`: the two orders
* `Builder.Ready`, `Builder.Asked`: the states before and after the first read, if nothing waits
* `UnderWay`: a function was begun, and calls that make sense have followed

## Main results

* `Builder.Unfilled.sealBlock_isolated`: what waits in a block without predecessors gives way
* `Builder.Asked.eq_of_straight`, `Builder.Asked.eq_of_old`, `Builder.Asked.standsFor`: the value of
  the PHI once its block is sealed
* `read_seal_orders`: what the two orders answer
-/

namespace Compiler16.Ssa

open Compiler16.Source Compiler16.Flow Compiler16.Ssa.Builder

/-- A key that is not there can be removed. -/
theorem OrderedMap.erase_of_get?_none {κ α : Type} [DecidableEq κ] {m : OrderedMap κ α} {k : κ}
    (h : m.get? k = none) : m.erase k = m := by
  have hk := (m.get?_eq_none_iff k).mp h
  obtain ⟨es⟩ := m
  refine congrArg OrderedMap.mk (List.filter_eq_self.mpr fun e he => decide_eq_true fun heq => ?_)
  exact hk (List.mem_map.mpr ⟨e, he, heq⟩)

/-- An entry that is removed might as well not have come in. -/
theorem OrderedMap.erase_insert_of_get?_none {κ α : Type} [DecidableEq κ] {m : OrderedMap κ α}
    {k : κ} {v : α} (h : m.get? k = none) : (m.insert k v).erase k = m := by
  have hk := (m.get?_eq_none_iff k).mp h
  have herase := OrderedMap.erase_of_get?_none h
  rw [OrderedMap.insert, if_neg hk]
  refine Eq.trans (congrArg OrderedMap.mk ?_) herase
  rw [List.filter_append]
  simp

variable {o : Options} {c : Context}

/-! ## Two orders -/

/-- The block is sealed, then the variable is read there. -/
def sealThenRead (o : Options) (x b : Nat) : Build Value := do
  sealBlock o b
  readVariable o x b

/-- The variable is read, then the block is sealed, and the variable is read again. -/
def readSealRead (o : Options) (x b : Nat) : Build Value := do
  let _ ← readVariable o x b
  sealBlock o b
  readVariable o x b

namespace Builder

variable {wild : Prop} {K : Nat → Prop} {D : Nat × Nat → Prop} {s t u : Builder} {B C : Body}
  {i : Inst} {k : Nat × Nat} {x b p : Nat} {v w : Value}

/-! ## The definition of a PHI while it is completed -/

/-- A PHI that is the definition of a variable. -/
def DefinedBy (k : Nat × Nat) (p : Nat) (s : Builder) : Prop :=
  ∃ B, Coded s B ∧ s.isPhi p = true ∧ s.defs.get? k = some (.result p)

/-- While a PHI gets its operands, it stays the definition of its variable. -/
theorem DefinedBy.loop {read : Nat → Build Value} {l : List Nat} (h : DefinedBy (x, b) p s)
    (hread : ∀ {t C q v t'}, Coded t C → read q t = .ok v t' →
      Changes True (t.nextId ≤ ·) (Undefined t x) t t')
    (hrun : l.forM (fillRound read p) s = .ok () u) :
    DefinedBy (x, b) p u ∧ s.nextId ≤ u.nextId := by
  refine forM_invariant (I := fun _ t => DefinedBy (x, b) p t ∧ s.nextId ≤ t.nextId) ?_ l s u
    ⟨h, le_rfl⟩ hrun
  rintro q _ t t' ⟨⟨C, hC, hphi, hdef⟩, hle⟩ hround
  obtain ⟨w, t₁, hw, hadd⟩ := bind_eq_ok.mp hround
  have hchanges := hread hC hw
  obtain ⟨C₁, hC₁⟩ := hchanges.follows hC
  -- the read touches only what it brings in itself, and the PHI was there before
  have hold : ¬ t.nextId ≤ p := not_le.mpr (hC.lt_of_isPhi hphi)
  obtain ⟨_, hadd', ht'⟩ := hC₁.coded.addOperand p w
  cases hadd'.symm.trans hadd
  refine ⟨⟨_, ht'.coded, ?_, ?_⟩, hle.trans (hC₁.steady.nextId.trans ht'.steady.nextId)⟩
  · exact hC₁.coded.isPhi_of_addOperand hadd (hchanges.isPhi_of_not hC hold hphi)
  · obtain ⟨_, _, _, _, rfl⟩ := changeBody_eq_ok.mp hadd
    refine hchanges.get?_defs (fun hk => ?_) hold hdef
    exact absurd (hk.2.symm.trans hdef) (by simp)

/-- PHIs that give way change a definition to what it stands for. -/
theorem Cascade.standsFor (h : Cascade K s t) (hk : s.defs.get? k = some v) :
    ∃ w, t.defs.get? k = some w ∧ s.StandsFor v t w := by
  induction h with
  | refl => exact ⟨v, hk, Or.inl rfl⟩
  | @tail u t hrest hstep ih =>
    have hrest : Cascade K s u := hrest
    obtain ⟨i, v', B, _, hgives⟩ := hstep
    obtain ⟨w, hw, hstands⟩ := ih
    refine ⟨Value.redirect i.id v' w, ?_, hgives.standsFor (Or.inl ?_) hstands⟩
    · rw [hgives.get?_defs, hw, Option.map_some]
    · exact hrest.isPhi_of_isPhi hgives.isPhi_self

/-- The answer of a removal stands for the definition that is left. -/
theorem DefinedBy.removeTrivialPhi (h : DefinedBy k p s)
    (hrun : Builder.removeTrivialPhi p s = .ok v t) :
    s.nextId ≤ t.nextId ∧ ∃ C w, Coded t C ∧ t.defs.get? k = some w ∧
      (w = v ∨ ∃ q, v = .result q ∧ Relation.TransGen t.Forwards v w) := by
  obtain ⟨B, hB, hphi, hdef⟩ := h
  obtain ⟨_, us, u, _, C, hrun', hC, hcol, _, hcascade⟩ :=
    hB.removeTrivialPhi_cascade (p := p) .all trivial
  cases hrun'.symm.trans hrun
  -- the first attempt makes the answer the definition
  have hfirst : u.defs.get? k = some v := by
    obtain ⟨rfl, rfl⟩ | ⟨i, rfl, hgives⟩ := hB.collapse_of_isPhi hphi hcol
    · exact hdef
    · rw [hgives.get?_defs, hdef, Option.map_some, Value.redirect_self]
  obtain ⟨w, hw, hstands⟩ := hcascade.standsFor hfirst
  refine ⟨hC.steady.nextId, C, w, hC.coded, hw, hstands.imp_right ?_⟩
  rintro ⟨q, hq, _, hlead⟩
  exact ⟨q, hq, hlead⟩

/-- Values that are merged cost numbers. -/
theorem Coded.nextId_lt_of_merged {depth q : Nat} (hs : Coded s B)
    (ho : o.removeTrivialPhis = true) (hnew : Builder.newPhi q s = .ok p u)
    (hrun : completePhi o (readFrom o x depth) p
      { u with defs := u.defs.insert (x, q) (.result p) } = .ok v t) : s.nextId < t.nextId := by
  obtain ⟨_, C, hC⟩ := newPhi_follows hs hnew
  have hcoded : Coded { u with defs := u.defs.insert (x, q) (.result p) } C := hC.remember.coded
  have hphi : u.isPhi p = true := isPhi_newPhi hs hnew
  have hdefined : DefinedBy (x, q) p { u with defs := u.defs.insert (x, q) (.result p) } :=
    ⟨C, hcoded, hphi, (OrderedMap.get?_insert ..).trans (if_pos rfl)⟩
  obtain ⟨t₁, hloop, hrem⟩ := (completePhi_eq_ok hcoded ho).mp hrun
  obtain ⟨hdefined₁, hle⟩ := hdefined.loop (fun hC hread =>
    (Ends.ok (hC.readFrom_changes o x depth (Or.inl trivial)) hread).1) hloop
  obtain ⟨hle₁, _⟩ := hdefined₁.removeTrivialPhi hrem
  obtain ⟨_, _, _, _, _, rfl⟩ := newPhi_eq_ok.mp hnew
  exact lt_of_lt_of_le (Nat.lt_succ_self _) (hle.trans hle₁)

/-! ## A block that nothing leads to -/

/-- What is bare stays so where PHIs give way. -/
theorem Cascade.bare (h : Cascade K s t) (hs : Coded s B) (hi : i ∈ B.code b) (hbare : i.Bare)
    (ht : Coded t C) : ∃ j ∈ C.code b, j.id = i.id ∧ j.Bare := by
  induction h generalizing C with
  | refl => exact ⟨i, hs.body_unique ht ▸ hi, rfl, hbare⟩
  | tail _ hstep ih =>
    obtain ⟨k, v, D, _, hgives⟩ := hstep
    obtain rfl := hgives.after.body_unique ht
    obtain ⟨j, hj, hji, hjbare⟩ := ih hgives.before
    obtain ⟨l, hl, hlj, ⟨rfl, hop, hoperands⟩ | ⟨_, hstays⟩⟩ := hgives.becomes hj
    · obtain rfl := Option.some.inj (hgives.merged.symm.trans (hjbare.merged hgives.phi))
      exact ⟨l, hl, hlj.trans hji, Or.inr ⟨hop, hoperands⟩⟩
    · exact ⟨l, hl, hlj.trans hji, hstays.bare hjbare⟩

/-- What a variable that is defined by a PHI without operands becomes. -/
theorem Cascade.get?_defs_bare (h : Cascade K s t) (hs : Coded s B) (hi : i ∈ B.code b)
    (hbare : i.Bare) (hdef : s.defs.get? k = some (.result i.id)) (hgone : ¬ t.isPhi i.id = true)
    (hphi : s.isPhi i.id = true) : t.defs.get? k = some .unknown := by
  suffices hor : t.isPhi i.id = true ∧ t.defs.get? k = some (.result i.id) ∨
      t.defs.get? k = some .unknown from hor.resolve_left fun hand => hgone hand.1
  clear hgone
  induction h with
  | refl => exact Or.inl ⟨hphi, hdef⟩
  | tail hrest hstep ih =>
    obtain ⟨j, v, D, _, hgives⟩ := hstep
    rw [hgives.get?_defs, hgives.isPhi_iff]
    rcases ih with ⟨hphi, hdef⟩ | hdef
    · rw [hdef, Option.map_some]
      by_cases hij : i.id = j.id
      · -- it gives way itself, and has nothing to merge
        obtain ⟨l, hl, hli, hlbare⟩ := Cascade.bare hrest hs hi hbare hgives.before
        obtain ⟨_, hj⟩ := hgives.mem
        obtain rfl := hgives.before.indexed.eq_of_id_eq hl hj (hli.trans hij)
        obtain rfl := Option.some.inj (hgives.merged.symm.trans (hlbare.merged hgives.phi))
        rw [hij, Value.redirect_self]
        exact Or.inr rfl
      · rw [Value.redirect_of_ne fun heq => hij (Value.result.inj heq)]
        exact Or.inl ⟨⟨hphi, hij⟩, rfl⟩
    · rw [hdef, Option.map_some, Value.redirect_of_ne (by simp)]
      exact Or.inr rfl

theorem Cascade.get?_defs_none (h : Cascade K s t) (hk : s.defs.get? k = none) :
    t.defs.get? k = none := by
  induction h with
  | refl => exact hk
  | tail _ hstep ih =>
    obtain ⟨_, _, _, _, hgives⟩ := hstep
    rw [hgives.get?_defs, ih, Option.map_none]

/-- A bare PHI gives way when it is completed in a block that nothing leads to. -/
theorem Coded.completePhi_isolated (hs : Coded s B) (ho : o.removeTrivialPhis = true)
    (read : Nat → Build Value) (hpreds : B.preds b = []) (hi : i ∈ B.code b) (hbare : i.Bare) :
    ∃ v t C, completePhi o read i.id s = .ok v t ∧ Follows s B t C ∧
      Cascade (fun _ => True) s t ∧ ¬ t.isPhi i.id = true := by
  obtain ⟨v, us, u, t, C, hrem, hC, hcol, hfirst, hrest⟩ :=
    hs.removeTrivialPhi_cascade (p := i.id) .all trivial
  refine ⟨v, t, C, (completePhi_eq_ok hs ho).mpr ⟨s, ?_, hrem⟩, hC, hfirst.trans hrest, ?_⟩
  · have hinst : B.inst? i.id = some i := hs.indexed.inst?_eq_some_iff.mpr ⟨b, hi, rfl⟩
    have hmerged : mergedBlocks B i.id = [] := by
      simp only [mergedBlocks, hinst, hs.indexed.block_eq b i hi]
      exact hpreds
    rw [hmerged]
    rfl
  · intro hphi
    have hphi' := hrest.isPhi_of_isPhi hphi
    obtain ⟨c, j, hj, hji, hop⟩ := hs.isPhi_iff.mp (hfirst.isPhi_of_isPhi hphi')
    obtain rfl := hs.indexed.eq_of_id_eq hj hi hji
    obtain ⟨_, hgives⟩ := hs.exists_givesWay hi hop (hbare.merged hop)
    cases hgives.collapse.symm.trans hcol
    exact (hgives.isPhi_iff.mp hphi').2 rfl

theorem Coded.forM_completePhi_isolated (ho : o.removeTrivialPhis = true) (l : List (Nat × Nat)) :
    ∀ {s : Builder} {B : Body}, Coded s B → B.preds b = [] →
      (∀ e ∈ l, ∃ i ∈ B.code b, i.id = e.2 ∧ i.Bare) →
      ∃ t C, (l.forM fun e => do
          let _ ← completePhi o (readVariable o e.1) e.2 : Build Unit) s = .ok () t ∧
        Follows s B t C ∧ Cascade (fun _ => True) s t ∧ ∀ e ∈ l, ¬ t.isPhi e.2 = true := by
  induction l with
  | nil => exact fun hs _ _ => ⟨_, _, rfl, hs.refl, .refl, by simp⟩
  | cons e l ih =>
    intro s B hs hpreds hbare
    obtain ⟨⟨i, hi, hie, hibare⟩, hrest⟩ := List.forall_mem_cons.mp hbare
    obtain ⟨v, s₁, C₁, hrun, hC₁, hcascade, hgone⟩ :=
      hs.completePhi_isolated ho (readVariable o e.1) hpreds hi hibare
    rw [hie] at hrun hgone
    obtain ⟨t, C, hloop, hC, hcascade', hall⟩ := ih hC₁.coded
      ((hC₁.steady.frame.preds b).trans hpreds) fun d hd => by
        obtain ⟨j, hj, hjd, hjbare⟩ := hrest d hd
        obtain ⟨j', hj', hid, hbare'⟩ := hcascade.bare hs hj hjbare hC₁.coded
        exact ⟨j', hj', hid.trans hjd, hbare'⟩
    refine ⟨t, C, bind_eq_ok.mpr ⟨(), s₁, bind_eq_ok.mpr ⟨v, s₁, hrun, rfl⟩, hloop⟩, hC₁.trans hC,
      hcascade.trans hcascade', List.forall_mem_cons.mpr ⟨?_, hall⟩⟩
    exact fun hphi => hgone (hcascade'.isPhi_of_isPhi hphi)

/-- **What waits in a block that nothing leads to gives way** when the block is sealed. -/
theorem Unfilled.sealBlock_isolated (hu : Unfilled s B) (hs : Coded s B)
    (ho : o.removeTrivialPhis = true) (hopen : s.isSealed b = false) (hpreds : B.preds b = []) :
    ∃ t C, sealBlock o b s = .ok () (t.mark b) ∧
      Follows { s with pending := s.pending.erase b } B t C ∧
      Cascade (fun _ => True) { s with pending := s.pending.erase b } t ∧
      ∀ x p, s.Waits x b p → ¬ t.isPhi p = true := by
  obtain ⟨t, C, hloop, hC, hcascade, hgone⟩ :=
    Coded.forM_completePhi_isolated ho (s.waitingPhis b) (hs.erase b) hpreds fun e he =>
      hu.bare e.1 b e.2 (mem_waitingPhis.mp he)
  exact ⟨t, C, (sealBlock_eq_ok hopen).mpr ⟨t, hloop, rfl⟩, hC, hcascade,
    fun y p hw => hgone (y, p) (mem_waitingPhis.mpr hw)⟩

/-- In such a block a read finds the value before the function, once it is sealed. -/
theorem Unfilled.sealThenRead_isolated (hu : Unfilled s B) (hs : Coded s B)
    (ho : o.removeTrivialPhis = true) (hopen : s.isSealed b = false) (hpreds : B.preds b = [])
    (hdefs : s.defs.get? (x, b) = none) :
    ∃ t, sealThenRead o x b s = .ok (s.globalValue x) t := by
  obtain ⟨t, C, hrun, hC, hcascade, _⟩ := hu.sealBlock_isolated hs ho hopen hpreds
  have hsealed : (t.mark b).isSealed b = true := by simp [isSealed, mark]
  obtain ⟨d, hd⟩ : ∃ d, (t.mark b).readDepth = d + 1 := ⟨_, hC.coded.mark.readDepth_eq⟩
  have hglobal : s.globalValue x = t.globalValue x := by
    rw [globalValue, globalValue, hC.steady.globalDefs]
  have hstep : ReadStep o x d b (t.mark b) (s.globalValue x) _ :=
    .outside (hcascade.get?_defs_none hdefs) hsealed hC.coded.body
      ((hC.steady.frame.preds b).trans hpreds) hglobal
  have hread := readFrom_succ_eq_ok.mpr hstep
  rw [← hd] at hread
  exact ⟨_, bind_eq_ok.mpr ⟨(), _, hrun, readVariable_eq_ok.mpr hread⟩⟩

/-- A read in an open block leaves a PHI that waits. -/
theorem Unfilled.readVariable_open (hu : Unfilled s B) (hs : Coded s B) (hg : s.Guarded)
    (o : Options) (hb : b < B.graph.size) (hopen : s.isSealed b = false)
    (hdefs : s.defs.get? (x, b) = none) :
    ∃ u C, readVariable o x b s = .ok (.result s.nextId) u ∧ Coded u C ∧ Unfilled u C ∧
      B.SameFrame C ∧ { op := .phi, id := s.nextId, block := b } ∈ C.code b ∧
      u.Waits x b s.nextId ∧ u.isSealed b = false ∧
      u.defs.get? (x, b) = some (.result s.nextId) := by
  obtain ⟨t, hnew⟩ := hs.exists_newPhi hb
  obtain ⟨_, _, C, hC, _⟩ := (hs.newPhi b).ok hnew
  obtain ⟨_, fn, C', hfn, hins, rfl⟩ := newPhi_eq_ok.mp hnew
  obtain rfl : C' = C := Option.some.inj hC.coded.body
  let u : Builder := { s with
    nextId := s.nextId + 1, opened := some { fn with body := C' }
    pending := s.pending.insert b (insertPending x s.nextId (s.waitingPhis b))
    defs := s.defs.insert (x, b) (.result s.nextId) }
  have hstep : ∀ d, ReadStep o x d b s (.result s.nextId) u :=
    fun d => .waiting hdefs hopen hnew rfl rfl
  refine ⟨u, C', ?_, ⟨hC.coded.body, hC.coded.indexed, hC.coded.bound⟩,
    hu.wait hs hg hdefs hnew hC.coded rfl rfl, hC.steady.frame,
    (Body.mem_code_insertPhi hins).mpr (Or.inl ⟨rfl, rfl⟩), ?_, hopen,
    (OrderedMap.get?_insert ..).trans (if_pos rfl)⟩
  · rw [readVariable_eq_ok, hs.readDepth_eq]
    exact readFrom_succ_eq_ok.mpr (hstep _)
  · refine ⟨_, (OrderedMap.get?_insert ..).trans (if_pos rfl), ?_⟩
    exact (insertPending_perm (hg.ne_of_waiting hdefs)).mem_iff.mpr List.mem_cons_self

/-- A PHI that waits in such a block becomes the unknown value. -/
theorem Unfilled.readSealRead_isolated (hu : Unfilled s B) (hs : Coded s B) (hg : s.Guarded)
    (ho : o.removeTrivialPhis = true) (hb : b < B.graph.size) (hopen : s.isSealed b = false)
    (hpreds : B.preds b = []) (hdefs : s.defs.get? (x, b) = none) :
    ∃ t, readSealRead o x b s = .ok .unknown t := by
  obtain ⟨u, C, hread, hcoded, hu', hframe, hphi, hw, hopen', hdef⟩ :=
    hu.readVariable_open hs hg o hb hopen hdefs
  obtain ⟨t, C', hrun, hC', hcascade, hgone⟩ := hu'.sealBlock_isolated hcoded ho hopen'
    ((hframe.preds b).trans hpreds)
  have hunknown : t.defs.get? (x, b) = some .unknown :=
    hcascade.get?_defs_bare (hcoded.erase b) hphi (Or.inl ⟨rfl, rfl⟩) hdef (hgone x _ hw)
      (hcoded.isPhi_iff.mpr ⟨b, _, hphi, rfl, rfl⟩)
  exact ⟨_, bind_eq_ok.mpr ⟨_, u, hread, bind_eq_ok.mpr ⟨(), _, hrun,
    hC'.coded.mark.readVariable_eq o hunknown⟩⟩⟩

/-! ## A PHI in an open block -/

/-- The block is open, nothing waits there, and the variable has no definition. -/
structure Ready (s : Builder) (B : Body) (x b : Nat) : Prop where
  coded : Coded s B
  lt_size : b < B.graph.size
  unsealed : s.isSealed b = false
  undefined : s.defs.get? (x, b) = none
  quiet : s.pending.get? b = none

/-- The state in which the PHI that stands for the variable is to get its operands. -/
structure Asked (s : Builder) (B : Body) (x b : Nat) (u : Builder) (C : Body) : Prop where
  coded : Coded u C
  frame : B.SameFrame C
  merged : mergedBlocks C s.nextId = B.preds b
  phi : { op := .phi, id := s.nextId, block := b } ∈ C.code b
  state : ∃ fn, newPhi b s =
      .ok s.nextId { s with nextId := s.nextId + 1, opened := some fn } ∧
    u = { s with
      nextId := s.nextId + 1, opened := some fn, defs := s.defs.insert (x, b) (.result s.nextId) }

theorem Ready.exists_asked (h : Ready s B x b) : ∃ u C, Asked s B x b u C := by
  obtain ⟨fn, hfn, rfl⟩ := h.coded.exists_opened
  obtain ⟨C, hC⟩ : ∃ C, fn.body.insertPhi { op := .phi, id := s.nextId, block := b } = .ok C :=
    ⟨_, if_pos h.lt_size⟩
  have hnew := newPhi_eq_ok.mpr ⟨rfl, fn, C, hfn, hC, rfl⟩
  obtain ⟨_, _, C', hC', hmerged⟩ := (h.coded.newPhi b).ok hnew
  obtain rfl : C = C' := Option.some.inj hC'.coded.body
  exact ⟨_, C, hC'.remember.coded, hC'.steady.frame, hmerged,
    (Body.mem_code_insertPhi hC).mpr (Or.inl ⟨rfl, rfl⟩), _, hnew, rfl⟩

theorem Ready.sealBlock_eq (h : Ready s B x b) (o : Options) :
    sealBlock o b s = .ok () (s.mark b) := by
  refine (sealBlock_eq_ok h.unsealed).mpr ⟨s, ?_, rfl⟩
  rw [waitingPhis, h.quiet, OrderedMap.erase_of_get?_none h.quiet]
  rfl

namespace Asked

theorem isPhi (h : Asked s B x b u C) : u.isPhi s.nextId = true :=
  h.coded.isPhi_iff.mpr ⟨b, _, h.phi, rfl, rfl⟩

theorem definedBy (h : Asked s B x b u C) : DefinedBy (x, b) s.nextId u := by
  refine ⟨C, h.coded, h.isPhi, ?_⟩
  obtain ⟨_, _, rfl⟩ := h.state
  exact (OrderedMap.get?_insert ..).trans (if_pos rfl)

theorem get?_defs (h : Asked s B x b u C) {q : Nat} (hq : q ≠ b) :
    u.defs.get? (x, q) = s.defs.get? (x, q) := by
  obtain ⟨_, _, rfl⟩ := h.state
  refine (OrderedMap.get?_insert ..).trans (if_neg fun heq => hq ?_)
  exact (Prod.mk.inj heq).2.symm

/-- The first order comes down to the completion of the PHI. -/
theorem readSealRead_eq (h : Asked s B x b u C) (hs : Ready s B x b)
    (hrun : completePhi o (readVariable o x) s.nextId u = .ok v t) (ht : ∃ C', Coded t C')
    (hw : t.defs.get? (x, b) = some w) : readSealRead o x b s = .ok w (t.mark b) := by
  obtain ⟨fn, hnew, rfl⟩ := h.state
  obtain ⟨C', hC'⟩ := ht
  -- the read makes a PHI that waits
  let s₁ : Builder := { s with
    nextId := s.nextId + 1, opened := some fn, pending := s.pending.insert b [(x, s.nextId)] }
  have hadd : addPending b x s.nextId { s with nextId := s.nextId + 1, opened := some fn } =
      .ok () s₁ := by
    change EStateM.Result.ok () { s with
      nextId := s.nextId + 1, opened := some fn, pending :=
        s.pending.insert b (insertPending x s.nextId ((s.pending.get? b).getD [])) } = _
    rw [hs.quiet]
    rfl
  let s₂ : Builder := { s₁ with defs := s.defs.insert (x, b) (.result s.nextId) }
  have hstep : ∀ d, ReadStep o x d b s (.result s.nextId) s₂ :=
    fun d => .waiting hs.undefined hs.unsealed hnew hadd rfl
  have hread : readVariable o x b s = .ok (.result s.nextId) s₂ := by
    rw [readVariable_eq_ok, hs.coded.readDepth_eq]
    exact readFrom_succ_eq_ok.mpr (hstep _)
  -- it is the only one that gets its operands when the block is sealed
  have hseal : sealBlock o b s₂ = .ok () (t.mark b) := by
    have hopen : s₂.isSealed b = false := hs.unsealed
    refine (sealBlock_eq_ok hopen).mpr ⟨t, ?_, rfl⟩
    have hwaiting : s₂.waitingPhis b = [(x, s.nextId)] := by
      simp [waitingPhis, s₂, s₁, OrderedMap.get?_insert]
    have hpending : s₂.pending.erase b = s.pending := OrderedMap.erase_insert_of_get?_none hs.quiet
    rw [hwaiting, hpending]
    exact bind_eq_ok.mpr ⟨(), t, bind_eq_ok.mpr ⟨v, t, hrun, rfl⟩, rfl⟩
  exact bind_eq_ok.mpr
    ⟨_, s₂, hread, bind_eq_ok.mpr ⟨(), _, hseal, hC'.mark.readVariable_eq o hw⟩⟩

/-- With several predecessors the completion of the PHI answers with what stands for the definition
that is left. -/
theorem standsFor (h : Asked s B x b u C) (hs : Ready s B x b) (ho : o.removeTrivialPhis = true)
    (hrun : completePhi o (readVariable o x) s.nextId u = .ok v t) :
    ∃ w, readSealRead o x b s = .ok w (t.mark b) ∧
      (w = v ∨ ∃ q, v = .result q ∧ Relation.TransGen (t.mark b).Forwards v w) := by
  obtain ⟨t₁, hloop, hrem⟩ := (completePhi_eq_ok h.coded ho).mp hrun
  obtain ⟨hdefined, _⟩ := h.definedBy.loop (fun hC hread =>
    (Ends.ok (hC.readVariable_changes o (Or.inl trivial) x _) hread).1) hloop
  obtain ⟨_, C', w, hC', hw, hor⟩ := hdefined.removeTrivialPhi hrem
  refine ⟨w, h.readSealRead_eq hs hrun ⟨C', hC'⟩ hw, hor.imp_right ?_⟩
  rintro ⟨q, hq, hlead⟩
  exact ⟨q, hq, hlead⟩

/-- **With two predecessors or more**, a read in the sealed block does what the completion of the
PHI does. -/
theorem completePhi_eq (h : Asked s B x b u C) (hs : Ready s B x b)
    (hpreds : 2 ≤ (B.preds b).length) (hrun : sealThenRead o x b s = .ok v t) :
    ∃ u', completePhi o (readVariable o x) s.nextId u = .ok v u' := by
  obtain ⟨_, s₁, hseal, hread⟩ := bind_eq_ok.mp hrun
  cases hseal.symm.trans (hs.sealBlock_eq o)
  have hmarked : Coded (s.mark b) B := hs.coded.mark
  have hdepth : u.readDepth = (B.graph.size + 1) * (B.graph.size + 1) :=
    h.coded.readDepth_eq.trans (by rw [h.frame.size])
  rw [readVariable_eq_ok, hmarked.readDepth_eq] at hread
  cases readFrom_succ_eq_ok.mp hread with
  | known hdef => exact absurd (hs.undefined.symm.trans hdef) (by simp)
  | outside _ _ hB hnil =>
    cases hs.coded.body.symm.trans hB
    simp [hnil] at hpreds
  | single _ _ hB hone =>
    cases hs.coded.body.symm.trans hB
    simp [hone] at hpreds
  | waiting _ hopen => simp [isSealed, mark] at hopen
  | @merged _ p t₁ t₂ _ _ _ _ hnew hcomplete =>
    obtain ⟨fn, hnew', hu⟩ := h.state
    -- the PHI is the same, and the mark is the only difference
    have hmirror : newPhi b (s.mark b) = markResult b (newPhi b s) := Mirrors.newPhi b
    rw [hnew'] at hmirror
    cases hmirror.symm.trans hnew
    -- there the predecessors are read one step less deep, which is deep enough
    have hcomplete' : completePhi o (readFrom o x u.readDepth) s.nextId (u.mark b) = .ok v t₂ := by
      rw [hdepth, hu]
      refine (completePhi_settles (readFrom_settles (Nat.le_succ _) x) s.nextId _ ?_).trans
        hcomplete
      exact Ends.of_ok hcomplete trivial
    obtain ⟨_, _, _, hdef⟩ := h.definedBy
    have hsame : completePhi o (readFrom o x u.readDepth) s.nextId (u.mark b) =
        markResult b (completePhi o (readVariable o x) s.nextId u) :=
      Defines.completePhi_mirrors ⟨C, h.coded, _, hdef⟩
    rw [hcomplete'] at hsame
    cases hresult : completePhi o (readVariable o x) s.nextId u with
    | ok v' u' =>
      rw [hresult] at hsame
      cases hsame
      exact ⟨u', rfl⟩
    | error e u' =>
      rw [hresult] at hsame
      cases hsame

/-- A read in the sealed block that does not come back to it and makes no PHI finds the same value
where the block has a PHI. -/
theorem straight (h : Asked s B x b u C) (hs : Ready s B x b) (ho : o.removeTrivialPhis = true)
    {d : Nat} (hleast : ∀ e < d, ∀ v t, readFrom o x e b (s.mark b) ≠ .ok v t) (e : Nat) :
    ∀ {q : Nat} {t : Builder}, e < d → readFrom o x e q (s.mark b) = .ok v t →
      t.nextId = s.nextId → ∃ m, readFrom o x e q u = .ok v { u with defs := m } ∧
        m.get? (x, b) = some (.result s.nextId) := by
  have hmarked : Coded (s.mark b) B := hs.coded.mark
  obtain ⟨_, _, _, hdef⟩ := h.definedBy
  induction e with
  | zero => exact fun _ hrun => (fail_eq_ok.mp hrun).elim
  | succ e ih =>
    intro q t hlt hrun hnext
    have hqb : q ≠ b := by
      rintro rfl
      exact hleast _ hlt _ _ hrun
    -- another block is sealed with the mark if it is without
    have hsealed : (s.mark b).isSealed q = true → u.isSealed q = true := by
      intro hsealed
      obtain ⟨_, _, rfl⟩ := h.state
      simpa [isSealed, mark, hqb] using hsealed
    have hglobal : u.globalValue x = (s.mark b).globalValue x := by
      obtain ⟨_, _, rfl⟩ := h.state
      rfl
    -- what is found is noted for this block, and this is not the one with the PHI
    have hnote : ∀ {m : OrderedMap (Nat × Nat) Value}, m.get? (x, b) = some (.result s.nextId) →
        (m.insert (x, q) v).get? (x, b) = some (.result s.nextId) := by
      intro m hm
      refine ((OrderedMap.get?_insert ..).trans (if_neg fun heq => hqb ?_)).trans hm
      exact (Prod.mk.inj heq).2
    cases readFrom_succ_eq_ok.mp hrun with
    | known hv =>
      exact ⟨u.defs, readFrom_succ_eq_ok.mpr (.known ((h.get?_defs hqb).trans hv)), hdef⟩
    | outside hnone hq hB hnil hv =>
      cases hmarked.body.symm.trans hB
      refine ⟨_, readFrom_succ_eq_ok.mpr (.outside ((h.get?_defs hqb).trans hnone) (hsealed hq)
        h.coded.body ((h.frame.preds q).trans hnil) (hv.trans hglobal.symm)), hnote hdef⟩
    | single hnone hq hB hone hread =>
      cases hmarked.body.symm.trans hB
      obtain ⟨m, hm, hkept⟩ := ih (Nat.lt_of_succ_lt hlt) hread hnext
      have hstep := ReadStep.single ((h.get?_defs hqb).trans hnone) (hsealed hq) h.coded.body
        ((h.frame.preds q).trans hone) hm
      exact ⟨m.insert (x, q) v, readFrom_succ_eq_ok.mpr hstep, hnote hkept⟩
    -- where a PHI is made, a number is drawn
    | merged _ _ _ _ hnew hcomplete =>
      exact absurd hnext (hmarked.nextId_lt_of_merged ho hnew hcomplete).ne'
    | waiting _ _ hnew hadd _ =>
      obtain ⟨_, _, _, _, _, rfl⟩ := newPhi_eq_ok.mp hnew
      cases hadd
      exact absurd hnext (Nat.succ_ne_self _)

/-- A PHI with one operand that is not its own result gives way to it. -/
theorem exists_givesWay (h : Asked s B x b u C) {m : OrderedMap (Nat × Nat) Value}
    (hm : m.get? (x, b) = some (.result s.nextId)) (hv : v ≠ .result s.nextId) :
    ∃ t t' C', Builder.changeBody (fun body => .ok ((), (body.addOperand s.nextId v).2))
        { u with defs := m } = .ok () t ∧
      Builder.removeTrivialPhi s.nextId t = .ok v t' ∧ Coded t' C' ∧
      t'.defs.get? (x, b) = some v := by
  have hcoded : Coded { u with defs := m } C := ⟨h.coded.body, h.coded.indexed, h.coded.bound⟩
  obtain ⟨t, hadd, ht⟩ := hcoded.addOperand s.nextId v
  let i : Inst := { op := .phi, id := s.nextId, block := b, operands := [v] }
  -- the value is another one, so the PHI does not become a user of itself
  have hi : i ∈ (C.addOperand s.nextId v).2.code b := by
    rw [h.coded.indexed.addOperand_map h.phi rfl, Body.code_mapInsts, List.mem_map]
    exact ⟨_, h.phi, by simp [Inst.addOperand, hv, i]⟩
  have hmerged : i.mergedValue? = some v := by
    simp [Inst.mergedValue?, Inst.result, i, hv]
  obtain ⟨t', hgives⟩ := ht.coded.exists_givesWay hi rfl hmerged
  have hrem := hgives.removeTrivialPhi (by simp [i])
  refine ⟨t, t', _, hadd, hrem, hgives.after, ?_⟩
  obtain ⟨_, _, _, _, rfl⟩ := changeBody_eq_ok.mp hadd
  rw [hgives.get?_defs]
  dsimp only
  rw [hm, Option.map_some, Value.redirect_self]

/-- **With one predecessor**, a value that is found without making a PHI is found in both orders. -/
theorem eq_of_straight (h : Asked s B x b u C) (hs : Ready s B x b)
    (ho : o.removeTrivialPhis = true) {q : Nat} (hpreds : B.preds b = [q])
    (hrun : sealThenRead o x b s = .ok v t) (hnext : t.nextId = s.nextId)
    (hv : v ≠ .result s.nextId) : ∃ t', readSealRead o x b s = .ok v t' := by
  obtain ⟨_, s₁, hseal, hread⟩ := bind_eq_ok.mp hrun
  cases hseal.symm.trans (hs.sealBlock_eq o)
  have hmarked : Coded (s.mark b) B := hs.coded.mark
  rw [readVariable_eq_ok] at hread
  -- the read ends at the least depth that suffices, and does not come back to the block before
  have hsome : ∃ d, ∃ v t, readFrom o x d b (s.mark b) = .ok v t := ⟨_, v, t, hread⟩
  classical
  obtain ⟨v', t', hfound⟩ := Nat.find_spec hsome
  have hleast : ∀ e < Nat.find hsome, ∀ v t, readFrom o x e b (s.mark b) ≠ .ok v t :=
    fun e he v t heq => Nat.find_min hsome he ⟨v, t, heq⟩
  have hle : Nat.find hsome ≤ (s.mark b).readDepth := Nat.find_min' hsome ⟨v, t, hread⟩
  generalize Nat.find hsome = d at hfound hleast hle
  have hsettled := readFrom_settles hle x b (s.mark b) (Ends.of_ok hfound trivial)
  cases hread.symm.trans (hsettled.trans hfound)
  obtain _ | e := d
  · exact (fail_eq_ok.mp hfound).elim
  cases readFrom_succ_eq_ok.mp hfound with
  | known hdef => exact absurd (hs.undefined.symm.trans hdef) (by simp)
  | outside _ _ hB hnil =>
    cases hmarked.body.symm.trans hB
    exact absurd (hnil.symm.trans hpreds) (by simp)
  | merged _ _ hB htwo =>
    cases hmarked.body.symm.trans hB
    simp [hpreds] at htwo
  | waiting _ hopen => simp [isSealed, mark] at hopen
  | single _ _ hB hone hpred =>
    cases hmarked.body.symm.trans hB
    cases hone.symm.trans hpreds
    obtain ⟨m, hm, hkept⟩ := h.straight hs ho hleast e (Nat.lt_succ_self e) hpred hnext
    -- the PHI gets this value, and gives way
    have hdepth : u.readDepth = (s.mark b).readDepth := by
      rw [h.coded.readDepth_eq, hmarked.readDepth_eq, h.frame.size]
    have hread' : readVariable o x q u = .ok v { u with defs := m } := by
      rw [readVariable_eq_ok]
      refine (readFrom_settles ?_ x q u (Ends.of_ok hm trivial)).trans hm
      exact hdepth ▸ (Nat.le_succ e).trans hle
    obtain ⟨t₁, t₂, C', hadd, hrem, hC', hdef⟩ := h.exists_givesWay hkept hv
    refine ⟨_, h.readSealRead_eq hs ((completePhi_eq_ok h.coded ho).mpr ⟨t₁, ?_, hrem⟩)
      ⟨C', hC'⟩ hdef⟩
    rw [h.merged, hpreds]
    exact bind_eq_ok.mpr ⟨(), t₁, bind_eq_ok.mpr ⟨v, _, hread', hadd⟩, rfl⟩

theorem begun (h : Asked s B x b u C) (hs : Ready s B x b) : Begun s B x b u C := by
  obtain ⟨fn, hnew, hu⟩ := h.state
  obtain ⟨_, C', hC'⟩ := hs.coded.begun x hnew
  rw [← hu] at hC'
  exact hC'.follows.coded.body_unique h.coded ▸ hC'

/-- **With one predecessor**, a value from before is found in both orders, also if PHIs come in
between. -/
theorem eq_of_old (h : Asked s B x b u C) (hs : Ready s B x b) (ha : Aside s B)
    (ho : o.removeTrivialPhis = true) (hring : NoRing s B) {q : Nat} (hpreds : B.preds b = [q])
    (hrun : sealThenRead o x b s = .ok v t) (hold : s.Old v) :
    ∃ t', readSealRead o x b s = .ok v t' := by
  have hne : v ≠ .result s.nextId := by
    rintro rfl
    exact lt_irrefl _ (hold.1 _ rfl)
  by_cases hnext : t.nextId = s.nextId
  · exact h.eq_of_straight hs ho hpreds hrun hnext hne
  obtain ⟨_, s₁, hseal, hread⟩ := bind_eq_ok.mp hrun
  cases hseal.symm.trans (hs.sealBlock_eq o)
  have hmarked : Coded (s.mark b) B := hs.coded.mark
  have haside : Aside (s.mark b) B := ha.markSealed fun y p hw => by
    obtain ⟨l, hl, _⟩ := hw
    exact absurd (hs.quiet.symm.trans hl) (by simp)
  have hsealed : (s.mark b).isSealed b = true := by simp [isSealed, mark]
  -- the value is merged in a block to which others lead from here
  rw [readVariable_eq_ok] at hread
  obtain ⟨hfinds, _⟩ := readsPlainly ho x _ hmarked haside hread hold
  obtain ⟨m, hm, hlead⟩ := hfinds.exists_mergedAt hnext
  replace hlead := hlead.resolve_left (by
    rintro rfl
    have := hm.preds
    simp [scene, hpreds] at this)
  have hshows : Shows ((s.mark b).scene B x) s B x b :=
    ⟨rfl, fun r hr => by simp [scene, isSealed, mark, hr], rfl⟩
  have hbegun := h.begun hs
  obtain ⟨d, a, t₁, hanswer, hor⟩ :=
    hbegun.exists_answer hs.coded ha ho hshows hm hlead hpreds hold.1
  obtain ⟨t₂, t₃, C', hadd, hrem, hC', hdef⟩ :=
    hbegun.exists_removed hs.coded ha hanswer hold.1 hor
  -- the read ends, so it does not matter how deep it may go
  have hread' : readVariable o x q u = .ok a t₁ :=
    h.coded.readVariable_of_readFrom (hring.steady hbegun.follows.steady) hanswer
  refine ⟨_, h.readSealRead_eq hs ((completePhi_eq_ok h.coded ho).mpr ⟨t₂, ?_, hrem⟩)
    ⟨C', hC'⟩ hdef⟩
  rw [h.merged, hpreds]
  exact bind_eq_ok.mpr ⟨(), t₂, bind_eq_ok.mpr ⟨a, _, hread', hadd⟩, rfl⟩

end Asked

end Builder

variable {s : Builder} {B : Body} {x b : Nat}

/-! ## What the two orders answer -/

/-- A function was begun, and calls that make sense have followed. -/
def UnderWay (c : Context) (s : Builder) : Prop :=
  ∃ s₀ s₁ name entry, Reached c s₀ ∧ beginFunction name s₀ = .ok entry s₁ ∧
    Course c.options (fun _ => True) s₁ s

theorem UnderWay.exists_aside (h : UnderWay c s) : ∃ B, Coded s B ∧ Aside s B := by
  obtain ⟨_, _, _, _, h₀, hbegin, hcourse⟩ := h
  obtain ⟨_, hs₁, ha₁⟩ := h₀.exists_aside hbegin
  obtain ⟨B, hB, ha, _⟩ := hcourse.upholds hs₁ ha₁
  exact ⟨B, hB, ha⟩

theorem UnderWay.reached (h : UnderWay c s) : Reached c s := by
  obtain ⟨_, _, name, _, h₀, hbegin, hcourse⟩ := h
  induction hcourse with
  | refl => exact stateAfter_of_ok hbegin ▸ h₀.discarding (.begin name) rfl
  | tail _ hstep ih =>
    obtain ⟨k, _, _, rfl⟩ := hstep
    exact ih.discarding (.call k) rfl

/-- **What the two orders answer** for a variable without a definition in an open block.

* Without predecessors, the read in the sealed block finds the value before the function, but the
  PHI becomes the unknown value.

The rest is about blocks in which nothing waits.

* With one predecessor, both orders find the same value, if it is found without making a PHI.  They
  also do if it was there before the read, and something is known of it.
* With more, a value that is found in the sealed block is also found in the other order, unless it
  is the result of a PHI that was removed.  From there removed PHIs lead to what is found
  instead. -/
theorem read_seal_orders (hs : Reached c s) (ho : c.options.removeTrivialPhis = true)
    (hB : s.body? = some B) (hb : b < B.graph.size) (hopen : s.isSealed b = false)
    (hdefs : s.defs.get? (x, b) = none) :
    (B.preds b = [] →
      (∃ t, sealThenRead c.options x b s = .ok (s.globalValue x) t) ∧
      ∃ t, readSealRead c.options x b s = .ok .unknown t) ∧
    (s.pending.get? b = none → ∀ v t, sealThenRead c.options x b s = .ok v t →
      (∀ q, B.preds b = [q] →
        t.nextId = s.nextId ∧ v ≠ .result s.nextId ∨ UnderWay c s ∧ NoRing s B ∧ s.Old v →
        ∃ t', readSealRead c.options x b s = .ok v t') ∧
      (2 ≤ (B.preds b).length → ∃ w t', readSealRead c.options x b s = .ok w t' ∧
        (w = v ∨ ∃ q, v = .result q ∧ Relation.TransGen t'.Forwards v w))) := by
  obtain ⟨hcoded, hguarded, hunfilled⟩ := hs.biding hB
  refine ⟨fun hnil => ⟨?_, ?_⟩, fun hquiet => ?_⟩
  · exact hunfilled.sealThenRead_isolated hcoded ho hopen hnil hdefs
  · exact hunfilled.readSealRead_isolated hcoded hguarded ho hb hopen hnil hdefs
  have hready : s.Ready B x b := ⟨hcoded, hb, hopen, hdefs, hquiet⟩
  obtain ⟨u, C, hasked⟩ := hready.exists_asked
  refine fun v t hrun => ⟨fun q hone hv => ?_, fun htwo => ?_⟩
  · rcases hv with ⟨hnext, hv⟩ | ⟨hway, hring, hold⟩
    · exact hasked.eq_of_straight hready ho hone hrun hnext hv
    · obtain ⟨B', hB', ha⟩ := hway.exists_aside
      obtain rfl := hB'.body_unique hcoded
      exact hasked.eq_of_old hready ha ho hring hone hrun hold
  · obtain ⟨u', hcomplete⟩ := hasked.completePhi_eq hready htwo hrun
    obtain ⟨w, hw, hor⟩ := hasked.standsFor hready ho hcomplete
    exact ⟨w, _, hw, hor⟩

/-- A global variable, and a function with a block that nothing leads to.  A PHI of another variable
waits there. -/
def isolatedOperations : List Operation :=
  [.run [.var sampleVariable], .begin "f", .call .createBlock, .call (.read 1 1)]

/-- The block 1 can be entered only from the block 2, and leads back there through the block 3. -/
def detourCalls (entries : List Call) : List Call :=
  [.createBlock, .createBlock, .createBlock, .addEdge 2 1] ++ entries ++
    [.addEdge 3 2, .addEdge 3 2, .addEdge 1 3, .addEdge 2 3, .sealBlock 2, .sealBlock 3]

/-- **Reading and sealing do not commute**: the value of the global variable is found in the sealed
block, but is unknown if the variable is read before.  On the way round, where the other part
applies, they do. -/
theorem read_seal_orders_samples :
    (∃ s B, Reached sampleContext s ∧ s.body? = some B ∧ 1 < B.graph.size ∧
      s.isSealed 1 = false ∧ s.defs.get? (0, 1) = none ∧ s.pending.get? 1 ≠ none ∧
      B.preds 1 = [] ∧ (∃ t, sealThenRead sampleContext.options 0 1 s = .ok (.result 1) t) ∧
      ∃ t, readSealRead sampleContext.options 0 1 s = .ok .unknown t) ∧
    ∃ s B t, UnderWay sampleContext s ∧ s.body? = some B ∧ NoRing s B ∧ 1 < B.graph.size ∧
      s.isSealed 1 = false ∧ s.defs.get? (0, 1) = none ∧ s.pending.get? 1 = none ∧
      B.preds 1 = [2] ∧ sealThenRead sampleContext.options 0 1 s = .ok (.literal 100 7) t ∧
      t.nextId ≠ s.nextId ∧
      ∃ t', readSealRead sampleContext.options 0 1 s = .ok (.literal 100 7) t' := by
  constructor
  · let s := stateAfterAll (Operation.exec sampleContext) {} isolatedOperations
    have hstate : s.body?.map (fun B => (B.graph.size, B.preds 1)) = some (2, []) ∧
        s.isSealed 1 = false ∧ s.defs.get? (0, 1) = none ∧ s.pending.get? 1 ≠ none ∧
        s.globalValue 0 = .result 1 := by decide +kernel
    have hs : Reached sampleContext s := Reached.new.all isolatedOperations
    generalize s = s at hstate hs
    obtain ⟨hblocks, hopen, hdefs, hwaiting, hglobal⟩ := hstate
    obtain ⟨B, hB, hblocks⟩ := Option.map_eq_some_iff.mp hblocks
    obtain ⟨hsize, hpreds⟩ := Prod.mk.inj hblocks
    have hlt : 1 < B.graph.size := hsize ▸ Nat.one_lt_two
    obtain ⟨hsealed, hread⟩ := (read_seal_orders hs rfl hB hlt hopen hdefs).1 hpreds
    exact ⟨s, B, hs, hB, hlt, hopen, hdefs, hwaiting, hpreds, hglobal ▸ hsealed, hread⟩
  · let o := sampleContext.options
    let s := stateAfterAll (Call.exec o) (stateAfter (beginFunction "f") {})
      (detourCalls [.addEdge 0 2, .write 0 0 (.literal 100 7)])
    have hbegin : beginFunction "f" {} = .ok 0 (stateAfter (beginFunction "f") {}) := rfl
    have hcourse : Course o (fun _ => True) (stateAfter (beginFunction "f") {}) s :=
      Course.all (by simp [detourCalls, Call.Lawful, Value.Below])
    have hstate : s.body?.map (fun B => (B.graph.size, (List.range 4).map B.preds)) =
          some (4, [[], [2], [0, 3, 3], [1, 2]]) ∧
        s.isSealed 1 = false ∧ s.defs.get? (0, 1) = none ∧ s.pending.get? 1 = none ∧
        (stateAfter (sealThenRead o 0 1) s).nextId ≠ s.nextId := by decide +kernel
    have hrun : (sealThenRead o 0 1).run' s = some (.literal 100 7) := by decide +kernel
    have hway : UnderWay sampleContext s := ⟨{}, _, "f", 0, .new, hbegin, hcourse⟩
    generalize s = s at hstate hrun hway
    obtain ⟨hblocks, hopen, hdefs, hquiet, hnext⟩ := hstate
    obtain ⟨B, hB, hblocks⟩ := Option.map_eq_some_iff.mp hblocks
    obtain ⟨hsize, hpreds⟩ := Prod.mk.inj hblocks
    obtain ⟨hzero, hone, htwo, hthree⟩ : B.preds 0 = [] ∧ B.preds 1 = [2] ∧
        B.preds 2 = [0, 3, 3] ∧ B.preds 3 = [1, 2] := by
      simpa [List.range_succ] using hpreds
    have hlt : 1 < B.graph.size := by omega
    -- only the open block has a single predecessor
    have hring : NoRing s B := by
      intro b hb
      obtain ⟨q, ⟨hsealed, hq⟩, _⟩ := Relation.TransGen.head'_iff.mp hb
      have hb : b < 4 := hsize ▸ Body.lt_size_of_mem_preds (q := q) (by simp [hq])
      obtain rfl | rfl | rfl | rfl : b = 0 ∨ b = 1 ∨ b = 2 ∨ b = 3 := by omega
      · simp [hzero] at hq
      · simp [hopen] at hsealed
      · simp [htwo] at hq
      · simp [hthree] at hq
    obtain ⟨t, hrun⟩ := run'_eq_some.mp hrun
    rw [stateAfter_of_ok hrun] at hnext
    have hold : s.Old (.literal 100 7) := ⟨by simp [Value.Below], by simp⟩
    exact ⟨s, B, t, hway, hB, hring, hlt, hopen, hdefs, hquiet, hone, hrun, hnext,
      ((read_seal_orders hway.reached rfl hB hlt hopen hdefs).2 hquiet _ t hrun).1 2 hone
        (Or.inr ⟨hway, hring, hold⟩)⟩

/-- The value has to be known.  If nothing leads to the way round, the sealed read finds nothing,
but the other order finds a PHI that was removed before the PHI of the block. -/
example :
    let s := stateAfterAll (Call.exec sampleContext.options) (stateAfter (beginFunction "f") {})
      (detourCalls [])
    (sealThenRead sampleContext.options 0 1).run' s = some .unknown ∧
      (readSealRead sampleContext.options 0 1).run' s = some (.result 2) := by
  decide +kernel

end Compiler16.Ssa
