import Compiler16.Proofs.Outcome
import Mathlib.Data.List.Nodup

/-!
# Numbers

Instructions, arguments and literals take their numbers from one counter.  A register notes for
which value a number was drawn, and whether it is that of a global instruction.  While a program is
lowered, all values that come up are the ones noted under their numbers.  So no two of them share a
number, and neither do two instructions.

## Main definitions

* `Register`: for which value a number was drawn
* `Numbered`: the state agrees with the register
* `loweredBodies`: the bodies of all functions that were lowered
* `SingleAssignment`: numbers are unique, and instructions are found under theirs

## Main results

* `Watch.numbering_keptByLowering`: the calls of the lowering keep to the register
* `singleAssignment_of_run`: compiled programs are in single-assignment form
-/

namespace Compiler16.Ssa

open Compiler16.Source Compiler16.Flow Compiler16.Ssa.Builder

/-! ## Registers -/

/-- For which value a number was drawn, and whether it is the result of a global instruction. -/
def Register : Type := Nat → Option (Value × Bool)

namespace Register

/-- More numbers may have been drawn. -/
instance : Preorder Register where
  le ν ν' := ∀ n r, ν n = some r → ν' n = some r
  le_refl _ _ _ h := h
  le_trans _ _ _ h h' n r hn := h' n r (h n r hn)

variable {ν ν' : Register} {s s' : Builder} {B : Body} {n : Nat} {v w : Value} {first : Nat}
  {g : Bool} {i : Inst}

/-- A number is drawn for a value. -/
def draw (ν : Register) (n : Nat) (v : Value) (g : Bool) : Register :=
  fun m => if m = n then some (v, g) else ν m

theorem draw_self : ν.draw n v g n = some (v, g) := if_pos rfl

theorem le_draw (h : ν n = none) : ν ≤ ν.draw n v g := by
  intro m r hm
  have hne : m ≠ n := by
    rintro rfl
    rw [h] at hm
    cases hm
  exact (if_neg hne).trans hm

/-- The value is the one noted under its number. -/
def Drawn (ν : Register) (v : Value) : Prop := v = .unknown ∨ ∃ g, ν v.id = some (v, g)

theorem Drawn.mono (h : ν.Drawn v) (hν : ν ≤ ν') : ν'.Drawn v :=
  h.imp_right fun ⟨g, hg⟩ => ⟨g, hν _ _ hg⟩

/-- Values with the same number are the same. -/
theorem Drawn.eq_of_id_eq (hv : ν.Drawn v) (hw : ν.Drawn w) (hv' : v ≠ .unknown)
    (hw' : w ≠ .unknown) (hid : v.id = w.id) : v = w := by
  obtain ⟨g, hg⟩ := hv.resolve_left hv'
  obtain ⟨g', hg'⟩ := hw.resolve_left hw'
  rw [hid, hg'] at hg
  cases hg
  rfl

/-- The number of an instruction was drawn for its result, and its operands are noted. -/
structure Keeps (ν : Register) (g : Bool) (i : Inst) : Prop where
  id : ν i.id = some (.result i.id, g)
  operands : ∀ v ∈ i.operands, ν.Drawn v

theorem Keeps.mono (h : ν.Keeps g i) (hν : ν ≤ ν') : ν'.Keeps g i :=
  ⟨hν _ _ h.id, fun v hv => (h.operands v hv).mono hν⟩

theorem Keeps.result (h : ν.Keeps g i) : ν.Drawn i.result := Or.inr ⟨g, h.id⟩

/-- Its operands are other ones. -/
theorem Keeps.congr {j : Inst} (h : ν.Keeps g i) (hid : j.id = i.id)
    (hoperands : ∀ v ∈ j.operands, v ∈ i.operands ∨ ν.Drawn v) : ν.Keeps g j :=
  ⟨hid ▸ h.id, fun v hv => (hoperands v hv).elim (h.operands v) fun hv => hv⟩

/-- All numbers of a body were drawn for it, from `first` on. -/
structure Numbers (ν : Register) (first : Nat) (B : Body) : Prop where
  insts : ∀ b, ∀ i ∈ B.code b, first ≤ i.id ∧ ν.Keeps false i
  arguments : ∀ v ∈ B.arguments, first ≤ v.id ∧ ν.Drawn v ∧ v ≠ .unknown
  nodup : B.arguments.Nodup

theorem Numbers.mono (h : ν.Numbers first B) (hν : ν ≤ ν') : ν'.Numbers first B where
  insts b i hi := ⟨(h.insts b i hi).1, (h.insts b i hi).2.mono hν⟩
  arguments v hv := ⟨(h.arguments v hv).1, (h.arguments v hv).2.1.mono hν, (h.arguments v hv).2.2⟩
  nodup := h.nodup

/-- Each instruction is a new one, or one of before whose operands may be other ones. -/
theorem Numbers.congr {B' : Body} (h : ν.Numbers first B) (hargs : B'.arguments = B.arguments)
    (hcode : ∀ b, ∀ j ∈ B'.code b, (first ≤ j.id ∧ ν.Keeps false j) ∨
      ∃ i ∈ B.code b, j.id = i.id ∧ ∀ v ∈ j.operands, v ∈ i.operands ∨ ν.Drawn v) :
    ν.Numbers first B' where
  insts b j hj := by
    rcases hcode b j hj with hnew | ⟨i, hi, hid, hoperands⟩
    · exact hnew
    · obtain ⟨hfirst, hkeeps⟩ := h.insts b i hi
      exact ⟨hid ▸ hfirst, hkeeps.congr hid hoperands⟩
  arguments := hargs ▸ h.arguments
  nodup := hargs ▸ h.nodup

end Register

/-! ## States that agree with a register -/

/-- All values that come up are noted, and a function that is open has numbers from `first` on. -/
structure Numbered (first : Nat) (ν : Register) (s : Builder) : Prop where
  first_le : first ≤ s.nextId
  fresh : ∀ n, s.nextId ≤ n → ν n = none
  opened : ∀ B, s.body? = some B → ν.Numbers first B
  globals : ∀ i ∈ s.compiled.globals.insts, ν.Keeps true i
  globals_nodup : (s.compiled.globals.insts.map Inst.id).Nodup
  defs : ∀ k v, s.defs.get? k = some v → ν.Drawn v
  globalDefs : ∀ x v, s.globalDefs.get? x = some v → ν.Drawn v

namespace Numbered

variable {first n : Nat} {ν : Register} {s s' : Builder} {B B' : Body} {v : Value}

theorem lt_of_eq_some (h : Numbered first ν s) {r : Value × Bool} (hn : ν n = some r) :
    n < s.nextId := by
  by_contra hle
  rw [h.fresh n (not_lt.mp hle)] at hn
  cases hn

/-- A number is drawn. -/
theorem draw (h : Numbered first ν s) (v : Value) (g : Bool) :
    ν ≤ ν.draw s.nextId v g ∧
      Numbered first (ν.draw s.nextId v g) { s with nextId := s.nextId + 1 } := by
  have hle := Register.le_draw (v := v) (g := g) (h.fresh s.nextId le_rfl)
  refine ⟨hle, h.first_le.trans (Nat.le_succ _), fun n hn => ?_,
    fun B hB => (h.opened B hB).mono hle,
    fun i hi => (h.globals i hi).mono hle, h.globals_nodup, fun k v hv => (h.defs k v hv).mono hle,
    fun x v hv => (h.globalDefs x v hv).mono hle⟩
  have hne : n ≠ s.nextId := (Nat.lt_of_succ_le hn).ne'
  exact (if_neg hne).trans (h.fresh n (Nat.le_of_succ_le hn))

/-- The open function is changed, and what variables are. -/
theorem change (h : Numbered first ν s) (hnext : s'.nextId = s.nextId) (hbody : s'.body? = some B')
    (hB' : ν.Numbers first B') (hcompiled : s'.compiled = s.compiled)
    (hdefs : ∀ k v, s'.defs.get? k = some v → ν.Drawn v)
    (hglobalDefs : s'.globalDefs = s.globalDefs) : Numbered first ν s' where
  first_le := hnext ▸ h.first_le
  fresh := hnext ▸ h.fresh
  opened C hC := by
    obtain rfl := Option.some.inj (hbody.symm.trans hC)
    exact hB'
  globals := hcompiled ▸ h.globals
  globals_nodup := hcompiled ▸ h.globals_nodup
  defs := hdefs
  globalDefs := hglobalDefs ▸ h.globalDefs

/-- Nothing that is numbered is changed. -/
theorem same (h : Numbered first ν s) (hnext : s'.nextId = s.nextId) (hbody : s'.body? = s.body?)
    (hglobals : s'.compiled.globals = s.compiled.globals)
    (hdefs : ∀ k v, s'.defs.get? k = some v → ν.Drawn v)
    (hglobalDefs : ∀ x v, s'.globalDefs.get? x = some v → ν.Drawn v) : Numbered first ν s' where
  first_le := hnext ▸ h.first_le
  fresh := hnext ▸ h.fresh
  opened := hbody ▸ h.opened
  globals := hglobals ▸ h.globals
  globals_nodup := hglobals ▸ h.globals_nodup
  defs := hdefs
  globalDefs := hglobalDefs

/-- Where no function is open, the numbers of the next one can start anywhere. -/
theorem rebase {first' : Nat} (h : Numbered first ν s) (hopened : s.opened = none)
    (hfirst : first' ≤ s.nextId) : Numbered first' ν s :=
  { h with
    first_le := hfirst
    opened := fun B hB => by
      rw [body?, hopened] at hB
      cases hB }

theorem empty : Numbered 0 (fun _ => none) {} where
  first_le := le_rfl
  fresh _ _ := rfl
  opened B hB := by cases hB
  globals i hi := by cases hi
  globals_nodup := List.nodup_nil
  defs k v hv := by cases hv
  globalDefs x v hv := by cases hv

/-- What the open function is, as the body of the state. -/
theorem numbers {fn : OpenFunction} (h : Numbered first ν s) (hfn : s.opened = some fn) :
    ν.Numbers first fn.body :=
  h.opened fn.body (body?_of_opened hfn)

/-- A PHI comes in. -/
theorem insertPhi {fn : OpenFunction} {b : Nat} (h : Numbered first ν s) (hfn : s.opened = some fn)
    (hB' : fn.body.insertPhi { op := .phi, id := s.nextId, block := b } = .ok B') :
    ∃ ν', ν ≤ ν' ∧ Numbered first ν'
      { s with nextId := s.nextId + 1, opened := some { fn with body := B' } } ∧
      ν'.Drawn (.result s.nextId) := by
  obtain ⟨hle, hdrawn⟩ := h.draw (.result s.nextId) false
  have hold := hdrawn.numbers hfn
  have hnew : ν.draw s.nextId (.result s.nextId) false |>.Numbers first B' := by
    refine hold.congr (Body.insertPhi_ok hB').2.1.arguments fun k j hj => Or.inl ?_
    rcases (Body.mem_code_insertPhi hB').mp hj with ⟨_, rfl⟩ | hj
    · exact ⟨h.first_le, Register.draw_self, fun v hv => by cases hv⟩
    · exact hold.insts k j hj
  exact ⟨_, hle, hdrawn.change rfl rfl hnew rfl hdrawn.defs rfl, Or.inr ⟨false, Register.draw_self⟩⟩

/-- An instruction comes last in its block. -/
theorem append {fn : OpenFunction} {i : Inst} (h : Numbered first ν s) (hcoded : Coded s fn.body)
    (hfn : s.opened = some fn) (hid : i.id = s.nextId) (hoperands : ∀ v ∈ i.operands, ν.Drawn v)
    (hB' : fn.body.append i = .ok B') :
    ∃ ν', ν ≤ ν' ∧ Numbered first ν'
      { s with nextId := s.nextId + 1, opened := some { fn with body := B' } } ∧
      ν'.Drawn (.result i.id) := by
  obtain ⟨hle, hdrawn⟩ := h.draw (.result s.nextId) false
  have hold := hdrawn.numbers hfn
  obtain ⟨_, hframe, _, f, hf, hsame, hcode⟩ := hcoded.indexed.append_ok
    (fun b j hj => hid ▸ (hcoded.bound b j hj).ne) hB'
  have hnew : (ν.draw s.nextId (.result s.nextId) false).Keeps false i :=
    ⟨hid ▸ Register.draw_self, fun v hv => (hoperands v hv).mono hle⟩
  refine ⟨_, hle, hdrawn.change rfl rfl (hold.congr hframe.arguments fun k j hj => ?_) rfl
    hdrawn.defs rfl, hnew.result⟩
  rw [hcode] at hj
  obtain ⟨l, hl, rfl⟩ := List.mem_map.mp hj
  -- the instruction comes with new users, which have no part in this
  have hsame' : ∀ v ∈ (f l).operands, v ∈ l.operands := fun v hv => hsame l ▸ hv
  have hl' : l ∈ fn.body.code k ∨ l = i := by
    split at hl
    · exact (List.mem_append.mp hl).imp_right List.mem_singleton.mp
    · exact Or.inl hl
  rcases hl' with hl' | rfl
  · exact Or.inr ⟨l, hl', (hf l).id, fun v hv => Or.inl (hsame' v hv)⟩
  · exact Or.inl ⟨(hf l).id ▸ hid ▸ h.first_le,
      hnew.congr (hf l).id fun v hv => Or.inl (hsame' v hv)⟩

/-- An argument comes last. -/
theorem addArgument {fn : OpenFunction} (h : Numbered first ν s) (hfn : s.opened = some fn) :
    ∃ ν', ν ≤ ν' ∧ Numbered first ν'
      { s with
        nextId := s.nextId + 1
        opened := some { fn with body := fn.body.addArgument (.argument s.nextId) } } ∧
      ν'.Drawn (.argument s.nextId) := by
  obtain ⟨hle, hdrawn⟩ := h.draw (.argument s.nextId) false
  have hold := hdrawn.numbers hfn
  have hv : (ν.draw s.nextId (.argument s.nextId) false).Drawn (.argument s.nextId) :=
    Or.inr ⟨false, Register.draw_self⟩
  refine ⟨_, hle, hdrawn.change rfl rfl ⟨hold.insts, fun v hmem => ?_, ?_⟩ rfl hdrawn.defs rfl, hv⟩
  · rcases List.mem_append.mp hmem with hmem | hmem
    · exact hold.arguments v hmem
    · obtain rfl := List.mem_singleton.mp hmem
      exact ⟨h.first_le, hv, by simp⟩
  · refine List.nodup_append.mpr ⟨hold.nodup, List.nodup_singleton _, fun v hmem u hu => ?_⟩
    obtain rfl := List.mem_singleton.mp hu
    rintro rfl
    -- the number was not drawn before
    obtain ⟨_, hdrawn', hne⟩ := (h.numbers hfn).arguments _ hmem
    obtain ⟨g, hg⟩ := hdrawn'.resolve_left hne
    exact lt_irrefl _ (h.lt_of_eq_some hg)

/-- A global instruction comes last. -/
theorem insertGlobal {i : Inst} (h : Numbered first ν s) (hid : i.id = s.nextId)
    (hoperands : ∀ v ∈ i.operands, ν.Drawn v) :
    ∃ ν', ν ≤ ν' ∧ Numbered first ν'
      { s with nextId := s.nextId + 1, compiled := s.compiled.insertGlobal i } ∧
      ν'.Drawn (.result i.id) := by
  obtain ⟨hle, hdrawn⟩ := h.draw (.result s.nextId) true
  have hnew : (ν.draw s.nextId (.result s.nextId) true).Keeps true i :=
    ⟨hid ▸ Register.draw_self, fun v hv => (hoperands v hv).mono hle⟩
  refine ⟨_, hle, { hdrawn with globals := fun j hj => ?_, globals_nodup := ?_ }, hnew.result⟩
  · rcases List.mem_append.mp hj with hj | hj
    · exact hdrawn.globals j hj
    · obtain rfl := List.mem_singleton.mp hj
      exact hnew
  · show ((s.compiled.globals.insts ++ [i]).map Inst.id).Nodup
    rw [List.map_append, List.nodup_append]
    refine ⟨h.globals_nodup, List.nodup_singleton _, fun n hn m hm => ?_⟩
    -- the counter is above all numbers that were drawn
    obtain ⟨j, hj, rfl⟩ := List.mem_map.mp hn
    obtain rfl := List.mem_singleton.mp hm
    exact hid ▸ (h.lt_of_eq_some (h.globals j hj).id).ne

/-- A PHI gets an operand. -/
theorem addOperand {fn : OpenFunction} (h : Numbered first ν s) (hcoded : Coded s fn.body)
    (hv : ν.Drawn v) (p : Nat) :
    Numbered first ν { s with opened := some { fn with body := (fn.body.addOperand p v).2 } } := by
  have hold := h.opened _ hcoded.body
  obtain ⟨f, hf, hcode⟩ := hcoded.indexed.code_addOperand p v
  have hargs : (fn.body.addOperand p v).2.arguments = fn.body.arguments := by
    obtain ⟨_, _, hfollows⟩ := hcoded.addOperand p v
    exact hfollows.steady.frame.arguments
  refine h.change rfl rfl (hold.congr hargs fun k j hj => ?_) rfl h.defs rfl
  rw [hcode] at hj
  obtain ⟨l, hl, rfl⟩ := List.mem_map.mp hj
  obtain ⟨hid, _, hoperands⟩ := hf l
  refine Or.inr ⟨l, hl, hid, fun u hu => (hoperands u hu).imp_right ?_⟩
  rintro rfl
  exact hv

/-- A PHI that merges a single value is removed. -/
theorem forwardPhi {fn : OpenFunction} {i : Inst} {b : Nat} (h : Numbered first ν s)
    (hcoded : Coded s fn.body) (hi : i ∈ fn.body.code b) (hv : ν.Drawn v) :
    Numbered first ν
      (retire { s with opened := some { fn with body := fn.body.forwardPhi i v } } i.id v) := by
  obtain ⟨f, hmap, _, hf⟩ := hcoded.indexed.forwardPhi_map hi v
  have hold := h.opened _ hcoded.body
  have hargs : (fn.body.forwardPhi i v).arguments = fn.body.arguments := by rw [hmap]; rfl
  refine h.change rfl rfl (hold.congr hargs fun c j hj => ?_) rfl (fun k w hw => ?_) rfl
  · rw [hmap, Body.code_mapInsts] at hj
    obtain ⟨l, hl, rfl⟩ := List.mem_map.mp hj
    have hfl := hf l
    by_cases hid : l.id = i.id
    · -- this is the PHI, and the value is its only operand now
      rw [if_pos hid] at hfl
      refine Or.inr ⟨l, hl, hfl.id.trans hid.symm, fun w hw => Or.inr ?_⟩
      rw [hfl.operands] at hw
      obtain ⟨u, hu, rfl⟩ := List.mem_map.mp hw
      obtain rfl := List.mem_singleton.mp hu
      split <;> exact hv
    · -- elsewhere the value takes the place of the PHI among the operands
      rw [if_neg hid] at hfl
      refine Or.inr ⟨l, hl, hfl.id, fun w hw => ?_⟩
      rw [hfl.operands] at hw
      obtain ⟨u, hu, rfl⟩ := List.mem_map.mp hw
      split
      · exact Or.inr hv
      · exact Or.inl hu
  · have hget : (s.defs.mapValues fun u => if u = .result i.id then v else u).get? k = some w := hw
    rw [OrderedMap.get?_mapValues] at hget
    obtain ⟨u, hu, rfl⟩ := Option.map_eq_some_iff.mp hget
    split
    · exact hv
    · exact h.defs k u hu

end Numbered

/-- The one value that a PHI merges is unknown or one of its operands, and not the PHI itself. -/
theorem Inst.mem_of_mergedValue? {i : Inst} {v : Value} (h : i.mergedValue? = some v) :
    v = .unknown ∨ v ∈ i.operands ∧ v ≠ .result i.id := by
  unfold Inst.mergedValue? at h
  split at h
  · exact Or.inl (Option.some.inj h).symm
  · next w rest hcons =>
    split at h
    · cases h
      have hw : v ∈ i.operands.filter (· ≠ i.result) := hcons ▸ List.mem_cons_self ..
      exact Or.inr ⟨(List.mem_filter.mp hw).1, of_decide_eq_true (List.mem_filter.mp hw).2⟩
    · cases h

/-! ## Calls keep to the register -/

namespace Builder

/-- Numbers are watched. -/
def Watch.numbering (first : Nat) : Watch Register :=
  ⟨Numbered first, Register.Drawn, fun hν hv => hv.mono hν⟩

theorem Watch.numbering_keptByReads (first : Nat) (o : Options) :
    (Watch.numbering first).KeptByReads o where
  known h hk := h.defs _ _ hk
  outside {ν s} x h := by
    show ν.Drawn (s.globalValue x)
    unfold globalValue
    cases hx : s.globalDefs.get? x with
    | none => exact Or.inl rfl
    | some v => exact h.globalDefs x v hx
  newPhi _ h hrun := by
    obtain ⟨rfl, fn, B', hfn, hB', rfl⟩ := newPhi_eq_ok.mp hrun
    exact Numbered.insertPhi h hfn hB'
  remember {ν s v} k h hv := by
    refine Numbered.same h rfl rfl rfl (fun k' w hw => ?_) h.globalDefs
    rw [OrderedMap.get?_insert] at hw
    split at hw
    · cases hw
      exact hv
    · exact h.defs k' w hw
  pending _ h := Numbered.same h rfl rfl rfl h.defs h.globalDefs
  sealing _ h := Numbered.same h rfl rfl rfl h.defs h.globalDefs
  operand hcoded h hv hrun := by
    obtain ⟨fn, B', hfn, hB', rfl⟩ := changeBody_eq_ok.mp hrun
    cases hB'
    obtain rfl := hcoded.body_eq hfn
    exact Numbered.addOperand h hcoded hv _
  collapse {ν s B p v us s'} _ hcoded h hrun := by
    obtain ⟨w, hsame, hw⟩ | ⟨fn, b, w, _, rfl, i, hi, rfl, _, hmerged, hremove⟩ :=
      hcoded.collapse_cases p
    · cases hsame.symm.trans hrun
      refine ⟨h, fun hp => ?_⟩
      -- the answer is the PHI itself, or what it was replaced with before
      rcases hw with rfl | ⟨b, i, hi, hw⟩
      · exact hp
      · exact ((h.opened _ hcoded.body).insts b i hi).2.operands v hw
    · cases hremove.symm.trans hrun
      have hv : ν.Drawn v := by
        rcases Inst.mem_of_mergedValue? hmerged with rfl | ⟨hmem, _⟩
        · exact Or.inl rfl
        · exact ((h.opened _ hcoded.body).insts b i hi).2.operands v hmem
      exact ⟨Numbered.forwardPhi h hcoded hi hv, fun _ => hv⟩

theorem Watch.numbering_keptByLowering (first : Nat) (c : Context) :
    (Watch.numbering first).KeptByLowering c where
  toKeptByReads := Watch.numbering_keptByReads first c.options
  graph {ν s fn B} hfn h hcode _ hargs := by
    have hold := Numbered.numbers h hfn
    have hnew : ν.Numbers first B :=
      hold.congr hargs fun k j hj => Or.inl (hold.insts k j (hcode k ▸ hj))
    exact Numbered.change h rfl rfl hnew rfl h.defs rfl
  current _ h := Numbered.same h rfl rfl rfl h.defs h.globalDefs
  arrays _ h := Numbered.same h rfl rfl rfl h.defs h.globalDefs
  literal {ν s} n h := by
    obtain ⟨hle, hdrawn⟩ := Numbered.draw h (.literal s.nextId n) false
    exact ⟨_, hle, hdrawn, Or.inr ⟨false, Register.draw_self⟩⟩
  argument hfn h := Numbered.addArgument h hfn
  append hcoded h hid _ hoperands hrun := by
    obtain ⟨fn, B', hfn, hB', rfl⟩ := append_eq_ok.mp hrun
    obtain rfl := hcoded.body_eq hfn
    exact Numbered.append h hcoded hfn hid hoperands hB'
  global h hid hoperands := Numbered.insertGlobal h hid hoperands
  publish {ν s v} x h hv := by
    refine Numbered.same h rfl rfl rfl h.defs fun y w hw => ?_
    rw [OrderedMap.get?_insert] at hw
    split at hw
    · cases hw
      exact hv
    · exact h.globalDefs y w hw
  begin {ν s name entry s'} h hrun := by
    obtain ⟨_, B, _, _, hargs, hcode, _, _, rfl⟩ := Sound.begin hrun
    refine ⟨ν, le_rfl, Numbered.change h rfl rfl ⟨fun k j hj => ?_, fun v hv => ?_, ?_⟩ rfl
      (fun k v hv => ?_) rfl⟩
    · rw [hcode] at hj
      cases hj
    · rw [hargs] at hv
      cases hv
    · rw [hargs]
      exact List.nodup_nil
    · cases hv
  finish {ν s B s'} _ h hrun := by
    obtain ⟨fn, _, _, rfl⟩ := endFunction_eq_ok.mp hrun
    refine ⟨ν, le_rfl, { h with opened := fun C hC => ?_ }⟩
    cases hC

end Builder

/-! ## All functions of a program -/

/-- Numbers are unique among all blocks. -/
theorem Body.Indexed.nodup_insts {B : Body} (h : B.Indexed) : (B.insts.map Inst.id).Nodup := by
  unfold Body.insts Graph.insts
  rw [List.map_flatMap, List.nodup_flatMap]
  have hcode : ∀ k (hk : k < B.graph.blocks.length), B.code k = (B.graph.blocks[k]).insts :=
    fun k hk => Body.code_of_block? (List.getElem?_eq_getElem hk)
  refine ⟨fun block hblock => ?_, List.pairwise_iff_getElem.mpr fun k l hk hl hlt n hn hm => ?_⟩
  · obtain ⟨k, hk, rfl⟩ := List.getElem_of_mem hblock
    exact hcode k hk ▸ h.nodup k
  · obtain ⟨i, hi, rfl⟩ := List.mem_map.mp hn
    obtain ⟨j, hj, hij⟩ := List.mem_map.mp hm
    rw [← hcode k hk] at hi
    rw [← hcode l hl] at hj
    exact hlt.ne (h.block_unique hi hj hij.symm)

/-- The body that a declaration gives, if it declares a function. -/
def bodyOf (u : CompiledUnit) : Decl → List Body
  | .function d => (u.functions.get? d.name).toList
  | .var _ => []

/-- The declaration is that of a function. -/
def declaresFunction : Decl → Bool
  | .function _ => true
  | .var _ => false

/-- The bodies that the declarations of a program give, from a state on.  One for which another
function of the same name comes later is among them. -/
def loweredBodies (c : Context) : Program → Builder → List Body
  | [], _ => []
  | D :: p, s =>
    match Lowering.lowerDecl c D s with
    | .ok _ s' => bodyOf s'.compiled D ++ loweredBodies c p s'
    | .error _ _ => []

/-- All values of a program: arguments, operands and results. -/
def valuesIn (globals : List Inst) (bodies : List Body) : List Value :=
  bodies.flatMap Body.arguments ++
    (globals ++ bodies.flatMap Body.insts).flatMap fun i => i.result :: i.operands

/-- Numbers are unique, and instructions are found under theirs. -/
structure SingleAssignment (globals : List Inst) (bodies : List Body) : Prop where
  /-- No two instructions have the same number. -/
  insts : ((globals ++ bodies.flatMap Body.insts).map Inst.id).Nodup
  /-- No two arguments are the same. -/
  arguments : (bodies.flatMap Body.arguments).Nodup
  /-- Values with the same number are the same. -/
  values : ∀ v ∈ valuesIn globals bodies, ∀ w ∈ valuesIn globals bodies,
    v ≠ .unknown → w ≠ .unknown → v.id = w.id → v = w
  /-- An instruction names the block in which it is. -/
  block : ∀ B ∈ bodies, ∀ b, ∀ i ∈ B.code b, i.block = b
  /-- An instruction is found under its number, and nothing under other numbers. -/
  lookup : ∀ B ∈ bodies, ∀ n i, B.inst? n = some i ↔ i ∈ B.insts ∧ i.id = n

/-- The numbers of bodies were drawn for them, from `first` on. -/
structure Register.NumbersAll (ν : Register) (first : Nat) (bodies : List Body) : Prop where
  indexed : ∀ B ∈ bodies, B.Indexed
  numbers : ∀ B ∈ bodies, ν.Numbers first B
  insts : ((bodies.flatMap Body.insts).map Inst.id).Nodup
  arguments : (bodies.flatMap Body.arguments).Nodup

namespace Register

variable {ν ν' : Register} {first next : Nat} {B : Body} {bodies bodies' : List Body}

theorem Numbers.inst {i : Inst} (h : ν.Numbers first B) (hi : i ∈ B.insts) :
    first ≤ i.id ∧ ν.Keeps false i := by
  obtain ⟨b, hi⟩ := Body.mem_insts_iff.mp hi
  exact h.insts b i hi

theorem Numbers.of_le (h : ν.Numbers next B) (hle : first ≤ next) : ν.Numbers first B where
  insts b i hi := ⟨hle.trans (h.insts b i hi).1, (h.insts b i hi).2⟩
  arguments v hv := ⟨hle.trans (h.arguments v hv).1, (h.arguments v hv).2⟩
  nodup := h.nodup

namespace NumbersAll

theorem nil : ν.NumbersAll first [] := by
  refine ⟨fun B hB => ?_, fun B hB => ?_, List.nodup_nil, List.nodup_nil⟩
  · cases hB
  · cases hB

theorem singleton (hindexed : B.Indexed) (h : ν.Numbers first B) : ν.NumbersAll first [B] := by
  refine ⟨?_, ?_, ?_, ?_⟩
  · simpa using hindexed
  · simpa using h
  · simpa using hindexed.nodup_insts
  · simpa using h.nodup

theorem mono (h : ν.NumbersAll first bodies) (hν : ν ≤ ν') : ν'.NumbersAll first bodies :=
  { h with numbers := fun B hB => (h.numbers B hB).mono hν }

theorem inst (h : ν.NumbersAll first bodies) {i : Inst} (hi : i ∈ bodies.flatMap Body.insts) :
    first ≤ i.id ∧ ν.Keeps false i := by
  obtain ⟨B, hB, hi⟩ := List.mem_flatMap.mp hi
  exact (h.numbers B hB).inst hi

theorem argument (h : ν.NumbersAll first bodies) {v : Value}
    (hv : v ∈ bodies.flatMap Body.arguments) : first ≤ v.id ∧ ν.Drawn v ∧ v ≠ .unknown := by
  obtain ⟨B, hB, hv⟩ := List.mem_flatMap.mp hv
  exact (h.numbers B hB).arguments v hv

/-- Bodies whose numbers were all drawn before those of others. -/
theorem append {s : Builder} (h : ν.NumbersAll first bodies) (hs : Numbered s.nextId ν s)
    (hν : ν ≤ ν') (h' : ν'.NumbersAll s.nextId bodies') (hle : first ≤ s.nextId) :
    ν'.NumbersAll first (bodies ++ bodies') := by
  refine ⟨fun B hB => ?_, fun B hB => ?_, ?_, ?_⟩
  · exact (List.mem_append.mp hB).elim (h.indexed B) (h'.indexed B)
  · rcases List.mem_append.mp hB with hB | hB
    · exact (h.numbers B hB).mono hν
    · exact (h'.numbers B hB).of_le hle
  · rw [List.flatMap_append, List.map_append, List.nodup_append]
    refine ⟨h.insts, h'.insts, fun n hn m hm => ?_⟩
    -- the counter stands between the numbers of the ones and of the others
    obtain ⟨i, hi, rfl⟩ := List.mem_map.mp hn
    obtain ⟨j, hj, rfl⟩ := List.mem_map.mp hm
    exact (lt_of_lt_of_le (hs.lt_of_eq_some (h.inst hi).2.id) (h'.inst hj).1).ne
  · rw [List.flatMap_append, List.nodup_append]
    refine ⟨h.arguments, h'.arguments, fun v hv w hw hvw => ?_⟩
    obtain ⟨_, hdrawn, hne⟩ := h.argument hv
    obtain ⟨g, hg⟩ := hdrawn.resolve_left hne
    have hlt := lt_of_lt_of_le (hs.lt_of_eq_some hg) (h'.argument hw).1
    exact lt_irrefl _ (hvw ▸ hlt)

end NumbersAll

end Register

section Lowering

variable {c : Context} {s s' t : Builder} {ν : Register} {first : Nat}

/-- A function that was lowered stands under its name, and all others are the ones of before. -/
theorem exists_build_of_lowerFunction {d : FunctionDecl} (hs : s.Resting)
    (hrun : Lowering.lowerFunction c d s = .ok () s') :
    ∃ s₁ B, Lowering.buildFunction c d s = .ok () s₁ ∧ endFunction s₁ = .ok () s' ∧
      s₁.body? = some B ∧ s'.opened = none ∧ s'.nextId = s₁.nextId ∧
      ∀ name, s'.compiled.functions.get? name =
        if d.name = name then some B else s.compiled.functions.get? name := by
  obtain ⟨_, s₁, hbuild, hend⟩ := bind_eq_ok.mp hrun
  obtain ⟨S, rfl, hS⟩ := buildFunction_complete (Setting.free_fits (c := c) hs.globals)
    Setting.free_allows hbuild
  obtain ⟨fn, hfn, _, rfl⟩ := endFunction_eq_ok.mp hend
  obtain rfl := Option.some.inj (hS.name.symm.trans hfn)
  refine ⟨_, S.body, hbuild, hend, body?_of_opened hfn, rfl, rfl, fun name => ?_⟩
  show (S.state.compiled.functions.insert d.name S.body).get? name = _
  rw [IndexedMap.get?_insert, hS.compiled.1]

/-- A declaration gives a body with new numbers, or none. -/
theorem lowerDecl_numbered {D : Decl} (hs : s.Resting) (h : Numbered first ν s)
    (hrun : Lowering.lowerDecl c D s = .ok () s') :
    ∃ ν', ν ≤ ν' ∧ Numbered s'.nextId ν' s' ∧ s.nextId ≤ s'.nextId ∧
      ν'.NumbersAll s.nextId (bodyOf s'.compiled D) ∧
      (bodyOf s'.compiled D).length = (declaresFunction D).toNat ∧
      ∀ name B, s'.compiled.functions.get? name = some B →
        s.compiled.functions.get? name = some B ∨ B ∈ bodyOf s'.compiled D := by
  -- nothing is open, so numbers from the counter on can be asked of what comes next
  have hX := Watch.numbering_keptByLowering s.nextId c
  have hhere : (Watch.numbering s.nextId).Here none ν s :=
    ⟨hs.opened, hs.current, h.rebase hs.opened le_rfl⟩
  cases D with
  | function d =>
    obtain ⟨s₁, B, hbuild, hend, hbody, hopened, hnext, hget⟩ :=
      exists_build_of_lowerFunction hs hrun
    have hends := (hhere.buildFunction hX d).ends
    rw [Traced.result_buildFunction] at hends
    obtain ⟨_, ν', B', b, hν, hat⟩ := hends.ok hbuild
    obtain rfl := Option.some.inj (hbody.symm.trans hat.built.coded.body)
    obtain ⟨ν'', hν', hfinal⟩ := hX.finish hat.built.coded hat.holds hend
    have hbodies : bodyOf s'.compiled (.function d) = [B] := by
      show (s'.compiled.functions.get? d.name).toList = [B]
      rw [hget, if_pos rfl]
      rfl
    rw [hbodies]
    refine ⟨ν'', hν.trans hν', hfinal.rebase hopened le_rfl, hnext ▸ hat.holds.first_le, ?_, rfl,
      fun name C hC => ?_⟩
    · exact .singleton hat.built.coded.indexed ((hat.holds.opened _ hbody).mono hν')
    · -- under the name there is the new body, and under other names nothing has changed
      rw [hget] at hC
      split at hC
      · cases hC
        exact Or.inr (List.mem_singleton_self _)
      · exact Or.inl hC
  | var d =>
    have hdeclares := lowerVar_declares hs hrun
    have hends := (hhere.lowerVar hX d).ends
    rw [Traced.result_lowerVar] at hends
    obtain ⟨_, ν', hν, hopened, _, hfinal⟩ := hends.ok hrun
    refine ⟨ν', hν, hfinal.rebase hopened le_rfl, hdeclares.nextId, .nil, rfl,
      fun name B hB => Or.inl ?_⟩
    rwa [hdeclares.functions] at hB

/-- **Declarations one after the other.** -/
theorem lowerDecls_numbered {p : Program} : ∀ {s : Builder} {ν : Register} {first : Nat},
    s.Resting → Numbered first ν s → p.forM (Lowering.lowerDecl c) s = .ok () t →
    ∃ ν', ν ≤ ν' ∧ Numbered t.nextId ν' t ∧ ν'.NumbersAll s.nextId (loweredBodies c p s) ∧
      (loweredBodies c p s).length = p.countP declaresFunction ∧
      ∀ name B, t.compiled.functions.get? name = some B →
        s.compiled.functions.get? name = some B ∨ B ∈ loweredBodies c p s := by
  induction p with
  | nil =>
    intro s ν first hs h hrun
    obtain ⟨_, rfl⟩ := pure_eq_ok.mp hrun
    exact ⟨ν, le_rfl, h.rebase hs.opened le_rfl, .nil, rfl, fun name B hB => Or.inl hB⟩
  | cons D p ih =>
    intro s ν first hs h hrun
    rw [forM_cons, bind_eq_ok] at hrun
    obtain ⟨_, s₁, hdecl, hrest⟩ := hrun
    obtain ⟨ν₁, hν₁, h₁, hle, hfirst, hlength₁, hfunctions₁⟩ := lowerDecl_numbered hs h hdecl
    obtain ⟨ν₂, hν₂, h₂, hothers, hlength₂, hfunctions₂⟩ :=
      ih (lowerDecl_evolves hs hdecl).resting h₁ hrest
    have hbodies : loweredBodies c (D :: p) s =
        bodyOf s₁.compiled D ++ loweredBodies c p s₁ := by
      rw [loweredBodies, hdecl]
    rw [hbodies]
    refine ⟨ν₂, hν₁.trans hν₂, h₂, hfirst.append h₁ hν₂ hothers hle, ?_, fun name B hB => ?_⟩
    · rw [List.length_append, hlength₁, hlength₂, List.countP_cons]
      cases declaresFunction D <;> simp [Nat.add_comm]
    · -- a body that is there in the end comes from the rest, from this declaration or from before
      rcases hfunctions₂ name B hB with hB | hB
      · exact (hfunctions₁ name B hB).imp_right (List.mem_append_left _)
      · exact Or.inr (List.mem_append_right _ hB)

end Lowering

/-- **Compiled programs are in single-assignment form.**  There is a body for every declaration of a
function, and the compiled functions are among them. -/
theorem singleAssignment_of_run {c : Context} {p : Program} {s₀ s₁ : Builder} {u : CompiledUnit}
    (hrun : Lowering.run c p s₀ = .ok u s₁) :
    SingleAssignment u.globals.insts (loweredBodies c p {}) ∧
      (loweredBodies c p {}).length = p.countP declaresFunction ∧
      ∀ name B, u.functions.get? name = some B → B ∈ loweredBodies c p {} := by
  obtain ⟨t, hdecls, rfl, _⟩ := run_eq_ok.mp hrun
  obtain ⟨ν, _, ht, hbodies, hlength, hfunctions⟩ :=
    lowerDecls_numbered resting_empty .empty hdecls
  have hdrawn : ∀ v ∈ valuesIn t.compiled.globals.insts (loweredBodies c p {}), ν.Drawn v := by
    intro v hv
    rcases List.mem_append.mp hv with hv | hv
    · exact (hbodies.argument hv).2.1
    · obtain ⟨i, hi, hv⟩ := List.mem_flatMap.mp hv
      have hkeeps : ∃ g, ν.Keeps g i := by
        rcases List.mem_append.mp hi with hi | hi
        · exact ⟨true, ht.globals i hi⟩
        · exact ⟨false, (hbodies.inst hi).2⟩
      obtain ⟨g, hkeeps⟩ := hkeeps
      rcases List.mem_cons.mp hv with rfl | hv
      · exact hkeeps.result
      · exact hkeeps.operands v hv
  refine ⟨⟨?_, hbodies.arguments, fun v hv w hw => ?_, fun B hB => ?_, fun B hB n i => ?_⟩,
    hlength, ?_⟩
  · rw [List.map_append, List.nodup_append]
    refine ⟨ht.globals_nodup, hbodies.insts, fun n hn m hm hnm => ?_⟩
    obtain ⟨i, hi, rfl⟩ := List.mem_map.mp hn
    obtain ⟨j, hj, rfl⟩ := List.mem_map.mp hm
    -- one is global, the other is not
    have hi' := (ht.globals i hi).id
    rw [hnm, (hbodies.inst hj).2.id] at hi'
    cases hi'
  · exact (hdrawn v hv).eq_of_id_eq (hdrawn w hw)
  · exact (hbodies.indexed B hB).block_eq
  · rw [(hbodies.indexed B hB).inst?_eq_some_iff, Body.mem_insts_iff]
    exact exists_and_right
  · intro name B hB
    rcases hfunctions name B hB with hB | hB
    · cases hB
    · exact hB

/-- A variable and a function. -/
theorem singleAssignment_of_run_sum : ∃ u s, Lowering.run sampleContext sampleProgram {} = .ok u s ∧
    SingleAssignment u.globals.insts (loweredBodies sampleContext sampleProgram {}) ∧
    (loweredBodies sampleContext sampleProgram {}).length = 1 := by
  obtain ⟨u, s, _, hrun, _⟩ := sampleProgram_compiles
  have h := singleAssignment_of_run hrun
  exact ⟨u, s, hrun, h.1, h.2.1⟩

end Compiler16.Ssa
