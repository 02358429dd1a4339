import Compiler16.Proofs.Globals

/-!
# Values that were read stay valid

Whoever reads a variable keeps the value, and the construction goes on: blocks are sealed, PHIs get
their operands, and the one behind the value may be removed.  Then its instruction is a copy of the
value that took its place, and that may be the result of another PHI that is removed later.  A
second read answers with the first value, or with the one at the end of these copies.

What is written to variables has to make sense for this: a value has no number that is yet to be
drawn, and PHIs are not emitted by hand.  The calls may fail, and edges may be added anywhere.

## Main definitions

* `Builder.Forwards`: a removed PHI is a copy of a value
* `Builder.StandsFor`: a value that was handed out stands for another one
* `Call.Lawful`, `Course`: calls that make sense, and what they lead to

## Main results

* `GivesWay.standsFor`, `Since.change`: what one change does to values that were handed out
* `upholds_exec`, `Course.upholds`: what calls do to them
* `below_of_exec`: what calls answer makes sense as a value to write
* `read_stable`: two reads of a variable
-/

namespace Compiler16.Ssa

open Compiler16.Source Compiler16.Flow Compiler16.Ssa.Builder

variable {α : Type} {c : Context} {o : Options}

namespace Builder

variable {K : Nat → Prop} {D : Nat × Nat → Prop} {s s₀ t u : Builder} {B C : Body} {i : Inst}
  {k : Nat × Nat} {x b p q : Nat} {a v w : Value}

/-! ## Removed PHIs -/

/-- The value is the result of a removed PHI, which is a copy of the other one now. -/
def Forwards (s : Builder) (a w : Value) : Prop :=
  ∃ q B, a = .result q ∧ q ∈ s.removed ∧ s.body? = some B ∧ B.Copies q w

/-- The value that was handed out in `s` stands for `w` in `t`: it is the same value, or it was the
result of a PHI, and removed PHIs lead from it to the other one. -/
def StandsFor (s : Builder) (a : Value) (t : Builder) (w : Value) : Prop :=
  w = a ∨ ∃ q, a = .result q ∧ s.isPhi q = true ∧ Relation.TransGen t.Forwards a w

/-- Copies that are kept. -/
theorem Forwards.mono (h : s.Forwards a w) (hs : Coded s B) (ht : Coded t C)
    (hremoved : t.removed = s.removed) (hcopies : ∀ q w, B.Copies q w → C.Copies q w) :
    t.Forwards a w := by
  obtain ⟨q, B', ha, hq, hB', hcopy⟩ := h
  obtain rfl := Option.some.inj (hs.body.symm.trans hB')
  exact ⟨q, C, ha, hremoved ▸ hq, ht.body, hcopies q w hcopy⟩

theorem StandsFor.mono (h : s₀.StandsFor a s w) (hs : Coded s B) (ht : Coded t C)
    (hremoved : t.removed = s.removed) (hcopies : ∀ q w, B.Copies q w → C.Copies q w) :
    s₀.StandsFor a t w := by
  refine h.imp_right ?_
  rintro ⟨q, rfl, hq, hlead⟩
  exact ⟨q, rfl, hq, Relation.TransGen.mono
    (fun _ _ hstep => hstep.mono hs ht hremoved hcopies) _ _ hlead⟩

namespace GivesWay

/-- The PHI itself leads to the value from then on. -/
theorem forwards_self (h : GivesWay i v s B t) : t.Forwards (.result i.id) v := by
  refine ⟨i.id, _, rfl, ?_, h.after.body, h.copies_self⟩
  rw [h.removed]
  exact List.mem_append_right _ (List.mem_singleton_self _)

/-- What a removed PHI leads to is replaced with everything else, at once or by one more step. -/
theorem forwards (h : GivesWay i v s B t) (ha : s.Forwards a w) :
    Relation.TransGen t.Forwards a (Value.redirect i.id v w) := by
  obtain ⟨q, B', rfl, hq, hB', hcopy⟩ := ha
  obtain rfl := Option.some.inj (h.before.body.symm.trans hB')
  have hmem : q ∈ t.removed := by
    rw [h.removed]
    exact List.mem_append_left _ hq
  -- a copy of the PHI is changed only if it is noted as a user
  rcases h.copies hcopy with hsame | ⟨rfl, hnew⟩
  · have hstep : t.Forwards (.result q) w := ⟨q, _, rfl, hmem, h.after.body, hsame⟩
    by_cases hw : w = .result i.id
    · subst hw
      rw [Value.redirect_self]
      exact .tail (.single hstep) h.forwards_self
    · rw [Value.redirect_of_ne hw]
      exact .single hstep
  · rw [Value.redirect_self]
    exact .single ⟨q, _, rfl, hmem, h.after.body, hnew⟩

/-- A copy is no PHI, so the PHI that gives way is not among the removed ones. -/
theorem ne_of_forwards (h : GivesWay i v s B t) (ha : s.Forwards a w) : a ≠ .result i.id := by
  obtain ⟨q, B', rfl, _, hB', c, j, hj, hjq, hop, _⟩ := ha
  obtain rfl := Option.some.inj (h.before.body.symm.trans hB')
  intro heq
  obtain ⟨b, hi⟩ := h.mem
  obtain rfl := h.before.indexed.eq_of_id_eq hj hi (hjq.trans (Value.result.inj heq))
  exact absurd (hop.symm.trans h.phi) (by simp)

theorem leads (h : GivesWay i v s B t) (ha : Relation.TransGen s.Forwards a w) :
    Relation.TransGen t.Forwards a (Value.redirect i.id v w) := by
  induction ha with
  | single hstep => exact h.forwards hstep
  | tail _ hstep ih =>
    -- what leads on is a copy already, so nothing takes its place
    rw [Value.redirect_of_ne (h.ne_of_forwards hstep)] at ih
    exact ih.trans (h.forwards hstep)

/-- **A value stands for what takes the place of the PHI.** -/
theorem standsFor (h : GivesWay i v s B t) (hphi : s₀.isPhi i.id = true ∨ a ≠ .result i.id)
    (ha : s₀.StandsFor a s w) : s₀.StandsFor a t (Value.redirect i.id v w) := by
  rcases ha with rfl | ⟨q, rfl, hq, hlead⟩
  · by_cases hw : w = .result i.id
    · subst hw
      rw [Value.redirect_self]
      exact Or.inr ⟨i.id, rfl, hphi.resolve_right (not_not_intro rfl), .single h.forwards_self⟩
    · exact Or.inl (Value.redirect_of_ne hw)
  · exact Or.inr ⟨q, rfl, hq, h.leads hlead⟩

end GivesWay

/-! ## Changes -/

/-- A variable had the value `a` in `s`, and in `t` it has one that `a` stands for.  In between
numbers have been drawn for PHIs that came in. -/
structure Since (s : Builder) (k : Nat × Nat) (a : Value) (t : Builder) : Prop where
  nextId : s.nextId ≤ t.nextId
  below : a.Below s.nextId
  phis : ∀ q < s.nextId, t.isPhi q = true → s.isPhi q = true
  value : ∃ w, t.defs.get? k = some w ∧ s.StandsFor a t w

theorem Since.refl (hbelow : a.Below s.nextId) (hk : s.defs.get? k = some a) : Since s k a s :=
  ⟨le_rfl, hbelow, fun _ _ hq => hq, a, hk, Or.inl rfl⟩

/-- Instructions that are no PHIs may come in, and nothing happens to the others. -/
theorem Since.mono (h : Since s₀ k a s) (hs : Coded s B) (ht : Coded t C)
    (hnext : s.nextId ≤ t.nextId) (hremoved : t.removed = s.removed)
    (hdefs : t.defs.get? k = s.defs.get? k)
    (hphis : ∀ q < s.nextId, t.isPhi q = true → s.isPhi q = true)
    (hcopies : ∀ q w, B.Copies q w → C.Copies q w) : Since s₀ k a t := by
  obtain ⟨w, hw, hstands⟩ := h.value
  refine ⟨h.nextId.trans hnext, h.below, fun q hq hphi => ?_, w, hdefs.trans hw,
    hstands.mono hs ht hremoved hcopies⟩
  exact h.phis q hq (hphis q (lt_of_lt_of_le hq h.nextId) hphi)

theorem Coded.copies_addOperand (h : Coded s B) (hp : s.isPhi p = true) (hq : B.Copies q w) :
    (B.addOperand p v).2.Copies q w := by
  obtain ⟨d, k, hk, hkp, hkop⟩ := h.isPhi_iff.mp hp
  obtain ⟨f, hf, hmap⟩ := h.indexed.addOperand_eq hk hkp v
  obtain ⟨c, j, hj, rfl, hop, hoperands⟩ := hq
  obtain ⟨hid, _, hfop, _, _, hfoperands, _⟩ := hf j
  have hjp : j.id ≠ p := by
    intro hjp
    obtain rfl := h.indexed.eq_of_id_eq hj hk (hjp.trans hkp.symm)
    exact absurd (hop.symm.trans hkop) (by simp)
  rw [if_neg hjp] at hfoperands
  refine ⟨c, f j, ?_, hid, hfop.trans hop, hfoperands.trans hoperands⟩
  rw [hmap, Body.code_mapInsts]
  exact List.mem_map_of_mem hj

/-- A change keeps what was read, if it does not make another definition of it. -/
theorem Since.change (h : Since s₀ k a s) (hs : Coded s B) (hk : ¬ D k)
    (hstep : Change False K D s t) : Since s₀ k a t := by
  obtain ⟨C, hC⟩ := hstep.follows hs
  have hphis : ∀ q < s.nextId, t.isPhi q = true → s.isPhi q = true :=
    fun q hq hphi => (hstep.isPhi_of_isPhi hs hphi).resolve_right hq.ne
  have hmono := h.mono hs hC.coded hC.steady.nextId
  have hne : ∀ {l}, D l → l ≠ k := fun hD heq => hk (heq ▸ hD)
  -- a PHI that comes in changes no copy
  have hnewPhi : ∀ {b p u}, newPhi b s = .ok p u → u.body? = t.body? →
      ∀ q w, B.Copies q w → C.Copies q w := by
    rintro b p u hnew hbody q w ⟨c, j, hj, hcopy⟩
    have hf : Alters False K s B C fun i => i := alters_newPhi hs hnew (hbody.trans hC.coded.body)
    exact ⟨c, j, hf.image c j hj, hcopy⟩
  cases hstep with
  | draw =>
    obtain rfl := Option.some.inj (hs.body.symm.trans hC.coded.body)
    exact hmono rfl rfl hphis fun _ _ => id
  | phi hnew =>
    have hcopies := hnewPhi hnew rfl
    obtain ⟨_, fn, B', _, _, rfl⟩ := newPhi_eq_ok.mp hnew
    exact hmono rfl rfl hphis hcopies
  | @wait x b p u hD hopen hdefs hnew =>
    have hcopies := hnewPhi hnew rfl
    obtain ⟨rfl, fn, B', _, _, rfl⟩ := newPhi_eq_ok.mp hnew
    refine hmono rfl ?_ hphis hcopies
    exact (OrderedMap.get?_insert ..).trans (if_neg (hne hD))
  | define hD _ =>
    obtain rfl := Option.some.inj (hs.body.symm.trans hC.coded.body)
    refine hmono rfl ?_ hphis fun _ _ => id
    exact (OrderedMap.get?_insert ..).trans (if_neg (hne hD))
  | @operand p v t _ hp hrun =>
    -- only a PHI gets an operand, and copies are none
    obtain ⟨hphi, _, _⟩ := hp.resolve_left id
    obtain ⟨fn, _, hfn, hadd, rfl⟩ := changeBody_eq_ok.mp hrun
    cases hadd
    obtain rfl := hs.body_eq hfn
    obtain rfl : (fn.body.addOperand p v).2 = C := Option.some.inj hC.coded.body
    exact hmono rfl rfl hphis fun _ _ => hs.copies_addOperand hphi
  | @givesWay i v B' _ _ _ hgives =>
    obtain rfl := hgives.before.body_unique hs
    obtain ⟨w, hw, hstands⟩ := h.value
    refine ⟨h.nextId.trans hC.steady.nextId, h.below, fun q hq hphi => ?_,
      Value.redirect i.id v w, ?_, hgives.standsFor ?_ hstands⟩
    · exact h.phis q hq (hphis q (lt_of_lt_of_le hq h.nextId) hphi)
    · rw [hgives.get?_defs, hw, Option.map_some]
    · -- if it is the value that was handed out, it was a PHI already
      by_cases ha : a = .result i.id
      · exact Or.inl (h.phis i.id (h.below i.id ha) hgives.isPhi_self)
      · exact Or.inr ha

theorem Since.changes (h : Since s₀ k a s) (hs : Coded s B) (hk : ¬ D k)
    (hchanges : Changes False K D s t) : Since s₀ k a t := by
  induction hchanges with
  | refl => exact h
  | tail hrest hstep ih =>
    obtain ⟨C, hC⟩ := Changes.follows hrest hs
    exact ih.change hC.coded hk hstep

/-! ## Calls -/

/-- In the second state nothing uses the PHIs that wait, and values that had been handed out before
the first one are still good, if their variables are not among `D`. -/
def Upholds (D : Nat × Nat → Prop) (s t : Builder) : Prop :=
  ∃ C, Coded t C ∧ Aside t C ∧ ∀ s₀ k a, ¬ D k → Since s₀ k a s → Since s₀ k a t

theorem Upholds.refl (hs : Coded s B) (ha : Aside s B) : Upholds D s s :=
  ⟨B, hs, ha, fun _ _ _ _ h => h⟩

theorem Upholds.trans (h : Upholds D s t) (h' : Upholds D t u) : Upholds D s u := by
  obtain ⟨_, _, _, hsince⟩ := h
  obtain ⟨C, hC, ha, hsince'⟩ := h'
  exact ⟨C, hC, ha, fun s₀ k a hk h => hsince' s₀ k a hk (hsince s₀ k a hk h)⟩

/-- What is about PHIs stays as it is. -/
structure Spares (s t : Builder) : Prop where
  nextId : s.nextId ≤ t.nextId
  globalDefs : t.globalDefs = s.globalDefs
  pending : t.pending = s.pending
  sealedBlocks : t.sealedBlocks = s.sealedBlocks
  removed : t.removed = s.removed

/-- The instructions are the same, and definitions may be made. -/
theorem Spares.upholds (h : Spares s t) (hs : Coded s B) (ha : Aside s B) (ht : Coded t C)
    (hcode : ∀ c, C.code c = B.code c)
    (hdefs : ∀ k, t.defs.get? k = s.defs.get? k ∨
      D k ∧ ∃ v, t.defs.get? k = some v ∧ v.Below t.nextId) : Upholds D s t := by
  have hwaits : ∀ {x b p}, t.Waits x b p ↔ s.Waits x b p := waits_of_pending h.pending
  have hphi : ∀ {q}, t.isPhi q = true ↔ s.isPhi q = true := by
    intro q
    simp only [ht.isPhi_iff, hs.isPhi_iff, hcode]
  refine ⟨C, ht, ?_, fun s₀ k a hk hsince => ?_⟩
  · -- every field is about PHIs that wait, instructions or values, and all of these are as before
    refine ⟨fun x b p hw => ?_, fun c j hj u hu => ?_, fun x b p hw => ?_, fun x b p hw => ?_,
      fun x b p hw c j hj => ?_, fun x b y c p hx hy => ?_, fun b l hl => ?_, fun k v hv => ?_,
      fun x v hv => ?_, fun c j hj hop o ho => ?_⟩
    · obtain ⟨hopen, a, hdef⟩ := ha.guarded x b p (hwaits.mp hw)
      refine ⟨by rwa [isSealed, h.sealedBlocks], ?_⟩
      rcases hdefs (x, b) with hsame | ⟨_, v, hv, _⟩
      · exact ⟨a, hsame.trans hdef⟩
      · exact ⟨v, hv⟩
    · exact lt_of_lt_of_le (ha.users_lt c j (hcode c ▸ hj) u hu) h.nextId
    · exact lt_of_lt_of_le (ha.waits_lt x b p (hwaits.mp hw)) h.nextId
    · exact hphi.mpr (ha.waits_phi x b p (hwaits.mp hw))
    · exact ha.waits_users x b p (hwaits.mp hw) c j (hcode c ▸ hj)
    · exact ha.waits_once x b y c p (hwaits.mp hx) (hwaits.mp hy)
    · exact ha.waits_nodup b l (h.pending ▸ hl)
    · rcases hdefs k with hsame | ⟨_, w, hw, hbelow⟩
      · exact (ha.defs_below k v (hsame.symm.trans hv)).mono h.nextId
      · exact Option.some.inj (hw.symm.trans hv) ▸ hbelow
    · exact (ha.globals_below x v (h.globalDefs ▸ hv)).mono h.nextId
    · exact (ha.operands_below c j (hcode c ▸ hj) hop o ho).mono h.nextId
  · refine hsince.mono hs ht h.nextId h.removed ?_ (fun _ _ => hphi.mp) ?_
    · exact (hdefs k).resolve_right fun hD => hk hD.1
    · rintro q w ⟨c, j, hj, hcopy⟩
      exact ⟨c, j, hcode c ▸ hj, hcopy⟩

/-- The body is changed, but not the instructions. -/
theorem Coded.changeBody_upholds {f : Body → Except Error (α × Body)} (hs : Coded s B)
    (ha : Aside s B) (hsane : Leaves (Builder.changeBody f) s Sane)
    (hcode : ∀ {C a}, f B = .ok (a, C) → ∀ c, C.code c = B.code c) :
    Leaves (Builder.changeBody f) s (Upholds D s) := by
  cases hrun : Builder.changeBody f s with
  | error e t =>
    obtain rfl := eq_of_changeBody_error hrun
    exact .of_error hrun (.refl hs ha)
  | ok r t =>
    have ht := Ends.ok hsane hrun
    obtain ⟨fn, C, hfn, hf, rfl⟩ := changeBody_eq_ok.mp hrun
    obtain rfl := hs.body_eq hfn
    exact .of_ok hrun (Spares.upholds ⟨le_rfl, rfl, rfl, rfl, rfl⟩ hs ha (ht C rfl) (hcode hf)
      fun _ => Or.inl rfl)

/-- Numbers may be drawn, and something may happen outside the function. -/
theorem Coded.same_upholds (hs : Coded s B) (ha : Aside s B) (hbody : t.body? = s.body?)
    (hdefs : t.defs = s.defs) (h : Spares s t) : Upholds D s t :=
  h.upholds hs ha (hs.sane.same hbody h.nextId B (hbody.trans hs.body)) (fun _ => rfl)
    fun _ => Or.inl (hdefs ▸ rfl)

/-- An instruction comes in, and may be noted as a user of others. -/
theorem Coded.exists_append (hs : Coded s B) (hid : i.id = s.nextId)
    (happend : B.append i = .ok C) : ∃ f : Inst → Inst,
      (∀ j, (f j).id = j.id ∧ (f j).op = j.op ∧ (f j).operands = j.operands ∧
        ∀ u ∈ (f j).users, u ∈ j.users ∨ u = i.id) ∧
      ∀ d j, j ∈ C.code d ↔ ∃ l, (l ∈ B.code d ∨ d = i.block ∧ l = i) ∧ f l = j := by
  obtain ⟨_, _, _, f, hf, hoperands, hcode⟩ := hs.indexed.append_ok
    (fun b j hj => hid ▸ (hs.bound b j hj).ne) happend
  refine ⟨f, fun j => ⟨(hf j).id, (hf j).op, hoperands j, fun u hu => ?_⟩, fun d j => ?_⟩
  · rcases (hf j).users u hu with hu | hu | hu
    · exact Or.inl hu
    · exact (List.not_mem_nil hu).elim
    · exact Or.inr hu
  · rw [hcode, List.mem_map]
    refine exists_congr fun l => and_congr_left fun _ => ?_
    by_cases hd : d = i.block <;> simp [hd]

/-- An instruction that is no PHI comes in. -/
theorem Aside.append {fn : OpenFunction} (ha : Aside s B) (hs : Coded s B) (hid : i.id = s.nextId)
    (hop : i.op ≠ .phi) (husers : i.users = []) (happend : B.append i = .ok C)
    (ht : Coded { s with nextId := s.nextId + 1, opened := some { fn with body := C } } C) :
    Upholds D s { s with nextId := s.nextId + 1, opened := some { fn with body := C } } := by
  obtain ⟨f, hf, hcode⟩ := hs.exists_append hid happend
  -- what is used is used by what was there, or by the new instruction
  have huser : ∀ {d j u}, j ∈ C.code d → u ∈ j.users →
      u = s.nextId ∨ ∃ l ∈ B.code d, u ∈ l.users := by
    intro d j u hj hu
    obtain ⟨l, hl, rfl⟩ := (hcode d j).mp hj
    rcases (hf l).2.2.2 u hu with hu | hu
    · rcases hl with hl | ⟨_, rfl⟩
      · exact Or.inr ⟨l, hl, hu⟩
      · simp [husers] at hu
    · exact Or.inl (hu.trans hid)
  -- and PHIs are those that were there
  have hphi : ∀ {d j}, j ∈ C.code d → j.op = .phi → ∃ l ∈ B.code d, f l = j ∧ l.op = .phi := by
    intro d j hj hjop
    obtain ⟨l, hl, rfl⟩ := (hcode d j).mp hj
    rw [(hf l).2.1] at hjop
    rcases hl with hl | ⟨_, rfl⟩
    · exact ⟨l, hl, rfl, hjop⟩
    · exact absurd hjop hop
  have hle := Nat.le_succ s.nextId
  refine ⟨C, ht, ?_, fun s₀ k a _ hsince => hsince.mono hs ht hle rfl rfl (fun q _ hq => ?_) ?_⟩
  · refine ⟨ha.guarded, fun d j hj u hu => ?_, fun x b p hw => ?_, fun x b p hw => ?_,
      fun x b p hw d j hj hu => ?_, ha.waits_once, ha.waits_nodup,
      fun k v hv => (ha.defs_below k v hv).mono hle,
      fun x v hv => (ha.globals_below x v hv).mono hle, fun d j hj hjop o ho => ?_⟩
    · rcases huser hj hu with rfl | ⟨l, hl, hu⟩
      · exact Nat.lt_succ_self _
      · exact Nat.lt_succ_of_lt (ha.users_lt d l hl u hu)
    · exact Nat.lt_succ_of_lt (ha.waits_lt x b p hw)
    · obtain ⟨d, l, hl, rfl, hlop⟩ := hs.isPhi_iff.mp (ha.waits_phi x b p hw)
      exact ht.isPhi_iff.mpr
        ⟨d, f l, (hcode d _).mpr ⟨l, Or.inl hl, rfl⟩, (hf l).1, (hf l).2.1.trans hlop⟩
    · rcases huser hj hu with rfl | ⟨l, hl, hu⟩
      · exact lt_irrefl _ (ha.waits_lt x b _ hw)
      · exact ha.waits_users x b p hw d l hl hu
    · obtain ⟨l, hl, rfl, hlop⟩ := hphi hj hjop
      rw [(hf l).2.2.1] at ho
      exact (ha.operands_below d l hl hlop o ho).mono hle
  · obtain ⟨d, j, hj, rfl, hjop⟩ := ht.isPhi_iff.mp hq
    obtain ⟨l, hl, rfl, hlop⟩ := hphi hj hjop
    exact hs.isPhi_iff.mpr ⟨d, l, hl, (hf l).1.symm, hlop⟩
  · rintro q w ⟨d, j, hj, rfl, hjop, hoperands⟩
    exact ⟨d, f j, (hcode d _).mpr ⟨j, Or.inl hj, rfl⟩, (hf j).1, (hf j).2.1.trans hjop,
      (hf j).2.2.1.trans hoperands⟩

theorem Coded.emitInst_upholds {op : Op} (hs : Coded s B) (ha : Aside s B) (hop : op ≠ .phi)
    (operands : List Value) (callee : Option String) :
    Leaves (Builder.emitInst op operands callee) s (Upholds D s) := by
  refine Ends.get_bind (Ends.bind (Q := fun i t => i = s.nextId ∧
    t = { s with nextId := s.nextId + 1 }) (.of_ok rfl ⟨rfl, rfl⟩) ?_)
  rintro _ _ ⟨rfl, rfl⟩
  have hdraw : Spares s { s with nextId := s.nextId + 1 } := ⟨Nat.le_succ _, rfl, rfl, rfl, rfl⟩
  split
  · next b _ =>
    let i : Inst := { op, id := s.nextId, block := b, operands, callee }
    have hsane := hs.sane.append (i := i) rfl
    refine Leaves.bind (P := Upholds D s) ?_ fun _ _ => .pure
    cases hrun : Builder.append i { s with nextId := s.nextId + 1 } with
    | error e t =>
      obtain rfl := eq_of_changeBody_error hrun
      exact .of_error hrun (hs.same_upholds ha rfl rfl hdraw)
    | ok r t =>
      have ht := Ends.ok hsane hrun
      obtain ⟨fn, C, hfn, happend, rfl⟩ := append_eq_ok.mp hrun
      obtain rfl := hs.body_eq hfn
      exact .of_ok hrun (ha.append hs rfl hop rfl happend (ht C rfl))
  · exact .of_ok rfl (hs.same_upholds ha rfl rfl ⟨Nat.le_succ _, rfl, rfl, rfl, rfl⟩)

/-- A read is made of changes, and defines what was not defined. -/
theorem Coded.readVariable_upholds (hs : Coded s B) (ha : Aside s B) (o : Options) (x b : Nat) :
    Leaves (Builder.readVariable o x b) s (Upholds D s) := by
  have hchanges : ∀ {t}, Changes False (s.nextId ≤ ·) (Undefined s x) s t → Upholds D s t := by
    intro t ht
    obtain ⟨C, hC⟩ := ht.follows hs
    refine ⟨C, hC.coded, (ht.aside hs (Or.inr ha) hC.coded).resolve_left id, ?_⟩
    intro s₀ k a _ hsince
    refine hsince.changes hs (fun hk => ?_) ht
    obtain ⟨w, hw, _⟩ := hsince.value
    exact absurd (hk.2.symm.trans hw) (by simp)
  exact (hs.readVariable_changes o (Or.inr ha) x b).imp (fun _ _ ht => hchanges ht.1)
    fun _ _ => hchanges

/-- A block in which nothing waits is marked as sealed. -/
theorem Aside.markSealed (ha : Aside s B) (hb : ∀ x p, ¬ s.Waits x b p) :
    Aside { s with sealedBlocks := s.sealedBlocks ++ [b] } B := by
  refine ⟨fun x d p hw => ?_, ha.users_lt, ha.waits_lt, ha.waits_phi, ha.waits_users, ha.waits_once,
    ha.waits_nodup, ha.defs_below, ha.globals_below, ha.operands_below⟩
  obtain ⟨hopen, hdefs⟩ := ha.guarded x d p hw
  refine ⟨?_, hdefs⟩
  have hdb : d ≠ b := fun hdb => hb x p (hdb ▸ hw)
  simpa [isSealed, hdb] using hopen

/-- The state while a block is being sealed, and when it is marked. -/
theorem Coded.sealBlock_upholds (hs : Coded s B) (ha : Aside s B) (o : Options) (b : Nat) :
    Leaves (Builder.sealBlock o b) s (Upholds D s) := by
  cases hsealed : s.isSealed b with
  | true => exact .of_ok ((sealBlock_of_sealed hsealed).mpr rfl) (.refl hs ha)
  | false =>
    have h₀ := hs.erase b
    have hchanges : ∀ {t}, Changes False (fun _ => True) (UndefinedBeside s b)
        { s with pending := s.pending.erase b } t → Upholds D s t ∧ ∀ x p, ¬ t.Waits x b p := by
      intro t ht
      obtain ⟨C, hC⟩ := ht.follows h₀
      refine ⟨⟨C, hC.coded, (ht.aside h₀ (Or.inr (ha.erase b)) hC.coded).resolve_left id, ?_⟩, ?_⟩
      · -- what was read has a definition, and so is not defined again
        intro s₀ k a _ hsince
        obtain ⟨w, hw, hstands⟩ := hsince.value
        have hsince₀ : Since s₀ k a { s with pending := s.pending.erase b } :=
          hsince.mono hs h₀ le_rfl rfl rfl (fun _ _ hq => hq) fun _ _ hq => hq
        exact hsince₀.changes h₀ (fun hk => absurd (hk.2.symm.trans hw) (by simp)) ht
      · intro x p hw
        rcases ht.waits h₀ hw with hw | ⟨hD, _⟩
        · exact (waits_erase.mp hw).1 rfl
        · exact hD.1 rfl
    refine (hs.sealBlock_changes o ha.guarded (Or.inr ha) hsealed).imp ?_
      fun _ t ht => (hchanges ht).1
    rintro _ _ ⟨t, ht, rfl⟩
    -- the block is marked at the end, when nothing waits in it any more
    obtain ⟨⟨C, hC, haC, hsince⟩, hwaits⟩ := hchanges ht
    have hmarked : Coded { t with sealedBlocks := t.sealedBlocks ++ [b] } C :=
      ⟨hC.body, hC.indexed, hC.bound⟩
    refine ⟨C, hmarked, haC.markSealed hwaits, fun s₀ k a hk h => ?_⟩
    exact (hsince s₀ k a hk h).mono hC hmarked le_rfl rfl rfl (fun _ _ hq => hq) fun _ _ hq => hq

end Builder

variable {s s₀ s₁ s' t : Builder} {B : Body} {x b : Nat} {a : Value}

/-! ## Calls one after the other -/

/-- The call makes sense: PHIs are not emitted, and a value that is written has no number that is
yet to be drawn.  Values that the construction has handed out are like this. -/
def Call.Lawful (s : Builder) : Call → Prop
  | emit op _ _ => op ≠ .phi
  | write _ _ v => v.Below s.nextId
  | _ => True

/-- The variable that a call writes. -/
def Call.Writes (k : Nat × Nat) : Call → Prop
  | write x b _ => k = (x, b)
  | _ => False

/-- What calls with the property lead to, whether they succeed or not. -/
def Course (o : Options) (P : Call → Prop) : Builder → Builder → Prop :=
  Relation.ReflTransGen fun s t => ∃ k : Call, P k ∧ k.Lawful s ∧ stateAfter (k.exec o) s = t

/-- What one call does to values that were handed out. -/
theorem upholds_exec (hs : Coded s B) (ha : Aside s B) (k : Call) (hk : k.Lawful s) :
    Leaves (k.exec o) s (Upholds k.Writes s) := by
  have hsane := hs.sane
  cases k with
  | createBlock =>
    refine Leaves.bind (hs.changeBody_upholds ha hsane.createBlock fun hrun d => ?_)
      fun _ _ => .pure
    obtain ⟨_, rfl⟩ := Prod.ext_iff.mp (Except.ok.inj hrun)
    exact Body.code_createBlock _ _ d
  | addEdge p q =>
    have hadd := hsane.addEdge p q
    rw [Call.exec, addEdge_eq_changeBody]
    rw [addEdge_eq_changeBody] at hadd
    refine Leaves.bind (hs.changeBody_upholds ha hadd fun hrun => ?_) fun _ _ => .pure
    exact (Body.addEdge_ok (changed_eq_ok.mp hrun)).2.2.2.1
  | sealBlock b => exact (hs.sealBlock_upholds ha o b).bind fun _ _ => .pure
  | setCurrent b => exact .of_ok rfl (hs.same_upholds ha rfl rfl ⟨le_rfl, rfl, rfl, rfl, rfl⟩)
  | argument =>
    refine Ends.bind (Q := fun _ t => t = { s with nextId := s.nextId + 1 }) (.of_ok rfl rfl) ?_
    rintro n _ rfl
    have hdraw : Upholds (Call.Writes · .argument) s { s with nextId := s.nextId + 1 } :=
      hs.same_upholds ha rfl rfl ⟨Nat.le_succ _, rfl, rfl, rfl, rfl⟩
    have hdrawn := hs.draw.coded
    obtain ⟨C, hC, haC, _⟩ := id hdraw
    obtain rfl := hdrawn.body_unique hC
    have hadd := hdrawn.changeBody_upholds (D := (Call.Writes · .argument)) haC
      (hdrawn.sane.argument (.argument n)) fun hrun _ => by
        cases hrun
        rfl
    exact Leaves.bind (hadd.imp (fun _ _ => hdraw.trans) fun _ _ => hdraw.trans) fun _ _ => .pure
  | literal n => exact .of_ok rfl (hs.same_upholds ha rfl rfl ⟨Nat.le_succ _, rfl, rfl, rfl, rfl⟩)
  | emit op operands callee =>
    exact (hs.emitInst_upholds ha hk operands callee).bind fun _ _ => .pure
  | write x b v =>
    refine .of_ok rfl (Spares.upholds (C := B) ⟨le_rfl, rfl, rfl, rfl, rfl⟩ hs ha hs.remember.coded
      (fun _ => rfl) fun l => ?_)
    by_cases hl : (x, b) = l
    · exact Or.inr ⟨hl.symm, v, (OrderedMap.get?_insert ..).trans (if_pos hl), hk⟩
    · exact Or.inl ((OrderedMap.get?_insert ..).trans (if_neg hl))
  | read x b => exact (hs.readVariable_upholds ha o x b).bind fun _ _ => .pure

/-- An instruction that is emitted has a number that was drawn for it. -/
theorem emitInst_answer {op : Op} {operands : List Value} {callee : Option String}
    (hrun : emitInst op operands callee s = .ok a t) :
    a = .result s.nextId ∧ s.nextId < t.nextId := by
  cases hcur : s.current with
  | some b =>
    obtain ⟨rfl, happend⟩ := (emitInst_eq_ok hcur).mp hrun
    obtain ⟨_, _, _, _, rfl⟩ := append_eq_ok.mp happend
    exact ⟨rfl, Nat.lt_succ_self _⟩
  | none =>
    obtain ⟨_, _, hget, hrest⟩ := bind_eq_ok.mp hrun
    obtain ⟨rfl, rfl⟩ := get_eq_ok.mp hget
    obtain ⟨_, _, hfresh, hrest⟩ := bind_eq_ok.mp hrest
    obtain ⟨rfl, rfl⟩ := freshId_eq_ok.mp hfresh
    rw [hcur] at hrest
    cases hrest
    exact ⟨rfl, Nat.lt_succ_self _⟩

/-- **What a call answers may be written later on.** -/
theorem below_of_exec (hs : Coded s B) (ha : Aside s B) (k : Call)
    (hrun : k.exec o s = .ok (some a) t) : a.Below t.nextId := by
  cases k with
  | argument =>
    obtain ⟨_, _, _, hrest⟩ := bind_eq_ok.mp hrun
    obtain ⟨_, _, _, hpure⟩ := bind_eq_ok.mp hrest
    obtain ⟨heq, _⟩ := pure_eq_ok.mp hpure
    cases heq
    exact fun _ h => by cases h
  | literal n =>
    cases hrun
    exact fun _ h => by cases h
  | emit op operands callee =>
    obtain ⟨_, _, hemit, hpure⟩ := bind_eq_ok.mp hrun
    obtain ⟨heq, rfl⟩ := pure_eq_ok.mp hpure
    cases heq
    obtain ⟨rfl, hlt⟩ := emitInst_answer hemit
    exact fun _ h => Value.result.inj h ▸ hlt
  | read x b =>
    obtain ⟨_, _, hread, hpure⟩ := bind_eq_ok.mp hrun
    obtain ⟨heq, rfl⟩ := pure_eq_ok.mp hpure
    cases heq
    obtain ⟨C, _, haC, _⟩ := Ends.ok (hs.readVariable_upholds (D := fun _ => False) ha o x b) hread
    obtain ⟨_, hdef⟩ := Ends.ok (hs.readVariable_changes o (Or.inr (a := False) ha) x b) hread
    exact haC.defs_below _ _ hdef
  | _ =>
    -- the others have no answer
    obtain ⟨_, _, _, hpure⟩ := bind_eq_ok.mp hrun
    cases (pure_eq_ok.mp hpure).1

theorem Builder.Upholds.mono {D D' : Nat × Nat → Prop} (h : Upholds D s t) (hD : ∀ k, D k → D' k) :
    Upholds D' s t := by
  obtain ⟨C, hC, ha, hsince⟩ := h
  exact ⟨C, hC, ha, fun s₀ k a hk => hsince s₀ k a fun hDk => hk (hD k hDk)⟩

/-- What calls do to values that were handed out. -/
theorem Course.upholds {P : Call → Prop} (h : Course o P s t) (hs : Coded s B) (ha : Aside s B) :
    Upholds (fun l => ∃ k, P k ∧ k.Writes l) s t := by
  induction h with
  | refl => exact .refl hs ha
  | tail _ hstep ih =>
    obtain ⟨k, hP, hk, rfl⟩ := hstep
    obtain ⟨C, hC, haC, _⟩ := id ih
    have hcall := (upholds_exec (o := o) hC haC k hk).stateAfter
    exact ih.trans (hcall.mono fun l hl => ⟨k, hP, hl⟩)

/-- Where a variable has a definition, that is what a read finds. -/
theorem Builder.Coded.readVariable_eq (hs : Coded s B) (o : Options)
    (hdef : s.defs.get? (x, b) = some a) : readVariable o x b s = .ok a s := by
  have hdepth : s.readDepth ≠ 0 := by
    rw [readDepth, hs.body]
    exact Nat.mul_ne_zero (Nat.succ_ne_zero _) (Nat.succ_ne_zero _)
  obtain ⟨d, hd⟩ := Nat.exists_eq_succ_of_ne_zero hdepth
  refine bind_eq_ok.mpr ⟨s, s, rfl, ?_⟩
  rw [hd]
  exact readFrom_succ_eq_ok.mpr (.known hdef)

/-- A function that has just begun. -/
theorem Reached.exists_aside {name : String} {entry : Nat} (h : Reached c s₀)
    (hbegin : beginFunction name s₀ = .ok entry s₁) : ∃ B, Coded s₁ B ∧ Aside s₁ B := by
  obtain ⟨_, B, hsound, _, _, hcode, _, _, hs₁⟩ := Sound.begin hbegin
  have hwaits : ∀ {x b p}, ¬ s₁.Waits x b p := by
    rintro x b p ⟨l, hl, _⟩
    rw [hs₁] at hl
    cases hl
  have hnone : ∀ {d : Nat} {j : Inst}, j ∉ B.code d := fun hj => List.not_mem_nil (hcode _ ▸ hj)
  refine ⟨B, hsound.coded, fun _ _ _ hw => (hwaits hw).elim, fun _ _ hj => (hnone hj).elim,
    fun _ _ _ hw => (hwaits hw).elim, fun _ _ _ hw => (hwaits hw).elim,
    fun _ _ _ hw => (hwaits hw).elim, fun _ _ _ _ _ hw => (hwaits hw).elim, fun b l hl => ?_,
    fun k v hv => ?_, fun y v hv => ?_, fun _ _ hj => (hnone hj).elim⟩
  · rw [hs₁] at hl
    cases hl
  · rw [hs₁] at hv
    cases hv
  · have hglobals := ((globalsBelow_keptByCalls c.options).reached h).2
    rw [hs₁] at hv ⊢
    exact hglobals y v hv

/-- **Values that were read stay valid.**  Let a function be begun, and let calls follow that make
sense, whether they succeed or not.  If a variable is read, and not written there from then on, a
second read succeeds and changes nothing.  It answers with the first value; or that was the result
of a PHI, and PHIs that have been replaced by copies lead from it to the answer. -/
theorem read_stable {name : String} {entry : Nat} (h₀ : Reached c s₀)
    (hbegin : beginFunction name s₀ = .ok entry s₁)
    (hbefore : Course c.options (fun _ => True) s₁ s)
    (hread : readVariable c.options x b s = .ok a s')
    (hbetween : Course c.options (fun k => ¬ k.Writes (x, b)) s' t) :
    ∃ w, readVariable c.options x b t = .ok w t ∧ s'.StandsFor a t w := by
  obtain ⟨_, hs₁, ha₁⟩ := h₀.exists_aside hbegin
  -- the calls before the first read matter only for what waits and is used
  obtain ⟨_, hs, ha, _⟩ := hbefore.upholds hs₁ ha₁
  obtain ⟨C, hC, haC, _⟩ := Ends.ok
    (hs.readVariable_upholds (D := fun _ => False) ha c.options x b) hread
  obtain ⟨_, hdef⟩ := Ends.ok (hs.readVariable_changes c.options (Or.inr (a := False) ha) x b) hread
  -- from then on the answer is the definition, and is followed call by call
  obtain ⟨_, ht, _, hsince⟩ := hbetween.upholds hC haC
  have hkept := hsince s' (x, b) a (fun hwrites => ?_) (.refl (haC.defs_below _ _ hdef) hdef)
  · obtain ⟨w, hw, hstands⟩ := hkept.value
    exact ⟨w, ht.readVariable_eq c.options hw, hstands⟩
  · obtain ⟨k, hnot, hk⟩ := hwrites
    exact hnot hk

theorem Course.all {P : Call → Prop} {ks : List Call} (h : ∀ k ∈ ks, P k ∧ ∀ s, k.Lawful s) :
    Course o P s (stateAfterAll (Call.exec o) s ks) := by
  induction ks generalizing s with
  | nil => exact .refl
  | cons k ks ih =>
    obtain ⟨⟨hP, hk⟩, hks⟩ := List.forall_mem_cons.mp h
    exact (Relation.ReflTransGen.single ⟨k, hP, hk s, rfl⟩).trans (ih hks)

/-- Three blocks in a row, and a variable that is written in the first one. -/
def rowCalls : List Call :=
  [.createBlock, .createBlock, .addEdge 0 1, .addEdge 1 2, .write 0 0 (.literal 100 7)]

/-- In the last block of the row a PHI is read.  When the block is sealed, the PHI of the block
before it takes its place, and the value that was written takes the place of that one. -/
theorem read_stable_row : ∃ s₁ s s' t a w, beginFunction "f" {} = .ok 0 s₁ ∧
    Course sampleContext.options (fun _ => True) s₁ s ∧
    readVariable sampleContext.options 0 2 s = .ok a s' ∧
    Course sampleContext.options (fun k => ¬ k.Writes (0, 2)) s' t ∧
    readVariable sampleContext.options 0 2 t = .ok w t ∧ s'.StandsFor a t w ∧ w ≠ a := by
  let o := sampleContext.options
  let s := stateAfterAll (Call.exec o) (stateAfter (beginFunction "f") {}) rowCalls
  have hfirst : (readVariable o 0 2).run' s = some (.result 0) := by decide +kernel
  have hsecond : (readVariable o 0 2).run' (stateAfterAll (Call.exec o)
      (stateAfter (readVariable o 0 2) s) [.sealBlock 2, .sealBlock 1]) =
        some (.literal 100 7) := by decide +kernel
  have hbegin : beginFunction "f" {} = .ok 0 (stateAfter (beginFunction "f") {}) := rfl
  have hbefore : Course o (fun _ => True) (stateAfter (beginFunction "f") {}) s :=
    Course.all (by simp [rowCalls, Call.Lawful, Value.Below])
  generalize s = s at hfirst hsecond hbefore
  obtain ⟨s', hread⟩ := run'_eq_some.mp hfirst
  have hs' : stateAfter (readVariable o 0 2) s = s' := by rw [stateAfter, hread]
  rw [hs'] at hsecond
  have hbetween : Course o (fun k => ¬ k.Writes (0, 2)) s'
      (stateAfterAll (Call.exec o) s' [.sealBlock 2, .sealBlock 1]) :=
    Course.all (by simp [Call.Lawful, Call.Writes])
  obtain ⟨w, hagain, hstands⟩ := read_stable (c := sampleContext) .new hbegin hbefore hread hbetween
  refine ⟨_, s, s', _, _, w, hbegin, hbefore, hread, hbetween, hagain, hstands, ?_⟩
  obtain rfl := Option.some.inj ((run'_eq_some.mpr ⟨_, hagain⟩).symm.trans hsecond)
  simp

end Compiler16.Ssa
