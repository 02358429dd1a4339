import Compiler16.Proofs.Neat

/-!
# Reading in neat states

A read keeps a neat state neat, and so does sealing a block.

A removal may set off the removal of the very value that it hands over, and on graphs in
general it does.  On nested loops it does not: what a PHI of a block gives way to comes from an
earlier block, and the removals that it sets off stay in later ones.  For a PHI of an earlier
block that uses one of a later block is a PHI of the header of a loop around it, and there the
variable has a value before it is looked for in the loop.

## Main definitions

* `Covered`: the variable has a value at the headers of the loops around a block
* `NeatStep`: what a read does in a neat state
* `ReadsNeatly`: what is to be shown of a way to read

## Main results

* `NeatStep.later_of_uses`: removals stay in later blocks
* `Neat.completePhi`: completion of a PHI
* `readsNeatly_readFrom`, `readsNeatly_readVariable`: reads
* `Neat.sealBlock`: sealing
-/

namespace Compiler16.Ssa

open Compiler16.Flow

namespace Builder

variable {L L' L'' : Ledger} {busy busy' : Nat → Option Progress} {s s' s'' : Builder}
  {B B' B'' : Body} {W : Nat → Prop} {o : Options} {x y b p q P n m : Nat} {v : Value}

/-- Without removals any PHI may merge a single value. -/
def suspects (o : Options) : Nat → Prop := fun _ => o.removeTrivialPhis = false

/-! ## Loops around a block -/

/-- The variable has a value at the headers of the loops around the block. -/
def Covered (s : Builder) (B : Body) (x b : Nat) : Prop :=
  ∀ h, ∀ e ∈ B.preds h, h < b → b ≤ e → ∃ a, s.defs.get? (x, h) = some a

namespace Covered

theorem of_outside (h : Outside B.preds b) : Covered s B x b :=
  fun k e he hlt hle => absurd ⟨hlt, hle⟩ (h k e he)

theorem steady (h : Covered s B x b) (hs : Steady s B s' B') : Covered s' B' x b := by
  intro k e he hlt hle
  rw [hs.preds] at he
  obtain ⟨a, ha⟩ := h k e he hlt hle
  exact hs.defs _ a ha

/-- A loop around a predecessor goes around the block, or the block is its header. -/
theorem pred (h : Covered s B x b) (hshape : Shape L B) (hq : q ∈ B.preds b)
    (hb : q < b ∨ ∃ a, s.defs.get? (x, b) = some a) : Covered s B x q := by
  intro k e he hlt hle
  obtain ⟨hkb, hbe⟩ := hshape.nested.leaves k e he b q hq hlt hle
  rcases Nat.lt_or_eq_of_le hkb with hkb | rfl
  · exact h k e he hkb hbe
  · rcases hb with hqb | hdef
    · omega
    · exact hdef

end Covered

/-! ## Steps between neat states -/

/-- What a read does in a neat state: it removes only PHIs from `n` on, and the PHIs that it
creates are of variables that had no value in their blocks. -/
structure NeatStep (o : Options) (n : Nat) (busy : Nat → Option Progress) (L : Ledger) (s : Builder)
    (B : Body) (L' : Ledger) (s' : Builder) (B' : Body) : Prop where
  sound : Sound L' busy s' B'
  neat : Neat (suspects o) L' busy s' B'
  extended : Extended n L s B L' s' B'
  retires : Retires (fun d => n ≤ d ∧ (L'.phi d).isSome) s s'
  phis : ∀ p y c, s.nextId ≤ p → L'.phi p = some (y, c) →
    s.defs.get? (y, c) = none ∧ (2 ≤ (B.preds c).length ∨ s.isSealed c = false)

namespace NeatStep

/-- No PHI comes in. -/
theorem of_phi (h : Sound L busy' s B) (hs : Sound L' busy s' B')
    (hn : Neat (suspects o) L' busy s' B') (he : Extended n L s B L' s' B') (hphi : L'.phi = L.phi)
    (hr : Retires (fun d => n ≤ d ∧ (L'.phi d).isSome) s s') :
    NeatStep o n busy L s B L' s' B' := by
  refine ⟨hs, hn, he, hr, fun p y c hp hpc => ?_⟩
  rw [hphi] at hpc
  exact absurd (h.phi_lt hpc) (not_lt.mpr hp)

theorem refl (h : Sound L busy s B) (hn : Neat (suspects o) L busy s B) :
    NeatStep o n busy L s B L s B := of_phi h h hn .refl rfl .refl

theorem trans (h : NeatStep o n busy L s B L' s' B')
    (h' : NeatStep o m busy' L' s' B' L'' s'' B'') (hnm : n ≤ m) :
    NeatStep o n busy' L s B L'' s'' B'' := by
  refine ⟨h'.sound, h'.neat, h.extended.trans h'.extended hnm, ?_, fun p y c hp hpc => ?_⟩
  · refine (h.retires.mono fun d hd => ⟨hd.1, ?_⟩).trans
      (h'.retires.mono fun d hd => ⟨hnm.trans hd.1, hd.2⟩)
    obtain ⟨yc, hyc⟩ := Option.isSome_iff_exists.mp hd.2
    rw [h'.extended.phi d (h.sound.phi_lt hyc)]
    exact hd.2
  · rcases Nat.lt_or_ge p s'.nextId with hlt | hge
    · exact h.phis p y c hp ((h'.extended.phi p hlt).symm.trans hpc)
    · obtain ⟨hnone, hmerge⟩ := h'.phis p y c hge hpc
      rw [h.extended.steady.preds, h.extended.steady.isSealed] at hmerge
      refine ⟨Option.eq_none_iff_forall_ne_some.mpr fun a ha => ?_, hmerge⟩
      obtain ⟨a', ha'⟩ := h.extended.steady.defs _ a ha
      simp [hnone] at ha'

end NeatStep

/-- The PHI is one of the variable, in the block `P` or a later one. -/
def Later (L : Ledger) (x P u : Nat) : Prop := ∃ U, L.phi u = some (x, U) ∧ P ≤ U

/-- **Removals stay in later blocks.**  Let a PHI of the block `P` be the last one that was
created.  A younger PHI that uses one of a later block is in a later block itself. -/
theorem NeatStep.later_of_uses (h : NeatStep o n busy L s B L' s' B') (hshape : Shape L B)
    (hcov : Covered s B x P) (hp : L'.phi p = some (x, P)) (hlast : s.nextId = p + 1) {i j : Inst}
    {c : Nat} (hi : i ∈ B'.code b) (hj : j ∈ B'.code c) (hiop : i.op = .phi) (hjop : j.op = .phi)
    (huser : j.id ∈ i.users) (hge : p ≤ j.id) (hlater : Later L' x P i.id) : Later L' x P j.id := by
  obtain ⟨U, hU, hPU⟩ := hlater
  -- the later PHI is an operand, so it stands for the variable at the end of a predecessor
  have hnot := h.neat.not_removed_of_isPhi hi hiop
  obtain ⟨_, j', hj', hid, hmem⟩ := (h.neat.tracked.users b i hi hnot j.id).mp huser
  obtain rfl := h.sound.indexed.eq_of_id_eq hj' hj hid
  obtain ⟨y, hy⟩ := h.sound.phi_of_isPhi hj hjop
  obtain ⟨k, hk⟩ := List.getElem?_of_mem hmem
  obtain ⟨q, hq, hdef⟩ := h.neat.operand c j' hj hjop y hy k _ hk
  have hqc : q ∈ B'.preds c := List.mem_of_getElem? hq
  obtain ⟨rfl, hUq⟩ := le_of_atEnd (hshape.extended h.extended)
    (h.sound.unwritten hi hiop y) hU (h.sound.preds_lt c q hqc) (h.sound.defs_atEnd y q _ hdef)
  refine ⟨c, hy, ?_⟩
  -- in an earlier block it would be a PHI of the header of a loop around `P`
  by_contra hlt
  obtain ⟨a, ha⟩ := hcov c q (h.extended.steady.preds ▸ hqc) (not_le.mp hlt) (hPU.trans hUq)
  rcases Nat.eq_or_lt_of_le hge with hid | hgt
  · rw [← hid, hp] at hy
    cases hy
    exact hlt le_rfl
  · have := (h.phis j'.id x c (by omega) hy).1
    simp [ha] at this

/-! ## Completion of a PHI -/

/-- Whenever the read succeeds in a neat state, its result stands for the variable at the end
of the block, and is remembered there. -/
def ReadsNeatly (o : Options) (read : Nat → Build Value) (x : Nat) : Prop :=
  ∀ {L busy s s' B b v}, Sound L busy s B → Neat (suspects o) L busy s B → Shape L B →
    Readable L s x → Covered s B x b → b < B.graph.size → read b s = .ok v s' →
    ∃ L' B', NeatStep o s.nextId busy L s B L' s' B' ∧ L'.AtEnd x v B.preds b ∧
      s'.defs.get? (x, b) = some v

/-- A busy PHI gets the value that is remembered for the next predecessor. -/
theorem Neat.addOperand (h : Sound L busy s B) (hn : Neat W L busy s B) {m : Progress}
    (hbusy : busy p = some m) (hp : L.phi p = some (x, b)) (hq : (B.preds b)[m.filled]? = some q)
    (hdef : s.defs.get? (x, q) = some v) (m' : Progress) (fn : OpenFunction) :
    Neat W L (Function.update busy p (some m'))
      { s with opened := some { fn with body := (B.addOperand p v).2 } } (B.addOperand p v).2 := by
  obtain ⟨i, hi, hid, hop, _, _, _, hlen⟩ := h.filling_of_busy hbusy hp
  have hlive := hn.defs _ v hdef
  have htracked := hn.tracked.addOperand h.indexed hi hid fun d hd hvd => (hlive d hvd).2 hd
  obtain ⟨f, hf, hmap⟩ := h.indexed.addOperand_eq hi hid v
  rw [hmap] at htracked ⊢
  have hpreds : (B.mapInsts f).preds = B.preds := funext (Body.preds_mapInsts B f)
  have hother : ∀ j : Inst, j.id ≠ p → (f j).operands = j.operands := by
    intro j hj
    rw [(hf j).2.2.2.2.2.1, if_neg hj]
  refine { hn with tracked := htracked, uses_lt := ?_, removed := ?_, copied := ?_, operand := ?_,
                   origin := ?_, settled := ?_ }
  · rintro u d ⟨c, _, hmem, hju, ho⟩
    rw [Body.code_mapInsts] at hmem
    obtain ⟨j, hj, rfl⟩ := List.mem_map.mp hmem
    by_cases hjp : j.id = p
    · rw [(hf j).2.2.2.2.2.1, if_pos hjp] at ho
      rcases List.mem_append.mp ho with ho | ho
      · exact hn.uses_lt j.id d ⟨c, j, hj, rfl, ho⟩
      · exact (hlive d (List.mem_singleton.mp ho).symm).1
    · exact hn.uses_lt j.id d ⟨c, j, hj, rfl, hother j hjp ▸ ho⟩
  · intro d hd c _ hmem hjd
    rw [Body.code_mapInsts] at hmem
    obtain ⟨j, hj, rfl⟩ := List.mem_map.mp hmem
    rw [(hf j).2.2.1]
    exact hn.removed d hd c j hj ((hf j).1.symm.trans hjd)
  · intro c _ hmem hsome
    rw [Body.code_mapInsts] at hmem
    obtain ⟨j, hj, rfl⟩ := List.mem_map.mp hmem
    rw [(hf j).1] at hsome ⊢
    rw [(hf j).2.2.1]
    exact hn.copied c j hj hsome
  · intro c _ hmem hjop y hy k a ha
    rw [Body.code_mapInsts] at hmem
    obtain ⟨j, hj, rfl⟩ := List.mem_map.mp hmem
    rw [(hf j).2.2.1] at hjop
    rw [(hf j).1] at hy
    rw [hpreds]
    by_cases hjp : j.id = p
    · obtain rfl := h.indexed.eq_of_id_eq hj hi (hjp.trans hid.symm)
      rw [hid, hp] at hy
      cases hy
      rw [(hf j).2.2.2.2.2.1, if_pos hjp] at ha
      rcases Nat.lt_or_ge k j.operands.length with hk | hk
      · rw [List.getElem?_append_left hk] at ha
        exact hn.operand _ j hj hjop x (hid ▸ hp) k a ha
      · -- this is the new operand
        have hk' : k = m.filled := by
          have := (List.getElem?_eq_some_iff.mp ha).1
          rw [List.length_append, List.length_singleton] at this
          omega
        subst hk'
        rw [List.getElem?_append_right hk, hlen, Nat.sub_self] at ha
        cases ha
        exact ⟨q, hq, hdef⟩
    · exact hn.operand c j hj hjop y hy k a (hother j hjp ▸ ha)
  · intro y c a ha
    rcases hn.origin y c a ha with ⟨j, hj, hv, hsource⟩ | ⟨hc, hall⟩
    · refine Or.inl ⟨f j, ?_, hv.trans (congrArg _ (hf j).1.symm), ?_⟩
      · rw [Body.code_mapInsts]
        exact List.mem_map_of_mem hj
      · rwa [(hf j).1]
    · exact Or.inr ⟨hc, fun q hq => hall q (hpreds ▸ hq)⟩
  · intro c _ hmem hjop hb hw
    rw [Body.code_mapInsts] at hmem
    obtain ⟨j, hj, rfl⟩ := List.mem_map.mp hmem
    rw [(hf j).1] at hb hw ⊢
    have hjp : j.id ≠ p := by
      intro hjp
      rw [hjp, Function.update_self] at hb
      cases hb
    rw [Function.update_of_ne hjp] at hb
    rw [Inst.mergedValue?, Inst.result, hother j hjp, (hf j).1]
    exact hn.settled c j hj ((hf j).2.2.1 ▸ hjop) hb hw

/-- A PHI that is not busy any more may merge a single value. -/
theorem Neat.finish (hn : Neat W L busy s B) :
    Neat (fun q => W q ∨ q = p) L (Function.update busy p none) s B := by
  refine { hn with settled := fun b j hj hop hb hw => ?_ }
  by_cases hjp : j.id = p
  · exact Or.inl (Or.inr hjp)
  · rw [Function.update_of_ne hjp] at hb
    exact (hn.settled b j hj hop hb hw).imp_left Or.inl

/-- As `Filling`, between neat states. -/
def NeatFilling (o : Options) (n : Nat) (L : Ledger) (busy : Nat → Option Progress) (s : Builder)
    (B : Body) (p P : Nat) (l : List Nat) (u : Builder) : Prop :=
  ∃ L' B' m, NeatStep o n (Function.update busy p (some m)) L s B L' u B' ∧
    (B.preds P).drop m.filled = l ∧ m.filled ≤ (B.preds P).length

section Filling

variable {read : Nat → Build Value} (hread : ReadsNeatly o read x) (h : Sound L busy s B)
  (hn : Neat (suspects o) L busy s B) (hshape : Shape L B) (hr : Readable L s x)
  (hp : L.phi p = some (x, P)) (hnp : n ≤ p) (hcov : Covered s B x P)

include h hn in
theorem NeatFilling.start {l : Nat} (hbusy : busy p = some ⟨l, 0⟩) :
    NeatFilling o n L busy s B p P (B.preds P) s := by
  refine ⟨L, B, ⟨l, 0⟩, ?_, rfl, Nat.zero_le _⟩
  rw [← hbusy, Function.update_eq_self]
  exact .refl h hn

include hread h hshape hr hp hnp hcov in
theorem NeatFilling.round {rest : List Nat} {u u' : Builder}
    (hfill : NeatFilling o n L busy s B p P (q :: rest) u)
    (hround : fillRound read p q u = .ok () u') : NeatFilling o n L busy s B p P rest u' := by
  obtain ⟨L₁, B₁, m, hst, hdrop, hle⟩ := hfill
  simp only [fillRound, bind_eq_ok, changeBody_eq_ok] at hround
  obtain ⟨w, u₁, hw, fn, body, hfn, hok, rfl⟩ := hround
  cases hok
  have he := hst.extended
  have hlt : p < s.nextId := h.phi_lt hp
  have hp₁ : L₁.phi p = some (x, P) := (he.phi p hlt).trans hp
  have hq : (B.preds P)[m.filled]? = some q := by
    rw [← List.head?_drop, hdrop]
    rfl
  have hqP : q ∈ B₁.preds P := he.steady.preds ▸ List.mem_of_getElem? hq
  have hshape₁ := hshape.extended he
  obtain ⟨L₂, B₂, hst₁, hatEnd, hdef⟩ := hread hst.sound hst.neat hshape₁ (hr.extended he)
    ((hcov.steady he.steady).pred hshape₁ hqP (Or.inr (hst.sound.phi_defs p x P hp₁)))
    (hst.sound.preds_lt P q hqP) hw
  obtain ⟨fn', hfn', rfl⟩ := hst₁.sound.opened
  obtain rfl := Option.some.inj (hfn.symm.trans hfn')
  have hp₂ : L₂.phi p = some (x, P) :=
    (hst₁.extended.phi p (hlt.trans_le he.steady.nextId)).trans hp₁
  have hpreds : fn.body.preds = B.preds := hst₁.extended.steady.preds.trans he.steady.preds
  have hself : Function.update busy p (some m) p = some m := Function.update_self ..
  have hq₂ : (fn.body.preds P)[m.filled]? = some q := hpreds ▸ hq
  have hadd := hst₁.sound.addOperand hself hp₂ hq₂ (hst₁.extended.steady.preds ▸ hatEnd) fn
  have hneat := hst₁.neat.addOperand hst₁.sound hself hp₂ hq₂ hdef ⟨u₁.nextId, m.filled + 1⟩ fn
  rw [Function.update_idem] at hadd hneat
  refine ⟨L₂, (fn.body.addOperand p w).2, ⟨u₁.nextId, m.filled + 1⟩, ?_, ?_, ?_⟩
  · have hnu : n ≤ u.nextId := hnp.trans (hlt.le.trans he.steady.nextId)
    refine (hst.trans hst₁ hnu).trans (m := n) ?_ le_rfl
    exact .of_phi hst₁.sound hadd hneat (hst₁.sound.extended_addOperand hp₂ hnp hfn) rfl
      (.of_defs rfl fun _ _ hk => hk)
  · rw [← List.tail_drop, hdrop]
    rfl
  · exact (List.getElem?_eq_some_iff.mp hq).1

end Filling

/-- **Completing a PHI keeps a state neat.**  If the PHI was the last one that came in, and the
removals start from it, what is remembered in its place is the value that it gave way to. -/
theorem Neat.completePhi {read : Nat → Build Value} (hread : ReadsNeatly o read x)
    (h : Sound L busy s B) (hn : Neat (suspects o) L busy s B) (hshape : Shape L B)
    (hr : Readable L s x) (hp : L.phi p = some (x, P)) {l : Nat} (hbusy : busy p = some ⟨l, 0⟩)
    (hnp : n ≤ p) (hconf : Confined n (Function.update busy p none) B) (hcov : Covered s B x P)
    (hrun : Builder.completePhi o read p s = .ok v s') :
    ∃ L' B', NeatStep o n (Function.update busy p none) L s B L' s' B' ∧
      (v = .result p ∨ L'.Before x v B.preds P) ∧
      (s.nextId = p + 1 → n = p → s.defs.get? (x, P) = some (.result p) →
        s'.defs.get? (x, P) = some v) := by
  obtain ⟨C, t, hC, hrest⟩ := bind_eq_ok.mp hrun
  obtain ⟨rfl, rfl⟩ := h.getBody hC
  obtain ⟨_, t', hfill, hrest⟩ := bind_eq_ok.mp hrest
  rw [h.mergedBlocks hp] at hfill
  obtain ⟨L', B₁, m, hst, hdrop, hle⟩ := forM_invariant
    (fun _ _ _ _ => NeatFilling.round hread h hshape hr hp hnp hcov) _ _ _
      (NeatFilling.start h hn hbusy) hfill
  have he := hst.extended
  have hp' : L'.phi p = some (x, P) := (he.phi p (h.phi_lt hp)).trans hp
  have hself : Function.update busy p (some m) p = some m := Function.update_self ..
  obtain ⟨i, hi, hid, hop, hwait, _, _, _⟩ := hst.sound.filling_of_busy hself hp'
  have hm : m.filled = (B₁.preds P).length := by
    rw [he.steady.preds]
    exact le_antisymm hle (List.drop_eq_nil_iff.mp hdrop)
  have hsound := hst.sound.finish hself hp' hm
  have hneat := hst.neat.finish (p := p)
  rw [Function.update_idem] at hsound hneat
  -- the PHI is one still, so what is remembered as the PHI stays
  have hnot : p ∉ t'.removed := hid ▸ hst.neat.not_removed_of_isPhi hi hop
  have hdefs : t.defs.get? (x, P) = some (.result p) → t'.defs.get? (x, P) = some (.result p) := by
    intro hsp
    refine hst.retires.defs _ _ hsp fun d hd => ?_
    cases hd
    exact hnot
  split at hrest
  · obtain ⟨D, u, hD, hrem⟩ := bind_eq_ok.mp hrest
    obtain ⟨rfl, rfl⟩ := hsound.getBody hD
    have hconf' := hconf.of_oldUsers he.users
    let K : Nat → Prop := fun u => n ≤ u ∧ (L'.phi u).isSome ∧
      (t.nextId = p + 1 → n = p → Later L' x P u)
    have hK : Sticky K D := by
      intro b c i hi j hj hiop hKi hjop huser
      have hge := hconf'.users b i hi hKi.1 j.id huser
      obtain ⟨y, hy⟩ := hsound.phi_of_isPhi hj hjop
      refine ⟨hge, by rw [hy]; rfl, fun hlast hnp' => ?_⟩
      exact hst.later_of_uses hshape hcov hp' hlast hi hj hiop hjop huser (hnp' ▸ hge)
        (hKi.2.2 hlast hnp')
    have hKp : K p := ⟨hnp, by rw [hp']; rfl, fun _ _ => ⟨P, hp', le_rfl⟩⟩
    have hfree : Free n (Function.update busy p none) u p :=
      ⟨hnp, Function.update_self .., hst.sound.not_waits_of_busy hself⟩
    obtain ⟨B₂, hB₂, hv, hcl, hval⟩ := hneat.removeFrom _ hsound hconf' (hshape.extended he) hp'
      hfree hK hKp hrem
    refine ⟨L', B₂, hst.trans (m := n) ?_ le_rfl, he.steady.preds ▸ hv, fun hlast hnp' hsp => ?_⟩
    · refine .of_phi hst.sound hB₂.sound (hcl.neat.mono ?_) (.of_steady hB₂.steady hB₂.users) rfl
        (hcl.retires.mono fun d hd => ⟨hd.1, hd.2.1⟩)
      rintro q ⟨hq | hq, hne⟩
      · exact hq
      · exact absurd hq hne
    · rcases hval (hsound.isPhi_iff.mpr ⟨P, i, hi, hid, hop⟩) with
        ⟨rfl, rfl⟩ | ⟨hlive, hearlier, hmap⟩
      · exact hdefs hsp
      · -- the value is from an earlier block, so its removal was not set off
        refine hmap _ (hdefs hsp) fun d hd hmem => ?_
        rcases hcl.retires.only d hmem with hmem | hKd
        · exact (hlive d hd).2 hmem
        · obtain ⟨U, hU, hPU⟩ := hKd.2.2 hlast hnp'
          exact absurd (hearlier d x U hd hU) (not_lt.mpr hPU)
  · next hoff =>
    obtain ⟨rfl, rfl⟩ := pure_eq_ok.mp hrest
    refine ⟨L', B₁, hst.trans (m := n) ?_ le_rfl, Or.inl rfl, fun _ _ hsp => hdefs hsp⟩
    exact .of_phi hst.sound hsound (hneat.mono fun _ _ => Bool.eq_false_iff.mpr hoff)
      .refl rfl .refl

/-! ## Reads -/

/-- A PHI comes in, for the first value of its variable in the block. -/
theorem NeatStep.insertPhi (h : Sound L busy' s B) (hdefs : s.defs.get? (x, b) = none)
    (hmerge : 2 ≤ (B.preds b).length ∨ s.isSealed b = false)
    (hs : Sound (L.withPhi s.nextId x b) busy s' B')
    (hn : Neat (suspects o) (L.withPhi s.nextId x b) busy s' B')
    (he : Extended n L s B (L.withPhi s.nextId x b) s' B') (hremoved : s'.removed = s.removed)
    (hd : s'.defs = s.defs.insert (x, b) v) :
    NeatStep o n busy L s B (L.withPhi s.nextId x b) s' B' := by
  refine ⟨hs, hn, he, .of_defs hremoved fun k a ha => ?_, fun q y c hq hqc => ?_⟩
  · rw [hd]
    exact get?_insert_of_some hdefs ha
  · by_cases hqs : q = s.nextId
    · rw [hqs, Ledger.phi_withPhi_self] at hqc
      cases hqc
      exact ⟨hdefs, hmerge⟩
    · rw [Ledger.phi_withPhi_of_ne hqs] at hqc
      exact absurd (h.phi_lt hqc) (not_lt.mpr hq)

theorem NeatStep.insertBusy (h : Sound L busy s B) (hn : Neat (suspects o) L busy s B)
    (hdefs : s.defs.get? (x, b) = none) (hroot : ¬ L.root b) (hlen : 2 ≤ (B.preds b).length)
    (hnew : newPhi b s = .ok p s') :
    ∃ B', NeatStep o n (Function.update busy p (some ⟨0, 0⟩)) L s B (L.withPhi s.nextId x b)
      { s' with defs := s'.defs.insert (x, b) (.result p) } B' := by
  obtain ⟨B', hs, he⟩ := h.insertBusy (n := n) hdefs hroot hnew
  obtain ⟨rfl, fn, C, hfn, hB, rfl⟩ := newPhi_eq_ok.mp hnew
  obtain rfl : C = B' := hs.body? rfl
  obtain ⟨fn', hfn', rfl⟩ := h.opened
  obtain rfl := Option.some.inj (hfn.symm.trans hfn')
  refine ⟨C, .insertPhi h hdefs (Or.inl hlen) hs ?_ he rfl rfl⟩
  refine hn.insertPhi h hdefs hB rfl rfl rfl rfl rfl (fun _ _ _ hw => hw)
    (fun q hq => Function.update_of_ne hq ..) (Or.inl ?_)
  rw [Function.update_self]
  exact Option.some_ne_none _

theorem NeatStep.insertWaiting (h : Sound L busy s B) (hn : Neat (suspects o) L busy s B)
    (hdefs : s.defs.get? (x, b) = none) (hopen : s.isSealed b = false) (hroot : L.root b)
    (hnew : newPhi b s = .ok p s') (hpend : addPending b x p s' = .ok () s'') :
    ∃ B', NeatStep o n busy L s B (L.withPhi s.nextId x b)
      { s'' with defs := s''.defs.insert (x, b) (.result p) } B' := by
  obtain ⟨B', hs, he⟩ := h.insertWaiting (n := n) hdefs hopen hroot hnew hpend
  obtain ⟨rfl, fn, C, hfn, hB, rfl⟩ := newPhi_eq_ok.mp hnew
  rw [addPending, modify_eq_ok] at hpend
  subst hpend
  obtain rfl : C = B' := hs.body? rfl
  obtain ⟨fn', hfn', rfl⟩ := h.opened
  obtain rfl := Option.some.inj (hfn.symm.trans hfn')
  have hother := h.ne_of_pending hdefs
  refine ⟨C, .insertPhi h hdefs (Or.inr hopen) hs ?_ he rfl rfl⟩
  exact hn.insertPhi h hdefs hB rfl rfl rfl rfl rfl
    (fun _ _ _ hw => (waits_insertPending hother rfl).mpr (Or.inl hw)) (fun _ _ => rfl)
    (Or.inr ((waits_insertPending hother rfl).mpr (Or.inr ⟨rfl, rfl, rfl⟩)))

/-- What is remembered already is remembered again. -/
theorem NeatStep.rememberAgain (h : Sound L busy s B) (hn : Neat (suspects o) L busy s B)
    (hw : L.write x b = none) (hdefs : s.defs.get? (x, b) = some v) :
    NeatStep o n busy L s B L { s with defs := s.defs.insert (x, b) v } B := by
  refine .of_phi h (h.remember hw (h.defs_atEnd x b v hdefs)) (hn.rememberAgain hdefs)
    (.of_steady steady_remember .refl) rfl (.of_defs rfl fun k a ha => ?_)
  rw [OrderedMap.get?_insert]
  split
  · next hk => rw [← ha, ← hk, hdefs]
  · exact ha

/-- The value before the function is remembered. -/
theorem Neat.found (hn : Neat W L busy s B) : Neat W (L.found x b v) busy s B := { hn with }

/-- **Reading keeps a state neat.** -/
theorem readsNeatly_readFrom (o : Options) (x depth : Nat) :
    ReadsNeatly o (readFrom o x depth) x := by
  induction depth with
  | zero =>
    intro L busy s s' B b v _ _ _ _ _ _ hrun
    exact (fail_eq_ok.mp hrun).elim
  | succ depth ih =>
    intro L busy s s' B b v h hn hshape hr hcov hb hrun
    have hgrounded := hshape.grounded b hb
    cases readFrom_succ_eq_ok.mp hrun with
    | known hdefs => exact ⟨L, B, .refl h hn, h.defs_atEnd x b v hdefs, hdefs⟩
    | outside hdefs hsealed hB hpreds hv =>
      obtain rfl := h.body? hB
      subst hv
      obtain ⟨hs, ha⟩ := h.lookup hdefs hsealed hpreds hr.base
      have hneat : Neat (suspects o) L busy
          { s with defs := s.defs.insert (x, b) (s.globalValue x) } _ :=
        hn.remember hdefs (hn.globals x) (Or.inr hsealed) (by simp [hpreds])
      refine ⟨_, _, .of_phi h hs hneat.found (extended_found h hdefs) rfl ?_, ha, ?_⟩
      · exact .of_defs rfl fun k a ha => get?_insert_of_some hdefs ha
      · exact (OrderedMap.get?_insert ..).trans (if_pos rfl)
    | @single C q t hdefs hsealed hB hpreds hread =>
      obtain rfl := h.body? hB
      have hroot : ¬ L.root b := by
        intro hroot
        have := h.root_sealed b hroot hsealed
        rw [hpreds] at this
        cases this
      obtain ⟨q', hq', hlt⟩ := hgrounded.resolve_left hroot
      have hq : q ∈ C.preds b := hpreds ▸ List.mem_singleton_self q
      obtain rfl : q' = q := List.mem_singleton.mp (hpreds ▸ hq')
      obtain ⟨L', B', hst, hatEnd, hdef⟩ := ih h hn hshape hr
        (hcov.pred hshape hq (Or.inl hlt)) (h.preds_lt b _ hq) hread
      have he := hst.extended
      have hnone : L'.write x b = none := he.write ▸ h.write_none hdefs
      have hroot' : ¬ L'.root b := he.root ▸ hroot
      have ha : L'.AtEnd x v C.preds b := Ledger.AtEnd.of_single hatEnd hnone hroot' hpreds
      have hpreds' : B'.preds b = [q'] := by rw [he.steady.preds, hpreds]
      have hstep : NeatStep o s.nextId busy L' t B' L'
          { t with defs := t.defs.insert (x, b) v } B' := by
        cases hold : t.defs.get? (x, b) with
        | none =>
          refine .of_phi hst.sound (hst.sound.remember hnone (he.steady.preds ▸ ha)) ?_
            (.of_steady steady_remember .refl) rfl
            (.of_defs rfl fun k a => get?_insert_of_some hold)
          exact hst.neat.remember hold (hst.neat.defs _ v hdef) (Or.inl hroot')
            (by simpa [hpreds'] using hdef)
        | some a =>
          -- a PHI there would have merged several predecessors, so the value is from this one
          obtain rfl : a = v := by
            rcases hst.neat.origin x b a hold with ⟨j, _, _, hw | hphi⟩ | ⟨_, hall⟩
            · simp [hnone] at hw
            · rcases Nat.lt_or_ge j.id s.nextId with hlt | hge
              · obtain ⟨c, hc⟩ := h.phi_defs j.id x b ((he.phi j.id hlt).symm.trans hphi)
                simp [hdefs] at hc
              · have := (hst.phis j.id x b hge hphi).2
                simp [hpreds, hsealed] at this
            · exact Option.some.inj ((hall q' (by simp [hpreds'])).symm.trans hdef)
          exact .rememberAgain hst.sound hst.neat hnone hold
      exact ⟨L', B', hst.trans hstep le_rfl, ha, (OrderedMap.get?_insert ..).trans (if_pos rfl)⟩
    | @merged C p t₁ t₂ hdefs hsealed hB hlen hnew hcomp =>
      obtain rfl := h.body? hB
      have hroot : ¬ L.root b := by
        intro hroot
        have := h.root_sealed b hroot hsealed
        simp [this] at hlen
      obtain ⟨B₁, hst₁⟩ := NeatStep.insertBusy (n := s.nextId) h hn hdefs hroot hlen hnew
      obtain ⟨rfl, fn, _, _, _, rfl⟩ := newPhi_eq_ok.mp hnew
      have he₁ := hst₁.extended
      have hold : Function.update busy s.nextId none = busy := by
        rw [← h.busy_none_of_le le_rfl, Function.update_eq_self]
      have hconf : Confined s.nextId (Function.update
          (Function.update busy s.nextId (some ⟨0, 0⟩)) s.nextId none) B₁ := by
        rw [Function.update_idem, hold]
        exact h.confined.of_oldUsers he₁.users
      obtain ⟨L', B₂, hst₂, hv, hval⟩ := hst₁.neat.completePhi ih hst₁.sound (hshape.extended he₁)
        (hr.extended he₁) Ledger.phi_withPhi_self (Function.update_self ..) le_rfl hconf
        (hcov.steady he₁.steady) hcomp
      have hdef := hval rfl rfl ((OrderedMap.get?_insert ..).trans (if_pos rfl))
      rw [Function.update_idem, hold] at hst₂
      have hst := hst₁.trans hst₂ le_rfl
      have hnone : L'.write x b = none := hst.extended.write ▸ h.write_none hdefs
      have ha := hst.sound.defs_atEnd x b v hdef
      rw [hst.extended.steady.preds] at ha
      exact ⟨L', B₂, hst.trans (.rememberAgain hst.sound hst.neat hnone hdef) le_rfl, ha,
        (OrderedMap.get?_insert ..).trans (if_pos rfl)⟩
    | @waiting p t₁ t₂ hdefs hopen hnew hpend hv =>
      have hroot : L.root b := by
        rcases hr.root b hopen with hb | ⟨a, ha⟩
        · exact hb
        · simp [hdefs] at ha
      obtain ⟨B₁, hst⟩ := NeatStep.insertWaiting (n := s.nextId) h hn hdefs hopen hroot hnew hpend
      subst hv
      have hdef := (OrderedMap.get?_insert t₂.defs (x, b) (x, b) (Value.result p)).trans
        (if_pos rfl)
      have ha := hst.sound.defs_atEnd x b _ hdef
      rw [hst.extended.steady.preds] at ha
      exact ⟨_, B₁, hst, ha, hdef⟩

theorem readsNeatly_readVariable (o : Options) (x : Nat) : ReadsNeatly o (readVariable o x) x := by
  intro L busy s s' B b v h hn hshape hr hcov hb hrun
  obtain ⟨_, _, hget, hread⟩ := bind_eq_ok.mp hrun
  obtain ⟨rfl, rfl⟩ := get_eq_ok.mp hget
  exact readsNeatly_readFrom o x _ h hn hshape hr hcov hb hread

/-! ## Sealing -/

/-- The PHIs that wait in a block are taken up. -/
theorem Neat.beginSeal (hn : Neat W L idle s B) :
    Neat W (L.close b) (underway (s.waitingPhis b)) { s with pending := s.pending.erase b } B := by
  refine { hn with origin := fun x c v hv => ?_, settled := fun c j hj hop hb hw => ?_ }
  · refine (hn.origin x c v hv).imp_right fun h => ⟨h.1.imp_left fun hroot hclose => ?_, h.2⟩
    exact hroot hclose.1
  · refine hn.settled c j hj hop rfl fun x e hwait => ?_
    by_cases heb : e = b
    · subst heb
      rw [underway_of_mem (mem_waitingPhis.mpr hwait)] at hb
      cases hb
    · exact hw x e (waits_erase.mpr ⟨heb, hwait⟩)

/-- Once they are complete, the block counts as sealed. -/
theorem Neat.endSeal (hn : Neat W L busy s B) :
    Neat W L busy { s with sealedBlocks := s.sealedBlocks ++ [b] } B := by
  refine { hn with origin := fun x c v hv => ?_ }
  refine (hn.origin x c v hv).imp_right fun h => ⟨h.1.imp_right fun hsealed => ?_, h.2⟩
  simp only [isSealed, List.contains_eq_mem, decide_eq_true_eq] at hsealed ⊢
  exact List.mem_append_left _ hsealed

/-- As `Sealing`, between neat states. -/
def NeatSealing (o : Options) (L : Ledger) (s : Builder) (B : Body) (b : Nat) (l : List (Nat × Nat))
    (u : Builder) : Prop :=
  (∃ done, s.waitingPhis b = done ++ l) ∧ ∃ L' B', NeatStep o 0 (underway l) (L.close b)
    { s with pending := s.pending.erase b } B L' u B'

section Sealing

variable (h : Sound L idle s B) (hn : Neat (suspects o) L idle s B) (hopen : s.isSealed b = false)
  (hroots : ∀ c, s.isSealed c = false → L.root c)
  (hbase : ∀ x, L.Base s.nextId (s.globalValue x)) (hshape : Shape (L.close b) B)
  (hout : Outside B.preds b)

include h hn hopen hroots in
theorem NeatSealing.start :
    NeatSealing o L s B b (s.waitingPhis b) { s with pending := s.pending.erase b } :=
  ⟨⟨[], rfl⟩, _, B, .refl (h.beginSeal (hroots b hopen)) hn.beginSeal⟩

include h hroots hbase hshape hout in
theorem NeatSealing.round {rest : List (Nat × Nat)} {u u' : Builder}
    (hseal : NeatSealing o L s B b ((x, p) :: rest) u)
    (hround : Builder.completePhi o (readVariable o x) p u = .ok v u') :
    NeatSealing o L s B b rest u' := by
  obtain ⟨⟨done, hsplit⟩, L₁, B₁, hst⟩ := hseal
  refine ⟨⟨done ++ [(x, p)], by rw [hsplit]; simp⟩, ?_⟩
  have he := hst.extended
  have hw : s.Waits x b p :=
    mem_waitingPhis.mp (hsplit ▸ List.mem_append_right _ (List.mem_cons_self ..))
  have hp := h.waits_phi x b p hw
  have hp₁ : L₁.phi p = some (x, b) := (he.phi p (h.phi_lt hp)).trans hp
  have hrest := Sealing.underway_rest h hsplit
  have hconf : Confined 0 (Function.update (underway ((x, p) :: rest)) p none) B₁ := by
    rw [hrest]
    refine ⟨fun r m hm => ?_, fun _ _ _ _ _ _ => Nat.zero_le _⟩
    obtain ⟨rfl, _⟩ := exists_mem_of_underway hm
    exact le_rfl
  obtain ⟨L₂, B₂, hst₂, _⟩ := hst.neat.completePhi (readsNeatly_readVariable o x) hst.sound
    (hshape.extended he) ((Sealing.readable h hroots hbase hw).extended he) hp₁
    (underway_of_mem (List.mem_cons_self ..)) (Nat.zero_le _) hconf
    (.of_outside (he.steady.preds ▸ hout)) hround
  rw [hrest] at hst₂
  exact ⟨L₂, B₂, hst.trans hst₂ le_rfl⟩

include h hn hopen hroots hbase hshape hout in
/-- **Sealing a block outside of all loops keeps a state neat.** -/
theorem Neat.sealBlock (hrun : Builder.sealBlock o b s = .ok () s') :
    ∃ L' B' u, Sound L' idle s' B' ∧
      Extended 0 (L.close b) { s with pending := s.pending.erase b } B L' u B' ∧
      s' = { u with sealedBlocks := u.sealedBlocks ++ [b] } ∧
      Neat (suspects o) L' idle s' B' ∧ Retires (fun d => (L'.phi d).isSome) s s' := by
  obtain ⟨u, hloop, rfl⟩ := (sealBlock_eq_ok hopen).mp hrun
  have hdone : NeatSealing o L s B b [] u := by
    refine forM_invariant (fun e rest t t' ht hround => ?_) _ _ _
      (NeatSealing.start h hn hopen hroots) hloop
    obtain ⟨w, t₁, hcomp, hpure⟩ := bind_eq_ok.mp hround
    obtain ⟨_, rfl⟩ := pure_eq_ok.mp hpure
    exact NeatSealing.round h hroots hbase hshape hout ht hcomp
  obtain ⟨_, L', B', hst⟩ := hdone
  have hend : Sound L' idle u B' := hst.sound
  have hneat : Neat (suspects o) L' idle u B' := hst.neat
  refine ⟨L', B', u, hend.endSeal ?_, hst.extended, rfl, hneat.endSeal, ?_⟩
  · rw [hst.extended.root]
    exact fun hr => hr.2 rfl
  · exact ⟨hst.retires.removed, fun d hd => (hst.retires.only d hd).imp_right And.right,
      hst.retires.defs⟩

end Sealing

end Builder

end Compiler16.Ssa
