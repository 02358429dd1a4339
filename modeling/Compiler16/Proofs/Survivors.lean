import Compiler16.Proofs.DefUse
import Compiler16.Proofs.Numbering
import Compiler16.Proofs.Termination

/-!
# What a removal answers

A PHI that is removed becomes a copy of the value that it merges, and the removal answers with that
value.  But the value is chosen before the removals that this one sets off, and one of those may
remove the very PHI whose result it is.  Then the answer is out of date: the copy has been changed
to what took the place of that PHI, and this is what a second removal answers.

It takes a cycle: the value is used by the removed PHI, and its PHI, through other PHIs, uses the
removed one.  In every other case a removal answers with the value that stands for the PHI from then
on, and in every case a second one changes nothing.

## Main definitions

* `Builder.GivesWay`: one PHI gives way to the value that it merges
* `Builder.Cascade`: PHIs give way one after the other
* `Body.Copies`: an instruction is a copy of a value
* `Body.Feeds`: a PHI uses the result of an instruction
* `Builder.Exact`: the notes about users are exact, and no removed PHI is left or used

## Main results

* `Builder.removeFrom_cascade`: a removal is a cascade of PHIs that use each other
* `Builder.Cascade.copies`: what becomes of a copy in a cascade
* `removal_repeated`: what two removals of a PHI answer
* `exists_removal_outdated`: they may answer differently
-/

namespace Compiler16.Ssa

open Compiler16.Source Compiler16.Flow Compiler16.Ssa.Builder

/-- The instruction numbered `p` is a copy of the value. -/
def Body.Copies (B : Body) (p : Nat) (v : Value) : Prop :=
  ∃ b, ∃ i ∈ B.code b, i.id = p ∧ i.op = .mov ∧ i.operands = [v]

/-- The instruction numbered `q` is a PHI, and noted as a user of `p`. -/
def Body.Feeds (B : Body) (p q : Nat) : Prop :=
  q ∈ B.users p ∧ B.isPhi q = true

namespace Builder

variable {K : Nat → Prop} {s s' t u : Builder} {B B' C : Body} {i : Inst} {p q : Nat} {v w : Value}

/-! ## One PHI gives way -/

/-- The PHI `i` merges a single value and gives way to it. -/
structure GivesWay (i : Inst) (v : Value) (s : Builder) (B : Body) (t : Builder) : Prop where
  before : Coded s B
  after : Coded t (B.forwardPhi i v)
  mem : ∃ b, i ∈ B.code b
  phi : i.op = .phi
  merged : i.mergedValue? = some v
  state : ∃ fn, s.opened = some fn ∧
    t = retire { s with opened := some { fn with body := B.forwardPhi i v } } i.id v

theorem Coded.body_unique (h : Coded s B) (h' : Coded s C) : B = C :=
  Option.some.inj (h.body.symm.trans h'.body)

theorem Coded.isPhi_iff (h : Coded s B) :
    s.isPhi p = true ↔ ∃ b, ∃ j ∈ B.code b, j.id = p ∧ j.op = .phi := by
  rw [Builder.isPhi, h.body, Option.any_some, h.indexed.isPhi_iff]

/-- An attempt to remove a PHI changes nothing, or the PHI gives way. -/
theorem Coded.collapse_givesWay (h : Coded s B) {us : List Nat}
    (hrun : Builder.collapse p s = .ok (v, us) t) :
    us = [] ∧ t = s ∧ (v = .result p ∨ ∃ b, ∃ i ∈ B.code b, v ∈ i.operands) ∨
      ∃ i, i.id = p ∧ us = i.users.filter (· ≠ i.id) ∧ GivesWay i v s B t := by
  obtain ⟨_, hsame, hv⟩ | ⟨fn, b, _, hfn, rfl, i, hi, rfl, hop, hmerged, hgone⟩ :=
    h.collapse_cases p
  · cases hsame.symm.trans hrun
    exact Or.inl ⟨rfl, rfl, hv⟩
  · obtain ⟨_, _, _, C, hrun', hC, _⟩ := h.collapse i.id
    cases hrun'.symm.trans hrun
    cases hgone.symm.trans hrun
    obtain rfl : fn.body.forwardPhi i v = C := Option.some.inj hC.coded.body
    exact Or.inr ⟨i, rfl, rfl, h, hC.coded, ⟨b, hi⟩, hop, hmerged, fn, hfn, rfl⟩

namespace GivesWay

theorem removed (h : GivesWay i v s B t) : t.removed = s.removed ++ [i.id] := by
  obtain ⟨_, _, rfl⟩ := h.state
  rfl

theorem isPhi_self (h : GivesWay i v s B t) : s.isPhi i.id = true := by
  obtain ⟨b, hi⟩ := h.mem
  exact h.before.isPhi_iff.mpr ⟨b, i, hi, rfl, h.phi⟩

/-- This PHI and no other becomes something else. -/
theorem isPhi_iff (h : GivesWay i v s B t) : t.isPhi q = true ↔ s.isPhi q = true ∧ q ≠ i.id := by
  obtain ⟨b, hi⟩ := h.mem
  obtain ⟨f, hmap, _, hf⟩ := h.before.indexed.forwardPhi_map hi v
  rw [h.after.isPhi_iff, h.before.isPhi_iff, hmap]
  simp only [Body.code_mapInsts, List.mem_map]
  constructor
  · rintro ⟨c, _, ⟨j, hj, rfl⟩, hid, hop⟩
    have hfj := hf j
    by_cases hji : j.id = i.id
    · rw [if_pos hji] at hfj
      exact absurd (hfj.op.symm.trans hop) (by simp [Body.copyOf])
    · rw [if_neg hji] at hfj
      obtain rfl := hfj.id.symm.trans hid
      exact ⟨⟨c, j, hj, rfl, hfj.op.symm.trans hop⟩, hji⟩
  · rintro ⟨⟨c, j, hj, rfl, hop⟩, hji⟩
    have hfj := hf j
    rw [if_neg hji] at hfj
    exact ⟨c, _, ⟨j, hj, rfl⟩, hfj.id, hfj.op.trans hop⟩

/-- It becomes a copy of the value. -/
theorem copies_self (h : GivesWay i v s B t) : (B.forwardPhi i v).Copies i.id v := by
  obtain ⟨b, hi⟩ := h.mem
  obtain ⟨f, hmap, _, hf⟩ := h.before.indexed.forwardPhi_map hi v
  have hfi := hf i
  rw [if_pos rfl] at hfi
  rw [hmap]
  refine ⟨b, f i, ?_, hfi.id, hfi.op, ?_⟩
  · rw [Body.code_mapInsts]
    exact List.mem_map_of_mem hi
  · rw [hfi.operands]
    simp [Body.copyOf]

/-- Another copy stays what it is, unless it is a copy of the PHI and noted as its user. -/
theorem copies (h : GivesWay i v s B t) (hp : B.Copies p w) :
    (B.forwardPhi i v).Copies p w ∨ w = .result i.id ∧ (B.forwardPhi i v).Copies p v := by
  obtain ⟨b, hi⟩ := h.mem
  obtain ⟨c, j, hj, rfl, hop, hoperands⟩ := hp
  obtain ⟨f, hmap, _, hf⟩ := h.before.indexed.forwardPhi_map hi v
  have hji : j.id ≠ i.id := by
    intro hji
    obtain rfl := h.before.indexed.eq_of_id_eq hj hi hji
    exact absurd (hop.symm.trans h.phi) (by simp)
  have hfj := hf j
  rw [if_neg hji] at hfj
  have hmem : f j ∈ (B.mapInsts f).code c := by
    rw [Body.code_mapInsts]
    exact List.mem_map_of_mem hj
  have hfo := hfj.operands
  rw [hoperands, List.map_singleton] at hfo
  rw [hmap]
  by_cases hw : j.id ∈ i.id :: i.users.filter (· ≠ i.id) ∧ w = .result i.id
  · rw [if_pos hw] at hfo
    exact Or.inr ⟨hw.2, c, f j, hmem, hfj.id, hfj.op.trans hop, hfo⟩
  · rw [if_neg hw] at hfo
    exact Or.inl ⟨c, f j, hmem, hfj.id, hfj.op.trans hop, hfo⟩

end GivesWay

/-! ## Cascades -/

/-- PHIs in `K` give way, one after the other. -/
def Cascade (K : Nat → Prop) : Builder → Builder → Prop :=
  Relation.ReflTransGen fun s t => ∃ i v B, K i.id ∧ GivesWay i v s B t

namespace Cascade

theorem coded (h : Cascade K s t) (hs : Coded s B) : ∃ C, Coded t C := by
  induction h with
  | refl => exact ⟨B, hs⟩
  | tail _ hstep _ =>
    obtain ⟨i, v, D, _, hgives⟩ := hstep
    exact ⟨_, hgives.after⟩

theorem isPhi_of_isPhi (h : Cascade K s t) (hq : t.isPhi q = true) : s.isPhi q = true := by
  induction h with
  | refl => exact hq
  | tail _ hstep ih =>
    obtain ⟨i, v, D, _, hgives⟩ := hstep
    exact ih (hgives.isPhi_iff.mp hq).1

/-- A PHI is still there at the end, or is one of those that were removed. -/
theorem isPhi_or_removed (h : Cascade K s t) (hq : s.isPhi q = true) :
    t.isPhi q = true ∨ K q ∧ q ∈ t.removed := by
  induction h with
  | refl => exact Or.inl hq
  | tail _ hstep ih =>
    obtain ⟨i, v, D, hK, hgives⟩ := hstep
    rw [hgives.removed, List.mem_append, List.mem_singleton]
    rcases ih with hphi | ⟨hKq, hmem⟩
    · by_cases hqi : q = i.id
      · exact Or.inr ⟨hqi ▸ hK, Or.inr hqi⟩
      · exact Or.inl (hgives.isPhi_iff.mpr ⟨hphi, hqi⟩)
    · exact Or.inr ⟨hKq, Or.inl hmem⟩

/-- The PHIs of the cascade still are the only ones that use each other. -/
theorem sticky (h : Cascade K s t) (hs : Coded s B) (hK : Sticky K B) (ht : Coded t C) :
    Sticky K C := by
  induction h generalizing C with
  | refl => exact hs.body_unique ht ▸ hK
  | tail hrest hstep ih =>
    obtain ⟨i, v, D, hKi, hgives⟩ := hstep
    obtain ⟨b, hi⟩ := hgives.mem
    rw [← hgives.after.body_unique ht]
    exact (ih hgives.before).forwardPhi hgives.before.indexed hi hgives.phi hKi

/-- **What becomes of a copy.**  It is a copy of the same value, or of another because the value was
the result of a PHI that has given way. -/
theorem copies (h : Cascade K s t) (hs : Coded s B) (hp : B.Copies p v) (ht : Coded t C) :
    ∃ w, C.Copies p w ∧
      (w = v ∨ ∃ q, v = .result q ∧ s.isPhi q = true ∧ ¬ t.isPhi q = true) := by
  induction h generalizing C with
  | refl => exact ⟨v, hs.body_unique ht ▸ hp, Or.inl rfl⟩
  | tail hrest hstep ih =>
    obtain ⟨i, x, D, _, hgives⟩ := hstep
    rw [← hgives.after.body_unique ht]
    obtain ⟨w, hw, hor⟩ := ih hgives.before
    -- what was removed before this step is not a PHI after it
    have hlater : (∃ q, v = .result q ∧ s.isPhi q = true ∧ ¬ Builder.isPhi _ q = true) →
        ∃ q, v = .result q ∧ s.isPhi q = true ∧ ¬ Builder.isPhi _ q = true :=
      fun ⟨q, hv, hq, hgone⟩ => ⟨q, hv, hq, fun hphi => hgone (hgives.isPhi_iff.mp hphi).1⟩
    rcases hgives.copies hw with hsame | ⟨hwi, hnew⟩
    · exact ⟨w, hsame, hor.imp_right hlater⟩
    · refine ⟨x, hnew, Or.inr ?_⟩
      rcases hor with rfl | hgone
      · refine ⟨i.id, hwi, isPhi_of_isPhi hrest hgives.isPhi_self, fun hphi => ?_⟩
        exact (hgives.isPhi_iff.mp hphi).2 rfl
      · exact hlater hgone

end Cascade

/-- An attempt to remove a PHI of `K` is a cascade of at most one step, and the PHIs to try next are
in `K`. -/
theorem Coded.collapse_cascade (h : Coded s B) (hsticky : Sticky K B) (hp : K p) {us : List Nat}
    (hrun : Builder.collapse p s = .ok (v, us) t) :
    Cascade K s t ∧ ∀ q ∈ us, s.isPhi q = true → K q := by
  obtain ⟨rfl, rfl, _⟩ | ⟨i, rfl, rfl, hgives⟩ := h.collapse_givesWay hrun
  · exact ⟨.refl, fun q hq => (List.not_mem_nil hq).elim⟩
  · refine ⟨.single ⟨i, v, B, hp, hgives⟩, fun q hq hphi => ?_⟩
    obtain ⟨b, hi⟩ := hgives.mem
    obtain ⟨c, j, hj, rfl, hop⟩ := h.isPhi_iff.mp hphi
    exact hsticky b c i hi j hj hgives.phi hp hop (List.mem_filter.mp hq).1

/-- **A removal is a cascade** of PHIs that use each other, after the first attempt, which gives the
answer. -/
theorem removeFrom_cascade (depth : Nat) : ∀ {p : Nat} {v : Value} {s s' : Builder} {B : Body},
    Coded s B → Sticky K B → K p → removeFrom depth p s = .ok v s' →
    ∃ us t, Builder.collapse p s = .ok (v, us) t ∧ Cascade K t s' := by
  induction depth with
  | zero => exact fun _ _ _ hrun => (fail_eq_ok.mp hrun).elim
  | succ depth ih =>
    intro p v s s' B h hsticky hp hrun
    simp only [Builder.removeFrom, bind_eq_ok, pure_eq_ok] at hrun
    obtain ⟨⟨w, us⟩, t, hcol, _, t', hloop, rfl, rfl⟩ := hrun
    obtain ⟨hfirst, hus⟩ := h.collapse_cascade hsticky hp hcol
    have key := forM_invariant (I := fun l u => (∀ q ∈ l, s.isPhi q = true → K q) ∧ Cascade K t u)
      ?_ us t t' ⟨hus, .refl⟩ hloop
    · exact ⟨us, t, hcol, key.2⟩
    · rintro q l u u' ⟨hl, hu⟩ hround
      refine ⟨fun r hr => hl r (List.mem_cons_of_mem _ hr), ?_⟩
      simp only [bind_eq_ok, get_eq_ok] at hround
      obtain ⟨_, _, ⟨rfl, rfl⟩, hround⟩ := hround
      split at hround
      · next hphi =>
        obtain ⟨_, u₁, hrem, hpure⟩ := bind_eq_ok.mp hround
        obtain ⟨_, rfl⟩ := pure_eq_ok.mp hpure
        -- what is a PHI now was one when the users were listed
        have hsu := hfirst.trans hu
        obtain ⟨D, hD⟩ := Cascade.coded hsu h
        have hsticky' := Cascade.sticky hsu h hsticky hD
        have hq := hl q (List.mem_cons_self ..) (Cascade.isPhi_of_isPhi hsu hphi)
        obtain ⟨_, _, hcol', hrest⟩ := ih hD hsticky' hq hrem
        exact hu.trans ((hD.collapse_cascade hsticky' hq hcol').1.trans hrest)
      · obtain ⟨_, rfl⟩ := pure_eq_ok.mp hround
        exact hu

/-- The same of a removal as a whole, which does not fail. -/
theorem Coded.removeTrivialPhi_cascade (h : Coded s B) (hsticky : Sticky K B) (hp : K p) :
    ∃ v us t s' C, Builder.removeTrivialPhi p s = .ok v s' ∧ Follows s B s' C ∧
      Builder.collapse p s = .ok (v, us) t ∧ Cascade K s t ∧ Cascade K t s' := by
  obtain ⟨v, s', C, hrun, hC⟩ := h.removeTrivialPhi p
  obtain ⟨_, _, hbody, hrem⟩ := bind_eq_ok.mp hrun
  cases h.getBody.symm.trans hbody
  obtain ⟨us, t, hcol, hrest⟩ := removeFrom_cascade _ h hsticky hp hrem
  exact ⟨v, us, t, s', C, hrun, hC, hcol, (h.collapse_cascade hsticky hp hcol).1, hrest⟩

/-! ## Two removals -/

/-- An attempt that changes nothing is all there is to a removal. -/
theorem Coded.removeTrivialPhi_of_collapse (h : Coded s B)
    (hcol : Builder.collapse p s = .ok (v, []) s) : Builder.removeTrivialPhi p s = .ok v s := by
  refine bind_eq_ok.mpr ⟨B, s, h.getBody, ?_⟩
  simp only [Builder.removeFrom, bind_eq_ok]
  exact ⟨_, s, hcol, (), s, rfl, rfl⟩

/-- The removal of what is a copy already answers with the value. -/
theorem Coded.removeTrivialPhi_of_copies (h : Coded s B) (hp : B.Copies p v) :
    Builder.removeTrivialPhi p s = .ok v s := by
  obtain ⟨b, i, hi, rfl, hop, hoperands⟩ := hp
  have hinst : B.inst? i.id = some i := h.indexed.inst?_eq_some_iff.mpr ⟨b, hi, rfl⟩
  refine h.removeTrivialPhi_of_collapse (bind_eq_ok.mpr ⟨B, s, h.getBody, ?_⟩)
  simp only [hinst, Inst.isPhi, hop, hoperands]
  rfl

/-- The users of users, as far as they are PHIs. -/
theorem Coded.sticky_feeds (h : Coded s B) (p : Nat) :
    Sticky (Relation.ReflTransGen B.Feeds p) B := by
  intro b c i hi j hj _ hp hop huser
  have hinst : B.inst? i.id = some i := h.indexed.inst?_eq_some_iff.mpr ⟨b, hi, rfl⟩
  refine hp.tail ⟨?_, h.indexed.isPhi_iff.mpr ⟨c, j, hj, rfl, hop⟩⟩
  rwa [Body.users, hinst]

/-- The value is the result of a PHI that was removed on the way from `s` to `s'`.  The PHI `p` uses
it, and the removed one, through PHIs, uses `p`. -/
def Outdated (s : Builder) (B : Body) (p : Nat) (v : Value) (s' : Builder) : Prop :=
  ∃ q, v = .result q ∧ s.isPhi q = true ∧ ¬ s'.isPhi q = true ∧ B.Uses p q ∧
    Relation.ReflTransGen B.Feeds p q

/-- **Two removals.**  The second one changes nothing, and answers with what the first one answered,
unless that is outdated. -/
theorem Coded.removal_cases (h : Coded s B) (p : Nat) :
    (∃ v, Builder.removeTrivialPhi p s = .ok v s ∧
      (v = .result p ∨ ∃ b, ∃ i ∈ B.code b, v ∈ i.operands)) ∨
    ∃ v w s' C, Builder.removeTrivialPhi p s = .ok v s' ∧
      Cascade (Relation.ReflTransGen B.Feeds p) s s' ∧ Coded s' C ∧ C.Copies p w ∧
      (w = v ∨ Outdated s B p v s') := by
  obtain ⟨v, us, t, s', C, hrun, hC, hcol, _, hrest⟩ :=
    h.removeTrivialPhi_cascade (h.sticky_feeds p) .refl
  obtain ⟨rfl, rfl, hv⟩ | ⟨i, rfl, rfl, hgives⟩ := h.collapse_givesWay hcol
  · exact Or.inl ⟨v, h.removeTrivialPhi_of_collapse hcol, hv⟩
  · -- the answer is fixed by now, and what follows can only change the copy
    obtain ⟨w, hw, hor⟩ := hrest.copies hgives.after hgives.copies_self hC.coded
    have hall := (Relation.ReflTransGen.single ⟨i, v, B, .refl, hgives⟩).trans hrest
    refine Or.inr ⟨v, w, s', C, hrun, hall, hC.coded, hw, hor.imp_right ?_⟩
    rintro ⟨q, rfl, hq, hgone⟩
    obtain ⟨b, hi⟩ := hgives.mem
    have hqs := (hgives.isPhi_iff.mp hq).1
    refine ⟨q, rfl, hqs, hgone, ⟨b, i, hi, rfl, ?_⟩, ?_⟩
    · exact ((Inst.mem_of_mergedValue? hgives.merged).resolve_left (by simp)).1
    · exact ((Cascade.isPhi_or_removed hall hqs).resolve_left hgone).1

/-- The second removal changes nothing. -/
theorem Coded.exists_removals (h : Coded s B) (p : Nat) :
    ∃ v w s', Builder.removeTrivialPhi p s = .ok v s' ∧
      Builder.removeTrivialPhi p s' = .ok w s' := by
  obtain ⟨v, hrun, _⟩ | ⟨v, w, s', C, hrun, _, hC, hw, _⟩ := h.removal_cases p
  · exact ⟨v, v, s, hrun, hrun⟩
  · exact ⟨v, w, s', hrun, hC.removeTrivialPhi_of_copies hw⟩

/-! ## Survivors -/

/-- The notes about users are exact, and no removed PHI is left or used. -/
structure Exact (s : Builder) (B : Body) : Prop where
  tracked : B.Tracked s.removed
  not_phi : ∀ b, ∀ i ∈ B.code b, i.id ∈ s.removed → i.op ≠ .phi

theorem GivesWay.exact (h : GivesWay i v s B t) (he : s.Exact B) : t.Exact (B.forwardPhi i v) := by
  obtain ⟨b, hi⟩ := h.mem
  have hvalue := Inst.mem_of_mergedValue? h.merged
  constructor
  · rw [h.removed]
    refine he.tracked.forwardPhi h.before.indexed hi (fun hmem => he.not_phi b i hi hmem h.phi)
      ?_ ?_ (eq_of_mergedValue? h.merged)
    · rcases hvalue with rfl | ⟨_, hne⟩
      · simp
      · exact hne
    · -- the value is an operand, and no operand is the result of a removed PHI
      rintro d hd rfl
      rcases hvalue with hv | ⟨hmem, _⟩
      · cases hv
      · exact he.tracked.unused i.id d hd ⟨b, i, hi, rfl, hmem⟩
  · intro c j hj hmem hop
    obtain ⟨hphi, hne⟩ := h.isPhi_iff.mp (h.after.isPhi_iff.mpr ⟨c, j, hj, rfl, hop⟩)
    obtain ⟨d, k, hk, hid, hkop⟩ := h.before.isPhi_iff.mp hphi
    rw [h.removed, List.mem_append, List.mem_singleton] at hmem
    exact he.not_phi d k hk (hid ▸ hmem.resolve_right hne) hkop

theorem Cascade.exact (h : Cascade K s t) (hs : Coded s B) (he : s.Exact B) (ht : Coded t C) :
    t.Exact C := by
  induction h generalizing C with
  | refl => exact hs.body_unique ht ▸ he
  | tail _ hstep ih =>
    obtain ⟨i, v, D, _, hgives⟩ := hstep
    rw [← hgives.after.body_unique ht]
    exact hgives.exact (ih hgives.before)

/-- An operand is not the result of a removed PHI. -/
theorem Exact.ne_of_mem (he : s.Exact B) {b : Nat} (hi : i ∈ B.code b) (hv : v ∈ i.operands) :
    ∀ q ∈ s.removed, v ≠ .result q := by
  rintro q hq rfl
  exact he.tracked.unused i.id q hq ⟨b, i, hi, rfl, hv⟩

end Builder

variable {c : Context} {s : Builder} {B : Body}

/-! ## A cycle of two PHIs -/

/-- Two blocks that lead to each other.  The first one is entered from outside, the second one also
leads to itself, and there a variable is read that is written outside. -/
def cycleOperations : List Operation :=
  [.begin "f", .call .createBlock, .call .createBlock, .call (.addEdge 0 1), .call (.addEdge 2 1),
    .call (.addEdge 1 2), .call (.addEdge 2 2), .call (.sealBlock 1), .call (.sealBlock 2),
    .call (.write 0 0 (.literal 100 7)), .call (.read 0 2)]

/-- The PHI of the second block merges that of the first one and itself, and the other merges it and
the value from outside. -/
def cyclePhis : List Inst :=
  [{ op := .phi, id := 1, block := 1, operands := [.literal 100 7, .result 0], users := [0] },
    { op := .phi, id := 0, block := 2, operands := [.result 1, .result 0], users := [1, 0] }]

theorem exact_cyclePhis (hinsts : B.insts = cyclePhis) (hremoved : s.removed = []) : s.Exact B := by
  have hmem : ∀ {b i}, i ∈ B.code b → i ∈ cyclePhis :=
    fun hi => hinsts ▸ Body.mem_insts_iff.mpr ⟨_, hi⟩
  have huses : ∀ u d, B.Uses u d ↔ ∃ i ∈ cyclePhis, i.id = u ∧ .result d ∈ i.operands := by
    intro u d
    simp only [← hinsts, Body.Uses, Body.mem_insts_iff]
    constructor
    · rintro ⟨b, i, hi, h⟩
      exact ⟨i, ⟨b, hi⟩, h⟩
    · rintro ⟨i, ⟨b, hi⟩, h⟩
      exact ⟨b, i, hi, h⟩
  constructor
  · rw [hremoved]
    refine ⟨fun b i hi => ?_, fun b i hi _ u => ?_, by simp⟩
    · exact (by decide : ∀ i ∈ cyclePhis, i.users.Nodup) i (hmem hi)
    · rw [huses]
      have hi := hmem hi
      simp only [cyclePhis, List.mem_cons, List.not_mem_nil, or_false] at hi
      rcases hi with rfl | rfl <;> simp [cyclePhis] <;> grind
  · simp [hremoved]

/-- The removal of one PHI sets off that of the other. -/
theorem removals_cycle : ∃ s B s', Reached keepingContext s ∧ s.body? = some B ∧
    s.pending.entries = [] ∧ s.isPhi 0 = true ∧ s.Exact B ∧
    removeTrivialPhi 0 s = .ok (.result 1) s' ∧ s'.removed = [0, 1] ∧
    removeTrivialPhi 0 s' = .ok (.literal 100 7) s' := by
  let removals : Build (Value × List Nat × Value) := do
    let v ← removeTrivialPhi 0
    let removed := (← get).removed
    return (v, removed, ← removeTrivialPhi 0)
  let s := stateAfterAll (Operation.exec keepingContext) {} cycleOperations
  have hinsts : s.body?.map Body.insts = some cyclePhis := by decide +kernel
  have hstate : s.pending.entries = [] ∧ s.removed = [] ∧ s.isPhi 0 = true := by decide +kernel
  have hanswers : removals.run' s = some (.result 1, [0, 1], .literal 100 7) := by decide +kernel
  have hs : Reached keepingContext s := Reached.new.all cycleOperations
  -- from here on the state is known by its instructions and by what removals answer
  generalize s = s at hinsts hstate hanswers hs
  obtain ⟨B, hB, hinsts⟩ := Option.map_eq_some_iff.mp hinsts
  obtain ⟨hpending, hremoved, hphi⟩ := hstate
  obtain ⟨v, w, s', hfirst, hsecond⟩ := (hs.sane B hB).exists_removals 0
  have hrun : removals s = .ok (v, s'.removed, w) s' := by
    refine bind_eq_ok.mpr ⟨v, s', hfirst, bind_eq_ok.mpr ⟨s', s', rfl, ?_⟩⟩
    exact bind_eq_ok.mpr ⟨w, s', hsecond, rfl⟩
  rw [run'_eq_some.mpr ⟨s', hrun⟩, Option.some.injEq, Prod.mk.injEq, Prod.mk.injEq] at hanswers
  obtain ⟨rfl, hgone, rfl⟩ := hanswers
  exact ⟨s, B, s', hs, hB, hpending, hphi, exact_cyclePhis hinsts hremoved, hfirst, hgone, hsecond⟩

/-! ## What removals answer -/

/-- **What two removals of a PHI answer.**  Removals do not fail, and the second one changes
nothing.  It answers the same, unless the first answer was the result of a PHI that this removal set
off the removal of; the two PHIs then use each other.  If the notes about users are exact, the
second answer is never the result of a removed PHI, so an outdated first answer is another one. -/
theorem removal_repeated (hs : Reached c s) (hB : s.body? = some B) (p : Nat) :
    ∃ v w s', removeTrivialPhi p s = .ok v s' ∧ removeTrivialPhi p s' = .ok w s' ∧
      (w = v ∨ s.Outdated B p v s') ∧
      (s.isPhi p = true → s.Exact B →
        (∀ q ∈ s'.removed, w ≠ .result q) ∧ (s.Outdated B p v s' → w ≠ v)) := by
  have h := hs.sane B hB
  obtain ⟨v, hrun, hv⟩ | ⟨v, w, s', C, hrun, hcascade, hC, hw, hor⟩ := h.removal_cases p
  · refine ⟨v, v, s, hrun, hrun, Or.inl rfl, fun hp he => ⟨?_, ?_⟩⟩
    · rcases hv with rfl | ⟨b, i, hi, hmem⟩
      · rintro q hq hpq
        obtain rfl := Value.result.inj hpq
        obtain ⟨b, i, hi, rfl, hop⟩ := h.isPhi_iff.mp hp
        exact he.not_phi b i hi hq hop
      · exact he.ne_of_mem hi hmem
    · rintro ⟨q, _, hq, hgone, _⟩
      exact absurd hq hgone
  · refine ⟨v, w, s', hrun, hC.removeTrivialPhi_of_copies hw, hor, fun _ he => ?_⟩
    obtain ⟨b, i, hi, rfl, _, hoperands⟩ := hw
    have hsurvives := (hcascade.exact h he hC).ne_of_mem hi (v := w) (by simp [hoperands])
    refine ⟨hsurvives, ?_⟩
    rintro ⟨q, rfl, hq, hgone, _⟩
    exact hsurvives q ((hcascade.isPhi_or_removed hq).resolve_left hgone).2

/-- On the cycle the first answer is outdated. -/
theorem removal_repeated_cycle : ∃ s B, Reached keepingContext s ∧ s.body? = some B ∧
    s.isPhi 0 = true ∧ s.Exact B ∧
    ∃ v w s', removeTrivialPhi 0 s = .ok v s' ∧ removeTrivialPhi 0 s' = .ok w s' ∧
      s.Outdated B 0 v s' ∧ w ≠ v ∧ ∀ q ∈ s'.removed, w ≠ .result q := by
  obtain ⟨s, B, s₁, hs, hB, _, hphi, hexact, hfirst, _, hsecond⟩ := removals_cycle
  obtain ⟨v, w, s', hrun, hrun', hor, hsurvives⟩ := removal_repeated hs hB 0
  cases hfirst.symm.trans hrun
  cases hsecond.symm.trans hrun'
  have hne : Value.literal 100 7 ≠ .result 1 := by simp
  exact ⟨s, B, hs, hB, hphi, hexact, _, _, s₁, hrun, hrun', hor.resolve_left hne, hne,
    (hsurvives hphi hexact).1⟩

/-- **A removal may answer with the result of a removed PHI.**  No PHI waits for operands, and a
second removal of the PHI answers differently. -/
theorem exists_removal_outdated : ∃ c s p v w s', Reached c s ∧ s.pending.entries = [] ∧
    s.isPhi p = true ∧ removeTrivialPhi p s = .ok v s' ∧ (∃ q ∈ s'.removed, v = .result q) ∧
    removeTrivialPhi p s' = .ok w s' ∧ w ≠ v := by
  obtain ⟨s, B, s', hs, _, hpending, hphi, _, hfirst, hgone, hsecond⟩ := removals_cycle
  exact ⟨keepingContext, s, 0, _, _, s', hs, hpending, hphi, hfirst, ⟨1, by simp [hgone], rfl⟩,
    hsecond, by simp⟩

end Compiler16.Ssa
