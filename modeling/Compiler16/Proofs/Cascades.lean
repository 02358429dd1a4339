import Compiler16.Proofs.Survivors

/-!
# Removals are complete

A removal tries the users of a PHI that has given way, as they were noted when it did.  While they
are tried one after the other, later ones may change again and again, and PHIs that were tried may
become trivial after all.  But whatever changes a PHI also tries it afterwards, so in the end no PHI
that is left merges a single value.

What a cascade does to values is a substitution: the PHIs that are left have the operands they had,
with the substitution applied, and for a PHI that is gone it makes no difference between its
operands and its result.  So a chain of PHIs, each of which merges only results of those before it
with one value, is gone as a whole: all of them are that value.

All this rests on the notes about users.  They need not be exact, but all users have to be noted.

## Main definitions

* `Inst.MergesTwo`: an instruction merges two values besides its own result
* `Body.Noted`, `Body.NotedAmong`: every user of an instruction is noted, or at least every PHI
  that uses one of some instructions
* `Body.Settled`: all PHIs merge two values, apart from some suspects
* `Body.Chain`: PHIs that merge only a value and results of each other
* `Builder.Substitutes`: what a cascade does to values

## Main results

* `Builder.removeFrom_settled`: a removal settles the PHI it begins with
* `Builder.Cascade.exists_substitutes`: a cascade is a substitution
* `Builder.Cascade.unused`: what has given way is not used any more
* `removal_complete`: what is left, and what is gone, after a removal
-/

namespace Compiler16.Ssa

open Compiler16.Source Compiler16.Flow Compiler16.Ssa.Builder

/-- Two different values come together in the instruction, besides its own result. -/
def Inst.MergesTwo (i : Inst) : Prop :=
  ∃ v ∈ i.operands, ∃ w ∈ i.operands, v ≠ w ∧ v ≠ i.result ∧ w ≠ i.result

/-- These are the PHIs that are not trivial. -/
theorem Inst.mergesTwo_iff {i : Inst} : i.MergesTwo ↔ i.mergedValue? = none := by
  constructor
  · rintro ⟨v, hv, w, hw, hne, hvi, hwi⟩
    rw [Option.eq_none_iff_forall_ne_some]
    intro x hx
    have hvx := (eq_of_mergedValue? hx v hv).resolve_left hvi
    have hwx := (eq_of_mergedValue? hx w hw).resolve_left hwi
    exact hne (hvx.trans hwx.symm)
  · intro hnone
    unfold Inst.mergedValue? at hnone
    split at hnone
    · cases hnone
    · next v rest hother =>
      split at hnone
      · cases hnone
      · next hall =>
        obtain ⟨w, hw, hne⟩ : ∃ w ∈ rest, w ≠ v := by simpa using hall
        have hmem : ∀ x ∈ v :: rest, x ∈ i.operands ∧ x ≠ i.result := by
          intro x hx
          rw [← hother, List.mem_filter] at hx
          simpa using hx
        have hv := hmem v List.mem_cons_self
        have hw := hmem w (List.mem_cons_of_mem _ hw)
        exact ⟨v, hv.1, w, hw.1, hne.symm, hv.2, hw.2⟩

namespace Body

/-- Whatever uses an instruction is noted as its user. -/
def Noted (B : Body) : Prop := ∀ b, ∀ i ∈ B.code b, ∀ u, B.Uses u i.id → u ∈ i.users

/-- Whatever uses an instruction in `K` is noted as its user, or at least all PHIs are. -/
def NotedAmong (all : Prop) (K : Nat → Prop) (B : Body) : Prop :=
  ∀ b, ∀ i ∈ B.code b, K i.id → ∀ c, ∀ k ∈ B.code c, (all ∨ k.op = .phi) →
    .result i.id ∈ k.operands → k.id ∈ i.users

theorem Noted.among {B : Body} (h : B.Noted) (K : Nat → Prop) : B.NotedAmong True K :=
  fun b i hi _ c k hk _ ho => h b i hi k.id ⟨c, k, hk, rfl, ho⟩

/-- All PHIs merge two values, apart from those in `W`. -/
def Settled (W : Nat → Prop) (B : Body) : Prop :=
  ∀ b, ∀ i ∈ B.code b, i.op = .phi → ¬ W i.id → i.MergesTwo

/-- PHIs that come after each other, latest first.  The first one merges the single value `v`, and
every other one merges only `v`, its own result and results of those before it. -/
inductive Chain (B : Body) (p : Nat) (v : Value) : List Nat → Prop where
  | first {b : Nat} {i : Inst} (hi : i ∈ B.code b) (hid : i.id = p) (hop : i.op = .phi)
      (hmerged : i.mergedValue? = some v) : Chain B p v [p]
  | next {l : List Nat} {b : Nat} {i : Inst} (hl : Chain B p v l) (hi : i ∈ B.code b)
      (hop : i.op = .phi)
      (hmerged : ∀ o ∈ i.operands, o = v ∨ o = i.result ∨ ∃ r ∈ l, o = .result r) :
      Chain B p v (i.id :: l)

theorem Chain.exists_first {B : Body} {p : Nat} {v : Value} {l : List Nat} (h : B.Chain p v l) :
    ∃ b, ∃ i ∈ B.code b, i.id = p ∧ i.op = .phi ∧ i.mergedValue? = some v := by
  induction h with
  | first hi hid hop hmerged => exact ⟨_, _, hi, hid, hop, hmerged⟩
  | next _ _ _ _ ih => exact ih

end Body

/-- What becomes of a value when `v` takes the place of the result of `p`. -/
def Value.redirect (p : Nat) (v w : Value) : Value := if w = .result p then v else w

@[simp] theorem Value.redirect_self (p : Nat) (v : Value) : Value.redirect p v (.result p) = v :=
  if_pos rfl

theorem Value.redirect_of_ne {p : Nat} {v w : Value} (h : w ≠ .result p) :
    Value.redirect p v w = w := if_neg h

namespace Builder

variable {all : Prop} {K W : Nat → Prop} {s s' t u : Builder} {B B' C D : Body} {i j : Inst}
  {p q c : Nat} {v w : Value}

/-! ## One PHI gives way -/

namespace GivesWay

/-- What an instruction is after a PHI has given way: the copy, or what it was with the value in
place of the PHI.  For the latter all users have to be noted. -/
theorem mem_code (h : GivesWay i v s B t) (hB : B.NotedAmong all K) (hK : K i.id)
    (hj : j ∈ (B.forwardPhi i v).code c) (hall : all ∨ j.op = .phi) :
    (j.id = i.id ∧ j.op = .mov ∧ j.operands = [v]) ∨
      j.id ≠ i.id ∧ ∃ k ∈ B.code c, k.id = j.id ∧ k.op = j.op ∧
        j.operands = k.operands.map (Value.redirect i.id v) ∧
        ∀ u ∈ k.users, u ∈ j.users := by
  obtain ⟨b, hi⟩ := h.mem
  obtain ⟨f, hmap, _, hf⟩ := h.before.indexed.forwardPhi_map hi v
  rw [hmap, Body.code_mapInsts] at hj
  obtain ⟨k, hk, rfl⟩ := List.mem_map.mp hj
  have hfk := hf k
  by_cases hki : k.id = i.id
  · rw [if_pos hki] at hfk
    exact Or.inl ⟨hfk.id, hfk.op, by simp [hfk.operands, Body.copyOf]⟩
  · rw [if_neg hki] at hfk
    refine Or.inr ⟨hfk.id ▸ hki, k, hk, hfk.id.symm, hfk.op.symm, ?_, fun u hu => ?_⟩
    · rw [hfk.operands]
      refine List.map_congr_left fun o ho => ?_
      -- an operand that is the PHI makes the instruction a user, and so a noted one
      by_cases hoi : o = .result i.id
      · have huser : k.id ∈ i.users := hB b i hi hK c k hk (hfk.op ▸ hall) (hoi ▸ ho)
        have hmem : k.id ∈ i.id :: i.users.filter (· ≠ i.id) :=
          List.mem_cons_of_mem _ (List.mem_filter.mpr ⟨huser, by simpa using hki⟩)
        rw [if_pos ⟨hmem, hoi⟩, hoi, Value.redirect_self]
      · rw [if_neg fun hand => hoi hand.2, Value.redirect_of_ne hoi]
    · exact (hfk.users u).mpr (Or.inl hu)

/-- All users are noted still. -/
theorem noted (h : GivesWay i v s B t) (hB : B.NotedAmong all K) (hK : K i.id) :
    (B.forwardPhi i v).NotedAmong all K := by
  obtain ⟨b, hi⟩ := h.mem
  obtain ⟨f, hmap, _, hf⟩ := h.before.indexed.forwardPhi_map hi v
  intro d j hj hKj e l hl hall huse
  -- the instruction that is used
  have hj' := hj
  rw [hmap, Body.code_mapInsts] at hj'
  obtain ⟨k, hk, rfl⟩ := List.mem_map.mp hj'
  have hfk := hf k
  have hid : (f k).id = k.id := by
    rw [hfk.id]
    split
    · next hki => exact hki.symm
    · rfl
  rw [hid] at hKj huse
  -- it is used by the copy, or by a user of the PHI, or was used before
  have hnew : l.id ∈ i.id :: i.users.filter (· ≠ i.id) → v = .result k.id →
      l.id ∈ (f k).users := by
    intro hmem hv
    exact (hfk.users l.id).mpr (Or.inr ⟨hv.trans (congrArg _ (hid.symm.trans hfk.id)), hmem⟩)
  obtain ⟨hli, _, hcopy⟩ | ⟨hli, m, hm, hml, hmop, hoperands, _⟩ :=
    h.mem_code hB hK hl hall
  · rw [hcopy, List.mem_singleton] at huse
    exact hnew (hli ▸ List.mem_cons_self) huse.symm
  · rw [hoperands, List.mem_map] at huse
    obtain ⟨o, ho, hok⟩ := huse
    by_cases hoi : o = .result i.id
    · subst hoi
      rw [Value.redirect_self] at hok
      have huser := hB b i hi hK e m hm (hmop ▸ hall) ho
      refine hnew (List.mem_cons_of_mem _ (List.mem_filter.mpr ⟨hml ▸ huser, ?_⟩)) hok
      simpa using hli
    · rw [Value.redirect_of_ne hoi] at hok
      subst hok
      have hki : k.id ≠ i.id := fun heq => hoi (congrArg Value.result heq)
      rw [if_neg hki] at hfk
      exact (hfk.users l.id).mpr (Or.inl (hml ▸ hB d k hk hKj e m hm (hmop ▸ hall) ho))

/-- Its users become suspects, and it ceases to be one. -/
theorem settled (h : GivesWay i v s B t) (hB : B.NotedAmong all K) (hK : K i.id)
    (hset : B.Settled fun q => q = i.id ∨ W q) :
    (B.forwardPhi i v).Settled fun q => q ∈ i.users.filter (· ≠ i.id) ∨ W q := by
  obtain ⟨b, hi⟩ := h.mem
  intro d j hj hop hW
  rw [not_or] at hW
  obtain ⟨_, hmov, _⟩ | ⟨hji, k, hk, hkj, hkop, hoperands, _⟩ :=
    h.mem_code hB hK hj (Or.inr hop)
  · exact absurd (hmov.symm.trans hop) (by simp)
  · have htwo := hset d k hk (hkop.trans hop) (by
      rw [hkj, not_or]
      exact ⟨hji, hW.2⟩)
    -- it does not use the PHI, or it would be a suspect
    have hsame : j.operands = k.operands := by
      rw [hoperands]
      refine (List.map_congr_left fun o ho => ?_).trans (List.map_id _)
      refine Value.redirect_of_ne fun hoi => hW.1 (List.mem_filter.mpr ⟨?_, by simpa using hji⟩)
      exact hkj ▸ hB b i hi hK d k hk (Or.inr (hkop.trans hop)) (hoi ▸ ho)
    rwa [Inst.MergesTwo, hsame, Inst.result, ← hkj]

/-- The definitions follow. -/
theorem get?_defs (h : GivesWay i v s B t) (k : Nat × Nat) :
    t.defs.get? k = (s.defs.get? k).map (Value.redirect i.id v) := by
  obtain ⟨_, _, rfl⟩ := h.state
  exact OrderedMap.get?_mapValues ..

/-- The value is another one than the PHI. -/
theorem value_ne (h : GivesWay i v s B t) : v ≠ .result i.id := by
  rcases Inst.mem_of_mergedValue? h.merged with rfl | ⟨_, hne⟩
  · simp
  · exact hne

end GivesWay

/-! ## All PHIs are settled in the end -/

/-- A PHI that an attempt to remove it leaves alone merges two values. -/
theorem Coded.mergesTwo_of_collapse (h : Coded s B) {us : List Nat}
    (hrun : Builder.collapse i.id s = .ok (v, us) s) {b : Nat} (hi : i ∈ B.code b)
    (hop : i.op = .phi) : i.MergesTwo := by
  have hinst : B.inst? i.id = some i := h.indexed.inst?_eq_some_iff.mpr ⟨b, hi, rfl⟩
  have hphi : i.isPhi = true := by simp [Inst.isPhi, hop]
  rw [Inst.mergesTwo_iff, Option.eq_none_iff_forall_ne_some]
  intro x hx
  simp only [Builder.collapse, bind_eq_ok] at hrun
  obtain ⟨_, _, hbody, hrun⟩ := hrun
  cases h.getBody.symm.trans hbody
  simp only [hinst, hphi, hx, Bool.not_true, Bool.false_eq_true, if_false, bind_eq_ok,
    modify_eq_ok, pure_eq_ok] at hrun
  obtain ⟨_, t, hchange, _, _, rfl, _, hs⟩ := hrun
  -- a removal would be on record
  obtain ⟨fn, _, _, _, rfl⟩ := changeBody_eq_ok.mp hchange
  exact absurd (congrArg Builder.removed hs) (by simp [retire])

/-- The attempt to remove a PHI that gives way. -/
theorem GivesWay.collapse (h : GivesWay i v s B t) :
    Builder.collapse i.id s = .ok (v, i.users.filter (· ≠ i.id)) t := by
  obtain ⟨b, hi⟩ := h.mem
  obtain ⟨w, hrun, _⟩ | ⟨fn, c, w, hfn, rfl, j, hj, hji, _, hmerged, hrun⟩ :=
    h.before.collapse_cases i.id
  · have htwo := Inst.mergesTwo_iff.mp (h.before.mergesTwo_of_collapse hrun hi h.phi)
    exact absurd (htwo.symm.trans h.merged) (by simp)
  · obtain rfl := h.before.indexed.eq_of_id_eq hj hi hji
    obtain rfl := Option.some.inj (hmerged.symm.trans h.merged)
    obtain ⟨fn', hfn', rfl⟩ := h.state
    obtain rfl := Option.some.inj (hfn.symm.trans hfn')
    exact hrun

/-- A PHI with other operands that are all the same gives way. -/
theorem Coded.exists_givesWay (h : Coded s B) {b : Nat} (hi : i ∈ B.code b) (hop : i.op = .phi)
    (hmerged : i.mergedValue? = some v) : ∃ t, GivesWay i v s B t := by
  obtain ⟨w, us, t, _, hcol, _⟩ := h.collapse i.id
  obtain ⟨rfl, rfl, _⟩ | ⟨j, hji, _, hgives⟩ := h.collapse_givesWay hcol
  · have htwo := Inst.mergesTwo_iff.mp (h.mergesTwo_of_collapse hcol hi hop)
    exact absurd (htwo.symm.trans hmerged) (by simp)
  · obtain ⟨_, hj⟩ := hgives.mem
    obtain rfl := h.indexed.eq_of_id_eq hj hi hji
    obtain rfl := Option.some.inj (hgives.merged.symm.trans hmerged)
    exact ⟨t, hgives⟩

theorem Cascade.noted (h : Cascade K s t) (hs : Coded s B) (hB : B.NotedAmong all K)
    (ht : Coded t C) : C.NotedAmong all K := by
  induction h generalizing C with
  | refl => exact hs.body_unique ht ▸ hB
  | tail _ hstep ih =>
    obtain ⟨i, v, D, hK, hgives⟩ := hstep
    rw [← hgives.after.body_unique ht]
    exact hgives.noted (ih hgives.before) hK

/-- **A removal settles the PHI** that it begins with. -/
theorem removeFrom_settled (depth : Nat) : ∀ {W : Nat → Prop} {p : Nat} {v : Value}
    {s s' : Builder} {B : Body}, Coded s B → Sticky K B → K p → B.NotedAmong all K →
    (B.Settled fun q => q = p ∨ W q) → removeFrom depth p s = .ok v s' →
    ∃ C, Coded s' C ∧ C.Settled W := by
  induction depth with
  | zero => exact fun _ _ _ _ _ hrun => (fail_eq_ok.mp hrun).elim
  | succ depth ih =>
    intro W p v s s' B h hsticky hp hB hset hrun
    simp only [Builder.removeFrom, bind_eq_ok, pure_eq_ok] at hrun
    obtain ⟨⟨w, us⟩, t, hcol, _, t', hloop, rfl, rfl⟩ := hrun
    obtain ⟨hfirst, hus⟩ := h.collapse_cascade hsticky hp hcol
    -- after the first attempt the suspects are the users that are left to try
    have hstart : ∃ C, Coded t C ∧ C.Settled fun q => q ∈ us ∨ W q := by
      obtain ⟨rfl, rfl, _⟩ | ⟨i, rfl, rfl, hgives⟩ := h.collapse_givesWay hcol
      · refine ⟨B, h, fun b i hi hop hW => ?_⟩
        by_cases hip : i.id = p
        · exact h.mergesTwo_of_collapse (hip ▸ hcol) hi hop
        · exact hset b i hi hop fun hor => hW (hor.imp_left fun heq => absurd heq hip)
      · exact ⟨_, hgives.after, hgives.settled hB hp hset⟩
    have key := forM_invariant
      (I := fun l u => (∀ q ∈ l, s.isPhi q = true → K q) ∧ Cascade K s u ∧
        ∃ C, Coded u C ∧ C.Settled fun q => q ∈ l ∨ W q)
      ?_ us t t' ⟨hus, hfirst, hstart⟩ hloop
    · obtain ⟨_, _, C, hC, hsettled⟩ := key
      exact ⟨C, hC, by simpa using hsettled⟩
    · -- the round settles its user, and may only make suspects that it settles itself
      rintro q l u u' ⟨hl, hu, C, hC, hsettled⟩ hround
      have hrest : ∀ r ∈ l, s.isPhi r = true → K r := fun r hr => hl r (List.mem_cons_of_mem _ hr)
      simp only [bind_eq_ok, get_eq_ok] at hround
      obtain ⟨_, _, ⟨rfl, rfl⟩, hround⟩ := hround
      split at hround
      · next hphi =>
        obtain ⟨_, u₁, hrem, hpure⟩ := bind_eq_ok.mp hround
        obtain ⟨_, rfl⟩ := pure_eq_ok.mp hpure
        have hsticky' := hu.sticky h hsticky hC
        have hq := hl q List.mem_cons_self (hu.isPhi_of_isPhi hphi)
        obtain ⟨_, _, hcol', hcascade⟩ := removeFrom_cascade _ hC hsticky' hq hrem
        refine ⟨hrest, hu.trans ((hC.collapse_cascade hsticky' hq hcol').1.trans hcascade),
          ih hC hsticky' hq (hu.noted h hB hC) (fun b i hi hop hW => ?_) hrem⟩
        exact hsettled b i hi hop (by simpa [or_assoc] using hW)
      · next hphi =>
        obtain ⟨_, rfl⟩ := pure_eq_ok.mp hround
        refine ⟨hrest, hu, C, hC, fun b i hi hop hW => hsettled b i hi hop ?_⟩
        have hne : i.id ≠ q := by
          rintro rfl
          exact hphi (hC.isPhi_iff.mpr ⟨b, i, hi, rfl, hop⟩)
        simpa [hne] using hW

theorem Coded.settled_of_removeTrivialPhi (h : Coded s B) (hsticky : Sticky K B) (hp : K p)
    (hB : B.NotedAmong all K) (hset : B.Settled fun q => q = p ∨ W q)
    (hrun : Builder.removeTrivialPhi p s = .ok v s') : ∃ C, Coded s' C ∧ C.Settled W := by
  obtain ⟨_, _, hbody, hrem⟩ := bind_eq_ok.mp hrun
  cases h.getBody.symm.trans hbody
  exact removeFrom_settled _ h hsticky hp hB hset hrem

/-! ## What has given way is not used -/

/-- Neither an operand nor a definition is the result of the instruction. -/
structure Unused (t : Builder) (C : Body) (q : Nat) : Prop where
  uses : ∀ u, ¬ C.Uses u q
  defs : ∀ k, t.defs.get? k ≠ some (.result q)

/-- What is not used does not come into use. -/
theorem GivesWay.unused (h : GivesWay i v s B t) (hB : B.NotedAmong True K) (hK : K i.id)
    (hv : v ≠ .result q) (hq : q = i.id ∨ s.Unused B q) : t.Unused (B.forwardPhi i v) q := by
  -- no value becomes the result of the instruction
  have hredirect : ∀ w : Value, (w = .result q → q = i.id) →
      Value.redirect i.id v w ≠ .result q := by
    intro w hw
    by_cases hwi : w = .result i.id
    · rw [hwi, Value.redirect_self]
      exact hv
    · rw [Value.redirect_of_ne hwi]
      rintro rfl
      exact hwi (congrArg _ (hw rfl))
  constructor
  · rintro _ ⟨c, j, hj, rfl, ho⟩
    obtain ⟨_, _, hcopy⟩ | ⟨_, k, hk, _, _, hoperands, _⟩ :=
      h.mem_code hB hK hj (Or.inl trivial)
    · rw [hcopy, List.mem_singleton] at ho
      exact hv ho.symm
    · rw [hoperands, List.mem_map] at ho
      obtain ⟨w, hw, hwq⟩ := ho
      refine hredirect w (fun hwr => ?_) hwq
      exact hq.resolve_right fun hun => hun.uses k.id ⟨c, k, hk, rfl, hwr ▸ hw⟩
  · intro k hk
    rw [h.get?_defs, Option.map_eq_some_iff] at hk
    obtain ⟨w, hw, hwq⟩ := hk
    exact hredirect w (fun hwr => hq.resolve_right fun hun => hun.defs k (hwr ▸ hw)) hwq

/-- **What has given way is not used any more.** -/
theorem Cascade.unused (h : Cascade K s t) (hs : Coded s B) (hB : B.NotedAmong True K)
    (ht : Coded t C)
    (hq : s.isPhi q = true) (hgone : ¬ t.isPhi q = true) : t.Unused C q := by
  induction h generalizing C with
  | refl => exact absurd hq hgone
  | @tail u t hrest hstep ih =>
    obtain ⟨i, v, D, hK, hgives⟩ := hstep
    rw [← hgives.after.body_unique ht]
    have hD := Cascade.noted hrest hs hB hgives.before
    by_cases hqi : q = i.id
    · exact hgives.unused hD hK (hqi ▸ hgives.value_ne) (Or.inl hqi)
    · have hun := ih hgives.before fun hphi => hgone (hgives.isPhi_iff.mpr ⟨hphi, hqi⟩)
      refine hgives.unused hD hK ?_ (Or.inr hun)
      -- the value is an operand, so it is not what is unused
      rintro rfl
      obtain ⟨b, hi⟩ := hgives.mem
      have hmem := ((Inst.mem_of_mergedValue? hgives.merged).resolve_left (by simp)).1
      exact hun.uses i.id ⟨b, i, hi, rfl, hmem⟩

/-! ## Cascades as substitutions -/

/-- What became of values from `s` to `t`. -/
structure Substitutes (σ : Value → Value) (s : Builder) (B : Body) (t : Builder) (C : Body) :
    Prop where
  operands : ∀ b, ∀ j ∈ C.code b, j.op = .phi →
    ∃ i ∈ B.code b, i.id = j.id ∧ i.op = .phi ∧ j.operands = i.operands.map σ
  defs : ∀ k, t.defs.get? k = (s.defs.get? k).map σ
  fixed : ∀ w, (∀ q, s.isPhi q = true → ¬ t.isPhi q = true → w ≠ .result q) → σ w = w
  gone : ∀ b, ∀ i ∈ B.code b, i.op = .phi → ¬ t.isPhi i.id = true →
    ∀ o ∈ i.operands, σ o = σ i.result

/-- A PHI that is left is what it was. -/
theorem Substitutes.stays {σ : Value → Value} (h : Substitutes σ s B t C) (hq : t.isPhi q = true) :
    σ (.result q) = .result q :=
  h.fixed _ fun _ _ hgone heq => hgone (Value.result.inj heq ▸ hq)

theorem Substitutes.refl (hs : Coded s B) : Substitutes id s B s B where
  operands b j hj hop := ⟨j, hj, rfl, hop, by simp⟩
  defs k := by simp
  fixed _ _ := rfl
  gone b i hi hop hgone := absurd (hs.isPhi_iff.mpr ⟨b, i, hi, rfl, hop⟩) hgone

theorem Substitutes.isPhi_of_isPhi {σ : Value → Value} (h : Substitutes σ s B t C) (hs : Coded s B)
    (ht : Coded t C) (hq : t.isPhi q = true) : s.isPhi q = true := by
  obtain ⟨b, j, hj, rfl, hop⟩ := ht.isPhi_iff.mp hq
  obtain ⟨i, hi, hij, hiop, _⟩ := h.operands b j hj hop
  exact hs.isPhi_iff.mpr ⟨b, i, hi, hij, hiop⟩

theorem Substitutes.trans {σ τ : Value → Value} (h : Substitutes σ s B t C) (hs : Coded s B)
    (ht : Coded t C) (h' : Substitutes τ t C u D) (hu : Coded u D) :
    Substitutes (fun w => τ (σ w)) s B u D where
  operands b k hk hop := by
    obtain ⟨j, hj, hjk, hjop, hko⟩ := h'.operands b k hk hop
    obtain ⟨i, hi, hij, hiop, hjo⟩ := h.operands b j hj hjop
    refine ⟨i, hi, hij.trans hjk, hiop, ?_⟩
    rw [hko, hjo, List.map_map]
    rfl
  defs k := by
    rw [h'.defs, h.defs, Option.map_map]
    rfl
  fixed w hw := by
    rw [h.fixed w fun q hq hgone => hw q hq fun hphi => hgone (h'.isPhi_of_isPhi ht hu hphi)]
    exact h'.fixed w fun q hq => hw q (h.isPhi_of_isPhi hs ht hq)
  gone b i hi hop hgone o ho := by
    by_cases hphi : t.isPhi i.id = true
    · -- it stayed at first, with the operands substituted
      obtain ⟨c, j, hj, hji, hjop⟩ := ht.isPhi_iff.mp hphi
      obtain ⟨k, hk, hkj, _, hjo⟩ := h.operands c j hj hjop
      obtain rfl := hs.indexed.eq_of_id_eq hk hi (hkj.trans hji)
      have hσ := h'.gone c j hj hjop (hji ▸ hgone) (σ o) (hjo ▸ List.mem_map_of_mem ho)
      rw [hσ, Inst.result, hji, Inst.result, h.stays hphi]
    · rw [h.gone b i hi hop hphi o ho]

/-- A PHI that gives way is substituted by its value. -/
theorem GivesWay.substitutes (h : GivesWay i v s B t) (hB : B.NotedAmong all K) (hK : K i.id) :
    Substitutes (Value.redirect i.id v) s B t (B.forwardPhi i v) where
  operands b j hj hop := by
    obtain ⟨_, hmov, _⟩ | ⟨_, k, hk, hkj, hkop, hoperands, _⟩ := h.mem_code hB hK hj (Or.inr hop)
    · exact absurd (hmov.symm.trans hop) (by simp)
    · exact ⟨k, hk, hkj, hkop.trans hop, hoperands⟩
  defs := h.get?_defs
  fixed w hw := Value.redirect_of_ne (hw i.id h.isPhi_self fun hphi => (h.isPhi_iff.mp hphi).2 rfl)
  gone b j hj hop hgone o ho := by
    have hphi := h.before.isPhi_iff.mpr ⟨b, j, hj, rfl, hop⟩
    have hji : j.id = i.id := by
      by_contra hne
      exact hgone (h.isPhi_iff.mpr ⟨hphi, hne⟩)
    obtain ⟨_, hi⟩ := h.mem
    obtain rfl := h.before.indexed.eq_of_id_eq hj hi hji
    rw [Inst.result, Value.redirect_self]
    rcases eq_of_mergedValue? h.merged o ho with rfl | rfl
    · exact Value.redirect_self ..
    · exact Value.redirect_of_ne h.value_ne

/-- **A cascade is a substitution.** -/
theorem Cascade.exists_substitutes (h : Cascade K s t) (hs : Coded s B) (hB : B.NotedAmong all K)
    (ht : Coded t C) : ∃ σ, Substitutes σ s B t C := by
  induction h generalizing C with
  | refl => exact ⟨id, hs.body_unique ht ▸ Substitutes.refl hs⟩
  | tail hrest hstep ih =>
    obtain ⟨i, v, D, hK, hgives⟩ := hstep
    rw [← hgives.after.body_unique ht]
    obtain ⟨σ, hσ⟩ := ih hgives.before
    have hD := Cascade.noted hrest hs hB hgives.before
    exact ⟨_, hσ.trans hs hgives.before (hgives.substitutes hD hK) hgives.after⟩

/-- A PHI that would merge a single value is gone. -/
theorem Substitutes.not_isPhi {σ : Value → Value} (h : Substitutes σ s B t C) (hs : Coded s B)
    (ht : Coded t C) (hC : C.Settled W) {b : Nat} (hi : i ∈ B.code b) (hW : ¬ W i.id)
    (hsole : t.isPhi i.id = true → ∀ o ∈ i.operands, σ o = v ∨ σ o = i.result) :
    ¬ t.isPhi i.id = true := by
  intro hphi
  obtain ⟨c, j, hj, hji, hjop⟩ := ht.isPhi_iff.mp hphi
  obtain ⟨k, hk, hkj, _, hjo⟩ := h.operands c j hj hjop
  obtain rfl := hs.indexed.eq_of_id_eq hk hi (hkj.trans hji)
  have hall : ∀ o ∈ j.operands, o ≠ j.result → o = v := by
    intro o ho hne
    rw [hjo, List.mem_map] at ho
    obtain ⟨w, hw, rfl⟩ := ho
    rw [Inst.result, ← hkj] at hne
    exact (hsole hphi w hw).resolve_right hne
  obtain ⟨x, hx, y, hy, hxy, hxj, hyj⟩ := hC c j hj hjop (hji ▸ hW)
  exact hxy ((hall x hx hxj).trans (hall y hy hyj).symm)

/-- All of a chain becomes one value, and so no PHI of it is left. -/
theorem Substitutes.chain {σ : Value → Value} (h : Substitutes σ s B t C) (hs : Coded s B)
    (ht : Coded t C) (hp : ¬ t.isPhi p = true) (hσp : σ (.result p) = σ v)
    (hset : B.Settled fun q => q = p ∨ W q) (hC : C.Settled W) {l : List Nat}
    (hl : B.Chain p v l) (hW : ∀ q ∈ l, ¬ W q) :
    ∀ q ∈ l, ¬ t.isPhi q = true ∧ σ (.result q) = σ v := by
  induction hl with
  | first => exact fun q hq => List.mem_singleton.mp hq ▸ ⟨hp, hσp⟩
  | @next l b i _ hi hop hmerged ih =>
    obtain ⟨hWi, hW⟩ := List.forall_mem_cons.mp hW
    have ih := ih hW
    refine List.forall_mem_cons.mpr ⟨?_, ih⟩
    by_cases hip : i.id = p
    · exact hip ▸ ⟨hp, hσp⟩
    -- what is not its own result becomes the value
    have hσ : ∀ o ∈ i.operands, o ≠ i.result → σ o = σ v := by
      intro o ho hne
      rcases hmerged o ho with rfl | hself | ⟨r, hr, rfl⟩
      · rfl
      · exact absurd hself hne
      · exact (ih r hr).2
    have hgone : ¬ t.isPhi i.id = true := h.not_isPhi hs ht hC hi hWi fun hphi o ho => by
      by_cases hself : o = i.result
      · exact Or.inr ((congrArg σ hself).trans (h.stays hphi))
      · exact Or.inl (hσ o ho hself)
    obtain ⟨x, hx, _, _, _, hxi, _⟩ := hset b i hi hop (not_or_intro hip hWi)
    exact ⟨hgone, (h.gone b i hi hop hgone x hx).symm.trans (hσ x hx hxi)⟩

theorem Coded.isPhi_of_mem_chain (h : Coded s B) {l : List Nat} (hl : B.Chain p v l) (hq : q ∈ l) :
    s.isPhi q = true := by
  rw [h.isPhi_iff]
  induction hl with
  | first hi hid hop => exact ⟨_, _, hi, hid.trans (List.mem_singleton.mp hq).symm, hop⟩
  | next _ hi hop _ ih =>
    rcases List.mem_cons.mp hq with rfl | hq
    · exact ⟨_, _, hi, rfl, hop⟩
    · exact ih hq

/-- **A removal removes chains** as a whole. -/
theorem Coded.removeTrivialPhi_complete (h : Coded s B) (hB : B.Noted) (hset : B.Settled (· = p)) :
    ∃ v s' C, Builder.removeTrivialPhi p s = .ok v s' ∧ Coded s' C ∧
      (C.Settled fun _ => False) ∧
      (∀ q, s.isPhi q = true → ¬ s'.isPhi q = true → s'.Unused C q) ∧
      ∀ w l, B.Chain p w l → ∀ q ∈ l, ¬ s'.isPhi q = true := by
  have hsticky := h.sticky_feeds p
  have hnoted := hB.among (Relation.ReflTransGen B.Feeds p)
  obtain ⟨v, us, t, s', C, hrun, hC, hcol, hfirst, hrest⟩ :=
    h.removeTrivialPhi_cascade hsticky .refl
  obtain ⟨C', hC', hsettled⟩ := h.settled_of_removeTrivialPhi (W := fun _ => False) hsticky .refl
    hnoted (by simpa using hset) hrun
  obtain rfl := hC'.body_unique hC.coded
  have hall : Cascade _ s s' := hfirst.trans hrest
  refine ⟨v, s', C', hrun, hC', hsettled, fun q hq hgone => hall.unused h hnoted hC' hq hgone,
    fun w l hl => ?_⟩
  -- a chain begins with the PHI, so that is the first to give way
  obtain ⟨b, i, hi, rfl, hop, hmerged⟩ := hl.exists_first
  obtain ⟨_, hgives⟩ := h.exists_givesWay hi hop hmerged
  cases hgives.collapse.symm.trans hcol
  obtain ⟨σ, hσ⟩ := hrest.exists_substitutes hgives.after (hgives.noted hnoted .refl) hC'
  have hsub := (hgives.substitutes hnoted .refl).trans h hgives.after hσ hC'
  refine fun q hq => (hsub.chain h hC' (fun hphi => ?_) ?_ (by simpa using hset) hsettled hl
    (fun _ _ => id) q hq).1
  · exact (hgives.isPhi_iff.mp (hrest.isPhi_of_isPhi hphi)).2 rfl
  · rw [Value.redirect_self, Value.redirect_of_ne hgives.value_ne]

end Builder

variable {c : Context} {s : Builder} {B : Body} {p : Nat}

/-! ## A chain of three PHIs -/

/-- Three blocks in a row, each of which is also entered from the first block of the function.  A
variable that is written there is read in the last one. -/
def chainOperations : List Operation :=
  [.begin "f", .call .createBlock, .call .createBlock, .call .createBlock,
    .call (.addEdge 0 1), .call (.addEdge 0 1), .call (.addEdge 1 2), .call (.addEdge 0 2),
    .call (.addEdge 2 3), .call (.addEdge 0 3), .call (.sealBlock 1), .call (.sealBlock 2),
    .call (.sealBlock 3), .call (.write 0 0 (.literal 100 7)), .call (.read 0 3)]

/-- Only the first PHI is trivial. -/
def chainPhis : List Inst :=
  [{ op := .phi, id := 2, block := 1, operands := [.literal 100 7, .literal 100 7], users := [1] },
    { op := .phi, id := 1, block := 2, operands := [.result 2, .literal 100 7], users := [0] },
    { op := .phi, id := 0, block := 3, operands := [.result 1, .literal 100 7] }]

theorem chain_chainPhis (hinsts : B.insts = chainPhis) :
    B.Noted ∧ B.Settled (· = 2) ∧ B.Chain 2 (.literal 100 7) [0, 1, 2] := by
  have hmem : ∀ {b : Nat} {i : Inst}, i ∈ B.code b → i ∈ chainPhis :=
    fun hi => hinsts ▸ Body.mem_insts_iff.mpr ⟨_, hi⟩
  refine ⟨?_, ?_, ?_⟩
  · rintro b i hi _ ⟨c, j, hj, rfl, ho⟩
    exact (by decide : ∀ i ∈ chainPhis, ∀ j ∈ chainPhis, .result i.id ∈ j.operands → j.id ∈ i.users)
      i (hmem hi) j (hmem hj) ho
  · intro b i hi _ hne
    exact Inst.mergesTwo_iff.mpr
      ((by decide : ∀ i ∈ chainPhis, ¬ i.id = 2 → i.mergedValue? = none) i (hmem hi) hne)
  · have hall : ∀ i ∈ chainPhis, ∃ b, i ∈ B.code b := by
      intro i hi
      exact Body.mem_insts_iff.mp (hinsts ▸ hi)
    simp only [chainPhis, List.forall_mem_cons] at hall
    obtain ⟨⟨_, h₂⟩, ⟨_, h₁⟩, ⟨_, h₀⟩, _⟩ := hall
    have hchain : B.Chain 2 (.literal 100 7) [2] := .first h₂ rfl rfl (by decide)
    exact .next (.next hchain h₁ rfl (by decide)) h₀ rfl (by decide)

/-! ## Removals are complete -/

/-- **What is left, and what is gone, after a removal.**  Let all users be noted, and let all PHIs
but the one to remove merge two values.  Then the removal succeeds, and all PHIs that are left merge
two values.  What was a PHI and is none any more is neither an operand nor the definition of a
variable.  And chains of PHIs that become trivial, however long, are gone as a whole. -/
theorem removal_complete (hs : Reached c s) (hB : s.body? = some B) (hnoted : B.Noted)
    (hothers : ∀ b, ∀ i ∈ B.code b, i.op = .phi → i.id ≠ p → i.MergesTwo) :
    ∃ v s' C, removeTrivialPhi p s = .ok v s' ∧ s'.body? = some C ∧
      (∀ b, ∀ i ∈ C.code b, i.op = .phi → i.MergesTwo) ∧
      (∀ q, s.isPhi q = true → ¬ s'.isPhi q = true →
        (∀ b, ∀ i ∈ C.code b, .result q ∉ i.operands) ∧ ∀ k, s'.defs.get? k ≠ some (.result q)) ∧
      ∀ w l, B.Chain p w l → ∀ q ∈ l, s.isPhi q = true ∧ ¬ s'.isPhi q = true := by
  have h := hs.sane B hB
  obtain ⟨v, s', C, hrun, hC, hsettled, hunused, hchain⟩ :=
    h.removeTrivialPhi_complete hnoted hothers
  refine ⟨v, s', C, hrun, hC.body, fun b i hi hop => hsettled b i hi hop (by simp), ?_, ?_⟩
  · intro q hq hgone
    have hun := hunused q hq hgone
    exact ⟨fun b i hi ho => hun.uses i.id ⟨b, i, hi, rfl, ho⟩, hun.defs⟩
  · exact fun w l hl q hq => ⟨h.isPhi_of_mem_chain hl hq, hchain w l hl q hq⟩

/-- On the chain the removal of the first PHI removes all three. -/
theorem removal_complete_chain : ∃ s B, Reached keepingContext s ∧ s.body? = some B ∧ B.Noted ∧
    (∀ b, ∀ i ∈ B.code b, i.op = .phi → i.id ≠ 2 → i.MergesTwo) ∧
    ∃ v s' C, removeTrivialPhi 2 s = .ok v s' ∧ s'.body? = some C ∧
      ∀ q ∈ [0, 1, 2], s.isPhi q = true ∧ ¬ s'.isPhi q = true ∧
        ∀ b, ∀ i ∈ C.code b, .result q ∉ i.operands := by
  let s := stateAfterAll (Operation.exec keepingContext) {} chainOperations
  have hinsts : s.body?.map Body.insts = some chainPhis := by decide +kernel
  have hs : Reached keepingContext s := Reached.new.all chainOperations
  generalize s = s at hinsts hs
  obtain ⟨B, hB, hinsts⟩ := Option.map_eq_some_iff.mp hinsts
  obtain ⟨hnoted, hsettled, hchain⟩ := chain_chainPhis hinsts
  obtain ⟨v, s', C, hrun, hC, _, hunused, hgone⟩ := removal_complete (p := 2) hs hB hnoted hsettled
  refine ⟨s, B, hs, hB, hnoted, hsettled, v, s', C, hrun, hC, fun q hq => ?_⟩
  obtain ⟨hphi, hnot⟩ := hgone _ _ hchain q hq
  exact ⟨hphi, hnot, (hunused q hphi hnot).1⟩

end Compiler16.Ssa
