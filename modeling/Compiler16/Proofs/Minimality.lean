import Compiler16.Proofs.DefUse
import Mathlib.Data.Set.Insert

/-!
# Minimality of PHIs

In a compiled function no PHI is left that merges a single value.  More than that, no group of
PHIs is left that refer to each other and together merge a single value, as long as control
can get to the predecessors of their blocks.

The second condition is needed.  Code after a `return` gets a block that no edge enters, and
what is read there comes from before the function; so in a loop that control leaves like this, a
variable that is never written is merged with itself, and if the loop is in another one, the
PHIs of the two headers refer to each other.

For groups the argument is about loops.  The first block of a group is the header of a loop,
for one of the PHIs is the operand of another in an earlier block.  The PHIs of the group in the
body of this loop are a smaller group, and they merge the PHI of the header only: any other
value would come from before the header, and nowhere in the body of the loop is it
remembered, as far as control gets.

## Main definitions

* `Body.Merges`: the values that a group of PHIs merges
* `Minimal`: no PHIs are left over

## Main results

* `Complete.exists_merges`: a group of PHIs merges two values
* `minimal_of_run`: the PHIs of compiled programs are minimal
* `exists_merges_single`: control has to get to the predecessors
-/

namespace Compiler16.Ssa

open Compiler16.Source Compiler16.Flow Compiler16.Ssa.Builder Compiler16.Ssa.Lowering

/-- The value is an operand of a PHI in `T`, and is not the result of one. -/
def Body.Merges (B : Body) (T : Set Nat) (v : Value) : Prop :=
  ∃ b, ∃ i ∈ B.code b, i.op = .phi ∧ i.id ∈ T ∧ v ∈ i.operands ∧ ∀ t ∈ T, v ≠ .result t

/-- Control can get from the entry to the block. -/
def Body.Reachable (B : Body) (b : Nat) : Prop := ∃ π, Trail (· = 0) B.preds (b :: π)

/-- PHIs in blocks from `k` on, and control can get to the predecessors of these blocks. -/
def Body.Group (B : Body) (k : Nat) (T : Set Nat) : Prop :=
  ∀ t ∈ T, ∃ b, ∃ i ∈ B.code b, i.id = t ∧ i.op = .phi ∧ k ≤ b ∧ ∀ q ∈ B.preds b, B.Reachable q

/-- No PHI merges a single value, and no group of PHIs does, if control can get to the
predecessors of their blocks. -/
structure Minimal (B : Body) : Prop where
  single : ∀ b, ∀ i ∈ B.code b, i.op = .phi → ∃ v w, v ≠ w ∧ B.Merges {i.id} v ∧ B.Merges {i.id} w
  group : ∀ T : Set Nat, T.Nonempty →
    (∀ t ∈ T, ∃ b, ∃ i ∈ B.code b, i.id = t ∧ i.op = .phi ∧ ∀ q ∈ B.preds b, B.Reachable q) →
    ∃ v w, v ≠ w ∧ B.Merges T v ∧ B.Merges T w

/-- A PHI that does not merge a single value has an operand other than itself and a given one. -/
theorem Inst.exists_operand_ne {i : Inst} (h : i.mergedValue? = none) (v : Value) :
    ∃ o ∈ i.operands, o ≠ .result i.id ∧ o ≠ v := by
  unfold Inst.mergedValue? at h
  cases hfilter : i.operands.filter (· ≠ i.result) with
  | nil =>
    rw [hfilter] at h
    cases h
  | cons a rest =>
    simp only [hfilter] at h
    have hmem : ∀ o ∈ a :: rest, o ∈ i.operands ∧ o ≠ .result i.id := by
      intro o ho
      rw [← hfilter, List.mem_filter, decide_eq_true_eq] at ho
      exact ho
    -- the first one will do, or another that is not equal to it
    by_cases hav : a = v
    · subst hav
      obtain ⟨o, ho, hne⟩ : ∃ o ∈ rest, o ≠ a := by
        by_contra hall
        push Not at hall
        rw [if_pos (by simpa using hall)] at h
        cases h
      obtain ⟨hmem, hself⟩ := hmem o (List.mem_cons_of_mem _ ho)
      exact ⟨o, hmem, hself, hne⟩
    · obtain ⟨hmem, hself⟩ := hmem a (List.mem_cons_self ..)
      exact ⟨a, hmem, hself, hav⟩

/-- All instructions of a function have numbers of their own. -/
theorem Stage.first_le {F : Setting} (S : Stage F) {b : Nat} {i : Inst} (hi : i ∈ S.body.code b) :
    F.first ≤ i.id := by
  obtain ⟨head, tail, hcode, hhead, htail⟩ := S.inside.sound.layout b
  rcases List.mem_append.mp (hcode ▸ hi) with hmem | hmem
  · obtain ⟨k, hk⟩ := Option.isSome_iff_exists.mp (hhead i hmem)
    exact S.inside.phi_first i.id k hk
  · obtain ⟨e, he, hkept⟩ := forall₂_exists_left htail hmem
    rw [hkept.id]
    exact S.inside.tidy.first b e he

/-- A PHI that is remembered for a block is one of the variable. -/
theorem Stage.phi_of_defs {F : Setting} (S : Stage F) {x r b : Nat} {i : Inst}
    (hdef : S.state.defs.get? (x, r) = some (.result i.id)) (hr : r < S.view.size)
    (hi : i ∈ S.body.code b) (hop : i.op = .phi) : S.ledger.phi i.id = some (x, b) := by
  obtain ⟨y, hy⟩ := S.inside.sound.phi_of_isPhi hi hop
  obtain ⟨rfl, _⟩ := le_of_atEnd S.inside.shape (S.inside.sound.unwritten hi hop x) hy hr
    (S.inside.sound.defs_atEnd x r _ hdef)
  exact hy

namespace Complete

variable {c : Context} {d : FunctionDecl} {s : Builder} {S : Stage (Setting.frozen c s)}
  {x b q r P e : Nat} {v : Value} {i : Inst} (h : Complete d s S)

include h

/-- The operands of a PHI are what is remembered for the predecessors. -/
theorem mem_operands_iff (hi : i ∈ S.body.code b) (hop : i.op = .phi)
    (hx : S.ledger.phi i.id = some (x, b)) :
    v ∈ i.operands ↔ ∃ q ∈ S.body.preds b, S.state.defs.get? (x, q) = some v := by
  obtain ⟨_, ⟨_, _, hlen⟩ | ⟨hmov, _⟩⟩ :=
    S.inside.sound.standing_of_idle hi hx rfl (h.finished.waits x b i.id)
  · have hget := S.inside.neat.operand b i hi hop x hx
    constructor
    · intro hv
      obtain ⟨k, hk⟩ := List.getElem?_of_mem hv
      obtain ⟨q, hq, hdef⟩ := hget k v hk
      exact ⟨q, List.mem_of_getElem? hq, hdef⟩
    · rintro ⟨q, hq, hdef⟩
      obtain ⟨k, hk, rfl⟩ := List.mem_iff_getElem.mp hq
      have hk' : k < i.operands.length := hlen ▸ hk
      obtain ⟨q', hq', hdef'⟩ := hget k _ (List.getElem?_eq_getElem hk')
      rw [List.getElem?_eq_getElem hk] at hq'
      cases hq'
      obtain rfl := Option.some.inj (hdef.symm.trans hdef')
      exact List.getElem_mem hk'
  · rw [hop] at hmov
    cases hmov

theorem mergedValue?_eq_none (hoptions : c.options.removeTrivialPhis = true)
    (hi : i ∈ S.body.code b) (hop : i.op = .phi) : i.mergedValue? = none := by
  refine (S.inside.neat.settled b i hi hop rfl fun x a => h.finished.waits x a i.id).resolve_left ?_
  intro hoff
  exact absurd (hoptions.symm.trans hoff) (by simp)

/-- A value that is remembered for a predecessor of the block of a PHI in a group is merged by the
group, unless it is a PHI of the group. -/
theorem merges_or_mem {T : Set Nat} (hi : i ∈ S.body.code b) (hop : i.op = .phi) (hT : i.id ∈ T)
    (hx : S.ledger.phi i.id = some (x, b)) (hq : q ∈ S.body.preds b)
    (hdef : S.state.defs.get? (x, q) = some v) : S.body.Merges T v ∨ ∃ t ∈ T, v = .result t := by
  by_cases hmem : ∃ t ∈ T, v = .result t
  · exact Or.inr hmem
  · push Not at hmem
    exact Or.inl ⟨b, i, hi, hop, hT, (h.mem_operands_iff hi hop hx).mpr ⟨q, hq, hdef⟩, hmem⟩

variable (hs : s.Known)

include hs

/-- What is remembered for a block is made there or in a block before. -/
theorem le_of_defs (hdef : S.state.defs.get? (x, r) = some (.result i.id)) (hr : r < S.view.size)
    (hi : i ∈ S.body.code b) : b ≤ r := by
  -- there is a path on which blocks come in order, and the value comes from one of them
  obtain ⟨π, hπ, hlt⟩ := S.inside.shape.exists_trail hr
  obtain ⟨a, ha, hsource⟩ := (S.inside.sound.defs_atEnd x r _ hdef π hπ).source
  have har : a ≤ r := by
    rcases List.mem_cons.mp ha with rfl | ha
    · exact le_rfl
    · exact (hlt a ha).le
  have hblock : ∀ j ∈ S.body.code a, j.id = i.id → b ≤ r := by
    intro j hj hid
    obtain rfl := S.inside.sound.indexed.block_unique hj hi hid
    exact har
  rcases hsource with ⟨p, hp, hphi⟩ | hwrite | hstart
  · cases hp
    obtain ⟨j, hj, hid⟩ := S.inside.sound.phi_mem _ x a hphi
    exact hblock j hj hid
  · rcases S.inside.tidy.write x a _ hwrite with harg | ⟨e, he, hid, _⟩
    · obtain ⟨k, hk⟩ := S.inside.tidy.argument _ harg
      cases hk
    · obtain ⟨j, hj, hkept⟩ := h.finished.kept_of_emitted he
      exact hblock j hj (hkept.id.trans (Value.result.inj hid).symm)
  · -- it does not come from before the function
    have hbefore : .result i.id = s.globalValue x := S.inside.start x a _ hstart
    exact absurd (hs.live x i.id hbefore.symm).1 (not_lt.mpr (S.first_le hi))

/-- **What is remembered before a loop, but not for its header, is not remembered in its body**,
as far as control gets. -/
theorem defs_ne_of_loop (he : e ∈ S.body.preds P) (hrP : r < P)
    (hr : S.state.defs.get? (x, r) = some v) (hP : S.state.defs.get? (x, P) ≠ some v)
    (hsize : P < S.view.size) :
    ∀ {q}, P < q → q ≤ e → S.body.Reachable q → S.state.defs.get? (x, q) ≠ some v := by
  rintro q hPq hqe ⟨π, hπ⟩ hq
  -- along the path to the block, the value is remembered all the way back
  generalize hσ : q :: π = σ at hπ
  induction hπ generalizing q π with
  | start hroot =>
    cases hσ
    omega
  | @step b a τ ha _ ih =>
    obtain ⟨rfl, rfl⟩ := List.cons.inj hσ
    rcases S.inside.neat.origin x q v hq with ⟨j, hj, rfl, _⟩ | ⟨_, hall⟩
    · have := h.le_of_defs hs hr (hrP.trans hsize) hj
      omega
    · obtain ⟨hPa, hae⟩ := S.inside.nested.enters P e he q hPq hqe a ha
      rcases Nat.eq_or_lt_of_le hPa with rfl | hlt
      · exact hP (hall P ha)
      · exact ih hlt hae τ (hall a ha) rfl

section Descent

variable {T : Set Nat} {k : Nat} (hT : S.body.Group k T) (hv : ∀ w, S.body.Merges T w → w = v)
  (hi : i ∈ S.body.code k) (hop : i.op = .phi) (hmem : i.id ∈ T)
  (hx : S.ledger.phi i.id = some (x, k))

include hT hv hi hop hmem hx

/-- Before the first block of a group that merges a single value, this is the value. -/
theorem exists_defs_before : ∃ r ∈ S.body.preds k, r < k ∧ S.state.defs.get? (x, r) = some v := by
  obtain ⟨hroot, ⟨_, _, hlen⟩ | ⟨hmov, _⟩⟩ :=
    S.inside.sound.standing_of_idle hi hx rfl (h.finished.waits x k i.id)
  · have hk := Body.lt_size_of_mem_code hi
    obtain ⟨r, hr, hlt⟩ := (S.inside.grounded k hk).resolve_left hroot
    -- the PHI has an operand for this predecessor
    obtain ⟨n, hn, rfl⟩ := List.mem_iff_getElem.mp hr
    obtain ⟨q, hq, hdef⟩ := S.inside.neat.operand k i hi hop x hx n _
      (List.getElem?_eq_getElem (hlen ▸ hn))
    rw [List.getElem?_eq_getElem hn] at hq
    cases hq
    refine ⟨_, hr, hlt, ?_⟩
    rcases h.merges_or_mem hi hop hmem hx hr hdef with hm | ⟨t, ht, hres⟩
    · rw [hdef, hv _ hm]
    · obtain ⟨b, j, hj, rfl, _, hle, _⟩ := hT t ht
      rw [hres] at hdef
      have := h.le_of_defs hs hdef (hlt.trans hk) hj
      omega
  · rw [hop] at hmov
    cases hmov

/-- The first block is the header of a loop, at the end of which another PHI of the group is
remembered. -/
theorem exists_loop (hoptions : c.options.removeTrivialPhis = true) :
    ∃ e ∈ S.body.preds k, ∃ U, ∃ j ∈ S.body.code U, j.id ∈ T ∧ S.ledger.phi j.id = some (x, U) ∧
      k < U ∧ U ≤ e ∧ S.state.defs.get? (x, e) ≠ some v := by
  obtain ⟨o, ho, hself, hne⟩ :=
    Inst.exists_operand_ne (h.mergedValue?_eq_none hoptions hi hop) v
  obtain ⟨e, he, hdef⟩ := (h.mem_operands_iff hi hop hx).mp ho
  rcases h.merges_or_mem hi hop hmem hx he hdef with hm | ⟨t, ht, rfl⟩
  · exact absurd (hv o hm) hne
  · obtain ⟨U, j, hj, rfl, hjop, hle, _⟩ := hT t ht
    have hlt := S.lt_of_mem_preds he
    have hjx := S.phi_of_defs hdef hlt hj hjop
    refine ⟨e, he, U, j, hj, ht, hjx, ?_, h.le_of_defs hs hdef hlt hj, ?_⟩
    · -- there is one PHI of a variable in a block
      refine lt_of_le_of_ne hle ?_
      rintro rfl
      exact hself (congrArg Value.result (S.inside.sound.phi_inj _ _ _ hjx hx))
    · rw [hdef]
      exact fun heq => hne (Option.some.inj heq)

/-- The PHIs of the group in the body of this loop merge the PHI of the header only. -/
theorem eq_of_merges_body (he : e ∈ S.body.preds k) (hend : S.state.defs.get? (x, e) ≠ some v)
    {w : Value} (hw : S.body.Merges
      {t | t ∈ T ∧ ∃ U, S.ledger.phi t = some (x, U) ∧ k < U ∧ U ≤ e} w) : w = .result i.id := by
  obtain ⟨U, j, hj, hjop, ⟨hjT, U', hjx, hkU, hUe⟩, hwj, hout⟩ := hw
  obtain rfl := S.inside.sound.phi_block hj hjx
  obtain ⟨q, hq, hdef⟩ := (h.mem_operands_iff hj hjop hjx).mp hwj
  obtain ⟨hkq, hqe⟩ := S.inside.nested.enters k e he U' hkU hUe q hq
  have hk := Body.lt_size_of_mem_code hi
  obtain ⟨r, hr, hrk, hrv⟩ := h.exists_defs_before hs hT hv hi hop hmem hx
  -- the value from before the loop is not remembered for the header
  have hheader : S.state.defs.get? (x, k) ≠ some v := by
    intro hdefk
    rcases S.inside.neat.origin x k v hdefk with ⟨l, hl, rfl, _⟩ | ⟨_, hall⟩
    · have := h.le_of_defs hs hrv (hrk.trans hk) hl
      omega
    · exact hend (hall e he)
  rcases h.merges_or_mem hj hjop hjT hjx hq hdef with hm | ⟨t, ht, rfl⟩
  · -- nor is it in the body
    obtain rfl := hv w hm
    rcases Nat.eq_or_lt_of_le hkq with rfl | hlt
    · exact absurd hdef hheader
    · obtain ⟨b, j', hj', hid, _, _, hreach⟩ := hT j.id hjT
      obtain rfl := S.inside.sound.indexed.block_unique hj hj' hid.symm
      exact absurd hdef (h.defs_ne_of_loop hs he hrk hrv hheader hk hlt hqe (hreach q hq))
  · obtain ⟨b, l, hl, rfl, hlop, hkb, _⟩ := hT t ht
    have hlt := S.lt_of_mem_preds hq
    have hlx := S.phi_of_defs hdef hlt hl hlop
    have hbq := h.le_of_defs hs hdef hlt hl
    rcases Nat.eq_or_lt_of_le hkb with rfl | hlt'
    · rw [S.inside.sound.phi_inj _ _ _ hlx hx]
    · exact absurd rfl (hout l.id ⟨ht, b, hlx, hlt', hbq.trans hqe⟩)

end Descent

/-- **A group of PHIs merges two values.** -/
theorem exists_merges (hoptions : c.options.removeTrivialPhis = true) (v : Value) {T : Set Nat}
    (hne : T.Nonempty) {k : Nat} (hT : S.body.Group k T) : ∃ w, w ≠ v ∧ S.body.Merges T w := by
  -- by induction on the number of blocks from `k` on: the body of a loop comes after its header
  induction hn : S.view.size - k using Nat.strong_induction_on generalizing k T v with | _ n ih =>
  by_contra hnone
  have hv : ∀ w, S.body.Merges T w → w = v := by
    intro w hw
    by_contra hwv
    exact hnone ⟨w, hwv, hw⟩
  have hlt : ∀ t ∈ T, ∃ b, b < S.view.size ∧ k ≤ b := by
    intro t ht
    obtain ⟨b, i, hi, _, _, hle, _⟩ := hT t ht
    exact ⟨b, Body.lt_size_of_mem_code hi, hle⟩
  obtain ⟨t₀, ht₀⟩ := hne
  obtain ⟨b₀, hb₀, hkb₀⟩ := hlt t₀ ht₀
  by_cases hfirst : ∃ i ∈ S.body.code k, i.op = .phi ∧ i.id ∈ T
  · obtain ⟨i, hi, hop, hmem⟩ := hfirst
    obtain ⟨x, hx⟩ := S.inside.sound.phi_of_isPhi hi hop
    obtain ⟨e, he, U, j, hj, hjT, hjx, hkU, hUe, hend⟩ :=
      h.exists_loop hs hT hv hi hop hmem hx hoptions
    have hbody : S.body.Group (k + 1)
        {t | t ∈ T ∧ ∃ U, S.ledger.phi t = some (x, U) ∧ k < U ∧ U ≤ e} := by
      rintro t ⟨ht, V, hV, hkV, _⟩
      obtain ⟨b, l, hl, rfl, hlop, _, hreach⟩ := hT t ht
      obtain rfl := S.inside.sound.phi_block hl hV
      exact ⟨V, l, hl, rfl, hlop, hkV, hreach⟩
    have hnonempty : Set.Nonempty {t | t ∈ T ∧ ∃ U, S.ledger.phi t = some (x, U) ∧ k < U ∧ U ≤ e} :=
      ⟨j.id, hjT, U, hjx, hkU, hUe⟩
    obtain ⟨w, hw, hmerges⟩ :=
      ih (S.view.size - (k + 1)) (by omega) (.result i.id) hnonempty hbody rfl
    exact hw (h.eq_of_merges_body hs hT hv hi hop hmem hx he hend hmerges)
  · -- no PHI of the group is in the block `k`
    have hlater : S.body.Group (k + 1) T := by
      intro t ht
      obtain ⟨b, l, hl, rfl, hlop, hle, hreach⟩ := hT t ht
      refine ⟨b, l, hl, rfl, hlop, lt_of_le_of_ne hle ?_, hreach⟩
      rintro rfl
      exact hfirst ⟨l, hl, hlop, ht⟩
    obtain ⟨w, hw, hmerges⟩ := ih (S.view.size - (k + 1)) (by omega) v ⟨t₀, ht₀⟩ hlater rfl
    exact hw (hv w hmerges)

/-- **The PHIs of a complete function are minimal**, if those that merge a single value are
removed. -/
theorem minimal (hoptions : c.options.removeTrivialPhis = true) : Minimal S.body where
  single b i hi hop := by
    have hmerges : ∀ v, ∃ w, w ≠ v ∧ S.body.Merges {i.id} w := by
      intro v
      obtain ⟨o, ho, hself, hne⟩ :=
        Inst.exists_operand_ne (h.mergedValue?_eq_none hoptions hi hop) v
      refine ⟨o, hne, b, i, hi, hop, rfl, ho, ?_⟩
      rintro t rfl
      exact hself
    obtain ⟨v, _, hv⟩ := hmerges .unknown
    obtain ⟨w, hne, hw⟩ := hmerges v
    exact ⟨v, w, hne.symm, hv, hw⟩
  group T hne hT := by
    have hgroup : S.body.Group 0 T := by
      intro t ht
      obtain ⟨b, i, hi, hid, hop, hreach⟩ := hT t ht
      exact ⟨b, i, hi, hid, hop, Nat.zero_le b, hreach⟩
    obtain ⟨v, _, hv⟩ := h.exists_merges hs hoptions .unknown hne hgroup
    obtain ⟨w, hw', hw⟩ := h.exists_merges hs hoptions v hne hgroup
    exact ⟨v, w, hw'.symm, hv, hw⟩

end Complete

/-- **The PHIs of compiled functions are minimal**, if no function writes a variable of the
outermost scope and PHIs that merge a single value are removed. -/
theorem minimal_of_run {c : Context} {p : Program} {u : CompiledUnit} {s₀ s₁ : Builder}
    (hoptions : c.options.removeTrivialPhis = true) (hleaves : LeavesGlobals c p)
    (hrun : Lowering.run c p s₀ = .ok u s₁) {name : String} {B : Body}
    (hB : u.functions.get? name = some B) : Minimal B := by
  obtain ⟨before, d, after, s, s', t, rfl, rfl, _, h⟩ := compiles_of_get? hrun hB
  obtain ⟨S, _, rfl, hS⟩ := h.exists_frozen_stage (hleaves d (by simp))
  exact hS.minimal h.evolves.resting.globals hoptions

/-- The function has PHIs left. -/
theorem minimal_of_run_sum : sampleContext.options.removeTrivialPhis = true ∧
    LeavesGlobals sampleContext sampleProgram ∧ ∃ u s₁ B,
      Lowering.run sampleContext sampleProgram {} = .ok u s₁ ∧ u.functions.get? "sum" = some B ∧
        B.phis.length = 3 ∧ Minimal B := by
  obtain ⟨u, s₁, B, hrun, hB, hphis⟩ := exists_body_of_compile sampleContext sampleProgram "sum"
    (fun B => B.phis.length = 3) (by decide +kernel)
  exact ⟨rfl, sampleProgram_leavesGlobals, u, s₁, B, hrun, hB, hphis,
    minimal_of_run rfl sampleProgram_leavesGlobals hrun hB⟩

/-! ## Where control does not get -/

/-- A loop in a loop.  Control leaves both in the first round, and what comes after that in the
inner one has a block that no edge enters. -/
def deadLoopFunction : FunctionDecl where
  node := 3
  name := "wait"
  params := []
  body :=
    [.whileDo (.bool true)
      [.whileDo (.bool true)
        [.expr (.ident 0 "g"), .ret none, .expr (.number 0)]]]

/-- A variable, and a function that reads it in a loop. -/
def deadLoopProgram : Program := [.var sampleVariable, .function deadLoopFunction]

theorem deadLoopProgram_leavesGlobals : LeavesGlobals sampleContext deadLoopProgram := by
  intro d hd
  obtain rfl : d = deadLoopFunction := by simpa [deadLoopProgram] using hd
  decide

/-- **A group of PHIs can merge a single value** if control does not get to a predecessor of one
of their blocks: the PHIs of the two headers refer to each other and to `g`. -/
theorem exists_merges_single : sampleContext.options.removeTrivialPhis = true ∧
    LeavesGlobals sampleContext deadLoopProgram ∧ ∃ u s₁ B,
      Lowering.run sampleContext deadLoopProgram {} = .ok u s₁ ∧
        u.functions.get? "wait" = some B ∧ ∃ T : Set Nat, T.Nonempty ∧
          (∀ t ∈ T, ∃ b, ∃ i ∈ B.code b, i.id = t ∧ i.op = .phi) ∧
            ∀ v w, B.Merges T v → B.Merges T w → v = w := by
  obtain ⟨u, s₁, B, hrun, hB, hphis⟩ := exists_body_of_compile sampleContext deadLoopProgram "wait"
    (fun B => B.phis.map (fun i => (i.id, i.operands)) =
      [(15, [.result 1, .result 8]), (8, [.result 15, .result 1])])
    (by decide +kernel)
  have hmem : ∀ b, ∀ i ∈ B.code b, i.op = .phi →
      i.id = 15 ∧ i.operands = [.result 1, .result 8] ∨
        i.id = 8 ∧ i.operands = [.result 15, .result 1] := by
    intro b i hi hop
    have hpair : (i.id, i.operands) ∈ B.phis.map fun i => (i.id, i.operands) :=
      List.mem_map_of_mem (Body.mem_phis_iff.mpr ⟨b, hi, hop⟩)
    simpa [hphis] using hpair
  refine ⟨rfl, deadLoopProgram_leavesGlobals, u, s₁, B, hrun, hB, {8, 15}, ⟨8, by simp⟩, ?_, ?_⟩
  · intro t ht
    have hids : B.phis.map Inst.id = [15, 8] := by
      simpa [Function.comp_def] using congrArg (List.map Prod.fst) hphis
    have hid : t ∈ B.phis.map Inst.id := by simpa [hids, or_comm] using ht
    obtain ⟨i, hi, rfl⟩ := List.mem_map.mp hid
    obtain ⟨b, hi, hop⟩ := Body.mem_phis_iff.mp hi
    exact ⟨b, i, hi, rfl, hop⟩
  · -- the value of `g` is the only operand from outside
    have houtside : ∀ v, B.Merges {8, 15} v → v = .result 1 := by
      rintro v ⟨b, i, hi, hop, _, hv, hout⟩
      have h8 := hout 8 (by simp)
      have h15 := hout 15 (by simp)
      rcases hmem b i hi hop with ⟨_, hops⟩ | ⟨_, hops⟩ <;> rw [hops] at hv <;>
        simpa [h8, h15] using hv
    intro v w hv hw
    rw [houtside v hv, houtside w hw]

end Compiler16.Ssa
