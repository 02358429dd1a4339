import Compiler16.Proofs.Programs

/-!
# Control flow of compiled functions

The graph of a compiled function and its instructions agree: control leaves a block only at the
last instruction, along the edges that this instruction names.  Condition blocks get their
branch when the body is lowered, and PHIs get into blocks that control has left long before, so
this is a property of whole functions.

When a function ends all its blocks are sealed, and its PHIs have an operand for each
predecessor.

## Main definitions

* `ControlFlow`: the graph and the instructions of a body agree
* `Filled`: PHIs and copies have as many operands as they should

## Main results

* `controlFlow_of_run`: this is so of every compiled function
* `isSealed_of_run`: functions end with all blocks sealed, and all PHIs complete
-/

namespace Compiler16.Ssa

open Compiler16.Source Compiler16.Flow Compiler16.Ssa.Builder Compiler16.Ssa.Lowering

/-- The graph and the instructions of a body agree. -/
structure ControlFlow (B : Body) : Prop where
  entry : B.preds 0 = []
  preds_lt : ∀ b, ∀ q ∈ B.preds b, q < B.graph.size
  succs_lt : ∀ b, ∀ t ∈ B.graph.successors b, t < B.graph.size
  mirrored : ∀ a b, (B.graph.successors a).count b = (B.preds b).count a
  /-- Control leaves a block at the last instruction at most. -/
  last : ∀ b before i after, B.code b = before ++ i :: after → i.op.isTerminator = true → after = []
  /-- Control leaves every block but the one with the highest number. -/
  closed : ∀ b, b + 1 < B.graph.size →
    ∃ i, (B.code b).getLast? = some i ∧ i.op.isTerminator = true
  /-- A branch leads to the successors. -/
  branch : ∀ b i, (B.code b).getLast? = some i → i.op = .br → B.graph.successors b = i.targets
  /-- No edge leaves a block that does not end in a branch. -/
  leave : ∀ b, (∀ i, (B.code b).getLast? = some i → i.op ≠ .br) → B.graph.successors b = []
  arity : ∀ b, ∀ i ∈ B.code b, i.op = .br →
    i.targets.length = 2 ∧ i.operands.length = 1 ∨ i.targets.length = 1 ∧ i.operands.length = 0

/-- PHIs have an operand for each predecessor of their block, and copies have one. -/
def Filled (B : Body) : Prop := ∀ b, ∀ i ∈ B.code b,
  (i.op = .phi → i.operands.length = (B.preds b).length) ∧ (i.op = .mov → i.operands.length = 1)

theorem forall₂_split {α β : Type} {R : α → β → Prop} {m' m'' : List β} {b : β} {l : List α}
    (h : List.Forall₂ R l (m' ++ b :: m'')) :
    ∃ l' a l'', l = l' ++ a :: l'' ∧ List.Forall₂ R l' m' ∧ R a b ∧ List.Forall₂ R l'' m'' := by
  induction m' generalizing l with
  | nil =>
    cases h with
    | @cons a _ l'' _ hab hrest => exact ⟨[], a, l'', rfl, .nil, hab, hrest⟩
  | cons c m' ih =>
    cases h with
    | @cons a _ l _ hac hrest =>
      obtain ⟨l', a', l'', rfl, hbefore, hab, hafter⟩ := ih hrest
      exact ⟨a :: l', a', l'', rfl, .cons hac hbefore, hab, hafter⟩

namespace Complete

variable {F : Setting} {d : FunctionDecl} {s : Builder} {S : Stage F} {b : Nat}
  (h : Complete d s S)

include h

/-- An instruction of a block was a PHI, or was emitted there. -/
theorem mem_code_cases {i : Inst} (hi : i ∈ S.body.code b) :
    (i.op = .phi ∧ i.operands.length = (S.body.preds b).length ∨
      i.op = .mov ∧ i.operands.length = 1) ∨
    ∃ e ∈ S.ledger.emitted b, Kept S.ledger S.state.nextId S.body.preds b e i := by
  obtain ⟨head, tail, hcode, hhead, htail⟩ := S.inside.sound.layout b
  rw [hcode] at hi
  rcases List.mem_append.mp hi with hmem | hmem
  · obtain ⟨⟨x, c⟩, hx⟩ := Option.isSome_iff_exists.mp (hhead i hmem)
    rw [← hcode] at hi
    obtain rfl := S.inside.sound.phi_block hi hx
    obtain ⟨_, ⟨hop, _, hlen⟩ | ⟨hop, v, hv, _⟩⟩ :=
      S.inside.sound.standing_of_idle hi hx rfl (h.finished.waits x c i.id)
    · exact Or.inl (Or.inl ⟨hop, hlen⟩)
    · exact Or.inl (Or.inr ⟨hop, by rw [hv]; rfl⟩)
  · exact Or.inr (forall₂_exists_left htail hmem)

/-- Control leaves a block at an instruction that was emitted there. -/
theorem exists_emitted_of_isTerminator {i : Inst} (hi : i ∈ S.body.code b)
    (hop : i.op.isTerminator = true) :
    ∃ e ∈ S.ledger.emitted b, Kept S.ledger S.state.nextId S.body.preds b e i := by
  rcases h.mem_code_cases hi with (⟨hphi, _⟩ | ⟨hmov, _⟩) | hkept
  · rw [hphi] at hop
    cases hop
  · rw [hmov] at hop
    cases hop
  · exact hkept

/-- The last instruction of a block is the one that was emitted last, if there is one. -/
theorem getLast?_code : S.ledger.emitted b = [] ∧
      (∀ i, (S.body.code b).getLast? = some i → i.op.isTerminator = false) ∨
    ∃ e i, (S.ledger.emitted b).getLast? = some e ∧ (S.body.code b).getLast? = some i ∧
      Kept S.ledger S.state.nextId S.body.preds b e i := by
  obtain ⟨head, tail, hcode, _, htail⟩ := S.inside.sound.layout b
  rcases forall₂_getLast? htail with ⟨hnil, rfl⟩ | ⟨e, i, he, hi, hk⟩
  · refine Or.inl ⟨hnil, fun i hi => ?_⟩
    by_contra hop
    obtain ⟨e, he, _⟩ := h.exists_emitted_of_isTerminator (List.mem_of_getLast? hi)
      (Bool.not_eq_false _ ▸ hop)
    rw [hnil] at he
    cases he
  · refine Or.inr ⟨e, i, he, ?_, hk⟩
    rw [hcode, List.getLast?_append, hi]
    rfl

/-- The edges that leave a block are those that its last instruction names. -/
theorem succs_cases : S.body.graph.successors b = [] ∧
      (∀ i, (S.body.code b).getLast? = some i → i.op ≠ .br) ∨
    ∃ i, (S.body.code b).getLast? = some i ∧ i.op = .br ∧
      S.body.graph.successors b = i.targets := by
  by_cases hb : b < S.view.size
  · have hsuccs : S.body.graph.successors b =
        ((S.ledger.emitted b).getLast?.map Emitted.targets).getD [] := h.succs_eq hb
    rcases h.getLast?_code (b := b) with ⟨hnil, hop⟩ | ⟨e, i, he, hi, hk⟩
    · rw [hnil] at hsuccs
      refine Or.inl ⟨hsuccs, fun i hi hbr => ?_⟩
      have := hop i hi
      rw [hbr] at this
      cases this
    · rw [he] at hsuccs
      by_cases hbr : i.op = .br
      · exact Or.inr ⟨i, hi, hbr, hsuccs.trans hk.targets.symm⟩
      · -- what is no branch has no targets
        have htargets : e.targets = [] := by
          have hformed := S.inside.formed b e (List.mem_of_getLast? he)
          unfold Emitted.Formed at hformed
          split at hformed
          · next hop => exact absurd (hk.op.trans hop) hbr
          · exact hformed.1
          · exact hformed
        refine Or.inl ⟨hsuccs.trans htargets, fun i' hi' => ?_⟩
        rw [hi] at hi'
        cases hi'
        exact hbr
  · refine Or.inl ⟨(S.fresh (not_lt.mp hb)).2.1, fun i hi => ?_⟩
    exact absurd (Body.lt_size_of_mem_code (List.mem_of_getLast? hi)) hb

/-- **The graph and the instructions agree.** -/
theorem controlFlow : ControlFlow S.body := by
  constructor
  case entry => exact S.inside.sound.root_sealed 0 S.inside.entry S.inside.entry_sealed
  case preds_lt => exact S.inside.sound.preds_lt
  case succs_lt => exact fun b t ht => Body.lt_size_of_mem_preds (S.mem_succs_iff.mp ht)
  case mirrored => exact S.inside.mirrored
  case last =>
    intro b before i after hcode hop
    obtain ⟨head, tail, hlayout, hhead, htail⟩ := S.inside.sound.layout b
    -- if it was emitted, it is the last one that was
    have hemitted : ∀ mid, tail = mid ++ i :: after → after = [] := by
      rintro mid rfl
      obtain ⟨l', e, l'', hl, _, hk, hrest⟩ := forall₂_split htail
      obtain rfl := S.inside.tidy.last b l' e l'' hl (hk.op ▸ hop)
      cases hrest
      rfl
    rw [hlayout] at hcode
    rcases List.append_eq_append_iff.mp hcode with ⟨mid, rfl, htail'⟩ | ⟨mid, rfl, hmid⟩
    · exact hemitted mid htail'
    · cases mid with
      | nil => exact hemitted [] hmid.symm
      | cons j mid =>
        -- but none of those that were PHIs is one
        obtain ⟨rfl, -⟩ := List.cons.inj hmid
        have hmem : i ∈ S.body.code b := by simp [hlayout]
        obtain ⟨e, _, hk⟩ := h.exists_emitted_of_isTerminator hmem hop
        have hphi := hhead i (by simp)
        rw [hk.phi] at hphi
        cases hphi
  case closed =>
    intro b hb
    have hclosed : (S.ledger.emitted b).getLast?.any (·.op.isTerminator) = true := (h.done hb).1
    rcases h.getLast?_code (b := b) with ⟨hnil, _⟩ | ⟨e, i, he, hi, hk⟩
    · rw [hnil] at hclosed
      cases hclosed
    · rw [he] at hclosed
      exact ⟨i, hi, hk.op ▸ hclosed⟩
  case branch =>
    intro b i hi hbr
    rcases h.succs_cases (b := b) with ⟨_, hop⟩ | ⟨j, hj, _, hsuccs⟩
    · exact absurd hbr (hop i hi)
    · rw [hi] at hj
      cases hj
      exact hsuccs
  case leave =>
    intro b hop
    rcases h.succs_cases (b := b) with ⟨hnil, _⟩ | ⟨j, hj, hbr, _⟩
    · exact hnil
    · exact absurd hbr (hop j hj)
  case arity =>
    intro b i hi hbr
    obtain ⟨e, he, hk⟩ := h.exists_emitted_of_isTerminator hi (by rw [hbr]; rfl)
    have hformed := S.inside.formed b e he
    rw [Emitted.Formed, ← hk.op, hbr] at hformed
    rw [hk.targets, ← hk.operands.length_eq]
    exact hformed.2

/-- **PHIs and copies have as many operands as they should.** -/
theorem filled : Filled S.body := by
  intro b i hi
  rcases h.mem_code_cases hi with (⟨hphi, hlen⟩ | ⟨hmov, hlen⟩) | ⟨e, he, hk⟩
  · refine ⟨fun _ => hlen, fun hmov => ?_⟩
    rw [hphi] at hmov
    cases hmov
  · refine ⟨fun hphi => ?_, fun _ => hlen⟩
    rw [hmov] at hphi
    cases hphi
  · refine ⟨fun hphi => absurd (hk.op.symm.trans hphi) hk.not_phi, fun hmov => ?_⟩
    have hformed := S.inside.formed b e he
    rw [Emitted.Formed, ← hk.op, hmov] at hformed
    rw [← hk.operands.length_eq]
    exact hformed.2

end Complete

/-! ## Compiled programs -/

section Run

variable {c : Context} {p : Program} {u : CompiledUnit} {s₀ s₁ : Builder}

/-- **The control flow of every compiled function is well-formed.** -/
theorem controlFlow_of_run (hrun : Lowering.run c p s₀ = .ok u s₁) {name : String} {B : Body}
    (hB : u.functions.get? name = some B) : ControlFlow B := by
  obtain ⟨before, d, after, s, s', t, rfl, _, _, h⟩ := compiles_of_get? hrun hB
  obtain ⟨S, _, rfl, hS⟩ := h.exists_stage
  exact hS.controlFlow

/-- The control flow of a function with a loop and a condition. -/
theorem controlFlow_of_run_sum : ∃ u s₁ B,
    Lowering.run sampleContext sampleProgram {} = .ok u s₁ ∧ u.functions.get? "sum" = some B ∧
      ControlFlow B := by
  obtain ⟨u, s₁, B, hrun, hB⟩ := sampleProgram_compiles
  exact ⟨u, s₁, B, hrun, hB, controlFlow_of_run hrun hB⟩

/-- **Every function ends with all its blocks sealed**, and without PHIs that wait.  In every
compiled function PHIs and copies have as many operands as they should. -/
theorem isSealed_of_run (hrun : Lowering.run c p s₀ = .ok u s₁) :
    (∀ before d after, p = before ++ .function d :: after → ∃ s s' B,
      before.forM (lowerDecl c) {} = .ok () s ∧ buildFunction c d s = .ok () s' ∧
      s'.opened = some ⟨d.name, B⟩ ∧ (∀ b < B.graph.size, s'.isSealed b = true) ∧
      s'.pending.keys = [] ∧ Filled B) ∧
    ∀ name B, u.functions.get? name = some B → Filled B := by
  constructor
  · rintro before d after rfl
    obtain ⟨t, hdecls, _⟩ := run_eq_ok.mp hrun
    obtain ⟨s, s', B, h, _⟩ := exists_compiles hdecls
    obtain ⟨S, rfl, rfl, hS⟩ := h.exists_stage
    exact ⟨s, S.state, S.body, h.run, h.build, h.opened, fun b hb => hS.isSealed hb,
      h.pending, hS.filled⟩
  · intro name B hB
    obtain ⟨before, d, after, s, s', t, rfl, _, _, h⟩ := compiles_of_get? hrun hB
    obtain ⟨S, _, rfl, hS⟩ := h.exists_stage
    exact hS.filled

/-- A function with a loop and a condition, whose PHIs were partly removed. -/
theorem isSealed_of_run_sum : ∃ u s₁ B,
    Lowering.run sampleContext sampleProgram {} = .ok u s₁ ∧ u.functions.get? "sum" = some B ∧
      Filled B := by
  obtain ⟨u, s₁, B, hrun, hB⟩ := sampleProgram_compiles
  exact ⟨u, s₁, B, hrun, hB, (isSealed_of_run hrun).2 "sum" B hB⟩

end Run

end Compiler16.Ssa
