import Compiler16.Proofs.ControlFlow

/-!
# Definitions before uses

In a compiled function every operand is there when it is used: it is a constant of the function,
or the result of an instruction that control has passed on every path to the use.  For a PHI the
use is at the end of the predecessor that the operand is for.

No dominators are computed.  What stands for a variable on a path was made, written or found on
this path, and a value has one place where it is made; so if it stands for a variable on every
path to a block, every path passes this place.

## Main definitions

* `Given`: a value that is there before the function
* `Strict`: every operand is there when it is used

## Main results

* `Complete.passes_of_atEnd`: where a value on all paths comes from
* `strict_of_run`: compiled functions are strict
-/

namespace Compiler16.Ssa

open Compiler16.Source Compiler16.Flow Compiler16.Ssa.Builder Compiler16.Ssa.Lowering

/-- The value is there before the function: a literal, the unknown value, an argument, or the
result of a global instruction. -/
def Given (globals : List Inst) (B : Body) (v : Value) : Prop :=
  (∃ i payload, v = .literal i payload) ∨ v = .unknown ∨ v ∈ B.arguments ∨
    ∃ g ∈ globals, v = .result g.id

/-- A path of blocks, last one first, that begins where no edge leads to. -/
abbrev Body.Walk (B : Body) : List Nat → Prop := Trail (fun b => B.preds b = []) B.preds

/-- Every operand is there when it is used.  Control enters the function at a block that no edge
leads to, and every operand of an instruction is given, or is the result of an instruction in a
block `c` that stands before the use:

* for the operand of a PHI, on every path to the end of the predecessor that the operand is for;
* otherwise before the instruction in the same block, or on every path to the block. -/
structure Strict (globals : List Inst) (B : Body) : Prop where
  entry : B.preds 0 = []
  operand : ∀ b before i after, B.code b = before ++ i :: after →
    ∀ (k : Nat) v, i.operands[k]? = some v → Given globals B v ∨
      ∃ c, ∃ d ∈ B.code c, v = .result d.id ∧
        (i.op = .phi → ∃ q, (B.preds b)[k]? = some q ∧ ∀ π, B.Walk (q :: π) → c ∈ q :: π) ∧
        (i.op ≠ .phi → c = b ∧ d ∈ before ∨ c ≠ b ∧ ∀ π, B.Walk (b :: π) → c ∈ π)

theorem Given.mono {globals globals' : List Inst} {B : Body} {v : Value}
    (h : Given globals B v) (hsub : ∀ g ∈ globals, g ∈ globals') : Given globals' B v := by
  rcases h with hlit | hunknown | harg | ⟨g, hg, hv⟩
  · exact Or.inl hlit
  · exact Or.inr (Or.inl hunknown)
  · exact Or.inr (Or.inr (Or.inl harg))
  · exact Or.inr (Or.inr (Or.inr ⟨g, hsub g hg, hv⟩))

theorem Strict.mono {globals globals' : List Inst} {B : Body} (h : Strict globals B)
    (hsub : ∀ g ∈ globals, g ∈ globals') : Strict globals' B :=
  ⟨h.entry, fun b before i after hcode k v hv =>
    (h.operand b before i after hcode k v hv).imp_left fun hg => hg.mono hsub⟩

namespace Complete

variable {c : Context} {d : FunctionDecl} {s : Builder} {S : Stage (Setting.frozen c s)}
  {x b : Nat} {v : Value} {π : List Nat} (h : Complete d s S)

include h

/-- Paths begin where no edge leads to. -/
theorem root_eq : S.ledger.root = fun b => S.body.preds b = [] := by
  funext b
  refine propext ⟨fun hroot => ?_, fun hpreds => ?_⟩
  · by_cases hb : b < S.view.size
    · exact S.inside.sound.root_sealed b hroot (h.isSealed hb)
    · exact (S.fresh (not_lt.mp hb)).1
  · by_cases hb : b < S.view.size
    · rcases S.inside.grounded b hb with hroot | ⟨q, hq, _⟩
      · exact hroot
      · rw [hpreds] at hq
        cases hq
    · exact S.inside.open_root b (S.fresh (not_lt.mp hb)).2.2.1

theorem walk_iff : S.body.Walk π ↔ Trail S.ledger.root S.body.preds π := by
  rw [h.root_eq]

/-- There is a path to every block. -/
theorem exists_walk (hb : b < S.view.size) : ∃ π, S.body.Walk (b :: π) := by
  induction b using Nat.strong_induction_on with | _ b ih =>
  rcases S.inside.grounded b hb with hroot | ⟨q, hq, hlt⟩
  · rw [h.root_eq] at hroot
    exact ⟨[], .start hroot⟩
  · obtain ⟨π, hπ⟩ := ih q hlt (hlt.trans hb)
    exact ⟨q :: π, .step hq hπ⟩

variable (hs : s.Grounded)

include hs

omit h in
theorem given_of_start (hv : S.ledger.start x b = some v) :
    Given s.compiled.globals.insts S.body v := by
  obtain rfl : v = s.globalValue x := S.inside.start x b v hv
  rcases hs x with hx | hx
  · exact Or.inr (Or.inl hx)
  · exact Or.inr (Or.inr (Or.inr hx))

variable (hgiven : ¬ Given s.compiled.globals.insts S.body v)

include hgiven

/-- What stands for a variable on a path comes from a block of the path, unless it is given. -/
theorem exists_mem_of_reaches (hr : S.ledger.Reaches x v π) :
    ∃ a ∈ π, ∃ i ∈ S.body.code a, v = .result i.id := by
  obtain ⟨a, ha, ⟨p, rfl, hp⟩ | hwrite | hstart⟩ := hr.source
  · obtain ⟨i, hi, rfl⟩ := S.inside.sound.phi_mem p x a hp
    exact ⟨a, ha, i, hi, rfl⟩
  · rcases S.inside.tidy.write x a v hwrite with harg | ⟨e, he, rfl, _⟩
    · exact absurd (Or.inr (Or.inr (Or.inl harg))) hgiven
    · obtain ⟨i, hi, hk⟩ := h.finished.kept_of_emitted he
      exact ⟨a, ha, i, hi, by rw [hk.id]⟩
  · exact absurd (given_of_start hs hstart) hgiven

/-- If it does so at the end of every path to a block, every path passes the place where it is
made. -/
theorem passes_of_atEnd (hb : b < S.view.size)
    (hall : ∀ π, S.body.Walk (b :: π) → S.ledger.Reaches x v (b :: π)) :
    ∃ a, ∃ i ∈ S.body.code a, v = .result i.id ∧ ∀ π, S.body.Walk (b :: π) → a ∈ b :: π := by
  obtain ⟨π, hπ⟩ := h.exists_walk hb
  obtain ⟨a, _, i, hi, rfl⟩ := h.exists_mem_of_reaches hs hgiven (hall π hπ)
  refine ⟨a, i, hi, rfl, fun σ hσ => ?_⟩
  obtain ⟨a', ha', i', hi', hid⟩ := h.exists_mem_of_reaches hs hgiven (hall σ hσ)
  rwa [S.inside.sound.indexed.block_unique hi hi' (Value.result.inj hid)]

/-- If it does so before a block, the place is in another block, for on a first visit control
has not passed this one. -/
theorem passes_of_before (hb : b < S.view.size)
    (hall : ∀ π, S.body.Walk (b :: π) → S.ledger.Reaches x v π) :
    ∃ a, ∃ i ∈ S.body.code a, v = .result i.id ∧ a ≠ b ∧ ∀ π, S.body.Walk (b :: π) → a ∈ π := by
  obtain ⟨π, hπ⟩ := h.exists_walk hb
  obtain ⟨σ, hσ, hfirst⟩ := hπ.exists_first_visit
  obtain ⟨a, ha, i, hi, rfl⟩ := h.exists_mem_of_reaches hs hgiven (hall σ hσ)
  refine ⟨a, i, hi, rfl, fun hab => hfirst (hab ▸ ha), fun τ hτ => ?_⟩
  obtain ⟨a', ha', i', hi', hid⟩ := h.exists_mem_of_reaches hs hgiven (hall τ hτ)
  rwa [S.inside.sound.indexed.block_unique hi hi' (Value.result.inj hid)]

omit hgiven

/-! ### The three kinds of operands -/

variable {i : Inst} {k : Nat}

/-- An operand of what was a PHI. -/
theorem strict_of_phi (hi : i ∈ S.body.code b) (hx : S.ledger.phi i.id = some (x, b))
    (hv : i.operands[k]? = some v) (hgiven : ¬ Given s.compiled.globals.insts S.body v) :
    ∃ a, ∃ j ∈ S.body.code a, v = .result j.id ∧
      (i.op = .phi → ∃ q, (S.body.preds b)[k]? = some q ∧
        ∀ π, S.body.Walk (q :: π) → a ∈ q :: π) ∧
      (i.op ≠ .phi → a ≠ b ∧ ∀ π, S.body.Walk (b :: π) → a ∈ π) := by
  obtain ⟨_, ⟨hop, hfills, _⟩ | ⟨hop, w, hw, hbefore⟩⟩ :=
    S.inside.sound.standing_of_idle hi hx rfl (h.finished.waits x b i.id)
  · -- a PHI has what stands for the variable at the end of the predecessor
    obtain ⟨q, hq, hatEnd⟩ := hfills k v hv
    have hlt : q < S.view.size := S.lt_of_mem_preds (List.mem_of_getElem? hq)
    obtain ⟨a, j, hj, hvj, hpass⟩ := h.passes_of_atEnd hs hgiven hlt
      fun π hπ => hatEnd π (h.walk_iff.mp hπ)
    exact ⟨a, j, hj, hvj, fun _ => ⟨q, hq, hpass⟩, fun hne => absurd hop hne⟩
  · -- and a copy has what stands for it before the block
    obtain rfl : v = w := by
      rw [hw] at hv
      exact (List.mem_singleton.mp (List.mem_of_getElem? hv))
    have hall : ∀ π, S.body.Walk (b :: π) → S.ledger.Reaches x v π := by
      intro π hπ
      rcases hbefore π (h.walk_iff.mp hπ) with ⟨_, hstart⟩ | hr
      · exact absurd (given_of_start hs hstart) hgiven
      · exact hr
    obtain ⟨a, j, hj, hvj, hne, hpass⟩ :=
      h.passes_of_before hs hgiven (Body.lt_size_of_mem_code hi) hall
    refine ⟨a, j, hj, hvj, fun hphi => ?_, fun _ => ⟨hne, hpass⟩⟩
    rw [hop] at hphi
    cases hphi

/-- An operand that is what a variable has where control enters the block. -/
theorem strict_of_entry (hb : b < S.view.size) (hv : S.ledger.AtEntry x v S.body.preds b)
    (hgiven : ¬ Given s.compiled.globals.insts S.body v) :
    ∃ a, ∃ j ∈ S.body.code a, v = .result j.id ∧
      (a = b ∧ (S.ledger.phi j.id).isSome ∨ a ≠ b ∧ ∀ π, S.body.Walk (b :: π) → a ∈ π) := by
  by_cases hmade : S.ledger.Made x v b
  · obtain ⟨p, rfl, hp⟩ := hmade
    obtain ⟨j, hj, rfl⟩ := S.inside.sound.phi_mem p x b hp
    exact ⟨b, j, hj, rfl, Or.inl ⟨rfl, by rw [hp]; rfl⟩⟩
  · have hall : ∀ π, S.body.Walk (b :: π) → S.ledger.Reaches x v π := by
      intro π hπ
      rcases hv π (h.walk_iff.mp hπ) with hm | ⟨_, hstart⟩ | hr
      · exact absurd hm hmade
      · exact absurd (given_of_start hs hstart) hgiven
      · exact hr
    obtain ⟨a, j, hj, hvj, hne, hpass⟩ := h.passes_of_before hs hgiven hb hall
    exact ⟨a, j, hj, hvj, Or.inr ⟨hne, hpass⟩⟩

/-- **Every operand is there when it is used.** -/
theorem strict : Strict s.compiled.globals.insts S.body := by
  refine ⟨S.inside.sound.root_sealed 0 S.inside.entry S.inside.entry_sealed, ?_⟩
  intro b before i after hcode k v hv
  refine or_iff_not_imp_left.mpr fun hgiven => ?_
  have hi : i ∈ S.body.code b := by simp [hcode]
  obtain ⟨head, tail, hlayout, hhead, htail⟩ := S.inside.sound.layout b
  cases hphi : S.ledger.phi i.id with
  | some xb =>
    obtain ⟨x, c⟩ := xb
    obtain rfl := S.inside.sound.phi_block hi hphi
    obtain ⟨a, j, hj, hvj, hop, hop'⟩ := h.strict_of_phi hs hi hphi hv hgiven
    exact ⟨a, j, hj, hvj, hop, fun hne => Or.inr (hop' hne)⟩
  | none =>
    -- it was emitted, after all that were PHIs
    obtain ⟨mid, hbefore, htail'⟩ : ∃ mid, before = head ++ mid ∧ tail = mid ++ i :: after := by
      rcases List.append_eq_append_iff.mp (hlayout.symm.trans hcode) with
        ⟨mid, hbefore, htail'⟩ | ⟨mid, hhead', hmid⟩
      · exact ⟨mid, hbefore, htail'⟩
      · cases mid with
        | nil => exact ⟨[], by simpa using hhead'.symm, hmid.symm⟩
        | cons j mid =>
          obtain ⟨rfl, -⟩ := List.cons.inj hmid
          have := hhead i (by simp [hhead'])
          rw [hphi] at this
          cases this
    rw [htail'] at htail
    obtain ⟨l', e, l'', hl, hmid, hk, _⟩ := forall₂_split htail
    have hne : i.op ≠ .phi := hk.op ▸ hk.not_phi
    have he : e ∈ S.ledger.emitted b := by simp [hl]
    obtain ⟨r, hr, hplays⟩ : ∃ r ∈ e.roles, S.ledger.Plays S.state.nextId S.body.preds b r v :=
      forall₂_exists_left hk.operands (List.mem_of_getElem? hv)
    cases r with
    | fixed w =>
      obtain ⟨rfl, _⟩ := hplays
      rcases S.inside.tidy.fixed b l' e l'' hl v hr with harg | hlit | ⟨e', he', rfl⟩
      · exact absurd (Or.inr (Or.inr (Or.inl harg))) hgiven
      · exact absurd (Or.inl hlit) hgiven
      · obtain ⟨j, hj, hkj⟩ := forall₂_exists_right hmid he'
        have hbefore' : j ∈ before := hbefore ▸ List.mem_append_right _ hj
        refine ⟨b, j, ?_, by rw [hkj.id], fun hop => absurd hop hne,
          fun _ => Or.inl ⟨rfl, hbefore'⟩⟩
        rw [hcode]
        exact List.mem_append_left _ hbefore'
    | entry x =>
      have hb : b < S.view.size := Body.lt_size_of_mem_code hi
      obtain ⟨a, j, hj, hvj, ⟨rfl, hsome⟩ | hpass⟩ := h.strict_of_entry hs hb hplays hgiven
      · refine ⟨a, j, hj, hvj, fun hop => absurd hop hne, fun _ => Or.inl ⟨rfl, ?_⟩⟩
        rw [hlayout, List.mem_append] at hj
        rcases hj with hj | hj
        · exact hbefore ▸ List.mem_append_left _ hj
        · obtain ⟨e', _, hkj⟩ := forall₂_exists_left (htail' ▸ htail) hj
          rw [hkj.phi] at hsome
          cases hsome
      · exact ⟨a, j, hj, hvj, fun hop => absurd hop hne, fun _ => Or.inr hpass⟩
    | free => exact absurd hr (S.inside.tidy.not_free b e he)

end Complete

/-- **Compiled functions are strict**, if no function writes a variable of the outermost
scope. -/
theorem strict_of_run {c : Context} {p : Program} {u : CompiledUnit} {s₀ s₁ : Builder}
    (hleaves : LeavesGlobals c p) (hrun : Lowering.run c p s₀ = .ok u s₁) {name : String} {B : Body}
    (hB : u.functions.get? name = some B) : Strict u.globals.insts B := by
  obtain ⟨before, d, after, s, s', t, rfl, rfl, _, h⟩ := compiles_of_get? hrun hB
  obtain ⟨S, _, rfl, hS⟩ := h.exists_frozen_stage (hleaves d (by simp))
  exact (hS.strict (h.grounded hleaves)).mono h.globals

/-- The function has operands of all kinds: of PHIs, of copies that were PHIs, and others. -/
theorem strict_of_run_sum : LeavesGlobals sampleContext sampleProgram ∧ ∃ u s₁ B,
    Lowering.run sampleContext sampleProgram {} = .ok u s₁ ∧ u.functions.get? "sum" = some B ∧
      Strict u.globals.insts B := by
  obtain ⟨u, s₁, B, hrun, hB⟩ := sampleProgram_compiles
  exact ⟨sampleProgram_leavesGlobals, u, s₁, B, hrun, hB,
    strict_of_run sampleProgram_leavesGlobals hrun hB⟩

end Compiler16.Ssa
