import Compiler16.Proofs.Programs

/-!
# Reads of variables in compiled functions

A function may read a variable that it has not assigned, one of the outermost scope.  Its value is
looked up where the entry is first asked for it, and remembered there: from then on all reads in the
function that no assignment lies before denote this value, along every path.

An assignment to such a variable is published at once, whichever block it stands in.  So if the
entry is first asked after an assignment, the value that it remembers is the assigned one, and reads
denote it also on paths that the assignment does not lie on.  If the function does not assign the
variable, or reads it in the entry first, the value is the one that the variable had when the
function began.

## Main definitions

* `Body.Genuine`: instructions that are neither PHIs nor what is left of them

## Main results

* `Complete.resolves_read`: what a read denotes in a function that is complete
* `read_denotes_last_assigned`: what it denotes in a compiled program
-/

namespace Compiler16.Ssa

open Compiler16.Source Compiler16.Flow Compiler16.Ssa.Builder Compiler16.Ssa.Lowering

/-- The instruction is neither a PHI nor the copy that is left of a removed one. -/
def Body.Genuine (removed : List Nat) (B : Body) (i : Nat) : Prop :=
  i ∉ removed ∧ ∀ j ∈ B.inst? i, j.op ≠ .phi

/-- **What a read denotes along a path**: the value that was last assigned, in the block of the
read or before on the path, or else the value that was found in the entry. -/
theorem Complete.resolves_read {F : Setting} {d : FunctionDecl} {s : Builder} {S : Stage F}
    (h : Complete d s S) {own : Nat → Prop}
    (hown : ∀ p i, S.body.inst? p = some i → (own p ↔ S.ledger.phi p = none)) {x b : Nat}
    {a w : Value} (hw : ∀ v, S.ledger.start x 0 = some v → v = w)
    (hbase : S.ledger.Base S.state.nextId w) {post pre : Log}
    (hlog : (Traced.buildFunction F.context d).accesses s = post ++ (.read x b, some a) :: pre)
    {π : List (Nat × Nat)} (hπ : Path S.body π) (hend : endOf π = b) (r : Value) :
    Resolves S.body own π a r ↔ r = (pre.written x b).getD
      (((Traced.buildFunction F.context d).accesses s).lastWritten x w (blocksOf π).tail) := by
  obtain ⟨_, _, _, _, _, hreduces⟩ :=
    h.finished.reduces_of_holds hown hw hπ hend (h.records.reads post pre x b a hlog)
  rw [Ledger.lastWritten_eq (h.records.write x)] at hreduces
  refine hreduces.resolves_iff_eq fun i hi => ?_
  -- nothing that is left of a PHI is ever assigned
  have hplain : S.ledger.Base S.state.nextId ((pre.written x b).getD
      (((Traced.buildFunction F.context d).accesses s).lastWritten x w (blocksOf π).tail)) := by
    cases hv : pre.written x b with
    | some v => exact h.records.base_written (hlog.trans (List.append_cons ..)) hv
    | none => exact h.records.base_lastWritten hbase _
  cases hinst : S.body.inst? i with
  | none => exact Or.inr rfl
  | some j => exact Or.inl ((hown i j hinst).mpr (hplain i hi).2)

/-- In a compiled function the genuine instructions are those that were not created as PHIs. -/
theorem Compiles.genuine_iff {c : Context} {before after : Program} {d : FunctionDecl}
    {s t : Builder} {F : Setting} {S : Stage F}
    (h : Compiles c before after d s S.state t S.body) (p : Nat) (i : Inst)
    (hi : S.body.inst? p = some i) : S.body.Genuine t.removed p ↔ S.ledger.phi p = none := by
  obtain ⟨b, hmem, rfl⟩ := S.inside.sound.indexed.inst?_eq_some_iff.mp hi
  constructor
  · rintro ⟨hnot, hop⟩
    by_contra hphi
    rcases S.inside.neat.copied b i hmem (Option.isSome_iff_ne_none.mpr hphi) with hphi | hremoved
    · exact hop i hi hphi
    · exact hnot (h.rest.removed_before i.id hremoved)
  · intro hphi
    refine ⟨fun hremoved => ?_, ?_⟩
    · -- what later functions remove has later numbers
      rcases h.rest.removed i.id hremoved with hremoved | hle
      · exact S.inside.neat.not_removed hmem hphi hremoved
      · exact absurd (S.inside.sound.bound b i hmem) (not_lt.mpr hle)
    · rintro j hj hop
      obtain rfl : i = j := Option.some.inj (hi.symm.trans hj)
      obtain ⟨x, hx⟩ := S.inside.sound.phi_of_isPhi hmem hop
      rw [hphi] at hx
      cases hx

/-- **Reads in a compiled function.**  For every variable there is one value `w` from before the
function, such that each read denotes, along every path to its block, the value that was assigned
last: in the block before the read, or else in blocks before on the path, or else it denotes `w`.

This value is what the variable had when the function began, or it is one that the function itself
assigns to it, which may be on another path.  If the variable is read in the entry, not having been
assigned there, the answer is `w`, and then only assignments before this read may have
supplied it. -/
theorem read_denotes_last_assigned {c : Context} {before after : Program} {d : FunctionDecl}
    {u : CompiledUnit} {s₀ s₁ : Builder}
    (hrun : Lowering.run c (before ++ .function d :: after) s₀ = .ok u s₁)
    (hlast : ∀ d', .function d' ∈ after → d'.name ≠ d.name) :
    ∃ s B, before.forM (lowerDecl c) {} = .ok () s ∧ u.functions.get? d.name = some B ∧
      ∀ x, ∃ w, ((Traced.buildFunction c d).accesses s).Offers c s x w ∧
        (∀ (post pre : Log) b a,
          (Traced.buildFunction c d).accesses s = post ++ (.read x b, some a) :: pre →
          ∀ π, Path B π → endOf π = b → ∀ r, Resolves B (B.Genuine s₁.removed) π a r ↔
            r = (pre.written x b).getD (((Traced.buildFunction c d).accesses s).lastWritten x w
              (blocksOf π).tail)) ∧
        ∀ (post pre : Log) a,
          (Traced.buildFunction c d).accesses s = post ++ (.read x 0, some a) :: pre →
          pre.written x 0 = none → a = w ∧ pre.Offers c s x w := by
  obtain ⟨t, hdecls, rfl, rfl⟩ := run_eq_ok.mp hrun
  obtain ⟨s, s', B, hcompiles, hget⟩ := exists_compiles hdecls
  obtain ⟨S, rfl, rfl, hS⟩ := hcompiles.exists_stage
  refine ⟨s, S.body, hcompiles.run, hget hlast, fun x => ?_⟩
  -- the value that was found in the entry, if one was looked up there
  have hw : ∀ v, S.ledger.start x 0 = some v →
      v = (S.ledger.start x 0).getD (S.state.globalValue x) := by
    intro v hv
    rw [hv]
    rfl
  refine ⟨(S.ledger.start x 0).getD (S.state.globalValue x), ?_,
    fun post pre b a hlog π hπ hend r => ?_, fun post pre a hlog hnone => ?_⟩
  · cases hstart : S.ledger.start x 0 with
    | none => exact hS.records.globals x
    | some v => exact hS.records.start x v hstart
  · refine hS.resolves_read hcompiles.genuine_iff hw ?_ hlog hπ hend r
    cases hstart : S.ledger.start x 0 with
    | none => exact S.inside.base x
    | some v => exact S.inside.sound.start_base x 0 v hstart
  · have hholds := hS.records.reads post pre x 0 a hlog
    rw [hnone] at hholds
    have ha := hw a (S.inside.start_of_atEntry hholds)
    exact ⟨ha, ha ▸ hS.records.entry post pre x a hlog hnone⟩

/-- A function that assigns `g` if a condition holds, and then returns it. -/
def branchFunction : FunctionDecl where
  node := 3
  name := "f"
  params := []
  body :=
    [.ifThen (.bool true) [.expr (.binary .assignment (.ident 0 "g") (.number 2))],
      .ret (some (.ident 0 "g"))]

/-- The read of `g` behind the condition, along the path past the assignment: it denotes the
assigned value, and not the one from before the function. -/
theorem read_denotes_last_assigned_branch : ∃ u s s₁ B,
    Lowering.run sampleContext ([.var sampleVariable] ++ .function branchFunction :: []) {} =
      .ok u s₁ ∧
    [Decl.var sampleVariable].forM (lowerDecl sampleContext) {} = .ok () s ∧
    u.functions.get? "f" = some B ∧ Path B [(2, 0)] ∧ s.globalValue 0 = .result 1 ∧
    (Traced.buildFunction sampleContext branchFunction).accesses s =
      [(.read 0 2, some (.result 6)), (.write 0 1 (.result 6), none)] ∧
    ∀ r, Resolves B (B.Genuine s₁.removed) [(2, 0)] (.result 6) r ↔ r = .result 6 := by
  let before : Build (Value × Log) := do
    [Decl.var sampleVariable].forM (lowerDecl sampleContext)
    let s ← get
    return (s.globalValue 0, (Traced.buildFunction sampleContext branchFunction).accesses s)
  let compiled : Build (Option (List Nat × Option Op) × List Nat) := do
    let u ← Lowering.run sampleContext ([.var sampleVariable] ++ .function branchFunction :: [])
    let s ← get
    return ((u.functions.get? "f").map fun B => (B.preds 2, (B.inst? 6).map Inst.op), s.removed)
  have hbefore : before.run' {} = some (.result 1,
      [(.read 0 2, some (.result 6)), (.write 0 1 (.result 6), none)]) := by decide +kernel
  have hcompiled : compiled.run' {} = some (some ([0, 1], some .mov), [9]) := by decide +kernel
  obtain ⟨_, hbefore⟩ := run'_eq_some.mp hbefore
  obtain ⟨_, hcompiled⟩ := run'_eq_some.mp hcompiled
  simp only [before, compiled, bind_eq_ok, get_eq_ok, pure_eq_ok, Prod.mk.injEq]
    at hbefore hcompiled
  obtain ⟨_, s, hs, _, _, ⟨rfl, rfl⟩, ⟨hvalue, haccesses⟩, rfl⟩ := hbefore
  obtain ⟨u, s₁, hrun, _, _, ⟨rfl, rfl⟩, ⟨hf, hremoved⟩, rfl⟩ := hcompiled
  obtain ⟨s', B, hs', hB, hreads⟩ := read_denotes_last_assigned hrun (by simp)
  obtain ⟨_, rfl⟩ := EStateM.Result.ok.inj (hs.symm.trans hs')
  obtain ⟨w, _, hdenotes, _⟩ := hreads 0
  rw [show u.functions.get? "f" = some B from hB, Option.map_some, Option.some.injEq,
    Prod.mk.injEq] at hf
  have hpath : Path B [(2, 0)] := .cons (by rw [hf.1]; rfl) .nil
  have hgenuine : B.Genuine s₁.removed 6 := by
    refine ⟨by rw [hremoved]; decide, fun j hj hop => ?_⟩
    rw [show B.inst? 6 = some j from hj, Option.map_some, hop] at hf
    cases hf.2
  have hdenotes := hdenotes [] [(.write 0 1 (.result 6), none)] 2 (.result 6) haccesses _ hpath rfl
  rw [haccesses] at hdenotes
  have hself : Resolves B (B.Genuine s₁.removed) [(2, 0)] (.result 6) (.result 6) :=
    .plain fun p hp => Or.inl (Value.result.inj hp ▸ hgenuine)
  obtain rfl : .result 6 = w := (hdenotes _).mp hself
  exact ⟨u, s, s₁, B, hrun, hs, hB, hpath, hvalue, haccesses, hdenotes⟩

end Compiler16.Ssa
