import Compiler16.Proofs.Programs

/-!
# What compiled functions do

A function of a compiled program does what its declaration says.  It is run in
single-assignment form on one side, and on the other its statements run one after the other
over a store of variables, where the variables of the outermost scope have the values that the
global instructions gave them.

## Main results

* `exists_execute_iff_interpret`: a compiled function has the results of its declaration
-/

namespace Compiler16.Ssa

open Compiler16.Source Compiler16.Flow Compiler16.Ssa.Builder Compiler16.Ssa.Lowering

/-- The store before a function: a variable has the value of a global instruction, or is
undefined. -/
def globalStore {V W : Type} (I : Interpretation V W) (s : Builder) : Nat → V := fun x =>
  denote I (fun _ => I.undefined) I.global (s.globalValue x)

/-- What a variable has before a function does not depend on the arguments. -/
theorem Builder.Grounded.denote_eq {s : Builder} (hs : s.Grounded) {V W : Type}
    (I : Interpretation V W) (args : Nat → V) (x : Nat) :
    denote I args I.global (s.globalValue x) = globalStore I s x := by
  unfold globalStore
  rcases hs x with hx | ⟨g, _, hx⟩ <;> rw [hx] <;> rfl

/-- **Compiling preserves meaning.**  If no function writes a variable of the outermost scope,
then the last function of a name has a result in single-assignment form whenever its
declaration has one, and the same; over any meaning of operations, calls and global values.
Every predecessor of a block has one edge to it, so there is no doubt which operand of a PHI
is meant. -/
theorem exists_execute_iff_interpret {c : Context} {before after : Program} {d : FunctionDecl}
    {u : CompiledUnit} {s₀ s₁ : Builder}
    (hleaves : LeavesGlobals c (before ++ .function d :: after))
    (hrun : Lowering.run c (before ++ .function d :: after) s₀ = .ok u s₁)
    (hlast : ∀ d', .function d' ∈ after → d'.name ≠ d.name) :
    ∃ B s, u.functions.get? d.name = some B ∧ before.forM (lowerDecl c) {} = .ok () s ∧
      (∀ b, (B.preds b).Nodup) ∧
      ∀ {V W : Type} (I : Interpretation V W) (values : List V) (w : W) (r : Option V × W),
        (∃ n, B.execute I values w n = some r) ↔
          ∃ n, interpret I c d (Decl.textsOf before) (globalStore I s) values w n = some r := by
  obtain ⟨t, hdecls, rfl, _⟩ := run_eq_ok.mp hrun
  obtain ⟨s, s', B, h, hget⟩ := exists_compiles hdecls
  obtain ⟨S, rfl, rfl, hS⟩ := h.exists_frozen_stage (hleaves d (by simp))
  refine ⟨S.body, s, hget hlast, h.run, hS.nodup_preds, fun I values w r => ?_⟩
  have hground := h.grounded hleaves
  have hslot : s.compiled.arrays.length = Decl.textsOf before := by
    rw [h.evolves.slot]
    exact Nat.zero_add _
  rw [← hslot]
  refine hS.execute_iff I fun x v hv => ?_
  have hv : v = s.globalValue x := hv
  subst hv
  exact ⟨fun args => hground.denote_eq I args x, fun i hi => h.evolves.resting.known x i hi⟩

/-- Numbers with addition and subtraction, and 7 for every global value. -/
def arithmetic : Interpretation Int Unit where
  literal n := n
  undefined := 0
  operate op vs :=
    match op, vs with
    | .add, [a, b] => a + b
    | .sub, [a, b] => a - b
    | _, _ => 0
  isTrue a := a ≠ 0
  call _ _ w := (0, w)
  global _ := 7

/-- The sum of 7 and the numbers up to 3, computed in single-assignment form. -/
theorem exists_execute_iff_interpret_sum : ∃ u s₁ B,
    Lowering.run sampleContext sampleProgram {} = .ok u s₁ ∧ u.functions.get? "sum" = some B ∧
      ∃ n, B.execute arithmetic [3] () n = some (some 13, ()) := by
  obtain ⟨u, s₁, _, hrun, _⟩ := sampleProgram_compiles
  have hsplit : sampleProgram = [.var sampleVariable] ++ .function sampleFunction :: [] := rfl
  have hleaves := sampleProgram_leavesGlobals
  rw [hsplit] at hrun hleaves ⊢
  obtain ⟨B, s, hget, hbefore, _, hiff⟩ := exists_execute_iff_interpret hleaves hrun (by simp)
  refine ⟨u, s₁, B, hrun, hget, (hiff arithmetic [3] () (some 13, ())).mpr ⟨5, ?_⟩⟩
  cases hbefore
  decide +kernel

end Compiler16.Ssa
