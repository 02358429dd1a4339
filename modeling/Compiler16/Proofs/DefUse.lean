import Compiler16.Proofs.Programs

/-!
# Definitions and uses

Every instruction keeps a list of its users.  In a compiled function the lists are exact, but
for the copies that stand where PHIs were removed; and nothing uses those.

## Main definitions

* `DefUse`: the lists of users of a function are exact

## Main results

* `Complete.defUse`: so they are when a function is complete
* `defUse_of_run`: so they are in the functions of a compiled program
-/

namespace Compiler16.Ssa

open Compiler16.Source Compiler16.Flow Compiler16.Ssa.Builder Compiler16.Ssa.Lowering

/-- The users of an instruction that did not replace a removed PHI are those that have its result
among their operands, each noted once.  Where a PHI was removed a copy stands, and no
instruction uses it. -/
structure DefUse (removed : List Nat) (B : Body) : Prop where
  nodup : ∀ b, ∀ d ∈ B.code b, d.id ∉ removed → d.users.Nodup
  users : ∀ b, ∀ d ∈ B.code b, d.id ∉ removed →
    ∀ u, u ∈ d.users ↔ ∃ c, ∃ i ∈ B.code c, i.id = u ∧ d.result ∈ i.operands
  copies : ∀ b, ∀ d ∈ B.code b, d.id ∈ removed → d.op = .mov
  unused : ∀ b, ∀ d ∈ B.code b, d.id ∈ removed → ∀ c, ∀ i ∈ B.code c, d.result ∉ i.operands

/-- What was removed from other functions does not matter. -/
theorem DefUse.congr {removed removed' : List Nat} {B : Body} (h : DefUse removed B)
    (hremoved : ∀ b, ∀ d ∈ B.code b, d.id ∈ removed' ↔ d.id ∈ removed) : DefUse removed' B where
  nodup b d hd hnot := h.nodup b d hd fun hmem => hnot ((hremoved b d hd).mpr hmem)
  users b d hd hnot := h.users b d hd fun hmem => hnot ((hremoved b d hd).mpr hmem)
  copies b d hd hmem := h.copies b d hd ((hremoved b d hd).mp hmem)
  unused b d hd hmem := h.unused b d hd ((hremoved b d hd).mp hmem)

variable {c : Context} {s : Builder}

/-- **When a function is complete, its lists of users are exact.** -/
theorem Complete.defUse {F : Setting} {d : FunctionDecl} {S : Stage F} (h : Complete d s S) :
    DefUse S.state.removed S.body := by
  have hneat := S.inside.neat
  constructor
  case nodup => exact fun b i hi _ => hneat.tracked.nodup b i hi
  case users => exact fun b i hi hnot => hneat.tracked.users b i hi hnot
  case copies =>
    intro b i hi hmem
    obtain ⟨hop, hsome⟩ := hneat.removed i.id hmem b i hi rfl
    obtain ⟨⟨x, a⟩, hx⟩ := Option.isSome_iff_exists.mp hsome
    obtain rfl := S.inside.sound.phi_block hi hx
    -- it was created as a PHI and is none any more
    obtain ⟨_, ⟨hphi, _⟩ | ⟨hmov, _⟩⟩ :=
      S.inside.sound.standing_of_idle hi hx rfl (h.finished.waits x a i.id)
    · exact absurd hphi hop
    · exact hmov
  case unused =>
    exact fun b i hi hmem a j hj huse => hneat.tracked.unused j.id i.id hmem ⟨a, j, hj, rfl, huse⟩

/-- **In compiled functions the lists of users are exact.** -/
theorem defUse_of_run {p : Program} {u : CompiledUnit} {s₀ s₁ : Builder}
    (hrun : Lowering.run c p s₀ = .ok u s₁) {name : String} {B : Body}
    (hB : u.functions.get? name = some B) : DefUse s₁.removed B := by
  obtain ⟨before, d, after, s, s', t, rfl, rfl, rfl, h⟩ := compiles_of_get? hrun hB
  obtain ⟨S, rfl, rfl, hS⟩ := h.exists_stage
  refine hS.defUse.congr fun b i hi => ⟨fun hmem => ?_, h.rest.removed_before i.id⟩
  -- what later functions remove has later numbers
  rcases h.rest.removed i.id hmem with hmem | hle
  · exact hmem
  · exact absurd (S.inside.sound.bound b i hi) (not_lt.mpr hle)

/-- The function has lost some of its PHIs. -/
theorem defUse_of_run_sum : ∃ u s₁ B, Lowering.run sampleContext sampleProgram {} = .ok u s₁ ∧
    u.functions.get? "sum" = some B ∧ s₁.removed ≠ [] ∧ DefUse s₁.removed B := by
  obtain ⟨u, s₁, B, hrun, hB⟩ := sampleProgram_compiles
  let removals : Build (List Nat) := do
    let _ ← Lowering.run sampleContext sampleProgram
    return (← get).removed
  have hremoved : removals.run' {} ≠ some [] := by decide +kernel
  have hs₁ : removals {} = .ok s₁.removed s₁ := bind_eq_ok.mpr ⟨u, s₁, hrun, rfl⟩
  rw [run'_eq_some.mpr ⟨s₁, hs₁⟩] at hremoved
  exact ⟨u, s₁, B, hrun, hB, fun hnil => hremoved (congrArg some hnil), defUse_of_run hrun hB⟩

end Compiler16.Ssa
