import Compiler16.Proofs.Outcome
import Mathlib.Data.List.TakeWhile

/-!
# Where PHIs stand

A PHI comes in after the PHIs at the head of its block, and everything else comes in at the end.
But a PHI that is removed becomes a copy in its place, with other PHIs behind it.  So before a PHI
there are only PHIs and such copies, and only PHIs if none are removed.

## Main definitions

* `PhisLead`: before a PHI there are only PHIs and copies of removed ones

## Main results

* `PhisLead.insertPhi`, `PhisLead.append`, `PhisLead.map`: the changes of a block keep this
* `phisLead_of_run`: it holds of all blocks of all compiled functions
* `exists_mov_before_phi`: a copy can stand before a PHI
-/

namespace Compiler16.Ssa

open Compiler16.Source Compiler16.Flow Compiler16.Ssa.Builder

/-- Before a PHI there are only PHIs and copies in the places of PHIs that were removed. -/
def PhisLead (removed : List Nat) (code : List Inst) : Prop :=
  code.Pairwise fun i j => j.op = .phi → i.op = .phi ∨ i.op = .mov ∧ i.id ∈ removed

namespace PhisLead

variable {removed removed' : List Nat} {code : List Inst} {i : Inst}

theorem nil : PhisLead removed [] := List.Pairwise.nil

/-- A PHI comes in after the PHIs at the head. -/
theorem insertPhi (h : PhisLead removed code) (hi : i.op = .phi) :
    PhisLead removed (code.takeWhile Inst.isPhi ++ i :: code.dropWhile Inst.isPhi) := by
  have hhead : ∀ j ∈ code.takeWhile Inst.isPhi, j.op = .phi := by
    intro j hj
    simpa [Inst.isPhi] using List.mem_takeWhile_imp hj
  rw [PhisLead, ← List.takeWhile_append_dropWhile (p := Inst.isPhi) (l := code),
    List.pairwise_append] at h
  obtain ⟨htake, hdrop, hacross⟩ := h
  rw [PhisLead, List.pairwise_append, List.pairwise_cons]
  refine ⟨htake, ⟨fun j _ _ => Or.inl hi, hdrop⟩, fun j hj l hl hop => ?_⟩
  -- whatever comes behind the head, there are only PHIs in it
  exact Or.inl (hhead j hj)

/-- What comes in at the end is no PHI. -/
theorem append (h : PhisLead removed code) (hi : i.op ≠ .phi) : PhisLead removed (code ++ [i]) := by
  rw [PhisLead, List.pairwise_append]
  refine ⟨h, List.pairwise_singleton _ _, fun j _ l hl hop => ?_⟩
  rw [List.mem_singleton.mp hl] at hop
  exact absurd hop hi

/-- Instructions are changed, and PHIs among them may be removed. -/
theorem map {f : Inst → Inst} (h : PhisLead removed code) (hsub : ∀ n ∈ removed, n ∈ removed')
    (hf : ∀ j ∈ code, (f j).id = j.id ∧
      ((f j).op = j.op ∨ j.op = .phi ∧ (f j).op = .mov ∧ j.id ∈ removed')) :
    PhisLead removed' (code.map f) := by
  rw [PhisLead, List.pairwise_map]
  refine List.Pairwise.imp_of_mem ?_ h
  intro j l hj hl hjl hop
  -- what is a PHI now was one before
  have hlop : l.op = .phi := by
    rcases (hf l hl).2 with heq | ⟨heq, _⟩
    · exact heq.symm.trans hop
    · exact heq
  obtain ⟨hid, hjop⟩ := hf j hj
  rw [hid]
  rcases hjop with heq | ⟨_, hmov, hmem⟩
  · rw [heq]
    exact (hjl hlop).imp_right fun hj' => ⟨hj'.1, hsub _ hj'.2⟩
  · exact Or.inr ⟨hmov, hmem⟩

theorem mono (h : PhisLead removed code) (hsub : ∀ n ∈ removed, n ∈ removed') :
    PhisLead removed' code := by
  have := h.map (f := id) hsub fun j _ => ⟨rfl, Or.inl rfl⟩
  rwa [List.map_id] at this

end PhisLead

/-! ## While programs are lowered -/

/-- PHIs stand where they should in the open function and in the finished ones, and none are removed
unless they should be. -/
structure Placed (o : Options) (s : Builder) : Prop where
  opened : ∀ B, s.body? = some B → ∀ b, PhisLead s.removed (B.code b)
  functions : ∀ name B, s.compiled.functions.get? name = some B → ∀ b, PhisLead s.removed (B.code b)
  removed : o.removeTrivialPhis = false → s.removed = []

namespace Placed

variable {o : Options} {s s' : Builder} {B B' : Body}

/-- The open function is changed, and PHIs of it may be removed. -/
theorem change (h : Placed o s) (hbody : s'.body? = some B')
    (hcode : ∀ b, PhisLead s'.removed (B'.code b)) (hcompiled : s'.compiled = s.compiled)
    (hsub : ∀ n ∈ s.removed, n ∈ s'.removed)
    (hremoved : o.removeTrivialPhis = false → s'.removed = s.removed) : Placed o s' := by
  refine ⟨fun C hC => ?_, fun name C hC b => ?_, fun ho => (hremoved ho).trans (h.removed ho)⟩
  · obtain rfl := Option.some.inj (hbody.symm.trans hC)
    exact hcode
  · rw [hcompiled] at hC
    exact (h.functions name C hC b).mono hsub

theorem same (h : Placed o s) (hbody : s'.body? = s.body?)
    (hfunctions : s'.compiled.functions = s.compiled.functions)
    (hremoved : s'.removed = s.removed) : Placed o s' :=
  ⟨fun B hB => hremoved ▸ h.opened B (hbody ▸ hB),
    fun name B hB => hremoved ▸ h.functions name B (hfunctions ▸ hB), hremoved ▸ h.removed⟩

theorem empty : Placed o {} := by
  refine ⟨fun B hB => ?_, fun name B hB => ?_, fun _ => rfl⟩
  · cases hB
  · cases hB

theorem collapse {p : Nat} {v : Value} {us : List Nat} (ho : o.removeTrivialPhis = true)
    (hcoded : Coded s B) (h : Placed o s) (hrun : Builder.collapse p s = .ok (v, us) s') :
    Placed o s' := by
  obtain ⟨w, hsame, _⟩ | ⟨fn, b, w, _, rfl, i, hi, rfl, hop, _, hremove⟩ := hcoded.collapse_cases p
  · cases hsame.symm.trans hrun
    exact h
  · cases hremove.symm.trans hrun
    obtain ⟨f, hmap, _, hf⟩ := hcoded.indexed.forwardPhi_map hi v
    refine h.change rfl (fun c => ?_) rfl (fun n hn => List.mem_append_left _ hn)
      fun hoff => absurd (ho.symm.trans hoff) (by simp)
    rw [hmap, Body.code_mapInsts]
    refine (h.opened _ hcoded.body c).map (fun n hn => List.mem_append_left _ hn) fun j hj => ?_
    have hj' := hf j
    by_cases hid : j.id = i.id
    · -- this is the PHI that is removed
      obtain rfl := hcoded.indexed.eq_of_id_eq hj hi hid
      rw [if_pos rfl] at hj'
      exact ⟨hj'.id, Or.inr ⟨hop, hj'.op, List.mem_append_right _ (List.mem_singleton_self _)⟩⟩
    · rw [if_neg hid] at hj'
      exact ⟨hj'.id, Or.inl hj'.op⟩

end Placed

namespace Builder

/-- Where PHIs stand is watched. -/
def Watch.placement (W : Type) [Preorder W] (o : Options) : Watch W :=
  ⟨fun _ => Placed o, fun _ _ => True, fun _ h => h⟩

theorem Watch.placement_keptByReads (W : Type) [Preorder W] (o : Options) :
    (Watch.placement W o).KeptByReads o where
  known _ _ := trivial
  outside _ _ := trivial
  newPhi {w s B b p s'} hcoded h hrun := by
    obtain ⟨_, fn, B', hfn, hB', rfl⟩ := newPhi_eq_ok.mp hrun
    refine ⟨w, le_rfl, Placed.change h rfl (fun k => ?_) rfl (fun _ hn => hn) fun _ => rfl, trivial⟩
    obtain ⟨_, _, hcode, _⟩ := Body.insertPhi_ok hB'
    have hold := h.opened fn.body (body?_of_opened hfn) k
    rw [hcode]
    split
    · exact hold.insertPhi rfl
    · exact hold
  remember _ h _ := Placed.same h rfl rfl rfl
  pending _ h := Placed.same h rfl rfl rfl
  sealing _ h := Placed.same h rfl rfl rfl
  operand {w s B p v s'} hcoded h _ hrun := by
    obtain ⟨fn, B', hfn, hB', rfl⟩ := changeBody_eq_ok.mp hrun
    cases hB'
    obtain rfl := hcoded.body_eq hfn
    refine Placed.change h rfl (fun k => ?_) rfl (fun _ hn => hn) fun _ => rfl
    obtain ⟨f, hf, hcode⟩ := hcoded.indexed.code_addOperand p v
    rw [hcode]
    exact (h.opened _ hcoded.body k).map (fun _ hn => hn) fun j _ => ⟨(hf j).1, Or.inl (hf j).2.1⟩
  collapse ho hcoded h hrun := ⟨Placed.collapse ho hcoded h hrun, fun _ => trivial⟩

theorem Watch.placement_keptByLowering (W : Type) [Preorder W] (c : Context) :
    (Watch.placement W c.options).KeptByLowering c where
  toKeptByReads := Watch.placement_keptByReads W c.options
  graph {w s fn B} hfn h hcode _ _ := by
    refine Placed.change h rfl (fun k => ?_) rfl (fun _ hn => hn) fun _ => rfl
    rw [hcode]
    exact h.opened fn.body (body?_of_opened hfn) k
  current _ h := Placed.same h rfl rfl rfl
  arrays _ h := Placed.same h rfl rfl rfl
  literal _ h := ⟨_, le_rfl, Placed.same h rfl rfl rfl, trivial⟩
  argument {w s fn} hfn h := by
    refine ⟨w, le_rfl, Placed.change h rfl (fun k => ?_) rfl (fun _ hn => hn) fun _ => rfl, trivial⟩
    exact h.opened fn.body (body?_of_opened hfn) k
  append {w s B i s'} hcoded h hid hop _ hrun := by
    obtain ⟨fn, B', hfn, hB', rfl⟩ := append_eq_ok.mp hrun
    obtain rfl := hcoded.body_eq hfn
    refine ⟨w, le_rfl, Placed.change h rfl (fun k => ?_) rfl (fun _ hn => hn) fun _ => rfl, trivial⟩
    obtain ⟨_, _, _, f, hf, _, hcode⟩ := hcoded.indexed.append_ok
      (fun b j hj => hid ▸ (hcoded.bound b j hj).ne) hB'
    have hold := h.opened _ hcoded.body k
    rw [hcode]
    -- instructions that the new one uses note that it does, and stay what they are
    refine PhisLead.map ?_ (fun _ hn => hn) fun j _ => ⟨(hf j).id, Or.inl (hf j).op⟩
    split
    · exact hold.append hop
    · exact hold
  global h _ _ := ⟨_, le_rfl, Placed.same h rfl rfl rfl, trivial⟩
  publish _ h _ := Placed.same h rfl rfl rfl
  begin {w s name entry s'} h hrun := by
    obtain ⟨_, B, hsound, _, _, hcode, _, _, rfl⟩ := Sound.begin hrun
    refine ⟨w, le_rfl, Placed.change h rfl (fun k => ?_) rfl (fun _ hn => hn) fun _ => rfl⟩
    rw [hcode]
    exact .nil
  finish {w s B s'} hcoded h hrun := by
    obtain ⟨fn, hfn, _, rfl⟩ := endFunction_eq_ok.mp hrun
    refine ⟨w, le_rfl, ⟨fun C hC => ?_, fun name C hC => ?_, h.removed⟩⟩
    · cases hC
    · have hget : (s.compiled.functions.insert fn.name fn.body).get? name = some C := hC
      rw [IndexedMap.get?_insert] at hget
      split at hget
      · cases hget
        exact h.opened _ (body?_of_opened hfn)
      · exact h.functions name C hget

end Builder

/-- **PHIs stand at the head of their blocks, among copies of removed ones.**  If none are removed,
all PHIs of a block come before all else. -/
theorem phisLead_of_run {c : Context} {p : Program} {s₀ s₁ : Builder} {u : CompiledUnit}
    {name : String} {B : Body} (hrun : Lowering.run c p s₀ = .ok u s₁)
    (hB : u.functions.get? name = some B) (b : Nat) :
    PhisLead s₁.removed (B.code b) ∧ (c.options.removeTrivialPhis = false →
      (B.code b).Pairwise fun i j => j.op = .phi → i.op = .phi) := by
  have hends := ((Watch.placement_keptByLowering Nat c).run (w := 0) Placed.empty p s₀).ends
  rw [Traced.result_run] at hends
  obtain ⟨_, _, s, _, ⟨_, _, h⟩, rfl, rfl⟩ := hends.ok hrun
  have hlead := h.functions name B hB b
  -- without removals no copy stands in the place of a PHI
  refine ⟨hlead, fun hoff => hlead.imp fun hij hop => (hij hop).resolve_right fun hmem => ?_⟩
  rw [h.removed hoff] at hmem
  exact List.not_mem_nil hmem.2

/-- The function `sum`, with PHIs removed and without. -/
theorem phisLead_of_run_sum :
    (∃ u s B, Lowering.run sampleContext sampleProgram {} = .ok u s ∧
      u.functions.get? "sum" = some B ∧ ∀ b, PhisLead s.removed (B.code b)) ∧
    ∃ u s B, Lowering.run keepingContext sampleProgram {} = .ok u s ∧
      u.functions.get? "sum" = some B ∧
      ∀ b, (B.code b).Pairwise fun i j => j.op = .phi → i.op = .phi := by
  constructor
  · obtain ⟨u, s, B, hrun, hB⟩ := sampleProgram_compiles
    exact ⟨u, s, B, hrun, hB, fun b => (phisLead_of_run hrun hB b).1⟩
  · obtain ⟨u, s, B, hrun, hB, _⟩ := exists_body_of_compile keepingContext sampleProgram "sum"
      (fun _ => True) (by decide +kernel)
    exact ⟨u, s, B, hrun, hB, fun b => (phisLead_of_run hrun hB b).2 rfl⟩

/-- The parameters `x` and `y` of a function. -/
def countContext : Context where
  symbols :=
    { symbols := [.ofVariable "x" 1, .ofVariable "y" 1]
      bindings := { entries := [(0, 0), (1, 1)] } }

/-- A loop that does not change `x`, which is read before `y`. -/
def countFunction : FunctionDecl where
  node := 2
  name := "count"
  params := [{ node := 0, name := "x", init := none, isParameter := true },
    { node := 1, name := "y", init := none, isParameter := true }]
  body :=
    [.whileDo (.ident 0 "x")
        [.expr (.binary .assignment (.ident 1 "y") (.binary .plus (.ident 1 "y") (.number 1)))],
      .ret (some (.ident 1 "y"))]

/-- **A copy can stand before a PHI.**  The PHI of `x` is removed when that of `y` is behind it. -/
theorem exists_mov_before_phi :
    ∃ u s B, Lowering.run countContext [.function countFunction] {} = .ok u s ∧
    u.functions.get? "count" = some B ∧ (B.code 1).map Inst.op = [.mov, .phi, .mov, .br] ∧
      ¬ (B.code 1).Pairwise fun i j => j.op = .phi → i.op = .phi :=
  exists_body_of_compile countContext [.function countFunction] "count"
    (fun B => (B.code 1).map Inst.op = [.mov, .phi, .mov, .br] ∧
      ¬ (B.code 1).Pairwise fun i j => j.op = .phi → i.op = .phi) (by decide +kernel)

end Compiler16.Ssa
