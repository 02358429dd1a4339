import Compiler16.Proofs.BodyCode

/-!
# Users of instructions

Every instruction notes the instructions that use its result, and the removal of a PHI
goes by these notes alone.  So they have to be exact: a user that was not noted would go on
to use the PHI after its removal.  The notes of a removed PHI itself are left as they are,
and nothing uses it.

## Main definitions

* `Body.Uses`: an instruction has the result of another among its operands
* `Body.Tracked`: the notes are exact, and no removed PHI is used

## Main results

* `Tracked.append`, `Tracked.insertPhi`, `Tracked.addOperand`, `Tracked.forwardPhi`: the
  changes of a body keep the notes exact
-/

namespace Compiler16.Ssa

open Compiler16.Flow

theorem Inst.addUser_addUser (i : Inst) (u : Nat) : (i.addUser u).addUser u = i.addUser u := by
  rw [Inst.addUser.eq_def (i.addUser u), if_pos]
  exact (i.mem_users_addUser u u).mpr (Or.inr rfl)

@[simp] theorem Inst.op_addUser (i : Inst) (u : Nat) : (i.addUser u).op = i.op := by
  unfold addUser
  split <;> rfl

namespace Body

variable {b b' : Body} {removed : List Nat} {u d n k : Nat} {v : Value} {i j phi : Inst}

/-- The instruction numbered `u` has the result of `d` among its operands. -/
def Uses (b : Body) (u d : Nat) : Prop :=
  ∃ k, ∃ i ∈ b.code k, i.id = u ∧ .result d ∈ i.operands

/-- The users of every instruction are those that have its result among their operands.
This is not said of the removed ones, which no instruction uses. -/
structure Tracked (removed : List Nat) (b : Body) : Prop where
  nodup : ∀ k, ∀ i ∈ b.code k, i.users.Nodup
  users : ∀ k, ∀ i ∈ b.code k, i.id ∉ removed → ∀ u, u ∈ i.users ↔ b.Uses u i.id
  unused : ∀ u, ∀ d ∈ removed, ¬ b.Uses u d

/-! ## The changes as maps -/

/-- Noting a user of all operands is a map. -/
theorem Indexed.foldl_registerUser_eq (h : b.Indexed) (vs : List Value) :
    vs.foldl (fun b v => b.registerUser v n) b =
      b.mapInsts fun j => if .result j.id ∈ vs then j.addUser n else j := by
  induction vs generalizing b with
  | nil => simpa using mapInsts_id.symm
  | cons v vs ih =>
    have hstep : (b.mapInsts fun j => if v = .result j.id then j.addUser n else j).Indexed := by
      refine h.mapInsts fun _ j _ => ?_
      split
      · exact ⟨j.id_addUser n, by unfold Inst.addUser; split <;> rfl⟩
      · exact ⟨rfl, rfl⟩
    rw [List.foldl_cons, h.registerUser_eq, ih hstep, mapInsts_mapInsts]
    refine mapInsts_congr fun _ j _ => ?_
    by_cases hv : v = .result j.id
    · by_cases hvs : .result j.id ∈ vs <;> simp [hv, hvs, Inst.addUser_addUser]
    · simp [hv, Ne.symm hv]

theorem mem_code_insertPhi (hrun : b.insertPhi i = .ok b') :
    j ∈ b'.code k ↔ k = i.block ∧ j = i ∨ j ∈ b.code k := by
  rw [(insertPhi_ok hrun).2.2.1]
  by_cases hk : k = i.block
  · have hperm : ((b.code k).takeWhile Inst.isPhi ++ i :: (b.code k).dropWhile Inst.isPhi).Perm
        (i :: ((b.code k).takeWhile Inst.isPhi ++ (b.code k).dropWhile Inst.isPhi)) :=
      List.perm_middle
    rw [if_pos hk, hperm.mem_iff, List.takeWhile_append_dropWhile, List.mem_cons, and_iff_right hk]
  · simp [hk]

/-- A new instruction comes last in its block, and is noted as a user of its operands. -/
theorem Indexed.code_append (h : b.Indexed) (hfresh : ∀ k, ∀ j ∈ b.code k, j.id ≠ i.id)
    (hrun : b.append i = .ok b') (k : Nat) :
    b'.code k = (if k = i.block then b.code k ++ [i] else b.code k).map
      fun j => if .result j.id ∈ i.operands then j.addUser i.id else j := by
  obtain ⟨_, c, _, hcode, hhome, rfl⟩ := Body.append_ok hrun
  have hc : c.Indexed := by
    refine h.insert hfresh (fun k => ?_) hhome
    rw [hcode]
    split
    · exact List.perm_append_comm
    · exact List.Perm.refl _
  rw [hc.foldl_registerUser_eq, code_mapInsts, hcode]

/-- Adding an operand is a map. -/
theorem Indexed.addOperand_map (h : b.Indexed) (hi : i ∈ b.code k) (hn : i.id = n) :
    (b.addOperand n v).2 = b.mapInsts fun j =>
      if v = .result j.id then (if j.id = n then j.addOperand v else j).addUser n
      else if j.id = n then j.addOperand v else j := by
  have hsome : b.inst? n = some i := h.inst?_eq_some_iff.mpr ⟨k, hi, hn⟩
  have hmap : (b.mapInsts fun j => if j.id = n then j.addOperand v else j).Indexed := by
    refine h.mapInsts fun _ j _ => ?_
    split <;> exact ⟨rfl, rfl⟩
  simp only [addOperand, hsome, h.modifyInst_eq]
  rw [hmap.registerUser_eq, mapInsts_mapInsts]
  refine mapInsts_congr fun _ j _ => ?_
  by_cases hj : j.id = n <;> simp [hj]

/-- The map says which users are noted. -/
theorem Indexed.addOperand_users (h : b.Indexed) (hi : i ∈ b.code k) (hn : i.id = n) (v : Value) :
    ∃ f : Inst → Inst, (b.addOperand n v).2 = b.mapInsts f ∧
      ∀ j, (f j).id = j.id ∧ (f j).op = j.op ∧
        (f j).operands = (if j.id = n then j.operands ++ [v] else j.operands) ∧
        ∀ u, u ∈ (f j).users ↔ u ∈ j.users ∨ v = .result j.id ∧ u = n := by
  refine ⟨_, h.addOperand_map hi hn, fun j => ?_⟩
  by_cases hj : j.id = n
  · subst hj
    by_cases hv : v = .result j.id <;> simp [hv, Inst.addOperand, Inst.mem_users_addUser]
  · by_cases hv : v = .result j.id <;> simp [hv, hj, Inst.mem_users_addUser]

/-- What becomes of an instruction when `us` are made to use `v` in place of `p`. -/
structure Redirected (p : Nat) (v : Value) (us : List Nat) (i j : Inst) : Prop where
  id : j.id = i.id
  block : j.block = i.block
  op : j.op = i.op
  operands : j.operands = i.operands.map fun w => if i.id ∈ us ∧ w = .result p then v else w
  users : ∀ u, u ∈ j.users ↔ u ∈ i.users ∨ v = .result i.id ∧ u ∈ us
  nodup : i.users.Nodup → j.users.Nodup

namespace Redirected

variable {p : Nat} {us us' : List Nat}

theorem refl : Redirected p v [] i i := by
  refine ⟨rfl, rfl, rfl, ?_, by simp, fun h => h⟩
  simp

theorem trans {l : Inst} (h : Redirected p v us i j) (h' : Redirected p v us' j l) :
    Redirected p v (us ++ us') i l where
  id := h'.id.trans h.id
  block := h'.block.trans h.block
  op := h'.op.trans h.op
  operands := by
    rw [h'.operands, h.operands, List.map_map, h.id]
    refine List.map_congr_left fun w _ => ?_
    simp only [Function.comp_apply, List.mem_append]
    by_cases hus : i.id ∈ us ∧ w = .result p
    · have hboth : (i.id ∈ us ∨ i.id ∈ us') ∧ w = .result p := ⟨Or.inl hus.1, hus.2⟩
      rw [if_pos hus, if_pos hboth, ite_self]
    · rw [if_neg hus]
      by_cases hus' : i.id ∈ us' ∧ w = .result p
      · have hboth : (i.id ∈ us ∨ i.id ∈ us') ∧ w = .result p := ⟨Or.inr hus'.1, hus'.2⟩
        rw [if_pos hus', if_pos hboth]
      · rw [if_neg hus', if_neg]
        rintro ⟨hmem | hmem, hw⟩
        · exact hus ⟨hmem, hw⟩
        · exact hus' ⟨hmem, hw⟩
  users u := by
    rw [h'.users, h.users, h.id, List.mem_append]
    tauto
  nodup hn := h'.nodup (h.nodup hn)

/-- An instruction that does not use `p` is only noted. -/
theorem note (hi : i.id = u → ∀ w ∈ i.operands, w = .result p → w = v) :
    Redirected p v [u] i (if v = .result i.id then i.addUser u else i) where
  id := by split <;> simp
  block := by
    unfold Inst.addUser
    split
    · split <;> rfl
    · rfl
  op := by split <;> simp
  operands := by
    have hsame : i.operands.map (fun w => if i.id ∈ [u] ∧ w = .result p then v else w) =
        i.operands := by
      refine (List.map_congr_left fun w hw => ?_).trans (List.map_id _)
      by_cases hp : i.id ∈ [u] ∧ w = .result p
      · rw [if_pos hp]
        exact (hi (List.mem_singleton.mp hp.1) w hw hp.2).symm
      · rw [if_neg hp]
        rfl
    rw [hsame]
    split <;> simp
  users w := by
    by_cases hv : v = .result i.id
    · simp [hv, Inst.mem_users_addUser]
    · simp [hv]
  nodup hn := by
    split
    · exact Inst.nodup_users_addUser hn u
    · exact hn

/-- One user is made to use `v`. -/
theorem single : Redirected p v [u] i
    (if v = .result i.id then (if i.id = u then i.replaceOperand (.result p) v else i).addUser u
      else if i.id = u then i.replaceOperand (.result p) v else i) := by
  by_cases hu : i.id = u
  · simp only [if_pos hu]
    constructor
    case id => split <;> simp
    case block =>
      unfold Inst.addUser
      split
      · split <;> rfl
      · rfl
    case op => split <;> simp [Inst.replaceOperand]
    case operands => split <;> simp [Inst.replaceOperand, hu]
    case users =>
      intro w
      by_cases hv : v = .result i.id
      · simp [hv, Inst.mem_users_addUser, Inst.replaceOperand]
      · simp [hv, Inst.replaceOperand]
    case nodup =>
      intro hn
      split
      · exact Inst.nodup_users_addUser (i := i.replaceOperand (.result p) v) hn u
      · exact hn
  · simp only [if_neg hu]
    exact note fun hid => absurd hid hu

end Redirected

theorem Indexed.foldl_redirected (h : b.Indexed) {p : Nat} (l : List Nat) : ∃ f : Inst → Inst,
    (∀ i, Redirected p v l i (f i)) ∧
    l.foldl (fun b u => (b.modifyInst u (·.replaceOperand (.result p) v)).registerUser v u) b =
      b.mapInsts f := by
  induction l generalizing b with
  | nil => exact ⟨fun i => i, fun _ => .refl, mapInsts_id.symm⟩
  | cons u l ih =>
    let g : Inst → Inst := fun j => if j.id = u then j.replaceOperand (.result p) v else j
    let g' : Inst → Inst := fun j => if v = .result j.id then j.addUser u else j
    have hg : ∀ i, (g i).id = i.id ∧ (g i).block = i.block := by
      intro i
      simp only [g]
      split <;> exact ⟨rfl, rfl⟩
    have hstep : ∀ i, Redirected p v [u] i (g' (g i)) := by
      intro i
      simp only [g', (hg i).1]
      exact .single
    have h₁ : (b.mapInsts g).Indexed := h.mapInsts fun _ i _ => hg i
    have h₂ : ((b.mapInsts g).mapInsts g').Indexed := by
      rw [mapInsts_mapInsts]
      exact h.mapInsts fun _ i _ => ⟨(hstep i).id, (hstep i).block⟩
    obtain ⟨f, hf, hfold⟩ := ih h₂
    refine ⟨fun i => f (g' (g i)), fun i => (hstep i).trans (hf _), ?_⟩
    rw [List.foldl_cons, h.modifyInst_eq, h₁.registerUser_eq, hfold, mapInsts_mapInsts,
      mapInsts_mapInsts]

/-- The copy that takes the place of a PHI. -/
def copyOf (phi : Inst) (v : Value) : Inst :=
  { op := .mov, id := phi.id, block := phi.block, operands := [v],
    users := phi.users.filter (· ≠ phi.id) }

/-- Removing a PHI is a map: the PHI becomes a copy, and its users are made to use `v`. -/
theorem Indexed.forwardPhi_map (h : b.Indexed) (hphi : phi ∈ b.code k) (v : Value) :
    ∃ f : Inst → Inst, b.forwardPhi phi v = b.mapInsts f ∧ (b.mapInsts f).Indexed ∧
      ∀ i, Redirected phi.id v (phi.id :: phi.users.filter (· ≠ phi.id))
        (if i.id = phi.id then copyOf phi v else i) (f i) := by
  let g : Inst → Inst := fun j => if j.id = phi.id then copyOf phi v else j
  let g' : Inst → Inst := fun j => if v = .result j.id then j.addUser phi.id else j
  have hnote : ∀ i, Redirected phi.id v [phi.id] (g i) (g' (g i)) := by
    intro i
    refine Redirected.note fun hid w hw _ => ?_
    simp only [g] at hid hw
    split at hw
    · exact List.mem_singleton.mp hw
    · next hne => simp [hne] at hid
  have h₁ : (b.mapInsts g).Indexed := by
    refine h.mapInsts fun l i hi => ?_
    by_cases hid : i.id = phi.id
    · simp only [g, if_pos hid]
      exact ⟨hid.symm, by rw [h.eq_of_id_eq hi hphi hid]; rfl⟩
    · simp only [g, if_neg hid, and_self]
  have h₂ : ((b.mapInsts g).mapInsts g').Indexed := by
    refine h₁.mapInsts fun l j hj => ?_
    rw [code_mapInsts] at hj
    obtain ⟨i, _, rfl⟩ := List.mem_map.mp hj
    exact ⟨(hnote i).id, (hnote i).block⟩
  obtain ⟨f, hf, hfold⟩ := h₂.foldl_redirected (v := v) (phi.users.filter (· ≠ phi.id))
  refine ⟨fun i => f (g' (g i)), ?_, ?_, fun i => (hnote i).trans (hf _)⟩
  case refine_2 =>
    have := h₂.mapInsts fun _ i _ => ⟨(hf i).id, (hf i).block⟩
    rwa [mapInsts_mapInsts, mapInsts_mapInsts] at this
  have hreplace : (b.replaceInst phi.id (copyOf phi v)).2 = b.mapInsts g :=
    h.replaceInst_eq hphi rfl
  have hforward : b.forwardPhi phi v = (phi.users.filter (· ≠ phi.id)).foldl (fun b u =>
      (b.modifyInst u (·.replaceOperand (.result phi.id) v)).registerUser v u)
      (((b.replaceInst phi.id (copyOf phi v)).2).registerUser v phi.id) := rfl
  rw [hforward, hreplace, h₁.registerUser_eq, hfold, mapInsts_mapInsts, mapInsts_mapInsts]

/-- One PHI less. -/
theorem length_phis_mapInsts {f : Inst → Inst}
    (hf : ∀ k, ∀ i ∈ b.code k, (f i).isPhi = true → i.isPhi = true) (hphi : phi ∈ b.code k)
    (hop : phi.isPhi = true) (hfphi : (f phi).isPhi = false) :
    (b.mapInsts f).phis.length < b.phis.length := by
  have hinsts : (b.mapInsts f).insts = b.insts.map f := by
    simp [insts, Graph.insts, mapInsts, List.flatMap_map, List.map_flatMap]
  have hsub : ((b.insts.filter fun i => (f i).isPhi).Sublist (b.insts.filter Inst.isPhi)) := by
    have : b.insts.filter (fun i => (f i).isPhi) =
        (b.insts.filter Inst.isPhi).filter fun i => (f i).isPhi := by
      rw [List.filter_filter]
      refine List.filter_congr fun i hi => ?_
      obtain ⟨k, hk⟩ := mem_insts_iff.mp hi
      cases h : (f i).isPhi with
      | false => rfl
      | true => simp [hf k i hk h]
    rw [this]
    exact List.filter_sublist
  have hlength : (b.mapInsts f).phis.length = (b.insts.filter fun i => (f i).isPhi).length := by
    rw [phis, hinsts, List.filter_map, List.length_map]
    rfl
  rw [hlength]
  refine Nat.lt_of_le_of_ne hsub.length_le fun heq => ?_
  have hphi' : phi ∈ b.insts.filter Inst.isPhi :=
    List.mem_filter.mpr ⟨mem_insts_iff.mpr ⟨k, hphi⟩, hop⟩
  rw [← hsub.eq_of_length heq, List.mem_filter, hfphi] at hphi'
  exact absurd hphi'.2 (by simp)

/-- A removal leaves one PHI less. -/
theorem Indexed.length_phis_forwardPhi (h : b.Indexed) (hphi : phi ∈ b.code k)
    (hop : phi.op = .phi) (v : Value) : (b.forwardPhi phi v).phis.length < b.phis.length := by
  obtain ⟨f, hmap, _, hf⟩ := h.forwardPhi_map hphi v
  -- nothing becomes a PHI, and this one is none any more
  have hphis : ∀ i, (f i).op = .phi → i.id ≠ phi.id ∧ i.op = .phi := by
    intro i hfop
    rw [(hf i).op] at hfop
    split at hfop
    · cases hfop
    · next hne => exact ⟨hne, hfop⟩
  rw [hmap]
  refine length_phis_mapInsts (fun k i _ hfi => ?_) hphi (by simp [Inst.isPhi, hop]) ?_
  · simpa [Inst.isPhi] using (hphis i (by simpa [Inst.isPhi] using hfi)).2
  · simpa [Inst.isPhi] using fun hfop => (hphis phi hfop).1 rfl

/-! ## The changes keep the users exact -/

namespace Tracked

/-- Blocks and edges do not matter. -/
theorem congr (h : Tracked removed b) (hcode : ∀ k, b'.code k = b.code k) : Tracked removed b' := by
  have huses : ∀ u d, b'.Uses u d ↔ b.Uses u d := by
    intro u d
    simp only [Uses, hcode]
  constructor
  · intro k i hi
    exact h.nodup k i (hcode k ▸ hi)
  · intro k i hi hid u
    rw [huses]
    exact h.users k i (hcode k ▸ hi) hid u
  · intro u d hd
    rw [huses]
    exact h.unused u d hd

/-- A new PHI has no operands, and nothing uses it. -/
theorem insertPhi (h : Tracked removed b) (hnew : ∀ u, ¬ b.Uses u i.id)
    (hoperands : i.operands = [])
    (husers : i.users = []) (hrun : b.insertPhi i = .ok b') : Tracked removed b' := by
  have hmem : ∀ k j, j ∈ b'.code k ↔ k = i.block ∧ j = i ∨ j ∈ b.code k :=
    fun _ _ => mem_code_insertPhi hrun
  have huses : ∀ u d, b'.Uses u d ↔ b.Uses u d := by
    intro u d
    constructor
    · rintro ⟨k, j, hj, hid, ho⟩
      rcases (hmem k j).mp hj with ⟨_, rfl⟩ | hj
      · simp [hoperands] at ho
      · exact ⟨k, j, hj, hid, ho⟩
    · rintro ⟨k, j, hj, hrest⟩
      exact ⟨k, j, (hmem k j).mpr (Or.inr hj), hrest⟩
  constructor
  · intro k j hj
    rcases (hmem k j).mp hj with ⟨_, rfl⟩ | hj
    · simp [husers]
    · exact h.nodup k j hj
  · intro k j hj hid u
    rw [huses]
    rcases (hmem k j).mp hj with ⟨_, rfl⟩ | hj
    · simp [husers, hnew u]
    · exact h.users k j hj hid u
  · intro u d hd
    rw [huses]
    exact h.unused u d hd

/-- A new instruction uses its operands, and nothing uses it. -/
theorem append (h : Tracked removed b) (hb : b.Indexed) (hfresh : ∀ k, ∀ j ∈ b.code k, j.id ≠ i.id)
    (hnew : ∀ u, ¬ b.Uses u i.id) (hself : .result i.id ∉ i.operands)
    (hlive : ∀ d ∈ removed, .result d ∉ i.operands) (husers : i.users = [])
    (hrun : b.append i = .ok b') : Tracked removed b' := by
  have hmem : ∀ k j, j ∈ b'.code k ↔ ∃ l, (k = i.block ∧ l = i ∨ l ∈ b.code k) ∧
      (if .result l.id ∈ i.operands then l.addUser i.id else l) = j := by
    intro k j
    rw [hb.code_append hfresh hrun, List.mem_map]
    refine exists_congr fun l => and_congr_left fun _ => ?_
    by_cases hk : k = i.block
    · simp [hk, or_comm]
    · simp [hk]
  have hid : ∀ l : Inst, (if .result l.id ∈ i.operands then l.addUser i.id else l).id = l.id := by
    intro l
    split <;> simp
  have hoperands : ∀ l : Inst,
      (if .result l.id ∈ i.operands then l.addUser i.id else l).operands = l.operands := by
    intro l
    split <;> simp
  have huses : ∀ u d, b'.Uses u d ↔ b.Uses u d ∨ u = i.id ∧ .result d ∈ i.operands := by
    intro u d
    constructor
    · rintro ⟨k, j, hj, hju, ho⟩
      obtain ⟨l, hl, rfl⟩ := (hmem k j).mp hj
      rw [hid] at hju
      rw [hoperands] at ho
      rcases hl with ⟨_, rfl⟩ | hl
      · exact Or.inr ⟨hju.symm, ho⟩
      · exact Or.inl ⟨k, l, hl, hju, ho⟩
    · rintro (⟨k, l, hl, hlu, ho⟩ | ⟨rfl, ho⟩)
      · exact ⟨k, _, (hmem k _).mpr ⟨l, Or.inr hl, rfl⟩, (hid l).trans hlu, (hoperands l).symm ▸ ho⟩
      · exact ⟨i.block, _, (hmem _ _).mpr ⟨i, Or.inl ⟨rfl, rfl⟩, rfl⟩, hid i,
          (hoperands i).symm ▸ ho⟩
  constructor
  · intro k j hj
    obtain ⟨l, hl, rfl⟩ := (hmem k j).mp hj
    have hn : l.users.Nodup := by
      rcases hl with ⟨_, rfl⟩ | hl
      · simp [husers]
      · exact h.nodup k l hl
    split
    · exact Inst.nodup_users_addUser hn i.id
    · exact hn
  · intro k j hj hnot u
    obtain ⟨l, hl, rfl⟩ := (hmem k j).mp hj
    rw [hid] at hnot
    rw [hid, huses]
    have hold : u ∈ l.users ↔ b.Uses u l.id := by
      rcases hl with ⟨_, rfl⟩ | hl
      · simp [husers, hnew u]
      · exact h.users k l hl hnot u
    by_cases ho : .result l.id ∈ i.operands
    · rw [if_pos ho, Inst.mem_users_addUser, hold]
      simp [ho]
    · rw [if_neg ho, hold]
      simp [ho]
  · intro u d hd
    rw [huses, not_or, not_and]
    exact ⟨h.unused u d hd, fun _ => hlive d hd⟩

/-- An instruction with one more operand uses it. -/
theorem addOperand (h : Tracked removed b) (hb : b.Indexed) (hi : i ∈ b.code k) (hn : i.id = n)
    (hlive : ∀ d ∈ removed, v ≠ .result d) : Tracked removed (b.addOperand n v).2 := by
  let f : Inst → Inst := fun j =>
    if v = .result j.id then (if j.id = n then j.addOperand v else j).addUser n
    else if j.id = n then j.addOperand v else j
  have hmap : (b.addOperand n v).2 = b.mapInsts f := hb.addOperand_map hi hn
  have hid : ∀ j, (f j).id = j.id := by
    intro j
    simp only [f]
    split <;> split <;> simp
  have hoperands : ∀ j w, w ∈ (f j).operands ↔ w ∈ j.operands ∨ j.id = n ∧ w = v := by
    intro j w
    simp only [f]
    split <;> split <;> simp [Inst.addOperand, *]
  have husers : ∀ j u, u ∈ (f j).users ↔ u ∈ j.users ∨ v = .result j.id ∧ u = n := by
    intro j u
    have hsame : (if j.id = n then j.addOperand v else j).users = j.users := by
      split <;> rfl
    simp only [f]
    split
    · next hv => rw [Inst.mem_users_addUser, hsame, and_iff_right hv]
    · next hv => simp [hsame, hv]
  have hnodup : ∀ j : Inst, j.users.Nodup → (f j).users.Nodup := by
    intro j hj
    have hsame : (if j.id = n then j.addOperand v else j).users.Nodup := by
      split <;> exact hj
    simp only [f]
    split
    · exact Inst.nodup_users_addUser hsame n
    · exact hsame
  have huses : ∀ u d, (b.mapInsts f).Uses u d ↔ b.Uses u d ∨ u = n ∧ v = .result d := by
    intro u d
    simp only [Uses, code_mapInsts, List.mem_map]
    constructor
    · rintro ⟨l, _, ⟨j, hj, rfl⟩, hju, ho⟩
      rw [hid] at hju
      rcases (hoperands j _).mp ho with ho | ⟨hjn, ho⟩
      · exact Or.inl ⟨l, j, hj, hju, ho⟩
      · exact Or.inr ⟨hju.symm.trans hjn, ho.symm⟩
    · rintro (⟨l, j, hj, hju, ho⟩ | ⟨rfl, ho⟩)
      · exact ⟨l, _, ⟨j, hj, rfl⟩, (hid j).trans hju, (hoperands j _).mpr (Or.inl ho)⟩
      · exact ⟨k, _, ⟨i, hi, rfl⟩, (hid i).trans hn, (hoperands i _).mpr (Or.inr ⟨hn, ho.symm⟩)⟩
  rw [hmap]
  constructor
  · intro l _ hmem
    rw [code_mapInsts] at hmem
    obtain ⟨j, hj, rfl⟩ := List.mem_map.mp hmem
    exact hnodup j (h.nodup l j hj)
  · intro l _ hmem hnot u
    rw [code_mapInsts] at hmem
    obtain ⟨j, hj, rfl⟩ := List.mem_map.mp hmem
    rw [hid] at hnot
    rw [hid, huses, husers, h.users l j hj hnot u, and_comm]
  · intro u d hd
    rw [huses, not_or, not_and]
    exact ⟨h.unused u d hd, fun _ => hlive d hd⟩

/-- **A PHI gives way to the only other value among its operands**, and is not used any
more. -/
theorem forwardPhi (h : Tracked removed b) (hb : b.Indexed) (hphi : phi ∈ b.code k)
    (hnot : phi.id ∉ removed) (hv : v ≠ .result phi.id) (hlive : ∀ d ∈ removed, v ≠ .result d)
    (hmerged : ∀ o ∈ phi.operands, o = .result phi.id ∨ o = v) :
    Tracked (removed ++ [phi.id]) (b.forwardPhi phi v) := by
  obtain ⟨f, hmap, _, hf⟩ := hb.forwardPhi_map hphi v
  have hself : Redirected phi.id v (phi.id :: phi.users.filter (· ≠ phi.id)) (copyOf phi v)
      (f phi) := by
    have := hf phi
    rwa [if_pos rfl] at this
  have hother : ∀ i : Inst, i.id ≠ phi.id →
      Redirected phi.id v (phi.id :: phi.users.filter (· ≠ phi.id)) i (f i) := by
    intro i hi
    have := hf i
    rwa [if_neg hi] at this
  have hcopy : (f phi).operands = [v] := by
    rw [hself.operands]
    simp [copyOf]
  -- an instruction is made to use the value if it used the PHI
  have husers : ∀ l, ∀ i ∈ b.code l, i.id ≠ phi.id →
      (i.id ∈ phi.id :: phi.users.filter (· ≠ phi.id) ↔ .result phi.id ∈ i.operands) := by
    intro l i hi hne
    rw [List.mem_cons, List.mem_filter, h.users k phi hphi hnot]
    constructor
    · rintro (hid | ⟨⟨m, j, hj, hji, ho⟩, _⟩)
      · exact absurd hid hne
      · rwa [← hb.eq_of_id_eq hj hi hji]
    · exact fun ho => Or.inr ⟨⟨l, i, hi, rfl, ho⟩, by simpa using hne⟩
  have hoperands : ∀ l, ∀ i ∈ b.code l, i.id ≠ phi.id → ∀ d, .result d ∈ (f i).operands ↔
      d ≠ phi.id ∧ .result d ∈ i.operands ∨ v = .result d ∧ .result phi.id ∈ i.operands := by
    intro l i hi hne d
    rw [(hother i hne).operands, List.mem_map]
    simp only [husers l i hi hne]
    constructor
    · rintro ⟨w, hw, hwd⟩
      split at hwd
      · next hp => exact Or.inr ⟨hwd, hp.1⟩
      · next hp =>
        subst hwd
        refine Or.inl ⟨?_, hw⟩
        rintro rfl
        exact hp ⟨hw, rfl⟩
    · rintro (⟨hd, ho⟩ | ⟨hvd, ho⟩)
      · exact ⟨_, ho, if_neg fun hp => hd (Value.result.inj hp.2)⟩
      · exact ⟨_, ho, (if_pos ⟨ho, rfl⟩).trans hvd⟩
  have huses : ∀ u d, (b.mapInsts f).Uses u d ↔ d ≠ phi.id ∧ u ≠ phi.id ∧ b.Uses u d ∨
      v = .result d ∧ (u = phi.id ∨ u ≠ phi.id ∧ b.Uses u phi.id) := by
    intro u d
    simp only [Uses, code_mapInsts, List.mem_map]
    constructor
    · rintro ⟨l, _, ⟨i, hi, rfl⟩, hiu, ho⟩
      by_cases hid : i.id = phi.id
      · obtain rfl := hb.eq_of_id_eq hi hphi hid
        rw [hcopy, List.mem_singleton] at ho
        exact Or.inr ⟨ho.symm, Or.inl (hiu.symm.trans hself.id)⟩
      · rw [(hother i hid).id] at hiu
        subst hiu
        rcases (hoperands l i hi hid d).mp ho with ⟨hd, ho⟩ | ⟨hvd, ho⟩
        · exact Or.inl ⟨hd, hid, l, i, hi, rfl, ho⟩
        · exact Or.inr ⟨hvd, Or.inr ⟨hid, l, i, hi, rfl, ho⟩⟩
    · rintro (⟨hd, hu, l, i, hi, rfl, ho⟩ | ⟨hvd, rfl | ⟨hu, l, i, hi, rfl, ho⟩⟩)
      · exact ⟨l, _, ⟨i, hi, rfl⟩, (hother i hu).id, (hoperands l i hi hu d).mpr (Or.inl ⟨hd, ho⟩)⟩
      · exact ⟨k, _, ⟨phi, hphi, rfl⟩, hself.id, by simp [hcopy, hvd]⟩
      · exact ⟨l, _, ⟨i, hi, rfl⟩, (hother i hu).id, (hoperands l i hi hu d).mpr (Or.inr ⟨hvd, ho⟩)⟩
  rw [hmap]
  constructor
  · intro l j hj
    rw [code_mapInsts] at hj
    obtain ⟨i, hi, rfl⟩ := List.mem_map.mp hj
    by_cases hid : i.id = phi.id
    · obtain rfl := hb.eq_of_id_eq hi hphi hid
      exact hself.nodup ((h.nodup l i hi).filter _)
    · exact (hother i hid).nodup (h.nodup l i hi)
  · intro l j hj hnot' u
    rw [code_mapInsts] at hj
    obtain ⟨i, hi, rfl⟩ := List.mem_map.mp hj
    have hid : i.id ≠ phi.id := by
      rintro hid
      obtain rfl := hb.eq_of_id_eq hi hphi hid
      exact hnot' (hself.id.symm ▸ List.mem_append_right _ (List.mem_singleton_self _))
    rw [(hother i hid).id] at hnot' ⊢
    have hi' : i.id ∉ removed := fun hmem => hnot' (List.mem_append_left _ hmem)
    rw [huses, (hother i hid).users, h.users l i hi hi']
    have hphi' : u ∈ phi.id :: phi.users.filter (· ≠ phi.id) ↔
        u = phi.id ∨ u ≠ phi.id ∧ b.Uses u phi.id := by
      rw [List.mem_cons, List.mem_filter, h.users k phi hphi hnot]
      simp [and_comm]
    rw [hphi']
    -- the PHI itself used only the value that takes its place
    have hval : b.Uses phi.id i.id → v = .result i.id := by
      rintro ⟨m, j, hj, hjp, ho⟩
      obtain rfl := hb.eq_of_id_eq hj hphi hjp
      rcases hmerged _ ho with hself' | hv'
      · exact absurd (Value.result.inj hself') hid
      · exact hv'.symm
    by_cases hu : u = phi.id
    · subst hu
      simp only [ne_eq, not_true, false_and, and_false, false_or, true_or, and_true]
      exact ⟨fun hor => hor.elim hval id, Or.inr⟩
    · simp [hu, hid]
  · intro u d hd
    rw [huses]
    rintro (⟨hne, _, huse⟩ | ⟨hvd, _⟩)
    · rcases List.mem_append.mp hd with hd | hd
      · exact h.unused u d hd huse
      · exact hne (List.mem_singleton.mp hd)
    · rcases List.mem_append.mp hd with hd | hd
      · exact hlive d hd hvd
      · exact hv (hvd.trans (congrArg _ (List.mem_singleton.mp hd)))

end Tracked

end Body

end Compiler16.Ssa
