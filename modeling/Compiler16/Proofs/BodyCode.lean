import Compiler16.Ssa.Body
import Mathlib.Data.List.Nodup
import Mathlib.Data.List.Perm.Basic

/-!
# The code of a body

A body is looked at through the instructions of each block, `Body.code`, and the
predecessors of each block.  On a body whose index is exact (`Body.Indexed`) the
changes of single instructions are maps over all of them, so a sequence of such
changes is one map: `Indexed.forwardPhi_eq` says so of the removal of a PHI.

## Main definitions

* `Body.code`: the instructions of a block
* `Body.mapInsts`: a body with every instruction changed
* `Body.Indexed`: numbers are unique, and the index says where they are

## Main results

* `Indexed.inst?_eq_some_iff`: looking a number up finds the instruction that has it
* `Indexed.modifyInst_eq`: changing one instruction is a map
* `insertPhi_ok`, `append_ok`: where new instructions go
-/

namespace Compiler16.Ssa

open Compiler16.Flow

/-! ## Lists whose elements have numbers of their own -/

section Lists

variable {l : List Inst} {n : Nat}

theorem modify_findIdx_eq_map (hl : (l.map Inst.id).Nodup) (f : Inst → Inst) :
    l.modify (l.findIdx (·.id == n)) f = l.map fun j => if j.id = n then f j else j := by
  induction l with
  | nil => rfl
  | cons i l ih =>
    rw [List.map_cons, List.nodup_cons] at hl
    by_cases hi : i.id = n
    · have hrest : (l.map fun j => if j.id = n then f j else j) = l := by
        refine (List.map_congr_left fun j hj => if_neg fun hjn => ?_).trans (List.map_id _)
        exact hl.1 (List.mem_map.mpr ⟨j, hj, hjn.trans hi.symm⟩)
      simp [List.findIdx_cons, hi, hrest]
    · have hi' : (i.id == n) = false := by simpa using hi
      simp [List.findIdx_cons, hi', hi, ih hl.2]

theorem replace_eq_map {old : Inst} (hl : (l.map Inst.id).Nodup) (hold : old ∈ l) (new : Inst) :
    l.replace old new = l.map fun j => if j.id = old.id then new else j := by
  induction l with
  | nil => cases hold
  | cons i l ih =>
    rw [List.map_cons, List.nodup_cons] at hl
    by_cases hi : old = i
    · subst hi
      have hrest : (l.map fun j => if j.id = old.id then new else j) = l := by
        refine (List.map_congr_left fun j hj => if_neg fun hjn => ?_).trans (List.map_id _)
        exact hl.1 (List.mem_map.mpr ⟨j, hj, hjn⟩)
      simp [hrest]
    · have hmem : old ∈ l := (List.mem_cons.mp hold).resolve_left hi
      have hid : i.id ≠ old.id := fun h => hl.1 (List.mem_map.mpr ⟨old, hmem, h.symm⟩)
      have hi' : (old == i) = false := by simpa using hi
      simp [List.replace_cons, hi', hid, ih hl.2 hmem]

end Lists

@[simp] theorem Inst.operands_addUser (i : Inst) (user : Nat) :
    (i.addUser user).operands = i.operands := by
  unfold Inst.addUser
  split <;> rfl

namespace Body

variable {b : Body}

/-- The instructions of a block, none if there is no such block. -/
def code (b : Body) (block : Nat) : List Inst :=
  match b.graph.block? block with
  | some B => B.insts
  | none => []

/-- The sources of the edges into a block. -/
abbrev preds (b : Body) (block : Nat) : List Nat := b.graph.predecessors block

/-- The body with every instruction changed. -/
def mapInsts (b : Body) (f : Inst → Inst) : Body :=
  { b with graph := ⟨b.graph.blocks.map fun B => { B with insts := B.insts.map f }⟩ }

/-! ## Views of a map -/

section Map

variable (b) (f g : Inst → Inst) (block : Nat)

theorem block?_mapInsts : (b.mapInsts f).graph.block? block =
    (b.graph.block? block).map fun B => { B with insts := B.insts.map f } := by
  simp [mapInsts, Graph.block?]

@[simp] theorem code_mapInsts : (b.mapInsts f).code block = (b.code block).map f := by
  unfold code
  rw [block?_mapInsts]
  cases b.graph.block? block <;> rfl

@[simp] theorem preds_mapInsts : (b.mapInsts f).preds block = b.preds block := by
  unfold preds Graph.predecessors
  rw [block?_mapInsts]
  cases b.graph.block? block <;> rfl

@[simp] theorem successors_mapInsts :
    (b.mapInsts f).graph.successors block = b.graph.successors block := by
  unfold Graph.successors
  rw [block?_mapInsts]
  cases b.graph.block? block <;> rfl

@[simp] theorem size_mapInsts : (b.mapInsts f).graph.size = b.graph.size := by
  simp [mapInsts, Graph.size]

@[simp] theorem home_mapInsts : (b.mapInsts f).home = b.home := rfl

@[simp] theorem arguments_mapInsts : (b.mapInsts f).arguments = b.arguments := rfl

theorem mapInsts_mapInsts : (b.mapInsts f).mapInsts g = b.mapInsts fun i => g (f i) := by
  simp [mapInsts, Function.comp_def]

end Map

theorem mapInsts_congr {f g : Inst → Inst} (h : ∀ block, ∀ i ∈ b.code block, f i = g i) :
    b.mapInsts f = b.mapInsts g := by
  have hblocks : (b.graph.blocks.map fun B => { B with insts := B.insts.map f }) =
      b.graph.blocks.map fun B => { B with insts := B.insts.map g } := by
    refine List.map_congr_left fun B hB => ?_
    obtain ⟨k, hk⟩ := List.getElem?_of_mem hB
    have hcode : b.code k = B.insts := by simp [code, Graph.block?, hk]
    rw [List.map_congr_left fun i hi => h k i (hcode ▸ hi)]
  simp [mapInsts, hblocks]

theorem mapInsts_id : b.mapInsts (fun i => i) = b := by
  simp [mapInsts]

theorem block?_of_mem_code {block : Nat} {i : Inst} (h : i ∈ b.code block) :
    ∃ B, b.graph.block? block = some B ∧ i ∈ B.insts := by
  unfold code at h
  cases hB : b.graph.block? block with
  | none => simp [hB] at h
  | some B => exact ⟨B, rfl, by simpa [hB] using h⟩

theorem lt_size_of_mem_code {block : Nat} {i : Inst} (h : i ∈ b.code block) :
    block < b.graph.size := by
  obtain ⟨B, hB, _⟩ := block?_of_mem_code h
  exact (b.graph.block?_isSome_iff block).mp (by simp [hB])

theorem code_eq_nil {block : Nat} (h : b.graph.size ≤ block) : b.code block = [] :=
  List.eq_nil_iff_forall_not_mem.mpr fun _ hi =>
    Nat.lt_irrefl _ (Nat.lt_of_lt_of_le (lt_size_of_mem_code hi) h)

theorem lt_size_of_mem_preds {block q : Nat} (h : q ∈ b.preds block) : block < b.graph.size := by
  rw [← b.graph.block?_isSome_iff]
  rw [preds, Graph.predecessors] at h
  cases hB : b.graph.block? block with
  | none => simp [hB] at h
  | some B => rfl

theorem code_of_block? {block : Nat} {B : Block Inst} (h : b.graph.block? block = some B) :
    b.code block = B.insts := by
  simp [code, h]

/-- The instructions of a body are those of its blocks. -/
theorem mem_insts_iff {i : Inst} : i ∈ b.insts ↔ ∃ block, i ∈ b.code block := by
  simp only [insts, Graph.insts, List.mem_flatMap]
  constructor
  · rintro ⟨B, hB, hi⟩
    obtain ⟨k, hk⟩ := List.getElem?_of_mem hB
    exact ⟨k, code_of_block? (b := b) hk ▸ hi⟩
  · rintro ⟨k, hi⟩
    obtain ⟨B, hB, hi⟩ := block?_of_mem_code hi
    exact ⟨B, List.mem_of_getElem? hB, hi⟩

theorem mem_phis_iff {i : Inst} : i ∈ b.phis ↔ ∃ block, i ∈ b.code block ∧ i.op = .phi := by
  simp [phis, List.mem_filter, mem_insts_iff, Inst.isPhi]

/-! ## Exact indices -/

/-- Numbers are unique, every instruction names its block, and the index says in
which block a number is. -/
structure Indexed (b : Body) : Prop where
  home_iff : ∀ n block, b.home.get? n = some block ↔ ∃ i ∈ b.code block, i.id = n
  block_eq : ∀ block, ∀ i ∈ b.code block, i.block = block
  nodup : ∀ block, ((b.code block).map Inst.id).Nodup

namespace Indexed

theorem block_unique (h : b.Indexed) {k l : Nat} {i j : Inst} (hi : i ∈ b.code k)
    (hj : j ∈ b.code l) (hij : i.id = j.id) : k = l := by
  have hk := (h.home_iff i.id k).mpr ⟨i, hi, rfl⟩
  have hl := (h.home_iff i.id l).mpr ⟨j, hj, hij.symm⟩
  exact Option.some.inj (hk.symm.trans hl)

theorem eq_of_id_eq (h : b.Indexed) {k l : Nat} {i j : Inst} (hi : i ∈ b.code k)
    (hj : j ∈ b.code l) (hij : i.id = j.id) : i = j := by
  obtain rfl := h.block_unique hi hj hij
  exact List.inj_on_of_nodup_map (h.nodup k) hi hj hij

/-- Looking a number up finds the instruction that has it. -/
theorem inst?_eq_some_iff (h : b.Indexed) {n : Nat} {i : Inst} :
    b.inst? n = some i ↔ ∃ block, i ∈ b.code block ∧ i.id = n := by
  unfold inst?
  constructor
  · intro hi
    simp only [Option.bind_eq_bind, Option.bind_eq_some_iff] at hi
    obtain ⟨k, _, B, hB, hf⟩ := hi
    refine ⟨k, ?_, by simpa using List.find?_some hf⟩
    rw [code_of_block? hB]
    exact List.mem_of_find?_eq_some hf
  · rintro ⟨k, hi, rfl⟩
    obtain ⟨B, hB, hiB⟩ := block?_of_mem_code hi
    have hk := (h.home_iff i.id k).mpr ⟨i, hi, rfl⟩
    cases hf : B.insts.find? (·.id == i.id) with
    | none =>
      rw [List.find?_eq_none] at hf
      exact absurd (hf i hiB) (by simp)
    | some j =>
      have hj : j ∈ b.code k := by
        rw [code_of_block? hB]
        exact List.mem_of_find?_eq_some hf
      have hid : j.id = i.id := by simpa using List.find?_some hf
      simp [hk, hB, hf, h.eq_of_id_eq hj hi hid]

/-- So does looking a PHI up. -/
theorem isPhi_iff (h : b.Indexed) {n : Nat} :
    b.isPhi n = true ↔ ∃ block, ∃ i ∈ b.code block, i.id = n ∧ i.op = .phi := by
  simp only [isPhi, Option.any_eq_true, h.inst?_eq_some_iff, Inst.isPhi, beq_iff_eq]
  constructor
  · rintro ⟨i, ⟨k, hi, hid⟩, hop⟩
    exact ⟨k, i, hi, hid, hop⟩
  · rintro ⟨k, i, hi, hid, hop⟩
    exact ⟨i, ⟨k, hi, hid⟩, hop⟩

/-- Blocks and edges do not matter. -/
theorem congr (h : b.Indexed) {b' : Body} (hcode : ∀ k, b'.code k = b.code k)
    (hhome : b'.home = b.home) : b'.Indexed where
  home_iff n block := by
    rw [hhome, hcode]
    exact h.home_iff n block
  block_eq block i hi := h.block_eq block i (hcode block ▸ hi)
  nodup block := by
    rw [hcode]
    exact h.nodup block

/-- A map that keeps numbers and blocks keeps the index exact. -/
theorem mapInsts (h : b.Indexed) {f : Inst → Inst}
    (hf : ∀ block, ∀ i ∈ b.code block, (f i).id = i.id ∧ (f i).block = i.block) :
    (b.mapInsts f).Indexed where
  home_iff n block := by
    rw [home_mapInsts, h.home_iff, code_mapInsts]
    constructor
    · rintro ⟨i, hi, rfl⟩
      exact ⟨f i, List.mem_map_of_mem hi, (hf block i hi).1⟩
    · rintro ⟨j, hj, rfl⟩
      obtain ⟨i, hi, rfl⟩ := List.mem_map.mp hj
      exact ⟨i, hi, (hf block i hi).1.symm⟩
  block_eq block j hj := by
    rw [code_mapInsts] at hj
    obtain ⟨i, hi, rfl⟩ := List.mem_map.mp hj
    rw [(hf block i hi).2]
    exact h.block_eq block i hi
  nodup block := by
    rw [code_mapInsts, List.map_map]
    have hids : (b.code block).map (Inst.id ∘ f) = (b.code block).map Inst.id :=
      List.map_congr_left fun i hi => (hf block i hi).1
    rw [hids]
    exact h.nodup block

/-- A new instruction in its own block keeps the index exact. -/
theorem insert (h : b.Indexed) {b' : Body} {i : Inst}
    (fresh : ∀ block, ∀ j ∈ b.code block, j.id ≠ i.id)
    (hcode : ∀ block, (b'.code block).Perm
      (if block = i.block then i :: b.code block else b.code block))
    (hhome : ∀ n, b'.home.get? n = if i.id = n then some i.block else b.home.get? n) :
    b'.Indexed := by
  have hmem : ∀ block j, j ∈ b'.code block ↔ block = i.block ∧ j = i ∨ j ∈ b.code block := by
    intro block j
    rw [(hcode block).mem_iff]
    split
    · simp [*]
    · simp [*]
  refine ⟨fun n block => ?_, fun block j hj => ?_, fun block => ?_⟩
  · rw [hhome]
    split
    · next hn =>
      subst hn
      constructor
      · rintro ⟨rfl⟩
        exact ⟨i, (hmem _ _).mpr (Or.inl ⟨rfl, rfl⟩), rfl⟩
      · rintro ⟨j, hj, hid⟩
        rcases (hmem _ _).mp hj with ⟨rfl, _⟩ | hj
        · rfl
        · exact absurd hid (fresh block j hj)
    · next hn =>
      rw [h.home_iff]
      constructor
      · rintro ⟨j, hj, hid⟩
        exact ⟨j, (hmem _ _).mpr (Or.inr hj), hid⟩
      · rintro ⟨j, hj, hid⟩
        rcases (hmem _ _).mp hj with ⟨_, rfl⟩ | hj
        · exact absurd hid hn
        · exact ⟨j, hj, hid⟩
  · rcases (hmem _ _).mp hj with ⟨rfl, rfl⟩ | hj
    · rfl
    · exact h.block_eq block j hj
  · have hperm := (hcode block).map Inst.id
    rw [hperm.nodup_iff]
    split
    · rw [List.map_cons, List.nodup_cons]
      refine ⟨fun hi => ?_, h.nodup block⟩
      obtain ⟨j, hj, hid⟩ := List.mem_map.mp hi
      exact fresh block j hj hid
    · exact h.nodup block

end Indexed

/-! ## Changes of single instructions -/

theorem modifyBlock_eq_map (b : Body) (k : Nat) (f : Block Inst → Block Inst)
    (g : Inst → Inst)
    (hk : ∀ B, b.graph.block? k = some B → f B = { B with insts := B.insts.map g })
    (hrest : ∀ l, l ≠ k → ∀ i ∈ b.code l, g i = i) :
    { b with graph := b.graph.modifyBlock k f } = b.mapInsts g := by
  have hblocks : b.graph.blocks.modify k f =
      b.graph.blocks.map fun B => { B with insts := B.insts.map g } := by
    refine List.ext_getElem? fun l => ?_
    rw [List.getElem?_modify, List.getElem?_map]
    cases hl : b.graph.blocks[l]? with
    | none => simp
    | some B =>
      by_cases hkl : k = l
      · subst hkl
        simp [hk B hl]
      · have hB : B.insts.map g = B.insts := by
          refine (List.map_congr_left fun i hi => ?_).trans (List.map_id _)
          exact hrest l (Ne.symm hkl) i (by simpa [code, Graph.block?, hl] using hi)
        simp [hkl, hB]
  simp [Graph.modifyBlock, mapInsts, hblocks]

/-- Changing one instruction is a map. -/
theorem Indexed.modifyInst_eq (h : b.Indexed) (n : Nat) (f : Inst → Inst) :
    b.modifyInst n f = b.mapInsts fun j => if j.id = n then f j else j := by
  unfold modifyInst
  cases hn : b.home.get? n with
  | none =>
    refine (mapInsts_id.symm.trans (mapInsts_congr fun block j hj => (if_neg fun hj' => ?_).symm))
    have := (h.home_iff n block).mpr ⟨j, hj, hj'⟩
    simp [hn] at this
  | some k =>
    refine modifyBlock_eq_map b k _ _ (fun B hB => ?_) fun l hl j hj => if_neg fun hj' => hl ?_
    · have hnodup := h.nodup k
      rw [code_of_block? hB] at hnodup
      simp only [Block.modifyFirst, modify_findIdx_eq_map hnodup]
    · exact Option.some.inj (((h.home_iff n l).mpr ⟨j, hj, hj'⟩).symm.trans hn)

/-- Noting a user is a map. -/
theorem Indexed.registerUser_eq (h : b.Indexed) (v : Value) (user : Nat) :
    b.registerUser v user =
      b.mapInsts fun j => if v = .result j.id then j.addUser user else j := by
  unfold registerUser
  cases hv : v.inst? with
  | none =>
    refine mapInsts_id.symm.trans (mapInsts_congr fun block j _ => (if_neg ?_).symm)
    rintro rfl
    simp [Value.inst?] at hv
  | some n =>
    rw [Value.inst?_eq_some_iff] at hv
    subst hv
    refine (h.modifyInst_eq n _).trans (mapInsts_congr fun block j _ => ?_)
    simp [eq_comm]

/-- Replacing an instruction by one of the same number is a map. -/
theorem Indexed.replaceInst_eq (h : b.Indexed) {k : Nat} {i new : Inst} (hi : i ∈ b.code k)
    (hnew : new.id = i.id) :
    (b.replaceInst i.id new).2 = b.mapInsts fun j => if j.id = i.id then new else j := by
  have hsome : b.inst? i.id = some i := h.inst?_eq_some_iff.mpr ⟨k, hi, rfl⟩
  obtain ⟨B, hB, hiB⟩ := block?_of_mem_code hi
  have hk : i.block = k := h.block_eq k i hi
  have hnodup := h.nodup k
  rw [code_of_block? hB] at hnodup
  simp only [replaceInst, hsome, hk, hB, hiB, if_true, hnew]
  refine modifyBlock_eq_map b k _ _ (fun C hC => ?_) fun l hl j hj => if_neg fun hid => hl ?_
  · obtain rfl := Option.some.inj (hB.symm.trans hC)
    simp only [Block.replace, replace_eq_map hnodup hiB]
  · exact h.block_unique hj hi hid

/-! ## Removal of a PHI -/

/-- What happens to the instructions when the users of `p` are made to use `v`:
some operands `p` become `v`, and users are noted. -/
structure Touched (p : Nat) (v : Value) (users : List Nat) (i j : Inst) : Prop where
  id : j.id = i.id
  block : j.block = i.block
  op : j.op = i.op
  targets : j.targets = i.targets
  callee : j.callee = i.callee
  operands : ∃ f : Value → Value, j.operands = i.operands.map f ∧
    ∀ o, f o = o ∨ o = .result p ∧ f o = v
  self : i.id = p → j.operands = i.operands
  users : ∀ u ∈ j.users, u ∈ i.users ∨ u ∈ users ∨ u = p

namespace Touched

variable {p : Nat} {v : Value} {us : List Nat} {i j k : Inst}

theorem refl : Touched p v us i i :=
  ⟨rfl, rfl, rfl, rfl, rfl, ⟨fun o => o, by simp, fun _ => Or.inl rfl⟩, fun _ => rfl,
    fun _ hu => Or.inl hu⟩

theorem trans (h : Touched p v us i j) (h' : Touched p v us j k) : Touched p v us i k := by
  obtain ⟨f, hf, hfo⟩ := h.operands
  obtain ⟨g, hg, hgo⟩ := h'.operands
  refine ⟨h'.id.trans h.id, h'.block.trans h.block, h'.op.trans h.op,
    h'.targets.trans h.targets, h'.callee.trans h.callee, ⟨fun o => g (f o), ?_, ?_⟩, ?_, ?_⟩
  · rw [hg, hf, List.map_map]
    rfl
  · intro o
    show g (f o) = o ∨ o = .result p ∧ g (f o) = v
    rcases hfo o with ho | ⟨ho, hv⟩
    · rw [ho]
      exact hgo o
    · rcases hgo (f o) with hg' | ⟨_, hg'⟩
      · exact Or.inr ⟨ho, hg'.trans hv⟩
      · exact Or.inr ⟨ho, hg'⟩
  · intro hi
    exact (h'.self (h.id.trans hi)).trans (h.self hi)
  · intro u hu
    rcases h'.users u hu with hu | hu
    · exact h.users u hu
    · exact Or.inr hu

theorem addUser {u : Nat} (hu : u ∈ us ∨ u = p) : Touched p v us i (i.addUser u) := by
  have hsame : (i.addUser u).block = i.block ∧ (i.addUser u).op = i.op ∧
      (i.addUser u).targets = i.targets ∧ (i.addUser u).callee = i.callee ∧
      (i.addUser u).operands = i.operands := by
    unfold Inst.addUser
    split <;> exact ⟨rfl, rfl, rfl, rfl, rfl⟩
  refine ⟨i.id_addUser u, hsame.1, hsame.2.1, hsame.2.2.1, hsame.2.2.2.1,
    ⟨fun o => o, by simp, fun _ => Or.inl rfl⟩, fun _ => hsame.2.2.2.2,
    fun w hw => ?_⟩
  rcases (i.mem_users_addUser u w).mp hw with hw | rfl
  · exact Or.inl hw
  · exact Or.inr hu

theorem replaceOperand (hi : i.id ≠ p) : Touched p v us i (i.replaceOperand (.result p) v) := by
  refine ⟨rfl, rfl, rfl, rfl, rfl, ⟨_, rfl, fun o => ?_⟩, fun h => absurd h hi,
    fun _ hu => Or.inl hu⟩
  by_cases ho : o = .result p
  · exact Or.inr ⟨ho, if_pos ho⟩
  · exact Or.inl (if_neg ho)

end Touched

/-- Adding an operand is a map: the instruction gets the operand, and is noted as a
user. -/
theorem Indexed.addOperand_eq (h : b.Indexed) {n k : Nat} {i : Inst} (hi : i ∈ b.code k)
    (hn : i.id = n) (v : Value) : ∃ f : Inst → Inst,
      (∀ j, (f j).id = j.id ∧ (f j).block = j.block ∧ (f j).op = j.op ∧
        (f j).targets = j.targets ∧ (f j).callee = j.callee ∧
        (f j).operands = (if j.id = n then j.operands ++ [v] else j.operands) ∧
        ∀ u ∈ (f j).users, u ∈ j.users ∨ u = n) ∧
      (b.addOperand n v).2 = b.mapInsts f := by
  have hsome : b.inst? n = some i := h.inst?_eq_some_iff.mpr ⟨k, hi, hn⟩
  let g : Inst → Inst := fun j => if j.id = n then j.addOperand v else j
  let g' : Inst → Inst := fun j => if v = .result j.id then j.addUser n else j
  have hg : ∀ j, (g j).id = j.id ∧ (g j).block = j.block := by
    intro j
    simp only [g]
    split <;> exact ⟨rfl, rfl⟩
  have hg' : ∀ i, Touched n v [] i (g' i) ∧ (g' i).operands = i.operands := by
    intro i
    simp only [g']
    split
    · exact ⟨Touched.addUser (Or.inr rfl), Inst.operands_addUser ..⟩
    · exact ⟨Touched.refl, rfl⟩
  refine ⟨fun j => g' (g j), fun j => ?_, ?_⟩
  · have hgj : (g j).op = j.op ∧ (g j).targets = j.targets ∧ (g j).callee = j.callee ∧
        (g j).operands = (if j.id = n then j.operands ++ [v] else j.operands) ∧
        (g j).users = j.users := by
      simp only [g]
      split <;> exact ⟨rfl, rfl, rfl, rfl, rfl⟩
    obtain ⟨htouched, hoperands⟩ := hg' (g j)
    refine ⟨htouched.id.trans (hg j).1, htouched.block.trans (hg j).2,
      htouched.op.trans hgj.1, htouched.targets.trans hgj.2.1, htouched.callee.trans hgj.2.2.1,
      hoperands.trans hgj.2.2.2.1, fun u hu => ?_⟩
    rw [← hgj.2.2.2.2]
    exact (htouched.users u hu).imp_right fun hu => hu.resolve_left List.not_mem_nil
  · simp only [addOperand, hsome, h.modifyInst_eq]
    rw [(h.mapInsts fun _ j _ => hg j).registerUser_eq, mapInsts_mapInsts]

/-- Whether or not there is such an instruction, adding an operand to it changes operands and users
only. -/
theorem Indexed.code_addOperand (h : b.Indexed) (n : Nat) (v : Value) : ∃ f : Inst → Inst,
    (∀ j, (f j).id = j.id ∧ (f j).op = j.op ∧ ∀ o ∈ (f j).operands, o ∈ j.operands ∨ o = v) ∧
    ∀ k, (b.addOperand n v).2.code k = (b.code k).map f := by
  cases hi : b.inst? n with
  | none =>
    have hnone : (b.addOperand n v).2 = b := by simp [addOperand, hi]
    rw [hnone]
    exact ⟨fun j => j, fun j => ⟨rfl, rfl, fun o ho => Or.inl ho⟩, fun k => by simp⟩
  | some i =>
    obtain ⟨k, hmem, hid⟩ := h.inst?_eq_some_iff.mp hi
    obtain ⟨f, hf, hmap⟩ := h.addOperand_eq hmem hid v
    refine ⟨f, fun j => ?_, fun k => by rw [hmap, code_mapInsts]⟩
    obtain ⟨hid, _, hop, _, _, hoperands, _⟩ := hf j
    refine ⟨hid, hop, fun o ho => ?_⟩
    rw [hoperands] at ho
    split at ho
    · rcases List.mem_append.mp ho with ho | ho
      · exact Or.inl ho
      · exact Or.inr (List.mem_singleton.mp ho)
    · exact Or.inl ho

/-- Making the users of `p` use `v` is a map that touches every instruction. -/
theorem Indexed.foldl_redirect (h : b.Indexed) {p : Nat} {v : Value} {us : List Nat} :
    ∀ l : List Nat, (∀ u ∈ l, u ∈ us ∧ u ≠ p) → ∃ f : Inst → Inst,
      (∀ i, Touched p v us i (f i)) ∧
      l.foldl (fun b u => (b.modifyInst u (·.replaceOperand (.result p) v)).registerUser v u) b =
        b.mapInsts f := by
  intro l
  induction l generalizing b with
  | nil => exact fun _ => ⟨fun i => i, fun _ => Touched.refl, mapInsts_id.symm⟩
  | cons u l ih =>
    intro hl
    obtain ⟨hu, hup⟩ := hl u (List.mem_cons_self ..)
    let g : Inst → Inst := fun j => if j.id = u then j.replaceOperand (.result p) v else j
    let g' : Inst → Inst := fun j => if v = .result j.id then j.addUser u else j
    have hg : ∀ i, Touched p v us i (g i) := by
      intro i
      by_cases hi : i.id = u
      · have hip : i.id ≠ p := fun hp => hup (hi.symm.trans hp)
        simpa only [g, if_pos hi] using Touched.replaceOperand hip
      · simpa only [g, if_neg hi] using Touched.refl
    have hg' : ∀ i, Touched p v us i (g' i) := by
      intro i
      by_cases hi : v = .result i.id
      · simpa only [g', if_pos hi] using Touched.addUser (Or.inl hu)
      · simpa only [g', if_neg hi] using Touched.refl
    have h₁ : (b.mapInsts g).Indexed := h.mapInsts fun _ i _ => ⟨(hg i).id, (hg i).block⟩
    have h₂ : ((b.mapInsts g).mapInsts g').Indexed :=
      h₁.mapInsts fun _ i _ => ⟨(hg' i).id, (hg' i).block⟩
    obtain ⟨f, hf, hfold⟩ := ih h₂ fun w hw => hl w (List.mem_cons_of_mem _ hw)
    refine ⟨fun i => f (g' (g i)), fun i => ((hg i).trans (hg' _)).trans (hf _), ?_⟩
    rw [List.foldl_cons, h.modifyInst_eq, h₁.registerUser_eq, hfold, mapInsts_mapInsts,
      mapInsts_mapInsts]

/-- **Removing a PHI is a map**: the PHI becomes a copy of `v`, then every
instruction is touched. -/
theorem Indexed.forwardPhi_eq (h : b.Indexed) {k : Nat} {phi : Inst} (hphi : phi ∈ b.code k)
    (v : Value) : ∃ f : Inst → Inst,
      (∀ i, Touched phi.id v phi.users
        (if i.id = phi.id then
          { op := .mov, id := phi.id, block := phi.block, operands := [v],
            users := phi.users.filter (· ≠ phi.id) } else i) (f i)) ∧
      b.forwardPhi phi v = b.mapInsts f := by
  let copy : Inst :=
    { op := .mov, id := phi.id, block := phi.block, operands := [v],
      users := phi.users.filter (· ≠ phi.id) }
  let g : Inst → Inst := fun j => if j.id = phi.id then copy else j
  let g' : Inst → Inst := fun j => if v = .result j.id then j.addUser phi.id else j
  have hg' : ∀ i, Touched phi.id v phi.users i (g' i) := by
    intro i
    by_cases hi : v = .result i.id
    · simpa only [g', if_pos hi] using Touched.addUser (Or.inr rfl)
    · simpa only [g', if_neg hi] using Touched.refl
  have h₁ : (b.mapInsts g).Indexed := by
    refine h.mapInsts fun l i hi => ?_
    by_cases hid : i.id = phi.id
    · simp only [g, if_pos hid]
      exact ⟨hid.symm, by rw [h.eq_of_id_eq hi hphi hid]⟩
    · simp only [g, if_neg hid, and_self]
  have h₂ : ((b.mapInsts g).mapInsts g').Indexed :=
    h₁.mapInsts fun _ i _ => ⟨(hg' i).id, (hg' i).block⟩
  have husers : ∀ u ∈ phi.users.filter (· ≠ phi.id), u ∈ phi.users ∧ u ≠ phi.id := by
    intro u hu
    simpa using List.mem_filter.mp hu
  obtain ⟨f, hf, hfold⟩ := h₂.foldl_redirect (v := v) _ husers
  refine ⟨fun i => f (g' (g i)), fun i => (hg' _).trans (hf _), ?_⟩
  have hreplace : (b.replaceInst phi.id copy).2 = b.mapInsts g := h.replaceInst_eq hphi rfl
  simp only [forwardPhi, Inst.result]
  rw [hreplace, h₁.registerUser_eq, hfold, mapInsts_mapInsts, mapInsts_mapInsts]

/-! ## New blocks, edges and instructions -/

theorem code_modifyBlock (b : Body) (k l : Nat) (f : Block Inst → Block Inst)
    (home : OrderedMap Nat Nat) :
    code { b with graph := b.graph.modifyBlock k f, home } l =
      if k = l then ((b.graph.block? l).map fun B => (f B).insts).getD [] else b.code l := by
  simp only [code, Graph.block?_modifyBlock]
  by_cases hk : k = l
  · cases hl : b.graph.block? l <;> simp [hk]
  · simp [hk]

theorem preds_modifyBlock (b : Body) (k l : Nat) (f : Block Inst → Block Inst)
    (home : OrderedMap Nat Nat) (hf : ∀ B, (f B).predecessors = B.predecessors) :
    preds { b with graph := b.graph.modifyBlock k f, home } l = b.preds l := by
  simp only [preds, Graph.predecessors, Graph.block?_modifyBlock]
  by_cases hk : k = l
  · cases hl : b.graph.block? l <;> simp [hk, hf]
  · simp [hk]

theorem successors_modifyBlock (b : Body) (k l : Nat) (f : Block Inst → Block Inst)
    (hf : ∀ B, (f B).successors = B.successors) :
    (b.graph.modifyBlock k f).successors l = b.graph.successors l := by
  simp only [Graph.successors, Graph.block?_modifyBlock]
  by_cases hk : k = l
  · cases hl : b.graph.block? l <;> simp [hk, hf]
  · simp [hk]

/-- What a body is besides its code and its index. -/
structure SameFrame (b b' : Body) : Prop where
  size : b'.graph.size = b.graph.size
  preds : ∀ block, b'.preds block = b.preds block
  successors : ∀ block, b'.graph.successors block = b.graph.successors block
  arguments : b'.arguments = b.arguments

namespace SameFrame

theorem refl : SameFrame b b := ⟨rfl, fun _ => rfl, fun _ => rfl, rfl⟩

theorem trans {b' b'' : Body} (h : SameFrame b b') (h' : SameFrame b' b'') : SameFrame b b'' :=
  ⟨h'.size.trans h.size, fun k => (h'.preds k).trans (h.preds k),
    fun k => (h'.successors k).trans (h.successors k), h'.arguments.trans h.arguments⟩

theorem mapInsts (f : Inst → Inst) : SameFrame b (b.mapInsts f) :=
  ⟨size_mapInsts b f, preds_mapInsts b f, successors_mapInsts b f, rfl⟩

end SameFrame

/-- A new PHI comes after the PHIs at the head of its block. -/
theorem insertPhi_ok {i : Inst} {b' : Body} (h : b.insertPhi i = .ok b') :
    i.block < b.graph.size ∧ SameFrame b b' ∧
    (∀ k, b'.code k = if k = i.block then
      (b.code k).takeWhile Inst.isPhi ++ i :: (b.code k).dropWhile Inst.isPhi else b.code k) ∧
    ∀ n, b'.home.get? n = if i.id = n then some i.block else b.home.get? n := by
  unfold insertPhi at h
  split at h
  · next hlt =>
    cases h
    refine ⟨hlt, ⟨by simp, fun k => ?_, fun k => ?_, rfl⟩, fun k => ?_, fun n => ?_⟩
    · exact preds_modifyBlock b _ k _ _ fun _ => rfl
    · exact successors_modifyBlock b _ k _ fun _ => rfl
    · rw [code_modifyBlock]
      by_cases hk : i.block = k
      · subst hk
        obtain ⟨B, hB⟩ := Option.isSome_iff_exists.mp ((b.graph.block?_isSome_iff _).mpr hlt)
        have hsplit : B.insts.takeWhile Inst.isPhi ++ B.insts.dropWhile Inst.isPhi = B.insts :=
          List.takeWhile_append_dropWhile
        have htake : B.insts.take (B.insts.takeWhile Inst.isPhi).length =
            B.insts.takeWhile Inst.isPhi :=
          (congrArg _ hsplit.symm).trans List.take_left
        have hdrop : B.insts.drop (B.insts.takeWhile Inst.isPhi).length =
            B.insts.dropWhile Inst.isPhi :=
          (congrArg _ hsplit.symm).trans List.drop_left
        simp [hB, code_of_block? hB, Block.insertAt, phiPrefix, htake, hdrop]
      · simp [hk, Ne.symm hk]
    · exact OrderedMap.get?_insert ..
  · cases h

/-- Noting the users of the operands of a new instruction. -/
theorem Indexed.foldl_registerUser (h : b.Indexed) (n : Nat) :
    ∀ vs : List Value, ∃ f : Inst → Inst,
      (∀ i, Touched n .unknown [] i (f i)) ∧ (∀ i, (f i).operands = i.operands) ∧
      vs.foldl (fun b v => b.registerUser v n) b = b.mapInsts f := by
  intro vs
  induction vs generalizing b with
  | nil => exact ⟨fun i => i, fun _ => Touched.refl, fun _ => rfl, mapInsts_id.symm⟩
  | cons v vs ih =>
    let g : Inst → Inst := fun j => if v = .result j.id then j.addUser n else j
    have hg : ∀ i, Touched n .unknown [] i (g i) := by
      intro i
      by_cases hi : v = .result i.id
      · simpa only [g, if_pos hi] using Touched.addUser (Or.inr rfl)
      · simpa only [g, if_neg hi] using Touched.refl
    have hgo : ∀ i, (g i).operands = i.operands := by
      intro i
      simp only [g]
      split
      · exact Inst.operands_addUser ..
      · rfl
    have h₁ : (b.mapInsts g).Indexed := h.mapInsts fun _ i _ => ⟨(hg i).id, (hg i).block⟩
    obtain ⟨f, hf, hfo, hfold⟩ := ih h₁
    refine ⟨fun i => f (g i), fun i => (hg i).trans (hf _), fun i => (hfo _).trans (hgo i), ?_⟩
    rw [List.foldl_cons, h.registerUser_eq, hfold, mapInsts_mapInsts]

/-- A new instruction comes last in its block. -/
theorem append_ok {i : Inst} {b' : Body} (h : b.append i = .ok b') :
    i.block < b.graph.size ∧ ∃ c : Body, SameFrame b c ∧
    (∀ k, c.code k = if k = i.block then b.code k ++ [i] else b.code k) ∧
    (∀ n, c.home.get? n = if i.id = n then some i.block else b.home.get? n) ∧
    b' = i.operands.foldl (fun b v => b.registerUser v i.id) c := by
  unfold append at h
  split at h
  · next hlt =>
    cases h
    refine ⟨hlt, { b with
        graph := b.graph.modifyBlock i.block (·.append i)
        home := b.home.insert i.id i.block },
      ⟨by simp, fun k => ?_, fun k => ?_, rfl⟩, fun k => ?_, fun n => ?_, rfl⟩
    · exact preds_modifyBlock b _ k _ _ fun _ => rfl
    · exact successors_modifyBlock b _ k _ fun _ => rfl
    · rw [code_modifyBlock]
      by_cases hk : i.block = k
      · subst hk
        obtain ⟨B, hB⟩ := Option.isSome_iff_exists.mp ((b.graph.block?_isSome_iff _).mpr hlt)
        simp [hB, code_of_block? hB]
      · simp [hk, Ne.symm hk]
    · exact OrderedMap.get?_insert ..
  · cases h

theorem Indexed.append_ok (h : b.Indexed) {i : Inst} {b' : Body}
    (hfresh : ∀ k, ∀ j ∈ b.code k, j.id ≠ i.id) (hrun : b.append i = .ok b') :
    i.block < b.graph.size ∧ SameFrame b b' ∧ b'.Indexed ∧ ∃ f : Inst → Inst,
      (∀ j, Touched i.id .unknown [] j (f j)) ∧ (∀ j, (f j).operands = j.operands) ∧
      ∀ k, b'.code k = (if k = i.block then b.code k ++ [i] else b.code k).map f := by
  obtain ⟨hlt, c, hframe, hcode, hhome, rfl⟩ := Body.append_ok hrun
  have hc : c.Indexed := by
    refine h.insert hfresh (fun k => ?_) hhome
    rw [hcode]
    split
    · exact List.perm_append_comm
    · exact List.Perm.refl _
  obtain ⟨f, hf, hfops, hfold⟩ := hc.foldl_registerUser i.id i.operands
  rw [hfold]
  refine ⟨hlt, hframe.trans (.mapInsts f), hc.mapInsts fun _ j _ => ⟨(hf j).id, (hf j).block⟩,
    f, hf, hfops, fun k => ?_⟩
  rw [code_mapInsts, hcode]

section CreateBlock

variable (b) (name : Option String) (k : Nat)

theorem block?_createBlock : (b.createBlock name).2.graph.block? k =
    if k = b.graph.size then some (Block.new b.graph.size name) else b.graph.block? k :=
  b.graph.block?_insertBlock _ k

@[simp] theorem fst_createBlock : (b.createBlock name).1 = b.graph.size := rfl

@[simp] theorem size_createBlock :
    (b.createBlock name).2.graph.size = b.graph.size + 1 := by
  simp [createBlock, Graph.createBlock, Graph.insertBlock, Graph.size]

theorem block?_size : b.graph.block? b.graph.size = none := by
  rw [Option.eq_none_iff_forall_ne_some]
  intro B hB
  have := (b.graph.block?_isSome_iff b.graph.size).mp (by simp [hB])
  exact absurd this (Nat.lt_irrefl _)

@[simp] theorem code_createBlock : (b.createBlock name).2.code k = b.code k := by
  unfold code
  rw [block?_createBlock]
  by_cases hk : k = b.graph.size
  · simp [hk, block?_size, Block.new]
  · simp [hk]

@[simp] theorem preds_createBlock : (b.createBlock name).2.preds k = b.preds k := by
  unfold preds Graph.predecessors
  rw [block?_createBlock]
  by_cases hk : k = b.graph.size
  · simp [hk, block?_size, Block.new]
  · simp [hk]

@[simp] theorem successors_createBlock :
    (b.createBlock name).2.graph.successors k = b.graph.successors k := by
  unfold Graph.successors
  rw [block?_createBlock]
  by_cases hk : k = b.graph.size
  · simp [hk, block?_size, Block.new]
  · simp [hk]

@[simp] theorem home_createBlock : (b.createBlock name).2.home = b.home := rfl

@[simp] theorem arguments_createBlock : (b.createBlock name).2.arguments = b.arguments := rfl

end CreateBlock

/-- An edge is added if both its ends are there. -/
theorem addEdge_eq_ok_iff {source target : Nat} {b b' : Body} :
    addEdge source target b = .ok () b' ↔ target < b.graph.size ∧ source < b.graph.size ∧
      b' = { b with
        graph := (b.graph.modifyBlock source (·.addSuccessor target)).modifyBlock target
          (·.addPredecessor source) } := by
  unfold addEdge
  cases hg : Graph.addEdge source target b.graph with
  | ok _ g =>
    obtain ⟨ht, hs, rfl⟩ := Graph.addEdge_eq_ok_iff.mp hg
    simp [ht, hs, eq_comm]
  | error e g =>
    have hmissing := (Graph.addEdge_eq_error_iff.mp hg).1
    simp only [reduceCtorEq, false_iff]
    omega

/-- An edge comes last among those that leave its source and enter its target. -/
theorem addEdge_ok {source target : Nat} {b' : Body} (h : addEdge source target b = .ok () b') :
    source < b.graph.size ∧ target < b.graph.size ∧ b'.graph.size = b.graph.size ∧
    (∀ k, b'.code k = b.code k) ∧ b'.home = b.home ∧ b'.arguments = b.arguments ∧
    (∀ k, b'.preds k = if k = target then b.preds k ++ [source] else b.preds k) ∧
    ∀ k, b'.graph.successors k =
      if k = source then b.graph.successors k ++ [target] else b.graph.successors k := by
  obtain ⟨ht, hs, rfl⟩ := addEdge_eq_ok_iff.mp h
  obtain ⟨T, hT⟩ := Option.isSome_iff_exists.mp ((b.graph.block?_isSome_iff _).mpr ht)
  obtain ⟨S, hS⟩ := Option.isSome_iff_exists.mp ((b.graph.block?_isSome_iff _).mpr hs)
  refine ⟨hs, ht, by simp, fun k => ?_, rfl, rfl, fun k => ?_, fun k => ?_⟩
  · simp only [code, Graph.block?_modifyBlock]
    by_cases h₁ : target = k <;> by_cases h₂ : source = k <;>
      cases b.graph.block? k <;> simp [h₁, h₂, Block.addPredecessor, Block.addSuccessor]
  · simp only [preds, Graph.predecessors, Graph.block?_modifyBlock]
    by_cases h₁ : k = target
    · subst h₁
      by_cases h₂ : source = k <;>
        simp [hT, h₂, Block.addPredecessor, Block.addSuccessor]
    · by_cases h₂ : source = k <;> cases b.graph.block? k <;>
        simp [h₁, Ne.symm h₁, h₂, Block.addSuccessor]
  · simp only [Graph.successors, Graph.block?_modifyBlock]
    by_cases h₁ : k = source
    · subst h₁
      by_cases h₂ : target = k <;>
        simp [hS, h₂, Block.addPredecessor, Block.addSuccessor]
    · by_cases h₂ : target = k <;> cases b.graph.block? k <;>
        simp [h₁, Ne.symm h₁, h₂, Block.addPredecessor]

end Body

end Compiler16.Ssa
