import Compiler16.Proofs.Loops
import Compiler16.Proofs.Reading
import Compiler16.Proofs.Uses

/-!
# Neat states

On the graphs of programs, where loops are nested, more holds than on graphs in general:
the notes of users are exact, no value in use is that of a removed PHI, the operands of a PHI
are the values that are remembered for the predecessors of its block, and no PHI that could be
removed is left over.

What a removal does is known up to a set `K` in which the removals that it sets off stay:
one that is closed under use.

## Main definitions

* `Shape`: every block can be reached from blocks before it, and loops are nested
* `Neat`: the invariant
* `Retires`: what removals do to the memory

## Main results

* `Neat.insertPhi`, `Neat.remember`: a PHI comes in, a value is remembered
* `Neat.removeFrom`: all removals that one sets off
-/

namespace Compiler16.Ssa

open Compiler16.Flow

/-! ## Shapes -/

/-- Every block is where a path begins or has a predecessor before it, and loops are
nested. -/
structure Shape (L : Ledger) (B : Body) : Prop where
  grounded : ∀ b < B.graph.size, L.root b ∨ ∃ q ∈ B.preds b, q < b
  nested : Nested B.graph.size B.preds

/-- A PHI that stands for a variable at the end of a path lies on the path. -/
theorem Ledger.Reaches.exists_made {L : Ledger} {x p : Nat} (hu : L.Unwritten x (.result p)) :
    ∀ {π : List Nat}, L.Reaches x (.result p) π → ∃ c ∈ π, L.Made x (.result p) c
  | [], h => h.elim
  | b :: π, h => by
    cases hw : L.write x b with
    | some c =>
      rw [reaches_cons_of_write hw] at h
      exact absurd (h ▸ hw) (hu b).1
    | none =>
      rw [reaches_cons_of_no_write hw] at h
      rcases h with hmade | ⟨_, hstart⟩ | h
      · exact ⟨b, List.mem_cons_self .., hmade⟩
      · exact absurd hstart (hu b).2
      · obtain ⟨c, hc, hmade⟩ := h.exists_made hu
        exact ⟨c, List.mem_cons_of_mem _ hc, hmade⟩

namespace Shape

variable {L L' : Ledger} {B B' : Body} {s s' : Builder} {n b : Nat} (h : Shape L B)

include h

/-- There is a path on which the numbers of blocks go up. -/
theorem exists_trail (hb : b < B.graph.size) :
    ∃ π, Trail L.root B.preds (b :: π) ∧ ∀ c ∈ π, c < b := by
  induction b using Nat.strong_induction_on with | _ b ih =>
  rcases h.grounded b hb with hroot | ⟨q, hq, hlt⟩
  · exact ⟨[], .start hroot, by simp⟩
  · obtain ⟨π, ht, hπ⟩ := ih q hlt (hlt.trans hb)
    refine ⟨q :: π, .step hq ht, fun c hc => ?_⟩
    rcases List.mem_cons.mp hc with rfl | hc
    · exact hlt
    · exact (hπ c hc).trans hlt

theorem steady (hs : Builder.Steady s B s' B') (hroot : L'.root = L.root) : Shape L' B' where
  grounded := by
    rw [hs.frame.size, hroot, hs.preds]
    exact h.grounded
  nested := by
    rw [hs.frame.size, hs.preds]
    exact h.nested

theorem extended (he : Builder.Extended n L s B L' s' B') : Shape L' B' :=
  h.steady he.steady he.root

end Shape

namespace Builder

variable {L L' : Ledger} {busy busy' : Nat → Option Progress} {s s' s'' : Builder} {B B' B'' : Body}
  {W W' K : Nat → Prop} {x y b p q P n d : Nat} {v : Value}

/-- A PHI that stands for a variable at the end of a block is one of the variable, and of a
block that is not after this one. -/
theorem le_of_atEnd (hshape : Shape L B) (hu : L.Unwritten x (.result p))
    (hp : L.phi p = some (y, P)) (hb : b < B.graph.size) (ha : L.AtEnd x (.result p) B.preds b) :
    y = x ∧ P ≤ b := by
  obtain ⟨π, ht, hπ⟩ := hshape.exists_trail hb
  obtain ⟨c, hc, hmade⟩ := (ha π ht).exists_made hu
  obtain ⟨rfl, rfl⟩ := hmade.eq hp
  refine ⟨rfl, ?_⟩
  rcases List.mem_cons.mp hc with rfl | hc
  · exact le_rfl
  · exact (hπ c hc).le

/-! ## The invariant -/

/-- The value is not the result of a removed PHI. -/
def Live (s : Builder) (v : Value) : Prop := ∀ d, v = .result d → d < s.nextId ∧ d ∉ s.removed

theorem Live.mono (h : s.Live v) (hnext : s.nextId ≤ s'.nextId)
    (hremoved : s'.removed = s.removed) :
    s'.Live v := fun d hd => ⟨(h d hd).1.trans_le hnext, hremoved ▸ (h d hd).2⟩

/-- The state of a construction on nested loops.  Only the PHIs in `W` may merge a single
value, besides those that are not complete. -/
structure Neat (W : Nat → Prop) (L : Ledger) (busy : Nat → Option Progress) (s : Builder)
    (B : Body) : Prop where
  tracked : B.Tracked s.removed
  uses_lt : ∀ u d, B.Uses u d → d < s.nextId
  defs : ∀ k v, s.defs.get? k = some v → s.Live v
  globals : ∀ x, s.Live (s.globalValue x)
  globals_phi : ∀ x d, s.globalValue x = .result d → L.phi d = none
  removed_lt : ∀ d ∈ s.removed, d < s.nextId
  removed : ∀ d ∈ s.removed, ∀ b, ∀ j ∈ B.code b, j.id = d → j.op ≠ .phi ∧ (L.phi d).isSome
  copied : ∀ b, ∀ j ∈ B.code b, (L.phi j.id).isSome → j.op = .phi ∨ j.id ∈ s.removed
  /-- The operands of a PHI are remembered for the predecessors. -/
  operand : ∀ b, ∀ j ∈ B.code b, j.op = .phi → ∀ x, L.phi j.id = some (x, b) →
    ∀ (k : Nat) o, j.operands[k]? = some o →
      ∃ q, (B.preds b)[k]? = some q ∧ s.defs.get? (x, q) = some o
  /-- What is remembered for a block was written there or is a PHI there, or it is remembered for
  all predecessors. -/
  origin : ∀ x b v, s.defs.get? (x, b) = some v →
    (∃ j ∈ B.code b, v = .result j.id ∧ (L.write x b = some v ∨ L.phi j.id = some (x, b))) ∨
      (¬ L.root b ∨ s.isSealed b = true) ∧ ∀ q ∈ B.preds b, s.defs.get? (x, q) = some v
  settled : ∀ b, ∀ j ∈ B.code b, j.op = .phi → busy j.id = none →
    (∀ x c, ¬ s.Waits x c j.id) → W j.id ∨ j.mergedValue? = none

namespace Neat

theorem mono (h : Neat W L busy s B) (hW : ∀ q, W q → W' q) : Neat W' L busy s B :=
  { h with settled := fun b j hj hop hb hw => (h.settled b j hj hop hb hw).imp_left (hW j.id) }

theorem live_of_mem (h : Neat W L busy s B) {j : Inst} (hj : j ∈ B.code b) (hv : v ∈ j.operands) :
    s.Live v := by
  rintro d rfl
  have huse : B.Uses j.id d := ⟨b, j, hj, rfl, hv⟩
  exact ⟨h.uses_lt _ d huse, fun hd => h.tracked.unused _ d hd huse⟩

/-- What was not created as a PHI was not removed. -/
theorem not_removed (h : Neat W L busy s B) {j : Inst} (hj : j ∈ B.code b)
    (hphi : L.phi j.id = none) : j.id ∉ s.removed := by
  intro hmem
  have := (h.removed _ hmem b j hj rfl).2
  simp [hphi] at this

/-- A PHI was not removed. -/
theorem not_removed_of_isPhi (h : Neat W L busy s B) {j : Inst} (hj : j ∈ B.code b)
    (hop : j.op = .phi) : j.id ∉ s.removed :=
  fun hmem => (h.removed _ hmem b j hj rfl).1 hop

/-- What is written is not even what is left of a PHI: that would not be live. -/
theorem write_base (hn : Neat W L busy s B) (h : Sound L busy s B) (hw : L.write x b = some v) :
    L.Base s.nextId v := by
  rintro d rfl
  obtain ⟨hlt, hop⟩ := h.write_inert x b _ hw d rfl
  refine ⟨hlt, ?_⟩
  by_contra hne
  obtain ⟨⟨y, P⟩, hy⟩ := Option.ne_none_iff_exists'.mp hne
  obtain ⟨j, hj, rfl⟩ := h.phi_mem d y P hy
  rcases hn.copied P j hj (by simp [hy]) with hphi | hmem
  · exact hop P j hj rfl hphi
  · exact (hn.defs _ _ (h.write_defs x b _ hw) j.id rfl).2 hmem

theorem unwritten (hn : Neat W L busy s B) (h : Sound L busy s B) {xb : Nat × Nat}
    (hp : L.phi p = some xb) (y : Nat) : L.Unwritten y (.result p) := by
  refine fun c => ⟨fun hw => ?_, fun hs => ?_⟩
  · have := (hn.write_base h hw p rfl).2
    simp [hp] at this
  · have := (h.start_base y c _ hs p rfl).2
    simp [hp] at this

end Neat

theorem get?_insert_of_some {k k' : Nat × Nat} {a : Value} (hnone : s.defs.get? k = none)
    (ha : s.defs.get? k' = some a) : (s.defs.insert k v).get? k' = some a := by
  rw [OrderedMap.get?_insert, if_neg, ha]
  rintro rfl
  simp [hnone] at ha

/-- A new PHI comes in, which waits or is busy. -/
theorem Neat.insertPhi (h : Sound L busy s B) (hn : Neat W L busy s B)
    (hdefs : s.defs.get? (x, b) = none)
    (hB : B.insertPhi { op := .phi, id := s.nextId, block := b } = .ok B')
    (hnext : s'.nextId = s.nextId + 1) (hremoved : s'.removed = s.removed)
    (hglobals : s'.globalDefs = s.globalDefs) (hsealed : s'.sealedBlocks = s.sealedBlocks)
    (hd : s'.defs = s.defs.insert (x, b) (.result s.nextId))
    (hwaits : ∀ y c q, s.Waits y c q → s'.Waits y c q)
    (hbusy : ∀ q, q ≠ s.nextId → busy' q = busy q)
    (hnew : busy' s.nextId ≠ none ∨ s'.Waits x b s.nextId) :
    Neat W (L.withPhi s.nextId x b) busy' s' B' := by
  have hpreds : B'.preds = B.preds := funext (Body.insertPhi_ok hB).2.1.preds
  have hmem : ∀ c j, j ∈ B'.code c ↔
      c = b ∧ j = { op := .phi, id := s.nextId, block := b } ∨ j ∈ B.code c :=
    fun c j => Body.mem_code_insertPhi hB
  have hfresh : ∀ c, ∀ j ∈ B.code c, j.id ≠ s.nextId :=
    fun c j hj => Nat.ne_of_lt (h.bound c j hj)
  have hunused : ∀ u, ¬ B.Uses u s.nextId := fun u hu => lt_irrefl _ (hn.uses_lt u _ hu)
  have hglobal : ∀ y, s'.globalValue y = s.globalValue y := fun y => by simp [globalValue, hglobals]
  have hlive : ∀ {v}, s.Live v → s'.Live v := fun hv => hv.mono (hnext ▸ Nat.le_succ _) hremoved
  have hget : s'.defs.get? (x, b) = some (.result s.nextId) := by
    rw [hd, OrderedMap.get?_insert, if_pos rfl]
  have hkeep : ∀ k a, s.defs.get? k = some a → s'.defs.get? k = some a := by
    intro k a ha
    rw [hd]
    exact get?_insert_of_some hdefs ha
  constructor
  case tracked =>
    rw [hremoved]
    exact hn.tracked.insertPhi hunused rfl rfl hB
  case uses_lt =>
    rintro u d ⟨c, j, hj, hju, ho⟩
    rcases (hmem c j).mp hj with ⟨_, rfl⟩ | hj
    · cases ho
    · exact hnext ▸ Nat.lt_succ_of_lt (hn.uses_lt u d ⟨c, j, hj, hju, ho⟩)
  case defs =>
    intro k a ha
    rw [hd, OrderedMap.get?_insert] at ha
    split at ha
    · cases ha
      rintro d ⟨rfl⟩
      exact ⟨hnext ▸ Nat.lt_succ_self _,
        fun hmem => lt_irrefl _ (hn.removed_lt _ (hremoved ▸ hmem))⟩
    · exact hlive (hn.defs k a ha)
  case globals =>
    intro y
    rw [hglobal]
    exact hlive (hn.globals y)
  case globals_phi =>
    intro y d hy
    rw [hglobal] at hy
    rw [Ledger.phi_withPhi_of_ne (Nat.ne_of_lt (hn.globals y d hy).1)]
    exact hn.globals_phi y d hy
  case removed_lt =>
    intro d hmem
    rw [hnext]
    exact Nat.lt_succ_of_lt (hn.removed_lt d (hremoved ▸ hmem))
  case removed =>
    intro d hd' c j hj hjd
    have hne : d ≠ s.nextId := Nat.ne_of_lt (hn.removed_lt d (hremoved ▸ hd'))
    rw [Ledger.phi_withPhi_of_ne hne]
    rcases (hmem c j).mp hj with ⟨_, rfl⟩ | hj
    · exact absurd hjd.symm hne
    · exact hn.removed d (hremoved ▸ hd') c j hj hjd
  case copied =>
    intro c j hj hp
    rcases (hmem c j).mp hj with ⟨_, rfl⟩ | hj
    · exact Or.inl rfl
    · rw [Ledger.phi_withPhi_of_ne (hfresh c j hj)] at hp
      exact hremoved ▸ hn.copied c j hj hp
  case operand =>
    intro c j hj hop y hy k o ho
    rw [hpreds]
    rcases (hmem c j).mp hj with ⟨_, rfl⟩ | hj
    · simp at ho
    · rw [Ledger.phi_withPhi_of_ne (hfresh c j hj)] at hy
      obtain ⟨q, hq, hqo⟩ := hn.operand c j hj hop y hy k o ho
      exact ⟨q, hq, hkeep _ _ hqo⟩
  case origin =>
    intro y c a ha
    rw [hd, OrderedMap.get?_insert] at ha
    split at ha
    · next heq =>
      cases heq
      cases ha
      exact Or.inl ⟨_, (hmem b _).mpr (Or.inl ⟨rfl, rfl⟩), rfl, Or.inr Ledger.phi_withPhi_self⟩
    · rcases hn.origin y c a ha with ⟨j, hj, hv, hsource⟩ | ⟨hc, hall⟩
      · refine Or.inl ⟨j, (hmem c j).mpr (Or.inr hj), hv, ?_⟩
        rwa [Ledger.phi_withPhi_of_ne (hfresh c j hj)]
      · refine Or.inr ⟨?_, fun q hq => hkeep _ _ (hall q (hpreds ▸ hq))⟩
        rw [isSealed, hsealed]
        exact hc
  case settled =>
    intro c j hj hop hb hw
    rcases (hmem c j).mp hj with ⟨_, rfl⟩ | hj
    · rcases hnew with hnew | hnew
      · exact absurd hb hnew
      · exact absurd hnew (hw x b)
    · rw [hbusy _ (hfresh c j hj)] at hb
      exact hn.settled c j hj hop hb fun y e hwait => hw y e (hwaits y e _ hwait)

/-- A value is remembered for a block, which all predecessors have. -/
theorem Neat.remember (hn : Neat W L busy s B) (hdefs : s.defs.get? (x, b) = none)
    (hlive : s.Live v) (hb : ¬ L.root b ∨ s.isSealed b = true)
    (hall : ∀ q ∈ B.preds b, s.defs.get? (x, q) = some v) :
    Neat W L busy { s with defs := s.defs.insert (x, b) v } B := by
  have hkeep : ∀ k a, s.defs.get? k = some a → (s.defs.insert (x, b) v).get? k = some a :=
    fun k a ha => get?_insert_of_some hdefs ha
  refine { hn with defs := ?_, operand := ?_, origin := ?_ }
  · intro k a ha
    rw [OrderedMap.get?_insert] at ha
    split at ha
    · cases ha
      exact hlive
    · exact hn.defs k a ha
  · intro c j hj hop y hy k o ho
    obtain ⟨q, hq, hqo⟩ := hn.operand c j hj hop y hy k o ho
    exact ⟨q, hq, hkeep _ _ hqo⟩
  · intro y c a ha
    rw [OrderedMap.get?_insert] at ha
    split at ha
    · next heq =>
      cases heq
      cases ha
      exact Or.inr ⟨hb, fun q hq => hkeep _ _ (hall q hq)⟩
    · exact (hn.origin y c a ha).imp_right fun h => ⟨h.1, fun q hq => hkeep _ _ (h.2 q hq)⟩

/-- What is remembered already is remembered again. -/
theorem Neat.rememberAgain (hn : Neat W L busy s B) (hdefs : s.defs.get? (x, b) = some v) :
    Neat W L busy { s with defs := s.defs.insert (x, b) v } B := by
  have hget : ∀ k, (s.defs.insert (x, b) v).get? k = s.defs.get? k := by
    intro k
    rw [OrderedMap.get?_insert]
    split
    · next hk => rw [← hk, hdefs]
    · rfl
  refine { hn with defs := fun k a ha => ?_, operand := ?_, origin := ?_ }
  · rw [hget] at ha
    exact hn.defs k a ha
  · simp only [hget]
    exact hn.operand
  · simp only [hget]
    exact hn.origin

/-! ## One removal -/

/-- The PHI has another operand than itself, so the one value that it merges is an operand. -/
theorem mem_of_mergedValue? {i : Inst} (h : i.mergedValue? = some v)
    (hother : ∃ o ∈ i.operands, o ≠ .result i.id) : v ∈ i.operands ∧ v ≠ .result i.id := by
  obtain ⟨o, ho, hne⟩ := hother
  have hmem : o ∈ i.operands.filter (· ≠ i.result) := List.mem_filter.mpr ⟨ho, decide_eq_true hne⟩
  unfold Inst.mergedValue? at h
  split at h
  · next hnil =>
    rw [hnil] at hmem
    cases hmem
  · next w rest hcons =>
    split at h
    · cases h
      have hw : v ∈ i.operands.filter (· ≠ i.result) := hcons ▸ List.mem_cons_self ..
      exact ⟨(List.mem_filter.mp hw).1, of_decide_eq_true (List.mem_filter.mp hw).2⟩
    · cases h

/-- A complete PHI has an operand of an earlier block, which is not the PHI itself. -/
theorem Neat.exists_operand_lt (hn : Neat W L busy s B) (h : Sound L busy s B)
    (hshape : Shape L B) {i : Inst} (hi : i ∈ B.code P) (hp : L.phi i.id = some (x, P))
    (hroot : ¬ L.root P) (hfills : Fills L B.preds x P i.operands)
    (hlen : i.operands.length = (B.preds P).length) : ∃ o ∈ i.operands, o ≠ .result i.id ∧
      ∀ d y Q, o = .result d → L.phi d = some (y, Q) → Q < P := by
  obtain ⟨q, hq, hlt⟩ := (hshape.grounded P (Body.lt_size_of_mem_code hi)).resolve_left hroot
  obtain ⟨k, hk, rfl⟩ := List.mem_iff_getElem.mp hq
  have hk' : k < i.operands.length := hlen ▸ hk
  obtain ⟨q', hq', ha⟩ := hfills k _ (List.getElem?_eq_getElem hk')
  rw [List.getElem?_eq_getElem hk] at hq'
  cases hq'
  have hle : ∀ d y Q, i.operands[k] = .result d → L.phi d = some (y, Q) → Q < P := by
    intro d y Q hd hy
    exact (le_of_atEnd hshape (hn.unwritten h hy x) hy (h.preds_lt P _ hq) (hd ▸ ha)).2.trans_lt hlt
  exact ⟨_, List.getElem_mem hk', fun hself => lt_irrefl _ (hle _ x P hself hp), hle⟩

/-- **A PHI gives way to the value that it merges.**  The users may have to follow. -/
theorem Neat.retire (h : Sound L busy s B) (hn : Neat W L busy s B) (hshape : Shape L B)
    {i : Inst} (hi : i ∈ B.code P) (hp : L.phi i.id = some (x, P)) (hop : i.op = .phi)
    (hroot : ¬ L.root P) (hfills : Fills L B.preds x P i.operands)
    (hlen : i.operands.length = (B.preds P).length) (hv : i.mergedValue? = some v)
    (fn : OpenFunction) :
    Neat (fun q => W q ∧ q ≠ i.id ∨ q ∈ i.users.filter (· ≠ i.id)) L busy
      (Builder.retire { s with opened := some { fn with body := B.forwardPhi i v } } i.id v)
      (B.forwardPhi i v) := by
  obtain ⟨o, ho, hone, _⟩ := hn.exists_operand_lt h hshape hi hp hroot hfills hlen
  obtain ⟨hvmem, hvne⟩ := mem_of_mergedValue? hv ⟨o, ho, hone⟩
  have hvlive : s.Live v := hn.live_of_mem hi hvmem
  have hnot : i.id ∉ s.removed := hn.not_removed_of_isPhi hi hop
  have htracked := hn.tracked.forwardPhi h.indexed hi hnot hvne
    (fun d hd hvd => (hvlive d hvd).2 hd) (eq_of_mergedValue? hv)
  obtain ⟨f, hmap, _, hf⟩ := h.indexed.forwardPhi_map hi v
  rw [hmap] at htracked ⊢
  have hself := hf i
  rw [if_pos rfl] at hself
  have hother : ∀ j : Inst, j.id ≠ i.id →
      Body.Redirected i.id v (i.id :: i.users.filter (· ≠ i.id)) j (f j) := by
    intro j hj
    have := hf j
    rwa [if_neg hj] at this
  have hpreds : (B.mapInsts f).preds = B.preds := funext (Body.preds_mapInsts B f)
  -- a PHI that is still one is another, and had the PHI among its operands only as a user
  have hphis : ∀ b, ∀ j ∈ B.code b, (f j).op = .phi → j.id ≠ i.id ∧ j.op = .phi := by
    intro b j hj hfop
    have hne : j.id ≠ i.id := by
      intro hid
      obtain rfl := h.indexed.eq_of_id_eq hj hi hid
      rw [hself.op] at hfop
      cases hfop
    exact ⟨hne, (hother j hne).op ▸ hfop⟩
  have hget : ∀ k a, (s.defs.mapValues fun w => if w = .result i.id then v else w).get? k = some a ↔
      ∃ w, s.defs.get? k = some w ∧ (if w = .result i.id then v else w) = a := by
    intro k a
    rw [OrderedMap.get?_mapValues, Option.map_eq_some_iff]
  have hlive : ∀ w, s.Live w → w ≠ .result i.id → ∀ d, w = .result d →
      d < s.nextId ∧ d ∉ s.removed ++ [i.id] := by
    rintro w hw hne d rfl
    refine ⟨(hw d rfl).1, fun hmem => ?_⟩
    rcases List.mem_append.mp hmem with hmem | hmem
    · exact (hw d rfl).2 hmem
    · exact hne (congrArg _ (List.mem_singleton.mp hmem))
  constructor
  case tracked => exact htracked
  case uses_lt =>
    rintro u d ⟨b, _, hmem, _, huse⟩
    rw [Body.code_mapInsts] at hmem
    obtain ⟨j, hj, rfl⟩ := List.mem_map.mp hmem
    have hcases : v = .result d ∨ .result d ∈ j.operands := by
      by_cases hid : j.id = i.id
      · obtain rfl := h.indexed.eq_of_id_eq hj hi hid
        rw [hself.operands, List.mem_map] at huse
        obtain ⟨w, hw, hwd⟩ := huse
        rw [List.mem_singleton.mp hw, ite_self] at hwd
        exact Or.inl hwd
      · rw [(hother j hid).operands, List.mem_map] at huse
        obtain ⟨w, hw, hwd⟩ := huse
        split at hwd
        · exact Or.inl hwd
        · exact Or.inr (hwd ▸ hw)
    rcases hcases with hvd | huse
    · exact (hvlive d hvd).1
    · exact hn.uses_lt j.id d ⟨b, j, hj, rfl, huse⟩
  case defs =>
    intro k a ha
    obtain ⟨w, hw, rfl⟩ := (hget k a).mp ha
    split
    · exact hlive v hvlive hvne
    · next hne => exact hlive w (hn.defs k w hw) hne
  case globals =>
    intro y
    refine hlive _ (hn.globals y) fun hy => ?_
    have := hn.globals_phi y i.id hy
    simp [hp] at this
  case globals_phi => exact hn.globals_phi
  case removed_lt =>
    intro d hd
    rcases List.mem_append.mp hd with hd | hd
    · exact hn.removed_lt d hd
    · rw [List.mem_singleton.mp hd]
      exact h.bound P i hi
  case removed =>
    intro d hd b _ hmem hid
    rw [Body.code_mapInsts] at hmem
    obtain ⟨j, hj, rfl⟩ := List.mem_map.mp hmem
    by_cases hji : j.id = i.id
    · obtain rfl := h.indexed.eq_of_id_eq hj hi hji
      rw [← hid, hself.op, hself.id]
      exact ⟨nofun, by rw [show (Body.copyOf j v).id = j.id from rfl, hp]; rfl⟩
    · rw [(hother j hji).id] at hid
      rcases List.mem_append.mp hd with hd | hd
      · rw [(hother j hji).op]
        exact hn.removed d hd b j hj hid
      · exact absurd (hid.trans (List.mem_singleton.mp hd)) hji
  case copied =>
    intro b _ hmem hsome
    rw [Body.code_mapInsts] at hmem
    obtain ⟨j, hj, rfl⟩ := List.mem_map.mp hmem
    show _ ∨ _ ∈ s.removed ++ [i.id]
    by_cases hji : j.id = i.id
    · obtain rfl := h.indexed.eq_of_id_eq hj hi hji
      exact Or.inr (List.mem_append_right _ (List.mem_singleton.mpr hself.id))
    · rw [(hother j hji).id] at hsome ⊢
      rw [(hother j hji).op]
      exact (hn.copied b j hj hsome).imp_right (List.mem_append_left _)
  case operand =>
    intro b _ hmem hfop y hy k o ho
    rw [Body.code_mapInsts] at hmem
    obtain ⟨j, hj, rfl⟩ := List.mem_map.mp hmem
    obtain ⟨hne, hjop⟩ := hphis b j hj hfop
    rw [(hother j hne).id] at hy
    rw [(hother j hne).operands, List.getElem?_map, Option.map_eq_some_iff] at ho
    obtain ⟨w, hw, rfl⟩ := ho
    obtain ⟨q, hq, hqw⟩ := hn.operand b j hj hjop y hy k w hw
    refine ⟨q, hpreds ▸ hq, (hget _ _).mpr ⟨w, hqw, ?_⟩⟩
    by_cases hwi : w = .result i.id
    · -- the PHI is among its operands, so it is a user of the PHI
      have huser : j.id ∈ i.id :: i.users.filter (· ≠ i.id) := by
        refine List.mem_cons_of_mem _ (List.mem_filter.mpr ⟨?_, by simpa using hne⟩)
        rw [hn.tracked.users P i hi hnot]
        exact ⟨b, j, hj, rfl, hwi ▸ List.mem_of_getElem? hw⟩
      rw [if_pos hwi, if_pos ⟨huser, hwi⟩]
    · rw [if_neg hwi, if_neg fun hand => hwi hand.2]
  case origin =>
    intro y b a ha
    obtain ⟨w, hw, rfl⟩ := (hget _ _).mp ha
    rcases hn.origin y b w hw with ⟨j, hj, hwj, hsource⟩ | ⟨hb, hall⟩
    · by_cases hji : j.id = i.id
      · -- the PHI stood for its own variable at the end of its own block
        obtain rfl := h.indexed.block_unique hj hi hji
        have hwi : w = .result i.id := hwj.trans (congrArg _ hji)
        obtain ⟨rfl, _⟩ := le_of_atEnd hshape (h.unwritten hi hop y) hp
          (Body.lt_size_of_mem_code hi) (hwi ▸ h.defs_atEnd y b w hw)
        rw [if_pos hwi]
        refine Or.inr ⟨Or.inl hroot, fun q hq => ?_⟩
        rw [hpreds] at hq
        obtain ⟨k, hk, rfl⟩ := List.mem_iff_getElem.mp hq
        have hk' : k < i.operands.length := hlen ▸ hk
        obtain ⟨q', hq', hqo⟩ := hn.operand b i hi hop x hp k _ (List.getElem?_eq_getElem hk')
        rw [List.getElem?_eq_getElem hk] at hq'
        cases hq'
        refine (hget _ _).mpr ⟨_, hqo, ?_⟩
        rcases eq_of_mergedValue? hv _ (List.getElem_mem hk') with hself' | hval
        · rw [if_pos hself']
        · rw [hval, if_neg hvne]
      · have hwi : w ≠ .result i.id := by
          rintro rfl
          exact hji (Value.result.inj hwj).symm
        rw [if_neg hwi]
        refine Or.inl ⟨f j, ?_, hwj.trans (congrArg _ (hother j hji).id.symm), ?_⟩
        · rw [Body.code_mapInsts]
          exact List.mem_map_of_mem hj
        · rwa [(hother j hji).id]
    · exact Or.inr ⟨hb, fun q hq => (hget _ _).mpr ⟨w, hall q (hpreds ▸ hq), rfl⟩⟩
  case settled =>
    intro b _ hmem hfop hb hw
    rw [Body.code_mapInsts] at hmem
    obtain ⟨j, hj, rfl⟩ := List.mem_map.mp hmem
    obtain ⟨hne, hjop⟩ := hphis b j hj hfop
    rw [(hother j hne).id] at hb hw ⊢
    rcases hn.settled b j hj hjop hb hw with hW | hnone
    · exact Or.inl (Or.inl ⟨hW, hne⟩)
    · by_cases huser : j.id ∈ i.id :: i.users.filter (· ≠ i.id)
      · exact Or.inl (Or.inr ((List.mem_cons.mp huser).resolve_left hne))
      · have hsame : (f j).operands = j.operands := by
          rw [(hother j hne).operands]
          refine (List.map_congr_left fun w _ => if_neg fun hand => huser hand.1).trans
            (List.map_id _)
        refine Or.inr ?_
        rw [Inst.mergedValue?, Inst.result, hsame, (hother j hne).id]
        exact hnone

/-! ## All removals that one sets off -/

/-- What removals do to the memory: those that are removed are in `K`, and what is remembered
stays, unless it is removed. -/
structure Retires (K : Nat → Prop) (s s' : Builder) : Prop where
  removed : ∀ d ∈ s.removed, d ∈ s'.removed
  only : ∀ d ∈ s'.removed, d ∈ s.removed ∨ K d
  defs : ∀ k v, s.defs.get? k = some v → (∀ d, v = .result d → d ∉ s'.removed) →
    s'.defs.get? k = some v

namespace Retires

theorem refl : Retires K s s := ⟨fun _ hd => hd, fun _ => Or.inl, fun _ _ hk _ => hk⟩

theorem trans (h : Retires K s s') (h' : Retires K s' s'') : Retires K s s'' where
  removed d hd := h'.removed d (h.removed d hd)
  only d hd := by
    rcases h'.only d hd with hd | hd
    · exact h.only d hd
    · exact Or.inr hd
  defs k v hk hv := h'.defs k v (h.defs k v hk fun d hd hmem => hv d hd (h'.removed d hmem)) hv

theorem mono {K' : Nat → Prop} (h : Retires K s s') (hK : ∀ d, K d → K' d) : Retires K' s s' :=
  { h with only := fun d hd => (h.only d hd).imp_right (hK d) }

/-- Nothing is removed, and nothing is forgotten. -/
theorem of_defs (hremoved : s'.removed = s.removed)
    (hdefs : ∀ k v, s.defs.get? k = some v → s'.defs.get? k = some v) : Retires K s s' where
  removed _ hd := hremoved ▸ hd
  only _ hd := Or.inl (hremoved ▸ hd)
  defs k v hk _ := hdefs k v hk

end Retires

/-- The PHIs that use a PHI in `K` are in `K`. -/
def Sticky (K : Nat → Prop) (B : Body) : Prop :=
  ∀ b c, ∀ i ∈ B.code b, ∀ j ∈ B.code c, i.op = .phi → K i.id → j.op = .phi →
    j.id ∈ i.users → K j.id

/-- A removal makes the users of a PHI use another value, but where it is in `K` so is the
PHI. -/
theorem Sticky.forwardPhi (hK : Sticky K B) (hB : B.Indexed) {i : Inst} (hi : i ∈ B.code P)
    (hiop : i.op = .phi) (hp : K i.id) : Sticky K (B.forwardPhi i v) := by
  obtain ⟨f, hmap, _, hf⟩ := hB.forwardPhi_map hi v
  rw [hmap]
  intro b c k' hk' j' hj' hkop hKk hjop huser
  rw [Body.code_mapInsts] at hk' hj'
  obtain ⟨k, hk, rfl⟩ := List.mem_map.mp hk'
  obtain ⟨j, hj, rfl⟩ := List.mem_map.mp hj'
  have hphis : ∀ l, (f l).op = .phi → l.id ≠ i.id ∧ l.op = .phi := by
    intro l hop
    rw [(hf l).op] at hop
    split at hop
    · cases hop
    · next hli => exact ⟨hli, hop⟩
  obtain ⟨hki, hkop⟩ := hphis k hkop
  obtain ⟨hji, hjop⟩ := hphis j hjop
  have hfj := hf j
  have hfk := hf k
  rw [if_neg hji] at hfj
  rw [if_neg hki] at hfk
  rw [hfj.id] at huser ⊢
  rw [hfk.id] at hKk
  rcases (hfk.users j.id).mp huser with hmem | ⟨_, hmem⟩
  · exact hK b c k hk j hj hkop hKk hjop hmem
  · have hmem := (List.mem_cons.mp hmem).resolve_left hji
    exact hK P c i hi j hj hiop hp hjop (List.mem_filter.mp hmem).1

/-- The ways in which one removal ends: there is no PHI any more, it merges two values, or it
gives way to the one that it merges. -/
theorem Sound.collapse_cases (h : Sound L busy s B) (hp : L.phi p = some (x, P))
    (hbusy : busy p = none) (hwaits : ∀ y c, ¬ s.Waits y c p) {us : List Nat}
    (hrun : Builder.collapse p s = .ok (v, us) s') : ∃ i ∈ B.code P, i.id = p ∧ ¬ L.root P ∧
      (us = [] ∧ s' = s ∧ (i.op ≠ .phi ∨ i.mergedValue? = none ∧ v = .result p) ∨
      i.op = .phi ∧ i.mergedValue? = some v ∧ Fills L B.preds x P i.operands ∧
        i.operands.length = (B.preds P).length ∧ us = i.users.filter (· ≠ i.id) ∧
        ∃ fn : OpenFunction,
          s' = Builder.retire { s with opened := some { fn with body := B.forwardPhi i v } }
            i.id v) := by
  obtain ⟨i, hi, rfl⟩ := h.phi_mem p x P hp
  have hinst : B.inst? i.id = some i := h.indexed.inst?_eq_some_iff.mpr ⟨P, hi, rfl⟩
  obtain ⟨hroot, hstanding⟩ := h.standing_of_idle hi hp hbusy (hwaits x P)
  refine ⟨i, hi, rfl, hroot, ?_⟩
  unfold Builder.collapse at hrun
  obtain ⟨C, t, hC, hrest⟩ := bind_eq_ok.mp hrun
  obtain ⟨rfl, rfl⟩ := h.getBody hC
  simp only [hinst] at hrest
  rcases hstanding with ⟨hop, hfills, hlen⟩ | ⟨hop, w, hw, _⟩
  · have hphi : i.isPhi = true := by simp [Inst.isPhi, hop]
    simp only [hphi, Bool.not_true, Bool.false_eq_true, if_false] at hrest
    cases hm : i.mergedValue? with
    | none =>
      simp only [hm, pure_eq_ok, Prod.mk.injEq] at hrest
      obtain ⟨⟨rfl, rfl⟩, rfl⟩ := hrest
      exact Or.inl ⟨rfl, rfl, Or.inr ⟨rfl, rfl⟩⟩
    | some w =>
      simp only [hm, bind_eq_ok, changeBody_eq_ok, modify_eq_ok, pure_eq_ok, Prod.mk.injEq] at hrest
      obtain ⟨_, _, ⟨fn, _, hfn, hok, rfl⟩, _, _, rfl, ⟨rfl, rfl⟩, rfl⟩ := hrest
      cases hok
      obtain ⟨fn', hfn', rfl⟩ := h.opened
      obtain rfl := Option.some.inj (hfn.symm.trans hfn')
      exact Or.inr ⟨hop, rfl, hfills, hlen, rfl, fn, rfl⟩
  · have hphi : i.isPhi = false := by simp [Inst.isPhi, hop]
    simp only [hphi, Bool.not_false, if_true, pure_eq_ok, Prod.mk.injEq] at hrest
    obtain ⟨⟨_, rfl⟩, rfl⟩ := hrest
    exact Or.inl ⟨rfl, rfl, Or.inl (by simp [hop])⟩

theorem Sound.isPhi_iff (h : Sound L busy s B) :
    s.isPhi p = true ↔ ∃ b, ∃ j ∈ B.code b, j.id = p ∧ j.op = .phi := by
  rw [Builder.isPhi, h.body?_eq, Option.any_some, h.indexed.isPhi_iff]

/-- A neat state after removals that stay in `K`. -/
structure Cleared (K W : Nat → Prop) (L : Ledger) (busy : Nat → Option Progress) (s : Builder)
    (B : Body) (s' : Builder) (B' : Body) : Prop where
  neat : Neat W L busy s' B'
  retires : Retires K s s'
  sticky : Sticky K B'
  isPhi : ∀ q, s'.isPhi q = true → s.isPhi q = true

/-- **One removal in a neat state.** -/
theorem Neat.collapse (h : Sound L busy s B) (hn : Neat W L busy s B) (hshape : Shape L B)
    (hp : L.phi p = some (x, P)) (hbusy : busy p = none) (hwaits : ∀ y c, ¬ s.Waits y c p)
    (hK : Sticky K B) (hKp : K p) {us : List Nat} (hs' : Sound L busy s' B')
    (hrun : Builder.collapse p s = .ok (v, us) s') :
    Cleared K (fun q => W q ∧ q ≠ p ∨ q ∈ us) L busy s B s' B' ∧
      (∀ u ∈ us, s.isPhi u = true → K u) ∧
      (s.isPhi p = true → v = .result p ∧ us = [] ∧ s' = s ∨
        s.Live v ∧ (∀ d y Q, v = .result d → L.phi d = some (y, Q) → Q < P) ∧
          ∀ k, s.defs.get? k = some (.result p) → s'.defs.get? k = some v) := by
  obtain ⟨i, hi, rfl, hroot, ⟨rfl, rfl, hcases⟩ | ⟨hop, hv, hfills, hlen, rfl, fn, rfl⟩⟩ :=
    h.collapse_cases hp hbusy hwaits hrun
  · obtain rfl := h.body? hs'.body?_eq
    refine ⟨⟨?_, .refl, hK, fun _ hq => hq⟩, fun u hu => (List.not_mem_nil hu).elim, ?_⟩
    · refine { hn with settled := fun b j hj hjop hb hw => ?_ }
      by_cases hji : j.id = i.id
      · obtain rfl := h.indexed.eq_of_id_eq hj hi hji
        rcases hcases with hop | ⟨hnone, _⟩
        · exact absurd hjop hop
        · exact Or.inr hnone
      · exact (hn.settled b j hj hjop hb hw).imp_left fun hW => Or.inl ⟨hW, hji⟩
    · intro hphi
      rcases hcases with hop | ⟨_, hv⟩
      · obtain ⟨b, j, hj, hid, hjop⟩ := h.isPhi_iff.mp hphi
        exact absurd (h.indexed.eq_of_id_eq hj hi hid ▸ hjop) hop
      · exact Or.inl ⟨hv, rfl, rfl⟩
  · obtain rfl : B.forwardPhi i v = B' := Option.some.inj hs'.body?_eq
    obtain ⟨o, ho, hone, hearlier⟩ := hn.exists_operand_lt h hshape hi hp hroot hfills hlen
    obtain rfl := (eq_of_mergedValue? hv o ho).resolve_left hone
    obtain ⟨f, hmap, _, hf⟩ := h.indexed.forwardPhi_map hi o
    -- nothing becomes a PHI, and this one is none any more
    have hphis : ∀ j, (f j).op = .phi → j.id ≠ i.id ∧ j.op = .phi := by
      intro j hop'
      rw [(hf j).op] at hop'
      split at hop'
      · cases hop'
      · next hji => exact ⟨hji, hop'⟩
    have hget : ∀ k, (s.defs.mapValues fun w => if w = .result i.id then o else w).get? k =
        (s.defs.get? k).map fun w => if w = .result i.id then o else w :=
      fun k => OrderedMap.get?_mapValues ..
    refine ⟨⟨hn.retire h hshape hi hp hop hroot hfills hlen hv fn, ⟨?_, ?_, ?_⟩,
      hK.forwardPhi h.indexed hi hop hKp, ?_⟩, ?_, ?_⟩
    · exact fun d hd => List.mem_append_left _ hd
    · intro d hd
      rcases List.mem_append.mp hd with hd | hd
      · exact Or.inl hd
      · exact Or.inr (List.mem_singleton.mp hd ▸ hKp)
    · intro k w hk hw
      refine (hget k).trans ?_
      rw [hk, Option.map_some, if_neg]
      rintro rfl
      exact hw i.id rfl (List.mem_append_right _ (List.mem_singleton_self _))
    · intro q hq
      obtain ⟨b, _, hmem, hid, hfop⟩ := hs'.isPhi_iff.mp hq
      rw [hmap, Body.code_mapInsts] at hmem
      obtain ⟨j, hj, rfl⟩ := List.mem_map.mp hmem
      obtain ⟨hji, hjop⟩ := hphis j hfop
      have hfj := hf j
      rw [if_neg hji] at hfj
      exact h.isPhi_iff.mpr ⟨b, j, hj, hfj.id.symm.trans hid, hjop⟩
    · intro u hu hphi
      obtain ⟨b, j, hj, rfl, hjop⟩ := h.isPhi_iff.mp hphi
      exact hK P b i hi j hj hop hKp hjop (List.mem_filter.mp hu).1
    · intro _
      refine Or.inr ⟨hn.live_of_mem hi ho, hearlier, fun k hk => ?_⟩
      refine (hget k).trans ?_
      rw [hk, Option.map_some, if_pos rfl]

/-- **All removals that one sets off, in a neat state.**  No PHI is removed that is not in
`K`, and the PHI itself is not left over. -/
theorem Neat.removeFrom (depth : Nat) : ∀ {W : Nat → Prop} {p x P : Nat} {v : Value}
    {s s' : Builder} {B : Body}, Sound L busy s B → Confined n busy B → Neat W L busy s B →
    Shape L B → L.phi p = some (x, P) → Free n busy s p → Sticky K B → K p →
    Builder.removeFrom depth p s = .ok v s' →
    ∃ B', Removed n L busy s B s' B' ∧ (v = .result p ∨ L.Before x v B.preds P) ∧
      Cleared K (fun q => W q ∧ q ≠ p) L busy s B s' B' ∧
      (s.isPhi p = true → v = .result p ∧ s' = s ∨
        s.Live v ∧ (∀ d y Q, v = .result d → L.phi d = some (y, Q) → Q < P) ∧
          ∀ k, s.defs.get? k = some (.result p) → (∀ d, v = .result d → d ∉ s'.removed) →
            s'.defs.get? k = some v) := by
  induction depth with
  | zero =>
    intro W p x P v s s' B _ _ _ _ _ _ _ _ hrun
    exact (fail_eq_ok.mp hrun).elim
  | succ depth ih =>
    intro W p x P v s s' B h hconf hn hshape hp hfree hK hKp hrun
    simp only [Builder.removeFrom, bind_eq_ok, pure_eq_ok] at hrun
    obtain ⟨⟨w, us⟩, t, hcol, _, t', hloop, rfl, rfl⟩ := hrun
    obtain ⟨B₁, hB₁, hfrees, hv⟩ := h.collapse hconf hp hfree hcol
    obtain ⟨hcleared, hKus, hval⟩ := hn.collapse h hshape hp hfree.busy hfree.waits hK hKp
      hB₁.sound hcol
    -- the PHIs that may be left over are those still to be looked at
    have key := forM_invariant (I := fun l u => (∀ q ∈ l, q ∈ us) ∧
      ∃ B', Removed n L busy s B u B' ∧
      Cleared K (fun q => W q ∧ q ≠ p ∨ q ∈ l) L busy t B₁ u B') ?_
      us t t' ⟨fun _ hq => hq, B₁, hB₁, hcleared.neat, .refl, hcleared.sticky,
        fun _ hq => hq⟩ hloop
    · obtain ⟨_, B', hB', hfinal⟩ := key
      refine ⟨B', hB', hv, ⟨hfinal.neat.mono ?_, hcleared.retires.trans hfinal.retires,
        hfinal.sticky, fun q hq => hcleared.isPhi q (hfinal.isPhi q hq)⟩, fun hphi => ?_⟩
      · rintro q (hq | hq)
        · exact hq
        · cases hq
      · rcases hval hphi with ⟨hv, rfl, rfl⟩ | ⟨hlive, hlt, hdefs⟩
        · exact Or.inl ⟨hv, (pure_eq_ok.mp hloop).2.symm⟩
        · exact Or.inr ⟨hlive, hlt, fun k hk hd => hfinal.retires.defs k _ (hdefs k hk) hd⟩
    · rintro q l u u' ⟨hl, B₂, hB₂, hcl⟩ hround
      refine ⟨fun r hr => hl r (List.mem_cons_of_mem _ hr), ?_⟩
      simp only [bind_eq_ok, get_eq_ok] at hround
      obtain ⟨_, _, ⟨rfl, rfl⟩, hround⟩ := hround
      have hq := hl q (List.mem_cons_self ..)
      split at hround
      · next hphi =>
        obtain ⟨w', u₁, hrem, hpure⟩ := bind_eq_ok.mp hround
        obtain ⟨_, rfl⟩ := pure_eq_ok.mp hpure
        obtain ⟨y, Q, hyq⟩ := hB₂.sound.isPhi hphi
        have hfree' := (hfrees q hq).of_pending hB₂.pending
        have hKq : K q := hKus q hq (hcleared.isPhi q (hcl.isPhi q hphi))
        obtain ⟨B₃, hB₃, _, hcl₃, _⟩ := ih hB₂.sound (hconf.of_oldUsers hB₂.users) hcl.neat
          (hshape.steady hB₂.steady rfl) hyq hfree' hcl.sticky hKq hrem
        refine ⟨B₃, hB₂.trans hB₃, hcl₃.neat.mono ?_, hcl.retires.trans hcl₃.retires,
          hcl₃.sticky, fun r hr => hcl.isPhi r (hcl₃.isPhi r hr)⟩
        rintro r ⟨hr | hr, hne⟩
        · exact Or.inl hr
        · exact Or.inr ((List.mem_cons.mp hr).resolve_left hne)
      · next hphi =>
        obtain ⟨_, rfl⟩ := pure_eq_ok.mp hround
        refine ⟨B₂, hB₂, { hcl with neat := { hcl.neat with settled := ?_ } }⟩
        intro b j hj hop hb hw
        have hjq : j.id ≠ q := by
          rintro rfl
          exact hphi (hB₂.sound.isPhi_iff.mpr ⟨b, j, hj, rfl, hop⟩)
        refine (hcl.neat.settled b j hj hop hb hw).imp_left ?_
        rintro (hW | hmem)
        · exact Or.inl hW
        · exact Or.inr ((List.mem_cons.mp hmem).resolve_left hjq)

end Builder

end Compiler16.Ssa
