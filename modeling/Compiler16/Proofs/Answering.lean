import Compiler16.Proofs.Reading
import Compiler16.Proofs.Uses
import Mathlib.Data.Finset.Card
import Mathlib.Data.Finset.Range
import Mathlib.Logic.Relation

/-!
# Reads are answered

A read goes back from predecessor to predecessor.  At a block with several of them it
leaves a PHI, so the block has a definition before the read goes on; this happens at
most once for every block.  In between it passes through blocks with one predecessor
each, and if those form no ring, it meets none of them twice.  So in a graph of `n`
blocks a read is at most `(n + 1) ^ 2` deep, the depth it is given, and the only way
for it to fail is that a block does not exist.

Removals end because each leaves one PHI less.  For that the index of the body has to be
exact, so that the PHI that is looked up is the one that is replaced.

The same induction shows what else reads and removals keep.  It is done for any property that
the single changes keep: a `Watch`.

## Main definitions

* `Coded`: the index of the open function is exact
* `Watch`, `Watch.KeptByReads`: a property of states, and that reads keep it
* `NoRing`: no sealed blocks with one predecessor each form a ring
* `undefinedBlocks`: the number of blocks without a definition of a variable
* `Room`: a read is given enough depth

## Main results

* `Watch.KeptByReads.removeTrivialPhi`: removals do not fail
* `Watch.KeptByReads.readVariable`, `Watch.KeptByReads.sealBlock`: reads are answered and blocks are
  sealed, unless there is a ring or a block does not exist
* `Sound.readVariable_total`, `Sound.sealBlock_total`: in a sound state they are
-/

namespace Compiler16.Ssa

open Compiler16.Flow

namespace Builder

variable {s s' s'' t : Builder} {B B' B'' C : Body} {x b p q : Nat} {v : Value}

/-! ## Bodies with an exact index -/

/-- The body of the open function has an exact index, and its numbers have been drawn. -/
structure Coded (s : Builder) (B : Body) : Prop where
  body : s.body? = some B
  indexed : B.Indexed
  bound : ∀ b, ∀ i ∈ B.code b, i.id < s.nextId

/-- Where PHIs are noted to wait there is a block, and there are some. -/
def Queued (s : Builder) (B : Body) : Prop :=
  ∀ b l, s.pending.get? b = some l → b < B.graph.size ∧ l ≠ []

/-- What reads and removals lead to. -/
structure Follows (s : Builder) (B : Body) (s' : Builder) (B' : Body) : Prop where
  coded : Coded s' B'
  steady : Steady s B s' B'
  queued : s.Queued B → s'.Queued B'

theorem Queued.mono (h : s.Queued B) (hpending : s'.pending = s.pending)
    (hsize : B.graph.size ≤ B'.graph.size) : s'.Queued B' := by
  intro b l hl
  rw [hpending] at hl
  exact ⟨lt_of_lt_of_le (h b l hl).1 hsize, (h b l hl).2⟩

namespace Coded

theorem exists_opened (h : Coded s B) : ∃ fn, s.opened = some fn ∧ fn.body = B :=
  Option.map_eq_some_iff.mp h.body

theorem body_eq {fn : OpenFunction} (h : Coded s B) (hfn : s.opened = some fn) : B = fn.body := by
  obtain ⟨fn', hfn', rfl⟩ := h.exists_opened
  rw [Option.some.inj (hfn'.symm.trans hfn)]

theorem getBody (h : Coded s B) : Builder.getBody s = .ok B s :=
  getBody_eq_ok.mpr ⟨h.exists_opened, rfl⟩

theorem getBody_bind {α : Type} {f : Body → Build α} {Q : α → Builder → Prop}
    {E : Error → Builder → Prop} (h : Coded s B) (hf : Ends (f B) s Q E) :
    Ends (Builder.getBody >>= f) s Q E :=
  Ends.bind (Q := fun C t => B = C ∧ s = t) (.of_ok h.getBody ⟨rfl, rfl⟩) fun C t ⟨hC, ht⟩ => by
    subst hC ht
    exact hf

theorem refl (h : Coded s B) : Follows s B s B := ⟨h, .refl, fun hq => hq⟩

/-- The body is changed without new blocks, edges or instructions. -/
theorem changeBody {α : Type} (h : Coded s B) {f : Body → Except Error (α × Body)} {a : α}
    (hf : f B = .ok (a, B')) (hindexed : B'.Indexed)
    (hbound : ∀ b, ∀ i ∈ B'.code b, i.id < s.nextId) (hframe : B.SameFrame B') :
    ∃ s', Builder.changeBody f s = .ok a s' ∧ Follows s B s' B' ∧ s'.defs = s.defs := by
  obtain ⟨fn, hfn, rfl⟩ := h.exists_opened
  refine ⟨_, changeBody_eq_ok.mpr ⟨fn, B', hfn, hf, rfl⟩,
    ⟨⟨rfl, hindexed, hbound⟩, ?_, fun hq => hq.mono rfl hframe.size.ge⟩, rfl⟩
  exact ⟨le_rfl, rfl, rfl, rfl, rfl, by simp [hfn], hframe, fun _ a ha => ⟨a, ha⟩⟩

theorem addOperand (h : Coded s B) (p : Nat) (v : Value) :
    ∃ s', Builder.changeBody (fun body => .ok ((), (body.addOperand p v).2)) s = .ok () s' ∧
      Follows s B s' (B.addOperand p v).2 := by
  have hbody : (B.addOperand p v).2.Indexed ∧ B.SameFrame (B.addOperand p v).2 ∧
      ∀ b, ∀ i ∈ (B.addOperand p v).2.code b, i.id < s.nextId := by
    cases hi : B.inst? p with
    | none =>
      have hnone : (B.addOperand p v).2 = B := by simp [Body.addOperand, hi]
      rw [hnone]
      exact ⟨h.indexed, .refl, h.bound⟩
    | some i =>
      -- the operand goes to one instruction, and another may get a new user
      obtain ⟨b, hmem, hid⟩ := h.indexed.inst?_eq_some_iff.mp hi
      obtain ⟨f, hf, hmap⟩ := h.indexed.addOperand_eq hmem hid v
      rw [hmap]
      refine ⟨h.indexed.mapInsts fun _ j _ => ⟨(hf j).1, (hf j).2.1⟩, .mapInsts f, ?_⟩
      intro c j hj
      rw [Body.code_mapInsts] at hj
      obtain ⟨k, hk, rfl⟩ := List.mem_map.mp hj
      rw [(hf k).1]
      exact h.bound c k hk
  obtain ⟨s', hrun, hfollows, _⟩ := h.changeBody
    (f := fun body => .ok ((), (body.addOperand p v).2)) rfl hbody.1 hbody.2.2 hbody.2.1
  exact ⟨s', hrun, hfollows⟩

/-- A new instruction comes last in its block. -/
theorem append {i : Inst} (h : Coded s B) (hid : i.id = s.nextId) (hB' : B.append i = .ok B') :
    B'.Indexed ∧ B.SameFrame B' ∧ ∀ b, ∀ j ∈ B'.code b, j.id < s.nextId + 1 := by
  obtain ⟨_, hframe, hindexed, f, hf, _, hcode⟩ := h.indexed.append_ok
    (fun b j hj => hid ▸ (h.bound b j hj).ne) hB'
  refine ⟨hindexed, hframe, fun b j hj => ?_⟩
  rw [hcode] at hj
  obtain ⟨l, hl, rfl⟩ := List.mem_map.mp hj
  rw [(hf l).id]
  -- it is the new instruction or one of before
  have hmem : l = i ∨ l ∈ B.code b := by
    split at hl
    · rcases List.mem_append.mp hl with hl | hl
      · exact Or.inr hl
      · exact Or.inl (List.mem_singleton.mp hl)
    · exact Or.inr hl
  rcases hmem with rfl | hl
  · exact hid ▸ Nat.lt_succ_self _
  · exact (h.bound b l hl).trans (Nat.lt_succ_self _)

theorem insertPhi (h : Coded s B)
    (hins : B.insertPhi { op := .phi, id := s.nextId, block := b } = .ok B') :
    B'.Indexed ∧ ∀ c, ∀ i ∈ B'.code c, i.id < s.nextId + 1 := by
  obtain ⟨_, _, hcode, hhome⟩ := Body.insertPhi_ok hins
  constructor
  · refine h.indexed.insert (fun c j hj hid => ?_) (fun c => ?_) hhome
    · exact absurd (h.bound c j hj) (by simp [hid])
    · rw [hcode]
      split
      · refine List.perm_middle.trans ?_
        rw [List.takeWhile_append_dropWhile]
      · exact List.Perm.refl _
  · intro c j hj
    rcases (Body.mem_code_insertPhi hins).mp hj with ⟨_, rfl⟩ | hj
    · exact Nat.lt_succ_self _
    · exact (h.bound c j hj).trans (Nat.lt_succ_self _)

/-- A number is drawn. -/
theorem draw (h : Coded s B) : Follows s B { s with nextId := s.nextId + 1 } B where
  coded := ⟨h.body, h.indexed, fun b i hi => (h.bound b i hi).trans (Nat.lt_succ_self _)⟩
  steady := ⟨Nat.le_succ _, rfl, rfl, rfl, rfl, rfl, .refl, fun _ a ha => ⟨a, ha⟩⟩
  queued := id

theorem remember (h : Coded s B) : Follows s B { s with defs := s.defs.insert (x, b) v } B :=
  ⟨⟨h.body, h.indexed, h.bound⟩, steady_remember, id⟩

end Coded

namespace Follows

theorem trans (h : Follows s B s' B') (h' : Follows s' B' s'' B'') : Follows s B s'' B'' :=
  ⟨h'.coded, h.steady.trans h'.steady, fun hq => h'.queued (h.queued hq)⟩

/-- A value is remembered in the end. -/
theorem remember (h : Follows s B s' B') :
    Follows s B { s' with defs := s'.defs.insert (x, b) v } B' :=
  h.trans h.coded.remember

end Follows

/-- A PHI waits. -/
theorem Coded.addPending (h : Coded s B) (hb : b < B.graph.size) :
    Follows s B { s with
      pending := s.pending.insert b (insertPending x p ((s.pending.get? b).getD [])) } B where
  coded := ⟨h.body, h.indexed, h.bound⟩
  steady := ⟨le_rfl, rfl, rfl, rfl, rfl, rfl, .refl, fun _ a ha => ⟨a, ha⟩⟩
  queued hq c l hl := by
    rw [OrderedMap.get?_insert] at hl
    split at hl
    · next hc =>
      cases hl
      refine ⟨hc ▸ hb, ?_⟩
      cases (s.pending.get? b).getD [] with
      | nil => simp [insertPending]
      | cons e l =>
        unfold insertPending
        split <;> [skip; split] <;> simp
    · exact hq c l hl

theorem Queued.erase (h : s.Queued B) : Queued { s with pending := s.pending.erase b } B := by
  intro c l hl
  rw [OrderedMap.get?_erase] at hl
  split at hl
  · cases hl
  · exact h c l hl

/-! ## Properties that are watched -/

/-- A property of states, and one of values that goes with it.  Both may depend on what has come up
so far; for a value it does no harm if more comes up. -/
structure Watch (W : Type) [Preorder W] where
  holds : W → Builder → Prop
  value : W → Value → Prop
  mono : ∀ {w w' : W} {v : Value}, w ≤ w' → value w v → value w' v

/-- Reads, and removals if there are any, keep the property. -/
structure Watch.KeptByReads {W : Type} [Preorder W] (X : Watch W) (o : Options) : Prop where
  known : ∀ {w s k v}, X.holds w s → s.defs.get? k = some v → X.value w v
  outside : ∀ {w s} (x : Nat), X.holds w s → X.value w (s.globalValue x)
  newPhi : ∀ {w s B b p s'}, Coded s B → X.holds w s → newPhi b s = .ok p s' →
    ∃ w', w ≤ w' ∧ X.holds w' s' ∧ X.value w' (.result p)
  remember : ∀ {w s v} (k : Nat × Nat), X.holds w s → X.value w v →
    X.holds w { s with defs := s.defs.insert k v }
  pending : ∀ {w s} (m : OrderedMap Nat (List (Nat × Nat))), X.holds w s →
    X.holds w { s with pending := m }
  sealing : ∀ {w s} (l : List Nat), X.holds w s → X.holds w { s with sealedBlocks := l }
  operand : ∀ {w s B p v s'}, Coded s B → X.holds w s → X.value w v →
    changeBody (fun body => .ok ((), (body.addOperand p v).2)) s = .ok () s' → X.holds w s'
  collapse : ∀ {w s B p v us s'}, o.removeTrivialPhis = true → Coded s B → X.holds w s →
    collapse p s = .ok (v, us) s' → X.holds w s' ∧ (X.value w (.result p) → X.value w v)

/-- Nothing is watched. -/
def Watch.nothing (W : Type) [Preorder W] : Watch W :=
  ⟨fun _ _ => True, fun _ _ => True, fun _ h => h⟩

theorem Watch.nothing_keptByReads (W : Type) [Preorder W] (o : Options) :
    (Watch.nothing W).KeptByReads o where
  known _ _ := trivial
  outside _ _ := trivial
  newPhi _ _ _ := ⟨_, le_rfl, trivial, trivial⟩
  remember _ _ _ := trivial
  pending _ _ := trivial
  sealing _ _ := trivial
  operand _ _ _ _ := trivial
  collapse _ _ _ _ := ⟨trivial, fun _ => trivial⟩

/-! ## Removals -/

/-- An attempt to remove a PHI changes nothing, or the PHI merges a single value and becomes a
copy. -/
theorem Coded.collapse_cases (h : Coded s B) (p : Nat) :
    (∃ v, Builder.collapse p s = .ok (v, []) s ∧
      (v = .result p ∨ ∃ b, ∃ i ∈ B.code b, v ∈ i.operands)) ∨
    ∃ fn b v, s.opened = some fn ∧ fn.body = B ∧ ∃ i ∈ B.code b, i.id = p ∧ i.op = .phi ∧
      i.mergedValue? = some v ∧
      Builder.collapse p s = .ok (v, i.users.filter (· ≠ i.id))
        (retire { s with opened := some { fn with body := B.forwardPhi i v } } i.id v) := by
  obtain ⟨fn, hfn, hbody⟩ := h.exists_opened
  unfold Builder.collapse
  simp only [bind_eq_ok]
  cases hi : B.inst? p with
  | none =>
    exact Or.inl ⟨_, ⟨B, s, h.getBody, by rw [hi]; exact pure_eq_ok.mpr ⟨rfl, rfl⟩⟩, Or.inl rfl⟩
  | some i =>
    obtain ⟨b, hmem, rfl⟩ := h.indexed.inst?_eq_some_iff.mp hi
    by_cases hphi : i.isPhi = true
    · cases hm : i.mergedValue? with
      | none =>
        refine Or.inl ⟨i.result, ⟨B, s, h.getBody, ?_⟩, Or.inl rfl⟩
        simp only [hi, hphi, hm, Bool.not_true, Bool.false_eq_true, if_false]
        exact pure_eq_ok.mpr ⟨rfl, rfl⟩
      | some w =>
        refine Or.inr ⟨fn, b, w, hfn, hbody, i, hmem, rfl, by simpa [Inst.isPhi] using hphi, hm,
          B, s, h.getBody, ?_⟩
        simp only [hi, hphi, hm, Bool.not_true, Bool.false_eq_true, if_false]
        refine bind_eq_ok.mpr ⟨(), _, changeBody_eq_ok.mpr ⟨fn, _, hfn, rfl, rfl⟩, ?_⟩
        exact bind_eq_ok.mpr ⟨(), _, modify_eq_ok.mpr rfl,
          by rw [hbody]; exact pure_eq_ok.mpr ⟨rfl, rfl⟩⟩
    · refine Or.inl ⟨i.operands.head?.getD i.result, ⟨B, s, h.getBody, ?_⟩, ?_⟩
      · simp only [hi, hphi, Bool.not_false, if_true]
        exact pure_eq_ok.mpr ⟨rfl, rfl⟩
      · cases hhead : i.operands.head? with
        | none => exact Or.inl rfl
        | some v => exact Or.inr ⟨b, i, hmem, List.mem_of_head? hhead⟩

/-- An attempt to remove a PHI does not fail.  If it sets off others, there is one PHI less. -/
theorem Coded.collapse (h : Coded s B) (p : Nat) :
    ∃ v us s' B', Builder.collapse p s = .ok (v, us) s' ∧ Follows s B s' B' ∧
      B'.phis.length ≤ B.phis.length ∧ (us = [] ∨ B'.phis.length < B.phis.length) := by
  obtain ⟨v, hrun, _⟩ | ⟨fn, b, w, hfn, rfl, i, hmem, rfl, hop, _, hrun⟩ := h.collapse_cases p
  · exact ⟨v, [], s, B, hrun, h.refl, le_rfl, Or.inl rfl⟩
  · have hlt := h.indexed.length_phis_forwardPhi hmem hop w
    obtain ⟨f, hmap, hindexed, hf⟩ := h.indexed.forwardPhi_map hmem w
    refine ⟨w, _, _, fn.body.forwardPhi i w, hrun, ⟨⟨rfl, hmap ▸ hindexed, ?_⟩, ?_, ?_⟩, hlt.le,
      Or.inr hlt⟩
    · intro c j hj
      rw [hmap, Body.code_mapInsts] at hj
      obtain ⟨k, hk, rfl⟩ := List.mem_map.mp hj
      rw [(hf k).id]
      split
      · exact h.bound b i hmem
      · exact h.bound c k hk
    · refine ⟨le_rfl, rfl, rfl, rfl, rfl, by simp [retire, hfn], hmap ▸ .mapInsts f,
        fun k a ha => ?_⟩
      refine ⟨if a = .result i.id then w else a, ?_⟩
      exact (OrderedMap.get?_mapValues ..).trans (by rw [ha]; rfl)
    · exact fun hq => hq.mono rfl (hmap ▸ (Body.SameFrame.mapInsts f).size.ge)

section Watched

variable {W : Type} [Preorder W] {X : Watch W} {o : Options} {w : W}

/-- **Removals do not fail** if they may go one deeper than there are PHIs. -/
theorem Watch.KeptByReads.removeFrom (hX : X.KeptByReads o) (ho : o.removeTrivialPhis = true)
    (depth : Nat) :
    ∀ {s : Builder} {B : Body} (p : Nat), Coded s B → X.holds w s → B.phis.length < depth →
      ∃ v s' B', Builder.removeFrom depth p s = .ok v s' ∧ Follows s B s' B' ∧
        B'.phis.length ≤ B.phis.length ∧ X.holds w s' ∧
        (X.value w (.result p) → X.value w v) := by
  induction depth with
  | zero => exact fun p _ _ hdepth => absurd hdepth (Nat.not_lt_zero _)
  | succ depth ih =>
    intro s B p h hw hdepth
    obtain ⟨v, us, t, C, hrun, hC, hle, hus⟩ := h.collapse p
    obtain ⟨hwt, hv⟩ := hX.collapse ho h hw hrun
    have hloop := Ends.forM (f := fun q => do
        if (← get).isPhi q then
          let _ ← Builder.removeFrom depth q)
      (I := fun l u => (l ≠ [] → us ≠ []) ∧
        ∃ D, Follows s B u D ∧ D.phis.length ≤ C.phis.length ∧ X.holds w u)
      (E := fun _ _ => False) ?_ us t ⟨id, C, hC, le_rfl, hwt⟩
    · obtain ⟨_, s', hloop, _, D, hD, hDC, hws'⟩ := hloop.exists_ok
      refine ⟨v, s', D, ?_, hD, hDC.trans hle, hws', hv⟩
      simp only [Builder.removeFrom, bind_eq_ok]
      exact ⟨_, t, hrun, (), s', hloop, pure_eq_ok.mpr ⟨rfl, rfl⟩⟩
    · -- in every round there are fewer PHIs than in the beginning
      rintro q l u ⟨hne, D, hD, hDC, hwu⟩
      have hless := hus.resolve_left (hne (by simp))
      refine Ends.get_bind ?_
      split
      · obtain ⟨v', u', D', hq, hD', hle', hwu', _⟩ := ih q hD.coded hwu (by omega)
        exact .of_ok (bind_eq_ok.mpr ⟨v', u', hq, pure_eq_ok.mpr ⟨rfl, rfl⟩⟩)
          ⟨fun _ => hne (by simp), D', hD.trans hD', hle'.trans hDC, hwu'⟩
      · exact .pure ⟨fun _ => hne (by simp), D, hD, hDC, hwu⟩

theorem Watch.KeptByReads.removeTrivialPhi (hX : X.KeptByReads o) (ho : o.removeTrivialPhis = true)
    (p : Nat) (h : Coded s B) (hw : X.holds w s) :
    ∃ v s' B', Builder.removeTrivialPhi p s = .ok v s' ∧ Follows s B s' B' ∧ X.holds w s' ∧
      (X.value w (.result p) → X.value w v) := by
  obtain ⟨v, s', B', hrun, hB', _, hws', hv⟩ := hX.removeFrom ho _ p h hw (Nat.lt_succ_self _)
  exact ⟨v, s', B', bind_eq_ok.mpr ⟨B, s, h.getBody, hrun⟩, hB', hws', hv⟩

end Watched

/-! ## Reads -/

/-- The block is sealed, and its only predecessor is `q`. -/
def Passes (s : Builder) (B : Body) (b q : Nat) : Prop := s.isSealed b = true ∧ B.preds b = [q]

/-- No sealed blocks with one predecessor each form a ring. -/
def NoRing (s : Builder) (B : Body) : Prop := ∀ b, ¬ Relation.TransGen (Passes s B) b b

theorem NoRing.steady (h : NoRing s B) (hs : Steady s B s' B') : NoRing s' B' := by
  intro b hb
  refine h b (Relation.TransGen.mono (fun c q hc => ?_) b b hb)
  rwa [Passes, hs.isSealed, hs.preds] at hc

/-- The number of blocks without a definition of the variable. -/
def undefinedBlocks (s : Builder) (B : Body) (x : Nat) : Nat :=
  ((Finset.range B.graph.size).filter fun b => s.defs.get? (x, b) = none).card

theorem undefinedBlocks_le : undefinedBlocks s B x ≤ B.graph.size := by
  refine (Finset.card_filter_le _ _).trans ?_
  rw [Finset.card_range]

theorem Steady.none_of_none (h : Steady s B s' B') {k : Nat × Nat} (hk : s'.defs.get? k = none) :
    s.defs.get? k = none := by
  by_contra hne
  obtain ⟨a, ha⟩ := Option.ne_none_iff_exists'.mp hne
  obtain ⟨a', ha'⟩ := h.defs _ a ha
  simp [hk] at ha'

theorem Steady.undefinedBlocks_le (h : Steady s B s' B') :
    undefinedBlocks s' B' x ≤ undefinedBlocks s B x := by
  unfold undefinedBlocks
  rw [h.frame.size]
  exact Finset.card_le_card (Finset.monotone_filter_right _ fun b _ hb => h.none_of_none hb)

/-- A new definition leaves one block less without. -/
theorem Steady.undefinedBlocks_lt (h : Steady s B s' B') (hb : b < B.graph.size)
    (hdefs : s.defs.get? (x, b) = none) (hdefs' : s'.defs.get? (x, b) = some v) :
    undefinedBlocks s' B' x < undefinedBlocks s B x := by
  unfold undefinedBlocks
  rw [h.frame.size]
  refine Finset.card_lt_card (Finset.ssubset_iff_of_subset ?_ |>.mpr ⟨b, ?_, ?_⟩)
  · exact Finset.monotone_filter_right _ fun b _ hb => h.none_of_none hb
  · exact Finset.mem_filter.mpr ⟨Finset.mem_range.mpr hb, hdefs⟩
  · intro hmem
    simp [hdefs'] at hmem

/-- The error is that a block does not exist: the one that is read, or one from which an edge
comes. -/
def Lacks (B : Body) (b : Nat) (e : Error) : Prop :=
  ∃ k, e = .blockNotFound k ∧ B.graph.size ≤ k ∧ (k = b ∨ ∃ c, k ∈ B.preds c)

/-- A read fails.  If the construction is in order, it is because a block does not exist. -/
def Fails (inOrder : Prop) (s : Builder) (B : Body) (b : Nat) (e : Error) (s' : Builder) : Prop :=
  (∃ B', Follows s B s' B') ∧ (inOrder → Lacks B b e)

/-- A read fails with a read of a predecessor. -/
theorem Follows.fails {inOrder inOrder' : Prop} {e : Error} (h : Follows s B t C)
    (hq : ∃ c, q ∈ B.preds c) (hin : inOrder → inOrder') (he : Fails inOrder' t C q e s') :
    Fails inOrder s B b e s' := by
  obtain ⟨⟨B', hB'⟩, he⟩ := he
  refine ⟨⟨B', h.trans hB'⟩, fun hs => ?_⟩
  obtain ⟨k, rfl, hk, hkq⟩ := he (hin hs)
  rw [h.steady.frame.size] at hk
  rw [h.steady.preds] at hkq
  refine ⟨k, rfl, hk, Or.inr ?_⟩
  rcases hkq with rfl | hkq
  · exact hq
  · exact hkq

/-! ## How deep reads go -/

/-- There is room for a read of `b` that is `depth` deep.  The blocks `trail` are those with one
predecessor that it has passed through since the last PHI. -/
structure Room (s : Builder) (B : Body) (x depth : Nat) (trail : List Nat) (b : Nat) : Prop where
  ring : NoRing s B
  nodup : trail.Nodup
  lt : ∀ c ∈ trail, c < B.graph.size
  pass : ∀ c ∈ trail, Relation.TransGen (Passes s B) c b
  depth : undefinedBlocks s B x * (B.graph.size + 1) + (B.graph.size - trail.length) < depth

namespace Room

variable {depth : Nat} {trail : List Nat}

theorem initial (h : Coded s B) (hring : NoRing s B) : Room s B x s.readDepth [] b := by
  refine ⟨hring, List.nodup_nil, by simp, by simp, ?_⟩
  have hdepth : s.readDepth = (B.graph.size + 1) * (B.graph.size + 1) := by
    rw [readDepth, h.body]
  have hle := Nat.mul_le_mul_right (B.graph.size + 1)
    (undefinedBlocks_le (s := s) (B := B) (x := x))
  rw [hdepth, Nat.add_mul, List.length_nil]
  omega

/-- The read passes through a block. -/
theorem through (h : Room s B x (depth + 1) trail b) (hstep : Passes s B b q) :
    Room s B x depth (b :: trail) q := by
  have hmem : q ∈ B.preds b := by simp [hstep.2]
  have hfresh : b ∉ trail := fun hmem => h.ring b (h.pass b hmem)
  have hnodup : (b :: trail).Nodup := List.nodup_cons.mpr ⟨hfresh, h.nodup⟩
  have hlt : ∀ c ∈ b :: trail, c < B.graph.size := by
    intro c hc
    rcases List.mem_cons.mp hc with rfl | hc
    · exact Body.lt_size_of_mem_preds hmem
    · exact h.lt c hc
  -- the blocks passed through are all different, so there are not too many
  have hlen : (b :: trail).length ≤ B.graph.size := by
    have hsub : (b :: trail).toFinset ⊆ Finset.range B.graph.size := by
      intro c hc
      exact Finset.mem_range.mpr (hlt c (List.mem_toFinset.mp hc))
    have hcard := Finset.card_le_card hsub
    rwa [List.toFinset_card_of_nodup hnodup, Finset.card_range] at hcard
  refine ⟨h.ring, hnodup, hlt, fun c hc => ?_, ?_⟩
  · rcases List.mem_cons.mp hc with rfl | hc
    · exact .single hstep
    · exact (h.pass c hc).tail hstep
  · have hdepth := h.depth
    simp only [List.length_cons] at hlen ⊢
    omega

/-- The read has left a PHI, so there is one block less without a definition.  This makes room for
another trail. -/
theorem merge (h : Room s B x (depth + 1) trail b) (hs' : Steady s B s' B')
    (hless : undefinedBlocks s' B' x < undefinedBlocks s B x) : Room s' B' x depth [] q := by
  refine ⟨h.ring.steady hs', List.nodup_nil, by simp, by simp, ?_⟩
  have hmul : (undefinedBlocks s' B' x + 1) * (B.graph.size + 1) ≤
      undefinedBlocks s B x * (B.graph.size + 1) :=
    Nat.mul_le_mul_right _ hless
  have hdepth := h.depth
  rw [hs'.frame.size, List.length_nil]
  rw [Nat.add_mul] at hmul
  omega

end Room

/-! ## Reads are answered -/

theorem exists_mem_preds_of_mem_mergedBlocks (hq : q ∈ mergedBlocks B p) : ∃ c, q ∈ B.preds c := by
  unfold mergedBlocks at hq
  split at hq
  · next i _ => exact ⟨i.block, hq⟩
  · cases hq

theorem Coded.newPhi (h : Coded s B) (b : Nat) :
    Ends (Builder.newPhi b) s
      (fun p s' => Builder.newPhi b s = .ok p s' ∧ b < B.graph.size ∧
        ∃ B', Follows s B s' B' ∧ mergedBlocks B' p = B.preds b)
      (fun e s' => (∃ B', Follows s B s' B') ∧ Lacks B b e) := by
  obtain ⟨fn, hfn, rfl⟩ := h.exists_opened
  by_cases hb : b < fn.body.graph.size
  · obtain ⟨B', hB'⟩ : ∃ B',
        fn.body.insertPhi { op := .phi, id := s.nextId, block := b } = .ok B' :=
      ⟨_, if_pos hb⟩
    have hrun : Builder.newPhi b s = .ok s.nextId _ :=
      newPhi_eq_ok.mpr ⟨rfl, fn, B', hfn, hB', rfl⟩
    obtain ⟨hindexed, hbound⟩ := h.insertPhi hB'
    obtain ⟨_, hframe, _, _⟩ := Body.insertPhi_ok hB'
    refine .of_ok hrun ⟨hrun, hb, B', ⟨⟨rfl, hindexed, hbound⟩, ?_,
      fun hq => hq.mono rfl hframe.size.ge⟩, ?_⟩
    · exact ⟨Nat.le_succ _, rfl, rfl, rfl, rfl, by simp [hfn], hframe, fun _ a ha => ⟨a, ha⟩⟩
    · have hinst : B'.inst? s.nextId = some { op := .phi, id := s.nextId, block := b } :=
        hindexed.inst?_eq_some_iff.mpr
          ⟨b, (Body.mem_code_insertPhi hB').mpr (Or.inl ⟨rfl, rfl⟩), rfl⟩
      simp only [mergedBlocks, hinst]
      exact hframe.preds b
  · have hfail : fn.body.insertPhi { op := .phi, id := s.nextId, block := b } =
        .error (.blockNotFound b) := if_neg hb
    refine Ends.bind (Q := fun i t => i = s.nextId ∧ t = { s with nextId := s.nextId + 1 })
      (.of_ok rfl ⟨rfl, rfl⟩) ?_
    rintro _ _ ⟨rfl, rfl⟩
    refine Ends.bind (Q := fun _ _ => False) (.of_error (changeBody_eq_error hfn ?_)
      ⟨⟨fn.body, h.draw⟩, b, rfl, not_lt.mp hb, Or.inl rfl⟩) fun _ _ hfalse => hfalse.elim
    simp only [hfail]
    rfl

section Watched

variable {W : Type} [Preorder W] {X : Watch W} {o : Options} {w : W}

/-- The value that is read is one that the property allows. -/
def Watch.Answered (X : Watch W) (w : W) (s : Builder) (B : Body) (v : Value) (s' : Builder) :
    Prop :=
  ∃ B' w', Follows s B s' B' ∧ w ≤ w' ∧ X.holds w' s' ∧ X.value w' v

/-- A PHI gets an operand for every predecessor of its block. -/
theorem Watch.KeptByReads.completePhi (hX : X.KeptByReads o) {read : Nat → Build Value}
    {E : Error → Builder → Prop} (h : Coded s B) (hw : X.holds w s)
    (hread : ∀ {t C w'}, Follows s B t C → w ≤ w' → X.holds w' t → ∀ q ∈ mergedBlocks B p,
      Ends (read q) t (X.Answered w' t C) E) :
    Ends (Builder.completePhi o read p) s (fun v s' => ∃ B' w', Follows s B s' B' ∧ w ≤ w' ∧
      X.holds w' s' ∧ (X.value w (.result p) → X.value w' v)) E := by
  have hloop := Ends.forM (f := fillRound read p)
    (I := fun l u => (∀ q ∈ l, q ∈ mergedBlocks B p) ∧
      ∃ D w', Follows s B u D ∧ w ≤ w' ∧ X.holds w' u)
    (E := E) ?_ (mergedBlocks B p) s ⟨fun _ hq => hq, B, w, h.refl, le_rfl, hw⟩
  · refine h.getBody_bind (hloop.bind ?_)
    rintro _ t ⟨_, D, w', hD, hww', hwt⟩
    split
    · next ho =>
      obtain ⟨v, s', B', hrun, hB', hws', hv⟩ := hX.removeTrivialPhi ho p hD.coded hwt
      exact .of_ok hrun ⟨B', w', hD.trans hB', hww', hws', fun hp => hv (X.mono hww' hp)⟩
    · exact .pure ⟨D, w', hD, hww', hwt, X.mono hww'⟩
  · rintro q l u ⟨hl, D, w', hD, hww', hwu⟩
    refine (hread hD hww' hwu q (hl q (List.mem_cons_self ..))).bind ?_
    rintro v t ⟨C, w'', hC, hww'', hwt, hv⟩
    obtain ⟨u', hrun, hu'⟩ := hC.coded.addOperand p v
    exact .of_ok hrun ⟨fun r hr => hl r (List.mem_cons_of_mem _ hr), _, w'',
      (hD.trans hC).trans hu', hww'.trans hww'', hX.operand hC.coded hwt hv hrun⟩

/-- **A read that has room is answered.** -/
theorem Watch.KeptByReads.readFrom (hX : X.KeptByReads o) (x depth : Nat) :
    ∀ {s : Builder} {B : Body} {w : W} {b : Nat} (trail : List Nat), Coded s B → X.holds w s →
      Ends (Builder.readFrom o x depth b) s (X.Answered w s B)
        (Fails (Room s B x depth trail b) s B b) := by
  induction depth with
  | zero =>
    intro s B w b trail h _
    exact .of_error rfl ⟨⟨B, h.refl⟩, fun hroom => absurd hroom.depth (Nat.not_lt_zero _)⟩
  | succ depth ih =>
    intro s B w b trail h hw
    refine Ends.get_bind ?_
    cases hdefs : s.defs.get? (x, b) with
    | some v => exact .pure ⟨B, w, h.refl, le_rfl, hw, hX.known hw hdefs⟩
    | none =>
      -- whatever is found is remembered in the end
      have hremember : ∀ {v t}, X.Answered w s B v t →
          Ends (do writeVariable x b v; return v) t (X.Answered w s B)
            (Fails (Room s B x (depth + 1) trail b) s B b) := by
        rintro v t ⟨C, w', hC, hww', hwt, hv⟩
        exact .of_ok rfl ⟨C, w', hC.remember, hww', hX.remember (x, b) hwt hv, hv⟩
      have hnewPhi := (h.newPhi b).imp (fun _ _ hQ => hQ) fun e s' he =>
        (⟨he.1, fun _ => he.2⟩ : Fails (Room s B x (depth + 1) trail b) s B b e s')
      dsimp only
      cases hsealed : s.isSealed b with
      | false =>
        -- edges may still come, so a PHI waits for the block to be sealed
        simp only [Bool.false_eq_true, if_false]
        refine hnewPhi.bind ?_
        rintro p t ⟨hnew, hb, C, hC, _⟩
        obtain ⟨w', hww', hwt, hp⟩ := hX.newPhi h hw hnew
        refine Ends.bind (Q := fun _ => X.Answered w s B (.result p)) (.of_ok rfl ?_)
          fun _ _ ht => Ends.bind (.pure ht) fun _ _ => hremember
        have hb' : b < C.graph.size := hC.steady.frame.size ▸ hb
        exact ⟨C, w', hC.trans (hC.coded.addPending hb'), hww', hX.pending _ hwt, hp⟩
      | true =>
        simp only [if_true]
        refine h.getBody_bind ?_
        match hpreds : B.graph.predecessors b with
        | [] =>
          exact Ends.bind (.pure ⟨B, w, h.refl, le_rfl, hw, hX.outside x hw⟩) fun _ _ => hremember
        | [q] =>
          -- nothing is remembered on the way, and only the trail gets longer
          have hmem : q ∈ B.preds b := by simp [Body.preds, hpreds]
          have hthrough : Room s B x (depth + 1) trail b → Room s B x depth (b :: trail) q :=
            fun hroom => hroom.through ⟨hsealed, hpreds⟩
          exact ((ih _ h hw).imp (fun _ _ ha => ha) fun _ _ =>
            h.refl.fails ⟨b, hmem⟩ hthrough).bind fun _ _ => hremember
        | q₁ :: q₂ :: rest =>
          -- the PHI is the definition in this block before its operands are read, so reads that
          -- come around to the block end here
          refine hnewPhi.bind ?_
          rintro p t ⟨hnew, hb, C, hC, hmerged⟩
          obtain ⟨w₁, hww₁, hwt, hp⟩ := hX.newPhi h hw hnew
          have ht := hC.remember (x := x) (b := b) (v := .result p)
          have hdef : (t.defs.insert (x, b) (.result p)).get? (x, b) = some (.result p) := by
            rw [OrderedMap.get?_insert, if_pos rfl]
          have hless := ht.steady.undefinedBlocks_lt hb hdefs hdef
          refine Ends.bind (Q := fun _ u => u = { t with defs := t.defs.insert (x, b) (.result p) })
            (.of_ok rfl rfl) ?_
          rintro _ _ rfl
          refine (hX.completePhi ht.coded (hX.remember (x, b) hwt hp) ?_).bind ?_
          · intro u D w₂ hD _ hwu q hq
            have hboth := ht.trans hD
            have hmerge : Room s B x (depth + 1) trail b → Room u D x depth [] q := fun hroom =>
              hroom.merge hboth.steady (lt_of_le_of_lt hD.steady.undefinedBlocks_le hless)
            exact (ih _ hD.coded hwu).imp (fun _ _ ha => ha) fun _ _ =>
              hboth.fails ⟨b, hmerged ▸ hq⟩ hmerge
          · rintro v u ⟨D, w₂, hD, hww₂, hwu, hv⟩
            exact hremember ⟨D, w₂, ht.trans hD, hww₁.trans hww₂, hwu, hv hp⟩

/-- **Reads are answered**, unless there is a ring or a block does not exist. -/
theorem Watch.KeptByReads.readVariable (hX : X.KeptByReads o) (h : Coded s B) (hw : X.holds w s)
    (x b : Nat) :
    Ends (Builder.readVariable o x b) s (X.Answered w s B) (Fails (NoRing s B) s B b) := by
  refine Ends.get_bind ((hX.readFrom x s.readDepth [] h hw).imp (fun _ _ ha => ha) ?_)
  exact fun e s' he => ⟨he.1, fun hring => he.2 (.initial h hring)⟩

/-- What sealing a block leads to. -/
structure Seals (b : Nat) (s : Builder) (B : Body) (s' : Builder) (B' : Body) : Prop where
  coded : Coded s' B'
  queued : s.Queued B → s'.Queued B'
  current : s'.current = s.current
  frame : B.SameFrame B'
  isSealed : ∀ c, s'.isSealed c = true ↔ s.isSealed c = true ∨ c = b

/-- **Blocks are sealed**, unless there is a ring or an edge comes from a block that does not
exist. -/
theorem Watch.KeptByReads.sealBlock (hX : X.KeptByReads o) (h : Coded s B) (hw : X.holds w s)
    (b : Nat) :
    Ends (Builder.sealBlock o b) s
      (fun _ s' => ∃ B' w', Seals b s B s' B' ∧ w ≤ w' ∧ X.holds w' s')
      fun e s' => (∃ B', Follows s B s' B') ∧
        (NoRing s B → ∃ k, e = .blockNotFound k ∧ B.graph.size ≤ k ∧ ∃ c, k ∈ B.preds c) := by
  refine Ends.get_bind ?_
  cases hsealed : s.isSealed b with
  | true =>
    rw [if_pos rfl]
    refine .pure ⟨B, w, ⟨h, id, rfl, .refl, fun c => ?_⟩, le_rfl, hw⟩
    constructor
    · exact Or.inl
    · rintro (hc | rfl)
      · exact hc
      · exact hsealed
  | false =>
    rw [if_neg Bool.false_ne_true]
    -- the PHIs have been taken from the waiting ones
    let s₀ : Builder := { s with pending := s.pending.erase b }
    have h₀ : Follows s B s₀ B :=
      ⟨⟨h.body, h.indexed, h.bound⟩,
        ⟨le_rfl, rfl, rfl, rfl, rfl, rfl, .refl, fun _ a ha => ⟨a, ha⟩⟩, Queued.erase⟩
    refine Ends.bind (Q := fun _ t => s₀ = t) (.of_ok rfl rfl) ?_
    rintro _ _ rfl
    refine Ends.bind (Ends.forM (I := fun _ u => ∃ D w', Follows s B u D ∧ w ≤ w' ∧ X.holds w' u)
      ?_ _ s₀ ⟨B, w, h₀, le_rfl, hX.pending _ hw⟩) ?_
    · rintro ⟨x, p⟩ l u ⟨D, w', hD, hww', hwu⟩
      refine (hX.completePhi hD.coded hwu ?_).bind ?_
      · intro t C w'' hC _ hwt q hq
        have hboth := hD.trans hC
        refine (hX.readVariable hC.coded hwt x q).imp (fun _ _ ha => ha) fun e t' he => ?_
        have hmem : ∃ c, q ∈ B.preds c := by
          obtain ⟨c, hc⟩ := exists_mem_preds_of_mem_mergedBlocks hq
          exact ⟨c, hD.steady.preds ▸ hc⟩
        obtain ⟨hB', he⟩ := hboth.fails (b := q) hmem (NoRing.steady · hboth.steady) he
        refine ⟨hB', fun hring => ?_⟩
        obtain ⟨k, hk, hsize, rfl | hpred⟩ := he hring
        · exact ⟨k, hk, hsize, hmem⟩
        · exact ⟨k, hk, hsize, hpred⟩
      · rintro _ t ⟨C, w'', hC, hww'', hwt, _⟩
        exact .pure ⟨C, w'', hD.trans hC, hww'.trans hww'', hwt⟩
    · rintro _ t ⟨C, w', hC, hww', hwt⟩
      refine .of_ok rfl ⟨C, w', ⟨⟨hC.coded.body, hC.coded.indexed, hC.coded.bound⟩, hC.queued,
        hC.steady.current, hC.steady.frame, fun c => ?_⟩, hww', hX.sealing _ hwt⟩
      simp [Builder.isSealed, hC.steady.sealedBlocks]

end Watched

/-! ## Sound states -/

variable {L : Ledger} {busy : Nat → Option Progress}

theorem Sound.coded (h : Sound L busy s B) : Coded s B := ⟨h.body?_eq, h.indexed, h.bound⟩

/-- **Reads are answered in a sound state.** -/
theorem Sound.readVariable_total (o : Options) (h : Sound L busy s B) (hring : NoRing s B)
    (hb : b < B.graph.size) : ∃ v s', Builder.readVariable o x b s = .ok v s' := by
  have hends := (Watch.nothing_keptByReads Unit o).readVariable (w := ()) h.coded trivial x b
  cases hrun : Builder.readVariable o x b s with
  | ok v s' => exact ⟨v, s', rfl⟩
  | error e s' =>
    obtain ⟨k, _, hk, rfl | ⟨c, hc⟩⟩ := (hends.error hrun).2 hring
    · exact absurd hb (not_lt.mpr hk)
    · exact absurd (h.preds_lt c k hc) (not_lt.mpr hk)

/-- **Blocks are sealed in a sound state.** -/
theorem Sound.sealBlock_total (o : Options) (h : Sound L busy s B) (hring : NoRing s B) (b : Nat) :
    ∃ s', Builder.sealBlock o b s = .ok () s' := by
  have hends := (Watch.nothing_keptByReads Unit o).sealBlock (w := ()) h.coded trivial b
  cases hrun : Builder.sealBlock o b s with
  | ok _ s' => exact ⟨s', rfl⟩
  | error e s' =>
    obtain ⟨k, _, hk, c, hc⟩ := (hends.error hrun).2 hring
    exact absurd (h.preds_lt c k hc) (not_lt.mpr hk)

end Builder

end Compiler16.Ssa
