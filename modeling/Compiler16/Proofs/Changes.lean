import Compiler16.Proofs.Cascades

/-!
# What reads change

A read changes the state in small steps: it draws a number, brings in a PHI, makes one wait, notes a
definition, gives a PHI an operand, or lets one give way to the value that it merges.  Whatever is
kept by each of these changes is kept by reads and by the sealing of blocks, whether they succeed or
fail half-way.

What reads do *not* change is as important.  A read has no business with the PHIs that were there
before it, be they under way or waiting, apart from those it is to complete, and it defines nothing
that was defined.  So changes come with the instructions `K` that they may touch and the definitions
`D` that they may make: for a read of a variable these are the instructions with new numbers, and
the blocks in which the variable has no definition yet.

Where PHIs that wait may have been removed by hand, they may get operands when they are no PHIs any
more.  Only if the state is `wild` in this sense do changes say less.

## Main definitions

* `Change`, `Changes`: one change, and changes one after the other
* `Alters`: what a change does to instructions
* `Guarded`: PHIs wait in open blocks where their variables have definitions
* `Aside`: nothing uses the PHIs that wait

## Main results

* `Change.alters`, `Change.follows`: what one change does
* `Changes.guarded`, `Changes.aside`, `Changes.notedAmong`: what changes keep
* `Changes.isPhi_of_not`, `Changes.not_mem_users`: what they leave alone
-/

namespace Compiler16.Ssa

open Compiler16.Flow

namespace Builder

variable {wild wild' : Prop} {K K' : Nat → Prop} {D D' : Nat × Nat → Prop} {s s' t u : Builder}
  {B C : Body} {i j : Inst} {x b p q : Nat} {v : Value}

/-- The instruction does not wait in any block. -/
def Idle (s : Builder) (p : Nat) : Prop := ∀ x b, ¬ s.Waits x b p

/-- One change of a state. -/
inductive Change (wild : Prop) (K : Nat → Prop) (D : Nat × Nat → Prop) (s : Builder) :
    Builder → Prop where
  /-- A number is drawn. -/
  | draw : Change wild K D s { s with nextId := s.nextId + 1 }
  /-- A PHI comes in. -/
  | phi {b p : Nat} {t : Builder} (hnew : newPhi b s = .ok p t) : Change wild K D s t
  /-- A PHI comes in that waits, and is the definition of its variable. -/
  | wait {x b p : Nat} {t : Builder} (hD : D (x, b)) (hopen : s.isSealed b = false)
      (hdefs : s.defs.get? (x, b) = none) (hnew : newPhi b s = .ok p t) :
      Change wild K D s { t with
        pending := t.pending.insert b (insertPending x p ((t.pending.get? b).getD []))
        defs := t.defs.insert (x, b) (.result p) }
  /-- A definition is made. -/
  | define {k : Nat × Nat} {v : Value} (hD : D k) (hv : wild ∨ v.Below s.nextId) :
      Change wild K D s { s with defs := s.defs.insert k v }
  /-- A PHI gets an operand. -/
  | operand {p : Nat} {v : Value} {t : Builder} (hK : K p)
      (hp : wild ∨ s.isPhi p = true ∧ s.Idle p ∧ v.Below s.nextId)
      (hrun : changeBody (fun body => .ok ((), (body.addOperand p v).2)) s = .ok () t) :
      Change wild K D s t
  /-- A PHI gives way to the value that it merges. -/
  | givesWay {i : Inst} {v : Value} {B : Body} {t : Builder} (hK : K i.id)
      (hp : wild ∨ s.Idle i.id) (hgives : GivesWay i v s B t) : Change wild K D s t

/-- Changes one after the other. -/
def Changes (wild : Prop) (K : Nat → Prop) (D : Nat × Nat → Prop) : Builder → Builder → Prop :=
  Relation.ReflTransGen (Change wild K D)

theorem Change.mono (h : Change wild K D s t) (hw : wild → wild') (hK : ∀ q, K q → K' q)
    (hD : ∀ k, D k → D' k) : Change wild' K' D' s t := by
  cases h with
  | draw => exact .draw
  | phi hnew => exact .phi hnew
  | wait hDk hopen hdefs hnew => exact .wait (hD _ hDk) hopen hdefs hnew
  | define hDk hv => exact .define (hD _ hDk) (hv.imp_left hw)
  | operand hKp hp hrun => exact .operand (hK _ hKp) (hp.imp_left hw) hrun
  | givesWay hKp hp hgives => exact .givesWay (hK _ hKp) (hp.imp_left hw) hgives

theorem Changes.mono (h : Changes wild K D s t) (hw : wild → wild') (hK : ∀ q, K q → K' q)
    (hD : ∀ k, D k → D' k) : Changes wild' K' D' s t :=
  Relation.ReflTransGen.mono (fun _ _ hstep => hstep.mono hw hK hD) s t h

/-! ## One change -/

theorem GivesWay.follows (h : GivesWay i v s B t) : Follows s B t (B.forwardPhi i v) := by
  obtain ⟨_, _, _, C, hrun, hC, _⟩ := h.before.collapse i.id
  cases h.collapse.symm.trans hrun
  exact h.after.body_unique hC.coded ▸ hC

theorem GivesWay.pending (h : GivesWay i v s B t) : t.pending = s.pending := by
  obtain ⟨_, _, rfl⟩ := h.state
  rfl

theorem newPhi_follows (h : Coded s B) (hnew : newPhi b s = .ok p t) :
    b < B.graph.size ∧ ∃ C, Follows s B t C := by
  obtain ⟨_, hb, C, hC, _⟩ := (h.newPhi b).ok hnew
  exact ⟨hb, C, hC⟩

theorem Coded.lt_of_isPhi (h : Coded s B) (hp : s.isPhi p = true) : p < s.nextId := by
  obtain ⟨b, i, hi, rfl, _⟩ := h.isPhi_iff.mp hp
  exact h.bound b i hi

theorem isPhi_newPhi (h : Coded s B) (hnew : newPhi b s = .ok p t) : t.isPhi p = true := by
  obtain ⟨_, C, hC⟩ := newPhi_follows h hnew
  obtain ⟨rfl, fn, B', _, hins, rfl⟩ := newPhi_eq_ok.mp hnew
  obtain rfl : B' = C := Option.some.inj hC.coded.body
  have hmem := (Body.mem_code_insertPhi hins).mpr (Or.inl ⟨rfl, rfl⟩)
  exact hC.coded.isPhi_iff.mpr ⟨b, _, hmem, rfl, rfl⟩

/-- A PHI that cannot come in costs a number. -/
theorem Coded.newPhi_ends (h : Coded s B) (b : Nat) :
    Ends (Builder.newPhi b) s (fun p t => Builder.newPhi b s = .ok p t)
      fun _ t => t = { s with nextId := s.nextId + 1 } := by
  obtain ⟨fn, hfn, rfl⟩ := h.exists_opened
  cases hins : fn.body.insertPhi { op := .phi, id := s.nextId, block := b } with
  | ok B' =>
    have hrun := newPhi_eq_ok.mpr ⟨rfl, fn, B', hfn, hins, rfl⟩
    exact .of_ok hrun hrun
  | error e =>
    refine Ends.bind (Q := fun i t => i = s.nextId ∧ t = { s with nextId := s.nextId + 1 })
      (.of_ok rfl ⟨rfl, rfl⟩) ?_
    rintro _ _ ⟨rfl, rfl⟩
    refine Ends.bind (Q := fun _ _ => False) (.of_error (changeBody_eq_error (e := e) hfn ?_) rfl)
      fun _ _ => False.elim
    simp only [hins]
    rfl

/-- A change is one that reads and removals may make. -/
theorem Change.follows (h : Change wild K D s t) (hs : Coded s B) : ∃ C, Follows s B t C := by
  cases h with
  | draw => exact ⟨B, hs.draw⟩
  | phi hnew => exact (newPhi_follows hs hnew).2
  | wait _ _ _ hnew =>
    obtain ⟨hb, C, hC⟩ := newPhi_follows hs hnew
    have hb' := hC.steady.frame.size ▸ hb
    exact ⟨C, (hC.trans (hC.coded.addPending hb')).remember⟩
  | define => exact ⟨B, hs.remember⟩
  | @operand p v t _ _ hrun =>
    obtain ⟨s', hrun', hs'⟩ := hs.addOperand p v
    cases hrun'.symm.trans hrun
    exact ⟨_, hs'⟩
  | givesWay _ _ hgives => exact ⟨_, hgives.before.body_unique hs ▸ hgives.follows⟩

/-- What a change does to instructions: `f` says what becomes of those that are there, and at most
one PHI comes in. -/
structure Alters (wild : Prop) (K : Nat → Prop) (s : Builder) (B C : Body) (f : Inst → Inst) :
    Prop where
  mem : ∀ c, ∀ j ∈ C.code c, (j.id = s.nextId ∧ j.op = .phi ∧ j.operands = [] ∧ j.users = []) ∨
    ∃ i ∈ B.code c, f i = j
  image : ∀ c, ∀ i ∈ B.code c, f i ∈ C.code c
  id : ∀ c, ∀ i ∈ B.code c, (f i).id = i.id
  op : ∀ c, ∀ i ∈ B.code c, (f i).op = i.op ∨
    K i.id ∧ (wild ∨ s.Idle i.id) ∧ i.op = .phi ∧ (f i).op = .mov
  operands : ∀ c, ∀ i ∈ B.code c, ∀ o ∈ (f i).operands, o ∈ i.operands ∨ wild ∨
    o.Below s.nextId ∨ ∃ d, ∃ l ∈ B.code d, l.op = .phi ∧ o ∈ l.operands
  users : ∀ c, ∀ i ∈ B.code c, ∀ u ∈ (f i).users, u ∈ i.users ∨
    (K u ∧ u < s.nextId ∧ (wild ∨ s.Idle u)) ∨
    ∃ d, ∃ l ∈ B.code d, l.op = .phi ∧ K l.id ∧ u ∈ l.users

namespace Alters

theorem refl : Alters wild K s B B fun i => i where
  mem _ j hj := Or.inr ⟨j, hj, rfl⟩
  image _ _ hi := hi
  id _ _ _ := rfl
  op _ _ _ := Or.inl rfl
  operands _ _ _ _ ho := Or.inl ho
  users _ _ _ _ hu := Or.inl hu

theorem insertPhi (hins : B.insertPhi { op := .phi, id := s.nextId, block := b } = .ok C) :
    Alters wild K s B C fun i => i where
  mem c j hj := by
    rcases (Body.mem_code_insertPhi hins).mp hj with ⟨_, rfl⟩ | hj
    · exact Or.inl ⟨rfl, rfl, rfl, rfl⟩
    · exact Or.inr ⟨j, hj, rfl⟩
  image c i hi := (Body.mem_code_insertPhi hins).mpr (Or.inr hi)
  id _ _ _ := rfl
  op _ _ _ := Or.inl rfl
  operands _ _ _ _ ho := Or.inl ho
  users _ _ _ _ hu := Or.inl hu

theorem addOperand (h : Coded s B) (hK : K p) (hp : wild ∨ s.Idle p ∧ v.Below s.nextId) :
    ∃ f, Alters wild K s B (B.addOperand p v).2 f := by
  cases hinst : B.inst? p with
  | none =>
    have hnone : (B.addOperand p v).2 = B := by simp [Body.addOperand, hinst]
    rw [hnone]
    exact ⟨_, .refl⟩
  | some k =>
    obtain ⟨d, hk, hkp⟩ := h.indexed.inst?_eq_some_iff.mp hinst
    obtain ⟨f, hf, hmap⟩ := h.indexed.addOperand_eq hk hkp v
    rw [hmap]
    refine ⟨f, ⟨fun c j hj => ?_, fun c i hi => ?_, fun c i _ => (hf i).1,
      fun c i _ => Or.inl (hf i).2.2.1, fun c i _ o ho => ?_, fun c i _ u hu => ?_⟩⟩
    · rw [Body.code_mapInsts] at hj
      exact Or.inr (List.mem_map.mp hj)
    · rw [Body.code_mapInsts]
      exact List.mem_map_of_mem hi
    · obtain ⟨_, _, _, _, _, hoperands, _⟩ := hf i
      rw [hoperands] at ho
      split at ho
      · rcases List.mem_append.mp ho with ho | ho
        · exact Or.inl ho
        · rw [List.mem_singleton.mp ho]
          exact Or.inr (hp.imp_right fun hp => Or.inl hp.2)
      · exact Or.inl ho
    · rcases (hf i).2.2.2.2.2.2 u hu with hu | rfl
      · exact Or.inl hu
      · exact Or.inr (Or.inl ⟨hK, hkp ▸ h.bound d k hk, hp.imp_right And.left⟩)

theorem forwardPhi (h : GivesWay i v s B t) (hK : K i.id) (hp : wild ∨ s.Idle i.id) :
    ∃ f, Alters wild K s B (B.forwardPhi i v) f := by
  obtain ⟨b, hi⟩ := h.mem
  obtain ⟨f, hmap, _, hf⟩ := h.before.indexed.forwardPhi_map hi v
  have hself : ∀ {c k}, k ∈ B.code c → k.id = i.id → k = i :=
    fun hk hki => h.before.indexed.eq_of_id_eq hk hi hki
  rw [hmap]
  refine ⟨f, ⟨fun c j hj => ?_, fun c k hk => ?_, fun c k hk => ?_, fun c k hk => ?_,
    fun c k hk o ho => ?_, fun c k hk u hu => ?_⟩⟩
  · rw [Body.code_mapInsts] at hj
    exact Or.inr (List.mem_map.mp hj)
  · rw [Body.code_mapInsts]
    exact List.mem_map_of_mem hk
  · rw [(hf k).id]
    split
    · next hki => exact hki.symm
    · rfl
  · rw [(hf k).op]
    split
    · next hki =>
      obtain rfl := hself hk hki
      exact Or.inr ⟨hK, hp, h.phi, rfl⟩
    · exact Or.inl rfl
  · -- every operand is one that was there, or the value
    have hvalue : v ∈ k.operands ∨ wild ∨ v.Below s.nextId ∨
        ∃ d, ∃ l ∈ B.code d, l.op = .phi ∧ v ∈ l.operands := by
      rcases Inst.mem_of_mergedValue? h.merged with rfl | ⟨hmem, _⟩
      · exact Or.inr (Or.inr (Or.inl fun _ hv => by cases hv))
      · exact Or.inr (Or.inr (Or.inr ⟨b, i, hi, h.phi, hmem⟩))
    rw [(hf k).operands, List.mem_map] at ho
    obtain ⟨w, hw, rfl⟩ := ho
    by_cases hki : k.id = i.id
    · rw [if_pos hki] at hw ⊢
      obtain rfl := List.mem_singleton.mp hw
      rwa [ite_self]
    · rw [if_neg hki] at hw ⊢
      split
      · exact hvalue
      · exact Or.inl hw
  · rcases ((hf k).users u).mp hu with hu | ⟨_, hu⟩
    · split at hu
      · next hki =>
        obtain rfl := hself hk hki
        exact Or.inl (List.mem_filter.mp hu).1
      · exact Or.inl hu
    · rcases List.mem_cons.mp hu with rfl | hu
      · exact Or.inr (Or.inl ⟨hK, h.before.bound b i hi, hp⟩)
      · exact Or.inr (Or.inr ⟨b, i, hi, h.phi, hK, (List.mem_filter.mp hu).1⟩)

end Alters

/-- The body after a PHI has come in. -/
theorem alters_newPhi (hs : Coded s B) (hnew : newPhi b s = .ok p t) (hC : t.body? = some C) :
    Alters wild K s B C fun i => i := by
  obtain ⟨_, fn, B', hfn, hins, rfl⟩ := newPhi_eq_ok.mp hnew
  obtain rfl := hs.body_eq hfn
  obtain rfl : B' = C := Option.some.inj hC
  exact .insertPhi hins

theorem Change.alters (h : Change wild K D s t) (hs : Coded s B) (ht : Coded t C) :
    ∃ f, Alters wild K s B C f := by
  have hsame : t.body? = s.body? → ∃ f, Alters wild K s B C f := by
    intro hbody
    obtain rfl := Option.some.inj (hs.body.symm.trans (hbody.symm.trans ht.body))
    exact ⟨_, .refl⟩
  cases h with
  | draw => exact hsame rfl
  | phi hnew => exact ⟨_, alters_newPhi hs hnew ht.body⟩
  | wait _ _ _ hnew => exact ⟨_, alters_newPhi hs hnew ht.body⟩
  | define => exact hsame rfl
  | @operand p v _ hK hp hrun =>
    obtain ⟨s', hrun', hs'⟩ := hs.addOperand p v
    cases hrun'.symm.trans hrun
    rw [← hs'.coded.body_unique ht]
    exact Alters.addOperand hs hK (hp.imp_right And.right)
  | givesWay hK hp hgives =>
    obtain rfl := hgives.before.body_unique hs
    rw [← hgives.after.body_unique ht]
    exact Alters.forwardPhi hgives hK hp

/-- A change makes no PHI wait, or one that it brings in. -/
theorem Change.pending_cases (h : Change wild K D s t) (hs : Coded s B) :
    t.pending = s.pending ∨ ∃ x b, D (x, b) ∧ s.isSealed b = false ∧ s.defs.get? (x, b) = none ∧
      t.pending = s.pending.insert b (insertPending x s.nextId ((s.pending.get? b).getD [])) ∧
      t.defs.get? (x, b) = some (.result s.nextId) ∧ t.isPhi s.nextId = true ∧
      s.nextId < t.nextId := by
  cases h with
  | draw => exact Or.inl rfl
  | phi hnew =>
    obtain ⟨_, fn, B', _, _, rfl⟩ := newPhi_eq_ok.mp hnew
    exact Or.inl rfl
  | @wait x b p t₁ hD hopen hdefs hnew =>
    have hphi := isPhi_newPhi hs hnew
    obtain ⟨rfl, fn, B', _, _, rfl⟩ := newPhi_eq_ok.mp hnew
    refine Or.inr ⟨x, b, hD, hopen, hdefs, rfl, ?_, hphi, Nat.lt_succ_self _⟩
    exact (OrderedMap.get?_insert ..).trans (if_pos rfl)
  | define => exact Or.inl rfl
  | operand _ _ hrun =>
    obtain ⟨fn, _, _, _, rfl⟩ := changeBody_eq_ok.mp hrun
    exact Or.inl rfl
  | givesWay _ _ hgives => exact Or.inl hgives.pending

theorem mem_insertPending {l : List (Nat × Nat)} {e : Nat × Nat} (he : e ∈ insertPending x p l) :
    e = (x, p) ∨ e ∈ l := by
  induction l with
  | nil => exact Or.inl (List.mem_singleton.mp he)
  | cons d l ih =>
    unfold insertPending at he
    split at he
    · exact List.mem_cons.mp he
    · split at he
      · exact (List.mem_cons.mp he).imp_right (List.mem_cons_of_mem _)
      · rcases List.mem_cons.mp he with rfl | he
        · exact Or.inr List.mem_cons_self
        · exact (ih he).imp_right (List.mem_cons_of_mem _)

theorem waits_of_pending (h : t.pending = s.pending) : t.Waits x b p ↔ s.Waits x b p := by
  rw [Waits, Waits, h]

/-- Where a PHI is made to wait, it is the only one that did not wait before. -/
theorem waits_of_insertPending {y c : Nat}
    (h : t.pending = s.pending.insert b (insertPending x p ((s.pending.get? b).getD [])))
    (hw : t.Waits y c q) : s.Waits y c q ∨ y = x ∧ c = b ∧ q = p := by
  obtain ⟨l, hl, hmem⟩ := hw
  rw [h, OrderedMap.get?_insert] at hl
  split at hl
  · next hbc =>
    cases hl
    rcases mem_insertPending hmem with heq | hmem
    · cases heq
      exact Or.inr ⟨rfl, hbc.symm, rfl⟩
    · exact Or.inl (hbc ▸ mem_waitingPhis.mp hmem)
  · exact Or.inl ⟨l, hl, hmem⟩

/-- What waits after a change waited before, or is new. -/
theorem Change.waits (h : Change wild K D s t) (hs : Coded s B) (hw : t.Waits x b p) :
    s.Waits x b p ∨ D (x, b) ∧ p = s.nextId := by
  rcases h.pending_cases hs with hpending | ⟨y, c, hD, _, _, hpending, _⟩
  · exact Or.inl ((waits_of_pending hpending).mp hw)
  · refine (waits_of_insertPending hpending hw).imp_right ?_
    rintro ⟨rfl, rfl, rfl⟩
    exact ⟨hD, rfl⟩

/-- A change brings in at most one PHI. -/
theorem Change.isPhi_of_isPhi (h : Change wild K D s t) (hs : Coded s B) (hq : t.isPhi q = true) :
    s.isPhi q = true ∨ q = s.nextId := by
  obtain ⟨C, hC⟩ := h.follows hs
  obtain ⟨f, hf⟩ := h.alters hs hC.coded
  obtain ⟨c, j, hj, rfl, hop⟩ := hC.coded.isPhi_iff.mp hq
  rcases hf.mem c j hj with ⟨hid, _⟩ | ⟨k, hk, rfl⟩
  · exact Or.inr hid
  · refine Or.inl (hs.isPhi_iff.mpr ⟨c, k, hk, (hf.id c k hk).symm, ?_⟩)
    rcases hf.op c k hk with hsame | ⟨_, _, hphi, _⟩
    · exact hsame.symm.trans hop
    · exact hphi

/-- A PHI that a change may not touch stays. -/
theorem Change.isPhi_of_not (h : Change wild K D s t) (hs : Coded s B)
    (hK : ¬ (K q ∧ (wild ∨ s.Idle q))) (hq : s.isPhi q = true) : t.isPhi q = true := by
  obtain ⟨C, hC⟩ := h.follows hs
  obtain ⟨f, hf⟩ := h.alters hs hC.coded
  obtain ⟨c, k, hk, rfl, hop⟩ := hs.isPhi_iff.mp hq
  refine hC.coded.isPhi_iff.mpr ⟨c, f k, hf.image c k hk, hf.id c k hk, ?_⟩
  rcases hf.op c k hk with hsame | ⟨hKk, hidle, _⟩
  · exact hsame.trans hop
  · exact absurd ⟨hKk, hidle⟩ hK

/-- The instructions `K` still are the only ones that use each other. -/
theorem Change.sticky (h : Change wild K D s t) (hs : Coded s B) (hK : Sticky K B)
    (hnew : K s.nextId) (ht : Coded t C) : Sticky K C := by
  obtain ⟨f, hf⟩ := h.alters hs ht
  intro b c k' hk' l' hl' hkop hKk hlop huser
  -- what becomes a PHI is new, and no PHI that was there before stops being the same one
  have hphi : ∀ {d j}, j ∈ B.code d → (f j).op = .phi → j.op = .phi := by
    intro d j hj hop
    rcases hf.op d j hj with hsame | ⟨_, _, _, hmov⟩
    · exact hsame.symm.trans hop
    · exact absurd (hmov.symm.trans hop) (by simp)
  rcases hf.mem c l' hl' with ⟨hid, _⟩ | ⟨l, hl, rfl⟩
  · exact hid ▸ hnew
  rcases hf.mem b k' hk' with ⟨_, _, _, husers⟩ | ⟨k, hk, rfl⟩
  · simp [husers] at huser
  rw [hf.id c l hl] at huser ⊢
  rw [hf.id b k hk] at hKk
  rcases hf.users b k hk l.id huser with hmem | ⟨hKl, _⟩ | ⟨d, m, hm, hmop, hKm, hmem⟩
  · exact hK b c k hk l hl (hphi hk hkop) hKk (hphi hl hlop) hmem
  · exact hKl
  · exact hK d c m hm l hl hmop hKm (hphi hl hlop) hmem

/-- What a change may not touch does not become a user. -/
theorem Change.not_mem_users (h : Change wild K D s t) (hs : Coded s B) (hK : ¬ K q)
    (hq : ∀ c, ∀ j ∈ B.code c, q ∉ j.users) (ht : Coded t C) :
    ∀ c, ∀ j ∈ C.code c, q ∉ j.users := by
  obtain ⟨f, hf⟩ := h.alters hs ht
  intro c j hj hu
  rcases hf.mem c j hj with ⟨_, _, _, husers⟩ | ⟨k, hk, rfl⟩
  · simp [husers] at hu
  · rcases hf.users c k hk q hu with hu | ⟨hKq, _⟩ | ⟨d, l, hl, _, _, hu⟩
    · exact hq c k hk hu
    · exact hK hKq
    · exact hq d l hl hu

/-! ## PHIs that wait -/

/-- PHIs wait in open blocks, and there the variable has a definition. -/
def Guarded (s : Builder) : Prop :=
  ∀ x b p, s.Waits x b p → s.isSealed b = false ∧ ∃ a, s.defs.get? (x, b) = some a

theorem Change.guarded (h : Change wild K D s t) (hs : Coded s B) (hg : s.Guarded) : t.Guarded := by
  intro x b p hw
  obtain ⟨C, hC⟩ := h.follows hs
  have hold : s.Waits x b p → t.isSealed b = false ∧ ∃ a, t.defs.get? (x, b) = some a := by
    intro hw
    obtain ⟨hopen, a, ha⟩ := hg x b p hw
    exact ⟨(hC.steady.isSealed b).trans hopen, hC.steady.defs _ a ha⟩
  rcases h.pending_cases hs with hpending | ⟨y, c, _, hopen, _, hpending, hdefs, _⟩
  · exact hold ((waits_of_pending hpending).mp hw)
  · rcases waits_of_insertPending hpending hw with hw | ⟨rfl, rfl, _⟩
    · exact hold hw
    · exact ⟨(hC.steady.isSealed _).trans hopen, _, hdefs⟩

/-- Nothing uses the PHIs that wait, and all values are results of instructions that are there. -/
structure Aside (s : Builder) (B : Body) : Prop where
  guarded : s.Guarded
  users_lt : ∀ c, ∀ j ∈ B.code c, ∀ u ∈ j.users, u < s.nextId
  waits_lt : ∀ x b p, s.Waits x b p → p < s.nextId
  waits_phi : ∀ x b p, s.Waits x b p → s.isPhi p = true
  waits_users : ∀ x b p, s.Waits x b p → ∀ c, ∀ j ∈ B.code c, p ∉ j.users
  waits_once : ∀ x b y c p, s.Waits x b p → s.Waits y c p → x = y ∧ b = c
  waits_nodup : ∀ b l, s.pending.get? b = some l → l.Nodup
  defs_below : ∀ k v, s.defs.get? k = some v → v.Below s.nextId
  globals_below : ∀ x v, s.globalDefs.get? x = some v → v.Below s.nextId
  operands_below : ∀ c, ∀ j ∈ B.code c, j.op = .phi → ∀ o ∈ j.operands, o.Below s.nextId

namespace Aside

/-- The value that a PHI gives way to. -/
theorem below_of_givesWay (h : Aside s B) (hgives : GivesWay i v s B t) : v.Below s.nextId := by
  rcases Inst.mem_of_mergedValue? hgives.merged with rfl | ⟨hmem, _⟩
  · exact fun _ hv => by cases hv
  · obtain ⟨b, hi⟩ := hgives.mem
    exact h.operands_below b i hi hgives.phi v hmem

theorem globalValue_below (h : Aside s B) (x : Nat) : (s.globalValue x).Below s.nextId := by
  unfold globalValue
  cases hglobal : s.globalDefs.get? x with
  | none => exact fun _ hv => by cases hv
  | some w => exact h.globals_below x w hglobal

theorem change_defs_below (h : Aside s B) (hs : Coded s B) (hstep : Change False K D s t)
    (hle : s.nextId ≤ t.nextId) (k : Nat × Nat) (w : Value) (hk : t.defs.get? k = some w) :
    w.Below t.nextId := by
  have hold : ∀ {w}, s.defs.get? k = some w → w.Below t.nextId :=
    fun hk => (h.defs_below k _ hk).mono hle
  cases hstep with
  | draw => exact hold hk
  | phi hnew =>
    obtain ⟨_, fn, B', _, _, rfl⟩ := newPhi_eq_ok.mp hnew
    exact hold hk
  | @wait x b p t₁ _ _ _ hnew =>
    obtain ⟨rfl, fn, B', _, _, rfl⟩ := newPhi_eq_ok.mp hnew
    rw [OrderedMap.get?_insert] at hk
    split at hk
    · cases hk
      intro i hi
      exact Value.result.inj hi ▸ Nat.lt_succ_self _
    · exact hold hk
  | define _ hv =>
    rw [OrderedMap.get?_insert] at hk
    split at hk
    · cases hk
      exact hv.resolve_left id
    · exact hold hk
  | operand _ _ hrun =>
    obtain ⟨fn, _, _, _, rfl⟩ := changeBody_eq_ok.mp hrun
    exact hold hk
  | @givesWay i _ _ _ _ _ hgives =>
    obtain rfl := hgives.before.body_unique hs
    rw [hgives.get?_defs, Option.map_eq_some_iff] at hk
    obtain ⟨a, ha, rfl⟩ := hk
    by_cases hai : a = .result i.id
    · rw [hai, Value.redirect_self]
      exact (h.below_of_givesWay hgives).mono hle
    · rw [Value.redirect_of_ne hai]
      exact hold ha

theorem change (h : Aside s B) (hs : Coded s B) (hstep : Change False K D s t) (ht : Coded t C) :
    Aside t C := by
  obtain ⟨C', hC⟩ := hstep.follows hs
  obtain rfl := hC.coded.body_unique ht
  obtain ⟨f, hf⟩ := hstep.alters hs ht
  have hle := hC.steady.nextId
  -- what waits waited before, or has a number that nothing had
  have hcases : ∀ {x b p}, t.Waits x b p → s.Waits x b p ∨
      p = s.nextId ∧ t.isPhi p = true ∧ s.nextId < t.nextId := by
    intro x b p hw
    rcases hstep.pending_cases hs with hpending | ⟨y, c, _, _, _, hpending, _, hphi, hlt⟩
    · exact Or.inl ((waits_of_pending hpending).mp hw)
    · refine (waits_of_insertPending hpending hw).imp_right ?_
      rintro ⟨_, _, rfl⟩
      exact ⟨rfl, hphi, hlt⟩
  refine ⟨hstep.guarded hs h.guarded, ?_, ?_, ?_, ?_, ?_, ?_,
    h.change_defs_below hs hstep hle, ?_, ?_⟩
  case refine_1 =>
    intro c j hj u hu
    rcases hf.mem c j hj with ⟨_, _, _, husers⟩ | ⟨k, hk, rfl⟩
    · simp [husers] at hu
    · refine lt_of_lt_of_le ?_ hle
      rcases hf.users c k hk u hu with hu | ⟨_, hlt, _⟩ | ⟨d, l, hl, _, _, hu⟩
      · exact h.users_lt c k hk u hu
      · exact hlt
      · exact h.users_lt d l hl u hu
  case refine_2 =>
    intro x b p hw
    rcases hcases hw with hw | ⟨rfl, _, hlt⟩
    · exact lt_of_lt_of_le (h.waits_lt x b p hw) hle
    · exact hlt
  case refine_3 =>
    -- a PHI that waits is not idle, so no change makes something else of it
    intro x b p hw
    rcases hcases hw with hw | ⟨_, hphi, _⟩
    · refine hstep.isPhi_of_not hs (fun hidle => ?_) (h.waits_phi x b p hw)
      exact hidle.2.resolve_left id x b hw
    · exact hphi
  case refine_4 =>
    -- users come from other PHIs or are PHIs that do not wait
    intro x b p hw c j hj hu
    rcases hf.mem c j hj with ⟨_, _, _, husers⟩ | ⟨k, hk, rfl⟩
    · simp [husers] at hu
    · rcases hcases hw with hw | ⟨rfl, _, _⟩
      · rcases hf.users c k hk p hu with hu | ⟨_, _, hidle⟩ | ⟨d, l, hl, _, _, hu⟩
        · exact h.waits_users x b p hw c k hk hu
        · exact hidle.resolve_left id x b hw
        · exact h.waits_users x b p hw d l hl hu
      · rcases hf.users c k hk _ hu with hu | ⟨_, hlt, _⟩ | ⟨d, l, hl, _, _, hu⟩
        · exact lt_irrefl _ (h.users_lt c k hk _ hu)
        · exact lt_irrefl _ hlt
        · exact lt_irrefl _ (h.users_lt d l hl _ hu)
  case refine_5 =>
    -- of two PHIs that wait with one number neither is new, or both are
    intro x b y c p hx hy
    rcases hstep.pending_cases hs with hpending | ⟨z, d, _, _, _, hpending, _⟩
    · rw [waits_of_pending hpending] at hx hy
      exact h.waits_once x b y c p hx hy
    · rcases waits_of_insertPending hpending hx with hx | ⟨rfl, rfl, rfl⟩
      · rcases waits_of_insertPending hpending hy with hy | ⟨_, _, rfl⟩
        · exact h.waits_once x b y c p hx hy
        · exact absurd (h.waits_lt x b _ hx) (lt_irrefl _)
      · rcases waits_of_insertPending hpending hy with hy | ⟨rfl, rfl, _⟩
        · exact absurd (h.waits_lt y c _ hy) (lt_irrefl _)
        · exact ⟨rfl, rfl⟩
  case refine_6 =>
    intro b l hl
    rcases hstep.pending_cases hs with hpending | ⟨x, c, _, _, hdefs, hpending, _⟩
    · exact h.waits_nodup b l (hpending ▸ hl)
    · rw [hpending, OrderedMap.get?_insert] at hl
      split at hl
      · next hcb =>
        cases hl
        -- no other PHI of the variable waits, or it would have a definition
        have hother : ∀ e ∈ s.waitingPhis c, e.1 ≠ x := by
          rintro ⟨y, q⟩ he rfl
          obtain ⟨_, a, ha⟩ := h.guarded y c q (mem_waitingPhis.mp he)
          exact absurd (hdefs.symm.trans ha) (by simp)
        refine (insertPending_perm hother).nodup_iff.mpr (List.nodup_cons.mpr ⟨?_, ?_⟩)
        · exact fun hmem => hother _ hmem rfl
        · unfold waitingPhis
          cases hold : s.pending.get? c with
          | none => exact List.nodup_nil
          | some l => exact h.waits_nodup c l hold
      · exact h.waits_nodup b l hl
  case refine_7 =>
    intro x w hw
    rw [hC.steady.globalDefs] at hw
    exact (h.globals_below x w hw).mono hle
  case refine_8 =>
    -- an operand is one that a PHI had before, or the value that is added
    intro c j hj hop o ho
    rcases hf.mem c j hj with ⟨_, _, hnone, _⟩ | ⟨k, hk, rfl⟩
    · simp [hnone] at ho
    · have hkop : k.op = .phi := by
        rcases hf.op c k hk with hsame | ⟨_, _, hphi, _⟩
        · exact hsame.symm.trans hop
        · exact hphi
      refine Value.Below.mono ?_ hle
      rcases hf.operands c k hk o ho with ho | hfalse | hbelow | ⟨d, l, hl, hlop, ho⟩
      · exact h.operands_below c k hk hkop o ho
      · exact hfalse.elim
      · exact hbelow
      · exact h.operands_below d l hl hlop o ho

/-- PHIs that use instructions in `L` are noted still. -/
theorem notedAmong (h : Aside s B) (hs : Coded s B) (hstep : Change False K D s t)
    {L : Nat → Prop} (hK : ∀ q, K q → L q) (hB : B.NotedAmong False L)
    (ht : Coded t C) :
    C.NotedAmong False L := by
  have hsame : t.body? = s.body? → C.NotedAmong False L := by
    intro hbody
    obtain rfl := Option.some.inj (hs.body.symm.trans (hbody.symm.trans ht.body))
    exact hB
  -- a PHI that comes in neither uses anything nor is used
  have hnewPhi : ∀ {d q u}, Builder.newPhi d s = .ok q u → u.body? = t.body? →
      C.NotedAmong False L := by
    intro d q u hnew hbody
    have hf : Alters True (fun _ => True) s B C fun i => i :=
      alters_newPhi hs hnew (hbody.trans ht.body)
    intro b i hi hKi c k hk hop ho
    rcases hf.mem c k hk with ⟨_, _, hnone, _⟩ | ⟨_, hk', rfl⟩
    · simp [hnone] at ho
    · rcases hf.mem b i hi with ⟨hid, _⟩ | ⟨_, hi', rfl⟩
      · have hbelow := h.operands_below c _ hk' (hop.resolve_left id) _ ho
        exact absurd (hbelow _ rfl) (by omega)
      · exact hB b _ hi' hKi c _ hk' hop ho
  cases hstep with
  | draw => exact hsame rfl
  | phi hnew => exact hnewPhi hnew rfl
  | wait _ _ _ hnew => exact hnewPhi hnew rfl
  | define => exact hsame rfl
  | @operand p v _ _ hp hrun =>
    obtain ⟨d, m, hm, hmp, _⟩ := hs.isPhi_iff.mp (hp.resolve_left id).1
    obtain ⟨s', hrun', hs'⟩ := hs.addOperand p v
    cases hrun'.symm.trans hrun
    obtain rfl := hs'.coded.body_unique ht
    obtain ⟨f, hmap, hf⟩ := hs.indexed.addOperand_users hm hmp v
    rw [hmap]
    intro b i hi hKi c k hk hop ho
    rw [Body.code_mapInsts, List.mem_map] at hi hk
    obtain ⟨i, hi, rfl⟩ := hi
    obtain ⟨k, hk, rfl⟩ := hk
    obtain ⟨hid, _, _, husers⟩ := hf i
    obtain ⟨hkid, hkop, hoperands, _⟩ := hf k
    rw [hid] at hKi ho
    rw [hkid, husers]
    rw [hkop] at hop
    rw [hoperands] at ho
    split at ho
    · next hkp =>
      rcases List.mem_append.mp ho with ho | ho
      · exact Or.inl (hB b i hi hKi c k hk hop ho)
      · exact Or.inr ⟨(List.mem_singleton.mp ho).symm, hkp⟩
    · exact Or.inl (hB b i hi hKi c k hk hop ho)
  | givesWay hKi _ hgives =>
    obtain rfl := hgives.before.body_unique hs
    rw [← hgives.after.body_unique ht]
    exact hgives.noted hB (hK _ hKi)

end Aside

/-! ## Changes one after the other -/

namespace Changes

theorem follows (h : Changes wild K D s t) (hs : Coded s B) : ∃ C, Follows s B t C := by
  induction h with
  | refl => exact ⟨B, hs.refl⟩
  | tail _ hstep ih =>
    obtain ⟨C, hC⟩ := ih
    obtain ⟨C', hC'⟩ := hstep.follows hC.coded
    exact ⟨C', hC.trans hC'⟩

theorem guarded (h : Changes wild K D s t) (hs : Coded s B) (hg : s.Guarded) : t.Guarded := by
  induction h with
  | refl => exact hg
  | tail hrest hstep ih =>
    obtain ⟨C, hC⟩ := follows hrest hs
    exact hstep.guarded hC.coded ih

theorem aside (h : Changes wild K D s t) (hs : Coded s B) (ha : wild ∨ Aside s B)
    (ht : Coded t C) : wild ∨ Aside t C := by
  by_cases hw : wild
  · exact Or.inl hw
  refine Or.inr ?_
  have ha := ha.resolve_left hw
  induction h generalizing C with
  | refl => exact hs.body_unique ht ▸ ha
  | tail hrest hstep ih =>
    obtain ⟨C', hC'⟩ := follows hrest hs
    exact (ih hC'.coded).change hC'.coded (hstep.mono hw (fun _ h => h) fun _ h => h) ht

theorem notedAmong (h : Changes False K D s t) (hs : Coded s B) (ha : Aside s B)
    {L : Nat → Prop} (hK : ∀ q, K q → L q) (hB : B.NotedAmong False L) (ht : Coded t C) :
    C.NotedAmong False L := by
  induction h generalizing C with
  | refl => exact hs.body_unique ht ▸ hB
  | tail hrest hstep ih =>
    obtain ⟨C', hC'⟩ := follows hrest hs
    have ha' := (aside hrest hs (Or.inr ha) hC'.coded).resolve_left id
    exact ha'.notedAmong hC'.coded hstep hK (ih hC'.coded) ht

theorem waits (h : Changes wild K D s t) (hs : Coded s B) (hw : t.Waits x b p) :
    s.Waits x b p ∨ D (x, b) ∧ s.nextId ≤ p := by
  induction h with
  | refl => exact Or.inl hw
  | tail hrest hstep ih =>
    obtain ⟨C, hC⟩ := follows hrest hs
    rcases hstep.waits hC.coded hw with hw | ⟨hD, rfl⟩
    · exact ih hw
    · exact Or.inr ⟨hD, hC.steady.nextId⟩

theorem isPhi_of_isPhi (h : Changes wild K D s t) (hs : Coded s B) (hq : t.isPhi q = true) :
    s.isPhi q = true ∨ s.nextId ≤ q := by
  induction h with
  | refl => exact Or.inl hq
  | tail hrest hstep ih =>
    obtain ⟨C, hC⟩ := follows hrest hs
    rcases hstep.isPhi_of_isPhi hC.coded hq with hq | rfl
    · exact ih hq
    · exact Or.inr hC.steady.nextId

theorem isPhi_of_not (h : Changes wild K D s t) (hs : Coded s B) (hK : ¬ K q)
    (hq : s.isPhi q = true) : t.isPhi q = true := by
  induction h with
  | refl => exact hq
  | tail hrest hstep ih =>
    obtain ⟨C, hC⟩ := follows hrest hs
    exact hstep.isPhi_of_not hC.coded (fun hKq => hK hKq.1) ih

theorem sticky (h : Changes wild K D s t) (hs : Coded s B) (hK : Sticky K B)
    (hnew : ∀ q, s.nextId ≤ q → K q) (ht : Coded t C) : Sticky K C := by
  induction h generalizing C with
  | refl => exact hs.body_unique ht ▸ hK
  | tail hrest hstep ih =>
    obtain ⟨C', hC'⟩ := follows hrest hs
    exact hstep.sticky hC'.coded (ih hC'.coded) (hnew _ hC'.steady.nextId) ht

theorem not_mem_users (h : Changes wild K D s t) (hs : Coded s B) (hK : ¬ K q)
    (hq : ∀ c, ∀ j ∈ B.code c, q ∉ j.users) (ht : Coded t C) :
    ∀ c, ∀ j ∈ C.code c, q ∉ j.users := by
  induction h generalizing C with
  | refl => exact hs.body_unique ht ▸ hq
  | tail hrest hstep ih =>
    obtain ⟨C', hC'⟩ := follows hrest hs
    exact hstep.not_mem_users hC'.coded hK (ih hC'.coded) ht

end Changes

end Builder

end Compiler16.Ssa
