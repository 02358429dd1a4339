import Compiler16.Proofs.StableReads

/-!
# PHIs that wait

A PHI that waits for its block to be sealed has no operands yet, and no instruction takes it for one
of its users.  It may be removed by hand all the same, since a PHI without operands merges nothing
but the unknown value.  Then it is a copy of that value, but it goes on waiting.

Each kind of change keeps this, as long as operands go to instructions that do not wait.  Reads give
operands only to PHIs that they bring in themselves, and the sealing of a block gives them to PHIs
that wait no more.  So it holds in every state that operations lead to, also if PHIs that wait have
been removed.

## Main definitions

* `Inst.Bare`: a PHI without operands, or what becomes of it
* `Builder.Unfilled`: what waits is bare, waits once, and is used by nothing
* `Builder.Biding`, `AllBare`: this holds of the open function, if there is one
* `Outlasts`: a property that is kept where PHIs give way

## Main results

* `Outlasts.removeTrivialPhi`, `Outlasts.completePhi`, `Outlasts.forM_completePhi`: what is kept
  where PHIs give way and where one gets an operand is kept when PHIs are removed and completed
* `Biding.readVariable`, `Biding.sealBlock`: reads and the sealing of blocks keep what waits bare
* `allBare_keptByCalls`, `Reached.biding`: so do all operations
-/

namespace Compiler16.Ssa

open Compiler16.Source Compiler16.Flow Compiler16.Ssa.Builder

variable {α : Type} {c : Context} {o : Options}

/-- A PHI without operands, or the copy of the unknown value that it gives way to. -/
def Inst.Bare (i : Inst) : Prop :=
  i.op = .phi ∧ i.operands = [] ∨ i.op = .mov ∧ i.operands = [.unknown]

/-- The instruction is still the same, only results among its operands may have been replaced. -/
structure Inst.Stays (i j : Inst) : Prop where
  id : j.id = i.id
  op : j.op = i.op
  operands : ∃ g : Value → Value, g .unknown = .unknown ∧ j.operands = i.operands.map g

namespace Inst

variable {i j : Inst} {v : Value}

theorem Stays.of_eq (hid : j.id = i.id) (hop : j.op = i.op) (hoperands : j.operands = i.operands) :
    i.Stays j :=
  ⟨hid, hop, fun v => v, rfl, by rw [hoperands, List.map_id']⟩

/-- There is no result among the operands that could be replaced. -/
theorem Stays.bare (h : i.Stays j) (hi : i.Bare) : j.Bare := by
  obtain ⟨g, hg, hoperands⟩ := h.operands
  refine hi.imp ?_ ?_
  · rintro ⟨hop, hnil⟩
    exact ⟨h.op.trans hop, by rw [hoperands, hnil, List.map_nil]⟩
  · rintro ⟨hop, hunknown⟩
    exact ⟨h.op.trans hop, by rw [hoperands, hunknown, List.map_singleton, hg]⟩

theorem Bare.operands_of_phi (h : i.Bare) (hop : i.op = .phi) : i.operands = [] := by
  rcases h with ⟨_, hnil⟩ | ⟨hmov, _⟩
  · exact hnil
  · exact absurd (hop.symm.trans hmov) (by simp)

theorem Bare.merged (h : i.Bare) (hop : i.op = .phi) : i.mergedValue? = some .unknown := by
  simp [Inst.mergedValue?, h.operands_of_phi hop]

end Inst

namespace Builder

variable {wild : Prop} {K : Nat → Prop} {D : Nat × Nat → Prop} {s s' t u : Builder} {B C : Body}
  {i j k : Inst} {x b p q : Nat} {v : Value}

/-! ## Instructions one by one -/

/-- Where a PHI gives way, every other instruction is still the same. -/
theorem GivesWay.becomes (h : GivesWay i v s B t) (hk : k ∈ B.code b) :
    ∃ l ∈ (B.forwardPhi i v).code b, l.id = k.id ∧
      (k = i ∧ l.op = .mov ∧ l.operands = [v] ∨ k.id ≠ i.id ∧ k.Stays l) := by
  obtain ⟨c, hi⟩ := h.mem
  obtain ⟨f, hmap, _, hf⟩ := h.before.indexed.forwardPhi_map hi v
  have hfk := hf k
  have hmem : f k ∈ (B.forwardPhi i v).code b := by
    rw [hmap, Body.code_mapInsts]
    exact List.mem_map_of_mem hk
  by_cases hki : k.id = i.id
  · rw [if_pos hki] at hfk
    obtain rfl := h.before.indexed.eq_of_id_eq hk hi hki
    refine ⟨f k, hmem, hfk.id, Or.inl ⟨rfl, hfk.op, ?_⟩⟩
    rw [hfk.operands]
    simp [Body.copyOf]
  · rw [if_neg hki] at hfk
    refine ⟨f k, hmem, hfk.id, Or.inr ⟨hki, hfk.id, hfk.op, _, ?_, hfk.operands⟩⟩
    simp

/-- Where an instruction gets an operand, every other one is still the same. -/
theorem Coded.addOperand_becomes (h : Coded s B) (hk : k ∈ B.code b) (p : Nat) (v : Value) :
    ∃ l ∈ (B.addOperand p v).2.code b, l.id = k.id ∧ l.op = k.op ∧
      l.operands = if k.id = p then k.operands ++ [v] else k.operands := by
  cases hinst : B.inst? p with
  | none =>
    have hnone : (B.addOperand p v).2 = B := by simp [Body.addOperand, hinst]
    have hkp : k.id ≠ p := by
      rintro rfl
      cases hinst.symm.trans (h.indexed.inst?_eq_some_iff.mpr ⟨b, hk, rfl⟩)
    rw [hnone, if_neg hkp]
    exact ⟨k, hk, rfl, rfl, rfl⟩
  | some i =>
    obtain ⟨d, hi, hip⟩ := h.indexed.inst?_eq_some_iff.mp hinst
    obtain ⟨f, hf, hmap⟩ := h.indexed.addOperand_eq hi hip v
    obtain ⟨hid, _, hop, _, _, hoperands, _⟩ := hf k
    refine ⟨f k, ?_, hid, hop, hoperands⟩
    rw [hmap, Body.code_mapInsts]
    exact List.mem_map_of_mem hk

/-- The state after an operand has been added. -/
theorem Coded.addOperand_eq (h : Coded s B)
    (hrun : Builder.changeBody (fun body => .ok ((), (body.addOperand p v).2)) s = .ok () t) :
    Follows s B t (B.addOperand p v).2 ∧ t.pending = s.pending ∧ t.defs = s.defs := by
  obtain ⟨_, hrun', ht⟩ := h.addOperand p v
  cases hrun'.symm.trans hrun
  obtain ⟨fn, _, _, _, rfl⟩ := changeBody_eq_ok.mp hrun
  exact ⟨ht, rfl, rfl⟩

/-- Where a variable has no definition, no PHI of it waits. -/
theorem Guarded.ne_of_waiting (h : s.Guarded) (hdefs : s.defs.get? (x, b) = none) :
    ∀ e ∈ s.waitingPhis b, e.1 ≠ x := by
  rintro ⟨y, q⟩ he rfl
  obtain ⟨_, a, ha⟩ := h y b q (mem_waitingPhis.mp he)
  exact absurd (hdefs.symm.trans ha) (by simp)

/-! ## What waits is bare -/

/-- What waits is bare, waits once, and is used by nothing. -/
structure Unfilled (s : Builder) (B : Body) : Prop where
  bare : ∀ x b p, s.Waits x b p → ∃ i ∈ B.code b, i.id = p ∧ i.Bare
  once : ∀ x b y c p, s.Waits x b p → s.Waits y c p → x = y ∧ b = c
  nodup : ∀ b l, s.pending.get? b = some l → l.Nodup
  users_lt : ∀ c, ∀ j ∈ B.code c, ∀ u ∈ j.users, u < s.nextId
  unused : ∀ x b p, s.Waits x b p → ∀ c, ∀ j ∈ B.code c, p ∉ j.users

namespace Unfilled

theorem lt (h : Unfilled s B) (hs : Coded s B) (hw : s.Waits x b p) : p < s.nextId := by
  obtain ⟨i, hi, rfl, _⟩ := h.bare x b p hw
  exact hs.bound b i hi

theorem idle (h : Unfilled s B) (hs : Coded s B) (hp : s.nextId ≤ p) : s.Idle p :=
  fun _ _ hw => absurd (h.lt hs hw) (not_lt.mpr hp)

theorem nodup_waitingPhis (h : Unfilled s B) (b : Nat) : (s.waitingPhis b).Nodup := by
  unfold waitingPhis
  cases hpending : s.pending.get? b with
  | none => exact List.nodup_nil
  | some l => exact h.nodup b l hpending

/-- Nothing uses what waits, so the removal of another PHI does not come to it. -/
theorem sticky (h : Unfilled s B) (hw : s.Waits x b p) : Sticky (· ≠ p) B := by
  intro d _ i hi j _ _ _ _ huser hjp
  exact h.unused x b p hw d i hi (hjp ▸ huser)

/-- No more PHIs wait than before, and users that are new do not wait. -/
theorem mono (h : Unfilled s B) (hnext : s.nextId ≤ t.nextId)
    (hpending : ∀ b l, t.pending.get? b = some l → s.pending.get? b = some l)
    (hbare : ∀ x b, ∀ i ∈ B.code b, s.Waits x b i.id → i.Bare →
      ∃ j ∈ C.code b, j.id = i.id ∧ j.Bare)
    (husers : ∀ c, ∀ j ∈ C.code c, ∀ u ∈ j.users,
      (∃ d, ∃ i ∈ B.code d, u ∈ i.users) ∨ s.Idle u ∧ u < t.nextId) : Unfilled t C := by
  have hwaits : ∀ {x b p}, t.Waits x b p → s.Waits x b p :=
    fun ⟨l, hl, hmem⟩ => ⟨l, hpending _ l hl, hmem⟩
  refine ⟨fun x b p hw => ?_, fun x b y c p hx hy => h.once x b y c p (hwaits hx) (hwaits hy),
    fun b l hl => h.nodup b l (hpending b l hl), fun c j hj u hu => ?_,
    fun x b p hw c j hj hu => ?_⟩
  · obtain ⟨i, hi, rfl, hibare⟩ := h.bare x b p (hwaits hw)
    exact hbare x b i hi (hwaits hw) hibare
  · rcases husers c j hj u hu with ⟨d, i, hi, hu⟩ | ⟨_, hlt⟩
    · exact lt_of_lt_of_le (h.users_lt d i hi u hu) hnext
    · exact hlt
  · rcases husers c j hj p hu with ⟨d, i, hi, hu⟩ | ⟨hidle, _⟩
    · exact h.unused x b p (hwaits hw) d i hi hu
    · exact hidle x b (hwaits hw)

/-- The instructions are the same. -/
theorem same (h : Unfilled s B) (hnext : s.nextId ≤ t.nextId)
    (hpending : ∀ b l, t.pending.get? b = some l → s.pending.get? b = some l)
    (hcode : ∀ b, C.code b = B.code b) : Unfilled t C := by
  refine h.mono hnext hpending (fun x b i hi _ hbare => ⟨i, hcode b ▸ hi, rfl, hbare⟩) ?_
  exact fun c j hj u hu => Or.inl ⟨c, j, hcode c ▸ hj, hu⟩

theorem erase (h : Unfilled s B) (b : Nat) :
    Unfilled { s with pending := s.pending.erase b } B := by
  refine h.same le_rfl (fun d l hl => ?_) fun _ => rfl
  rw [OrderedMap.get?_erase] at hl
  split at hl
  · cases hl
  · exact hl

theorem newPhi (h : Unfilled s B) (hs : Coded s B) (hnew : Builder.newPhi b s = .ok p t)
    (ht : Coded t C) : Unfilled t C := by
  have hf : Alters True (fun _ => True) s B C fun i => i := alters_newPhi hs hnew ht.body
  obtain ⟨_, fn, B', _, _, rfl⟩ := newPhi_eq_ok.mp hnew
  refine h.mono (Nat.le_succ _) (fun _ _ hl => hl)
    (fun _ d i hi _ hbare => ⟨i, hf.image d i hi, rfl, hbare⟩) fun d j hj u hu => ?_
  rcases hf.mem d j hj with ⟨_, _, _, hnone⟩ | ⟨i, hi, rfl⟩
  · simp [hnone] at hu
  · exact Or.inl ⟨d, i, hi, hu⟩

/-- A PHI that has just come in may wait. -/
theorem wait (h : Unfilled s B) (hs : Coded s B) (hg : s.Guarded)
    (hdefs : s.defs.get? (x, b) = none) (hnew : Builder.newPhi b s = .ok p t)
    (ht : Coded t C) (hpending : u.pending =
      s.pending.insert b (insertPending x p ((s.pending.get? b).getD [])))
    (hnext : u.nextId = t.nextId) : Unfilled u C := by
  have hC := h.newPhi hs hnew ht
  obtain ⟨rfl, fn, B', hfn, hins, rfl⟩ := newPhi_eq_ok.mp hnew
  obtain rfl : B' = C := Option.some.inj ht.body
  have hwaits : ∀ {y d q}, u.Waits y d q → s.Waits y d q ∨ y = x ∧ d = b ∧ q = s.nextId :=
    waits_of_insertPending hpending
  have hlt : ∀ {y d}, ¬ s.Waits y d s.nextId := fun hw => lt_irrefl _ (h.lt hs hw)
  refine ⟨fun y d q hw => ?_, fun y d z e q hy hz => ?_, fun d l hl => ?_, fun d j hj w hw => ?_,
    fun y d q hw e j hj hu => ?_⟩
  · rcases hwaits hw with hw | ⟨_, rfl, rfl⟩
    · exact hC.bare y d q hw
    · exact ⟨_, (Body.mem_code_insertPhi hins).mpr (Or.inl ⟨rfl, rfl⟩), rfl, Or.inl ⟨rfl, rfl⟩⟩
  · -- the number is new, so no other PHI waits with it
    rcases hwaits hy with hy | ⟨rfl, rfl, rfl⟩
    · rcases hwaits hz with hz | ⟨_, _, rfl⟩
      · exact h.once y d z e q hy hz
      · exact (hlt hy).elim
    · rcases hwaits hz with hz | ⟨rfl, rfl, _⟩
      · exact (hlt hz).elim
      · exact ⟨rfl, rfl⟩
  · rw [hpending, OrderedMap.get?_insert] at hl
    split at hl
    · cases hl
      have hother := hg.ne_of_waiting hdefs
      refine (insertPending_perm hother).nodup_iff.mpr (List.nodup_cons.mpr ⟨?_, ?_⟩)
      · exact fun hmem => hother _ hmem rfl
      · exact h.nodup_waitingPhis b
    · exact h.nodup d l hl
  · exact hnext ▸ hC.users_lt d j hj w hw
  · rcases hwaits hw with hw | ⟨_, _, rfl⟩
    · exact hC.unused y d q hw e j hj hu
    · -- the users were there before
      have hf : Alters True (fun _ => True) s B B' fun i => i := alters_newPhi hs hnew ht.body
      rcases hf.mem e j hj with ⟨_, _, _, hnone⟩ | ⟨i, hi, rfl⟩
      · simp [hnone] at hu
      · exact lt_irrefl _ (h.users_lt e i hi _ hu)

/-- An instruction that does not wait gets an operand. -/
theorem addOperand (h : Unfilled s B) (hs : Coded s B) (hidle : s.Idle p)
    (hrun : Builder.changeBody (fun body => .ok ((), (body.addOperand p v).2)) s = .ok () t) :
    Unfilled t (B.addOperand p v).2 := by
  obtain ⟨ht, hpending, _⟩ := hs.addOperand_eq hrun
  refine h.mono ht.steady.nextId (fun _ _ hl => hpending ▸ hl) (fun y d i hi hw hbare => ?_) ?_
  · have hip : i.id ≠ p := fun hip => hidle y d (hip ▸ hw)
    obtain ⟨j, hj, hid, hop, hoperands⟩ := hs.addOperand_becomes hi p v
    rw [if_neg hip] at hoperands
    exact ⟨j, hj, hid, (Inst.Stays.of_eq hid hop hoperands).bare hbare⟩
  · obtain ⟨f, hf⟩ : ∃ f, Alters True (· = p) s B (B.addOperand p v).2 f :=
      Alters.addOperand hs rfl (Or.inl trivial)
    intro d j hj w hw
    rcases hf.mem d j hj with ⟨_, _, _, hnone⟩ | ⟨i, hi, rfl⟩
    · simp [hnone] at hw
    · rcases hf.users d i hi w hw with hw | ⟨rfl, hlt, _⟩ | ⟨e, l, hl, _, _, hw⟩
      · exact Or.inl ⟨d, i, hi, hw⟩
      · exact Or.inr ⟨hidle, lt_of_lt_of_le hlt ht.steady.nextId⟩
      · exact Or.inl ⟨e, l, hl, hw⟩

/-- A PHI gives way, be it one that waits. -/
theorem givesWay (h : Unfilled s B) (hgives : GivesWay i v s B t) :
    Unfilled t (B.forwardPhi i v) := by
  have hs := hgives.before
  obtain ⟨d, hi⟩ := hgives.mem
  -- if it waits, it merges nothing but the unknown value, which has no users
  have hvalue : ∀ {y e}, s.Waits y e i.id → v = .unknown := by
    intro y e hw
    obtain ⟨j, hj, hji, hbare⟩ := h.bare y e i.id hw
    obtain rfl := hs.indexed.eq_of_id_eq hj hi hji
    exact Option.some.inj (hgives.merged.symm.trans (hbare.merged hgives.phi))
  refine h.mono hgives.follows.steady.nextId (fun _ _ hl => hgives.pending ▸ hl)
    (fun y e k hk hw hbare => ?_) fun e j hj w hw => ?_
  · obtain ⟨l, hl, hid, ⟨rfl, hop, hoperands⟩ | ⟨_, hstays⟩⟩ := hgives.becomes hk
    · exact ⟨l, hl, hid, Or.inr ⟨hop, hoperands.trans (by rw [hvalue hw])⟩⟩
    · exact ⟨l, hl, hid, hstays.bare hbare⟩
  · obtain ⟨f, hmap, _, hf⟩ := hs.indexed.forwardPhi_map hi v
    rw [hmap, Body.code_mapInsts] at hj
    obtain ⟨k, hk, rfl⟩ := List.mem_map.mp hj
    rcases ((hf k).users w).mp hw with hw | ⟨hv, hw⟩
    · split at hw
      · exact Or.inl ⟨d, i, hi, (List.mem_filter.mp hw).1⟩
      · exact Or.inl ⟨e, k, hk, hw⟩
    · rcases List.mem_cons.mp hw with rfl | hw
      · refine Or.inr ⟨fun y c hw => ?_, ?_⟩
        · cases (hvalue hw).symm.trans hv
        · exact lt_of_lt_of_le (hs.bound d i hi) hgives.follows.steady.nextId
      · exact Or.inl ⟨d, i, hi, (List.mem_filter.mp hw).1⟩

/-- An instruction comes in. -/
theorem append (h : Unfilled s B) (hs : Coded s B) (hid : i.id = s.nextId) (hnone : i.users = [])
    (happend : B.append i = .ok C) (hnext : t.nextId = s.nextId + 1)
    (hpending : t.pending = s.pending) : Unfilled t C := by
  obtain ⟨f, hf, hcode⟩ := hs.exists_append hid happend
  refine h.mono (hnext ▸ Nat.le_succ _) (fun _ _ hl => hpending ▸ hl)
    (fun y d j hj _ hbare => ?_) ?_
  · exact ⟨f j, (hcode d _).mpr ⟨j, Or.inl hj, rfl⟩, (hf j).1,
      (Inst.Stays.of_eq (hf j).1 (hf j).2.1 (hf j).2.2.1).bare hbare⟩
  · intro d j hj w hw
    obtain ⟨l, hl, rfl⟩ := (hcode d j).mp hj
    rcases (hf l).2.2.2 w hw with hw | rfl
    · rcases hl with hl | ⟨_, rfl⟩
      · exact Or.inl ⟨d, l, hl, hw⟩
      · simp [hnone] at hw
    · exact Or.inr ⟨h.idle hs hid.ge, by omega⟩

end Unfilled

/-- A function is open, what waits in it is bare, and it waits in open blocks. -/
def Biding (s : Builder) : Prop := ∃ B, Coded s B ∧ s.Guarded ∧ Unfilled s B

/-- A definition that is made does not matter to what waits. -/
theorem Biding.define (h : Biding s) (l : Nat × Nat) (v : Value) :
    Biding { s with defs := s.defs.insert l v } := by
  obtain ⟨B, hs, hg, hu⟩ := h
  have hstep : Change True (fun _ => True) (fun _ => True) s { s with defs := s.defs.insert l v } :=
    .define trivial (Or.inl trivial)
  exact ⟨B, hs.remember.coded, hstep.guarded hs hg,
    hu.same le_rfl (fun _ _ hl => hl) fun _ => rfl⟩

end Builder

variable {s t : Builder} {B : Body}

/-- If a function is open, what waits in it is bare. -/
def AllBare (s : Builder) : Prop := ∀ B, s.body? = some B → Unfilled s B

theorem AllBare.of_closed (h : Closed s) : AllBare s := by
  intro B hB
  rw [body?, show s.opened = none from h] at hB
  cases hB

theorem Builder.Biding.allBare (h : Biding s) : AllBare s := by
  obtain ⟨B, hB, _, hu⟩ := h
  intro C hC
  obtain rfl := Option.some.inj (hB.body.symm.trans hC)
  exact hu

/-- What waits in an open function waits in order. -/
theorem AllBare.biding (h : AllBare s) (hs : Orderly s) (hB : s.body? = some B) : Biding s :=
  ⟨B, hs.1 B hB, (hs.2 B hB).2, h B hB⟩

/-- What waits is the same, and the body is. -/
theorem AllBare.same (h : AllBare s) (hbody : t.body? = s.body?) (hnext : s.nextId ≤ t.nextId)
    (hpending : t.pending = s.pending) : AllBare t :=
  fun B hB => (h B (hbody ▸ hB)).same hnext (fun _ _ hl => hpending ▸ hl) fun _ => rfl

/-! ## Removals and completions -/

/-- The property is kept where PHIs of `K` give way, and only PHIs of `K` are used by such PHIs. -/
structure Outlasts (K : Nat → Prop) (P : Builder → Prop) : Prop where
  coded : ∀ {s}, P s → ∃ B, Coded s B
  sticky : ∀ {s B}, P s → Coded s B → Sticky K B
  givesWay : ∀ {s t B i v}, K i.id → GivesWay i v s B t → P s → P t

namespace Outlasts

variable {K : Nat → Prop} {P : Builder → Prop} {s t : Builder} {p : Nat}

theorem cascade (h : Outlasts K P) (hrun : Cascade K s t) (hs : P s) : P t := by
  induction hrun with
  | refl => exact hs
  | tail _ hstep ih =>
    obtain ⟨i, v, B, hK, hgives⟩ := hstep
    exact h.givesWay hK hgives ih

theorem removeTrivialPhi (h : Outlasts K P) (hp : K p) (hs : P s) :
    Leaves (Builder.removeTrivialPhi p) s P := by
  obtain ⟨B, hB⟩ := h.coded hs
  -- a removal does not fail, and is a cascade in `K`
  obtain ⟨_, _, _, _, _, hrun, _, _, hfirst, hrest⟩ :=
    hB.removeTrivialPhi_cascade (h.sticky hs hB) hp
  exact .of_ok hrun (h.cascade (hfirst.trans hrest) hs)

/-- A PHI gets its operands and may be removed. -/
theorem completePhi (h : Outlasts K P) {read : Nat → Build Value} (hp : K p)
    (hread : ∀ {s} q, P s → Leaves (read q) s P)
    (hadd : ∀ {s t v}, P s →
      changeBody (fun body => .ok ((), (body.addOperand p v).2)) s = .ok () t → P t)
    (hs : P s) : Leaves (Builder.completePhi o read p) s P := by
  obtain ⟨B, hB⟩ := h.coded hs
  refine hB.getBody_bind (Leaves.bind (Ends.forM (I := fun _ => P) ?_ _ s hs) fun _ t ht => ?_)
  · intro q _ t ht
    refine (hread q ht).bind fun v u hu => ?_
    obtain ⟨C, hC⟩ := h.coded hu
    obtain ⟨u', hrun, _⟩ := hC.addOperand p v
    exact .of_ok hrun (hadd hu hrun)
  · split
    · exact h.removeTrivialPhi hp ht
    · exact .pure ht

/-- PHIs are completed one after the other. -/
theorem forM_completePhi (h : Outlasts K P)
    (hread : ∀ {s} x q, P s → Leaves (readVariable o x q) s P) (l : List (Nat × Nat))
    (hl : ∀ e ∈ l, K e.2 ∧ ∀ {s t v}, P s →
      changeBody (fun body => .ok ((), (body.addOperand e.2 v).2)) s = .ok () t → P t)
    (hs : P s) : Leaves (l.forM fun e => do
      let _ ← Builder.completePhi o (readVariable o e.1) e.2 : Build Unit) s P := by
  refine (Ends.forM (I := fun m t => (∀ e ∈ m, e ∈ l) ∧ P t) (E := fun _ => P) ?_ l s
    ⟨fun _ he => he, hs⟩).imp (fun _ _ ht => ht.2) fun _ _ ht => ht
  rintro e m t ⟨hm, ht⟩
  obtain ⟨he, hadd⟩ := hl e (hm e List.mem_cons_self)
  refine Leaves.next (h.completePhi he (hread e.1) hadd ht) fun _ u hu => ?_
  exact .pure ⟨fun d hd => hm d (List.mem_cons_of_mem _ hd), hu⟩

end Outlasts

/-! ## Reads and sealed blocks -/

namespace Builder

variable {S : Nat → Prop} {s t : Builder} {B : Body} {x b p : Nat} {v : Value}

/-- What waits is bare, and the instructions in `S` do not wait. -/
def Freed (S : Nat → Prop) (s : Builder) : Prop :=
  Biding s ∧ ∀ q, S q → s.Idle q ∧ q < s.nextId

theorem Changes.idle {wild : Prop} {K : Nat → Prop} {D : Nat × Nat → Prop}
    (h : Changes wild K D s t) (hs : Coded s B) (hp : p < s.nextId) (hidle : s.Idle p) :
    t.Idle p := by
  intro y d hw
  rcases h.waits hs hw with hw | ⟨_, hle⟩
  · exact hidle y d hw
  · exact absurd hp (not_lt.mpr hle)

/-- A PHI may give way, whether it waits or not. -/
theorem outlasts_freed : Outlasts (fun _ => True) (Freed S) where
  coded h := by
    obtain ⟨⟨B, hB, _⟩, _⟩ := h
    exact ⟨B, hB⟩
  sticky _ _ := .all
  givesWay {s t B i v} _ hgives h := by
    obtain ⟨⟨C, hC, hg, hu⟩, hS⟩ := h
    obtain rfl := hgives.before.body_unique hC
    have hnext := hgives.follows.steady.nextId
    have hstep : Change True (fun _ => True) (fun _ => True) s t :=
      .givesWay trivial (Or.inl trivial) hgives
    refine ⟨⟨_, hgives.after, hstep.guarded hC hg, hu.givesWay hgives⟩, fun q hq => ⟨?_, ?_⟩⟩
    · exact fun y d hw => (hS q hq).1 y d ((waits_of_pending hgives.pending).mp hw)
    · exact lt_of_lt_of_le (hS q hq).2 hnext

/-- Operands go to instructions that do not wait. -/
theorem Freed.addOperand (h : Freed S s) (hp : S p)
    (hrun : Builder.changeBody (fun body => .ok ((), (body.addOperand p v).2)) s = .ok () t) :
    Freed S t := by
  obtain ⟨⟨B, hB, hg, hu⟩, hS⟩ := h
  obtain ⟨ht, hpending, _⟩ := hB.addOperand_eq hrun
  have hstep : Change True (fun _ => True) (fun _ => True) s t :=
    .operand trivial (Or.inl trivial) hrun
  refine ⟨⟨_, ht.coded, hstep.guarded hB hg, hu.addOperand hB (hS p hp).1 hrun⟩,
    fun q hq => ⟨?_, lt_of_lt_of_le (hS q hq).2 ht.steady.nextId⟩⟩
  exact fun y d hw => (hS q hq).1 y d ((waits_of_pending hpending).mp hw)

/-- A read lets nothing wait that was there before it. -/
theorem Freed.of_read {m : Build Value} (h : Freed S s) (hs : Coded s B)
    (hm : Leaves m s Biding)
    (hchanges : Ends m s (fun w t => Changes True (s.nextId ≤ ·) (Undefined s x) s t ∧
      t.defs.get? (x, b) = some w)
      fun _ t => Changes True (s.nextId ≤ ·) (Undefined s x) s t) :
    Leaves m s (Freed S) := by
  have hidle : Leaves m s fun t => Changes True (s.nextId ≤ ·) (Undefined s x) s t :=
    hchanges.imp (fun _ _ ht => ht.1) fun _ _ ht => ht
  have hfreed : ∀ {t}, Biding t ∧ Changes True (s.nextId ≤ ·) (Undefined s x) s t → Freed S t := by
    rintro t ⟨ht, hsteps⟩
    obtain ⟨C, hC⟩ := hsteps.follows hs
    exact ⟨ht, fun q hq => ⟨hsteps.idle hs (h.2 q hq).2 (h.2 q hq).1,
      lt_of_lt_of_le (h.2 q hq).2 hC.steady.nextId⟩⟩
  exact (hm.and hidle).imp (fun _ _ => hfreed) fun _ _ => hfreed

/-- A PHI comes in, or a number is drawn in vain. -/
theorem Biding.newPhi (h : Biding s) (b : Nat) :
    Ends (Builder.newPhi b) s (fun p t => Builder.newPhi b s = .ok p t ∧ Biding t)
      fun _ => Biding := by
  obtain ⟨B, hB, hg, hu⟩ := h
  refine (hB.newPhi_ends b).imp (fun p t hnew => ⟨hnew, ?_⟩) fun _ t ht => ?_
  · obtain ⟨_, C, hC⟩ := newPhi_follows hB hnew
    have hstep : Change True (fun _ => True) (fun _ => True) s t := .phi hnew
    exact ⟨C, hC.coded, hstep.guarded hB hg, hu.newPhi hB hnew hC.coded⟩
  · subst ht
    exact ⟨B, hB.draw.coded, hg, hu.same (Nat.le_succ _) (fun _ _ hl => hl) fun _ => rfl⟩

/-- **Reads keep what waits bare.**  The PHIs that get operands are those that the read brings
in. -/
theorem Biding.readFrom (o : Options) (x depth : Nat) :
    ∀ {s : Builder} {b : Nat}, Biding s → Leaves (Builder.readFrom o x depth b) s Biding := by
  induction depth with
  | zero => exact fun h => .of_error rfl h
  | succ depth ih =>
    intro s b h
    obtain ⟨B, hB, hg, hu⟩ := id h
    refine Ends.get_bind ?_
    cases hdefs : s.defs.get? (x, b) with
    | some v => exact .pure h
    | none =>
      have hremember : ∀ {v t}, Biding t → Leaves (do writeVariable x b v; return v) t Biding :=
        fun ht => .of_ok rfl (ht.define _ _)
      dsimp only
      cases hsealed : s.isSealed b with
      | false =>
        simp only [Bool.false_eq_true, if_false]
        refine Ends.bind (h.newPhi b) ?_
        rintro p t ⟨hnew, _⟩
        have hstep : Change True (fun _ => True) (fun _ => True) s _ :=
          .wait trivial hsealed hdefs hnew
        obtain ⟨_, C, hC⟩ := newPhi_follows hB hnew
        obtain ⟨C', hC'⟩ := hstep.follows hB
        obtain rfl : C = C' := Option.some.inj (hC.coded.body.symm.trans hC'.coded.body)
        refine .of_ok rfl ⟨C, hC'.coded, hstep.guarded hB hg, ?_⟩
        obtain ⟨rfl, fn, B', _, _, rfl⟩ := newPhi_eq_ok.mp hnew
        exact hu.wait hB hg hdefs hnew hC.coded rfl rfl
      | true =>
        simp only [if_true]
        refine hB.getBody_bind ?_
        rcases B.graph.predecessors b with _ | ⟨q, _ | ⟨q', rest⟩⟩
        · exact Ends.bind (.pure h) fun _ _ => hremember
        · exact (ih h).bind fun _ _ => hremember
        · refine Ends.bind (h.newPhi b) ?_
          rintro p t ⟨hnew, ht⟩
          -- the new PHI does not wait, and nested reads do not make it wait
          have hp : Freed (· = p) { t with defs := t.defs.insert (x, b) (.result p) } := by
            refine ⟨ht.define _ _, ?_⟩
            obtain ⟨rfl, fn, B', _, _, rfl⟩ := newPhi_eq_ok.mp hnew
            rintro q rfl
            exact ⟨hu.idle hB le_rfl, Nat.lt_succ_self _⟩
          refine Ends.bind (Q := fun _ u => { t with defs := t.defs.insert (x, b) (.result p) } = u)
            (.of_ok rfl rfl) ?_
          rintro _ _ rfl
          refine Leaves.bind (P := Biding) ?_ fun _ _ => hremember
          refine (outlasts_freed.completePhi (o := o) (p := p) trivial (fun {u} q hu => ?_)
            (fun {u u' w} (hu : Freed (· = p) u) hrun => hu.addOperand rfl hrun) hp).imp
            (fun _ _ hu => hu.1) fun _ _ hu => hu.1
          obtain ⟨C, hC, _⟩ := hu.1
          exact hu.of_read hC (ih hu.1) (hC.readFrom_changes o x depth (Or.inl trivial))

theorem Biding.readVariable (h : Biding s) (o : Options) (x b : Nat) :
    Leaves (Builder.readVariable o x b) s Biding :=
  Ends.get_bind (readFrom o x s.readDepth h)

theorem Freed.readVariable (h : Freed S s) (o : Options) (x b : Nat) :
    Leaves (Builder.readVariable o x b) s (Freed S) := by
  obtain ⟨B, hB, _⟩ := h.1
  exact h.of_read hB (h.1.readVariable o x b) (hB.readVariable_changes o (Or.inl trivial) x b)

/-- The PHIs of a block are taken from those that wait. -/
theorem Biding.freed (h : Biding s) (b : Nat) :
    Freed (fun q => ∃ x, s.Waits x b q) { s with pending := s.pending.erase b } := by
  obtain ⟨B, hB, hg, hu⟩ := h
  refine ⟨⟨B, hB.erase b, hg.erase b, hu.erase b⟩, ?_⟩
  rintro q ⟨x, hw⟩
  -- it would have to wait in another block as well
  refine ⟨fun y d hw' => ?_, hu.lt hB hw⟩
  obtain ⟨hdb, hw'⟩ := waits_erase.mp hw'
  exact hdb (hu.once x b y d q hw hw').2.symm

/-- **The sealing of a block keeps what waits bare.**  The PHIs that get operands wait no more. -/
theorem Biding.sealBlock (h : Biding s) (o : Options) (b : Nat) :
    Leaves (Builder.sealBlock o b) s AllBare := by
  refine Ends.get_bind ?_
  split
  · exact .pure h.allBare
  · refine Ends.bind (Q := fun _ t => { s with pending := s.pending.erase b } = t)
      (.of_ok rfl rfl) ?_
    rintro _ _ rfl
    refine Ends.bind ((outlasts_freed.forM_completePhi (o := o)
      (fun x q hu => hu.readVariable o x q) (s.waitingPhis b) (fun e he => ⟨trivial, ?_⟩)
      (h.freed b)).imp (fun _ _ ht => ht) fun _ _ ht => ht.1.allBare) fun _ t ht => ?_
    · exact fun hu hrun => hu.addOperand ⟨e.1, mem_waitingPhis.mp he⟩ hrun
    · exact .of_ok rfl (ht.1.allBare.same rfl le_rfl rfl)

theorem Biding.removeTrivialPhi (h : Biding s) (p : Nat) :
    Leaves (Builder.removeTrivialPhi p) s Biding :=
  (Outlasts.removeTrivialPhi (P := Freed fun _ => False) outlasts_freed trivial
    ⟨h, fun _ => False.elim⟩).imp (fun _ _ ht => ht.1) fun _ _ ht => ht.1

end Builder

/-! ## States that are reached -/

section Reached

variable {s t : Builder} {B C : Body}

/-- The body is changed, but not the instructions. -/
theorem AllBare.changeBody {f : Body → Except Error (α × Body)} (h : AllBare s)
    (hf : ∀ {B B' a}, f B = .ok (a, B') → ∀ b, B'.code b = B.code b) :
    Leaves (Builder.changeBody f) s AllBare := by
  cases hrun : Builder.changeBody f s with
  | error e t => exact .of_error hrun (eq_of_changeBody_error hrun ▸ h)
  | ok a t =>
    obtain ⟨fn, B', hfn, hB', rfl⟩ := changeBody_eq_ok.mp hrun
    refine .of_ok hrun fun C hC => ?_
    obtain rfl : B' = C := Option.some.inj hC
    exact (h fn.body (body?_of_opened hfn)).same le_rfl (fun _ _ hl => hl) (hf hB')

theorem AllBare.append {i : Inst} (h : AllBare s) (hs : Orderly s) (hid : i.id = s.nextId)
    (hnone : i.users = []) :
    Leaves (Builder.append i) { s with nextId := s.nextId + 1 } AllBare := by
  cases hrun : Builder.append i { s with nextId := s.nextId + 1 } with
  | error e t =>
    refine .of_error hrun (eq_of_changeBody_error hrun ▸ ?_)
    exact h.same rfl (Nat.le_succ _) rfl
  | ok a t =>
    obtain ⟨fn, B', hfn, happend, rfl⟩ := append_eq_ok.mp hrun
    refine .of_ok hrun fun C hC => ?_
    obtain rfl : B' = C := Option.some.inj hC
    have hB := body?_of_opened (s := s) hfn
    exact (h fn.body hB).append (hs.1 _ hB) hid hnone happend rfl rfl

/-- Reads, sealed blocks and removals do nothing where no function is open. -/
theorem AllBare.leaves {m : Build α} (h : AllBare s) (hs : Orderly s)
    (hclosed : Closed s → Leaves m s Closed) (hbiding : Biding s → Leaves m s AllBare) :
    Leaves m s AllBare := by
  cases hfn : s.opened with
  | none => exact (hclosed hfn).imp (fun _ _ => .of_closed) fun _ _ => .of_closed
  | some fn => exact hbiding (h.biding hs (body?_of_opened hfn))

theorem allBare_begin (h : AllBare s) (name : String) : Leaves (beginFunction name) s AllBare := by
  cases hfn : s.opened with
  | none =>
    obtain ⟨entry, s', hrun⟩ := exists_beginFunction hfn name
    obtain ⟨_, B, hsound, _, _, hcode, _, _, hs'⟩ := Sound.begin hrun
    have hwaits : ∀ {x b p}, ¬ s'.Waits x b p := by
      rintro x b p ⟨l, hl, _⟩
      rw [hs'] at hl
      cases hl
    have hnone : ∀ {d : Nat} {j : Inst}, j ∉ B.code d := fun hj => List.not_mem_nil (hcode _ ▸ hj)
    refine .of_ok hrun fun C hC => ?_
    obtain rfl := Option.some.inj (hsound.coded.body.symm.trans hC)
    refine ⟨fun _ _ _ hw => (hwaits hw).elim, fun _ _ _ _ _ hw => (hwaits hw).elim,
      fun b l hl => ?_, fun _ _ hj => (hnone hj).elim, fun _ _ _ hw => (hwaits hw).elim⟩
    rw [hs'] at hl
    cases hl
  | some fn =>
    refine Ends.get_bind ?_
    rw [hfn]
    exact .of_error rfl h

/-- **What waits is bare**, whatever calls are made. -/
theorem allBare_keptByCalls (o : Options) : KeptByCalls o fun s => Orderly s ∧ AllBare s where
  new := ⟨(orderly_keptByCalls o).new, .of_closed rfl⟩
  draw h := ⟨(orderly_keptByCalls o).draw h.1, h.2.same rfl (Nat.le_succ _) rfl⟩
  compiled u h := ⟨(orderly_keptByCalls o).compiled u h.1, h.2.same rfl le_rfl rfl⟩
  current b h := ⟨(orderly_keptByCalls o).current b h.1, h.2.same rfl le_rfl rfl⟩
  publish x hv h := ⟨(orderly_keptByCalls o).publish x hv h.1, h.2.same rfl le_rfl rfl⟩
  write k v h := ⟨(orderly_keptByCalls o).write k v h.1, h.2.same rfl le_rfl rfl⟩
  begin name h := ((orderly_keptByCalls o).begin name h.1).and (allBare_begin h.2 name)
  finish h := ((orderly_keptByCalls o).finish h.1).and
    ((endFunction_closed _).imp (fun _ _ => .of_closed) fun _ _ => .of_closed)
  createBlock h := ((orderly_keptByCalls o).createBlock h.1).and
    (h.2.changeBody fun hrun b => by
      cases hrun
      exact Body.code_createBlock _ _ b)
  addEdge p q h := ((orderly_keptByCalls o).addEdge p q h.1).and (by
    rw [addEdge_eq_changeBody]
    exact h.2.changeBody fun hrun => (Body.addEdge_ok (changed_eq_ok.mp hrun)).2.2.2.1)
  argument v h := ((orderly_keptByCalls o).argument v h.1).and
    (h.2.changeBody fun hrun _ => by
      cases hrun
      rfl)
  append i hid hnone h := ((orderly_keptByCalls o).append i hid hnone h.1).and
    (h.2.append h.1 hid hnone)
  read x b h := ((orderly_keptByCalls o).read x b h.1).and (h.2.leaves h.1
    (fun hclosed => Ends.get_bind (hclosed.readFrom x _ b))
    fun hb => (hb.readVariable o x b).imp (fun _ _ ht => ht.allBare) fun _ _ ht => ht.allBare)
  sealBlock b h := ((orderly_keptByCalls o).sealBlock b h.1).and (h.2.leaves h.1
    (fun hclosed => hclosed.sealBlock b) fun hb => hb.sealBlock o b)
  remove p h := ((orderly_keptByCalls o).remove p h.1).and (h.2.leaves h.1
    (fun hclosed => hclosed.getBody_bind)
    fun hb => (hb.removeTrivialPhi p).imp (fun _ _ ht => ht.allBare) fun _ _ ht => ht.allBare)

/-- What waits in a function under construction, in every state that is reached. -/
theorem Reached.biding (h : Reached c s) (hB : s.body? = some B) :
    Coded s B ∧ s.Guarded ∧ Unfilled s B := by
  obtain ⟨hs, hbare⟩ := (allBare_keptByCalls c.options).reached h
  exact ⟨hs.1 B hB, (hs.2 B hB).2, hbare B hB⟩

end Reached

end Compiler16.Ssa
