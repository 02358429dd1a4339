import Compiler16.Proofs.Changes

/-!
# Reads are made of changes

Removals, reads and the sealing of blocks come about by changes of a few kinds, and this module
shows which instructions and definitions they are about.  While a PHI gets its operands, the reads
touch only what they bring in themselves, so the PHI stays what it is until all operands are there.
PHIs that wait are used by nothing, so removals do not come to them.

## Main definitions

* `Undefined`, `UndefinedBeside`: what a read, and the sealing of a block, may define
* `Taken`: the PHIs of a block that is being sealed

## Main results

* `Coded.removeTrivialPhi_changes`: a removal is made of changes
* `Coded.readVariable_changes`: so is a read, and its answer is a definition from then on
* `Coded.sealBlock_changes`: so is the sealing of a block
-/

namespace Compiler16.Ssa

open Compiler16.Flow

namespace Builder

variable {wild : Prop} {K : Nat → Prop} {D : Nat × Nat → Prop} {s t u : Builder} {B C : Body}
  {i : Inst} {x b p q : Nat} {v : Value}

/-! ## Removals -/

theorem Cascade.pending (h : Cascade K s t) : t.pending = s.pending := by
  induction h with
  | refl => rfl
  | tail _ hstep ih =>
    obtain ⟨_, _, _, _, hgives⟩ := hstep
    exact hgives.pending.trans ih

/-- A cascade is made of changes. -/
theorem Cascade.changes (h : Cascade (fun q => K q ∧ (wild ∨ s.Idle q)) s t) :
    Changes wild K D s t := by
  induction h with
  | refl => exact .refl
  | @tail u t hrest hstep ih =>
    have hrest : Cascade (fun q => K q ∧ (wild ∨ s.Idle q)) s u := hrest
    obtain ⟨i, v, B, ⟨hK, hidle⟩, hgives⟩ := hstep
    refine ih.tail (.givesWay hK (hidle.imp_right fun hidle x b hw => ?_) hgives)
    exact hidle x b ((waits_of_pending hrest.pending).mp hw)

/-- An attempt to remove a PHI that merges two values. -/
theorem Coded.collapse_of_mergesTwo (h : Coded s B) (hi : i ∈ B.code b) (hop : i.op = .phi)
    (htwo : i.MergesTwo) : Builder.collapse i.id s = .ok (.result i.id, []) s := by
  have hinst : B.inst? i.id = some i := h.indexed.inst?_eq_some_iff.mpr ⟨b, hi, rfl⟩
  have hphi : i.isPhi = true := by simp [Inst.isPhi, hop]
  refine bind_eq_ok.mpr ⟨B, s, h.getBody, ?_⟩
  simp only [hinst, hphi, Inst.mergesTwo_iff.mp htwo, Bool.not_true, Bool.false_eq_true, if_false]
  rfl

/-- An attempt to remove a PHI answers with the PHI itself, unless it gives way. -/
theorem Coded.collapse_of_isPhi (h : Coded s B) (hphi : s.isPhi p = true) {us : List Nat}
    (hcol : Builder.collapse p s = .ok (v, us) t) :
    t = s ∧ v = .result p ∨ ∃ i, i.id = p ∧ GivesWay i v s B t := by
  obtain ⟨rfl, rfl, _⟩ | ⟨i, hi, _, hgives⟩ := h.collapse_givesWay hcol
  · obtain ⟨b, i, hi, rfl, hop⟩ := h.isPhi_iff.mp hphi
    have htwo := h.mergesTwo_of_collapse hcol hi hop
    cases hcol.symm.trans (h.collapse_of_mergesTwo hi hop htwo)
    exact Or.inl ⟨rfl, rfl⟩
  · exact Or.inr ⟨i, hi, hgives⟩

/-- The users of a PHI are among all instructions. -/
theorem Sticky.all : Sticky (fun _ => True) B := fun _ _ _ _ _ _ _ _ _ _ => trivial

/-- A removal is made of changes. -/
theorem Coded.removeTrivialPhi_changes (h : Coded s B) (ha : wild ∨ Aside s B) (hK : Sticky K B)
    (hp : K p) (hphi : wild ∨ s.isPhi p = true ∧ s.Idle p) :
    ∃ v t, Builder.removeTrivialPhi p s = .ok v t ∧ Changes wild K D s t ∧
      (wild ∨ v.Below t.nextId) := by
  -- PHIs that wait are used by nothing, so the cascade does not come to them
  have hsticky : Sticky (fun q => K q ∧ (wild ∨ s.Idle q)) B := by
    intro b c k hk l hl hkop hKk hlop huser
    refine ⟨hK b c k hk l hl hkop hKk.1 hlop huser, ha.imp_right fun ha x d hw => ?_⟩
    exact ha.waits_users x d l.id hw b k hk huser
  obtain ⟨v, us, s₁, t, C, hrun, hC, hcol, hfirst, hrest⟩ :=
    h.removeTrivialPhi_cascade hsticky ⟨hp, hphi.imp_right And.right⟩
  refine ⟨v, t, hrun, Cascade.changes (hfirst.trans hrest), ?_⟩
  by_cases hw : wild
  · exact Or.inl hw
  refine Or.inr (Value.Below.mono (n := s.nextId) ?_ hC.steady.nextId)
  have hphi := (hphi.resolve_left hw).1
  obtain ⟨_, rfl⟩ | ⟨i, rfl, hgives⟩ := h.collapse_of_isPhi hphi hcol
  · exact fun _ heq => Value.result.inj heq ▸ h.lt_of_isPhi hphi
  · exact (ha.resolve_left hw).below_of_givesWay hgives

/-- An operand does not make something else of a PHI. -/
theorem Coded.isPhi_of_addOperand (h : Coded s B)
    (hrun : Builder.changeBody (fun body => .ok ((), (body.addOperand p v).2)) s = .ok () t)
    (hq : s.isPhi q = true) : t.isPhi q = true := by
  obtain ⟨_, hrun', ht⟩ := h.addOperand p v
  cases hrun'.symm.trans hrun
  obtain ⟨f, hf, hcode⟩ := h.indexed.code_addOperand p v
  obtain ⟨c, j, hj, rfl, hop⟩ := h.isPhi_iff.mp hq
  refine ht.coded.isPhi_iff.mpr ⟨c, f j, ?_, (hf j).1, (hf j).2.1.trans hop⟩
  rw [hcode]
  exact List.mem_map_of_mem hj

/-! ## Reads -/

/-- What a read of the variable may define. -/
def Undefined (s : Builder) (x : Nat) (k : Nat × Nat) : Prop := k.1 = x ∧ s.defs.get? k = none

/-- A PHI is completed by changes, if the reads are made of changes that only touch what is new. -/
theorem Coded.completePhi_changes {o : Options} {read : Nat → Build Value} (h : Coded s B)
    (ha : wild ∨ Aside s B) (hK : Sticky K B) (hnew : ∀ q, s.nextId ≤ q → K q) (hp : K p)
    (hphi : wild ∨ s.isPhi p = true ∧ s.Idle p)
    (hread : ∀ {t C} q, Changes wild K D s t → Coded t C → (wild ∨ Aside t C) →
      Ends (read q) t
        (fun v u => Changes wild (t.nextId ≤ ·) D t u ∧ ∃ k, u.defs.get? k = some v)
        fun _ u => Changes wild (t.nextId ≤ ·) D t u) :
    Ends (completePhi o read p) s
      (fun v t => Changes wild K D s t ∧ (wild ∨ v.Below t.nextId))
      fun _ t => Changes wild K D s t := by
  have hloop := Ends.forM (f := fillRound read p)
    (I := fun _ u => Changes wild K D s u ∧ (wild ∨ u.isPhi p = true ∧ u.Idle p))
    (E := fun _ u => Changes wild K D s u) ?_ (mergedBlocks B p) s ⟨.refl, hphi⟩
  · refine h.getBody_bind (hloop.bind ?_)
    rintro _ t ⟨ht, hphi⟩
    obtain ⟨C, hC⟩ := Changes.follows ht h
    split
    · obtain ⟨v, t', hrun, ht', hv⟩ := hC.coded.removeTrivialPhi_changes (D := D)
        (Changes.aside ht h ha hC.coded) (Changes.sticky ht h hK hnew hC.coded) hp hphi
      exact .of_ok hrun ⟨ht.trans ht', hv⟩
    · refine .pure ⟨ht, hphi.imp_right fun hphi i hi => ?_⟩
      exact Value.result.inj hi ▸ hC.coded.lt_of_isPhi hphi.1
  · rintro q l u ⟨hu, hphi⟩
    obtain ⟨C, hC⟩ := Changes.follows hu h
    have hau := Changes.aside hu h ha hC.coded
    have hmono : ∀ {t}, Changes wild (u.nextId ≤ ·) D u t → Changes wild K D s t := fun ht =>
      hu.trans (ht.mono id (fun q hq => hnew q (hC.steady.nextId.trans hq)) fun _ hk => hk)
    refine ((hread q hu hC.coded hau).imp (fun _ _ hv => hv) fun _ _ => hmono).bind ?_
    rintro v t ⟨ht, k, hk⟩
    obtain ⟨E, hE⟩ := Changes.follows ht hC.coded
    -- the read has nothing to do with this PHI
    have hphi' : wild ∨ t.isPhi p = true ∧ t.Idle p := by
      refine hphi.imp_right fun hphi => ⟨?_, fun x b hw => ?_⟩
      · exact ht.isPhi_of_not hC.coded (not_le.mpr (hC.coded.lt_of_isPhi hphi.1)) hphi.1
      · rcases ht.waits hC.coded hw with hw | ⟨_, hle⟩
        · exact hphi.2 x b hw
        · exact absurd (hC.coded.lt_of_isPhi hphi.1) (not_lt.mpr hle)
    have hv : wild ∨ v.Below t.nextId :=
      (Changes.aside ht hC.coded hau hE.coded).imp_right fun hat => hat.defs_below k v hk
    obtain ⟨u', hrun, _⟩ := hE.coded.addOperand p v
    have hstep : Change wild K D t u' := by
      refine .operand hp ?_ hrun
      rcases hphi' with hw | hphi'
      · exact Or.inl hw
      · exact hv.imp_right fun hv => ⟨hphi'.1, hphi'.2, hv⟩
    refine .of_ok hrun ⟨(hmono ht).tail hstep, hphi'.imp_right fun hphi' => ⟨?_, ?_⟩⟩
    · exact hE.coded.isPhi_of_addOperand hrun hphi'.1
    · obtain ⟨fn, _, _, _, rfl⟩ := changeBody_eq_ok.mp hrun
      exact hphi'.2

/-- **A read is made of changes.**  It touches only what is new, and defines the variable only where
it was undefined.  The answer is the definition in the block from then on. -/
theorem Coded.readFrom_changes (o : Options) (x depth : Nat) :
    ∀ {s : Builder} {B : Body} {b : Nat}, Coded s B → (wild ∨ Aside s B) →
      Ends (Builder.readFrom o x depth b) s
        (fun v t => Changes wild (s.nextId ≤ ·) (Undefined s x) s t ∧
          t.defs.get? (x, b) = some v)
        fun _ t => Changes wild (s.nextId ≤ ·) (Undefined s x) s t := by
  induction depth with
  | zero => exact fun _ _ => .of_error rfl .refl
  | succ depth ih =>
    intro s B b h ha
    refine Ends.get_bind ?_
    cases hdefs : s.defs.get? (x, b) with
    | some v => exact .pure ⟨.refl, hdefs⟩
    | none =>
      have hD : Undefined s x (x, b) := ⟨rfl, hdefs⟩
      -- whatever is found is remembered in the end
      have hremember : ∀ {v t}, Changes wild (s.nextId ≤ ·) (Undefined s x) s t →
          (wild ∨ v.Below t.nextId) → Ends (do writeVariable x b v; return v) t
            (fun v t => Changes wild (s.nextId ≤ ·) (Undefined s x) s t ∧
              t.defs.get? (x, b) = some v)
            fun _ t => Changes wild (s.nextId ≤ ·) (Undefined s x) s t := by
        intro v t ht hv
        refine .of_ok rfl ⟨ht.tail (.define hD hv), ?_⟩
        exact (OrderedMap.get?_insert ..).trans (if_pos rfl)
      have hnewPhi : Ends (Builder.newPhi b) s (fun p t => Builder.newPhi b s = .ok p t)
          fun _ t => Changes wild (s.nextId ≤ ·) (Undefined s x) s t :=
        (h.newPhi_ends b).imp (fun _ _ hnew => hnew) fun _ t ht => ht ▸ .single .draw
      dsimp only
      cases hsealed : s.isSealed b with
      | false =>
        simp only [Bool.false_eq_true, if_false]
        refine hnewPhi.bind fun p t hnew => ?_
        refine .of_ok rfl ⟨.single (.wait hD hsealed hdefs hnew), ?_⟩
        exact (OrderedMap.get?_insert ..).trans (if_pos rfl)
      | true =>
        simp only [if_true]
        refine h.getBody_bind ?_
        rcases B.graph.predecessors b with _ | ⟨q, _ | ⟨q', rest⟩⟩
        · refine Ends.bind (Q := fun v t => s.globalValue x = v ∧ s = t) (.pure ⟨rfl, rfl⟩) ?_
          rintro _ _ ⟨rfl, rfl⟩
          exact hremember .refl (ha.imp_right fun ha => ha.globalValue_below x)
        · refine (ih h ha).bind ?_
          rintro v t ⟨ht, hv⟩
          obtain ⟨C, hC⟩ := ht.follows h
          exact hremember ht ((ht.aside h ha hC.coded).imp_right fun hat => hat.defs_below _ v hv)
        · refine hnewPhi.bind fun p t hnew => ?_
          have hphi := isPhi_newPhi h hnew
          obtain ⟨hp, hnext, hpending⟩ : p = s.nextId ∧ t.nextId = s.nextId + 1 ∧
              t.pending = s.pending := by
            obtain ⟨rfl, fn, B', _, _, rfl⟩ := newPhi_eq_ok.mp hnew
            exact ⟨rfl, rfl, rfl⟩
          have hlt : p < t.nextId := by omega
          -- the PHI is a definition from now on, and not one that waits
          have hself : wild ∨ (Value.result p).Below t.nextId :=
            Or.inr fun i hi => Value.result.inj hi ▸ hlt
          have hidle : wild ∨ t.Idle p := ha.imp_right fun ha y c hw =>
            absurd (ha.waits_lt y c p ((waits_of_pending hpending).mp hw)) (by omega)
          have hstart : Changes wild (s.nextId ≤ ·) (Undefined s x) s
              { t with defs := t.defs.insert (x, b) (.result p) } :=
            (Relation.ReflTransGen.single (.phi hnew)).tail (.define hD hself)
          obtain ⟨C, hC⟩ := hstart.follows h
          -- none of the PHIs of before is new
          have hsticky : Sticky (s.nextId ≤ ·) B := fun c _ i hi _ _ _ hle =>
            absurd (h.bound c i hi) (not_lt.mpr hle)
          refine Ends.bind (Q := fun _ u => { t with defs := t.defs.insert (x, b) (.result p) } = u)
            (.of_ok rfl rfl) ?_
          rintro _ _ rfl
          refine Ends.bind (Q := fun v u => Changes wild (s.nextId ≤ ·) (Undefined s x) s u ∧
            (wild ∨ v.Below u.nextId)) ((hC.coded.completePhi_changes (K := (s.nextId ≤ ·))
            (D := Undefined s x) (hstart.aside h ha hC.coded)
            (hstart.sticky h hsticky (fun _ hq => hq) hC.coded)
            (fun q hq => hC.steady.nextId.trans hq) hp.ge
            (hidle.imp_right fun hidle => ⟨hphi, hidle⟩) ?_).imp
            (fun _ _ hu => ⟨hstart.trans hu.1, hu.2⟩) fun _ _ hu => hstart.trans hu) ?_
          · intro u E q hu hE hau
            obtain ⟨E', hE'⟩ := Changes.follows (hstart.trans hu) h
            have hmono : ∀ k, Undefined u x k → Undefined s x k :=
              fun k hk => ⟨hk.1, hE'.steady.none_of_none hk.2⟩
            exact (ih hE hau).imp
              (fun v u' hv => ⟨hv.1.mono id (fun _ hq => hq) hmono, _, hv.2⟩)
              fun _ u' hu' => hu'.mono id (fun _ hq => hq) hmono
          · rintro v u ⟨hu, hv⟩
            exact hremember hu hv

theorem Coded.readVariable_changes (o : Options) (h : Coded s B) (ha : wild ∨ Aside s B)
    (x b : Nat) :
    Ends (Builder.readVariable o x b) s
      (fun v t => Changes wild (s.nextId ≤ ·) (Undefined s x) s t ∧ t.defs.get? (x, b) = some v)
      fun _ t => Changes wild (s.nextId ≤ ·) (Undefined s x) s t :=
  Ends.get_bind (h.readFrom_changes o x s.readDepth ha)

/-! ## Sealing -/

theorem Coded.erase (h : Coded s B) (b : Nat) : Coded { s with pending := s.pending.erase b } B :=
  ⟨h.body, h.indexed, h.bound⟩

theorem Guarded.erase (h : s.Guarded) (b : Nat) :
    Guarded { s with pending := s.pending.erase b } :=
  fun x c p hw => h x c p (waits_erase.mp hw).2

theorem Aside.erase (h : Aside s B) (b : Nat) :
    Aside { s with pending := s.pending.erase b } B where
  guarded := h.guarded.erase b
  users_lt := h.users_lt
  waits_lt x c p hw := h.waits_lt x c p (waits_erase.mp hw).2
  waits_phi x c p hw := h.waits_phi x c p (waits_erase.mp hw).2
  waits_users x c p hw := h.waits_users x c p (waits_erase.mp hw).2
  waits_once x c y d p hx hy := h.waits_once x c y d p (waits_erase.mp hx).2 (waits_erase.mp hy).2
  waits_nodup c l hl := by
    rw [OrderedMap.get?_erase] at hl
    split at hl
    · cases hl
    · exact h.waits_nodup c l hl
  defs_below := h.defs_below
  globals_below := h.globals_below
  operands_below := h.operands_below

/-- The PHIs of a block that is being sealed wait no more, and nothing uses them yet. -/
structure Taken (s : Builder) (B : Body) (l : List (Nat × Nat)) : Prop where
  nodup : (l.map Prod.snd).Nodup
  phi : ∀ e ∈ l, s.isPhi e.2 = true
  idle : ∀ e ∈ l, s.Idle e.2
  users : ∀ e ∈ l, ∀ c, ∀ j ∈ B.code c, e.2 ∉ j.users

theorem Aside.taken (h : Aside s B) (b : Nat) :
    Taken { s with pending := s.pending.erase b } B (s.waitingPhis b) where
  nodup := by
    have hnodup : (s.waitingPhis b).Nodup := by
      unfold waitingPhis
      cases hl : s.pending.get? b with
      | none => exact List.nodup_nil
      | some l => exact h.waits_nodup b l hl
    refine hnodup.map_on ?_
    rintro ⟨x, p⟩ hx ⟨y, _⟩ hy rfl
    rw [(h.waits_once x b y b p (mem_waitingPhis.mp hx) (mem_waitingPhis.mp hy)).1]
  phi e he := h.waits_phi e.1 b e.2 (mem_waitingPhis.mp he)
  idle := by
    rintro ⟨x, p⟩ he y c hw
    obtain ⟨hcb, hw⟩ := waits_erase.mp hw
    exact hcb (h.waits_once x b y c p (mem_waitingPhis.mp he) hw).2.symm
  users e he := h.waits_users e.1 b e.2 (mem_waitingPhis.mp he)

/-- What changes may not touch is still taken. -/
theorem Taken.changes {l : List (Nat × Nat)} (h : Taken s B l) (hs : Coded s B)
    (hchanges : Changes wild K D s t) (hK : ∀ e ∈ l, ¬ K e.2) (ht : Coded t C) : Taken t C l where
  nodup := h.nodup
  phi e he := hchanges.isPhi_of_not hs (hK e he) (h.phi e he)
  idle e he x b hw := by
    rcases hchanges.waits hs hw with hw | ⟨_, hle⟩
    · exact h.idle e he x b hw
    · exact absurd (hs.lt_of_isPhi (h.phi e he)) (not_lt.mpr hle)
  users e he := hchanges.not_mem_users hs (hK e he) (h.users e he) ht

/-- What the sealing of a block may define. -/
def UndefinedBeside (s : Builder) (b : Nat) (k : Nat × Nat) : Prop :=
  k.2 ≠ b ∧ s.defs.get? k = none

/-- **The sealing of a block is made of changes**, once its PHIs have been taken from the waiting
ones.  It defines nothing in the block. -/
theorem Coded.sealBlock_changes (o : Options) (h : Coded s B) (hg : s.Guarded)
    (ha : wild ∨ Aside s B) (hopen : s.isSealed b = false) :
    Ends (Builder.sealBlock o b) s
      (fun _ u => ∃ t, Changes wild (fun _ => True) (UndefinedBeside s b)
        { s with pending := s.pending.erase b } t ∧
        u = { t with sealedBlocks := t.sealedBlocks ++ [b] })
      fun _ t => Changes wild (fun _ => True) (UndefinedBeside s b)
        { s with pending := s.pending.erase b } t := by
  let s₀ : Builder := { s with pending := s.pending.erase b }
  have h₀ : Coded s₀ B := h.erase b
  refine Ends.get_bind ?_
  rw [hopen, if_neg Bool.false_ne_true]
  refine Ends.bind (Q := fun _ t => s₀ = t) (.of_ok rfl rfl) ?_
  rintro _ _ rfl
  refine Ends.bind (Ends.forM (I := fun l u => (∀ e ∈ l, e ∈ s.waitingPhis b) ∧
    Changes wild (fun _ => True) (UndefinedBeside s b) s₀ u ∧
    ∃ C, Follows s₀ B u C ∧ (wild ∨ Aside u C ∧ Taken u C l)) ?_ _ s₀ ?_) ?_
  · rintro ⟨x, p⟩ l u ⟨hl, hu, C, hC, hau⟩
    -- the PHIs that are still to come are used by nothing, so no removal comes to them
    let K : Nat → Prop := fun q => wild ∨ q ∉ l.map Prod.snd
    have hrest : ∀ e ∈ l, e ∈ (x, p) :: l := fun e he => List.mem_cons_of_mem _ he
    have hsticky : Sticky K C := by
      intro c d i hi j hj _ _ _ huser
      refine hau.imp_right fun hau hmem => ?_
      obtain ⟨e, he, heq⟩ := List.mem_map.mp hmem
      exact hau.2.users e (hrest e he) c i hi (heq ▸ huser)
    have hnew : ∀ q, u.nextId ≤ q → K q := by
      intro q hq
      refine hau.imp_right fun hau hmem => ?_
      obtain ⟨e, he, rfl⟩ := List.mem_map.mp hmem
      exact absurd (hC.coded.lt_of_isPhi (hau.2.phi e (hrest e he))) (not_lt.mpr hq)
    have hp : K p := hau.imp_right fun hau => (List.nodup_cons.mp hau.2.nodup).1
    have hphi : wild ∨ u.isPhi p = true ∧ u.Idle p := hau.imp_right fun hau =>
      ⟨hau.2.phi _ List.mem_cons_self, hau.2.idle _ List.mem_cons_self⟩
    obtain ⟨_, a, hdef⟩ := hg x b p (mem_waitingPhis.mp (hl _ List.mem_cons_self))
    have hall : ∀ {t}, Changes wild K (UndefinedBeside s b) u t →
        Changes wild (fun _ => True) (UndefinedBeside s b) s₀ t :=
      fun ht => hu.trans (ht.mono id (fun _ _ => trivial) fun _ hk => hk)
    refine Ends.bind (Q := fun _ t => Changes wild K (UndefinedBeside s b) u t)
      ((hC.coded.completePhi_changes (hau.imp_right And.left) hsticky hnew hp hphi ?_).imp
        (fun _ _ ht => ht.1) fun _ _ => hall) ?_
    · -- the variable has a definition in the block, so the reads define it elsewhere
      intro t E q ht hE hat
      have hmono : ∀ k, Undefined t x k → UndefinedBeside s b k := by
        rintro ⟨y, c⟩ ⟨rfl, hk⟩
        obtain ⟨E', hE'⟩ := Changes.follows ht hC.coded
        have hsteady := hC.steady.trans hE'.steady
        refine ⟨?_, hsteady.none_of_none hk⟩
        rintro rfl
        obtain ⟨a', ha'⟩ := hsteady.defs _ a hdef
        exact absurd (hk.symm.trans ha') (by simp)
      exact (hE.readVariable_changes o hat x q).imp
        (fun v w hv => ⟨hv.1.mono id (fun _ hq => hq) hmono, _, hv.2⟩)
        fun _ w hw => hw.mono id (fun _ hq => hq) hmono
    · intro _ t ht
      obtain ⟨E, hE⟩ := Changes.follows ht hC.coded
      refine .pure ⟨fun e he => hl e (hrest e he), hall ht, E, hC.trans hE, ?_⟩
      by_cases hw : wild
      · exact Or.inl hw
      have hau := hau.resolve_left hw
      have htaken : Taken u C l := ⟨(List.nodup_cons.mp hau.2.nodup).2,
        fun e he => hau.2.phi e (hrest e he), fun e he => hau.2.idle e (hrest e he),
        fun e he => hau.2.users e (hrest e he)⟩
      refine Or.inr ⟨(ht.aside hC.coded (Or.inr hau.1) hE.coded).resolve_left hw,
        htaken.changes hC.coded ht (fun e he hKe => ?_) hE.coded⟩
      exact hKe.resolve_left hw (List.mem_map_of_mem he)
  · exact ⟨fun e he => he, .refl, B, h₀.refl, ha.imp_right fun ha => ⟨ha.erase b, ha.taken b⟩⟩
  · rintro _ t ⟨_, ht, _⟩
    exact .of_ok rfl ⟨t, ht, rfl⟩

end Builder

end Compiler16.Ssa
