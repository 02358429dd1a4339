import Compiler16.Proofs.Commuting
import Compiler16.Proofs.WaitingPhis

/-!
# PHIs that are removed while they wait

A PHI that waits may be removed by hand before its block is sealed.  It has no operands then, so it
merges nothing: it becomes a copy of the unknown value, and everything that used it uses that value.
But it goes on waiting, and when its block is sealed, the operands that were meant for the PHI are
added to the copy.

So it makes a difference whether the PHI is tried too early, whatever else is done before the block
is sealed.  Without the attempt, the sealed block has a PHI with one operand for each predecessor,
or a copy of a single value.  With the attempt, it has a copy with one operand too many, and the
variable is unknown.

## Main definitions

* `Row`: what operation and operands an instruction has
* `Undisturbed`: a PHI goes on waiting as before
* `Operation.Defers`: an operation that neither seals the block nor tries the PHI

## Main results

* `Row.change`, `Row.sealBlock`: what becomes of an instruction by one change, and of one that waits
  when its block is sealed
* `undisturbed_exec`, `undisturbed_ops`: what operations do to a PHI that waits
* `removal_before_seal`: a PHI is tried before its block is sealed, or is not
-/

namespace Compiler16.Ssa

open Compiler16.Source Compiler16.Flow Compiler16.Ssa.Builder

variable {α : Type} {c : Context} {o : Options}

namespace Builder

variable {wild : Prop} {K : Nat → Prop} {D : Nat × Nat → Prop} {R R' : Op → List Value → Prop}
  {s t u : Builder} {B C : Body} {i : Inst} {k : Nat × Nat} {x y b p q : Nat} {v : Value}

/-! ## Single instructions -/

/-- The instruction `p` of the block has an operation and operands as `R` says. -/
def Row (b p : Nat) (R : Op → List Value → Prop) (s : Builder) : Prop :=
  ∃ B, Coded s B ∧ ∃ i ∈ B.code b, i.id = p ∧ R i.op i.operands

/-- It does not matter which results are among the operands. -/
def Blind (R : Op → List Value → Prop) : Prop :=
  ∀ op l (g : Value → Value), g .unknown = .unknown → R op l → R op (l.map g)

theorem Row.lt (h : Row b p R s) : p < s.nextId := by
  obtain ⟨B, hB, i, hi, rfl, _⟩ := h
  exact hB.bound b i hi

theorem Row.imp (h : Row b p R s) (hR : ∀ op l, R op l → R' op l) : Row b p R' s := by
  obtain ⟨B, hB, i, hi, hid, hrow⟩ := h
  exact ⟨B, hB, i, hi, hid, hR _ _ hrow⟩

/-- The instruction gets an operand. -/
theorem Row.addOperand_self (h : Row b p R s)
    (hR : ∀ op l, R op l → R' op (l ++ [v]))
    (hrun : Builder.changeBody (fun body => .ok ((), (body.addOperand p v).2)) s = .ok () t) :
    Row b p R' t := by
  obtain ⟨B, hB, i, hi, rfl, hrow⟩ := h
  obtain ⟨j, hj, hid, hop, hoperands⟩ := hB.addOperand_becomes hi i.id v
  rw [if_pos rfl] at hoperands
  refine ⟨_, (hB.addOperand_eq hrun).1.coded, j, hj, hid, ?_⟩
  rw [hop, hoperands]
  exact hR _ _ hrow

/-- Another instruction gets an operand. -/
theorem Row.addOperand_of_ne (h : Row b p R s) (hqp : q ≠ p)
    (hrun : Builder.changeBody (fun body => .ok ((), (body.addOperand q v).2)) s = .ok () t) :
    Row b p R t := by
  obtain ⟨B, hB, i, hi, rfl, hrow⟩ := h
  obtain ⟨j, hj, hid, hop, hoperands⟩ := hB.addOperand_becomes hi q v
  rw [if_neg hqp.symm] at hoperands
  refine ⟨_, (hB.addOperand_eq hrun).1.coded, j, hj, hid, ?_⟩
  rwa [hop, hoperands]

/-- A PHI gives way, and it may be the instruction itself. -/
theorem Row.givesWay (h : Row b p R s) (hR : Blind R)
    (hself : i.id = p → ∀ l, R .phi l → R .mov [v]) (hgives : GivesWay i v s B t) :
    Row b p R t := by
  obtain ⟨C, hC, j, hj, rfl, hrow⟩ := h
  obtain rfl := hgives.before.body_unique hC
  obtain ⟨l, hl, hid, ⟨rfl, hop, hoperands⟩ | ⟨_, hstays⟩⟩ := hgives.becomes hj
  · refine ⟨_, hgives.after, l, hl, hid, ?_⟩
    rw [hop, hoperands]
    exact hself rfl _ (hgives.phi ▸ hrow)
  · obtain ⟨g, hg, hoperands⟩ := hstays.operands
    refine ⟨_, hgives.after, l, hl, hid, ?_⟩
    rw [hstays.op, hoperands]
    exact hR _ _ g hg hrow

/-- A change of other instructions. -/
theorem Row.change (h : Row b p R s) (hR : Blind R) (hK : ¬ K p) (hstep : Change wild K D s t) :
    Row b p R t := by
  obtain ⟨B, hB, i, hi, hid, hrow⟩ := id h
  obtain ⟨C, hC⟩ := hstep.follows hB
  -- a PHI that comes in is another instruction
  have hnewPhi : ∀ {d q u}, Builder.newPhi d s = .ok q u → u.body? = t.body? → Row b p R t := by
    intro d q u hnew hbody
    have hf : Alters True (fun _ => True) s B C fun i => i :=
      alters_newPhi hB hnew (hbody.trans hC.coded.body)
    exact ⟨C, hC.coded, i, hf.image b i hi, hid, hrow⟩
  have hsame : t.body? = s.body? → Row b p R t := by
    intro hbody
    obtain rfl := Option.some.inj (hB.body.symm.trans (hbody.symm.trans hC.coded.body))
    exact ⟨B, hC.coded, i, hi, hid, hrow⟩
  cases hstep with
  | draw => exact hsame rfl
  | phi hnew => exact hnewPhi hnew rfl
  | wait _ _ _ hnew => exact hnewPhi hnew rfl
  | define => exact hsame rfl
  | operand hKq _ hrun => exact h.addOperand_of_ne (fun hqp => hK (hqp ▸ hKq)) hrun
  | givesWay hKq _ hgives => exact h.givesWay hR (fun hqp => absurd (hqp ▸ hKq) hK) hgives

theorem Row.changes (h : Row b p R s) (hR : Blind R) (hK : ¬ K p)
    (hchanges : Changes wild K D s t) : Row b p R t := by
  induction hchanges with
  | refl => exact h
  | tail _ hstep ih => exact ih.change hR hK hstep

/-- A read has to do with new instructions only. -/
theorem Row.readVariable (h : Row b p R s) (hR : Blind R) (o : Options) (x q : Nat) :
    Leaves (Builder.readVariable o x q) s (Row b p R) := by
  obtain ⟨B, hB, _⟩ := id h
  have hnew : ¬ s.nextId ≤ p := not_le.mpr h.lt
  exact (hB.readVariable_changes o (Or.inl trivial) x q).imp
    (fun _ _ ht => h.changes hR hnew ht.1) fun _ _ ht => h.changes hR hnew ht

theorem outlasts_row (hR : Blind R) (hself : ∀ l v, R .phi l → R .mov [v]) :
    Outlasts (fun _ => True) (Row b p R) where
  coded h := by
    obtain ⟨B, hB, _⟩ := h
    exact ⟨B, hB⟩
  sticky _ _ := .all
  givesWay _ hgives h := h.givesWay hR (fun _ l => hself l _) hgives

/-! ## Changes within bounds -/

/-- The variable had no definition there. -/
def Unset (s : Builder) (k : Nat × Nat) : Prop := s.defs.get? k = none

theorem outlasts_changes (hs : Coded s B) (hK : Sticky K B) (hnew : ∀ q, s.nextId ≤ q → K q) :
    Outlasts K (Changes True K (Unset s) s) where
  coded h := by
    obtain ⟨C, hC⟩ := h.follows hs
    exact ⟨C, hC.coded⟩
  sticky h hC := h.sticky hs hK hnew hC
  givesWay hKi hgives h := h.tail (.givesWay hKi (Or.inl trivial) hgives)

theorem Changes.readVariable (h : Changes True K (Unset s) s t) (hs : Coded s B)
    (hnew : ∀ q, s.nextId ≤ q → K q) (o : Options) (x q : Nat) :
    Leaves (Builder.readVariable o x q) t (Changes True K (Unset s) s) := by
  obtain ⟨C, hC⟩ := h.follows hs
  have hmono : ∀ {u}, Changes True (t.nextId ≤ ·) (Undefined t x) t u →
      Changes True K (Unset s) s u := fun hu =>
    h.trans (hu.mono id (fun q hq => hnew q (hC.steady.nextId.trans hq))
      fun _ hk => hC.steady.none_of_none hk.2)
  exact (hC.coded.readVariable_changes o (Or.inl trivial) x q).imp (fun _ _ hu => hmono hu.1)
    fun _ _ => hmono

/-- PHIs of `K` are completed by changes of instructions of `K`. -/
theorem Coded.forM_completePhi_changes (hs : Coded s B) (hK : Sticky K B)
    (hnew : ∀ q, s.nextId ≤ q → K q) (o : Options) (l : List (Nat × Nat)) (hl : ∀ e ∈ l, K e.2) :
    Leaves (l.forM fun e => do
      let _ ← Builder.completePhi o (Builder.readVariable o e.1) e.2 : Build Unit) s
      (Changes True K (Unset s) s) := by
  refine (outlasts_changes hs hK hnew).forM_completePhi
    (fun x q ht => ht.readVariable hs hnew o x q) l (fun e he => ⟨hl e he, ?_⟩) .refl
  exact fun ht hrun => ht.tail (.operand (hl e he) (Or.inl trivial) hrun)

/-- What waits goes on waiting. -/
theorem Change.waits_of_waits (h : Change wild K D s t) (hs : Coded s B) (hg : s.Guarded)
    (hw : s.Waits x b p) : t.Waits x b p := by
  rcases h.pending_cases hs with hpending | ⟨y, d, _, _, hdefs, hpending, _⟩
  · exact (waits_of_pending hpending).mpr hw
  · -- a PHI of another variable is put among those that wait
    obtain ⟨l, hl, hmem⟩ := hw
    rw [Waits, hpending, OrderedMap.get?_insert]
    split
    · next hdb =>
      subst hdb
      refine ⟨_, rfl, ((insertPending_perm (hg.ne_of_waiting hdefs)).mem_iff).mpr ?_⟩
      exact List.mem_cons_of_mem _ (mem_waitingPhis.mpr ⟨l, hl, hmem⟩)
    · exact ⟨l, hl, hmem⟩

theorem Changes.waits_of_waits (h : Changes wild K D s t) (hs : Coded s B) (hg : s.Guarded)
    (hw : s.Waits x b p) : t.Waits x b p := by
  induction h with
  | refl => exact hw
  | tail hrest hstep ih =>
    obtain ⟨C, hC⟩ := Changes.follows hrest hs
    exact hstep.waits_of_waits hC.coded (Changes.guarded hrest hs hg) ih

/-- A definition is kept unless it is the result of a PHI that gives way. -/
theorem Change.get?_defs_of (h : Change wild K D s t) (hk : ¬ D k) (hv : s.defs.get? k = some v)
    (hphi : ∀ q, v = .result q → t.isPhi q = true) : t.defs.get? k = some v := by
  have hne : ∀ {l}, D l → l ≠ k := fun hD heq => hk (heq ▸ hD)
  cases h with
  | draw => exact hv
  | phi hnew =>
    obtain ⟨_, fn, B', _, _, rfl⟩ := newPhi_eq_ok.mp hnew
    exact hv
  | wait hD _ _ hnew =>
    obtain ⟨_, fn, B', _, _, rfl⟩ := newPhi_eq_ok.mp hnew
    exact (OrderedMap.get?_insert ..).trans ((if_neg (hne hD)).trans hv)
  | define hD _ => exact (OrderedMap.get?_insert ..).trans ((if_neg (hne hD)).trans hv)
  | operand _ _ hrun =>
    obtain ⟨fn, _, _, _, rfl⟩ := changeBody_eq_ok.mp hrun
    exact hv
  | givesWay _ _ hgives =>
    rw [hgives.get?_defs, hv, Option.map_some, Value.redirect_of_ne]
    exact fun hvi => (hgives.isPhi_iff.mp (hphi _ hvi)).2 rfl

theorem Changes.get?_defs_of (h : Changes wild K D s t) (hs : Coded s B) (hk : ¬ D k)
    (hv : s.defs.get? k = some v) (hphi : ∀ q, v = .result q → q < s.nextId ∧ t.isPhi q = true) :
    t.defs.get? k = some v := by
  induction h with
  | refl => exact hv
  | tail hrest hstep ih =>
    obtain ⟨C, hC⟩ := Changes.follows hrest hs
    refine hstep.get?_defs_of hk (ih fun q hq => ⟨(hphi q hq).1, ?_⟩) fun q hq => (hphi q hq).2
    -- what is a PHI after the change and has an old number was one before
    refine (hstep.isPhi_of_isPhi hC.coded (hphi q hq).2).resolve_right fun heq => ?_
    exact absurd (hphi q hq).1 (not_lt.mpr (heq ▸ hC.steady.nextId))

/-! ## The block of the PHI is sealed -/

/-- `R n` is what is known of an instruction when it has got `n` operands, and `R'` is what is known
once it has got all `m` of them and may give way. -/
structure Intake (m : Nat) (R : Nat → Op → List Value → Prop) (R' : Op → List Value → Prop) :
    Prop where
  blind : ∀ n, Blind (R n)
  add : ∀ n op l v, R n op l → R (n + 1) op (l ++ [v])
  last : ∀ op l, R m op l → R' op l
  blind_last : Blind R'
  givesWay : ∀ l v, R' .phi l → R' .mov [v]

/-- The instruction is a PHI with `n` operands, or has become a copy of one value. -/
def Merges (n : Nat) (op : Op) (l : List Value) : Prop :=
  op = .phi ∧ l.length = n ∨ op = .mov ∧ l.length = 1

/-- The instruction is a copy of the unknown value with `n` operands more. -/
def Overfull (n : Nat) (op : Op) (l : List Value) : Prop :=
  op = .mov ∧ l.head? = some .unknown ∧ l.length = n + 1

/-- A PHI gets its operands and is a PHI until then. -/
theorem intake_merges (m : Nat) : Intake m (fun n op l => op = .phi ∧ l.length = n) (Merges m) where
  blind n op l g _ h := ⟨h.1, by rw [List.length_map, h.2]⟩
  add n op l v h := ⟨h.1, by rw [List.length_append, h.2, List.length_singleton]⟩
  last op l h := Or.inl h
  blind_last op l g _ h := by rwa [Merges, List.length_map]
  givesWay l v _ := Or.inr ⟨rfl, rfl⟩

theorem blind_overfull (n : Nat) : Blind (Overfull n) := by
  rintro op l g hg ⟨hop, hhead, hlength⟩
  refine ⟨hop, ?_, by rw [List.length_map, hlength]⟩
  rw [List.head?_map, hhead, Option.map_some, hg]

/-- A copy gets the operands of the PHI that it was. -/
theorem intake_overfull (m : Nat) : Intake m Overfull (Overfull m) where
  blind := blind_overfull
  add n op l v h := by
    obtain ⟨hop, hhead, hlength⟩ := h
    refine ⟨hop, ?_, by rw [List.length_append, hlength, List.length_singleton]⟩
    rw [List.head?_append, hhead, Option.some_or]
  last op l h := h
  blind_last := blind_overfull m
  givesWay l v h := absurd h.1 (by simp)

section Intake

variable {m n : Nat} {R : Nat → Op → List Value → Prop}

/-- The operands are added one by one. -/
theorem Row.fill (hin : Intake m R R') (l : List Nat) (h : Row b p (R n) s)
    (hrun : l.forM (fillRound (Builder.readVariable o x) p) s = .ok () t) :
    Row b p (R (n + l.length)) t := by
  induction l generalizing n s with
  | nil =>
    obtain ⟨_, rfl⟩ := pure_eq_ok.mp (forM_nil _ ▸ hrun)
    exact h
  | cons q l ih =>
    rw [forM_cons, bind_eq_ok] at hrun
    obtain ⟨_, s₁, hround, hrest⟩ := hrun
    obtain ⟨v, u, hread, hrun⟩ := bind_eq_ok.mp hround
    -- the read leaves the instruction alone, and its answer comes last
    have hu := Ends.ok (h.readVariable (hin.blind n) o x q) hread
    have hnext := ih (hu.addOperand_self (fun op l => hin.add n op l v) hrun) hrest
    rwa [List.length_cons, Nat.add_comm l.length, ← Nat.add_assoc]

theorem Row.completePhi (hin : Intake m R R') (h : Row b p (R 0) s) (hs : Coded s B)
    (hm : (B.preds b).length = m) {o : Options}
    (hrun : Builder.completePhi o (Builder.readVariable o x) p s = .ok v t) : Row b p R' t := by
  have hmerged : mergedBlocks B p = B.preds b := by
    obtain ⟨C, hC, i, hi, rfl, _⟩ := id h
    obtain rfl := hs.body_unique hC
    have hinst : B.inst? i.id = some i := hs.indexed.inst?_eq_some_iff.mpr ⟨b, hi, rfl⟩
    simp only [mergedBlocks, hinst, hs.indexed.block_eq b i hi]
  obtain ⟨_, _, hbody, hrun⟩ := bind_eq_ok.mp hrun
  cases hs.getBody.symm.trans hbody
  obtain ⟨_, u, hloop, hrun⟩ := bind_eq_ok.mp hrun
  rw [hmerged] at hloop
  have hfull : Row b p R' u := (Row.fill hin _ h hloop).imp fun op l hl => by
    rw [Nat.zero_add, hm] at hl
    exact hin.last op l hl
  split at hrun
  · exact Ends.ok ((outlasts_row hin.blind_last hin.givesWay).removeTrivialPhi trivial hfull) hrun
  · obtain ⟨_, rfl⟩ := pure_eq_ok.mp hrun
    exact hfull

/-- Among those that wait in a block, no other has the number. -/
theorem Unfilled.ne_of_mem (h : Unfilled s B) {l₁ l₂ : List (Nat × Nat)}
    (hl : s.waitingPhis b = l₁ ++ (x, p) :: l₂) : ∀ e ∈ l₁ ++ l₂, e.2 ≠ p := by
  have hnodup := h.nodup_waitingPhis b
  rw [hl, List.nodup_middle, List.nodup_cons] at hnodup
  -- an entry with the number is of the same variable, so it would come twice
  rintro ⟨y, q⟩ he rfl
  have hmem : ∀ {e}, e ∈ l₁ ++ (x, q) :: l₂ → s.Waits e.1 b e.2 := fun he =>
    mem_waitingPhis.mp (hl ▸ he)
  have hx : s.Waits x b q := hmem (e := (x, q)) (by simp)
  have hy : s.Waits y b q := hmem (e := (y, q)) (by
    rcases List.mem_append.mp he with he | he
    · exact List.mem_append_left _ he
    · exact List.mem_append_right _ (List.mem_cons_of_mem _ he))
  obtain ⟨rfl, _⟩ := h.once x b y b q hx hy
  exact hnodup.1 he

/-- **An instruction gets the operands that it waits for**, and only then may give way. -/
theorem Row.sealBlock (h : Row b p (R 0) s) (hs : Coded s B) (hu : Unfilled s B)
    (hw : s.Waits x b p) (hopen : s.isSealed b = false) (hin : Intake (B.preds b).length R R')
    (hrun : Builder.sealBlock o b s = .ok () t) : Row b p R' t := by
  obtain ⟨u, hloop, rfl⟩ := (sealBlock_eq_ok hopen).mp hrun
  -- the loop is cut in three: the entries before this one, the entry itself, and the rest
  obtain ⟨l₁, l₂, hl⟩ := List.append_of_mem (mem_waitingPhis.mpr hw)
  have hother := hu.ne_of_mem hl
  rw [hl, forM_append_eq_ok] at hloop
  obtain ⟨u₁, hbefore, hloop⟩ := hloop
  rw [forM_cons, bind_eq_ok] at hloop
  obtain ⟨_, u₂, hround, hafter⟩ := hloop
  obtain ⟨v, _, hself, hpure⟩ := bind_eq_ok.mp hround
  obtain ⟨_, rfl⟩ := pure_eq_ok.mp hpure
  -- nothing uses the instruction yet, so those that come before do not touch it
  have h₀ := hs.erase b
  have hrow₀ : Row b p (R 0) { s with pending := s.pending.erase b } := by
    obtain ⟨C, hC, hi⟩ := h
    exact ⟨C, hC.erase b, hi⟩
  have hchanges := Ends.ok (h₀.forM_completePhi_changes (hu.sticky hw) (fun q hq => ?_) o l₁
    fun e he => hother e (List.mem_append_left _ he)) hbefore
  · obtain ⟨C, hC⟩ := hchanges.follows h₀
    have hrow₁ := hrow₀.changes (hin.blind 0) (not_not_intro rfl) hchanges
    have hrow₂ := hrow₁.completePhi hin hC.coded (by rw [hC.steady.preds]) hself
    -- those that come after give it no operand, but may let it give way
    have hrow := Ends.ok ((outlasts_row hin.blind_last hin.givesWay).forM_completePhi
      (fun y q hrow => hrow.readVariable hin.blind_last o y q) l₂ (fun e he => ⟨trivial, ?_⟩) hrow₂)
      hafter
    · obtain ⟨C, hC, hi⟩ := hrow
      exact ⟨C, ⟨hC.body, hC.indexed, hC.bound⟩, hi⟩
    · exact fun hrow hrun => hrow.addOperand_of_ne (hother e (List.mem_append_right _ he)) hrun
  · exact fun hqp => absurd (hqp ▸ hq) (not_le.mpr h.lt)

end Intake

/-! ## Until the block is sealed -/

/-- The instruction `p` goes on waiting, and is a PHI if it was one.  The variable keeps its value
there, unless it is among the definitions `D`. -/
structure Undisturbed (D : Nat × Nat → Prop) (x b p : Nat) (s t : Builder) : Prop where
  body : ∃ C, t.body? = some C
  waits : t.Waits x b p
  isPhi : t.isPhi p = s.isPhi p
  value : ¬ D (x, b) → ∀ v, (∀ q, v = .result q → q = p ∧ s.isPhi p = true) →
    s.defs.get? (x, b) = some v → t.defs.get? (x, b) = some v

namespace Undisturbed

variable {D' : Nat × Nat → Prop}

theorem trans (h : Undisturbed D x b p s t) (h' : Undisturbed D x b p t u) :
    Undisturbed D x b p s u where
  body := h'.body
  waits := h'.waits
  isPhi := h'.isPhi.trans h.isPhi
  value hD v hv hdef := by
    refine h'.value hD v (fun q hq => ?_) (h.value hD v hv hdef)
    exact ⟨(hv q hq).1, h.isPhi.trans (hv q hq).2⟩

theorem mono (h : Undisturbed D x b p s t) (hD : ∀ k, D k → D' k) : Undisturbed D' x b p s t :=
  ⟨h.body, h.waits, h.isPhi, fun hk => h.value fun hDk => hk (hD _ hDk)⟩

/-- Whether it is a PHI is seen from the code. -/
theorem of_code (hs : Coded s B) (ht : Coded t C) (hw : t.Waits x b p)
    (hcode : ∀ d, C.code d = B.code d)
    (hdefs : ¬ D (x, b) → t.defs.get? (x, b) = s.defs.get? (x, b)) : Undisturbed D x b p s t := by
  refine ⟨⟨C, ht.body⟩, hw, Bool.eq_iff_iff.mpr ?_, fun hD v _ hdef => (hdefs hD).trans hdef⟩
  simp only [ht.isPhi_iff, hs.isPhi_iff, hcode]

/-- Something happens outside the function. -/
theorem of_same (hs : Coded s B) (hw : s.Waits x b p) (hbody : t.body? = s.body?)
    (hpending : t.pending = s.pending) (hdefs : t.defs = s.defs) : Undisturbed D x b p s t := by
  refine ⟨⟨B, hbody.trans hs.body⟩, (waits_of_pending hpending).mpr hw, ?_, fun _ v _ hdef => ?_⟩
  · rw [Builder.isPhi, Builder.isPhi, hbody]
  · rw [hdefs, hdef]

/-- Changes of other instructions. -/
theorem of_changes (h : Changes wild K D' s t) (hs : Coded s B) (hg : s.Guarded)
    (hw : s.Waits x b p) (hp : p < s.nextId) (hK : ¬ K p) (hD' : ¬ D' (x, b)) :
    Undisturbed D x b p s t := by
  obtain ⟨C, hC⟩ := h.follows hs
  have hphi : t.isPhi p = s.isPhi p := by
    -- no change makes a PHI of an instruction that is there
    refine Bool.eq_iff_iff.mpr ⟨fun hphi => ?_, h.isPhi_of_not hs hK⟩
    exact (h.isPhi_of_isPhi hs hphi).resolve_right (not_le.mpr hp)
  refine ⟨⟨C, hC.coded.body⟩, h.waits_of_waits hs hg hw, hphi, fun _ v hv hdef => ?_⟩
  refine h.get?_defs_of hs hD' hdef fun q hq => ?_
  obtain ⟨rfl, hold⟩ := hv q hq
  exact ⟨hp, hphi.trans hold⟩

end Undisturbed

theorem Coded.changeBody_undisturbed {f : Body → Except Error (α × Body)} (hs : Coded s B)
    (hw : s.Waits x b p) (hsane : Leaves (Builder.changeBody f) s Sane)
    (hcode : ∀ {C a}, f B = .ok (a, C) → ∀ d, C.code d = B.code d) :
    Leaves (Builder.changeBody f) s (Undisturbed D x b p s) := by
  cases hrun : Builder.changeBody f s with
  | error e t =>
    obtain rfl := eq_of_changeBody_error hrun
    exact .of_error hrun (.of_same hs hw rfl rfl rfl)
  | ok r t =>
    have ht := Ends.ok hsane hrun
    obtain ⟨fn, C, hfn, hf, rfl⟩ := changeBody_eq_ok.mp hrun
    obtain rfl := hs.body_eq hfn
    exact .of_ok hrun (.of_code hs (ht C rfl) hw (hcode hf) fun _ => rfl)

/-- An instruction that is emitted has another number. -/
theorem Coded.emitInst_undisturbed (hs : Coded s B) (hw : s.Waits x b p) (hp : p < s.nextId)
    (op : Op) (operands : List Value) (callee : Option String) :
    Leaves (Builder.emitInst op operands callee) s (Undisturbed D x b p s) := by
  refine Ends.get_bind (Ends.bind (Q := fun i t => i = s.nextId ∧
    t = { s with nextId := s.nextId + 1 }) (.of_ok rfl ⟨rfl, rfl⟩) ?_)
  rintro _ _ ⟨rfl, rfl⟩
  split
  · next d _ =>
    let i : Inst := { op, id := s.nextId, block := d, operands, callee }
    refine Leaves.bind (P := Undisturbed D x b p s) ?_ fun _ _ => .pure
    cases hrun : Builder.append i { s with nextId := s.nextId + 1 } with
    | error e t =>
      obtain rfl := eq_of_changeBody_error hrun
      exact .of_error hrun (.of_same hs hw rfl rfl rfl)
    | ok r t =>
      have ht := Ends.ok (hs.sane.append (i := i) rfl) hrun
      obtain ⟨fn, C, hfn, happend, rfl⟩ := append_eq_ok.mp hrun
      obtain rfl := hs.body_eq hfn
      obtain ⟨f, hf, hcode⟩ := hs.exists_append rfl happend
      refine .of_ok hrun ⟨⟨C, rfl⟩, hw, Bool.eq_iff_iff.mpr ?_, fun _ v _ hdef => hdef⟩
      rw [(ht C rfl).isPhi_iff, hs.isPhi_iff]
      constructor
      · rintro ⟨e, j, hj, hjp, hop⟩
        obtain ⟨l, hl, rfl⟩ := (hcode e j).mp hj
        rw [(hf l).1] at hjp
        rw [(hf l).2.1] at hop
        rcases hl with hl | ⟨_, rfl⟩
        · exact ⟨e, l, hl, hjp, hop⟩
        · exact absurd hp (not_lt.mpr hjp.le)
      · rintro ⟨e, l, hl, hlp, hop⟩
        have hmem := (hcode e (f l)).mpr ⟨l, Or.inl hl, rfl⟩
        exact ⟨e, f l, hmem, (hf l).1.trans hlp, (hf l).2.1.trans hop⟩
  · exact .of_ok rfl (.of_same hs hw rfl rfl rfl)

/-- Another instruction is tried. -/
theorem Unfilled.removeTrivialPhi_undisturbed (hu : Unfilled s B) (hs : Coded s B) (hg : s.Guarded)
    (hw : s.Waits x b p) (hq : q ≠ p) :
    Leaves (Builder.removeTrivialPhi q) s (Undisturbed D x b p s) := by
  obtain ⟨v, t, hrun, ht, _⟩ := hs.removeTrivialPhi_changes (K := (· ≠ p)) (D := fun _ => False)
    (Or.inl trivial) (hu.sticky hw) hq (Or.inl trivial)
  exact .of_ok hrun (.of_changes ht hs hg hw (hu.lt hs hw) (not_not_intro rfl) id)

/-- Another block is sealed. -/
theorem Unfilled.sealBlock_undisturbed (hu : Unfilled s B) (hs : Coded s B) (hg : s.Guarded)
    (hw : s.Waits x b p) (o : Options) (hq : q ≠ b) :
    Leaves (Builder.sealBlock o q) s (Undisturbed D x b p s) := by
  refine Ends.get_bind ?_
  split
  · exact .pure (.of_same hs hw rfl rfl rfl)
  refine Ends.bind (Q := fun _ t => { s with pending := s.pending.erase q } = t) (.of_ok rfl rfl) ?_
  rintro _ _ rfl
  have h₀ := hs.erase q
  have hw₀ : Waits { s with pending := s.pending.erase q } x b p := waits_erase.mpr ⟨hq.symm, hw⟩
  have hp := hu.lt hs hw
  obtain ⟨_, a, hdef⟩ := hg x b p hw
  -- the changes are about other instructions, and the variable has a definition
  have hchanges : ∀ {t}, Changes True (· ≠ p) (Unset s) { s with pending := s.pending.erase q } t →
      Undisturbed D x b p s t := by
    intro t ht
    have hfirst : Undisturbed D x b p s { s with pending := s.pending.erase q } :=
      .of_code hs h₀ hw₀ (fun _ => rfl) fun _ => rfl
    refine hfirst.trans (.of_changes ht h₀ (hg.erase q) hw₀ hp (not_not_intro rfl) fun hnone => ?_)
    cases (show s.defs.get? (x, b) = none from hnone).symm.trans hdef
  refine Ends.bind ((h₀.forM_completePhi_changes (hu.sticky hw)
    (fun r (hr : s.nextId ≤ r) hrp => absurd hp (not_lt.mpr (hrp ▸ hr))) o (s.waitingPhis q)
    fun e he hep => ?_).imp (fun _ _ => hchanges) fun _ _ => hchanges) fun _ t ht => ?_
  · exact hq (hu.once e.1 q x b p (hep ▸ mem_waitingPhis.mp he) hw).2
  · exact .of_ok rfl ⟨ht.body, ht.waits, ht.isPhi, ht.value⟩

end Builder

variable {s t : Builder} {B : Body} {x b p : Nat}

/-- The operation goes on with the function, but neither seals the block nor tries the PHI. -/
def Operation.Defers (b p : Nat) : Operation → Prop
  | .call (.sealBlock q) => q ≠ b
  | .call _ => True
  | .remove q => q ≠ p
  -- these are not about the function, or end it
  | .run _ | .begin _ | .finish => False

/-- The variable that an operation writes. -/
def Operation.Writes (k : Nat × Nat) : Operation → Prop
  | .call e => e.Writes k
  | _ => False

/-- What one call does to a PHI that waits in another block than the one it seals. -/
theorem undisturbed_exec (hs : Coded s B) (hg : s.Guarded) (hu : Unfilled s B)
    (hw : s.Waits x b p) (k : Call) (hk : (Operation.call k).Defers b p) :
    Leaves (k.exec o) s (Undisturbed k.Writes x b p s) := by
  have hsane := hs.sane
  have hp := hu.lt hs hw
  cases k with
  | createBlock =>
    refine Leaves.bind (hs.changeBody_undisturbed hw hsane.createBlock fun hrun d => ?_)
      fun _ _ => .pure
    obtain ⟨_, rfl⟩ := Prod.ext_iff.mp (Except.ok.inj hrun)
    exact Body.code_createBlock _ _ d
  | addEdge source target =>
    have hadd := hsane.addEdge source target
    rw [Call.exec, addEdge_eq_changeBody]
    rw [addEdge_eq_changeBody] at hadd
    refine Leaves.bind (hs.changeBody_undisturbed hw hadd fun hrun => ?_) fun _ _ => .pure
    exact (Body.addEdge_ok (changed_eq_ok.mp hrun)).2.2.2.1
  | sealBlock q => exact (hu.sealBlock_undisturbed hs hg hw o hk).bind fun _ _ => .pure
  | setCurrent q => exact .of_ok rfl (.of_same hs hw rfl rfl rfl)
  | argument =>
    refine Ends.bind (Q := fun _ t => t = { s with nextId := s.nextId + 1 }) (.of_ok rfl rfl) ?_
    rintro n _ rfl
    have hdraw : Undisturbed (Call.Writes · .argument) x b p s { s with nextId := s.nextId + 1 } :=
      .of_same hs hw rfl rfl rfl
    have hdrawn := hs.draw.coded
    have hadd := hdrawn.changeBody_undisturbed (D := (Call.Writes · .argument)) hw
      (hdrawn.sane.argument (.argument n)) fun hrun _ => by
        cases hrun
        rfl
    exact Leaves.bind (hadd.imp (fun _ _ => hdraw.trans) fun _ _ => hdraw.trans) fun _ _ => .pure
  | literal n => exact .of_ok rfl (.of_same hs hw rfl rfl rfl)
  | emit op operands callee =>
    exact (hs.emitInst_undisturbed hw hp op operands callee).bind fun _ _ => .pure
  | write y q v =>
    refine .of_ok rfl (.of_code hs hs.remember.coded hw (fun _ => rfl) fun hother => ?_)
    exact (OrderedMap.get?_insert ..).trans (if_neg fun heq => hother heq.symm)
  | read y q =>
    refine Leaves.bind ?_ fun _ _ => .pure
    -- reads have to do with new instructions, and the variable has a definition
    obtain ⟨_, a, hdef⟩ := hg x b p hw
    have hchanges : ∀ {t}, Changes True (s.nextId ≤ ·) (Undefined s y) s t →
        Undisturbed (Call.Writes · (.read y q)) x b p s t := fun ht =>
      .of_changes ht hs hg hw hp (not_le.mpr hp) fun hD => absurd (hD.2.symm.trans hdef) (by simp)
    exact (hs.readVariable_changes o (Or.inl trivial) y q).imp (fun _ _ ht => hchanges ht.1)
      fun _ _ => hchanges

theorem undisturbed_step (h : Reached c s) (hB : s.body? = some B) (hw : s.Waits x b p)
    (op : Operation) (hop : op.Defers b p) :
    Undisturbed op.Writes x b p s (stateAfter (op.exec c) s) := by
  obtain ⟨hs, hg, hu⟩ := h.biding hB
  cases op with
  | call k =>
    exact Leaves.stateAfter (Leaves.bind (undisturbed_exec (o := c.options) hs hg hu hw k hop)
      fun _ _ => .pure)
  | remove q =>
    exact Leaves.stateAfter (Leaves.bind (hu.removeTrivialPhi_undisturbed hs hg hw hop)
      fun _ _ => .pure)
  | run _ | begin _ | finish => exact hop.elim

/-- **What waits goes on waiting** until its block is sealed, and stays what it is. -/
theorem undisturbed_ops (h : Reached c s) (hB : s.body? = some B) (hw : s.Waits x b p)
    (ops : List Operation) (hops : ∀ op ∈ ops, op.Defers b p) :
    Undisturbed (fun k => ∃ op ∈ ops, op.Writes k) x b p s
      (stateAfterAll (Operation.exec c) s ops) := by
  induction ops generalizing s B with
  | nil => exact .of_same (h.biding hB).1 hw rfl rfl rfl
  | cons op ops ih =>
    have hstep := undisturbed_step h hB hw op (hops op List.mem_cons_self)
    obtain ⟨C, hC⟩ := hstep.body
    have hrest := ih (.step op h) hC hstep.waits
      fun op' hop' => hops op' (List.mem_cons_of_mem _ hop')
    refine (hstep.mono fun k hk => ⟨op, List.mem_cons_self, hk⟩).trans (hrest.mono ?_)
    rintro k ⟨op', hop', hk⟩
    exact ⟨op', List.mem_cons_of_mem _ hop', hk⟩

/-! ## The PHI is tried -/

/-- A PHI that waits merges nothing but the unknown value.  It gives way, but it goes on waiting. -/
theorem Builder.Unfilled.removeTrivialPhi_self (hu : Unfilled s B) (hs : Coded s B)
    (hw : s.Waits x b p) (hphi : s.isPhi p = true) :
    ∃ t, removeTrivialPhi p s = .ok .unknown t ∧ t.isPhi p = false ∧ t.Waits x b p ∧
      (∃ C, t.body? = some C) ∧
      ∀ k, s.defs.get? k = some (.result p) → t.defs.get? k = some .unknown := by
  obtain ⟨v, us, u, t, C, hrun, hC, hcol, _, hrest⟩ :=
    hs.removeTrivialPhi_cascade (K := fun _ => True) (p := p) .all trivial
  obtain ⟨i, hi, rfl, hbare⟩ := hu.bare x b p hw
  have hop : i.op = .phi := by
    obtain ⟨d, j, hj, hji, hop⟩ := hs.isPhi_iff.mp hphi
    rwa [hs.indexed.eq_of_id_eq hi hj hji.symm]
  -- the first attempt succeeds, as it merges a single value
  obtain ⟨_, hgives⟩ := hs.exists_givesWay hi hop (hbare.merged hop)
  cases hgives.collapse.symm.trans hcol
  refine ⟨t, hrun, Bool.eq_false_iff.mpr fun hphi => ?_, ?_, ⟨C, hC.coded.body⟩, fun k hk => ?_⟩
  · exact (hgives.isPhi_iff.mp (hrest.isPhi_of_isPhi hphi)).2 rfl
  · exact (waits_of_pending (hrest.pending.trans hgives.pending)).mpr hw
  · -- the removals that follow have no business with the unknown value
    have hchanges : Changes True (fun _ => True) (fun _ => False) u t := by
      refine Cascade.changes (Relation.ReflTransGen.mono ?_ _ _ hrest)
      rintro w w' ⟨i, v, B, _, hstep⟩
      exact ⟨i, v, B, ⟨trivial, Or.inl trivial⟩, hstep⟩
    refine hchanges.get?_defs_of hgives.after id ?_ fun q hq => by cases hq
    rw [hgives.get?_defs, hk, Option.map_some, Value.redirect_self]

/-- What the sealed block has in place of what waited, and what the variable is there. -/
theorem Reached.sealBlock_row {R R' : Nat → Op → List Value → Prop} (h : Reached c s)
    (hB : s.body? = some B) (hw : s.Waits x b p) (hin : ∀ m, Intake m R (R' m))
    (hrow : ∀ i : Inst, i.Bare → (i.op = .phi ↔ s.isPhi p = true) → R 0 i.op i.operands)
    (hrun : sealBlock c.options b s = .ok () t) :
    (∃ C, Coded t C ∧ ∃ i ∈ C.code b, i.id = p ∧ R' (C.preds b).length i.op i.operands) ∧
      ∀ v, s.defs.get? (x, b) = some v → (∀ q, v = .result q → q = p ∧ t.isPhi p = true) →
        readVariable c.options x b t = .ok v t := by
  obtain ⟨hs, hg, hu⟩ := h.biding hB
  obtain ⟨hopen, _⟩ := hg x b p hw
  have hstart : Row b p (R 0) s := by
    obtain ⟨i, hi, rfl, hbare⟩ := hu.bare x b p hw
    refine ⟨B, hs, i, hi, rfl, hrow i hbare ?_⟩
    rw [hs.isPhi_iff]
    refine ⟨fun hop => ⟨b, i, hi, rfl, hop⟩, ?_⟩
    rintro ⟨d, j, hj, hji, hop⟩
    rwa [hs.indexed.eq_of_id_eq hi hj hji.symm]
  obtain ⟨C, hC, i, hi, hid, hlast⟩ := hstart.sealBlock hs hu hw hopen (hin _) hrun
  -- no edge comes in, and the variable is not defined anew
  obtain ⟨u, hchanges, rfl⟩ :=
    Ends.ok (hs.sealBlock_changes c.options hg (Or.inl trivial) hopen) hrun
  obtain ⟨C', hC'⟩ := hchanges.follows (hs.erase b)
  obtain rfl : C' = C := Option.some.inj (hC'.coded.body.symm.trans hC.body)
  refine ⟨⟨C', hC, i, hi, hid, ?_⟩, fun v hv hphi => hC.readVariable_eq c.options ?_⟩
  · rwa [hC'.steady.preds]
  · refine hchanges.get?_defs_of (hs.erase b) (fun hD => hD.1 rfl) hv fun q hq => ?_
    obtain ⟨rfl, hq⟩ := hphi q hq
    exact ⟨hu.lt hs hw, hq⟩

/-- **A PHI is tried before its block is sealed, or is not.**  Let a PHI wait, and let operations
follow, whether they succeed or not, of which none seals its block and none tries the PHI.  Then the
block is sealed.

If nothing else happens, the block has the PHI, with an operand for each predecessor, and the
variable is the PHI; or a copy of a single value.

If the PHI is tried first, before these operations, it gives way to the unknown value.  The sealed
block has a copy of that with the operands of the PHI added, and the variable is unknown. -/
theorem removal_before_seal (h : Reached c s) (hw : s.Waits x b p) (hphi : s.isPhi p = true)
    (ops : List Operation) (hops : ∀ op ∈ ops, op.Defers b p) :
    (∀ t, sealBlock c.options b (stateAfterAll (Operation.exec c) s ops) = .ok () t →
      ∃ C, t.body? = some C ∧ ∃ i ∈ C.code b, i.id = p ∧
        (i.op = .phi ∧ i.operands.length = (C.preds b).length ∧
            (s.defs.get? (x, b) = some (.result p) → (∀ op ∈ ops, ¬ op.Writes (x, b)) →
              readVariable c.options x b t = .ok (.result p) t) ∨
          i.op = .mov ∧ i.operands.length = 1)) ∧
    ∃ s', removeTrivialPhi p s = .ok .unknown s' ∧
      ∀ t, sealBlock c.options b (stateAfterAll (Operation.exec c) s' ops) = .ok () t →
        (∃ C, t.body? = some C ∧ ∃ i ∈ C.code b, i.id = p ∧ i.op = .mov ∧
          i.operands.head? = some .unknown ∧ i.operands.length = (C.preds b).length + 1) ∧
        (s.defs.get? (x, b) = some (.result p) → (∀ op ∈ ops, ¬ op.Writes (x, b)) →
          readVariable c.options x b t = .ok .unknown t) := by
  obtain ⟨B, hB⟩ : ∃ B, s.body? = some B := by
    cases hbody : s.body? with
    | none => simp [Builder.isPhi, hbody] at hphi
    | some B => exact ⟨B, rfl⟩
  have hnone : (∀ op ∈ ops, ¬ op.Writes (x, b)) → ¬ ∃ op ∈ ops, op.Writes (x, b) := by
    rintro hwrites ⟨op, hop, hwrite⟩
    exact hwrites op hop hwrite
  refine ⟨fun t hrun => ?_, ?_⟩
  · have hkept := undisturbed_ops h hB hw ops hops
    obtain ⟨_, hbody⟩ := hkept.body
    have hstart : ∀ i : Inst, i.Bare →
        (i.op = .phi ↔ (stateAfterAll (Operation.exec c) s ops).isPhi p = true) →
        i.op = .phi ∧ i.operands.length = 0 := by
      intro i hbare hop
      have hiphi := hop.mpr (hkept.isPhi.trans hphi)
      exact ⟨hiphi, by rw [hbare.operands_of_phi hiphi, List.length_nil]⟩
    obtain ⟨⟨C, hC, i, hi, hid, hmerges⟩, hread⟩ :=
      (h.all ops).sealBlock_row hbody hkept.waits intake_merges hstart hrun
    refine ⟨C, hC.body, i, hi, hid, hmerges.imp_left ?_⟩
    rintro ⟨hop, hlength⟩
    refine ⟨hop, hlength, fun hdef hwrites => ?_⟩
    -- the PHI is still there, so it is the value of the variable
    have hstill : t.isPhi p = true := hC.isPhi_iff.mpr ⟨b, i, hi, hid, hop⟩
    have hvalue := hkept.value (hnone hwrites) (.result p)
      (fun q hq => ⟨(Value.result.inj hq).symm, hphi⟩) hdef
    exact hread _ hvalue fun q hq => ⟨(Value.result.inj hq).symm, hstill⟩
  · obtain ⟨hs, _, hu⟩ := h.biding hB
    obtain ⟨s', hremove, hgone, hw', ⟨B', hB'⟩, hdefs⟩ := hu.removeTrivialPhi_self hs hw hphi
    have h' : Reached c s' := stateAfter_of_ok hremove ▸ h.discarding (.remove p) rfl
    refine ⟨s', hremove, fun t hrun => ?_⟩
    have hkept := undisturbed_ops h' hB' hw' ops hops
    obtain ⟨_, hbody⟩ := hkept.body
    have hstart : ∀ i : Inst, i.Bare →
        (i.op = .phi ↔ (stateAfterAll (Operation.exec c) s' ops).isPhi p = true) →
        Overfull 0 i.op i.operands := by
      intro i hbare hop
      rw [hkept.isPhi, hgone] at hop
      obtain ⟨hmov, hoperands⟩ := hbare.resolve_left fun hphi => by simp [hphi.1] at hop
      rw [hoperands]
      exact ⟨hmov, rfl, rfl⟩
    obtain ⟨⟨C, hC, i, hi, hid, hoverfull⟩, hread⟩ :=
      (h'.all ops).sealBlock_row hbody hkept.waits intake_overfull hstart hrun
    refine ⟨⟨C, hC.body, i, hi, hid, hoverfull⟩, fun hdef hwrites => ?_⟩
    have hvalue := hkept.value (hnone hwrites) .unknown (fun q hq => by cases hq) (hdefs _ hdef)
    exact hread _ hvalue fun q hq => by cases hq

/-- A variable is written in the first block and read in the second one, which is not sealed. -/
def waitingOperations : List Operation :=
  [.begin "f", .call .createBlock, .call (.addEdge 0 1), .call (.write 0 0 (.literal 100 7)),
    .call (.read 0 1)]

/-- A third block, where the variable has another value, comes before the second one. -/
def joiningOperations : List Operation :=
  [.call .createBlock, .call (.addEdge 2 1), .call (.write 0 2 (.literal 101 8))]

/-- **An attempt that comes too early loses a PHI**: the variable is the PHI of two values if
nothing else happens, and unknown if the PHI is tried before the second value is there. -/
theorem removal_before_seal_join : ∃ s s' t t', Reached sampleContext s ∧ s.Waits 0 1 0 ∧
    s.isPhi 0 = true ∧ (∀ op ∈ joiningOperations, op.Defers 1 0) ∧
    sealBlock sampleContext.options 1
      (stateAfterAll (Operation.exec sampleContext) s joiningOperations) = .ok () t ∧
    readVariable sampleContext.options 0 1 t = .ok (.result 0) t ∧
    removeTrivialPhi 0 s = .ok .unknown s' ∧
    sealBlock sampleContext.options 1
      (stateAfterAll (Operation.exec sampleContext) s' joiningOperations) = .ok () t' ∧
    readVariable sampleContext.options 0 1 t' = .ok .unknown t' ∧
    ∃ C, t'.body? = some C ∧ ∃ i ∈ C.code 1, i.id = 0 ∧ i.op = .mov ∧
      i.operands.length = (C.preds 1).length + 1 := by
  let o := sampleContext.options
  let after : Builder → Builder := fun s =>
    stateAfterAll (Operation.exec sampleContext) s joiningOperations
  let s := stateAfterAll (Operation.exec sampleContext) {} waitingOperations
  have hstate : s.pending.get? 1 = some [(0, 0)] ∧ s.isPhi 0 = true ∧
      s.defs.get? (0, 1) = some (.result 0) ∧
      (stateAfter (sealBlock o 1) (after s)).body?.map (fun B => (B.code 1).map Inst.op) =
        some [.phi] ∧
      (sealBlock o 1).run' (after s) = some () ∧
      (sealBlock o 1).run' (after (stateAfter (removeTrivialPhi 0) s)) = some () := by
    decide +kernel
  have hs : Reached sampleContext s := Reached.new.all waitingOperations
  generalize s = s at hstate hs
  obtain ⟨hpending, hphi, hdef, hcode, hseal, hsealed⟩ := hstate
  have hw : s.Waits 0 1 0 := ⟨_, hpending, by simp⟩
  have hops : ∀ op ∈ joiningOperations, op.Defers 1 0 := by
    simp [joiningOperations, Operation.Defers]
  have hwrites : ∀ op ∈ joiningOperations, ¬ op.Writes (0, 1) := by
    simp [joiningOperations, Operation.Writes, Call.Writes]
  obtain ⟨hkept, s', hremove, hlost⟩ := removal_before_seal hs hw hphi joiningOperations hops
  obtain ⟨t, ht⟩ := run'_eq_some.mp hseal
  rw [show stateAfter (removeTrivialPhi 0) s = s' by rw [stateAfter, hremove]] at hsealed
  obtain ⟨t', ht'⟩ := run'_eq_some.mp hsealed
  obtain ⟨⟨C, hC, i, hi, hid, hop, _, hlength⟩, hunknown⟩ := hlost t' ht'
  refine ⟨s, s', t, t', hs, hw, hphi, hops, ht, ?_, hremove, ht', hunknown hdef hwrites,
    C, hC, i, hi, hid, hop, hlength⟩
  -- with two values the PHI does not give way
  obtain ⟨C, hC, i, hi, _, ⟨_, _, hread⟩ | ⟨hop, _⟩⟩ := hkept t ht
  · exact hread hdef hwrites
  · rw [show stateAfter (sealBlock o 1) (after s) = t by rw [stateAfter, ht], hC] at hcode
    have hphis : (C.code 1).map Inst.op = [.phi] := Option.some.inj hcode
    have hmem := List.mem_map_of_mem (f := Inst.op) hi
    rw [hphis, List.mem_singleton] at hmem
    cases hop.symm.trans hmem

end Compiler16.Ssa
