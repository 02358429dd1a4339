import Compiler16.Proofs.WaitingPhis

/-!
# Blocks that are marked as sealed

Sealing a block marks it at the end.  Whether a block is marked matters to a read only where the
variable has no definition.  So a read, and all that is done while a PHI is completed, is the same
with the mark and without it, if the variable has a definition in the block.

Reads are cut off at some depth, which depends on the number of blocks.  As long as they end, it
does not matter how deep they may go.

## Main definitions

* `Builder.mark`, `Mirrors`: a block is marked as sealed, and a computation does not look at the
  mark
* `Builder.Defines`: a variable has a definition in a block

## Main results

* `readFrom_mirrors`: reads do not look at the mark of a block with a definition
* `Builder.Defines.completePhi_mirrors`: nor do completions
* `Builder.Coded.readVariable_of_readFrom`: a read that ends is the same at any depth
-/

namespace Compiler16.Ssa

open Compiler16.Source Compiler16.Flow Compiler16.Ssa.Builder

variable {α β : Type} {o : Options}

/-! ## Computations that do not look at a mark -/

/-- The block is marked as sealed. -/
def Builder.mark (b : Nat) (s : Builder) : Builder :=
  { s with sealedBlocks := s.sealedBlocks ++ [b] }

/-- How a computation ends, with the block marked. -/
def markResult (b : Nat) : EStateM.Result Error Builder α → EStateM.Result Error Builder α
  | .ok a s => .ok a (s.mark b)
  | .error e s => .error e (s.mark b)

/-- With the mark, `m` does what `m'` does without it. -/
def Mirrors (b : Nat) (m m' : Build α) (s : Builder) : Prop := m (s.mark b) = markResult b (m' s)

namespace Mirrors

variable {b x p : Nat} {s : Builder} {B : Body}

theorem bind {m m' : Build α} {f f' : α → Build β} (hm : Mirrors b m m' s)
    (hf : ∀ a t, m' s = .ok a t → Mirrors b (f a) (f' a) t) :
    Mirrors b (m >>= f) (m' >>= f') s := by
  change EStateM.bind m f (s.mark b) = markResult b (EStateM.bind m' f' s)
  unfold EStateM.bind
  rw [show m (s.mark b) = markResult b (m' s) from hm]
  cases hrun : m' s with
  | ok a t => exact hf a t hrun
  | error e t => rfl

theorem pure (a : α) : Mirrors b (Pure.pure a) (Pure.pure a) s := rfl

theorem get_bind {f f' : Builder → Build α} (hf : Mirrors b (f (s.mark b)) (f' s) s) :
    Mirrors b (get >>= f) (get >>= f') s := hf

theorem changeBody (f : Body → Except Error (α × Body)) :
    Mirrors b (Builder.changeBody f) (Builder.changeBody f) s := by
  unfold Mirrors Builder.changeBody
  rw [show (s.mark b).opened = s.opened from rfl]
  cases s.opened with
  | none => rfl
  | some fn =>
    dsimp only
    cases f fn.body with
    | ok r => rfl
    | error e => rfl

theorem getBody : Mirrors b Builder.getBody Builder.getBody s := by
  refine get_bind ?_
  rw [show (s.mark b).opened = s.opened from rfl]
  cases s.opened with
  | none => rfl
  | some fn => rfl

theorem newPhi (block : Nat) : Mirrors b (Builder.newPhi block) (Builder.newPhi block) s :=
  bind rfl fun _ _ _ => (changeBody _).bind fun _ _ _ => pure _

theorem forM {I : Builder → Prop} {f f' : α → Build Unit}
    (hf : ∀ a s, I s → Mirrors b (f a) (f' a) s)
    (hI : ∀ a s t, I s → f' a s = .ok () t → I t) (l : List α) (hs : I s) :
    Mirrors b (l.forM f) (l.forM f') s := by
  induction l generalizing s with
  | nil => exact pure ()
  | cons a l ih => exact (hf a s hs).bind fun _ t hrun => ih (hI a s t hs hrun)

/-! ### Removals -/

theorem collapse (phi : Nat) : Mirrors b (Builder.collapse phi) (Builder.collapse phi) s := by
  refine getBody.bind fun B t _ => ?_
  cases B.inst? phi with
  | none => exact pure _
  | some i =>
    dsimp only
    split
    · exact pure _
    · cases i.mergedValue? with
      | none => exact pure _
      | some v => exact (changeBody _).bind fun _ _ _ => bind rfl fun _ _ _ => pure _

theorem removeFrom (depth : Nat) : ∀ {phi : Nat} {s : Builder},
    Mirrors b (Builder.removeFrom depth phi) (Builder.removeFrom depth phi) s := by
  induction depth with
  | zero => exact rfl
  | succ depth ih =>
    intro phi s
    refine (collapse phi).bind fun r t _ => ?_
    refine Mirrors.bind (forM (I := fun _ => True) (fun q u _ => ?_) (fun _ _ _ _ _ => trivial) r.2
      trivial) fun _ _ _ => pure _
    -- whether a user is a PHI is seen from the body alone
    refine get_bind ?_
    rw [show (u.mark b).isPhi q = u.isPhi q from rfl]
    split
    · exact ih.bind fun _ _ _ => pure _
    · exact pure _

theorem removeTrivialPhi (phi : Nat) :
    Mirrors b (Builder.removeTrivialPhi phi) (Builder.removeTrivialPhi phi) s :=
  getBody.bind fun _ _ _ => removeFrom _

/-! ### Reads -/

theorem completePhi {I : Builder → Prop} {read read' : Nat → Build Value}
    (hread : ∀ q s, I s → Mirrors b (read q) (read' q) s)
    (hI : ∀ q s t v, I s → read' q s = .ok v t → I t)
    (hadd : ∀ v s t, I s →
      Builder.changeBody (fun body => .ok ((), (body.addOperand p v).2)) s = .ok () t → I t)
    (hs : I s) : Mirrors b (Builder.completePhi o read p) (Builder.completePhi o read' p) s := by
  refine getBody.bind fun B t hB => ?_
  obtain ⟨_, rfl⟩ := getBody_eq_ok.mp hB
  refine Mirrors.bind (forM (I := I) (fun q u hu => ?_) (fun q u u' hu hrun => ?_) _ hs)
    fun _ _ _ => ?_
  · exact (hread q u hu).bind fun _ _ _ => changeBody _
  · obtain ⟨v, u₁, hv, hrun⟩ := bind_eq_ok.mp hrun
    exact hadd v u₁ u' (hI q u u₁ v hu hv) hrun
  · split
    · exact removeTrivialPhi p
    · exact pure _

end Mirrors

/-- A function is open, and a variable has a definition in a block. -/
def Builder.Defines (x b : Nat) (s : Builder) : Prop :=
  ∃ B, Coded s B ∧ ∃ a, s.defs.get? (x, b) = some a

namespace Builder.Defines

variable {x b p : Nat} {v : Value} {s t : Builder}

theorem follows {B C : Body} (ha : ∃ a, s.defs.get? (x, b) = some a) (h : Follows s B t C) :
    Defines x b t := by
  obtain ⟨a, ha⟩ := ha
  exact ⟨C, h.coded, h.steady.defs _ a ha⟩

theorem readFrom {depth q : Nat} (h : Defines x b s)
    (hrun : Builder.readFrom o x depth q s = .ok v t) : Defines x b t := by
  obtain ⟨B, hB, ha⟩ := h
  obtain ⟨hchanges, _⟩ := Ends.ok (hB.readFrom_changes o x depth (Or.inl trivial)) hrun
  obtain ⟨C, hC⟩ := hchanges.follows hB
  exact follows ha hC

theorem addOperand (h : Defines x b s)
    (hrun : Builder.changeBody (fun body => .ok ((), (body.addOperand p v).2)) s = .ok () t) :
    Defines x b t := by
  obtain ⟨B, hB, ha⟩ := h
  obtain ⟨_, hrun', ht⟩ := hB.addOperand p v
  cases hrun'.symm.trans hrun
  exact follows ha ht

end Builder.Defines

/-- **Reads do not look at the mark of a block in which the variable has a definition.** -/
theorem readFrom_mirrors {x b : Nat} (depth : Nat) : ∀ {s : Builder} {q : Nat}, Defines x b s →
    Mirrors b (readFrom o x depth q) (readFrom o x depth q) s := by
  induction depth with
  | zero => exact fun _ => rfl
  | succ depth ih =>
    intro s q hs
    refine Mirrors.get_bind ?_
    rw [show (s.mark b).defs.get? (x, q) = s.defs.get? (x, q) from rfl,
      show (s.mark b).globalValue x = s.globalValue x from rfl]
    cases hdefs : s.defs.get? (x, q) with
    | some v => exact .pure v
    | none =>
      -- the block with the mark is another one
      have hqb : q ≠ b := by
        rintro rfl
        obtain ⟨_, _, a, ha⟩ := hs
        exact absurd (hdefs.symm.trans ha) (by simp)
      have hsealed : (s.mark b).isSealed q = s.isSealed q := by simp [isSealed, mark, hqb]
      dsimp only
      rw [hsealed]
      split
      · refine Mirrors.getBody.bind fun B t hB => ?_
        obtain ⟨_, rfl⟩ := getBody_eq_ok.mp hB
        rcases B.graph.predecessors q with _ | ⟨r, _ | ⟨r', rest⟩⟩
        · exact rfl
        · exact (ih hs).bind fun _ _ _ => rfl
        · refine (Mirrors.newPhi q).bind fun p t hnew => Mirrors.bind rfl fun _ u hu => ?_
          have hdefined : Defines x b u := by
            obtain ⟨C, hC, ha⟩ := hs
            obtain ⟨_, C', hC'⟩ := newPhi_follows hC hnew
            obtain rfl := writeVariable_eq_ok.mp hu
            exact .follows ha hC'.remember
          refine (Mirrors.completePhi (fun _ _ => ih) (fun _ _ _ _ h hrun => h.readFrom hrun)
            (fun _ _ _ h hrun => h.addOperand hrun) hdefined).bind fun _ _ _ => rfl
      · exact (Mirrors.newPhi q).bind fun _ _ _ => rfl

/-! ## How deep reads go -/

namespace Builder

variable {s t : Builder} {B C : Body} {x b p : Nat} {v : Value}

theorem Coded.mark (h : Coded s B) : Coded (s.mark b) B := ⟨h.body, h.indexed, h.bound⟩

theorem readVariable_eq_ok : readVariable o x b s = .ok v t ↔
    readFrom o x s.readDepth b s = .ok v t := by
  unfold readVariable
  simp only [bind_eq_ok, get_eq_ok]
  constructor
  · rintro ⟨_, _, ⟨rfl, rfl⟩, hrun⟩
    exact hrun
  · exact fun hrun => ⟨s, s, ⟨rfl, rfl⟩, hrun⟩

/-- How deep reads go depends on the number of blocks. -/
theorem Coded.readDepth_eq (h : Coded s B) :
    s.readDepth = (B.graph.size + 1) * (B.graph.size + 1) := by
  rw [readDepth, h.body]

theorem Follows.readDepth_eq (h : Follows s B t C) (hs : Coded s B) :
    t.readDepth = s.readDepth := by
  rw [h.coded.readDepth_eq, hs.readDepth_eq, h.steady.frame.size]

/-- A read that ends does not end elsewhere if it may go deeper, or less deep. -/
theorem Coded.readVariable_of_readFrom (h : Coded s B) (hring : NoRing s B) {d : Nat}
    (hrun : readFrom o x d b s = .ok v t) : readVariable o x b s = .ok v t := by
  rw [readVariable_eq_ok]
  rcases le_total d s.readDepth with hle | hle
  · exact (readFrom_settles hle x b s (Ends.of_ok hrun trivial)).trans hrun
  · exact (readFrom_settles hle x b s (h.readVariable_terminates o hring x b)).symm.trans hrun

/-- A PHI is completed in the same way whether the block with the definition is marked or not. -/
theorem Defines.completePhi_mirrors (h : Defines x b s) :
    Mirrors b (completePhi o (Builder.readFrom o x s.readDepth) p)
      (completePhi o (readVariable o x) p) s := by
  refine Mirrors.completePhi (I := fun t => Defines x b t ∧ t.readDepth = s.readDepth) ?_ ?_ ?_
    ⟨h, rfl⟩
  · rintro q t ⟨ht, hdepth⟩
    have hread : readVariable o x q t = Builder.readFrom o x t.readDepth q t := rfl
    unfold Mirrors
    rw [hread, hdepth]
    exact readFrom_mirrors _ ht
  · rintro q t t' v ⟨⟨B, hB, ha⟩, hdepth⟩ hrun
    obtain ⟨hchanges, _⟩ := Ends.ok (hB.readVariable_changes o (Or.inl trivial) x q) hrun
    obtain ⟨C, hC⟩ := hchanges.follows hB
    exact ⟨.follows ha hC, (hC.readDepth_eq hB).trans hdepth⟩
  · rintro v t t' ⟨⟨B, hB, ha⟩, hdepth⟩ hrun
    obtain ⟨_, hrun', ht'⟩ := hB.addOperand p v
    cases hrun'.symm.trans hrun
    exact ⟨.follows ha ht', (ht'.readDepth_eq hB).trans hdepth⟩

end Builder

end Compiler16.Ssa
