import Compiler16.Proofs.Machine.Runs

/-!
# Where instructions are fetched

`stackStart` is the highest legal program counter, and jumps, calls and returns go to
legal addresses only.  A step that does not transfer control leads to the next word, and
nothing looks at the address of that.  So a run that falls through one of the last legal
words leaves the code region without a fault, and what it fetches then are bytes of the
stack and, further on, reserved ones.

This is the only way out: a run stays in the code region for as long as every step from
one of the last legal addresses transfers control.

## Main definitions

* `Action.destination?`: where an action makes control go on.
* `State.Transfers`: the next step transfers control.

## Main results

* `State.pc_step_of_transfers`, `State.pc_step_of_not_transfers`: the program counter after
  a step.
* `State.pc_advance_le_iff`: when a run stays in the code region.
* `State.exists_fetch_above`: a program that makes the machine fetch from the stack.
-/

namespace Compiler16.Machine

/-! ## The program counter after an action -/

/-- The program counter is the same. -/
def Cpu.SamePc (c d : Cpu) : Prop := d.pc = c.pc

theorem Cpu.SamePc.refl (c : Cpu) : SamePc c c := rfl

theorem Cpu.SamePc.trans {c d e : Cpu} (h : SamePc c d) (h' : SamePc d e) : SamePc c e :=
  Eq.trans h' h

namespace Exec

variable {α β : Type}

/-- The computation leaves the program counter alone, with or without a fault. -/
abbrev KeepsPc (x : Exec α) : Prop := x.Within Cpu.SamePc

theorem keepsPc_modify {f : Cpu → Cpu} (h : ∀ c, (f c).pc = c.pc) :
    KeepsPc (modify f : Exec Unit) := h

theorem keepsPc_push (v : UInt16) : KeepsPc (push v) :=
  .guard .refl fun _ _ => rfl

theorem keepsPc_pushReg (r : Reg) : KeepsPc (pushReg r) :=
  .diag (x := fun c => push (c.reg r)) fun c => keepsPc_push (c.reg r)

theorem keepsPc_pop : KeepsPc pop :=
  .guard .refl fun _ _ => rfl

theorem keepsPc_popReg (r : Reg) : KeepsPc (popReg r) :=
  .bind .trans keepsPc_pop fun _ => keepsPc_modify fun _ => rfl

theorem keepsPc_store (a v : UInt16) : KeepsPc (store a v) :=
  .guard .refl fun _ _ => rfl

theorem keepsPc_setSp (v : UInt16) : KeepsPc (setSp v) :=
  .guard .refl fun _ _ => rfl

theorem keepsPc_load (a : UInt16) : KeepsPc (load a) := by
  intro c
  by_cases h : (stackStart < a ∧ a < stackEnd) ∨ a = 0xFFFF <;>
    simp only [after, load, h, if_true, if_false] <;> exact .refl c

theorem keepsPc_binary (op : BinaryOp) (x y : UInt16) (dest : Option Reg) :
    KeepsPc (binary op x y dest) := by
  intro c
  unfold after binary
  cases op.result? x y with
  | none => rfl
  | some result => cases dest <;> rfl

/-- The computation makes control go on at `a`: it succeeds only if that is a legal
address, and a fault leaves the program counter alone. -/
def GoesTo (a : UInt16) (x : Exec α) (c : Cpu) : Prop :=
  match x c with
  | .ok _ d => a ≤ stackStart ∧ d.pc = a
  | .error _ d => d.pc = c.pc

theorem goesTo_setPc (a : UInt16) (c : Cpu) : GoesTo a (setPc a) c := by
  by_cases h : a ≤ stackStart
  · simp only [GoesTo, setPc, if_pos h]
    exact ⟨h, trivial⟩
  · simp only [GoesTo, setPc, if_neg h]

/-- What comes first leaves the program counter alone. -/
theorem KeepsPc.goesTo_bind {x : Exec α} {f : α → Exec β} {a : UInt16} {c : Cpu}
    (hx : x.KeepsPc) (hf : ∀ v d, x c = .ok v d → GoesTo a (f v) d) : GoesTo a (x >>= f) c := by
  have hc := hx c
  unfold after at hc
  unfold GoesTo
  rw [bind_apply]
  cases h : x c with
  | error f d =>
    rw [h] at hc
    exact hc
  | ok v d =>
    rw [h] at hc
    have hd := hf v d h
    unfold GoesTo at hd
    dsimp only at hc ⊢
    rwa [hc] at hd

theorem goesTo_callTo (a : UInt16) (c : Cpu) : GoesTo a (callTo a) c := by
  refine (keepsPc_push c.pc).goesTo_bind (x := push c.pc) fun _ d _ => ?_
  split
  · exact goesTo_setPc a d
  · exact keepsPc_pop.goesTo_bind fun _ _ _ => rfl

theorem goesTo_ret (c : Cpu) : GoesTo c.top ret c := by
  refine keepsPc_pop.goesTo_bind fun v d h => ?_
  by_cases hw : c.HasWord
  · rw [pop_of_hasWord hw] at h
    cases h
    exact goesTo_setPc _ _
  · rw [pop_of_not_hasWord hw] at h
    cases h

end Exec

namespace Action

/-- Where the action makes control go on, unless at the next word. -/
def destination? (c : Cpu) : Action → Option UInt16
  | jump test target | call test target => if test.holds c then some (target.value c) else none
  | ret => some c.top
  | _ => none

/-- An action goes to its destination. -/
theorem goesTo_exec (drawn : UInt16) {a : Action} {c : Cpu} {t : UInt16}
    (h : a.destination? c = some t) : Exec.GoesTo t (a.exec drawn) c := by
  cases a with
  | jump test target =>
    obtain ⟨ht, rfl⟩ : test.holds c = true ∧ target.value c = t := by simpa [destination?] using h
    simp only [Exec.GoesTo, exec, ht, if_true]
    exact Exec.goesTo_setPc _ c
  | call test target =>
    obtain ⟨ht, rfl⟩ : test.holds c = true ∧ target.value c = t := by simpa [destination?] using h
    simp only [Exec.GoesTo, exec, ht, if_true]
    exact Exec.goesTo_callTo _ c
  | ret =>
    cases h
    exact Exec.goesTo_ret c
  | _ => cases h

/-- Without one it leaves the program counter alone. -/
theorem samePc_exec {drawn : UInt16} {a : Action} {c : Cpu} (h : a.destination? c = none) :
    c.SamePc ((a.exec drawn).after c) := by
  cases a with
  | idle => rfl
  | random dest bound => rfl
  | jump test target =>
    have ht : test.holds c = false := by simpa [destination?] using h
    rw [Exec.after_eq_of_ok (if_neg (by simp [ht]))]
    rfl
  | call test target =>
    have ht : test.holds c = false := by simpa [destination?] using h
    rw [Exec.after_eq_of_ok (if_neg (by simp [ht]))]
    rfl
  | ret => cases h
  | move dest source => rfl
  | setSp value => exact Exec.keepsPc_setSp value c
  | load dest address =>
    refine Exec.Within.bind .trans (x := get) (fun c => .refl c) (fun c => ?_) c
    exact .bind .trans (Exec.keepsPc_load _) fun _ => Exec.keepsPc_modify fun _ => rfl
  | store source address =>
    exact Exec.Within.diag (x := fun c => Exec.store (address.value c) (c.reg source))
      (fun _ => Exec.keepsPc_store _ _) c
  | binary op lhs rhs dest =>
    exact Exec.Within.diag (x := fun c => Exec.binary op (c.reg lhs) (rhs.value c) dest)
      (fun _ => Exec.keepsPc_binary op _ _ dest) c
  | unary op operand dest => rfl
  | shift op dest amount => rfl
  | push source => exact Exec.keepsPc_pushReg source c
  | pop dest => exact Exec.keepsPc_popReg dest c
  | pushAll =>
    refine Exec.Within.attemptAll .refl .trans ?_ c
    simpa using Exec.keepsPc_pushReg
  | popAll =>
    refine Exec.Within.attemptAll .refl .trans ?_ c
    simpa using Exec.keepsPc_popReg
  | pushFlags =>
    exact Exec.Within.diag (x := fun c => Exec.push c.flagWord)
      (fun c => Exec.keepsPc_push c.flagWord) c
  | popFlags =>
    refine Exec.Within.bind .trans Exec.keepsPc_pop (fun _ => ?_) c
    exact Exec.keepsPc_modify fun _ => rfl

end Action

/-! ## Steps and runs -/

namespace State

variable {G : Type} [Generator G] {m : State G}

/-- The next step transfers control: the word at the program counter has a destination,
and the step does not fault. -/
def Transfers (m : State G) : Prop :=
  m.step.1 = .empty ∧ (m.word.action.destination? m.cpu.fetch.2).isSome

/-- Control is transferred to legal addresses only. -/
theorem pc_step_of_transfers (h : m.Transfers) : m.step.2.cpu.pc ≤ stackStart := by
  obtain ⟨hok, hd⟩ := h
  obtain ⟨t, ht⟩ := Option.isSome_iff_exists.1 hd
  have hgoes := Action.goesTo_exec (m.drawn m.word) ht
  unfold Exec.GoesTo at hgoes
  cases he : m.word.action.exec (m.drawn m.word) m.cpu.fetch.2 with
  | ok _ d =>
    rw [he] at hgoes
    rw [step_eq_stepWith, (m.stepWith_of_ok m.word he).2, hgoes.2]
    exact hgoes.1
  | error f d =>
    -- The step would report the fault.
    rw [step_eq_stepWith, (m.stepWith_of_error m.word he).1] at hok
    cases f <;> cases hok

/-- Any other step leads to the next word, wherever that lies. -/
theorem pc_step_of_not_transfers (h : ¬ m.Transfers) : m.step.2.cpu.pc = m.cpu.pc + 4 := by
  cases hd : m.word.action.destination? m.cpu.fetch.2 with
  | none =>
    rw [step_eq_stepWith, cpu_stepWith]
    exact Action.samePc_exec hd
  | some t =>
    -- The step has a destination, so it must have faulted.
    have hgoes := Action.goesTo_exec (m.drawn m.word) hd
    unfold Exec.GoesTo at hgoes
    cases he : m.word.action.exec (m.drawn m.word) m.cpu.fetch.2 with
    | ok _ d => exact absurd ⟨(m.stepWith_of_ok m.word he).1, by rw [hd]; rfl⟩ h
    | error f d =>
      rw [he] at hgoes
      rw [step_eq_stepWith, (m.stepWith_of_error m.word he).2]
      exact hgoes

/-- A step ends in the code region if the next word lies there, and else only if it
transfers control. -/
theorem pc_step_le_iff :
    m.step.2.cpu.pc ≤ stackStart ↔ (stackStart < m.cpu.pc + 4 → m.Transfers) := by
  by_cases ht : m.Transfers
  · exact iff_of_true (pc_step_of_transfers ht) fun _ => ht
  · rw [pc_step_of_not_transfers ht, ← UInt16.not_lt]
    exact ⟨fun hle hlt => absurd hlt hle, fun himp hlt => ht (himp hlt)⟩

/-- A machine that jumps to the last legal address, where there is nothing to do. -/
def jumpToEnd : State :=
  ((State.fresh 0).load (Program.ofImage [0x10, 0x00, 0xF0, 0xFD])).2

theorem jumpToEnd_steps :
    jumpToEnd.cpu.pc = 0 ∧ jumpToEnd.step.1 = .empty ∧ jumpToEnd.step.2.cpu.pc = stackStart ∧
      jumpToEnd.step.2.step.1 = .empty ∧ jumpToEnd.step.2.step.2.cpu.pc = stackStart + 4 := by
  have hm : jumpToEnd.cpu =
      { Cpu.fresh with memory := Memory.zero.writeBytes 0 [0x10, 0x00, 0xF0, 0xFD] } :=
    cpu_load _ (by decide) (by decide)
  generalize jumpToEnd = m at hm ⊢
  have hw : m.word = { opcode := 0x10, low := 0xF0, high := 0xFD } := by
    simp [word, hm, Cpu.fetch, Cpu.fresh, Memory.writeBytes, Memory.read_write]
  obtain ⟨hok, hcpu⟩ := m.stepWith_of_ok m.word (d := { m.cpu.fetch.2 with pc := stackStart })
    (by rw [hw]; rfl)
  rw [← step_eq_stepWith] at hok hcpu
  -- There the stack begins, and it is empty.
  have hw' : m.step.2.word = { opcode := 0x00 } := by
    simp [word, hcpu, hm, Cpu.fetch, Cpu.fresh, stackStart, Memory.writeBytes, Memory.read_write]
  obtain ⟨hok', hcpu'⟩ := m.step.2.step_of_idle (by rw [hw']; rfl)
  exact ⟨by rw [hm]; rfl, hok, by rw [hcpu], hok', by rw [hcpu', hcpu]⟩

/-- **When a run stays in the code region**: exactly if every step from one of the last
four legal addresses transfers control. -/
theorem pc_advance_le_iff (h : m.cpu.pc ≤ stackStart) (n : Nat) :
    (∀ i ≤ n, (m.advance i).cpu.pc ≤ stackStart) ↔
      ∀ i < n, stackStart < (m.advance i).cpu.pc + 4 → (m.advance i).Transfers := by
  refine ⟨fun hall i hi => ?_, fun hall i hi => ?_⟩
  · have hnext := hall (i + 1) hi
    rw [advance_add] at hnext
    exact pc_step_le_iff.1 hnext
  · cases i with
    | zero => exact h
    | succ i =>
      rw [advance_add]
      exact pc_step_le_iff.2 (hall i hi)

/-- The machine stays in the code region for one step, and falls through the last legal
address in the second. -/
theorem pc_advance_le_iff_jumpToEnd :
    jumpToEnd.cpu.pc ≤ stackStart ∧ (∀ i ≤ 1, (jumpToEnd.advance i).cpu.pc ≤ stackStart) ∧
      ¬ (jumpToEnd.advance 1).Transfers := by
  obtain ⟨hpc, -, hpc₁, -, hpc₂⟩ := jumpToEnd_steps
  generalize jumpToEnd = m at *
  have hle : m.cpu.pc ≤ stackStart := by
    rw [hpc]
    decide
  have hzero : ¬ stackStart < m.cpu.pc + 4 := by
    rw [hpc]
    decide
  refine ⟨hle, (pc_advance_le_iff hle 1).2 fun i hi hlt => ?_, fun ht => ?_⟩
  · obtain rfl := Nat.lt_one_iff.1 hi
    exact absurd hlt hzero
  · -- If the second step transferred control, the run would stay in the code region.
    have hend : (m.advance 2).cpu.pc ≤ stackStart := by
      refine (pc_advance_le_iff hle 2).2 (fun i hi hlt => ?_) 2 (Nat.le_refl 2)
      match i, hi with
      | 0, _ => exact absurd hlt hzero
      | 1, _ => exact ht
    rw [advance, advance, advance, hpc₂] at hend
    exact absurd hend (by decide)

/-- **Bytes of the stack are executed.**  A program leads the machine out of the code
region and into the stack, and no step reports a fault. -/
theorem exists_fetch_above :
    ∃ p : Program, ∃ n,
      let m := ((State.fresh 0).load p).2
      m.cpu.pc ≤ stackStart ∧ (∀ i < n, m.report i = .empty) ∧
        stackStart < (m.advance n).cpu.pc ∧ (m.advance n).cpu.pc < stackEnd := by
  have h := jumpToEnd_steps
  unfold jumpToEnd at h
  refine ⟨Program.ofImage [0x10, 0x00, 0xF0, 0xFD], 2, ?_⟩
  generalize ((State.fresh 0).load (Program.ofImage [0x10, 0x00, 0xF0, 0xFD])).2 = m at h ⊢
  obtain ⟨hpc, hok, -, hok', hpc'⟩ := h
  refine ⟨?_, fun i hi => ?_, ?_⟩
  · rw [hpc]
    decide
  · match i, hi with
    | 0, _ => rw [report, advance, hok]
    | 1, _ => rw [report, advance, advance, hok']
  · rw [advance, advance, advance, hpc']
    decide

end State

end Compiler16.Machine
