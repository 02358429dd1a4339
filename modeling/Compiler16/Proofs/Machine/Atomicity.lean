import Compiler16.Proofs.Machine.Calls

/-!
# Faulting steps

A step that faults has fetched its word, so the program counter has moved on, and
that is all it has done.  Three instructions are exceptions: a return takes its
address off the stack before it looks at it, and the instructions on all registers
go on after a fault.  A rejected call is one in part: it takes its return address off
the stack again, but the two bytes stay where they were written, in free stack space.

A return has no such care.  An address that is not legal is off the stack when the
return faults, so the next return finds the one below it.

## Main results

* `Opcode.isAtomic_action`: the opcodes whose faults can change something.
* `State.cpu_of_fault`: what is left of a faulting step.
* `State.stack_of_fault`: what is left of the stack after a call or return that faults.
-/

namespace Compiler16.Machine

namespace Opcode

/-- The opcodes that call a routine. -/
def calls : List Opcode := [call, cx, callReg]

/-- The opcodes with a fault that does not leave the stack and the registers as
they were. -/
def partials : List Opcode := [ret, pushAll, popAll]

theorem isAtomic_action (op : Opcode) (w : Word) :
    (op.action w).isAtomic = true ↔ op ∉ calls ∧ op ∉ partials := by
  cases op <;> simp [action, calls, partials, Action.isAtomic, Action.binaryImmediate,
    Action.binaryInplace, Action.binaryBasic, Action.shiftByNibble, Action.shiftByRegister]

theorem exists_call_of_mem_calls {op : Opcode} (h : op ∈ calls) (w : Word) :
    ∃ test target, op.action w = .call test target := by
  simp only [calls, List.mem_cons, List.not_mem_nil, or_false] at h
  rcases h with rfl | rfl | rfl <;> exact ⟨_, _, rfl⟩

end Opcode

/-- A call that faults has changed nothing, or else has written its return address
into free stack space. -/
theorem Action.eq_of_exec_call_eq_error {drawn : UInt16} {test : Test} {target : Operand}
    {c d : Cpu} {f : Fault} (hc : c.Bounded)
    (h : (Action.call test target).exec drawn c = .error f d) :
    d = c ∨ c.HasRoom ∧ d = { c with memory := c.memory.writeWord c.sp c.pc } := by
  simp only [exec] at h
  split at h
  · by_cases hr : c.HasRoom
    · by_cases ht : target.value c ≤ stackStart
      · rw [Exec.callTo_of_le hr ht] at h
        cases h
      · rw [Exec.callTo_of_not_le hc hr ht] at h
        cases h
        exact .inr ⟨hr, rfl⟩
    · rw [Exec.callTo_of_not_hasRoom hr] at h
      cases h
      exact .inl rfl
  · cases h

namespace State

variable {G : Type} [Generator G] {m : State G}

/-- A step that reports a fault has raised it. -/
theorem exists_error_of_step_ne_empty (h : m.step.1 ≠ .empty) :
    ∃ f d, m.word.action.exec (m.drawn m.word) m.cpu.fetch.2 = .error f d := by
  cases he : m.word.action.exec (m.drawn m.word) m.cpu.fetch.2 with
  | ok _ d => exact absurd (m.stepWith_of_ok m.word he).1 h
  | error f d => exact ⟨f, d, rfl⟩

/-- **A faulting step moves the program counter and nothing else**, but for the
return address of a rejected call in the free bytes at the stack pointer. -/
theorem cpu_of_fault (hc : m.cpu.Bounded)
    (hw : ∀ op ∈ [Opcode.ret, .pushAll, .popAll], m.word.kind ≠ some op)
    (hf : m.step.1 ≠ .empty) :
    m.step.2.cpu = { m.cpu with pc := m.cpu.pc + 4 } ∨
      (∃ op ∈ [Opcode.call, .cx, .callReg], m.word.kind = some op) ∧
        m.cpu.sp.toNat + 2 ≤ stackEnd.toNat ∧
        m.step.2.cpu =
          { m.cpu with
            pc := m.cpu.pc + 4
            memory := m.cpu.memory.writeWord m.cpu.sp (m.cpu.pc + 4) } := by
  obtain ⟨f, d, he⟩ := exists_error_of_step_ne_empty hf
  rw [step_eq_stepWith, (m.stepWith_of_error m.word he).2]
  cases hk : m.word.kind with
  | none =>
    -- A word without an opcode is skipped.
    rw [Word.action, hk] at he
    cases he
  | some op =>
    have ha : m.word.action = op.action m.word := by rw [Word.action, hk]
    rw [ha] at he
    by_cases hop : op ∈ Opcode.calls
    · obtain ⟨test, target, hcall⟩ := Opcode.exists_call_of_mem_calls hop m.word
      rw [hcall] at he
      rcases Action.eq_of_exec_call_eq_error (c := m.cpu.fetch.2) hc he with rfl | ⟨hr, rfl⟩
      · exact .inl rfl
      · exact .inr ⟨⟨op, hop, rfl⟩, hr, rfl⟩
    · have hp : op ∉ Opcode.partials := fun hp => hw op hp hk
      have hat := Action.atomic_exec (m.drawn m.word) ((op.isAtomic_action m.word).2 ⟨hop, hp⟩)
      exact .inl (hat _ _ _ he).2

/-- The program calls an address that is not legal. -/
theorem cpu_of_fault_call :
    let m := ((State.fresh 0).load (Program.ofImage [0x14, 0x00, 0xFF, 0xFF])).2
    m.word.kind = some .call ∧ m.step.1 = .single .memoryError ∧
      (m.step.2.cpu = { m.cpu with pc := m.cpu.pc + 4 } ∨
        (∃ op ∈ [Opcode.call, .cx, .callReg], m.word.kind = some op) ∧
          m.cpu.sp.toNat + 2 ≤ stackEnd.toNat ∧
          m.step.2.cpu =
            { m.cpu with
              pc := m.cpu.pc + 4
              memory := m.cpu.memory.writeWord m.cpu.sp (m.cpu.pc + 4) }) := by
  intro m
  have hm : m.cpu =
      { Cpu.fresh with memory := Memory.zero.writeBytes 0 [0x14, 0x00, 0xFF, 0xFF] } :=
    cpu_load _ (by decide) (by decide)
  have hw : m.word = { opcode := 0x14, low := 0xFF, high := 0xFF } := by
    simp [word, hm, Cpu.fetch, Cpu.fresh, Memory.writeBytes, Memory.read_write]
  have hs : m.cpu.fetch.2.sp = stackStart := by
    rw [hm]
    rfl
  have hk : m.word.kind = some .call := by
    rw [hw]
    rfl
  have hb : m.cpu.fetch.2.Bounded := by
    rw [Cpu.Bounded, hs]
    decide
  have hr : m.cpu.fetch.2.HasRoom := by
    rw [Cpu.HasRoom, hs]
    decide
  obtain ⟨d, he⟩ : ∃ d, m.word.action.exec (m.drawn m.word) m.cpu.fetch.2 =
      .error (.memoryError 0xFFFF) d := by
    rw [hw]
    exact ⟨_, Exec.callTo_of_not_le hb hr (by decide)⟩
  have hf : m.step.1 = .single .memoryError := (m.stepWith_of_error m.word he).1
  refine ⟨hk, hf, cpu_of_fault hb ?_ ?_⟩
  · rw [hk]
    decide
  · rw [hf]
    decide

/-! ## The stack after a fault -/

/-- A return without a word on the stack faults and does nothing. -/
theorem step_of_ret_of_not_hasWord (h : m.word.kind = some .ret) (hw : ¬ m.cpu.HasWord) :
    m.step.1 = .single .stackUnderflow ∧ m.step.2.cpu = { m.cpu with pc := m.cpu.pc + 4 } := by
  have he : m.word.action.exec (m.drawn m.word) m.cpu.fetch.2 =
      .error .stackUnderflow m.cpu.fetch.2 := by
    simp only [Word.action, h]
    exact Exec.ret_of_not_hasWord (c := m.cpu.fetch.2) hw
  exact m.stepWith_of_error m.word he

/-- A call that faults leaves the stack pointer where it was. -/
theorem sp_of_call_fault (hc : m.cpu.Bounded) {w : Word} {op : Opcode} (hop : op ∈ Opcode.calls)
    (hw : w.kind = some op) (hf : (m.stepWith w).1 ≠ .empty) :
    (m.stepWith w).2.cpu.sp = m.cpu.sp := by
  obtain ⟨test, target, hcall⟩ := Opcode.exists_call_of_mem_calls hop w
  have ha : w.action = .call test target := by
    rw [Word.action, hw]
    exact hcall
  cases he : w.action.exec (m.drawn w) m.cpu.fetch.2 with
  | ok _ d => exact absurd (m.stepWith_of_ok w he).1 hf
  | error f d =>
    rw [(m.stepWith_of_error w he).2]
    rw [ha] at he
    rcases Action.eq_of_exec_call_eq_error (c := m.cpu.fetch.2) hc he with rfl | ⟨_, rfl⟩ <;> rfl

/-- **A return that faults can lose its address.**  A return faults iff the stack is empty or the
word on top of it is no legal address.  On an empty stack nothing but the program counter changes.
Otherwise the address is gone: the stack pointer has moved back by a word, and nothing else has
changed.  A call in its place that faults leaves the stack pointer where it was. -/
theorem stack_of_fault (hc : m.cpu.Bounded) (hret : m.word.kind = some .ret) :
    (m.step.1 ≠ .empty ↔ (m.cpu.HasWord → stackStart < m.cpu.top)) ∧
    (¬ m.cpu.HasWord → m.step.1 = .single .stackUnderflow ∧
      m.step.2.cpu = { m.cpu with pc := m.cpu.pc + 4 }) ∧
    (m.cpu.HasWord → stackStart < m.cpu.top → m.step.1 = .single .memoryError ∧
      m.step.2.cpu = { m.cpu with pc := m.cpu.pc + 4, sp := m.cpu.sp - 2 } ∧
      m.step.2.cpu.sp ≠ m.cpu.sp) ∧
    (∀ w, ∀ op ∈ [Opcode.call, .cx, .callReg], w.kind = some op → (m.stepWith w).1 ≠ .empty →
      (m.stepWith w).2.cpu.sp = m.cpu.sp) := by
  refine ⟨⟨fun hf hw => ?_, fun htop => ?_⟩, step_of_ret_of_not_hasWord hret, fun hw htop => ?_,
    fun w op hop => sp_of_call_fault hc hop⟩
  · -- where the address is legal, the return goes there
    exact UInt16.not_le.mp fun hle => hf ((step_of_ret hret hw).1 hle).1
  · by_cases hw : m.cpu.HasWord
    · rw [((step_of_ret hret hw).2 (htop hw)).1]
      decide
    · rw [(step_of_ret_of_not_hasWord hret hw).1]
      decide
  · obtain ⟨hf, hcpu⟩ := (step_of_ret hret hw).2 htop
    refine ⟨hf, hcpu, fun hsp => ?_⟩
    have hlt := Cpu.toNat_sp_popped hw
    rw [hcpu] at hsp
    rw [show m.cpu.popped.sp = m.cpu.sp from hsp] at hlt
    simp only [Cpu.HasWord, stackStart, UInt16.reduceToNat] at hw
    omega

/-- A word that is no legal address is on the stack, and the program returns. -/
theorem stack_of_fault_pushed :
    let m := (((State.fresh 0).onCpu (Operation.push 0xFFFF).exec).2.load
      (Program.ofImage [0x15, 0x00, 0x00, 0x00])).2
    m.Reachable ∧ m.word.kind = some .ret ∧ m.cpu.sp = 0xFDF2 ∧
      m.step.1 = .single .memoryError ∧ m.step.2.cpu.sp = 0xFDF0 := by
  intro m
  have hm : m.cpu = { Cpu.fresh.pushed 0xFFFF with
      memory := (Cpu.fresh.pushed 0xFFFF).memory.writeBytes 0 [0x15, 0x00, 0x00, 0x00], pc := 0 } :=
    cpu_load _ (by decide) (by decide)
  have hreach : m.Reachable := .load _ (.operate trivial (.start _))
  have hw : m.word = { opcode := 0x15 } := by
    simp [word, hm, Cpu.fetch, Memory.writeBytes, Memory.read_write]
  have hret : m.word.kind = some .ret := by
    rw [hw]
    rfl
  have hsp : m.cpu.sp = 0xFDF2 := by
    rw [hm]
    rfl
  have hword : m.cpu.HasWord := by
    rw [Cpu.HasWord, hsp]
    decide
  -- the program does not reach up to the stack
  have htop : m.cpu.top = 0xFFFF := by
    simp [Cpu.top, hm, Cpu.pushed, Cpu.fresh, Memory.readWord, Memory.writeBytes,
      Memory.read_write, Memory.read_writeWord]
    decide
  obtain ⟨hf, hcpu, -⟩ := (stack_of_fault hreach.bounded hret).2.2.1 hword (by rw [htop]; decide)
  refine ⟨hreach, hret, hsp, hf, ?_⟩
  rw [hcpu, hsp]
  rfl

end State

end Compiler16.Machine
