import Compiler16.Proofs.Machine.Reachable

/-!
# Calls and returns

A call pushes the address of the word that follows it, and a return that finds the
stack as the call left it goes there and puts the stack pointer back, whatever
happened to the rest of the machine in between.

A call does not look at the address that it pushes, but a return does.  The last
words from which a call can be made lie so close to `stackStart` that the address
after them is not legal.  From there a routine can be called and cannot return:
the return takes the address off the stack and faults.

## Main results

* `State.cpu_of_call`: what a call that does not fault has done.
* `State.step_of_ret`: what a return does.
* `State.ret_after_call`: a return undoes a call.
* `State.exists_ret_fault`: a call from a legal address that no return undoes.
-/

namespace Compiler16.Machine

namespace State

variable {G : Type} [Generator G] {m : State G}

/-- The word at the program counter calls a routine. -/
def AtCall (m : State G) : Prop :=
  m.word.kind = some .call ∨
    m.word.kind = some .cx ∧ Condition.holds m.word.first.val m.cpu.flags = true ∨
    m.word.kind = some .callReg

theorem AtCall.exists_callTo (h : m.AtCall) :
    ∃ target, m.word.action.exec (m.drawn m.word) m.cpu.fetch.2 =
      Exec.callTo target m.cpu.fetch.2 := by
  rcases h with h | ⟨h, ht⟩ | h <;> simp only [Word.action, h]
  · exact ⟨m.word.immediate, rfl⟩
  · exact ⟨m.word.immediate, if_pos ht⟩
  · exact ⟨m.cpu.fetch.2.reg m.word.first, rfl⟩

/-- A call of a legal address for which there is room. -/
theorem step_of_callTo {a : UInt16}
    (he : m.word.action.exec (m.drawn m.word) m.cpu.fetch.2 = Exec.callTo a m.cpu.fetch.2)
    (hr : m.cpu.HasRoom) (ha : a ≤ stackStart) :
    m.step.1 = .empty ∧ m.step.2.cpu = { m.cpu.pushed (m.cpu.pc + 4) with pc := a } := by
  rw [Exec.callTo_of_le (c := m.cpu.fetch.2) hr ha] at he
  exact m.stepWith_of_ok m.word he

/-- A call that does not fault had room for its return address and pushed it. -/
theorem cpu_of_call (hb : m.cpu.Bounded) (h : m.AtCall) (hok : m.step.1 = .empty) :
    m.cpu.HasRoom ∧
      ∃ target, m.step.2.cpu = { m.cpu.pushed (m.cpu.pc + 4) with pc := target } := by
  obtain ⟨target, he⟩ := h.exists_callTo
  by_cases hr : m.cpu.fetch.2.HasRoom
  · refine ⟨hr, target, ?_⟩
    by_cases ht : target ≤ stackStart
    · exact (step_of_callTo he hr ht).2
    · rw [Exec.callTo_of_not_le (c := m.cpu.fetch.2) hb hr ht] at he
      rw [step_eq_stepWith, (m.stepWith_of_error m.word he).1] at hok
      cases hok
  · -- Without room the call faults.
    rw [Exec.callTo_of_not_hasRoom hr] at he
    rw [step_eq_stepWith, (m.stepWith_of_error m.word he).1] at hok
    cases hok

/-- A return goes to the address on the stack if that is legal, and faults if it is
not.  Either way the address is off the stack. -/
theorem step_of_ret (h : m.word.kind = some .ret) (hw : m.cpu.HasWord) :
    (m.cpu.top ≤ stackStart →
      m.step.1 = .empty ∧ m.step.2.cpu = { m.cpu.popped with pc := m.cpu.top }) ∧
    (stackStart < m.cpu.top →
      m.step.1 = .single .memoryError ∧
        m.step.2.cpu = { m.cpu.popped with pc := m.cpu.pc + 4 }) := by
  have he : m.word.action.exec (m.drawn m.word) m.cpu.fetch.2 =
      Exec.setPc m.cpu.top m.cpu.fetch.2.popped := by
    simp only [Word.action, h]
    exact Exec.ret_of_hasWord (c := m.cpu.fetch.2) hw
  refine ⟨fun ht => ?_, fun ht => ?_⟩
  · rw [Exec.setPc, if_pos ht] at he
    exact m.stepWith_of_ok m.word he
  · rw [Exec.setPc, if_neg (UInt16.not_le.2 ht)] at he
    exact m.stepWith_of_error m.word he

/-- **A return undoes a call.**  Where the stack pointer and the two bytes that the
call wrote are as the call left them, a return leads to the word after the call, if
that lies at a legal address, and the stack pointer is what it was before the
call.  If the word after the call lies at no legal address, the return faults. -/
theorem ret_after_call {m' : State G} (hb : m.cpu.Bounded) (hcall : m.AtCall)
    (hok : m.step.1 = .empty) (hret : m'.word.kind = some .ret)
    (hsp : m'.cpu.sp = m.step.2.cpu.sp)
    (hbytes : ∀ x ∈ [m.cpu.sp, m.cpu.sp + 1],
      m'.cpu.memory.read x = m.step.2.cpu.memory.read x) :
    (m.cpu.pc + 4 ≤ stackStart →
      m'.step.1 = .empty ∧
        m'.step.2.cpu = { m'.cpu with pc := m.cpu.pc + 4, sp := m.cpu.sp }) ∧
    (stackStart < m.cpu.pc + 4 →
      m'.step.1 = .single .memoryError ∧
        m'.step.2.cpu = { m'.cpu with pc := m'.cpu.pc + 4, sp := m.cpu.sp }) := by
  obtain ⟨hr, target, hm⟩ := cpu_of_call hb hcall hok
  rw [hm] at hsp hbytes
  replace hsp : m'.cpu.sp = m.cpu.sp + 2 := hsp
  have hpop : m'.cpu.sp - 2 = m.cpu.sp := by simp [hsp]
  have hw : m'.cpu.HasWord := by
    have hw := Cpu.hasWord_pushed hb hr (m.cpu.pc + 4)
    rwa [Cpu.HasWord, show (m.cpu.pushed (m.cpu.pc + 4)).sp = m'.cpu.sp from hsp.symm] at hw
  -- The call wrote the address of the word after it, and the return finds it there.
  have htop : m'.cpu.top = m.cpu.pc + 4 := by
    rw [Cpu.top, hpop, Memory.readWord, hbytes _ (by simp), hbytes _ (by simp)]
    exact Memory.readWord_writeWord_self _ _ _
  have h := step_of_ret hret hw
  rwa [htop, Cpu.popped, hpop] at h

/-- The program calls the routine at its end, which returns. -/
theorem ret_after_call_routine :
    let m := ((State.fresh 0).load
      (Program.ofImage [0x14, 0x00, 0x08, 0x00, 0x00, 0x00, 0x00, 0x00, 0x15])).2
    m.AtCall ∧ m.step.1 = .empty ∧ m.step.2.word.kind = some .ret ∧
      m.step.2.step.1 = .empty ∧
      m.step.2.step.2.cpu = { m.step.2.cpu with pc := m.cpu.pc + 4, sp := m.cpu.sp } := by
  intro m
  have hm : m.cpu = { Cpu.fresh with
      memory := Memory.zero.writeBytes 0
        [0x14, 0x00, 0x08, 0x00, 0x00, 0x00, 0x00, 0x00, 0x15] } :=
    cpu_load _ (by decide) (by decide)
  have hw : m.word = { opcode := 0x14, low := 0x08 } := by
    simp [word, hm, Cpu.fetch, Cpu.fresh, Memory.writeBytes, Memory.read_write]
  have hcall : m.AtCall := by
    rw [AtCall, hw]
    exact .inl rfl
  have hb : m.cpu.Bounded := by
    rw [hm]
    exact Cpu.bounded_fresh
  have hr : m.cpu.HasRoom := by
    rw [hm, Cpu.HasRoom]
    decide
  obtain ⟨hok, hcpu⟩ := step_of_callTo (m := m) (a := 0x0008) (by rw [hw]; rfl) hr (by decide)
  have hop : m.step.2.word.opcode = 0x15 := by
    simp [word, hcpu, hm, Cpu.fetch, Cpu.pushed, Cpu.fresh, stackStart,
      Memory.read_writeWord, Memory.writeBytes, Memory.read_write]
  have hret : m.step.2.word.kind = some .ret := by
    rw [Word.kind, hop]
    rfl
  have h := ret_after_call hb hcall hok hret rfl fun _ _ => rfl
  refine ⟨hcall, hok, hret, h.1 ?_⟩
  rw [hm]
  decide

/-- A routine is called from the last legal address.  The word after the call lies at
no legal address, and the return faults. -/
theorem exists_ret_fault :
    ∃ m : State, m.Reachable ∧ m.cpu.pc ≤ stackStart ∧ m.AtCall ∧ m.step.1 = .empty ∧
      m.step.2.word.kind = some .ret ∧ m.step.2.step.1 = .single .memoryError := by
  let m₁ := ((State.fresh 0).onCpu (Operation.store 0 0x15).exec).2
  let m₂ := (m₁.onCpu (Operation.store 0xFDF0 0x14).exec).2
  let m := (m₂.onCpu (Operation.setPc 0xFDF0).exec).2
  have hm : m.cpu = { Cpu.fresh with
      pc := 0xFDF0
      memory := (Memory.zero.writeWord 0 0x15).writeWord 0xFDF0 0x14 } := by
    simp only [m, m₂, m₁, cpu_onCpu]
    rfl
  have hw : m.word = { opcode := 0x14 } := by
    simp [word, hm, Cpu.fetch, Cpu.fresh, Memory.read_writeWord,
      show lowByte 0x14 = 0x14 from rfl, show highByte 0x14 = 0x00 from rfl]
  have hb : m.cpu.Bounded := by
    rw [hm]
    exact Cpu.bounded_fresh
  have hr : m.cpu.HasRoom := by
    rw [hm, Cpu.HasRoom]
    decide
  obtain ⟨hok, hcpu⟩ := step_of_callTo (m := m) (a := 0) (by rw [hw]; rfl) hr (by decide)
  have hop : m.step.2.word.opcode = 0x15 := by
    simp [word, hcpu, hm, Cpu.fetch, Cpu.pushed, Cpu.fresh, stackStart,
      Memory.read_writeWord, lowByte]
  have hret : m.step.2.word.kind = some .ret := by
    rw [Word.kind, hop]
    rfl
  refine ⟨m, .operate trivial (.operate trivial (.operate trivial (.start _))),
    ?_, ?_, hok, hret, ?_⟩
  · rw [hm]
    decide
  · rw [AtCall, hw]
    exact .inl rfl
  · have htop : m.step.2.cpu.top = 0xFDF4 := by
      rw [hcpu]
      exact (Cpu.top_pushed _ _).trans (by rw [hm]; rfl)
    have hword : m.step.2.cpu.HasWord := by
      rw [hcpu]
      exact Cpu.hasWord_pushed hb hr (m.cpu.pc + 4)
    refine ((step_of_ret hret hword).2 ?_).1
    rw [htop]
    decide

end State

end Compiler16.Machine
