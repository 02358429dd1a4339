import Compiler16.Proofs.Machine.Calculations

/-!
# Branches after a difference

A conditional jump or call looks at four flags and not at numbers.  After a comparison or a
subtraction these four flags decide how the two operands are ordered, in both readings of a word:
the carry flag orders words without a sign, and in two's complement it is overflow and sign
together.  Here the codes of the conditions are tied to relations between the operands, and jumps
and calls to the relations.

## Main definitions

* `wrappedDifference`: the difference of two words as the machine has it, with its sign
* `Relates`: the relation between two words that a condition code stands for

## Main results

* `signed_lt_iff`: overflow and sign of a difference order numbers in two's complement
* `holds_iff_relates`: after a difference a condition holds iff its relation does
* `State.branch_of_difference`: conditional jumps and calls after a difference
-/

namespace Compiler16.Machine

/-- The difference of two words, wrapped around to a number in two's complement. -/
def wrappedDifference (a b : UInt16) : Int := ((a.toNat : Int) - b.toNat).bmod (2 ^ 16)

/-- The relation between two words that a condition code stands for. -/
def Relates (a b : UInt16) : Nat → Prop
  -- Z, NZ: the words themselves
  | 0x0 => a = b
  | 0x1 => a ≠ b
  -- N, NN, P: the sign of the difference
  | 0x2 => wrappedDifference a b < 0
  | 0x3 => 0 ≤ wrappedDifference a b
  | 0x4 => 0 < wrappedDifference a b
  -- O, NO: whether the difference is out of range
  | 0x5 => signed a - signed b < -2 ^ 15 ∨ 2 ^ 15 - 1 < signed a - signed b
  | 0x6 => -2 ^ 15 ≤ signed a - signed b ∧ signed a - signed b ≤ 2 ^ 15 - 1
  -- A, AE, B, BE: the order of words without a sign
  | 0x7 => a.toNat > b.toNat
  | 0x8 => a.toNat ≥ b.toNat
  | 0x9 => a.toNat < b.toNat
  | 0xA => a.toNat ≤ b.toNat
  -- G, GE, L, LE: the order in two's complement
  | 0xB => signed a > signed b
  | 0xC => signed a ≥ signed b
  | 0xD => signed a < signed b
  | 0xE => signed a ≤ signed b
  -- the last code never holds
  | _ => False

/-! ## The flags of a difference -/

theorem signed_inj {a b : UInt16} : signed a = signed b ↔ a = b :=
  BitVec.toInt_inj.trans UInt16.toBitVec_inj

theorem wrappedDifference_eq_zero_iff {a b : UInt16} : wrappedDifference a b = 0 ↔ a = b := by
  have ha := a.toNat_lt
  have hb := b.toNat_lt
  rw [wrappedDifference, Int.bmod_def, ← UInt16.toNat_inj]
  grind

/-- What the four flags say after a difference. -/
structure Flags.OfDifference (a b : UInt16) (s : Flags) : Prop where
  zero : s.has .zero = true ↔ a = b
  negative : s.has .negative = true ↔ wrappedDifference a b < 0
  carry : s.has .carry = true ↔ a.toNat < b.toNat
  overflow : s.has .overflow = true ↔
    signed a - signed b < -2 ^ 15 ∨ 2 ^ 15 - 1 < signed a - signed b

theorem Cpu.Calculated.ofDifference {a b : UInt16} {dest : Option Reg} {c d : Cpu}
    (h : Calculated (.binary .sub a b) dest c d) : d.flags.OfDifference a b := by
  have ha := a.toNat_lt
  have hb := b.toNat_lt
  refine ⟨?_, ?_, ?_, ?_⟩
  · rw [h.zero, decide_eq_true_eq, ← UInt16.toNat_inj, Calculation.exact]
    omega
  · rw [h.negative, decide_eq_true_eq, wrappedDifference, Int.bmod_def, Calculation.exact]
    grind
  · rw [h.carry]
    exact decide_eq_true_iff
  · rw [h.overflow]
    refine decide_eq_true_iff.trans ?_
    omega

/-- **The order in two's complement.**  If the difference is in range, its sign orders the numbers;
if it is not, the sign is the wrong one. -/
theorem signed_lt_iff (a b : UInt16) : signed a < signed b ↔
    ¬ ((signed a - signed b < -2 ^ 15 ∨ 2 ^ 15 - 1 < signed a - signed b) ↔
      wrappedDifference a b < 0) := by
  have ha := a.toNat_lt
  have hb := b.toNat_lt
  rw [wrappedDifference, Int.bmod_def, signed_eq, signed_eq]
  grind

namespace Flags.OfDifference

variable {a b : UInt16} {s : Flags} (h : s.OfDifference a b)
include h

theorem overflow_bne_negative :
    (s.has .overflow != s.has .negative) = true ↔ signed a < signed b := by
  rw [bne_iff_ne, ne_eq, Bool.eq_iff_iff, h.overflow, h.negative, signed_lt_iff]

theorem overflow_beq_negative :
    (s.has .overflow == s.has .negative) = true ↔ signed b ≤ signed a := by
  have hne := h.overflow_bne_negative
  rw [bne_iff_ne] at hne
  rw [beq_iff_eq, ← Int.not_lt, ← hne, Classical.not_not]

/-- After a difference a condition is met iff its relation holds. -/
theorem evaluate_iff_relates (k : Condition) : k.evaluate s = true ↔ Relates a b k.code := by
  have hlt := h.overflow_bne_negative
  have hle := h.overflow_beq_negative
  have hzero : (!s.has .zero) = true ↔ a ≠ b := by
    rw [Bool.not_eq_true', ← Bool.not_eq_true, h.zero]
  have hnegative : (!s.has .negative) = true ↔ 0 ≤ wrappedDifference a b := by
    rw [Bool.not_eq_true', ← Bool.not_eq_true, h.negative, Int.not_lt]
  have hcarry : (!s.has .carry) = true ↔ b.toNat ≤ a.toNat := by
    rw [Bool.not_eq_true', ← Bool.not_eq_true, h.carry, Nat.not_lt]
  cases k with
  | z => exact h.zero
  | nz => exact hzero
  | n => exact h.negative
  | nn => exact hnegative
  | p =>
    -- neither negative nor zero
    refine (Bool.and_eq_true_iff.trans (and_congr hnegative hzero)).trans ?_
    rw [ne_eq, ← wrappedDifference_eq_zero_iff]
    simp only [Relates, Condition.code]
    omega
  | o => exact h.overflow
  | no =>
    simp only [Condition.evaluate, Bool.not_eq_true', ← Bool.not_eq_true, h.overflow, Relates,
      Condition.code]
    omega
  | a =>
    refine (Bool.and_eq_true_iff.trans (and_congr hcarry hzero)).trans ?_
    rw [ne_eq, ← UInt16.toNat_inj]
    simp only [Relates, Condition.code]
    omega
  | ae => exact hcarry
  | b => exact h.carry
  | be =>
    refine (Bool.or_eq_true_iff.trans (or_congr h.carry h.zero)).trans ?_
    rw [← UInt16.toNat_inj]
    exact Nat.le_iff_lt_or_eq.symm
  | g =>
    refine (Bool.and_eq_true_iff.trans (and_congr hle hzero)).trans ?_
    rw [ne_eq, ← signed_inj]
    simp only [Relates, Condition.code]
    omega
  | ge => exact hle
  | l => exact hlt
  | le =>
    refine (Bool.or_eq_true_iff.trans (or_congr hlt h.zero)).trans ?_
    rw [← signed_inj]
    exact Int.le_iff_lt_or_eq.symm

/-- **After a difference the condition of a code holds iff the relation of the code does.** -/
theorem holds_iff_relates (code : Reg) :
    Condition.holds code.val s = true ↔ Relates a b code.val := by
  have hcode : (∃ k : Condition, code.val = k.code) ∨ code.val = 15 := by
    rcases Nat.lt_or_eq_of_le (Nat.le_of_lt_succ code.isLt) with hlt | heq
    · exact Or.inl ⟨Condition.all.get ⟨code.val, hlt⟩, by revert hlt; revert code; decide⟩
    · exact Or.inr heq
  obtain ⟨k, hk⟩ | hlast := hcode
  · rw [hk, Condition.holds, Condition.ofCode?_code]
    exact h.evaluate_iff_relates k
  · rw [hlast]
    exact iff_of_false Bool.false_ne_true id

end Flags.OfDifference

/-! ## Jumps and calls -/

namespace State

variable {G : Type} [Generator G]

/-- A jump to a legal address. -/
theorem stepWith_of_jx (m : State G) {j : Word} (hj : j.kind = some .jx)
    (ht : j.immediate ≤ stackStart) :
    (m.stepWith j).1 = .empty ∧ (m.stepWith j).2.cpu =
      { m.cpu with
        pc := if Condition.holds j.first.val m.cpu.flags then j.immediate else m.cpu.pc + 4 } := by
  apply stepWith_of_ok
  rw [Word.action, hj]
  change (if Condition.holds j.first.val m.cpu.flags then Exec.setPc j.immediate m.cpu.fetch.2
    else .ok () m.cpu.fetch.2) = _
  rw [Exec.setPc, if_pos ht]
  split <;> rfl

/-- A call that is made, of a legal address and with room for the return address. -/
theorem stepWith_of_cx (m : State G) {j : Word} (hj : j.kind = some .cx)
    (hholds : Condition.holds j.first.val m.cpu.flags = true) (ht : j.immediate ≤ stackStart)
    (hr : m.cpu.HasRoom) :
    (m.stepWith j).1 = .empty ∧
      (m.stepWith j).2.cpu = { m.cpu.pushed (m.cpu.pc + 4) with pc := j.immediate } := by
  apply stepWith_of_ok
  rw [Word.action, hj]
  exact (if_pos hholds).trans (Exec.callTo_of_le (c := m.cpu.fetch.2) hr ht)

/-- A call that is not made. -/
theorem stepWith_of_cx_of_not (m : State G) {j : Word} (hj : j.kind = some .cx)
    (hholds : ¬ Condition.holds j.first.val m.cpu.flags = true) :
    (m.stepWith j).1 = .empty ∧ (m.stepWith j).2.cpu = { m.cpu with pc := m.cpu.pc + 4 } := by
  apply stepWith_of_ok
  rw [Word.action, hj]
  exact if_neg hholds

/-- **Conditional control flow orders values.**  After a comparison or subtraction of `b` from `a`
in any form, whatever the flags were before, a jump or call on a condition code transfers control
iff the relation that the code stands for holds between `a` and `b`.  Otherwise control goes on with
the next word; there is no fault. -/
theorem branch_of_difference {m : State G} {op : Opcode} {a b : UInt16} {dest : Option Reg}
    (hop : m.word.kind = some op)
    (hsub : op.calculation? m.cpu m.word = some (.binary .sub a b, dest))
    (j : Word) (ht : j.immediate ≤ stackStart) :
    m.step.1 = .empty ∧
    (j.kind = some .jx → (m.step.2.stepWith j).1 = .empty ∧
      (Relates a b j.first.val →
        (m.step.2.stepWith j).2.cpu = { m.step.2.cpu with pc := j.immediate }) ∧
      (¬ Relates a b j.first.val →
        (m.step.2.stepWith j).2.cpu = { m.step.2.cpu with pc := m.step.2.cpu.pc + 4 })) ∧
    (j.kind = some .cx →
      (Relates a b j.first.val → m.step.2.cpu.HasRoom → (m.step.2.stepWith j).1 = .empty ∧
        (m.step.2.stepWith j).2.cpu =
          { m.step.2.cpu.pushed (m.step.2.cpu.pc + 4) with pc := j.immediate }) ∧
      (¬ Relates a b j.first.val → (m.step.2.stepWith j).1 = .empty ∧
        (m.step.2.stepWith j).2.cpu = { m.step.2.cpu with pc := m.step.2.cpu.pc + 4 })) := by
  obtain ⟨v, hv, hstep⟩ := step_of_calculation? hop hsub trivial
  have hflags : m.step.2.cpu.flags.OfDifference a b := by
    rw [hstep]
    have hc := Cpu.calculated_withResult (k := .binary .sub a b) trivial hv m.cpu.fetch.2 dest
    exact hc.ofDifference
  have hiff := hflags.holds_iff_relates j.first
  refine ⟨by rw [hstep], fun hj => ?_, fun hj => ⟨fun hrel hr => ?_, fun hrel => ?_⟩⟩
  · obtain ⟨hok, hcpu⟩ := m.step.2.stepWith_of_jx hj ht
    refine ⟨hok, fun hrel => ?_, fun hrel => ?_⟩
    · rw [hcpu, if_pos (hiff.mpr hrel)]
    · rw [hcpu, if_neg (mt hiff.mp hrel)]
  · exact m.step.2.stepWith_of_cx hj (hiff.mpr hrel) ht hr
  · exact m.step.2.stepWith_of_cx_of_not hj (mt hiff.mp hrel)

/-- Zero is compared with the least number in two's complement: it is greater, though the difference
is negative and the word has the lesser bits. -/
theorem branch_of_difference_least :
    let m := ((State.fresh 0).load (Program.ofImage [0x53, 0x00, 0x00, 0x80])).2
    let greater : Word := { opcode := 0x12, registers := 0x0B, low := 0x40 }
    let above : Word := { opcode := 0x12, registers := 0x07, low := 0x40 }
    m.word.kind = some .cmpi ∧
      (m.step.2.stepWith greater).2.cpu.pc = 0x40 ∧ (m.step.2.stepWith above).2.cpu.pc = 8 := by
  intro m greater above
  have hm : m.cpu =
      { Cpu.fresh with memory := Memory.zero.writeBytes 0 [0x53, 0x00, 0x00, 0x80] } :=
    cpu_load _ (by decide) (by decide)
  have hw : m.word = { opcode := 0x53, high := 0x80 } := by
    simp [word, hm, Cpu.fetch, Cpu.fresh, Memory.writeBytes, Memory.read_write]
  have hop : m.word.kind = some .cmpi := by
    rw [hw]
    rfl
  have hsub : Opcode.cmpi.calculation? m.cpu m.word = some (.binary .sub 0 0x8000, none) := by
    rw [hw, hm]
    rfl
  have hpc : m.step.2.cpu.pc = 4 := by
    obtain ⟨v, -, hstep⟩ := step_of_calculation? hop hsub trivial
    rw [hstep, hm]
    rfl
  have hgreater : Relates 0 0x8000 greater.first.val := show signed 0 > signed 0x8000 by decide
  have habove : ¬ Relates 0 0x8000 above.first.val := show ¬ 0 > 32768 by decide
  refine ⟨hop, ?_, ?_⟩
  · rw [((branch_of_difference hop hsub greater (by decide)).2.1 rfl).2.1 hgreater]
    exact show greater.immediate = 0x40 by decide
  · rw [((branch_of_difference hop hsub above (by decide)).2.1 rfl).2.2 habove, hpc]
    rfl

end State

end Compiler16.Machine
