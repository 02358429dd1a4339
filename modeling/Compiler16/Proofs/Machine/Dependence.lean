import Compiler16.Proofs.Machine.Fields
import Compiler16.Proofs.Machine.Reachable

/-!
# What the effect of a word depends on

A word comes with three statements about itself, all read off its opcode: whether it has a second
operand, a third one and an immediate.  A word that is said to have no second operand should do the
same whatever stands in the place of one, and likewise for the last two bytes.

This is so for most opcodes.  The list of opcodes with a second operand leaves out some that use
one, among them the sums, and the last digit of an opcode does not tell of every third operand and
every immediate.  Here these opcodes are found, and each of them has two words that differ only in
the place in question and do different things.

## Main definitions

* `Word.SameButSecond`, `Word.SameButTail`: words that differ in one place only
* `Opcode.hidesSecond`, `Opcode.hidesTail`: the opcodes that use more than their words tell

## Main results

* `State.execute_eq_of_fields`: words with the same values in the fields of their opcode do the same
* `State.execute_eq_iff`: the opcodes whose words tell all that they depend on
-/

namespace Compiler16.Machine

namespace Word

/-- The words differ in their second operand at most. -/
def SameButSecond (w w' : Word) : Prop :=
  w.opcode = w'.opcode ∧ w.first = w'.first ∧ w.low = w'.low ∧ w.high = w'.high

/-- The words differ in their last two bytes at most. -/
def SameButTail (w w' : Word) : Prop := w.opcode = w'.opcode ∧ w.registers = w'.registers

theorem kind_eq_of_opcode_eq {w w' : Word} (h : w.opcode = w'.opcode) : w.kind = w'.kind := by
  rw [kind, kind, h]

theorem SameButSecond.get_eq {w w' : Word} (h : w.SameButSecond w') {f : Field}
    (hf : f ≠ .second) : w.get f = w'.get f := by
  obtain ⟨-, hfirst, hlow, hhigh⟩ := h
  cases f with
  | first => exact congrArg Fin.val hfirst
  | second => exact absurd rfl hf
  | third => simp only [get, third, hlow]
  | immediate => simp only [get, immediate, hlow, hhigh]

theorem SameButTail.get_eq {w w' : Word} (h : w.SameButTail w') {f : Field}
    (hthird : f ≠ .third) (himm : f ≠ .immediate) : w.get f = w'.get f := by
  cases f with
  | first => simp only [get, first, h.2]
  | second => simp only [get, second, h.2]
  | third => exact absurd rfl hthird
  | immediate => exact absurd rfl himm

end Word

namespace Opcode

/-- The opcodes that use a second operand, though their words are said to have none. -/
def hidesSecond : List Opcode :=
  [addInplace, add, cmp, modInplace, mod, shlReg, shrReg, sarReg, neg]

/-- The opcodes that use a third operand or an immediate, though their words are said to have
neither. -/
def hidesTail : List Opcode :=
  [rnd, jmc, jme, call, cx, ldiSp, cmpi, tsti, modi, mod, shr, negi]

theorem opcode_eq_of_kind_eq {w : Word} {op : Opcode} (h : w.kind = some op) :
    w.opcode = (Word.ofOpcode op).opcode :=
  (byte_of_ofByte? h).symm

theorem mem_hidesSecond_iff {w : Word} {op : Opcode} (hw : w.kind = some op) :
    op ∈ hidesSecond ↔ w.usesSecond = false ∧ Field.second ∈ op.fields := by
  -- only the opcode of the word is looked at, so there is one case for each opcode
  rw [Word.usesSecond, opcode_eq_of_kind_eq hw]
  clear hw
  cases op <;> decide

theorem mem_hidesTail_iff {w : Word} {op : Opcode} (hw : w.kind = some op) :
    op ∈ hidesTail ↔ w.usesThird = false ∧ w.usesImmediate = false ∧
      (Field.third ∈ op.fields ∨ Field.immediate ∈ op.fields) := by
  rw [Word.usesThird, Word.usesImmediate, Word.isArithmetic, opcode_eq_of_kind_eq hw]
  clear hw
  cases op <;> decide

end Opcode

namespace State

variable {G : Type} [Generator G]

/-- **Words with the same values in the fields of their opcode do the same.** -/
theorem execute_eq_of_fields {op : Opcode} {w w' : Word} (hw : w.kind = some op)
    (hw' : w'.kind = some op) (h : ∀ f ∈ op.fields, w.get f = w'.get f) (m : State G) :
    execute w m = execute w' m := by
  have ha : w.action = w'.action := by
    rw [Word.action, hw, Word.action, hw']
    exact op.action_eq_of_get_eq h
  unfold execute
  rw [ha]

theorem execute_eq_of_sameButSecond {op : Opcode} {w w' : Word} (hw : w.kind = some op)
    (hsecond : Field.second ∉ op.fields) (h : w.SameButSecond w') (m : State G) :
    execute w m = execute w' m := by
  refine execute_eq_of_fields hw (Word.kind_eq_of_opcode_eq h.1 ▸ hw) (fun f hf => ?_) m
  refine h.get_eq ?_
  rintro rfl
  exact hsecond hf

theorem execute_eq_of_sameButTail {op : Opcode} {w w' : Word} (hw : w.kind = some op)
    (hthird : Field.third ∉ op.fields) (himm : Field.immediate ∉ op.fields)
    (h : w.SameButTail w') (m : State G) : execute w m = execute w' m := by
  refine execute_eq_of_fields hw (Word.kind_eq_of_opcode_eq h.1 ▸ hw) (fun f hf => ?_) m
  refine h.get_eq ?_ ?_
  · rintro rfl
    exact hthird hf
  · rintro rfl
    exact himm hf

/-! ## Words that differ in their effect -/

/-- A machine whose second register differs from all others, with the carry and zero flags set. -/
def trial : State where
  cpu :=
    { Cpu.fresh with
      registers := (Vector.replicate registerCount 8).set 1 3
      flags := ⟨0x06⟩ }
  random := .ofSeed 0
  status := .empty

/-- What can be seen of a step without a look into memory. -/
def visible (r : FaultSet × State) : FaultSet × UInt16 × Flags × Vector UInt16 registerCount :=
  (r.1, r.2.cpu.pc, r.2.cpu.flags, r.2.cpu.registers)

/-- The second operand is the first register in one word and the second register in the other. -/
theorem visible_trial_ne_of_hidesSecond : ∀ op ∈ Opcode.hidesSecond,
    visible (execute { opcode := op.byte } trial) ≠
      visible (execute { opcode := op.byte, registers := 0x10 } trial) := by
  decide

/-- One immediate is an address in the stack region, the other one the value of a register. -/
theorem visible_trial_ne_of_hidesTail : ∀ op ∈ Opcode.hidesTail,
    visible (execute { opcode := op.byte, low := 0xE3, high := 0xFF } trial) ≠
      visible (execute { opcode := op.byte, low := 0x08 } trial) := by
  decide

/-- **The opcodes whose words tell what their effect depends on.**  Words of an opcode that are said
to have no second operand do the same, in every state, if they differ in the place of a second
operand only, unless the opcode is one of nine that use it nonetheless.  Words that are said to have
neither a third operand nor an immediate do the same if they differ in the last two bytes only,
unless the opcode is one of twelve.  For each of these there are a state and two words that differ
there only and do different things. -/
theorem execute_eq_iff (op : Opcode) :
    ((∀ (G : Type) [Generator G] (m : State G) (w w' : Word), w.kind = some op →
        w.usesSecond = false → w.SameButSecond w' → execute w m = execute w' m) ↔
      op ∉ Opcode.hidesSecond) ∧
    ((∀ (G : Type) [Generator G] (m : State G) (w w' : Word), w.kind = some op →
        w.usesThird = false → w.usesImmediate = false → w.SameButTail w' →
        execute w m = execute w' m) ↔
      op ∉ Opcode.hidesTail) := by
  refine ⟨⟨fun h hop => ?_, fun hop G _ m w w' hw hs => ?_⟩,
    ⟨fun h hop => ?_, fun hop G _ m w w' hw ht hi => ?_⟩⟩
  · have hw : (Word.kind { opcode := op.byte }) = some op := Opcode.ofByte?_byte op
    refine visible_trial_ne_of_hidesSecond op hop (congrArg visible ?_)
    -- the first operand is in the other half of the byte
    have hfirst : nibble 0x00 = nibble 0x10 := by decide
    exact h Random trial _ _ hw ((Opcode.mem_hidesSecond_iff hw).mp hop).1 ⟨rfl, hfirst, rfl, rfl⟩
  · exact execute_eq_of_sameButSecond hw
      (fun hf => hop ((Opcode.mem_hidesSecond_iff hw).mpr ⟨hs, hf⟩)) (m := m)
  · have hw : (Word.kind { opcode := op.byte, low := 0xE3, high := 0xFF }) = some op :=
      Opcode.ofByte?_byte op
    obtain ⟨ht, hi, -⟩ := (Opcode.mem_hidesTail_iff hw).mp hop
    refine visible_trial_ne_of_hidesTail op hop (congrArg visible ?_)
    exact h Random trial _ _ hw ht hi ⟨rfl, rfl⟩
  · exact execute_eq_of_sameButTail hw
      (fun hf => hop ((Opcode.mem_hidesTail_iff hw).mpr ⟨ht, hi, .inl hf⟩))
      (fun hf => hop ((Opcode.mem_hidesTail_iff hw).mpr ⟨ht, hi, .inr hf⟩)) (m := m)

end State

end Compiler16.Machine
