import Compiler16.Machine.Action

/-!
# Fields of an instruction word

Four fields of a word hold operands: three nibbles, which name registers, conditions or shift
amounts, and the immediate, which shares its first byte with the third nibble.  An opcode makes its
action from some of them.  Each field has a setter, which adds bits to its field if the last digit
of the opcode admits the field, and else does nothing.

The two do not always fit together.  The last digit tells the forms of an opcode apart where there
are three of them, with an immediate, in place and with a third register.  Opcodes with another
number of forms have last digits that follow no such rule, and some of them use a field that their
last digit does not admit.

## Main definitions

* `Field`, `Setting`: the fields of a word and the calls of their setters
* `Word.admits`: the fields that the setters write to
* `Opcode.fields`: the fields that an opcode makes its action from
* `Opcode.refused?`: the one among them that the setters do not write to

## Main results

* `Opcode.uses_fields`: an action depends on these fields and on no others
* `Word.get_setAll`: what a list of calls leaves in the fields that it sets
* `Word.encoded_of_perm`: setting the fields of an opcode, in any order
-/

namespace Compiler16.Machine

/-! ## Fields and settings -/

/-- A field of an instruction word that holds an operand. -/
inductive Field where
  | first
  | second
  | third
  | immediate
  deriving DecidableEq, Repr

namespace Field

/-- The first bit of a field and the one after its last, counted from the end of the word. -/
def span : Field → Nat × Nat
  | first => (16, 20)
  | second => (20, 24)
  | third => (8, 12)
  | immediate => (0, 16)

/-- How many values a field can have. -/
def size : Field → Nat
  | first | second | third => 16
  | immediate => 65536

/-- Two fields have no bits in common. -/
def Apart (f g : Field) : Prop := f.span.2 ≤ g.span.1 ∨ g.span.2 ≤ f.span.1

instance (f g : Field) : Decidable (Apart f g) := inferInstanceAs (Decidable (_ ∨ _))

theorem Apart.symm {f g : Field} (h : f.Apart g) : g.Apart f := Or.symm h

theorem not_apart_self (f : Field) : ¬ f.Apart f := by
  cases f <;> decide

theorem not_apart_third_immediate : ¬ Apart third immediate := by
  decide

end Field

/-- A call of a setter. -/
inductive Setting where
  | first (v : UInt8)
  | second (v : UInt8)
  | third (v : UInt8)
  | immediate (v : UInt16)
  deriving DecidableEq, Repr

namespace Setting

/-- The field whose setter is called. -/
def field : Setting → Field
  | first _ => .first
  | second _ => .second
  | third _ => .third
  | immediate _ => .immediate

/-- The value that the setter is given. -/
def value : Setting → Nat
  | first v => v.toNat
  | second v => v.toNat
  | third v => v.toNat
  | immediate v => v.toNat

/-- The value is one that the field can have. -/
def Fits (c : Setting) : Prop := c.value < c.field.size

instance (c : Setting) : Decidable c.Fits := inferInstanceAs (Decidable (_ < _))

end Setting

namespace Word

/-- The value of a field. -/
def get (w : Word) : Field → Nat
  | .first => w.first.val
  | .second => w.second.val
  | .third => w.third.val
  | .immediate => w.immediate.toNat

/-- The word after a call of a setter. -/
def set (w : Word) : Setting → Word
  | .first v => w.setFirst v
  | .second v => w.setSecond v
  | .third v => w.setThird v
  | .immediate v => w.setImmediate v

/-- The word after calls of setters, one after the other. -/
def setAll (w : Word) (cs : List Setting) : Word := cs.foldl set w

/-- The setter of the field writes to a word of this form. -/
def admits (w : Word) : Field → Bool
  | .first => true
  | .second => !w.usesImmediate
  | .third => !w.usesImmediate && !w.isInplace
  | .immediate => w.usesImmediate

end Word

/-! ## Bits of a byte -/

theorem val_nibble_or_low (a v : UInt8) :
    (nibble (a ||| (v &&& 0x0F))).val = (nibble a).val ||| v.toNat % 16 := by
  simp only [nibble, UInt8.toNat_or, UInt8.toNat_and, UInt8.reduceToNat]
  rw [show (16 : Nat) = 2 ^ 4 from rfl, Nat.or_mod_two_pow, show (15 : Nat) = 2 ^ 4 - 1 from rfl,
    Nat.and_two_pow_sub_one_eq_mod, Nat.mod_mod]

theorem val_nibble_or_high (a v : UInt8) :
    (nibble (a ||| ((v &&& 0x0F) <<< 4))).val = (nibble a).val := by
  simp only [nibble, UInt8.toNat_or, UInt8.toNat_shiftLeft, UInt8.toNat_and, UInt8.reduceToNat]
  apply Nat.eq_of_testBit_eq
  intro i
  simp only [show (16 : Nat) = 2 ^ 4 from rfl, Nat.testBit_mod_two_pow, Nat.testBit_or,
    Nat.testBit_shiftLeft]
  grind

theorem val_nibble_shiftRight_or_high (a v : UInt8) :
    (nibble ((a ||| ((v &&& 0x0F) <<< 4)) >>> 4)).val =
      (nibble (a >>> 4)).val ||| v.toNat % 16 := by
  simp only [nibble, UInt8.toNat_shiftRight, UInt8.toNat_or, UInt8.toNat_shiftLeft,
    UInt8.toNat_and, UInt8.reduceToNat]
  rw [show (15 : Nat) = 2 ^ 4 - 1 from rfl, Nat.and_two_pow_sub_one_eq_mod]
  apply Nat.eq_of_testBit_eq
  intro i
  simp only [show (16 : Nat) = 2 ^ 4 from rfl, Nat.testBit_mod_two_pow, Nat.testBit_or,
    Nat.testBit_shiftRight, Nat.testBit_shiftLeft]
  grind

theorem val_nibble_shiftRight_or_low (a v : UInt8) :
    (nibble ((a ||| (v &&& 0x0F)) >>> 4)).val = (nibble (a >>> 4)).val := by
  simp only [nibble, UInt8.toNat_shiftRight, UInt8.toNat_or, UInt8.toNat_and, UInt8.reduceToNat]
  rw [show (15 : Nat) = 2 ^ 4 - 1 from rfl, Nat.and_two_pow_sub_one_eq_mod]
  apply Nat.eq_of_testBit_eq
  intro i
  simp only [show (16 : Nat) = 2 ^ 4 from rfl, Nat.testBit_mod_two_pow, Nat.testBit_or,
    Nat.testBit_shiftRight]
  grind

theorem joinBytes_or (a b c d : UInt8) :
    joinBytes (a ||| c) (b ||| d) = joinBytes a b ||| joinBytes c d := by
  simp only [joinBytes, UInt8.toUInt16_or, UInt16.shiftLeft_or]
  ac_rfl

/-! ## One setting -/

namespace Word

theorem opcode_set (w : Word) (c : Setting) : (w.set c).opcode = w.opcode := by
  cases c <;> simp only [set, opcode_setFirst, opcode_setSecond, opcode_setThird,
    opcode_setImmediate]

/-- The form of a word is that of its opcode. -/
theorem admits_eq_of_opcode_eq {w w' : Word} (h : w.opcode = w'.opcode) (f : Field) :
    w.admits f = w'.admits f := by
  cases f <;> simp only [admits, usesImmediate, isInplace, h]

theorem set_of_not_admits {w : Word} {c : Setting} (h : w.admits c.field = false) :
    w.set c = w := by
  cases c with
  | first v => cases h
  | second v => simp_all [admits, Setting.field, set, setSecond]
  | third v => simp_all [admits, Setting.field, set, setThird]
  | immediate v => simp_all [admits, Setting.field, set, setImmediate]

/-- A setter adds its value to the field. -/
theorem get_set_of_admits {w : Word} {c : Setting} (h : w.admits c.field = true) :
    (w.set c).get c.field = w.get c.field ||| c.value % c.field.size := by
  cases c with
  | first v => exact val_nibble_or_low _ _
  | second v =>
    have hs : w.usesImmediate = false := by simpa [admits, Setting.field] using h
    simp only [set, setSecond, hs]
    exact val_nibble_shiftRight_or_high _ _
  | third v =>
    have hs : (w.usesImmediate || w.isInplace) = false := by
      simpa [admits, Setting.field] using h
    simp only [set, setThird, hs]
    exact val_nibble_or_low _ _
  | immediate v =>
    have hs : w.usesImmediate = true := h
    have hv : v.toNat % Field.immediate.size = v.toNat := Nat.mod_eq_of_lt v.toNat_lt
    simp only [set, setImmediate, hs, if_true, get, Setting.field, immediate, Setting.value, hv]
    rw [joinBytes_or, joinBytes_lowByte_highByte, UInt16.toNat_or]

/-- A setter leaves the fields alone that have no bits in common with its own. -/
theorem get_set_of_apart (w : Word) {c : Setting} {f : Field} (h : c.field.Apart f) :
    (w.set c).get f = w.get f := by
  cases ha : w.admits c.field with
  | false => rw [set_of_not_admits ha]
  | true =>
    cases c with
    | first v =>
      cases f with
      | first => exact absurd h (Field.not_apart_self _)
      | second => exact val_nibble_shiftRight_or_low _ _
      | third => rfl
      | immediate => rfl
    | second v =>
      have hs : w.usesImmediate = false := by simpa [admits, Setting.field] using ha
      simp only [set, setSecond, hs]
      cases f with
      | first => exact val_nibble_or_high _ _
      | second => exact absurd h (Field.not_apart_self _)
      | third => rfl
      | immediate => rfl
    | third v =>
      have hs : (w.usesImmediate || w.isInplace) = false := by
        simpa [admits, Setting.field] using ha
      simp only [set, setThird, hs]
      cases f with
      | first => rfl
      | second => rfl
      | third => exact absurd h (Field.not_apart_self _)
      | immediate => exact absurd h Field.not_apart_third_immediate
    | immediate v =>
      have hs : w.usesImmediate = true := ha
      simp only [set, setImmediate, hs, if_true]
      cases f with
      | first => rfl
      | second => rfl
      | third => exact absurd h.symm Field.not_apart_third_immediate
      | immediate => exact absurd h (Field.not_apart_self _)

/-! ## A list of settings -/

theorem opcode_setAll (w : Word) (cs : List Setting) : (w.setAll cs).opcode = w.opcode := by
  induction cs generalizing w with
  | nil => rfl
  | cons c cs ih => exact (ih (w.set c)).trans (opcode_set w c)

theorem get_setAll_of_apart (w : Word) {cs : List Setting} {f : Field}
    (h : ∀ c ∈ cs, c.field.Apart f) : (w.setAll cs).get f = w.get f := by
  induction cs generalizing w with
  | nil => rfl
  | cons c cs ih =>
    calc ((w.set c).setAll cs).get f
      _ = (w.set c).get f := ih _ fun c' hc' => h c' (List.mem_cons_of_mem _ hc')
      _ = w.get f := get_set_of_apart w (h c List.mem_cons_self)

/-- **What a list of settings leaves in the fields that it sets**, each field being set once and the
fields having no bits in common: the order does not matter. -/
theorem get_setAll (w : Word) {cs : List Setting}
    (hcs : (cs.map Setting.field).Pairwise Field.Apart) {c : Setting} (hc : c ∈ cs) :
    (w.admits c.field = true →
      (w.setAll cs).get c.field = w.get c.field ||| c.value % c.field.size) ∧
    (w.admits c.field = false → (w.setAll cs).get c.field = w.get c.field) := by
  induction cs generalizing w with
  | nil => cases hc
  | cons d cs ih =>
    rw [List.map_cons, List.pairwise_cons] at hcs
    have hd : ∀ c ∈ cs, d.field.Apart c.field := fun c hc => hcs.1 _ (List.mem_map_of_mem hc)
    change (_ → ((w.set d).setAll cs).get c.field = _) ∧ (_ → ((w.set d).setAll cs).get c.field = _)
    rcases List.mem_cons.mp hc with rfl | hc
    · -- the calls that follow leave the field of the first one alone
      rw [get_setAll_of_apart _ fun c' hc' => (hd c' hc').symm]
      exact ⟨get_set_of_admits, fun ha => by rw [set_of_not_admits ha]⟩
    · -- the first call changes neither the form of the word nor this field
      have h := ih (w.set d) hcs.2 hc
      rwa [admits_eq_of_opcode_eq (opcode_set w d), get_set_of_apart w (hd c hc)] at h

end Word

/-! ## The fields of an opcode -/

namespace Opcode

/-- The fields that an opcode makes its action from. -/
def fields : Opcode → List Field
  | nop | ret | pushAll | popAll | pushF | popF => []
  | jmp | jmc | call | ldiSp => [.immediate]
  | jmpReg | callReg | push | pop | notInplace | negInplace => [.first]
  | rnd | jx | cx | ldi | ldm | stm | addi | subi | cmpi | andi | tsti | ori | xori | muli | divi
  | modi | noti | negi => [.first, .immediate]
  | jme => [.first, .second, .immediate]
  | ldmReg | mov | stmReg | addInplace | subInplace | cmp | andInplace | tst | orInplace
  | xorInplace | mulInplace | divInplace | modInplace | shlReg | shrReg | sarReg | not | neg =>
    [.first, .second]
  | shl | shr | sar => [.first, .third]
  | add | sub | and | or | xor | mul | div | mod => [.first, .second, .third]

/-- An opcode makes its action from these fields: they determine it, and each of them matters. -/
structure Uses (op : Opcode) (fs : List Field) : Prop where
  determined : ∀ w w' : Word, (∀ f ∈ fs, w.get f = w'.get f) → op.action w = op.action w'
  needed : ∀ f ∈ fs, ∃ w w' : Word, w.kind = some op ∧ w'.kind = some op ∧
    (∀ g ∈ fs, g ≠ f → w.get g = w'.get g) ∧ op.action w ≠ op.action w'

theorem action_eq_of_get_eq (op : Opcode) {w w' : Word} (h : ∀ f ∈ op.fields, w.get f = w'.get f) :
    op.action w = op.action w' := by
  -- an action is made of what these four say, and `simp_all` picks those that the opcode needs
  have hfirst (hf : Field.first ∈ op.fields) : w.first = w'.first := Fin.ext (h _ hf)
  have hsecond (hf : Field.second ∈ op.fields) : w.second = w'.second := Fin.ext (h _ hf)
  have hthird (hf : Field.third ∈ op.fields) : w.third = w'.third := Fin.ext (h _ hf)
  have himm (hf : Field.immediate ∈ op.fields) : w.immediate = w'.immediate :=
    UInt16.toNat_inj.mp (h _ hf)
  clear h
  cases op <;> simp_all [fields, action, Action.binaryImmediate, Action.binaryInplace,
    Action.binaryBasic, Action.shiftByNibble, Action.shiftByRegister]

/-- A word of the opcode with a single bit set, the lowest of the field. -/
def probe (op : Opcode) (f : Field) : Word :=
  match f with
  | .first => { opcode := op.byte, registers := 0x01 }
  | .second => { opcode := op.byte, registers := 0x10 }
  | .third | .immediate => { opcode := op.byte, low := 0x01 }

theorem action_probe_ne (op : Opcode) :
    ∀ f ∈ op.fields, (∀ g ∈ op.fields, g ≠ f → (Word.ofOpcode op).get g = (op.probe f).get g) ∧
      op.action (.ofOpcode op) ≠ op.action (op.probe f) := by
  cases op <;> decide

/-- **An action is made from the fields of its opcode.** -/
theorem uses_fields (op : Opcode) : op.Uses op.fields where
  determined _ _ := op.action_eq_of_get_eq
  needed f hf := by
    refine ⟨.ofOpcode op, op.probe f, Word.kind_ofOpcode op, ?_, op.action_probe_ne f hf⟩
    cases f <;> exact ofByte?_byte op

theorem pairwise_apart_fields (op : Opcode) : op.fields.Pairwise Field.Apart := by
  cases op <;> decide

/-- The field of an opcode that its last digit does not admit. -/
def refused? : Opcode → Option Field
  | rnd | jmc | jx | jme | call | cx | ldiSp | ldm | cmpi | tsti | modi | negi => some .immediate
  | shl | shr | mod => some .third
  | _ => none

theorem refused?_eq_some_iff (op : Opcode) :
    ∀ f ∈ op.fields, op.refused? = some f ↔ (Word.ofOpcode op).admits f = false := by
  cases op <;> decide

end Opcode

namespace Word

theorem get_ofOpcode (op : Opcode) (f : Field) : (ofOpcode op).get f = 0 := by
  cases f <;> simp [get, ofOpcode, first, second, third, immediate, nibble, joinBytes]

/-- **Setting the fields of an opcode.**  Starting from the bare opcode, the setters of the fields
that its action is made from are called once each, in any order.  The opcode stays, and every field
has the value that it was given, apart from the one that the last digit of the opcode refuses: it
stays clear. -/
theorem encoded_of_perm (op : Opcode) (cs : List Setting)
    (hcs : (cs.map Setting.field).Perm op.fields) (hfit : ∀ c ∈ cs, c.Fits) :
    op.Uses op.fields ∧
    ((ofOpcode op).setAll cs).opcode = op.byte ∧ ((ofOpcode op).setAll cs).kind = some op ∧
    (∀ c ∈ cs, op.refused? ≠ some c.field → ((ofOpcode op).setAll cs).get c.field = c.value) ∧
    (∀ c ∈ cs, op.refused? = some c.field → ((ofOpcode op).setAll cs).get c.field = 0) ∧
    (∀ f ∈ op.fields, op.refused? = some f ↔ (ofOpcode op).admits f = false) := by
  have hapart : (cs.map Setting.field).Pairwise Field.Apart :=
    (hcs.pairwise_iff fun h => h.symm).mpr op.pairwise_apart_fields
  have hmem {c : Setting} (hc : c ∈ cs) : c.field ∈ op.fields :=
    hcs.mem_iff.mp (List.mem_map_of_mem hc)
  have hop : ((ofOpcode op).setAll cs).opcode = op.byte := opcode_setAll _ cs
  refine ⟨op.uses_fields, hop, ?_, fun c hc href => ?_, fun c hc href => ?_,
    op.refused?_eq_some_iff⟩
  · rw [kind, hop]
    exact Opcode.ofByte?_byte op
  · have hadm : (ofOpcode op).admits c.field = true := by
      rwa [Ne, op.refused?_eq_some_iff _ (hmem hc), Bool.not_eq_false] at href
    rw [(get_setAll _ hapart hc).1 hadm, get_ofOpcode, Nat.zero_or, Nat.mod_eq_of_lt (hfit c hc)]
  · have hadm := (op.refused?_eq_some_iff _ (hmem hc)).mp href
    rw [(get_setAll _ hapart hc).2 hadm, get_ofOpcode]

/-- A jump if two registers are equal: the registers can be set, the target is lost. -/
theorem encoded_of_perm_jme :
    let cs := [Setting.immediate 0x1234, .second 2, .first 1]
    (ofOpcode .jme).setAll cs = { opcode := 0x13, registers := 0x21 } ∧
      ((ofOpcode .jme).setAll cs).get .first = 1 ∧ ((ofOpcode .jme).setAll cs).get .second = 2 ∧
      ((ofOpcode .jme).setAll cs).get .immediate = 0 := by
  intro cs
  obtain ⟨-, -, -, hset, hlost, -⟩ := encoded_of_perm .jme cs (by decide) (by decide)
  exact ⟨by decide, hset (.first 1) (by decide) (by decide),
    hset (.second 2) (by decide) (by decide), hlost (.immediate 0x1234) (by decide) rfl⟩

/-- The target of a jump on carry cannot be set. -/
theorem exists_setting_lost :
    ∃ (op : Opcode) (cs : List Setting), (cs.map Setting.field).Perm op.fields ∧
      (∀ c ∈ cs, c.Fits) ∧ ∃ c ∈ cs, ((ofOpcode op).setAll cs).get c.field ≠ c.value :=
  ⟨.jmc, [.immediate 1], by decide, by decide, .immediate 1, by decide, by decide⟩

end Word

end Compiler16.Machine
