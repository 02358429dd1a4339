import Compiler16.Proofs.Machine.Fields

/-!
# Calls of setters

A setter adds bits to its field, or does nothing if the form of the word does not admit the field.
Which of the two it is depends on the opcode, which no setter changes, so calls of setters do not
get into each other's way: what counts is which calls there are, not their order and not how often
each is made.

Only in one place do fields have bits in common.  The third operand lies in the first byte of the
immediate.  No form admits both, but a form that admits one of them lets its setter change what is
read from the other.

## Main definitions

* `Setting.given`: the bits that a list of calls gives to a field

## Main results

* `Word.get_setAll_of_not_apart`: a field after a list of calls, by the field that it has bits in
  common with
* `Word.setAll_congr`: the same calls give the same word
* `Word.fields_of_setAll`: the word after a list of calls
-/

namespace Compiler16.Machine

/-! ## The bits of a list of calls -/

namespace Setting

/-- The bits that the calls give to a field, all together. -/
def given (f : Field) : List Setting → Nat
  | [] => 0
  | c :: cs => if c.field = f then c.value % f.size ||| given f cs else given f cs

theorem testBit_given (f : Field) (cs : List Setting) (i : Nat) :
    (given f cs).testBit i = true ↔
      ∃ c ∈ cs, c.field = f ∧ (c.value % f.size).testBit i = true := by
  induction cs with
  | nil => simp [given]
  | cons c cs ih =>
    by_cases h : c.field = f
    · simp only [given, h, if_true, Nat.testBit_or, Bool.or_eq_true, ih, List.mem_cons,
        exists_eq_or_imp, true_and]
    · simp only [given, h, if_false, ih, List.mem_cons, exists_eq_or_imp, false_and, false_or]

theorem given_congr {cs cs' : List Setting} (h : ∀ c, c ∈ cs ↔ c ∈ cs') (f : Field) :
    given f cs = given f cs' := by
  apply Nat.eq_of_testBit_eq
  intro i
  rw [Bool.eq_iff_iff, testBit_given, testBit_given]
  simp only [h]

end Setting

namespace Field

theorem or_mod_size (f : Field) (a b : Nat) : (a ||| b) % f.size = a % f.size ||| b % f.size := by
  cases f with
  | immediate => exact Nat.or_mod_two_pow (n := 16)
  | _ => exact Nat.or_mod_two_pow (n := 4)

/-- The third operand and the immediate are the only two fields with bits in common. -/
theorem not_apart_iff (f g : Field) :
    ¬ f.Apart g ↔ f = g ∨ f = third ∧ g = immediate ∨ f = immediate ∧ g = third := by
  cases f <;> cases g <;> decide

end Field

theorem Setting.given_mod_size (f : Field) (cs : List Setting) :
    given f cs % f.size = given f cs := by
  induction cs with
  | nil => exact Nat.zero_mod _
  | cons c cs ih =>
    by_cases h : c.field = f
    · simp only [given, h, if_true, f.or_mod_size, Nat.mod_mod, ih]
    · simp only [given, h, if_false, ih]

/-! ## One call -/

theorem toNat_joinBytes_or_low (a b v : UInt8) :
    (joinBytes (a ||| (v &&& 0x0F)) b).toNat = (joinBytes a b).toNat ||| v.toNat % 16 := by
  have hjoin : joinBytes (a ||| (v &&& 0x0F)) b = joinBytes a b ||| joinBytes (v &&& 0x0F) 0 := by
    rw [← joinBytes_or, UInt8.or_zero]
  have hnibble : (joinBytes (v &&& 0x0F) 0).toNat = v.toNat % 16 := by
    rw [toNat_joinBytes, UInt8.toNat_and]
    exact Nat.and_two_pow_sub_one_eq_mod v.toNat 4
  rw [hjoin, UInt16.toNat_or, hnibble]

theorem val_nibble_or_lowByte (a : UInt8) (v : UInt16) :
    (nibble (a ||| lowByte v)).val = (nibble a).val ||| v.toNat % 16 := by
  have hlow : v.toNat % 16 = (lowByte v).toNat % 16 := by
    rw [toNat_lowByte]
    omega
  simp only [nibble, UInt8.toNat_or, hlow]
  exact Nat.or_mod_two_pow (n := 4)

namespace Word

open Setting (given)

/-- No form admits both fields that have bits in common. -/
theorem not_admits_third_immediate (w : Word) :
    ¬ (w.admits .third = true ∧ w.admits .immediate = true) := by
  simp only [admits]
  grind

/-- At most one setter writes to the bits of a field. -/
theorem eq_of_admits_of_not_apart {w : Word} {f g g' : Field} (hg : w.admits g = true)
    (hg' : w.admits g' = true) (h : ¬ g.Apart f) (h' : ¬ g'.Apart f) : g = g' := by
  have hboth := w.not_admits_third_immediate
  rw [Field.not_apart_iff] at h h'
  grind

/-- What a setter adds is seen in the fields that have bits in common with its own. -/
theorem get_set_of_not_apart {w : Word} {c : Setting} {f : Field}
    (h : w.admits c.field = true) (hf : ¬ c.field.Apart f) :
    (w.set c).get f = w.get f ||| c.value % c.field.size % f.size := by
  rcases (Field.not_apart_iff _ _).mp hf with rfl | ⟨hc, rfl⟩ | ⟨hc, rfl⟩
  · rw [get_set_of_admits h, Nat.mod_mod]
  · cases c with
    | third v =>
      have hs : (w.usesImmediate || w.isInplace) = false := by
        simpa [admits, Setting.field] using h
      have hv : v.toNat % 16 % 65536 = v.toNat % 16 := by omega
      simp only [set, setThird, hs]
      exact (toNat_joinBytes_or_low _ _ v).trans (congrArg _ hv.symm)
    | _ => cases hc
  · cases c with
    | immediate v =>
      have hs : w.usesImmediate = true := h
      have hv : v.toNat % 65536 % 16 = v.toNat % 16 := by omega
      simp only [set, setImmediate, hs, if_true]
      exact (val_nibble_or_lowByte _ v).trans (congrArg _ hv.symm)
    | _ => cases hc

/-! ## A list of calls -/

/-- **A field after a list of calls.**  If the form admits a field `g` with bits in common with `f`,
which may be `f` itself, then what the calls give to `g` is added, as far as `f` goes. -/
theorem get_setAll_of_not_apart {w : Word} {f g : Field} (hg : w.admits g = true)
    (hgf : ¬ g.Apart f) (cs : List Setting) :
    (w.setAll cs).get f = w.get f ||| given g cs % f.size := by
  induction cs generalizing w with
  | nil => simp [setAll, given]
  | cons c cs ih =>
    have hform : (w.set c).admits g = true := by
      rwa [admits_eq_of_opcode_eq (opcode_set w c)]
    have hrest : (w.setAll (c :: cs)).get f = (w.set c).get f ||| given g cs % f.size := ih hform
    rw [hrest, given]
    by_cases hc : c.field = g
    · subst hc
      rw [if_pos rfl, get_set_of_not_apart hg hgf, f.or_mod_size, Nat.or_assoc]
    · -- a call that is refused, or for a field that has no bits in common with `f`
      have hkept : (w.set c).get f = w.get f := by
        cases ha : w.admits c.field with
        | false => rw [set_of_not_admits ha]
        | true =>
          refine get_set_of_apart w (Decidable.byContradiction fun hcf => hc ?_)
          exact eq_of_admits_of_not_apart ha hg hcf hgf
      rw [if_neg hc, hkept]

/-- A field without bits that any setter writes to stays as it is. -/
theorem get_setAll_of_forall_apart {w : Word} {f : Field}
    (h : ∀ g, w.admits g = true → g.Apart f) (cs : List Setting) :
    (w.setAll cs).get f = w.get f := by
  induction cs generalizing w with
  | nil => rfl
  | cons c cs ih =>
    have hform : ∀ g, (w.set c).admits g = true → g.Apart f := by
      intro g hg
      rw [admits_eq_of_opcode_eq (opcode_set w c)] at hg
      exact h g hg
    refine Eq.trans (ih hform) ?_
    cases ha : w.admits c.field with
    | false => rw [set_of_not_admits ha]
    | true => exact get_set_of_apart w (h _ ha)

/-- A word is made of its opcode and its fields. -/
theorem eq_of_get_eq {w w' : Word} (hop : w.opcode = w'.opcode) (h : ∀ f, w.get f = w'.get f) :
    w = w' := by
  -- the third operand is part of the immediate, so the other three fields make up all bits
  have hregisters : w.registers = w'.registers := by
    have hfirst : w.registers.toNat % 16 = w'.registers.toNat % 16 := h .first
    have hsecond : (w.registers >>> 4).toNat % 16 = (w'.registers >>> 4).toNat % 16 := h .second
    have hlt := w.registers.toNat_lt
    have hlt' := w'.registers.toNat_lt
    simp only [UInt8.toNat_shiftRight, UInt8.reduceToNat, Nat.reduceMod, Nat.shiftRight_eq_div_pow,
      Nat.reducePow] at hsecond
    rw [← UInt8.toNat_inj]
    omega
  have himmediate : joinBytes w.low w.high = joinBytes w'.low w'.high :=
    UInt16.toNat_inj.mp (h .immediate)
  have hlow : w.low = w'.low := by
    rw [← lowByte_joinBytes w.low w.high, himmediate, lowByte_joinBytes]
  have hhigh : w.high = w'.high := by
    rw [← highByte_joinBytes w.low w.high, himmediate, highByte_joinBytes]
  cases w
  cases w'
  simp_all only

/-- **The same calls give the same word**, in any order and however often each is made. -/
theorem setAll_congr (w : Word) {cs cs' : List Setting} (h : ∀ c, c ∈ cs ↔ c ∈ cs') :
    w.setAll cs = w.setAll cs' := by
  refine eq_of_get_eq ((opcode_setAll w cs).trans (opcode_setAll w cs').symm) fun f => ?_
  -- the bits of `f` are written by the setter of one field, or by none
  by_cases hf : ∃ g, w.admits g = true ∧ ¬ g.Apart f
  · obtain ⟨g, hg, hgf⟩ := hf
    rw [get_setAll_of_not_apart hg hgf, get_setAll_of_not_apart hg hgf, Setting.given_congr h]
  · have hapart : ∀ g, w.admits g = true → g.Apart f := by
      intro g hg
      exact Decidable.byContradiction fun hgf => hf ⟨g, hg, hgf⟩
    rw [get_setAll_of_forall_apart hapart, get_setAll_of_forall_apart hapart]

/-- **The word after a list of calls of setters.**  The opcode stays, and with it which fields the
form admits.  The same calls in another order, or some of them made again, give the same word.  To a
field that the form admits the calls of its own setter add what they were given, and no others add
anything.  A field that the form does not admit stays as it is, apart from the bits that it has in
common with an admitted one: where the immediate is admitted they are seen in the third operand, and
where the third operand is admitted they are seen in the immediate.  No form admits both. -/
theorem fields_of_setAll (w : Word) (cs : List Setting) :
    (w.setAll cs).opcode = w.opcode ∧ (∀ f, (w.setAll cs).admits f = w.admits f) ∧
    (∀ cs' : List Setting, (∀ c, c ∈ cs' ↔ c ∈ cs) → w.setAll cs' = w.setAll cs) ∧
    (∀ f, w.admits f = true → (w.setAll cs).get f = w.get f ||| given f cs) ∧
    (w.admits .second = false → (w.setAll cs).get .second = w.get .second) ∧
    (w.admits .third = false → w.admits .immediate = false →
      (w.setAll cs).get .third = w.get .third ∧
        (w.setAll cs).get .immediate = w.get .immediate) ∧
    (w.admits .immediate = true →
      (w.setAll cs).get .third = w.get .third ||| given .immediate cs % 16) ∧
    (w.admits .third = true →
      (w.setAll cs).get .immediate = w.get .immediate ||| given .third cs) ∧
    ¬ (w.admits .third = true ∧ w.admits .immediate = true) := by
  have hop := opcode_setAll w cs
  -- the third operand and the immediate have bits in common with each other and with no other field
  have hothers {f g : Field} (hf : w.admits f = false) (hg : w.admits g = true)
      (hgf : ¬ g.Apart f) : f = .third ∧ g = .immediate ∨ f = .immediate ∧ g = .third := by
    rcases (Field.not_apart_iff g f).mp hgf with rfl | h | h
    · rw [hf] at hg
      cases hg
    · exact .inr h.symm
    · exact .inl h.symm
  refine ⟨hop, admits_eq_of_opcode_eq hop, fun cs' h => setAll_congr w h, fun f hf => ?_,
    fun hsecond => ?_, fun hthird himm => ⟨?_, ?_⟩, fun himm => ?_, fun hthird => ?_,
    w.not_admits_third_immediate⟩
  · rw [get_setAll_of_not_apart hf f.not_apart_self, Setting.given_mod_size]
  · refine get_setAll_of_forall_apart (fun g hg => Decidable.byContradiction fun hgf => ?_) cs
    rcases hothers hsecond hg hgf with ⟨h, -⟩ | ⟨h, -⟩ <;> cases h
  · refine get_setAll_of_forall_apart (fun g hg => Decidable.byContradiction fun hgf => ?_) cs
    rcases hothers hthird hg hgf with ⟨-, rfl⟩ | ⟨h, -⟩
    · rw [himm] at hg
      cases hg
    · cases h
  · refine get_setAll_of_forall_apart (fun g hg => Decidable.byContradiction fun hgf => ?_) cs
    rcases hothers himm hg hgf with ⟨h, -⟩ | ⟨-, rfl⟩
    · cases h
    · rw [hthird] at hg
      cases hg
  · exact get_setAll_of_not_apart himm (mt Field.Apart.symm Field.not_apart_third_immediate) cs
  · have hsmall : given .third cs < 65536 := by
      have hmod : given .third cs % 16 = given .third cs := Setting.given_mod_size .third cs
      omega
    refine (get_setAll_of_not_apart hthird Field.not_apart_third_immediate cs).trans ?_
    exact congrArg _ (Nat.mod_eq_of_lt hsmall)

/-- The setters of all fields are called on a difference of registers: its form refuses the
immediate, and the third operand is read in its place. -/
theorem fields_of_setAll_sub :
    let cs := [Setting.first 1, .second 2, .third 3, .immediate 4]
    let w := (ofOpcode .sub).setAll cs
    w.get .first = 1 ∧ w.get .second = 2 ∧ w.get .third = 3 ∧ w.get .immediate = 3 ∧
      (ofOpcode .sub).setAll cs.reverse = w := by
  intro cs w
  obtain ⟨-, -, hsame, hown, -, -, -, hshared, -⟩ := fields_of_setAll (ofOpcode .sub) cs
  exact ⟨(hown .first rfl).trans (by decide), (hown .second rfl).trans (by decide),
    (hown .third rfl).trans (by decide), (hshared rfl).trans (by decide),
    hsame _ fun c => List.mem_reverse⟩

/-- A field that the form of a word does not admit may still change. -/
theorem exists_refused_field_changed :
    ∃ (w : Word) (cs : List Setting) (f : Field),
      w.admits f = false ∧ (w.setAll cs).get f ≠ w.get f :=
  ⟨ofOpcode .sub, [.third 3], .immediate, by decide, by decide⟩

end Word

end Compiler16.Machine
