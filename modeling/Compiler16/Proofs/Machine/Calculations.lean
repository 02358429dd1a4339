import Compiler16.Proofs.Machine.Reachable
import Mathlib.Algebra.Order.Ring.Int

/-!
# Calculations

The machine calculates with integers and keeps the last sixteen bits.  This module says for each
instruction of arithmetic and logic what it calculates: on the integers, without a bound, and with
the flags put in terms of the integers too.  Then it shows that the machine does so, whichever
registers the operands come from and the result goes to.

Words stand for integers in two ways: without a sign, and in two's complement.  Addition,
subtraction and multiplication do not depend on the way; the order of words, the overflow flag and
the shift to the right that keeps the sign do.

## Main definitions

* `signed`: a word as a number in two's complement
* `Calculation`: an operation with the words it is applied to
* `Calculation.exact`, `Calculation.carry?`, `Calculation.overflow?`: its result and flags
* `Opcode.calculation?`: what a word of an opcode calculates, and where the result goes
* `Cpu.Calculated`: what a calculation leaves behind

## Main results

* `Calculation.toNat_of_result?`: results are exact modulo `2 ^ 16`
* `Flags.overflow_afterSub`: the overflow flag of a difference
* `State.calculated_of_step`: what a step of arithmetic or logic does
-/

namespace Compiler16.Machine

/-! ## Flags one by one -/

namespace Flags

variable (s : Flags) {f g : Flag} (on : Bool)

/-- Bits other than that of the flag stay as they are. -/
theorem bits_assign_and {m : UInt16} (h : f.mask &&& m = 0) :
    (s.assign f on).bits &&& m = s.bits &&& m := by
  apply UInt16.eq_of_toBitVec_eq
  ext i hi
  have hbit : (f.mask.toBitVec[i] && m.toBitVec[i]) = false := by
    simpa using congrArg (fun b : UInt16 => b.toBitVec[i]) h
  cases on <;> simp only [assign, raise, lower, Bool.false_eq_true, if_true, if_false,
    UInt16.toBitVec_and, UInt16.toBitVec_or, UInt16.toBitVec_not, BitVec.getElem_and,
    BitVec.getElem_or, BitVec.getElem_not] <;> grind

theorem mask_and_mask (h : f ≠ g) : f.mask &&& g.mask = 0 := by
  revert h
  cases f <;> cases g <;> decide

@[simp] theorem has_assign_self (f : Flag) : (s.assign f on).has f = on := by
  cases on with
  | true =>
    have hbits : (s.bits ||| f.mask) &&& f.mask = f.mask := by
      apply UInt16.eq_of_toBitVec_eq
      ext i hi
      simp only [UInt16.toBitVec_and, UInt16.toBitVec_or, BitVec.getElem_and, BitVec.getElem_or]
      grind
    have hmask : f.mask ≠ 0 := by
      cases f <;> decide
    simp [assign, raise, has, hbits, hmask]
  | false =>
    have hbits : s.bits &&& ~~~f.mask &&& f.mask = 0 := by
      apply UInt16.eq_of_toBitVec_eq
      ext i hi
      simp
    simp [assign, lower, has, hbits]

@[simp] theorem has_assign_of_ne (h : f ≠ g) : (s.assign f on).has g = s.has g := by
  simp only [has, s.bits_assign_and on (mask_and_mask h)]

end Flags

/-! ## Words and integers -/

/-- The number that a word stands for in two's complement. -/
def signed (v : UInt16) : Int := v.toBitVec.toInt

theorem signed_eq (v : UInt16) :
    signed v = if v.toNat < 2 ^ 15 then (v.toNat : Int) else v.toNat - 2 ^ 16 := by
  have h : signed v = if 2 * v.toNat < 2 ^ 16 then (v.toNat : Int) else v.toNat - (2 ^ 16 : Nat) :=
    BitVec.toInt_eq_toNat_cond v.toBitVec
  grind

theorem isNegative_eq (v : UInt16) : isNegative v = decide (2 ^ 15 ≤ v.toNat) := by
  have hmsb : v.toBitVec.getLsbD 15 = decide (2 ^ 15 ≤ v.toNat) :=
    (BitVec.msb_eq_getLsbD_last _).symm.trans (BitVec.msb_eq_decide _)
  have hand : (v &&& 0x8000).toBitVec =
      if v.toBitVec.getLsbD 15 then BitVec.twoPow 16 15 else 0#16 := BitVec.and_twoPow _ 15
  rw [← hmsb]
  cases hbit : v.toBitVec.getLsbD 15 with
  | true =>
    rw [hbit, if_pos rfl] at hand
    rw [isNegative, bne_iff_ne]
    intro hzero
    rw [hzero] at hand
    exact absurd hand (by decide)
  | false =>
    rw [hbit, if_neg Bool.false_ne_true] at hand
    have hzero : v &&& 0x8000 = 0 := UInt16.eq_of_toBitVec_eq hand
    rw [isNegative, hzero]
    rfl

/-! ## Calculations on the integers -/

/-- An operation with the words it is applied to. -/
inductive Calculation where
  | binary (op : BinaryOp) (x y : UInt16)
  | unary (op : UnaryOp) (x : UInt16)
  | shift (op : ShiftOp) (x n : UInt16)
  deriving DecidableEq, Repr

namespace Calculation

/-- The result as an integer.  Quotients are rounded down, so a shift to the right by many bits ends
at zero, or at minus one if it keeps the sign of a negative number. -/
def exact : Calculation → Int
  | binary .add x y => x.toNat + y.toNat
  | binary .sub x y => x.toNat - y.toNat
  | binary .and x y => (x.toNat &&& y.toNat : Nat)
  | binary .or x y => (x.toNat ||| y.toNat : Nat)
  | binary .xor x y => (x.toNat ^^^ y.toNat : Nat)
  | binary .mul x y => x.toNat * y.toNat
  | binary .div x y => x.toNat / y.toNat
  | binary .mod x y => x.toNat % y.toNat
  | unary .not x => -x.toNat - 1
  | unary .neg x => -x.toNat
  | shift .shl x n => x.toNat * 2 ^ n.toNat
  | shift .shr x n => x.toNat / 2 ^ n.toNat
  | shift .sar x n => signed x / 2 ^ n.toNat

/-- What the carry flag is set to, if it is set: whether a sum or product does not fit into a word,
whether a difference has to borrow, and whether a division leaves a remainder. -/
def carry? : Calculation → Option Bool
  | binary .add x y => some (2 ^ 16 ≤ x.toNat + y.toNat)
  | binary .sub x y => some (x.toNat < y.toNat)
  | binary .mul x y => some (2 ^ 16 ≤ x.toNat * y.toNat)
  | binary .div x y => some (x.toNat % y.toNat ≠ 0)
  | _ => none

/-- What the overflow flag is set to, if it is set: whether a difference is no number in two's
complement.  Of sums this is not quite so: two negative numbers always count as an overflow. -/
def overflow? : Calculation → Option Bool
  | binary .add x y => some (signed x < 0 ∧ signed y < 0 ∨
      0 ≤ signed x ∧ 0 ≤ signed y ∧ 2 ^ 15 ≤ x.toNat + y.toNat)
  | binary .sub x y => some (¬ (-2 ^ 15 ≤ signed x - signed y ∧ signed x - signed y ≤ 2 ^ 15 - 1))
  | _ => none

/-- Nothing is divided by zero. -/
def Defined : Calculation → Prop
  | binary .div _ y | binary .mod _ y => y ≠ 0
  | _ => True

/-! ### Results of the machine -/

/-- The word that the machine finds; none for a division by zero. -/
def result? : Calculation → Option UInt16
  | binary op x y => op.result? x y
  | unary op x => some (op.apply x)
  | shift op x n => some (op.apply x n)

/-- The flags that the machine sets before it looks at the result. -/
def carryFlags (s : Flags) : Calculation → Flags
  | binary op x y => op.carryFlags s x y
  | unary .. | shift .. => s

theorem Defined.exists_result? {k : Calculation} (h : k.Defined) : ∃ v, k.result? = some v := by
  cases k with
  | binary op x y =>
    refine Option.ne_none_iff_exists'.mp fun hnone => ?_
    obtain ⟨rfl | rfl, hy⟩ := (BinaryOp.result?_eq_none_iff op x y).mp hnone <;> exact h hy
  | unary op x => exact ⟨_, rfl⟩
  | shift op x n => exact ⟨_, rfl⟩

end Calculation

/-- A number that fits into a word is its own remainder. -/
theorem toNat_emod {v : UInt16} {n : Nat} (h : v.toNat = n) : (v.toNat : Int) = n % 2 ^ 16 := by
  have hv := v.toNat_lt
  omega

theorem BinaryOp.toNat_of_result? {op : BinaryOp} {x y v : UInt16} (h : op.result? x y = some v) :
    (v.toNat : Int) = (Calculation.binary op x y).exact % 2 ^ 16 := by
  have hx := x.toNat_lt
  have hy := y.toNat_lt
  cases op with
  | add =>
    cases h
    rw [UInt16.toNat_add]
    exact Int.natCast_emod _ _
  | sub =>
    cases h
    rw [UInt16.toNat_sub]
    simp only [Calculation.exact]
    omega
  | and =>
    cases h
    exact toNat_emod (UInt16.toNat_and x y)
  | or =>
    cases h
    exact toNat_emod (UInt16.toNat_or x y)
  | xor =>
    cases h
    exact toNat_emod (UInt16.toNat_xor x y)
  | mul =>
    cases h
    rw [UInt16.toNat_mul]
    exact Int.natCast_emod _ _
  | div =>
    simp only [result?] at h
    split at h <;> cases h
    exact toNat_emod (UInt16.toNat_div x y)
  | mod =>
    simp only [result?] at h
    split at h <;> cases h
    exact toNat_emod (UInt16.toNat_mod x y)

theorem UnaryOp.toNat_apply (op : UnaryOp) (x : UInt16) :
    ((op.apply x).toNat : Int) = (Calculation.unary op x).exact % 2 ^ 16 := by
  have hx := x.toNat_lt
  cases op with
  | not =>
    simp only [apply, UInt16.toNat_not, UInt16.size, Calculation.exact]
    omega
  | neg =>
    simp only [apply, UInt16.toNat_neg, UInt16.size, Calculation.exact]
    omega

namespace ShiftOp

theorem toNat_logicalRight (x n : UInt16) : (logicalRight x n).toNat = x.toNat / 2 ^ n.toNat := by
  have hx := x.toNat_lt
  unfold logicalRight
  split
  · next hn =>
    have hn : n.toNat < 16 := hn
    rw [UInt16.toNat_shiftRight, Nat.mod_eq_of_lt hn, Nat.shiftRight_eq_div_pow]
  · next hn =>
    -- all bits are shifted out
    have hn : 16 ≤ n.toNat := UInt16.not_lt.mp hn
    have hpow : 2 ^ 16 ≤ 2 ^ n.toNat := Nat.pow_le_pow_right (by decide) hn
    exact (Nat.div_eq_of_lt (Nat.lt_of_lt_of_le hx hpow)).symm

theorem toNat_shiftLeft (x n : UInt16) :
    (ShiftOp.shl.apply x n).toNat = x.toNat * 2 ^ n.toNat % 2 ^ 16 := by
  simp only [apply]
  split
  · next hn =>
    have hn : n.toNat < 16 := hn
    rw [UInt16.toNat_shiftLeft, Nat.mod_eq_of_lt hn, Nat.shiftLeft_eq]
  · next hn =>
    have hn : 16 ≤ n.toNat := UInt16.not_lt.mp hn
    have hdvd : 2 ^ 16 ∣ x.toNat * 2 ^ n.toNat :=
      Nat.dvd_mul_left_of_dvd (Nat.pow_dvd_pow 2 hn) _
    exact (Nat.mod_eq_zero_of_dvd hdvd).symm

/-- Below zero, a quotient that is rounded down is that of the complement, and its complement. -/
theorem negative_ediv (a d : Nat) (h : 0 < d) : (-(a : Int) - 1) / d = -(a / d : Nat) - 1 := by
  have hneg : (-(a : Int) - 1) = Int.negSucc a := by omega
  have hdiv := Int.negSucc_ediv a (b := d) (by omega)
  rw [hneg, hdiv]
  change -((a : Int) / d + 1) = _
  rw [← Int.natCast_ediv]
  omega

theorem toNat_apply (op : ShiftOp) (x n : UInt16) :
    ((op.apply x n).toNat : Int) = (Calculation.shift op x n).exact % 2 ^ 16 := by
  have hx := x.toNat_lt
  have hpos : 0 < 2 ^ n.toNat := Nat.two_pow_pos _
  cases op with
  | shl =>
    rw [toNat_shiftLeft, Int.natCast_emod, Int.natCast_mul, Int.natCast_pow]
    rfl
  | shr =>
    refine (toNat_emod (toNat_logicalRight x n)).trans ?_
    rw [Int.natCast_ediv, Int.natCast_pow]
    rfl
  | sar =>
    have hexact : (Calculation.shift .sar x n).exact = signed x / (2 ^ n.toNat : Nat) := by
      rw [Int.natCast_pow]
      rfl
    rw [hexact, signed_eq]
    simp only [apply, isNegative_eq, decide_eq_true_eq]
    by_cases hneg : x.toNat < 2 ^ 15
    · rw [if_neg (Nat.not_le.mpr hneg), if_pos hneg, toNat_emod (toNat_logicalRight x n),
        Int.natCast_ediv]
    · -- the complement of the word is shifted, and is not negative
      rw [if_pos (Nat.not_lt.mp hneg), if_neg hneg]
      have hcomplement : (~~~x).toNat = 2 ^ 16 - 1 - x.toNat := UInt16.toNat_not x
      have hnumber : (x.toNat : Int) - 2 ^ 16 = -((2 ^ 16 - 1 - x.toNat : Nat) : Int) - 1 := by
        omega
      have hle : (2 ^ 16 - 1 - x.toNat) / 2 ^ n.toNat ≤ 2 ^ 16 - 1 - x.toNat := Nat.div_le_self _ _
      rw [UInt16.toNat_not, toNat_logicalRight, hcomplement, hnumber, negative_ediv _ _ hpos]
      generalize (2 ^ 16 - 1 - x.toNat) / 2 ^ n.toNat = q at hle
      simp only [UInt16.size]
      omega

end ShiftOp

/-- **Results are exact** modulo `2 ^ 16`. -/
theorem Calculation.toNat_of_result? {k : Calculation} {v : UInt16} (h : k.result? = some v) :
    (v.toNat : Int) = k.exact % 2 ^ 16 := by
  cases k with
  | binary op x y => exact BinaryOp.toNat_of_result? h
  | unary op x =>
    cases h
    exact op.toNat_apply x
  | shift op x n =>
    cases h
    exact op.toNat_apply x n

/-! ## Flags -/

namespace Flags

variable (s : Flags) (x y : UInt16)

/-- A sum that does not fit is less than its operands. -/
theorem carry_afterAdd : (s.afterAdd x y).has .carry = decide (2 ^ 16 ≤ x.toNat + y.toNat) := by
  have hx := x.toNat_lt
  have hy := y.toNat_lt
  rw [afterAdd, has_assign_of_ne _ _ (by decide), has_assign_self, decide_eq_decide,
    UInt16.lt_iff_toNat_lt, UInt16.toNat_add]
  omega

theorem overflow_afterAdd : (s.afterAdd x y).has .overflow =
    decide (signed x < 0 ∧ signed y < 0 ∨
      0 ≤ signed x ∧ 0 ≤ signed y ∧ 2 ^ 15 ≤ x.toNat + y.toNat) := by
  have hx := x.toNat_lt
  have hy := y.toNat_lt
  rw [afterAdd, has_assign_self, Bool.eq_iff_iff]
  simp only [isNegative_eq, signed_eq, UInt16.toNat_add, Bool.or_eq_true, Bool.and_eq_true,
    Bool.not_eq_true', decide_eq_true_eq, decide_eq_false_iff_not]
  grind

theorem carry_afterSub : (s.afterSub x y).has .carry = decide (x.toNat < y.toNat) := by
  rw [afterSub, has_assign_of_ne _ _ (by decide), has_assign_self, decide_eq_decide,
    UInt16.lt_iff_toNat_lt]

/-- **The overflow flag of a difference** tells that it is no number in two's complement. -/
theorem overflow_afterSub : (s.afterSub x y).has .overflow =
    decide (¬ (-2 ^ 15 ≤ signed x - signed y ∧ signed x - signed y ≤ 2 ^ 15 - 1)) := by
  have hx := x.toNat_lt
  have hy := y.toNat_lt
  rw [afterSub, has_assign_self, Bool.eq_iff_iff]
  simp only [isNegative_eq, signed_eq, UInt16.toNat_sub, Bool.and_eq_true, bne_iff_ne, ne_eq,
    decide_eq_decide, decide_eq_true_eq]
  grind

theorem carry_afterMul : (s.afterMul x y).has .carry = decide (2 ^ 16 ≤ x.toNat * y.toNat) := by
  rw [afterMul, has_assign_self, decide_eq_decide]
  omega

theorem carry_afterDiv (hy : y ≠ 0) :
    (s.afterDiv x y).has .carry = decide (x.toNat % y.toNat ≠ 0) := by
  rw [afterDiv, has_assign_self, Bool.eq_iff_iff]
  simp only [Bool.and_eq_true, bne_iff_ne, ne_eq, hy, not_false_eq_true, true_and,
    decide_eq_true_eq, ← UInt16.toNat_inj, UInt16.toNat_mod]
  rfl

end Flags

namespace Calculation

variable {k : Calculation} (s : Flags)

/-- The carry flag is set as it should be, or else left alone. -/
theorem has_carry_carryFlags (h : k.Defined) :
    (k.carryFlags s).has .carry = k.carry?.getD (s.has .carry) := by
  cases k with
  | binary op x y =>
    cases op with
    | add => exact s.carry_afterAdd x y
    | sub => exact s.carry_afterSub x y
    | mul => exact s.carry_afterMul x y
    | div => exact s.carry_afterDiv x y h
    | and | or | xor | mod => rfl
  | unary op x => rfl
  | shift op x n => rfl

theorem has_overflow_carryFlags (k : Calculation) :
    (k.carryFlags s).has .overflow = k.overflow?.getD (s.has .overflow) := by
  cases k with
  | binary op x y =>
    cases op with
    | add => exact s.overflow_afterAdd x y
    | sub => exact s.overflow_afterSub x y
    | mul => exact Flags.has_assign_of_ne _ _ (by decide)
    | div => exact Flags.has_assign_of_ne _ _ (by decide)
    | and | or | xor | mod => rfl
  | unary op x => rfl
  | shift op x n => rfl

/-- The bits without a meaning stay as they are. -/
theorem bits_carryFlags_and (k : Calculation) :
    (k.carryFlags s).bits &&& 0xFF39 = s.bits &&& 0xFF39 := by
  have htwo : ∀ on on', ((s.assign .carry on).assign .overflow on').bits &&& 0xFF39 =
      s.bits &&& 0xFF39 := fun on on' =>
    (Flags.bits_assign_and _ _ (by decide)).trans (Flags.bits_assign_and _ _ (by decide))
  cases k with
  | binary op x y =>
    cases op with
    | add => exact htwo _ _
    | sub => exact htwo _ _
    | mul => exact Flags.bits_assign_and _ _ (by decide)
    | div => exact Flags.bits_assign_and _ _ (by decide)
    | and | or | xor | mod => rfl
  | unary op x => rfl
  | shift op x n => rfl

end Calculation

/-! ## What an instruction calculates -/

/-- What a word of this opcode calculates from the contents of the registers, and the register that
the result goes to.  The forms of an opcode differ in where the second operand comes from and in
where the result goes: comparisons and tests have no place for it. -/
def Opcode.calculation? (op : Opcode) (c : Cpu) (w : Word) : Option (Calculation × Option Reg) :=
  let x := c.reg w.first
  let y := c.reg w.second
  let n := w.immediate
  match op with
  | addi => some (.binary .add x n, some w.first)
  | addInplace => some (.binary .add x y, some w.first)
  | add => some (.binary .add x y, some w.third)
  | subi => some (.binary .sub x n, some w.first)
  | subInplace => some (.binary .sub x y, some w.first)
  | sub => some (.binary .sub x y, some w.third)
  | cmpi => some (.binary .sub x n, none)
  | cmp => some (.binary .sub x y, none)
  | andi => some (.binary .and x n, some w.first)
  | andInplace => some (.binary .and x y, some w.first)
  | and => some (.binary .and x y, some w.third)
  | tsti => some (.binary .and x n, none)
  | tst => some (.binary .and x y, none)
  | ori => some (.binary .or x n, some w.first)
  | orInplace => some (.binary .or x y, some w.first)
  | or => some (.binary .or x y, some w.third)
  | xori => some (.binary .xor x n, some w.first)
  | xorInplace => some (.binary .xor x y, some w.first)
  | xor => some (.binary .xor x y, some w.third)
  | muli => some (.binary .mul x n, some w.first)
  | mulInplace => some (.binary .mul x y, some w.first)
  | mul => some (.binary .mul x y, some w.third)
  | divi => some (.binary .div x n, some w.first)
  | divInplace => some (.binary .div x y, some w.first)
  | div => some (.binary .div x y, some w.third)
  | modi => some (.binary .mod x n, some w.first)
  | modInplace => some (.binary .mod x y, some w.first)
  | mod => some (.binary .mod x y, some w.third)
  | noti => some (.unary .not n, some w.first)
  | notInplace => some (.unary .not x, some w.first)
  | not => some (.unary .not y, some w.first)
  | negi => some (.unary .neg n, some w.first)
  | negInplace => some (.unary .neg x, some w.first)
  | neg => some (.unary .neg y, some w.first)
  | shl => some (.shift .shl x (UInt16.ofNat w.third.val), some w.first)
  | shlReg => some (.shift .shl x y, some w.first)
  | shr => some (.shift .shr x (UInt16.ofNat w.third.val), some w.first)
  | shrReg => some (.shift .shr x y, some w.first)
  | sar => some (.shift .sar x (UInt16.ofNat w.third.val), some w.first)
  | sarReg => some (.shift .sar x y, some w.first)
  | nop | rnd | jmp | jmc | jx | jme | call | ret | jmpReg | cx | callReg | ldi | ldiSp | ldm
  | ldmReg | mov | stm | stmReg | push | pop | pushAll | popAll | pushF | popF => none

/-- What a calculation leaves behind. -/
structure Cpu.Calculated (k : Calculation) (dest : Option Reg) (c d : Cpu) : Prop where
  /-- The register that the result goes to holds it, reduced modulo `2 ^ 16`. -/
  result : ∀ r, dest = some r → ((d.reg r).toNat : Int) = k.exact % 2 ^ 16
  /-- All other registers are unchanged. -/
  reg : ∀ r, dest ≠ some r → d.reg r = c.reg r
  zero : d.flags.has .zero = decide (k.exact % 2 ^ 16 = 0)
  negative : d.flags.has .negative = decide (2 ^ 15 ≤ k.exact % 2 ^ 16)
  carry : d.flags.has .carry = k.carry?.getD (c.flags.has .carry)
  overflow : d.flags.has .overflow = k.overflow?.getD (c.flags.has .overflow)
  /-- The bits of the flag register that have no meaning are unchanged. -/
  bits : d.flags.bits &&& 0xFF39 = c.flags.bits &&& 0xFF39
  sp : d.sp = c.sp
  memory : d.memory = c.memory

/-- The processor with the result of a calculation in its place. -/
def Cpu.withResult (c : Cpu) (k : Calculation) (dest : Option Reg) (v : UInt16) : Cpu :=
  let d := c.mapFlags fun s => (k.carryFlags s).afterResult v
  match dest with
  | none => d
  | some r => d.setReg r v

/-- The opcode of a calculation carries it out. -/
theorem Opcode.exec_of_calculation? {op : Opcode} {c : Cpu} {w : Word} {k : Calculation}
    {dest : Option Reg} {v : UInt16} (drawn : UInt16) (h : op.calculation? c w = some (k, dest))
    (hv : k.result? = some v) : (op.action w).exec drawn c = .ok () (c.withResult k dest v) := by
  have hbinary : ∀ {bop x y}, bop.result? x y = some v →
      Exec.binary bop x y dest c = .ok () (c.withResult (.binary bop x y) dest v) := by
    intro bop x y hv
    rw [Exec.binary, hv]
    cases dest <;> rfl
  cases op <;> cases h
  all_goals first
    | exact hbinary hv
    | cases hv; rfl

theorem Cpu.calculated_withResult {k : Calculation} {v : UInt16} (hk : k.Defined)
    (hv : k.result? = some v) (c : Cpu) (dest : Option Reg) :
    Calculated k dest c (c.withResult k dest v) := by
  have hexact := k.toNat_of_result? hv
  have hflags : (c.withResult k dest v).flags = (k.carryFlags c.flags).afterResult v := by
    cases dest <;> rfl
  refine ⟨?_, ?_, ?_, ?_, ?_, ?_, ?_, ?_, ?_⟩
  · rintro r rfl
    rw [← hexact]
    simp [withResult]
  · intro r hr
    cases dest with
    | none => rfl
    | some q =>
      simp only [withResult, reg_setReg]
      rw [if_neg fun hqr => hr (by rw [hqr])]
      rfl
  · rw [hflags, ← hexact, Flags.afterResult, Flags.has_assign_of_ne _ _ (by decide),
      Flags.has_assign_self, Bool.eq_iff_iff]
    simp [← UInt16.toNat_inj]
  · rw [hflags, ← hexact, Flags.afterResult, Flags.has_assign_self, isNegative_eq, decide_eq_decide]
    omega
  · rw [hflags, Flags.afterResult, Flags.has_assign_of_ne _ _ (by decide),
      Flags.has_assign_of_ne _ _ (by decide)]
    exact k.has_carry_carryFlags _ hk
  · rw [hflags, Flags.afterResult, Flags.has_assign_of_ne _ _ (by decide),
      Flags.has_assign_of_ne _ _ (by decide)]
    exact k.has_overflow_carryFlags _
  · rw [hflags, Flags.afterResult, Flags.bits_assign_and _ _ (by decide),
      Flags.bits_assign_and _ _ (by decide)]
    exact k.bits_carryFlags_and _
  · cases dest <;> rfl
  · cases dest <;> rfl

namespace State

variable {G : Type} [Generator G] {m : State G} {op : Opcode} {k : Calculation} {dest : Option Reg}

/-- A step that calculates does not fault, and changes nothing but the processor. -/
theorem step_of_calculation? (hop : m.word.kind = some op)
    (hk : op.calculation? m.cpu m.word = some (k, dest)) (hdef : k.Defined) :
    ∃ v, k.result? = some v ∧
      m.step = (.empty, { m with cpu := m.cpu.fetch.2.withResult k dest v }) := by
  obtain ⟨v, hv⟩ := hdef.exists_result?
  refine ⟨v, hv, ?_⟩
  have haction : m.word.action = op.action m.word := by
    rw [Word.action, hop]
  -- no calculation draws a random number
  have hdraw : drawFor (op.action m.word) m.random = (0, m.random) := by
    cases op <;> cases hk <;> rfl
  -- the registers are not changed by the fetch
  have hexec : (op.action m.word).exec 0 m.cpu.fetch.2 =
      .ok () (m.cpu.fetch.2.withResult k dest v) := Opcode.exec_of_calculation? 0 hk hv
  rw [step_eq_stepWith, stepWith, execute, haction, hdraw]
  simp only [hexec]

/-- **The machine calculates with integers modulo `2 ^ 16`.**  Whatever the registers of the
operands and of the result are, a step of arithmetic or logic that divides nothing by zero raises no
fault.  The result is exact, the flags are those of the exact result, and all else is as it was, but
for the program counter that has moved on. -/
theorem calculated_of_step (hop : m.word.kind = some op)
    (hk : op.calculation? m.cpu m.word = some (k, dest)) (hdef : k.Defined) :
    m.step.1 = .empty ∧ Cpu.Calculated k dest m.cpu m.step.2.cpu ∧
      m.step.2.cpu.pc = m.cpu.pc + 4 ∧ m.step.2.random = m.random ∧ m.step.2.status = m.status := by
  obtain ⟨v, hv, hstep⟩ := step_of_calculation? hop hk hdef
  have hc := Cpu.calculated_withResult hdef hv m.cpu.fetch.2 dest
  rw [hstep]
  refine ⟨rfl, ⟨hc.result, hc.reg, hc.zero, hc.negative, hc.carry, hc.overflow, hc.bits, hc.sp,
    hc.memory⟩, ?_, rfl, rfl⟩
  cases dest <;> rfl

/-- The program takes the least number in two's complement from zero.  The difference is no such
number, and the word that is left stands for the least number again. -/
theorem calculated_of_step_least :
    let m := ((State.fresh 0).load (Program.ofImage [0x50, 0x00, 0x00, 0x80])).2
    m.word.kind = some .subi ∧
      Opcode.subi.calculation? m.cpu m.word = some (.binary .sub 0 0x8000, some 0) ∧
      m.step.1 = .empty ∧ (m.step.2.cpu.reg 0).toNat = 32768 ∧
      Flag.all.map m.step.2.cpu.flags.has = [true, false, true, true] := by
  intro m
  have hm : m.cpu =
      { Cpu.fresh with memory := Memory.zero.writeBytes 0 [0x50, 0x00, 0x00, 0x80] } :=
    cpu_load _ (by decide) (by decide)
  have hw : m.word = { opcode := 0x50, high := 0x80 } := by
    simp [word, hm, Cpu.fetch, Cpu.fresh, Memory.writeBytes, Memory.read_write]
  have hop : m.word.kind = some .subi := by
    rw [hw]
    rfl
  have hk : Opcode.subi.calculation? m.cpu m.word = some (.binary .sub 0 0x8000, some 0) := by
    rw [hw, hm]
    rfl
  obtain ⟨hok, hc, -⟩ := calculated_of_step hop hk trivial
  refine ⟨hop, hk, hok, Int.ofNat_inj.mp (hc.result 0 rfl), ?_⟩
  simp only [Flag.all, List.map_cons, List.map_nil, hc.carry, hc.zero, hc.overflow, hc.negative]
  decide

end State

end Compiler16.Machine
