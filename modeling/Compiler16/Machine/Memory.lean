import Compiler16.Machine.Layout
import Compiler16.Machine.Word

/-!
# Memory

A byte for every 16-bit address, so no access can miss.  Which addresses an
instruction may touch is decided one level up, by the processor.

## Main results

* `Memory.read_write`: a write changes the byte at its address and no other.
* `Memory.readWord_writeWord_self`: a word reads back as it was written.
* `Memory.read_writeBytes`: bytes written in a row read back from their places.
* `Memory.ext`: memories that read the same everywhere are equal.
-/

namespace Compiler16.Machine

/-- The contents of the address space. -/
structure Memory where
  /-- The bytes by address. -/
  bytes : Vector UInt8 memorySize

namespace Memory

/-- All bytes zero. -/
def zero : Memory := ⟨Vector.replicate memorySize 0⟩

/-- The byte at an address. -/
def read (m : Memory) (a : UInt16) : UInt8 :=
  getElem m.bytes a.toNat a.toNat_lt

/-- Changes the byte at an address. -/
def write (m : Memory) (a : UInt16) (b : UInt8) : Memory :=
  ⟨m.bytes.set a.toNat b a.toNat_lt⟩

/-- The word at an address and the next one, low byte first. -/
def readWord (m : Memory) (a : UInt16) : UInt16 :=
  joinBytes (m.read a) (m.read (a + 1))

/-- Changes the word at an address and the next one, low byte first. -/
def writeWord (m : Memory) (a : UInt16) (v : UInt16) : Memory :=
  (m.write a (lowByte v)).write (a + 1) (highByte v)

/-- Writes bytes one after the other, from an address on. -/
def writeBytes (m : Memory) (a : UInt16) : List UInt8 → Memory
  | [] => m
  | b :: bs => (m.write a b).writeBytes (a + 1) bs

/-- The bytes from an address on, at most `n` of them and none past the end. -/
def slice (m : Memory) (start n : Nat) : List UInt8 :=
  (m.bytes.toArray.extract start (start + n)).toList

@[simp] theorem read_zero (a : UInt16) : zero.read a = 0 := by
  simp [read, zero]

theorem read_write (m : Memory) (a b : UInt16) (v : UInt8) :
    (m.write a v).read b = if a = b then v else m.read b := by
  simp only [read, write, Vector.getElem_set, UInt16.toNat_inj]

@[simp] theorem read_write_self (m : Memory) (a : UInt16) (v : UInt8) :
    (m.write a v).read a = v := by
  simp [read_write]

theorem read_write_of_ne (m : Memory) {a b : UInt16} (h : a ≠ b) (v : UInt8) :
    (m.write a v).read b = m.read b := by
  simp [read_write, h]

theorem read_writeWord (m : Memory) (a v b : UInt16) :
    (m.writeWord a v).read b =
      if a + 1 = b then highByte v else if a = b then lowByte v else m.read b := by
  simp only [writeWord, read_write]

@[simp] theorem readWord_writeWord_self (m : Memory) (a v : UInt16) :
    (m.writeWord a v).readWord a = v := by
  simp [readWord, read_writeWord]

theorem read_writeBytes (m : Memory) (a : UInt16) (bs : List UInt8) (x : UInt16)
    (h : a.toNat + bs.length ≤ memorySize) :
    (m.writeBytes a bs).read x =
      if a.toNat ≤ x.toNat then bs[x.toNat - a.toNat]?.getD (m.read x) else m.read x := by
  induction bs generalizing m a with
  | nil => simp [writeBytes]
  | cons b bs ih =>
    simp only [memorySize, List.length_cons] at h
    cases bs with
    | nil =>
      -- The last byte may lie at the last address, after which the address wraps around.
      simp only [writeBytes, read_write, ← UInt16.toNat_inj]
      grind
    | cons b' bs =>
      have ha : (a + 1).toNat = a.toNat + 1 := by
        simp only [UInt16.toNat_add, UInt16.reduceToNat]
        simp only [List.length_cons] at h
        omega
      rw [writeBytes, ih _ _ (by simp only [memorySize, ha]; omega), ha]
      simp only [read_write, ← UInt16.toNat_inj]
      grind

@[ext] theorem ext {m n : Memory} (h : ∀ a, m.read a = n.read a) : m = n := by
  cases m with | mk x => cases n with | mk y =>
  congr
  apply Vector.ext
  intro i hi
  have hlt : i < UInt16.size := hi
  simpa [read, Nat.mod_eq_of_lt hlt] using h (UInt16.ofNat i)

end Memory

end Compiler16.Machine
