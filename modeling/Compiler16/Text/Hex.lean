/-!
# Hexadecimal text

Numbers in messages and listings are written in lower-case hexadecimal, padded
on the left with zeros to a least number of digits.
-/

namespace Compiler16.Text

/-- The hexadecimal digits of `n`, at least `width` of them. -/
def hexDigits (width n : Nat) : List Char :=
  let digits := Nat.toDigits 16 n
  List.replicate (width - digits.length) '0' ++ digits

/-- `n` written as `0x…` with at least `width` digits. -/
def hex (width n : Nat) : String :=
  "0x" ++ String.ofList (hexDigits width n)

theorem width_le_length_hexDigits (width n : Nat) :
    width ≤ (hexDigits width n).length := by
  simp only [hexDigits, List.length_append, List.length_replicate]
  omega

end Compiler16.Text
