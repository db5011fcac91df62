/-
Numbers as text in the two bases that hardware people read: lower-case hexadecimal, padded with
zeros to a least width, and binary without padding; and the value of digits that are read.
-/
namespace Multicycle.Numeral

/-! ## Writing -/

/-- The `0x` form with at least `width` digits. -/
def hex (width n : Nat) : String :=
  "0x" ++ String.ofList ((Nat.toDigits 16 n).leftpad width '0')

/-- The `0b` form, no longer than it has to be. -/
def binary (n : Nat) : String := "0b" ++ String.ofList (Nat.toDigits 2 n)

/-- `s` with blanks in front, at least `width` characters long. -/
def alignRight (width : Nat) (s : String) : String := String.ofList (s.toList.leftpad width ' ')

/-- `s` with blanks behind, at least `width` characters long. -/
def alignLeft (width : Nat) (s : String) : String := String.ofList (s.toList.rightpad width ' ')

/-! ## Reading -/

def hexDigit? (c : Char) : Option Nat :=
  if '0' ≤ c ∧ c ≤ '9' then some (c.toNat - 48)
  else if 'a' ≤ c ∧ c ≤ 'f' then some (c.toNat - 87)
  else if 'A' ≤ c ∧ c ≤ 'F' then some (c.toNat - 55)
  else none

/-- The number whose digits in a base are given, the most significant first. -/
def ofDigits (base : Nat) (digits : List Nat) : Nat := digits.foldl (fun n d => base * n + d) 0

end Multicycle.Numeral
