/-
Hex images: a text with one word to a line. A comment runs from a number sign or two slashes to the
end of its line, lines with nothing else on them are passed over, and a digit string may have an
`0x` in front and underscores anywhere.
-/
import Multicycle.Image
import Multicycle.Numeral

namespace Multicycle.Image.Hex

/-! ## Lines -/

/-- The lines of a text, cut at line feeds. What follows the last line feed is a line too. -/
def lines : List Char → List (List Char)
  | [] => [[]]
  | c :: cs =>
    if c = '\n' then [] :: lines cs
    else match lines cs with
      | line :: rest => (c :: line) :: rest
      | [] => [[c]]

def stripComment : List Char → List Char
  | [] => []
  | '#' :: _ => []
  | '/' :: '/' :: _ => []
  | c :: cs => c :: stripComment cs

def isBlank (c : Char) : Bool :=
  (0x09 ≤ c.toNat && c.toNat ≤ 0x0d) || c.toNat == 0x20 || c.toNat == 0x85 || c.toNat == 0xa0 ||
    c.toNat == 0x1680 || (0x2000 ≤ c.toNat && c.toNat ≤ 0x200a) || c.toNat == 0x2028 ||
    c.toNat == 0x2029 || c.toNat == 0x202f || c.toNat == 0x205f || c.toNat == 0x3000

/-- A line without white space at either end. A carriage return before the line feed goes with
it. -/
def trim (cs : List Char) : List Char :=
  ((cs.dropWhile isBlank).reverse.dropWhile isBlank).reverse

/-- What a line holds besides blanks and a comment. -/
def body (line : List Char) : List Char := trim (stripComment line)

/-! ## Words -/

def stripMarker : List Char → List Char
  | '0' :: 'x' :: cs | '0' :: 'X' :: cs => cs
  | cs => cs

def stripPlus : List Char → List Char
  | '+' :: cs => cs
  | cs => cs

/-- The number that one or more hexadecimal digits stand for. -/
def number? (cs : List Char) : Option Nat :=
  if cs.isEmpty then none else (cs.mapM Numeral.hexDigit?).map (Numeral.ofDigits 16)

/-- The word that a body stands for, if it does: the marker goes first, then all underscores, then a
plus sign, and the digits that are left must give a number of 32 bits. -/
def word? (body : List Char) : Option Word := do
  let n ← number? (stripPlus ((stripMarker body).filter (· ≠ '_')))
  if n < UInt32.size then some (BitVec.ofNat 32 n) else none

/-! ## Images -/

/-- The words of the lines from number `first` on, or the first line that is no word. -/
def readLines (first : Nat) : List (List Char) → Except ImageError (List Word)
  | [] => .ok []
  | line :: rest =>
    if (body line).isEmpty then readLines (first + 1) rest
    else match word? (body line) with
      | none => .error (.invalidHexWord first (String.ofList (body line)))
      | some w => do .ok (w :: (← readLines (first + 1) rest))

/-- The words of a hex image. Lines count from 1. -/
def read (text : String) : Except ImageError (List Word) := readLines 1 (lines text.toList)

end Multicycle.Image.Hex
