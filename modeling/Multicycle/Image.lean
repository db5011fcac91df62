/-
Memory images: the words that RAM starts with, and what can be wrong with one.
-/
import Multicycle.Word

namespace Multicycle

/-- Why an image cannot be used. -/
inductive ImageError where
  /-- The file is missing, or is no text where text is wanted. -/
  | unreadable
  /-- A line of a hex image holds something else than a word. -/
  | invalidHexWord (line : Nat) (text : String)
  | unalignedLength (length : Nat)
  | tooLarge (words capacity : Nat)
  deriving DecidableEq

def ImageError.message : ImageError → String
  | unreadable => "failed to read memory image"
  | invalidHexWord line text => s!"line {line}: '" ++ text ++ "' is not a 32-bit hex word"
  | unalignedLength length => s!"binary image length {length} is not a multiple of 4 bytes"
  | tooLarge words capacity => s!"image of {words} words does not fit into {capacity}-word RAM"

end Multicycle
