/-
Binary images: the bytes of the words one after another, the least significant byte of each first;
and image files of either format.
-/
import Multicycle.Image.Hex

namespace Multicycle.Image

namespace Binary

/-- The words made of four bytes each. Bytes that do not fill a word are left out. -/
def words : List Byte → List Word
  | b₀ :: b₁ :: b₂ :: b₃ :: bytes => .ofBytes b₀ b₁ b₂ b₃ :: words bytes
  | _ => []

/-- The words of a binary image, whose length must be a multiple of four. -/
def read (bytes : List Byte) : Except ImageError (List Word) :=
  if bytes.length % 4 = 0 then .ok (words bytes) else .error (.unalignedLength bytes.length)

end Binary

inductive Format where
  | hex
  | binary
  deriving DecidableEq

/-- The words of a file with the given contents, of which there are none when the file is missing. A
hex image has to be UTF-8 text. -/
def ofFile (format : Format) (contents : Option ByteArray) : Except ImageError (List Word) :=
  match format, contents with
  | _, none => .error .unreadable
  | .hex, some bytes =>
    match String.fromUTF8? bytes with
    | some text => Hex.read text
    | none => .error .unreadable
  | .binary, some bytes => Binary.read (bytes.toList.map fun b => b.toBitVec)

end Multicycle.Image
