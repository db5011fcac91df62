/-
Loads and stores on a bus that moves whole words: the width of an access, the value that a load
takes out of the word read, and the lanes that a store drives. The two low address bits only choose
lanes, so every address is legal.
-/
import Multicycle.Instr

namespace Multicycle

/-! ## Width -/

/-- How much an access moves. -/
inductive Width where
  | byte
  | half
  | word
  deriving DecidableEq

namespace Width

/-- The width chosen by the two low bits of `funct3`; the reserved code counts as a word. -/
def ofFunct3 (funct3 : BitVec 3) : Width :=
  match funct3.toNat % 4 with
  | 0 => byte
  | 1 => half
  | _ => word

def bytes : Width → Nat
  | byte => 1
  | half => 2
  | word => 4

end Width

/-- Whether a load fills the upper bits with zeros rather than with copies of the sign. -/
def zeroExtends (funct3 : BitVec 3) : Bool := funct3.getLsbD 2

/-- The byte address of an access: the base plus the S-immediate of a store, the I-immediate
otherwise. -/
def Instr.address (d : Instr) (rs1 : Word) : Word :=
  rs1 + if d.is .store then d.imm.s else d.imm.i

/-! ## Loads -/

/-- The half word that address bit 1 selects. -/
def selectHalf (data addr : Word) : BitVec 16 :=
  if addr.getLsbD 1 then data.extractLsb' 16 16 else data.extractLsb' 0 16

/-- The byte that the two low address bits select. -/
def selectByte (data addr : Word) : Byte :=
  if addr.getLsbD 0 then (selectHalf data addr).extractLsb' 8 8
  else (selectHalf data addr).extractLsb' 0 8

/-- The value that a load from `addr` takes out of the word read there. -/
def loadValue (data addr : Word) (funct3 : BitVec 3) : Word :=
  match Width.ofFunct3 funct3, zeroExtends funct3 with
  | .byte, true => (selectByte data addr).setWidth 32
  | .byte, false => (selectByte data addr).signExtend 32
  | .half, true => (selectHalf data addr).setWidth 32
  | .half, false => (selectHalf data addr).signExtend 32
  | .word, _ => data

/-! ## Stores -/

/-- What a store drives: a word, and one mask bit for each lane to be written. -/
structure Lanes where
  data : Word
  mask : Byte
  deriving DecidableEq

/-- The value to store, its low bytes repeated so that the lane at `addr` and the one above it carry
them. -/
def spread (value addr : Word) : Word :=
  let a₀ := addr.getLsbD 0
  let a₁ := addr.getLsbD 1
  let b := Word.byte value
  .ofBytes (b 0) (if a₀ then b 0 else b 1) (if a₁ then b 0 else b 2)
    (if a₀ then b 0 else if a₁ then b 1 else b 3)

/-- The lanes written by an access of the given width. -/
def Width.mask (width : Width) (addr : Word) : Byte :=
  match width with
  | .byte => 1#8 <<< (addr.toNat % 4)
  | .half => if addr.getLsbD 1 then 0b1100 else 0b0011
  | .word => 0b1111

def storeLanes (value addr : Word) (funct3 : BitVec 3) : Lanes :=
  ⟨spread value addr, (Width.ofFunct3 funct3).mask addr⟩

end Multicycle
