/-
The base instruction set by itself: the 37 instructions on integer registers, memory and the program
counter, what each computes and how each is encoded. Values are computed as mathematical integers,
immediates are integers, and a word to be decoded is a natural number whose fields are quotients and
remainders.
-/
import Multicycle.Word
import Mathlib.Tactic

namespace Multicycle.Rv32i

/-! ## Instructions -/

inductive Condition where
  | beq
  | bne
  | blt
  | bge
  | bltu
  | bgeu
  deriving DecidableEq

inductive Operation where
  | add
  | sub
  | sll
  | slt
  | sltu
  | xor
  | srl
  | sra
  | or
  | and
  deriving DecidableEq

inductive Load where
  | lb
  | lh
  | lw
  | lbu
  | lhu
  deriving DecidableEq

inductive Store where
  | sb
  | sh
  | sw
  deriving DecidableEq

/-- An instruction with its registers and its immediate. -/
inductive Insn where
  | lui (rd : BitVec 5) (imm : Int)
  | auipc (rd : BitVec 5) (imm : Int)
  | jal (rd : BitVec 5) (imm : Int)
  | jalr (rd rs1 : BitVec 5) (imm : Int)
  | branch (condition : Condition) (rs1 rs2 : BitVec 5) (imm : Int)
  | load (op : Load) (rd rs1 : BitVec 5) (imm : Int)
  | store (op : Store) (rs1 rs2 : BitVec 5) (imm : Int)
  | opImm (op : Operation) (rd rs1 : BitVec 5) (imm : Int)
  | op (op : Operation) (rd rs1 rs2 : BitVec 5)
  deriving DecidableEq

/-! ## Meaning -/

def Condition.holds (c : Condition) (a b : Word) : Bool :=
  match c with
  | beq => a.toInt = b.toInt
  | bne => a.toInt ≠ b.toInt
  | blt => a.toInt < b.toInt
  | bge => b.toInt ≤ a.toInt
  | bltu => a.toNat < b.toNat
  | bgeu => b.toNat ≤ a.toNat

/-- The integer that an operation makes of two operands. A shift multiplies or divides by a power of
two and rounds down. -/
def Operation.eval (op : Operation) (a b : Word) : Int :=
  match op with
  | add => a.toInt + b.toInt
  | sub => a.toInt - b.toInt
  | sll => a.toInt * 2 ^ (b.toNat % 32)
  | slt => if a.toInt < b.toInt then 1 else 0
  | sltu => if a.toNat < b.toNat then 1 else 0
  | xor => (a.toNat ^^^ b.toNat : Nat)
  | srl => (a.toNat / 2 ^ (b.toNat % 32) : Nat)
  | sra => a.toInt / 2 ^ (b.toNat % 32)
  | or => (a.toNat ||| b.toNat : Nat)
  | and => (a.toNat &&& b.toNat : Nat)

/-- The signed value of the `n` low bits `v`. -/
def signed (n v : Nat) : Int := if 2 * v < 2 ^ n then v else v - 2 ^ n

def Load.bytes : Load → Nat
  | lb | lbu => 1
  | lh | lhu => 2
  | lw => 4

def Load.extend (op : Load) (v : Nat) : Int :=
  match op with
  | lb => signed 8 v
  | lh => signed 16 v
  | lw | lbu | lhu => v

def Store.bytes : Store → Nat
  | sb => 1
  | sh => 2
  | sw => 4

/-! ## Encoding -/

/-- The number in the `n` bits of `w` from bit `low` on. -/
def field (w low n : Nat) : Nat := w / 2 ^ low % 2 ^ n

def reg (w low : Nat) : BitVec 5 := .ofNat 5 (field w low 5)

/-- Bits 31 to 12, in place. -/
def immU (w : Nat) : Int := (4096 * field w 12 20 : Nat)

def immI (w : Nat) : Int := signed 12 (field w 20 12)

def immS (w : Nat) : Int := signed 12 (2 ^ 5 * field w 25 7 + field w 7 5)

/-- Bits 31, 7, 30 to 25 and 11 to 8, and a zero. -/
def immB (w : Nat) : Int :=
  signed 13 (2 ^ 12 * field w 31 1 + 2 ^ 11 * field w 7 1 + 2 ^ 5 * field w 25 6 +
    2 * field w 8 4)

/-- Bits 31, 19 to 12, 20 and 30 to 21, and a zero. -/
def immJ (w : Nat) : Int :=
  signed 21 (2 ^ 20 * field w 31 1 + 2 ^ 12 * field w 12 8 + 2 ^ 11 * field w 20 1 +
    2 * field w 21 10)

def condition? : Nat → Option Condition
  | 0 => some .beq
  | 1 => some .bne
  | 4 => some .blt
  | 5 => some .bge
  | 6 => some .bltu
  | 7 => some .bgeu
  | _ => none

def load? : Nat → Option Load
  | 0 => some .lb
  | 1 => some .lh
  | 2 => some .lw
  | 4 => some .lbu
  | 5 => some .lhu
  | _ => none

def store? : Nat → Option Store
  | 0 => some .sb
  | 1 => some .sh
  | 2 => some .sw
  | _ => none

/-- The operation on two registers with given function codes, of three and of seven bits. -/
def operation? : Nat → Nat → Option Operation
  | 0, 0 => some .add
  | 0, 0x20 => some .sub
  | 1, 0 => some .sll
  | 2, 0 => some .slt
  | 3, 0 => some .sltu
  | 4, 0 => some .xor
  | 5, 0 => some .srl
  | 5, 0x20 => some .sra
  | 6, 0 => some .or
  | 7, 0 => some .and
  | _, _ => none

/-- The operation on a register and an immediate, and the immediate. Only the shifts have a function
code of seven bits, above an amount of five. -/
def immediate? (w : Nat) : Option (Operation × Int) :=
  match field w 12 3 with
  | 0 => some (.add, immI w)
  | 1 => if field w 25 7 = 0 then some (.sll, field w 20 5) else none
  | 2 => some (.slt, immI w)
  | 3 => some (.sltu, immI w)
  | 4 => some (.xor, immI w)
  | 5 =>
    if field w 25 7 = 0 then some (.srl, field w 20 5)
    else if field w 25 7 = 0x20 then some (.sra, field w 20 5)
    else none
  | 6 => some (.or, immI w)
  | 7 => some (.and, immI w)
  | _ => none

def decode? (w : Nat) : Option Insn :=
  match field w 0 7 with
  | 0x37 => some (.lui (reg w 7) (immU w))
  | 0x17 => some (.auipc (reg w 7) (immU w))
  | 0x6f => some (.jal (reg w 7) (immJ w))
  | 0x67 => if field w 12 3 = 0 then some (.jalr (reg w 7) (reg w 15) (immI w)) else none
  | 0x63 => (condition? (field w 12 3)).map fun c => .branch c (reg w 15) (reg w 20) (immB w)
  | 0x03 => (load? (field w 12 3)).map fun op => .load op (reg w 7) (reg w 15) (immI w)
  | 0x23 => (store? (field w 12 3)).map fun op => .store op (reg w 15) (reg w 20) (immS w)
  | 0x13 => (immediate? w).map fun (op, imm) => .opImm op (reg w 7) (reg w 15) imm
  | 0x33 =>
    (operation? (field w 12 3) (field w 25 7)).map fun op =>
      .op op (reg w 7) (reg w 15) (reg w 20)
  | _ => none

end Multicycle.Rv32i
