/-
Instruction words: the ten kinds of instruction and their major opcodes, the fields and the five
immediates of a word, and the decoded instruction that gathers them. Decoding is total: a word
whose opcode is none of the ten has no kind, and all its fields are still read.
-/
import Multicycle.Word

namespace Multicycle

/-! ## Kinds -/

/-- What an instruction does, told by its major opcode alone. -/
inductive Kind where
  | aluReg
  | aluImm
  | branch
  | jalr
  | jal
  | auipc
  | lui
  | load
  | store
  | system
  deriving DecidableEq

namespace Kind

/-- Every kind, in the order in which kind flags are listed. -/
def all : List Kind := [aluReg, aluImm, branch, jalr, jal, auipc, lui, load, store, system]

def opcode : Kind → BitVec 7
  | aluReg => 0b0110011
  | aluImm => 0b0010011
  | branch => 0b1100011
  | jalr => 0b1100111
  | jal => 0b1101111
  | auipc => 0b0010111
  | lui => 0b0110111
  | load => 0b0000011
  | store => 0b0100011
  | system => 0b1110011

/-- The kind with a given major opcode. The number counts as a whole, so one that does not fit in
seven bits belongs to no kind. -/
def ofOpcode? (code : Nat) : Option Kind := all.find? fun kind => kind.opcode.toNat == code

theorem mem_all (kind : Kind) : kind ∈ all := by cases kind <;> decide

theorem ofOpcode?_opcode (kind : Kind) : ofOpcode? kind.opcode.toNat = some kind := by
  cases kind <;> rfl

theorem opcode_of_ofOpcode? {code : Nat} {kind : Kind} (h : ofOpcode? code = some kind) :
    kind.opcode.toNat = code := by
  simpa using List.find?_some h

end Kind

/-! ## Fields -/

namespace Word

def opcode (w : Word) : BitVec 7 := w.extractLsb' 0 7

def rd (w : Word) : BitVec 5 := w.extractLsb' 7 5

def funct3 (w : Word) : BitVec 3 := w.extractLsb' 12 3

def rs1 (w : Word) : BitVec 5 := w.extractLsb' 15 5

def rs2 (w : Word) : BitVec 5 := w.extractLsb' 20 5

def funct7 (w : Word) : BitVec 7 := w.extractLsb' 25 7

/-- Bits 31 to 12 in place, the twelve low bits zero. -/
def immU (w : Word) : Word := w.extractLsb' 12 20 ++ 0#12

def immI (w : Word) : Word := (w.extractLsb' 20 12).signExtend 32

def immS (w : Word) : Word := (w.extractLsb' 25 7 ++ w.extractLsb' 7 5).signExtend 32

/-- The even branch offset: bits 31, 7, 30 to 25 and 11 to 8, sign-extended. -/
def immB (w : Word) : Word :=
  (w.extractLsb' 31 1 ++ w.extractLsb' 7 1 ++ w.extractLsb' 25 6 ++ w.extractLsb' 8 4 ++
    0#1).signExtend 32

/-- The even jump offset: bits 31, 19 to 12, 20 and 30 to 21, sign-extended. -/
def immJ (w : Word) : Word :=
  (w.extractLsb' 31 1 ++ w.extractLsb' 12 8 ++ w.extractLsb' 20 1 ++ w.extractLsb' 21 10 ++
    0#1).signExtend 32

end Word

/-! ## Decoded instructions -/

/-- The five immediate views of a word. Each is read whatever the kind, and the user of an
instruction picks the one that its kind calls for. -/
structure Immediates where
  u : Word
  i : Word
  s : Word
  b : Word
  j : Word
  deriving DecidableEq

def Immediates.ofWord (w : Word) : Immediates :=
  ⟨w.immU, w.immI, w.immS, w.immB, w.immJ⟩

/-- A word together with everything that decoding reads off it. -/
structure Instr where
  raw : Word
  opcode : BitVec 7
  kind : Option Kind
  rd : BitVec 5
  rs1 : BitVec 5
  rs2 : BitVec 5
  funct3 : BitVec 3
  funct7 : BitVec 7
  imm : Immediates
  deriving DecidableEq

namespace Instr

def decode (w : Word) : Instr where
  raw := w
  opcode := w.opcode
  kind := Kind.ofOpcode? w.opcode.toNat
  rd := w.rd
  rs1 := w.rs1
  rs2 := w.rs2
  funct3 := w.funct3
  funct7 := w.funct7
  imm := Immediates.ofWord w

theorem opcode_of_kind {w : Word} {kind : Kind} (h : (decode w).kind = some kind) :
    w.opcode = kind.opcode :=
  (BitVec.eq_of_toNat_eq (Kind.opcode_of_ofOpcode? h)).symm

def is (d : Instr) (kind : Kind) : Bool := d.kind == some kind

/-- One flag per kind, in the order of `Kind.all`; at most one is set. -/
def flags (d : Instr) : List Bool := Kind.all.map d.is

end Instr

end Multicycle
