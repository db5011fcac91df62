/-
The arithmetic unit: ten operations on two words, how the function fields choose one, and the
result of an instruction of either ALU kind.
-/
import Multicycle.Instr

namespace Multicycle

inductive AluOp where
  | add
  | sub
  | sll
  | slt
  | sltu
  | xor
  | srl
  | sra
  | or
  | and
  deriving DecidableEq

inductive AluPart where
  | arithmetic
  | logic
  | shifter
  deriving DecidableEq

namespace AluOp

/-- The part that carries an operation out. Comparisons are logic. -/
def part : AluOp → AluPart
  | add | sub => .arithmetic
  | sll | srl | sra => .shifter
  | slt | sltu | xor | or | and => .logic

/-- The result of an operation. Sums wrap, a shift counts its amount modulo 32, and a comparison
gives 0 or 1. -/
def eval (op : AluOp) (a b : Word) : Word :=
  match op with
  | add => a + b
  | sub => a - b
  | sll => a <<< (b.toNat % 32)
  | slt => if a.slt b then 1 else 0
  | sltu => if a.ult b then 1 else 0
  | xor => a ^^^ b
  | srl => a >>> (b.toNat % 32)
  | sra => a.sshiftRight (b.toNat % 32)
  | or => a ||| b
  | and => a &&& b

/-- The operation that the function fields choose. Bit 5 of `funct7` picks subtraction, for
register operands only, and the arithmetic right shift, for both kinds of operand. -/
def ofFunct (funct3 : BitVec 3) (funct7 : BitVec 7) (register : Bool) : AluOp :=
  match funct3.toNat with
  | 0 => if funct7.getLsbD 5 && register then sub else add
  | 1 => sll
  | 2 => slt
  | 3 => sltu
  | 4 => xor
  | 5 => if funct7.getLsbD 5 then sra else srl
  | 6 => or
  | _ => and

end AluOp

/-- What one part drives: its result, or zero for an operation of another part. -/
def AluPart.output (part : AluPart) (op : AluOp) (a b : Word) : Word :=
  if op.part = part then op.eval a b else 0

namespace Instr

/-- The operation chosen by the fields of an instruction, whatever its kind. -/
def aluOp (d : Instr) : AluOp := .ofFunct d.funct3 d.funct7 (d.is .aluReg)

/-- The result of an ALU instruction: the second operand is `rs2` for register operands and the
I-immediate otherwise. -/
def aluResult (d : Instr) (rs1 rs2 : Word) : Word :=
  d.aluOp.eval rs1 (if d.is .aluReg then rs2 else d.imm.i)

end Instr

end Multicycle
