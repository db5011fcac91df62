/-
Control flow: when a branch is taken, and which address is fetched next.
-/
import Multicycle.Instr

namespace Multicycle

/-- Whether a branch with condition `funct3` is taken. The two reserved conditions never are. -/
def branchTaken (funct3 : BitVec 3) (rs1 rs2 : Word) : Bool :=
  match funct3.toNat with
  | 0 => rs1 == rs2
  | 1 => rs1 != rs2
  | 4 => rs1.slt rs2
  | 5 => rs2.sle rs1
  | 6 => rs1.ult rs2
  | 7 => rs2.ule rs1
  | _ => false

/-- The address of the following instruction, which is also what a jump leaves in `rd`. -/
def link (pc : Word) : Word := pc + 4

/-- The address fetched after instruction `d` at `pc`. A JALR target has its lowest bit cleared. -/
def Instr.nextPc (d : Instr) (pc rs1 : Word) (taken : Bool) : Word :=
  if d.is .branch && taken then pc + d.imm.b
  else if d.is .jal then pc + d.imm.j
  else if d.is .jalr then (rs1 + d.imm.i) &&& ~~~1#32
  else link pc

end Multicycle
