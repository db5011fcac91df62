/-
The core: seven phases walk each instruction from fetch to write-back. A tick is first evaluated,
from the state before it, into a step that lists every update; the step is committed when the tick
ends, so that nothing sees a value of its own tick.
-/
import Multicycle.Access
import Multicycle.Alu
import Multicycle.Bus
import Multicycle.Flow
import Multicycle.Registers

namespace Multicycle

/-- Where the core is in the course of an instruction. -/
inductive Phase where
  | fetchInstr
  | waitInstr
  | fetchRegs
  | execute
  | load
  | waitData
  | store
  deriving DecidableEq

def Phase.name : Phase → String
  | fetchInstr => "FETCH_INSTR"
  | waitInstr => "WAIT_INSTR"
  | fetchRegs => "FETCH_REGS"
  | execute => "EXECUTE"
  | load => "LOAD"
  | waitData => "WAIT_DATA"
  | store => "STORE"

inductive Effect where
  | latchInstr (word : Word)
  | latchOperands (rs1 rs2 : Word)
  | setPc (pc : Word)
  | writeReg (rd : BitVec 5) (value : Word)
  deriving DecidableEq

/-- An instruction that went through EXECUTE; `taken` is set for a taken branch only. -/
structure Retired where
  pc : Word
  raw : Word
  kind : Option Kind
  taken : Bool
  deriving DecidableEq

/-- What one tick comes to: the phase after it, what is asked of the bus during it, the updates at
its end in order, and the instruction executed, if one is. -/
structure Step where
  next : Phase
  request : Transaction := .idle
  effects : List Effect := []
  retired : Option Retired := none
  deriving DecidableEq

/-- The registers, latches and phase of the core. `decoded` is latched along with `instr`, `rs1` and
`rs2` hold the operands of the instruction. -/
structure Core where
  registers : Registers
  pc : Word
  instr : Word
  decoded : Instr
  rs1 : Word
  rs2 : Word
  phase : Phase
  deriving DecidableEq

namespace Core

/-- The word in the instruction latch after reset: an addition to register 0. -/
def resetInstr : Word := 0x33

def reset : Core where
  registers := .zero
  pc := 0
  instr := resetInstr
  decoded := .decode resetInstr
  rs1 := 0
  rs2 := 0
  phase := .fetchInstr

/-- Whether the core is about to execute a system instruction. It leaves the program counter alone,
so the core would fetch it for ever. -/
def isHalted (c : Core) : Bool := c.phase == .execute && c.decoded.is .system

/-! ## Evaluation -/

def address (c : Core) : Word := c.decoded.address c.rs1

def comparison (c : Core) : Bool := branchTaken c.decoded.funct3 c.rs1 c.rs2

/-- The program counter after EXECUTE; a system instruction has none. -/
def nextPc? (c : Core) : Option Word :=
  if c.decoded.is .system then none else some (c.decoded.nextPc c.pc c.rs1 c.comparison)

/-- The value that EXECUTE writes to `rd`, for the kinds that write one there. -/
def result? (c : Core) : Option Word :=
  match c.decoded.kind with
  | some .aluReg | some .aluImm => some (c.decoded.aluResult c.rs1 c.rs2)
  | some .lui => some c.decoded.imm.u
  | some .auipc => some (c.pc + c.decoded.imm.u)
  | some .jal | some .jalr => some (link c.pc)
  | some .branch | some .load | some .store | some .system | none => none

def afterExecute (c : Core) : Phase :=
  match c.decoded.kind with
  | some .load => .load
  | some .store => .store
  | _ => .fetchInstr

/-- The step of EXECUTE: the program counter, then the write-back. -/
def execute (c : Core) : Step where
  next := c.afterExecute
  effects := c.nextPc?.toList.map .setPc ++ c.result?.toList.map (.writeReg c.decoded.rd)
  retired := some
    { pc := c.pc
      raw := c.decoded.raw
      kind := c.decoded.kind
      taken := c.decoded.is .branch && c.comparison }

/-- The step of a tick, given the value that the bus holds. -/
def evaluate (c : Core) (readData : Word) : Step :=
  match c.phase with
  | .fetchInstr => { next := .waitInstr, request := .reading c.pc }
  | .waitInstr => { next := .fetchRegs, effects := [.latchInstr readData] }
  | .fetchRegs =>
    { next := .execute
      effects :=
        [.latchOperands (c.registers.read c.decoded.rs1) (c.registers.read c.decoded.rs2)] }
  | .execute => c.execute
  | .load => { next := .waitData, request := .reading c.address }
  | .waitData =>
    { next := .fetchInstr
      effects := [.writeReg c.decoded.rd (loadValue readData c.address c.decoded.funct3)] }
  | .store =>
    let lanes := storeLanes c.rs2 c.address c.decoded.funct3
    { next := .fetchInstr, request := .writing c.address lanes.data lanes.mask }

def evaluateEvents (c : Core) : List Event :=
  if c.phase = .execute then [.execute c.pc c.instr] else []

/-! ## Commit -/

def apply (c : Core) : Effect → Core
  | .latchInstr word => { c with instr := word, decoded := .decode word }
  | .latchOperands rs1 rs2 => { c with rs1, rs2 }
  | .setPc pc => { c with pc }
  | .writeReg rd value => { c with registers := c.registers.write rd value }

def commit (c : Core) (s : Step) : Core := { s.effects.foldl apply c with phase := s.next }

end Core

end Multicycle
