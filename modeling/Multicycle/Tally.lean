/-
What a machine has done so far, counted: ticks, executed instructions by what they did, and bytes
sent; and the report that shows the counts with their shares.
-/
import Multicycle.Binary64
import Multicycle.Instr
import Multicycle.Numeral

namespace Multicycle

structure Tally where
  ticks : Nat := 0
  instructions : Nat := 0
  alu : Nat := 0
  load : Nat := 0
  store : Nat := 0
  branchTaken : Nat := 0
  branchNotTaken : Nat := 0
  jump : Nat := 0
  upper : Nat := 0
  system : Nat := 0
  undecoded : Nat := 0
  bytesSent : Nat := 0
  deriving DecidableEq

namespace Tally

def toList (t : Tally) : List Nat :=
  [t.ticks, t.instructions, t.alu, t.load, t.store, t.branchTaken, t.branchNotTaken, t.jump,
    t.upper, t.system, t.undecoded, t.bytesSent]

def record (t : Tally) (kind : Option Kind) (taken : Bool) : Tally :=
  let t := { t with instructions := t.instructions + 1 }
  match kind with
  | some .aluReg | some .aluImm => { t with alu := t.alu + 1 }
  | some .load => { t with load := t.load + 1 }
  | some .store => { t with store := t.store + 1 }
  | some .branch =>
    if taken then { t with branchTaken := t.branchTaken + 1 }
    else { t with branchNotTaken := t.branchNotTaken + 1 }
  | some .jal | some .jalr => { t with jump := t.jump + 1 }
  | some .lui | some .auipc => { t with upper := t.upper + 1 }
  | some .system => { t with system := t.system + 1 }
  | none => { t with undecoded := t.undecoded + 1 }

/-! ## Report -/

/-- Ticks per instruction, zero before the first one. -/
def ticksPerInstruction (t : Tally) : Binary64 :=
  if t.instructions = 0 then .ofNat 0 else (Binary64.ofNat t.ticks).div (.ofNat t.instructions)

/-- A count as a percentage of all instructions, zero before the first one. The multiplication comes
first, and each of the two operations rounds. -/
def share (t : Tally) (count : Nat) : Binary64 :=
  if t.instructions = 0 then .ofNat 0
  else ((Binary64.ofNat 100).mul (.ofNat count)).div (.ofNat t.instructions)

/-- The instruction counts of the report, with their names. -/
def mix (t : Tally) : List (String × Nat) :=
  [("op_alu", t.alu), ("op_load", t.load), ("op_store", t.store),
    ("op_branch_taken", t.branchTaken), ("op_branch_not_taken", t.branchNotTaken),
    ("op_jump", t.jump), ("op_upper_imm", t.upper), ("op_system", t.system),
    ("op_undecoded", t.undecoded)]

def mixRow (t : Tally) (name : String) (count : Nat) : String :=
  Numeral.alignLeft 24 name ++ " " ++ Numeral.alignLeft 12 (toString count) ++ " (" ++
    Numeral.alignRight 6 ((t.share count).fixed 2) ++ "%)"

def headRow (name value : String) : String := Numeral.alignLeft 24 name ++ " " ++ value

def report (t : Tally) : String :=
  let rule := String.ofList (List.replicate 58 '=')
  let thin := String.ofList (List.replicate 58 '-')
  "\n".intercalate <|
    [rule, "RV32I SOC SIMULATION STATISTICS", rule,
      headRow "sim_ticks" (toString t.ticks),
      headRow "sim_insts" (toString t.instructions),
      headRow "sim_cpi" (t.ticksPerInstruction.fixed 4), thin] ++
    t.mix.map (fun row => t.mixRow row.1 row.2) ++
    [thin, headRow "uart_bytes" (toString t.bytesSent)]

end Tally

end Multicycle
