/-
A tick of the machine, phase by phase: what becomes of the core, and what is asked of the bus. Over
several ticks the requests line up to a history of the bus.
-/
import Multicycle.Machine
import Multicycle.Proofs.Bus.History
import Mathlib.Logic.Function.Iterate

namespace Multicycle

namespace Core

/-- EXECUTE moves the program counter, writes back and goes on to the access, if there is one. -/
theorem commit_execute (c : Core) :
    c.commit c.execute =
      { c with
        pc := c.nextPc?.getD c.pc
        registers := c.result?.elim c.registers (c.registers.write c.decoded.rd)
        phase := c.afterExecute } := by
  unfold commit execute
  cases c.nextPc? with
  | none => cases c.result? <;> rfl
  | some pc => cases c.result? <;> rfl

end Core

namespace Machine

variable {m : Machine}

/-! ## Phases -/

theorem isHalted_iff (m : Machine) :
    m.isHalted = true ↔ m.core.phase = .execute ∧ m.core.decoded.kind = some .system := by
  unfold isHalted Core.isHalted Instr.is
  rw [Bool.and_eq_true, beq_iff_eq, beq_iff_eq]

theorem tick_of_fetchInstr (h : m.core.phase = .fetchInstr) :
    m.tick.core = { m.core with phase := .waitInstr } ∧
      m.tick.bus = m.bus.tick (.reading m.core.pc) := by
  unfold tick step Core.evaluate
  rw [h]
  exact ⟨rfl, rfl⟩

theorem tick_of_waitInstr (h : m.core.phase = .waitInstr) :
    m.tick.core = { m.core with
        instr := m.bus.readData, decoded := .decode m.bus.readData, phase := .fetchRegs } ∧
      m.tick.bus = m.bus.tick .idle := by
  unfold tick step Core.evaluate
  rw [h]
  exact ⟨rfl, rfl⟩

theorem tick_of_fetchRegs (h : m.core.phase = .fetchRegs) :
    m.tick.core = { m.core with
        rs1 := m.core.registers.read m.core.decoded.rs1
        rs2 := m.core.registers.read m.core.decoded.rs2
        phase := .execute } ∧
      m.tick.bus = m.bus.tick .idle := by
  unfold tick step Core.evaluate
  rw [h]
  exact ⟨rfl, rfl⟩

theorem tick_of_execute (h : m.core.phase = .execute) :
    m.tick.core = { m.core with
        pc := m.core.nextPc?.getD m.core.pc
        registers := m.core.result?.elim m.core.registers (m.core.registers.write m.core.decoded.rd)
        phase := m.core.afterExecute } ∧
      m.tick.bus = m.bus.tick .idle := by
  unfold tick step Core.evaluate
  rw [h]
  exact ⟨m.core.commit_execute, rfl⟩

theorem tick_of_load (h : m.core.phase = .load) :
    m.tick.core = { m.core with phase := .waitData } ∧
      m.tick.bus = m.bus.tick (.reading m.core.address) := by
  unfold tick step Core.evaluate
  rw [h]
  exact ⟨rfl, rfl⟩

theorem tick_of_waitData (h : m.core.phase = .waitData) :
    m.tick.core = { m.core with
        registers := m.core.registers.write m.core.decoded.rd
          (loadValue m.bus.readData m.core.address m.core.decoded.funct3)
        phase := .fetchInstr } ∧
      m.tick.bus = m.bus.tick .idle := by
  unfold tick step Core.evaluate
  rw [h]
  exact ⟨rfl, rfl⟩

theorem tick_of_store (h : m.core.phase = .store) :
    m.tick.core = { m.core with phase := .fetchInstr } ∧
      m.tick.bus = m.bus.tick (.writing m.core.address
        (storeLanes m.core.rs2 m.core.address m.core.decoded.funct3).data
        (storeLanes m.core.rs2 m.core.address m.core.decoded.funct3).mask) := by
  unfold tick step Core.evaluate
  rw [h]
  exact ⟨rfl, rfl⟩

/-! ## Counters -/

end Machine

def Tally.retire (t : Tally) : Option Retired → Tally
  | some r => t.record r.kind r.taken
  | none => t

theorem Tally.retire_with (t : Tally) (r : Option Retired) (ticks bytesSent : Nat) :
    ({ t with ticks, bytesSent } : Tally).retire r = { t.retire r with ticks, bytesSent } ∧
      (t.retire r).ticks = t.ticks ∧ (t.retire r).bytesSent = t.bytesSent := by
  rcases r with _ | ⟨pc, raw, kind, taken⟩
  · exact ⟨rfl, rfl, rfl⟩
  · rcases kind with _ | kind
    · exact ⟨rfl, rfl, rfl⟩
    · cases kind <;> cases taken <;> exact ⟨rfl, rfl, rfl⟩

namespace Machine

/-- A tick counts itself, the instruction executed in it and the bytes taken in it. -/
theorem tally_tick (m : Machine) :
    m.tick.tally = { m.tally.retire m.step.retired with
      ticks := m.tally.ticks + 1
      bytesSent := m.tally.bytesSent +
        (m.tick.bus.page.serial.sent.size - m.bus.page.serial.sent.size) } := by
  obtain ⟨-, hticks, hbytes⟩ := m.tally.retire_with m.step.retired 0 0
  rw [← hticks, ← hbytes]
  show m.tallyAfter m.step m.tick.bus = _
  unfold tallyAfter Tally.retire
  cases m.step.retired <;> rfl

/-! ## Requests of a run -/

/-- What the core asks of the bus in the next `n` ticks. -/
def requests : Nat → Machine → List Transaction
  | 0, _ => []
  | n + 1, m => m.step.request :: requests n m.tick

theorem bus_tick_iterate (m : Machine) (n : Nat) : (tick^[n] m).bus = m.bus.run (requests n m) := by
  induction n generalizing m with
  | zero => rfl
  | succ n ih => exact ih m.tick

end Machine

end Multicycle
