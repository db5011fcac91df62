/-
One instruction on its way through the machine, from one FETCH_INSTR to the next. What it does is
settled by where it stands, the word found there and its two operands as they are at the start; the
ticks that it takes, four and up to two more for an access, depend on its kind alone.
-/
import Multicycle.Proofs.Access.Lanes
import Multicycle.Proofs.Machine.Ticks

namespace Multicycle

/-! ## Instructions at issue -/

/-- An instruction about to be fetched: its address, itself, and its operands. -/
structure Issue where
  pc : Word
  instr : Instr
  rs1 : Word
  rs2 : Word

namespace Issue

def ticks (i : Issue) : Nat :=
  match i.instr.kind with
  | some .load => 6
  | some .store => 5
  | _ => 4

def address (i : Issue) : Word := i.instr.address i.rs1

def comparison (i : Issue) : Bool := branchTaken i.instr.funct3 i.rs1 i.rs2

/-- The program counter that it leaves; a system instruction leaves its own. -/
def nextPc (i : Issue) : Word :=
  if i.instr.kind = some .system then i.pc else i.instr.nextPc i.pc i.rs1 i.comparison

theorem nextPc_of_branch {i : Issue} (h : i.instr.kind = some .branch) :
    i.nextPc = i.pc + if i.comparison then i.instr.imm.b else 4 := by
  unfold nextPc Instr.nextPc Instr.is link
  rw [h]
  cases i.comparison <;> rfl

theorem nextPc_of_jal {i : Issue} (h : i.instr.kind = some .jal) :
    i.nextPc = i.pc + i.instr.imm.j := by
  unfold nextPc Instr.nextPc Instr.is
  rw [h]
  rfl

theorem nextPc_of_jalr {i : Issue} (h : i.instr.kind = some .jalr) :
    i.nextPc = (i.rs1 + i.instr.imm.i) &&& ~~~1#32 := by
  unfold nextPc Instr.nextPc Instr.is
  rw [h]
  rfl

/-- All kinds but four go on with the instruction that follows. -/
theorem nextPc_of_other {i : Issue} {kind : Kind} (h : i.instr.kind = some kind)
    (hother : kind ∉ [Kind.system, .branch, .jal, .jalr]) : i.nextPc = i.pc + 4 := by
  unfold nextPc Instr.nextPc Instr.is link
  rw [h]
  cases kind with
  | system => simp at hother
  | branch => simp at hother
  | jal => simp at hother
  | jalr => simp at hother
  | _ => rfl

/-- What it writes to its destination register, given the word that a load finds. -/
def result? (i : Issue) (loaded : Word) : Option Word :=
  match i.instr.kind with
  | some .aluReg | some .aluImm => some (i.instr.aluResult i.rs1 i.rs2)
  | some .lui => some i.instr.imm.u
  | some .auipc => some (i.pc + i.instr.imm.u)
  | some .jal | some .jalr => some (i.pc + 4)
  | some .load => some (loadValue loaded i.address i.instr.funct3)
  | some .branch | some .store | some .system | none => none

/-- What it asks of the bus to store its second operand. -/
def storing (i : Issue) : Transaction :=
  .writing i.address (spread i.rs2 i.address) ((Width.ofFunct3 i.instr.funct3).mask i.address)

/-- What it asks of the bus, tick by tick: its fetch, and its access if it has one. -/
def requests (i : Issue) : List Transaction :=
  [.reading i.pc, .idle, .idle, .idle] ++
  match i.instr.kind with
  | some .load => [.reading i.address, .idle]
  | some .store => [i.storing]
  | _ => []

def writeBack (i : Issue) (r : Registers) (loaded : Word) : Registers :=
  (i.result? loaded).elim r (r.write i.instr.rd)

/-- At most the destination changes, and never register 0. -/
theorem read_writeBack (i : Issue) (r : Registers) (loaded : Word) (j : BitVec 5) :
    (i.writeBack r loaded).read j =
      if j = i.instr.rd ∧ j ≠ 0 then (i.result? loaded).getD (r.read j) else r.read j := by
  unfold writeBack
  cases i.result? loaded with
  | none => simp
  | some value =>
    show (r.write i.instr.rd value).read j = _
    rw [Registers.read_write]
    by_cases hj : j = i.instr.rd
    · subst hj
      simp
    · rw [if_neg fun h => hj h.1.symm, if_neg fun h => hj h.1]

/-- A core with the instruction and its operands latched. -/
def latched (i : Issue) (registers : Registers) (pc : Word) (phase : Phase) : Core where
  registers := registers
  pc := pc
  instr := i.instr.raw
  decoded := i.instr
  rs1 := i.rs1
  rs2 := i.rs2
  phase := phase

end Issue

namespace Machine

/-- The instruction that a machine in FETCH_INSTR is about to fetch. -/
def issue (m : Machine) : Issue where
  pc := m.core.pc
  instr := .decode (m.bus.wordAt m.core.pc)
  rs1 := m.core.registers.read (m.bus.wordAt m.core.pc).rs1
  rs2 := m.core.registers.read (m.bus.wordAt m.core.pc).rs2

/-! ## Ticks -/

/-- The machine with another core and other counts of instructions, its bus clocked through `ts` and
the ticks and bytes of that counted. -/
def clocked (m : Machine) (core : Core) (tally : Tally) (ts : List Transaction) : Machine where
  core := core
  bus := m.bus.run ts
  tally := { tally with
    ticks := tally.ticks + ts.length
    bytesSent := tally.bytesSent +
      ((m.bus.run ts).page.serial.sent.size - m.bus.page.serial.sent.size) }
  tickLimit := m.tickLimit

theorem clocked_nil (m : Machine) : m.clocked m.core m.tally [] = m := by
  unfold clocked
  simp

/-- A tick after `ts`: the core takes its step on what the bus holds by then. -/
theorem tick_clocked (m : Machine) (core : Core) (tally : Tally) (ts : List Transaction) :
    (m.clocked core tally ts).tick =
      m.clocked (core.commit (core.evaluate (m.bus.run ts).readData))
        (tally.retire (core.evaluate (m.bus.run ts).readData).retired)
        (ts ++ [(core.evaluate (m.bus.run ts).readData).request]) := by
  -- The step is a value of its own from here on: what it is plays no part in how it is counted.
  have hstep : (m.clocked core tally ts).step = core.evaluate (m.bus.run ts).readData := rfl
  generalize core.evaluate (m.bus.run ts).readData = s at hstep
  have hbus : m.bus.run (ts ++ [s.request]) = (m.bus.run ts).tick s.request :=
    m.bus.run_append ts [s.request]
  -- Bytes are counted by differences, which add up because none is ever taken back.
  have hrun := m.bus.size_sent_run ts
  obtain ⟨hgrow, -⟩ := (m.bus.run ts).size_sent_tick s.request
  obtain ⟨hretire, -, -⟩ := tally.retire_with s.retired (tally.ticks + ts.length)
    (tally.bytesSent + ((m.bus.run ts).page.serial.sent.size - m.bus.page.serial.sent.size))
  obtain ⟨-, hticks, hbytes⟩ := tally.retire_with s.retired 0 0
  have htick : (m.clocked core tally ts).tick =
      ⟨core.commit s, (m.bus.run ts).tick s.request, (m.clocked core tally ts).tick.tally,
        m.tickLimit⟩ := by
    rw [← hstep]
    rfl
  have htally := (m.clocked core tally ts).tally_tick
  rw [htick, hstep] at htally
  rw [htick, htally]
  unfold clocked
  rw [hbus, hretire, hticks, hbytes, List.length_append]
  dsimp only
  have hsum : tally.bytesSent + ((m.bus.run ts).page.serial.sent.size - m.bus.page.serial.sent.size) +
      (((m.bus.run ts).tick s.request).page.serial.sent.size -
        (m.bus.run ts).page.serial.sent.size) =
      tally.bytesSent +
        (((m.bus.run ts).tick s.request).page.serial.sent.size - m.bus.page.serial.sent.size) := by
    omega
  rw [hsum]
  rfl

/-! ## The ticks of an instruction -/

/-- From FETCH_INSTR to EXECUTE: the instruction is fetched and latched, then its operands. -/
theorem tick_three {m : Machine} (h : m.core.phase = .fetchInstr) :
    m.tick = m.clocked { m.core with phase := .waitInstr } m.tally [.reading m.core.pc] ∧
      tick^[2] m = m.clocked
        { m.core with instr := m.issue.instr.raw, decoded := m.issue.instr, phase := .fetchRegs }
        m.tally [.reading m.core.pc, .idle] ∧
      tick^[3] m = m.clocked (m.issue.latched m.core.registers m.core.pc .execute) m.tally
        [.reading m.core.pc, .idle, .idle] := by
  have h1 : m.tick = m.clocked { m.core with phase := .waitInstr } m.tally [.reading m.core.pc] := by
    conv_lhs => rw [← m.clocked_nil, tick_clocked]
    unfold Core.evaluate
    rw [h]
    rfl
  have hword : (m.bus.run [.reading m.core.pc]).readData = m.bus.wordAt m.core.pc :=
    m.bus.readData_tick (.reading m.core.pc)
  have h2 : tick^[2] m = m.clocked
      { m.core with instr := m.issue.instr.raw, decoded := m.issue.instr, phase := .fetchRegs }
      m.tally [.reading m.core.pc, .idle] := by
    rw [Function.iterate_succ_apply', Function.iterate_one, h1, tick_clocked, hword]
    rfl
  refine ⟨h1, h2, ?_⟩
  rw [Function.iterate_succ_apply', h2, tick_clocked]
  rfl

end Machine

/-- EXECUTE moves the program counter and writes back, unless a load has yet to find its word. -/
theorem Issue.commit_execute (i : Issue) (r : Registers) :
    (i.latched r i.pc .execute).commit (i.latched r i.pc .execute).execute =
      i.latched ((i.latched r i.pc .execute).result?.elim r (r.write i.instr.rd)) i.nextPc
        (i.latched r i.pc .execute).afterExecute := by
  have hpc : (i.latched r i.pc .execute).nextPc?.getD i.pc = i.nextPc := by
    show (if i.instr.is .system then none
      else some (i.instr.nextPc i.pc i.rs1 i.comparison)).getD i.pc = i.nextPc
    unfold Issue.nextPc Instr.is
    by_cases hs : i.instr.kind = some .system
    · rw [if_pos hs, if_pos (beq_iff_eq.2 hs)]
      rfl
    · rw [if_neg hs, if_neg (fun h => hs (beq_iff_eq.1 h))]
      rfl
  rw [← hpc]
  exact Core.commit_execute _

/-- For all but a load, what EXECUTE writes back is the result. -/
theorem Issue.result?_execute {i : Issue} (h : i.instr.kind ≠ some .load) (r : Registers)
    (loaded : Word) : (i.latched r i.pc .execute).result? = i.result? loaded := by
  have hkind : (i.latched r i.pc .execute).decoded.kind = i.instr.kind := rfl
  unfold Core.result? Issue.result?
  rw [hkind]
  generalize i.instr.kind = kind at h
  rcases kind with _ | kind
  · rfl
  · cases kind with
    | load => exact absurd rfl h
    | _ => rfl

namespace Machine

/-- The counters after the instruction, but for ticks and bytes. -/
def recorded (m : Machine) : Tally :=
  m.tally.record m.issue.instr.kind (m.issue.instr.is .branch && m.issue.comparison)

theorem tick_four {m : Machine} (h : m.core.phase = .fetchInstr) :
    tick^[4] m = m.clocked
      (m.issue.latched
        ((m.issue.latched m.core.registers m.issue.pc .execute).result?.elim m.core.registers
          (m.core.registers.write m.issue.instr.rd))
        m.issue.nextPc (m.issue.latched m.core.registers m.issue.pc .execute).afterExecute)
      m.recorded [.reading m.core.pc, .idle, .idle, .idle] := by
  obtain ⟨-, -, h3⟩ := tick_three h
  rw [Function.iterate_succ_apply', h3, tick_clocked, ← Issue.commit_execute]
  rfl

/-- The word that the access of a load finds: the state of the bus is that of its tick. -/
def loaded (m : Machine) : Word :=
  (m.bus.run [.reading m.core.pc, .idle, .idle, .idle]).wordAt m.issue.address

theorem tick_issue_of_load {m : Machine} (h : m.core.phase = .fetchInstr)
    (hk : m.issue.instr.kind = some .load) :
    (tick^[4] m).core.phase = .load ∧ (tick^[5] m).core.phase = .waitData ∧
      (tick^[5] m).bus.readData = m.loaded ∧
      tick^[6] m = m.clocked
        (m.issue.latched (m.issue.writeBack m.core.registers m.loaded) m.issue.nextPc .fetchInstr)
        m.recorded [.reading m.core.pc, .idle, .idle, .idle, .reading m.issue.address, .idle] := by
  have h4 := tick_four h
  have hresult : (m.issue.latched m.core.registers m.issue.pc .execute).result? = none := by
    unfold Core.result?
    rw [show (m.issue.latched m.core.registers m.issue.pc .execute).decoded.kind = _ from hk]
  have hphase : (m.issue.latched m.core.registers m.issue.pc .execute).afterExecute = .load := by
    unfold Core.afterExecute
    rw [show (m.issue.latched m.core.registers m.issue.pc .execute).decoded.kind = _ from hk]
  rw [hresult, hphase] at h4
  have h5 : tick^[5] m = m.clocked
      (m.issue.latched m.core.registers m.issue.nextPc .waitData) m.recorded
      [.reading m.core.pc, .idle, .idle, .idle, .reading m.issue.address] := by
    rw [Function.iterate_succ_apply', h4, tick_clocked]
    rfl
  have hword : (m.bus.run [.reading m.core.pc, .idle, .idle, .idle,
      .reading m.issue.address]).readData = m.loaded :=
    Bus.readData_tick _ (.reading m.issue.address)
  refine ⟨by rw [h4]; rfl, by rw [h5]; rfl, by rw [h5]; exact hword, ?_⟩
  rw [Function.iterate_succ_apply', h5, tick_clocked, hword]
  unfold Issue.writeBack Issue.result?
  rw [hk]
  rfl

theorem tick_issue_of_store {m : Machine} (h : m.core.phase = .fetchInstr)
    (hk : m.issue.instr.kind = some .store) :
    (tick^[4] m).core.phase = .store ∧
      tick^[5] m = m.clocked
        (m.issue.latched (m.issue.writeBack m.core.registers m.loaded) m.issue.nextPc .fetchInstr)
        m.recorded [.reading m.core.pc, .idle, .idle, .idle, m.issue.storing] := by
  have h4 := tick_four h
  have hresult := Issue.result?_execute (by rw [hk]; simp) m.core.registers m.loaded
  have hphase : (m.issue.latched m.core.registers m.issue.pc .execute).afterExecute = .store := by
    unfold Core.afterExecute
    rw [show (m.issue.latched m.core.registers m.issue.pc .execute).decoded.kind = _ from hk]
  rw [hresult, hphase] at h4
  refine ⟨by rw [h4]; rfl, ?_⟩
  rw [Function.iterate_succ_apply', h4, tick_clocked]
  rfl

theorem tick_issue_of_neither {m : Machine} (h : m.core.phase = .fetchInstr)
    (hl : m.issue.instr.kind ≠ some .load) (hs : m.issue.instr.kind ≠ some .store) :
    tick^[4] m = m.clocked
      (m.issue.latched (m.issue.writeBack m.core.registers m.loaded) m.issue.nextPc .fetchInstr)
      m.recorded [.reading m.core.pc, .idle, .idle, .idle] := by
  have hphase : (m.issue.latched m.core.registers m.issue.pc .execute).afterExecute =
      .fetchInstr := by
    have hkind : (m.issue.latched m.core.registers m.issue.pc .execute).decoded.kind =
        m.issue.instr.kind := rfl
    unfold Core.afterExecute
    rw [hkind]
    split
    · contradiction
    · contradiction
    · rfl
  rw [tick_four h, hphase, Issue.result?_execute hl m.core.registers m.loaded]
  rfl

/-- An instruction takes its ticks, and what the machine comes to in them. -/
theorem tick_issue {m : Machine} (h : m.core.phase = .fetchInstr) :
    tick^[m.issue.ticks] m = m.clocked
      (m.issue.latched (m.issue.writeBack m.core.registers m.loaded) m.issue.nextPc .fetchInstr)
      m.recorded m.issue.requests := by
  unfold Issue.ticks Issue.requests
  split
  · rename_i hk
    obtain ⟨-, -, -, h6⟩ := tick_issue_of_load h hk
    exact h6
  · rename_i hk
    obtain ⟨-, h5⟩ := tick_issue_of_store h hk
    exact h5
  · rename_i hl hs
    exact tick_issue_of_neither h hl hs

/-- Between its two FETCH_INSTR the machine is in other phases. -/
theorem phase_of_underway {m : Machine} (h : m.core.phase = .fetchInstr) {n : Nat} (hpos : 0 < n)
    (hn : n < m.issue.ticks) : (tick^[n] m).core.phase ≠ .fetchInstr := by
  obtain ⟨h1, h2, h3⟩ := tick_three h
  -- The first three ticks are those of every instruction; only then does the kind count.
  have hfour : n < 4 → (tick^[n] m).core.phase ≠ .fetchInstr := by
    intro hlt
    interval_cases n
    · rw [Function.iterate_one, h1]
      exact Phase.noConfusion
    · rw [h2]
      exact Phase.noConfusion
    · rw [h3]
      exact Phase.noConfusion
  unfold Issue.ticks at hn
  split at hn
  · rename_i hk
    obtain ⟨h4, h5, -, -⟩ := tick_issue_of_load h hk
    rcases (by omega : n < 4 ∨ n = 4 ∨ n = 5) with hlt | rfl | rfl
    · exact hfour hlt
    · rw [h4]
      exact Phase.noConfusion
    · rw [h5]
      exact Phase.noConfusion
  · rename_i hk
    obtain ⟨h4, -⟩ := tick_issue_of_store h hk
    rcases (by omega : n < 4 ∨ n = 4) with hlt | rfl
    · exact hfour hlt
    · rw [h4]
      exact Phase.noConfusion
  · exact hfour hn

end Machine

end Multicycle
