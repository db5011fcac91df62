/-
What one instruction does, whatever the word and wherever it is found. The word may have no kind, the
addresses may be of RAM, past its end or on the page, aligned or not, the transmitter idle or in the
middle of a frame, and the latches hold what they will: the program counter, at most one register and
what a store reaches are all that changes, and they change by what stood there at the start.
-/
import Multicycle.Proofs.Machine.Issue
import Mathlib.Tactic

namespace Multicycle

namespace Issue

theorem length_requests (i : Issue) : i.requests.length = i.ticks := by
  unfold requests ticks
  split <;> rfl

theorem write_fetch (pc : Word) :
    ∀ t ∈ [Transaction.reading pc, .idle, .idle, .idle], t.write = false := by
  simp [Transaction.reading, Transaction.idle]

/-- Only a store writes, and on its last tick. -/
theorem requests_of_store {i : Issue} (h : i.instr.kind = some .store) :
    i.requests = [.reading i.pc, .idle, .idle, .idle] ++ [i.storing] := by
  unfold requests
  rw [h]

theorem write_requests {i : Issue} (h : i.instr.kind ≠ some .store) :
    ∀ t ∈ i.requests, t.write = false := by
  intro t ht
  unfold requests at ht
  rcases List.mem_append.1 ht with ht | ht
  · exact write_fetch i.pc t ht
  · split at ht
    · simp only [List.mem_cons, List.not_mem_nil, or_false] at ht
      rcases ht with rfl | rfl <;> rfl
    · contradiction
    · cases ht

/-- Whether it stores into lane `k` of RAM word `j`. -/
def storesLane (i : Issue) (ioBit j k : Nat) : Bool :=
  i.instr.is .store && !i.address.getLsbD ioBit && i.address.toNat / 4 == j &&
    (Width.ofFunct3 i.instr.funct3).covers i.address.toNat k

/-- The bytes that it puts before the transmitter, one place for each of its ticks. -/
def offers (i : Issue) (ioBit : Nat) : List (Option Byte) :=
  List.replicate 4 none ++
  match i.instr.kind with
  | some .load => [none, none]
  | some .store => [if i.address.selects ioBit 1 then some (i.rs2.setWidth 8) else none]
  | _ => []

theorem map_offer_requests (i : Issue) (ioBit : Nat) :
    i.requests.map (·.offer ioBit) = i.offers ioBit := by
  -- Whatever the address, lane 0 carries the low byte of the value.
  have hlow : (spread i.rs2 i.address).setWidth 8 = i.rs2.setWidth 8 := by
    have hbyte := byte_spread i.rs2 i.address (show 0 < 4 by decide)
    rwa [show laneSource i.address.toNat 0 = 0 from rfl, Word.byte, Word.byte, Nat.mul_zero,
      ← BitVec.setWidth_eq_extractLsb' (by decide), ← BitVec.setWidth_eq_extractLsb' (by decide)]
      at hbyte
  unfold requests offers
  generalize i.instr.kind = kind
  rcases kind with _ | kind
  · rfl
  · cases kind with
    | store =>
      show List.replicate 4 none ++ [if i.address.selects ioBit 1 then
        some ((spread i.rs2 i.address).setWidth 8) else none] = _
      rw [hlow]
    | _ => rfl

end Issue

namespace Machine

/-! ## The bus after the instruction -/

/-- The word that a load finds, told by the machine at the start: RAM is as it was, and the
transmitter has been clocked four times more. -/
theorem loaded_eq {m : Machine} (hnone : m.bus.page.serial.pending = none) :
    m.loaded =
      if m.issue.address.getLsbD m.bus.ioBit then
        if m.issue.address.selects m.bus.ioBit 2 &&
            !(m.bus.page.serial.transmitter.run (List.replicate 4 none)).ready
        then BitVec.twoPow 32 9 else 0
      else m.bus.ram.read (m.issue.address.toNat / 4) := by
  have hreads := Issue.write_fetch m.core.pc
  unfold loaded Bus.wordAt
  rw [Bus.ioBit_run, Bus.serial_run_of_reads hnone hreads, Bus.ram_run_of_reads _ hreads]
  rfl

/-- A store comes last, on the bus as the fetch has left it. -/
theorem run_requests_of_store {m : Machine} (h : m.issue.instr.kind = some .store) :
    m.bus.run m.issue.requests =
      (m.bus.run [.reading m.core.pc, .idle, .idle, .idle]).tick m.issue.storing := by
  rw [Issue.requests_of_store h, Bus.run_append]
  rfl

theorem byte_run_requests (m : Machine) {j k : Nat} (hj : j < m.bus.ram.size) (hk : k < 4) :
    ((m.bus.run m.issue.requests).ram.read j).byte k =
      if m.issue.storesLane m.bus.ioBit j k then
        m.issue.rs2.byte (laneSource m.issue.address.toNat k)
      else (m.bus.ram.read j).byte k := by
  by_cases hs : m.issue.instr.kind = some .store
  · have hreads := Issue.write_fetch m.core.pc
    rw [run_requests_of_store hs, Bus.byte_tick _ _ (by rwa [Bus.size_run]) hk, Bus.ioBit_run,
      Bus.ram_run_of_reads _ hreads]
    unfold Transaction.writesLane Issue.storing Transaction.writing Issue.storesLane Instr.is
    dsimp only
    rw [Width.getLsbD_mask _ _ hk, byte_spread _ _ hk, hs]
    rfl
  · rw [Bus.ram_run_of_reads _ (Issue.write_requests hs), if_neg]
    simp [Issue.storesLane, Instr.is, hs]

theorem leds_run_requests (m : Machine) :
    (m.bus.run m.issue.requests).page.leds.value =
      if m.issue.instr.is .store && m.issue.address.selects m.bus.ioBit 0 then
        spread m.issue.rs2 m.issue.address
      else m.bus.page.leds.value := by
  by_cases hs : m.issue.instr.kind = some .store
  · have hreads := Issue.write_fetch m.core.pc
    rw [run_requests_of_store hs, Bus.leds_tick, Bus.ioBit_run, Bus.leds_run_of_reads _ hreads]
    unfold Instr.is
    rw [hs]
    rfl
  · rw [Bus.leds_run_of_reads _ (Issue.write_requests hs), if_neg]
    simp [Instr.is, hs]

/-! ## The machine after the instruction -/

/-- What the instruction about to be fetched by `m` makes of it. -/
structure Completes (m m' : Machine) : Prop where
  fetched : m.tick.bus.readData = m.bus.wordAt m.core.pc
  found : m.issue.instr.kind = some .load → (tick^[5] m).bus.readData = m.loaded
  loaded : m.loaded =
    if m.issue.address.getLsbD m.bus.ioBit then
      if m.issue.address.selects m.bus.ioBit 2 &&
          !(m.bus.page.serial.transmitter.run (List.replicate 4 none)).ready
      then BitVec.twoPow 32 9 else 0
    else m.bus.ram.read (m.issue.address.toNat / 4)
  underway : ∀ n, 0 < n → n < m.issue.ticks → (tick^[n] m).core.phase ≠ .fetchInstr
  phase : m'.core.phase = .fetchInstr
  pc : m'.core.pc =
    if m.issue.instr.kind = some .system then m.core.pc
    else m.issue.instr.nextPc m.core.pc m.issue.rs1
      (branchTaken m.issue.instr.funct3 m.issue.rs1 m.issue.rs2)
  register : ∀ r, m'.core.registers.read r =
    if r = m.issue.instr.rd ∧ r ≠ 0 then (m.issue.result? m.loaded).getD (m.core.registers.read r)
    else m.core.registers.read r
  counted : m'.tally =
    { m.recorded with
      ticks := m.tally.ticks + m.issue.ticks
      bytesSent := m.tally.bytesSent +
        (m.bus.page.serial.transmitter.taken (m.issue.offers m.bus.ioBit)).length }
  size : m'.bus.ram.size = m.bus.ram.size
  byte : ∀ j < m.bus.ram.size, ∀ k < 4, (m'.bus.ram.read j).byte k =
    if m.issue.storesLane m.bus.ioBit j k then
      m.issue.rs2.byte (laneSource m.issue.address.toNat k)
    else (m.bus.ram.read j).byte k
  lights : m'.bus.page.leds.value =
    if m.issue.instr.is .store && m.issue.address.selects m.bus.ioBit 0 then
      spread m.issue.rs2 m.issue.address
    else m.bus.page.leds.value
  serial : m'.bus.page.serial =
    ⟨m.bus.page.serial.transmitter.run (m.issue.offers m.bus.ioBit), none,
      m.bus.page.serial.sent ++
        (m.bus.page.serial.transmitter.taken (m.issue.offers m.bus.ioBit)).toArray⟩
  ioBit : m'.bus.ioBit = m.bus.ioBit
  tickLimit : m'.tickLimit = m.tickLimit

/-- For every machine in FETCH_INSTR, its instruction is done after six ticks if it is a load, five if
it is a store and four if it is anything else, and it has done what it should and nothing else. -/
theorem completes_tick {m : Machine} (h : m.core.phase = .fetchInstr)
    (hnone : m.bus.page.serial.pending = none) : m.Completes (tick^[m.issue.ticks] m) := by
  have hserial := Bus.serial_run hnone m.issue.requests
  rw [Issue.map_offer_requests] at hserial
  obtain ⟨h1, -, -⟩ := tick_three h
  have hfetched : m.tick.bus.readData = m.bus.wordAt m.core.pc := by
    rw [h1]
    exact Bus.readData_tick m.bus (.reading m.core.pc)
  rw [tick_issue h]
  refine ⟨hfetched, fun hk => ?_, loaded_eq hnone, fun n => phase_of_underway h, rfl, rfl,
    m.issue.read_writeBack m.core.registers m.loaded, ?_, Bus.size_run _ _,
    fun j hj k hk => m.byte_run_requests hj hk, m.leds_run_requests, hserial, Bus.ioBit_run _ _, rfl⟩
  · obtain ⟨-, -, hfound, -⟩ := tick_issue_of_load h hk
    exact hfound
  · obtain ⟨-, hticks, hbytes⟩ := m.tally.retire_with (some ⟨m.core.pc, m.issue.instr.raw,
      m.issue.instr.kind, m.issue.instr.is .branch && m.issue.comparison⟩) 0 0
    change m.recorded.ticks = _ at hticks
    change m.recorded.bytesSent = _ at hbytes
    unfold clocked
    simp only [hserial, Array.size_append, List.size_toArray, Nat.add_sub_cancel_left,
      Issue.length_requests, hticks, hbytes]

/-- A half word stored to an odd address on the page: the lights take the whole spread word. -/
theorem completes_tick_odd_store :
    ∃ m : Machine, m.core.phase = .fetchInstr ∧ m.bus.page.serial.pending = none ∧
      m.issue.instr.kind = some .store ∧ (tick^[5] m).core.pc = 4 ∧
      (tick^[5] m).bus.page.leds.value = 0x34003434 ∧ (tick^[5] m).tally.store = 1 := by
  let registers := (Registers.zero.write 1 0x1234).write 2 0x400005
  let m : Machine :=
    ⟨{ Core.reset with registers }, .ofRam ⟨#[0x111023]⟩ 22 12, {}, 100⟩
  have hkind : m.issue.instr.kind = some .store := by decide
  have hticks : m.issue.ticks = 5 := by
    unfold Issue.ticks
    rw [hkind]
  have hdone : m.Completes (tick^[m.issue.ticks] m) := completes_tick rfl rfl
  rw [hticks] at hdone
  refine ⟨m, rfl, rfl, hkind, ?_, ?_, ?_⟩
  · rw [hdone.pc]
    decide
  · rw [hdone.lights]
    decide
  · rw [hdone.counted]
    decide

end Machine

end Multicycle
