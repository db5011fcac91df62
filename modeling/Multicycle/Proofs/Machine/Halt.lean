/-
A machine that has halted. It stands at a system instruction in RAM, fetches it again and again, four
ticks a round, and nothing comes of it: from one round to the next only the counters and the frame
that may be on its way go on.
-/
import Multicycle.Proofs.Machine.Issue
import Multicycle.Proofs.Machine.Latches

namespace Multicycle

/-! ## System instructions -/

/-- A system instruction can only have been found in RAM: neither the page nor what lies past the end
of RAM shows a word with its opcode. -/
theorem Bus.MayFind.in_ram_of_system {b : Bus} {a w : Word} (h : b.MayFind a w)
    (hw : w.opcode = Kind.system.opcode) :
    a.getLsbD b.ioBit = false ∧ a.toNat / 4 < b.ram.size ∧ w = b.ram.read (a.toNat / 4) := by
  have hzero : w ≠ 0 := by
    rintro rfl
    cases hw
  cases ha : a.getLsbD b.ioBit with
  | true =>
    unfold Bus.MayFind at h
    rw [ha] at h
    rcases h with rfl | rfl <;> cases hw
  | false =>
    have hread := h.eq_read ha
    refine ⟨rfl, ?_, hread⟩
    by_contra hout
    rw [Ram.read_of_size_le (Nat.le_of_not_lt hout)] at hread
    exact hzero hread

/-- EXECUTE of a system instruction only records it. -/
theorem Core.evaluate_of_system {c : Core} (hp : c.phase = .execute)
    (hk : c.decoded.kind = some .system) (readData : Word) :
    c.evaluate readData =
      { next := .fetchInstr, retired := some ⟨c.pc, c.decoded.raw, some .system, false⟩ } := by
  unfold Core.evaluate Core.execute Core.afterExecute Core.nextPc? Core.result? Instr.is
  rw [hp, hk]
  rfl

/-! ## Reads -/

/-- A bus that is not written to stays as it is, but for the transmitter and the value held. -/
theorem Bus.run_of_reads {b : Bus} (hnone : b.page.serial.pending = none) {ts : List Transaction}
    (h : ∀ t ∈ ts, t.write = false) :
    b.run ts =
      { b with
        page := { b.page with
          serial := { b.page.serial with
            transmitter := b.page.serial.transmitter.run (List.replicate ts.length none) } }
        readData := (b.run ts).readData } := by
  have hleds : (b.run ts).page.leds = b.page.leds :=
    congrArg Leds.mk (leds_run_of_reads b h)
  have hpage : (b.run ts).page = ⟨b.page.leds, (b.run ts).page.serial⟩ := by rw [← hleds]
  have heta : b.run ts =
      ⟨(b.run ts).ram, (b.run ts).page, (b.run ts).ioBit, (b.run ts).readData⟩ := rfl
  rw [heta, hpage, ram_run_of_reads b h, serial_run_of_reads hnone h, ioBit_run, ← hnone]

namespace Machine

variable {m : Machine}

/-! ## One round -/

/-- The machine after `k` rounds of four ticks. -/
def idled (m : Machine) (k : Nat) : Machine :=
  { m with
    bus := { m.bus with
      page := { m.bus.page with
        serial := { m.bus.page.serial with
          transmitter := m.bus.page.serial.transmitter.run (List.replicate (4 * k) none) } } }
    tally := { m.tally with
      ticks := m.tally.ticks + 4 * k
      instructions := m.tally.instructions + k
      system := m.tally.system + k } }

/-- What is asked of the bus in a round. -/
def roundRequests (m : Machine) : List Transaction := [.idle, .reading m.core.pc, .idle, .idle]

/-- The read of a round finds the instruction that is latched. -/
theorem readData_round (hlatched : m.core.Latched m.bus) (h : m.isHalted = true) :
    (m.bus.run [.idle, .reading m.core.pc]).readData = m.core.instr := by
  obtain ⟨hp, hk⟩ := m.isHalted_iff.1 h
  obtain ⟨-, hfound, -⟩ : m.core.HoldsIn m.bus .execute := hp ▸ hlatched.holds
  obtain ⟨hbelow, -, hread⟩ :=
    hfound.in_ram_of_system (Instr.opcode_of_kind (hlatched.decoded ▸ hk))
  have hagain := ((m.bus.tick .idle).mayFind_reading m.core.pc).eq_read hbelow
  rwa [Bus.ram_tick_of_read _ rfl, Bus.ram_tick_of_read _ rfl, ← hread] at hagain

/-- One round, tick by tick: what is latched in it is what was latched before. -/
theorem clocked_of_halted (hlatched : m.core.Latched m.bus) (h : m.isHalted = true) :
    let tally := m.tally.record (some .system) false
    m.tick = m.clocked { m.core with phase := .fetchInstr } tally [.idle] ∧
      tick^[2] m =
        m.clocked { m.core with phase := .waitInstr } tally [.idle, .reading m.core.pc] ∧
      tick^[3] m =
        m.clocked { m.core with phase := .fetchRegs } tally [.idle, .reading m.core.pc, .idle] ∧
      tick^[4] m = m.clocked m.core tally m.roundRequests := by
  intro tally
  obtain ⟨hp, hk⟩ := m.isHalted_iff.1 h
  obtain ⟨-, -, hrs1, hrs2⟩ : m.core.HoldsIn m.bus .execute := hp ▸ hlatched.holds
  have h1 : m.tick = m.clocked { m.core with phase := .fetchInstr } tally [.idle] := by
    conv_lhs => rw [← m.clocked_nil, tick_clocked]
    rw [Core.evaluate_of_system hp hk]
    rfl
  have h2 : tick^[2] m =
      m.clocked { m.core with phase := .waitInstr } tally [.idle, .reading m.core.pc] := by
    rw [Function.iterate_succ_apply', Function.iterate_one, h1, tick_clocked]
    rfl
  have h3 : tick^[3] m =
      m.clocked { m.core with phase := .fetchRegs } tally [.idle, .reading m.core.pc, .idle] := by
    rw [Function.iterate_succ_apply', h2, tick_clocked, readData_round hlatched h]
    show m.clocked { m.core with decoded := .decode m.core.instr, phase := .fetchRegs } _ _ = _
    rw [← hlatched.decoded]
    rfl
  refine ⟨h1, h2, h3, ?_⟩
  rw [Function.iterate_succ_apply', h3, tick_clocked]
  show m.clocked { m.core with
    rs1 := m.core.registers.read m.core.decoded.rs1
    rs2 := m.core.registers.read m.core.decoded.rs2
    phase := .execute } _ _ = _
  rw [← hrs1, ← hrs2, ← hp]
  rfl

theorem round_of_halted (hlatched : m.core.Latched m.bus)
    (hnone : m.bus.page.serial.pending = none) (h : m.isHalted = true) :
    m.tick.core.phase = .fetchInstr ∧ (tick^[2] m).core.phase = .waitInstr ∧
      (tick^[3] m).core.phase = .fetchRegs ∧ tick^[4] m = m.idled 1 := by
  obtain ⟨h1, h2, h3, h4⟩ := clocked_of_halted hlatched h
  obtain ⟨hp, -⟩ := m.isHalted_iff.1 h
  obtain ⟨hheld, -⟩ : m.core.HoldsIn m.bus .execute := hp ▸ hlatched.holds
  have hreads : ∀ t ∈ m.roundRequests, t.write = false := by
    simp [roundRequests, Transaction.idle, Transaction.reading]
  have hdata : (m.bus.run m.roundRequests).readData = m.bus.readData :=
    (readData_round hlatched h).trans hheld
  refine ⟨by rw [h1]; rfl, by rw [h2]; rfl, by rw [h3]; rfl, ?_⟩
  rw [h4]
  unfold clocked idled
  rw [Bus.run_of_reads hnone hreads, hdata, Nat.sub_self]
  rfl

/-! ## All rounds -/

theorem idled_idled (m : Machine) (j k : Nat) : (m.idled j).idled k = m.idled (j + k) := by
  unfold idled
  dsimp only
  rw [← Transmitter.run_append, List.replicate_append_replicate]
  simp only [Nat.mul_add, Nat.add_assoc]

theorem tick_iterate_of_halted (hlatched : m.core.Latched m.bus)
    (hnone : m.bus.page.serial.pending = none) (h : m.isHalted = true) (k : Nat) :
    tick^[4 * k] m = m.idled k := by
  induction k with
  | zero => rfl
  | succ k ih =>
    -- The core after `k` rounds is that at the start, so it is halted and its latches are right.
    have hlater := latched_tick_iterate hlatched (4 * k)
    rw [ih] at hlater
    obtain ⟨-, -, -, hround⟩ := round_of_halted hlater hnone h
    rw [Nat.mul_succ, Nat.add_comm, Function.iterate_add_apply, ih, hround, idled_idled]

/-- The phase `r` ticks into a round. -/
def roundPhase : Nat → Phase
  | 0 => .execute
  | 1 => .fetchInstr
  | 2 => .waitInstr
  | _ => .fetchRegs

/-- What a halted machine stands at, and what becomes of it. -/
structure AtRest (m : Machine) : Prop where
  below : m.core.pc.getLsbD m.bus.ioBit = false
  inRam : m.core.pc.toNat / 4 < m.bus.ram.size
  system : (m.bus.ram.read (m.core.pc.toNat / 4)).opcode = Kind.system.opcode
  phase : ∀ k, (tick^[k] m).core.phase = roundPhase (k % 4)
  halted : ∀ k, (tick^[k] m).isHalted = true ↔ 4 ∣ k
  rounds : ∀ k, tick^[4 * k] m = m.idled k

theorem phase_of_halted (hlatched : m.core.Latched m.bus)
    (hnone : m.bus.page.serial.pending = none) (h : m.isHalted = true) (k : Nat) :
    (tick^[k] m).core.phase = roundPhase (k % 4) := by
  have hlater := latched_tick_iterate hlatched (4 * (k / 4))
  rw [tick_iterate_of_halted hlatched hnone h] at hlater
  obtain ⟨hp, -⟩ := m.isHalted_iff.1 h
  obtain ⟨h1, h2, h3, -⟩ := round_of_halted hlater hnone h
  -- So many rounds are over, and the next one is some ticks old.
  have hsplit : tick^[k] m = tick^[k % 4] (m.idled (k / 4)) := by
    rw [← tick_iterate_of_halted hlatched hnone h, ← Function.iterate_add_apply,
      Nat.mod_add_div]
  have hlt := Nat.mod_lt k (show 0 < 4 by decide)
  rw [hsplit]
  generalize k % 4 = r at hlt
  interval_cases r
  · exact hp
  · exact h1
  · exact h2
  · exact h3

/-- For all accepted settings and every image that fits: a machine that has come to halt stands at a
system instruction in RAM and is halted again on every fourth tick. Then the core, the value held,
RAM, the lights and the bytes sent are what they were; the ticks have been counted, and one system
instruction each time; and the transmitter has been clocked with nothing offered. -/
theorem atRest_of_halted {s : Settings} {image : List Word} (hbuild : build s image = .ok m) {n : Nat}
    (h : (tick^[n] m).isHalted = true) : (tick^[n] m).AtRest := by
  have hlatched := latched_tick_iterate (latched_of_build hbuild) n
  have hnone := ((Reachable.built hbuild).sound.tick_iterate n).settled
  generalize tick^[n] m = m at h hlatched hnone
  obtain ⟨hp, hk⟩ := m.isHalted_iff.1 h
  obtain ⟨-, hfound, -⟩ : m.core.HoldsIn m.bus .execute := hp ▸ hlatched.holds
  have hopcode : m.core.instr.opcode = Kind.system.opcode :=
    Instr.opcode_of_kind (hlatched.decoded ▸ hk)
  obtain ⟨hbelow, hin, hread⟩ := hfound.in_ram_of_system hopcode
  refine ⟨hbelow, hin, hread ▸ hopcode, phase_of_halted hlatched hnone h, fun k => ?_,
    tick_iterate_of_halted hlatched hnone h⟩
  constructor
  · intro hk
    have hphase := phase_of_halted hlatched hnone h k
    rw [((tick^[k] m).isHalted_iff.1 hk).1] at hphase
    have hlt := Nat.mod_lt k (show 0 < 4 by decide)
    apply Nat.dvd_of_mod_eq_zero
    generalize k % 4 = r at hphase hlt
    interval_cases r
    · rfl
    all_goals cases hphase
  · rintro ⟨k, rfl⟩
    rw [tick_iterate_of_halted hlatched hnone h]
    exact h

/-- A program that stores the instruction at which it then halts, a thousand rounds later. -/
theorem atRest_of_stored_halt :
    ∃ m, build { ramWords := 3 } [0x7300093, 0x102423] = .ok m ∧ (tick^[12] m).isHalted = true ∧
      (tick^[4 * 1000] (tick^[12] m)).core = (tick^[12] m).core ∧
      (tick^[4 * 1000] (tick^[12] m)).tally.ticks = 4012 ∧
      (tick^[4 * 1000] (tick^[12] m)).tally.system = 1000 := by
  refine ⟨_, rfl, by decide, ?_⟩
  have hrest := atRest_of_halted (n := 12)
    (show build { ramWords := 3 } [0x7300093, 0x102423] = .ok _ from rfl) (by decide)
  rw [hrest.rounds]
  exact ⟨rfl, by decide, by decide⟩

end Machine

end Multicycle
