/-
Two machines whose serial lines run at different rates. The rate is known to the transmitter alone,
and what the transmitter does is shown to the rest of the machine by the status register alone; so as
long as one of the two machines does not read its status, they do the same in every tick, however far
apart their transmitters have come.
-/
import Multicycle.Proofs.Machine.Reach
import Multicycle.Proofs.Machine.Ticks

namespace Multicycle

/-! ## Buses -/

namespace Bus

/-- Two buses are alike but for their serial devices. -/
structure Agrees (b b' : Bus) : Prop where
  ram : b.ram = b'.ram
  lights : b.page.leds = b'.page.leds
  ioBit : b.ioBit = b'.ioBit
  readData : b.readData = b'.readData

variable {b b' : Bus}

/-- Wherever the status is not selected, they show the same word. -/
theorem Agrees.wordAt (h : b.Agrees b') {a : Word} (ha : a.selects b.ioBit 2 = false) :
    b.wordAt a = b'.wordAt a := by
  unfold Bus.wordAt
  rw [← h.ioBit, ← h.ram, ha]
  rfl

/-- A tick that does not read the status keeps them alike. -/
theorem Agrees.tick (h : b.Agrees b') {t : Transaction} (ht : t.readsStatus b.ioBit = false) :
    (b.tick t).Agrees (b'.tick t) := by
  refine ⟨?_, ?_, h.ioBit, ?_⟩
  · show b.nextRam t = b'.nextRam t
    unfold nextRam isIo offset
    rw [h.ram, h.ioBit]
  · have hvalue : (b.tick t).page.leds.value = (b'.tick t).page.leds.value := by
      rw [leds_tick, leds_tick, h.lights, h.ioBit]
    exact congrArg Leds.mk hvalue
  · rw [readData_tick, readData_tick, h.readData]
    cases hread : t.read with
    | false => rfl
    | true =>
      unfold Transaction.readsStatus at ht
      rw [hread, Bool.true_and] at ht
      rw [h.wordAt ht]

end Bus

/-! ## Machines -/

namespace Machine

/-- Two machines are alike but for their serial devices, the bytes counted for these and the limits of
their runs. -/
structure Agrees (m m' : Machine) : Prop where
  core : m.core = m'.core
  bus : m.bus.Agrees m'.bus
  tally : { m.tally with bytesSent := m'.tally.bytesSent } = m'.tally

variable {m m' : Machine}

theorem Agrees.step (h : m.Agrees m') : m.step = m'.step := by
  unfold Machine.step
  rw [h.core, h.bus.readData]

theorem agrees_tick (h : m.Agrees m') (ht : m.step.request.readsStatus m.bus.ioBit = false) :
    m.tick.Agrees m'.tick := by
  refine ⟨?_, ?_, ?_⟩
  · show m.core.commit m.step = m'.core.commit m'.step
    rw [h.core, h.step]
  · show (m.bus.tick m.step.request).Agrees (m'.bus.tick m'.step.request)
    rw [← h.step]
    exact h.bus.tick ht
  · -- The instruction is counted alike in both; ticks and bytes are counted apart from it.
    obtain ⟨hretire, -, -⟩ := m.tally.retire_with m.step.retired m.tally.ticks m'.tally.bytesSent
    have hticks : m'.tally.ticks = m.tally.ticks := by rw [← h.tally]
    rw [show ({ m.tally with ticks := m.tally.ticks, bytesSent := m'.tally.bytesSent } : Tally) =
      m'.tally from h.tally] at hretire
    rw [m'.tally_tick, m.tally_tick, ← h.step, hretire, hticks]

/-- So far as the first machine does not read its status, the two stay alike. -/
theorem agrees_tick_iterate {n : Nat} (h : m.Agrees m')
    (hblind : ∀ t ∈ m.requests n, t.readsStatus m.bus.ioBit = false) {k : Nat} (hk : k ≤ n) :
    (tick^[k] m).Agrees (tick^[k] m') := by
  induction k generalizing m m' n with
  | zero => exact h
  | succ k ih =>
    obtain ⟨n, rfl⟩ := Nat.exists_eq_add_one.2 (Nat.lt_of_lt_of_le (Nat.succ_pos k) hk)
    have hfirst := hblind m.step.request (List.mem_cons_self ..)
    refine ih (agrees_tick h hfirst) (fun t ht => ?_) (Nat.le_of_succ_le_succ hk)
    exact hblind t (List.mem_cons_of_mem _ ht)

theorem agrees_of_build {s s' : Settings} {image : List Word} (h : build s image = .ok m)
    (h' : build s' image = .ok m') (hwords : s.ramWords = s'.ramWords)
    (hbit : s.ioSelectBit = s'.ioSelectBit) : m.Agrees m' := by
  obtain ⟨period, ram, -, -, hram, rfl⟩ := of_build_eq_ok h
  obtain ⟨period', ram', -, -, hram', rfl⟩ := of_build_eq_ok h'
  rw [← hwords, hram] at hram'
  cases hram'
  refine ⟨rfl, ⟨rfl, rfl, ?_, rfl⟩, rfl⟩
  show Fin.ofNat 32 s.ioSelectBit = Fin.ofNat 32 s'.ioSelectBit
  rw [hbit]

/-- For all accepted settings that differ in nothing but the clock, the bit rate and the limit of a
run, and every image that fits: as long as the machine built from the first ones does not read the
status of its transmitter, neither by a fetch nor by a load, the two have the same core, the same
value held, the same RAM and lights and the same counts, but for the bytes sent. -/
theorem agrees_run {s : Settings} {clockHz baudRate tickLimit : Nat} {image : List Word}
    (h : build s image = .ok m) (h' : build { s with clockHz, baudRate, tickLimit } image = .ok m')
    {n : Nat} (hblind : ∀ t ∈ m.requests n, t.readsStatus s.ioSelectBit = false) :
    ∀ k ≤ n, (tick^[k] m).Agrees (tick^[k] m') := by
  have hstart := agrees_of_build h h' rfl rfl
  rw [← (Reachable.built h).sound.ioBit] at hblind
  exact fun k hk => agrees_tick_iterate hstart hblind hk

/-- Four letters sent without waiting: the slow line takes the first only, the fast one another. The
cores have gone the same way. -/
theorem agrees_run_unpolled :
    ∃ m m', build { ramWords := 6 } [0x4000b7, 0x4100113, 0x208423, 0x208423, 0x208423, 0x208423] =
        .ok m ∧
      build { ramWords := 6, clockHz := 1, baudRate := 1, tickLimit := 0 }
        [0x4000b7, 0x4100113, 0x208423, 0x208423, 0x208423, 0x208423] = .ok m' ∧
      (∀ t ∈ m.requests 28, t.readsStatus 22 = false) ∧
      (tick^[28] m).core = (tick^[28] m').core ∧
      (tick^[28] m).bus.page.serial.sent = #[0x41] ∧
      (tick^[28] m').bus.page.serial.sent = #[0x41, 0x41] := by
  refine ⟨_, _, rfl, rfl, by decide, ?_, by decide, by decide⟩
  have hagrees := agrees_run (s := { ramWords := 6 }) (n := 28)
    (show build { ramWords := 6 }
      [0x4000b7, 0x4100113, 0x208423, 0x208423, 0x208423, 0x208423] = .ok _ from rfl)
    (show build { ramWords := 6, clockHz := 1, baudRate := 1, tickLimit := 0 }
      [0x4000b7, 0x4100113, 0x208423, 0x208423, 0x208423, 0x208423] = .ok _ from rfl)
    (by decide) 28 (Nat.le_refl 28)
  exact hagrees.core

end Machine

end Multicycle
