/-
Which machines there are. One is built from settings and an image; from then on it ticks, and between
its ticks the host may write registers, the program counter and RAM, or clock the bus by hand. Every
such machine keeps the size of RAM and the I/O bit of its settings, and no byte is ever left waiting
for the transmitter.
-/
import Multicycle.Machine
import Multicycle.Proofs.Bus.History
import Multicycle.Proofs.Except
import Mathlib.Tactic

namespace Multicycle

/-! ## Building -/

namespace Settings

/-- The line is never faster than the clock. -/
theorem period_pos {s : Settings} {period : Nat} (h : s.period = .ok period) : 0 < period := by
  unfold Settings.period at h
  split at h
  · cases h
  · split at h
    · cases h
    · split at h
      · cases h
      · cases h
        exact Nat.div_pos (by omega) (by omega)

theorem checkMemory_eq_ok_iff (s : Settings) :
    s.checkMemory = .ok () ↔
      0 < s.ramWords ∧ 2 ≤ s.ioSelectBit ∧ s.ioSelectBit ≤ 31 ∧ 4 * s.ramWords ≤ 2 ^ s.ioSelectBit := by
  unfold checkMemory
  rw [Nat.one_shiftLeft]
  split
  · simp; omega
  · split
    · simp; omega
    · split
      · simp; omega
      · simp; omega

/-- Settings are accepted if they have a bit period and their memory is sound. -/
theorem validate_eq_ok_iff (s : Settings) :
    s.validate = .ok () ↔ (∃ period, s.period = .ok period) ∧ s.checkMemory = .ok () := by
  unfold validate
  cases s.period with
  | error e => simp
  | ok period => simp

theorem ioBase?_of_lt {s : Settings} (h : s.ioSelectBit < 32) :
    s.ioBase? = some (BitVec.twoPow 32 s.ioSelectBit) := if_pos h

end Settings

namespace Machine

theorem of_build_eq_ok {s : Settings} {image : List Word} {m : Machine}
    (h : build s image = .ok m) :
    ∃ period ram, s.validate = .ok () ∧ s.period = .ok period ∧
      Ram.ofImage s.ramWords image = .ok ram ∧
      m = ⟨.reset, .ofRam ram s.ioSelectBit period, {}, s.tickLimit⟩ := by
  unfold build at h
  cases hv : s.validate with
  | error e => rw [hv] at h; cases h
  | ok u =>
    cases hp : s.period with
    | error e => rw [hv, hp] at h; cases h
    | ok period =>
      cases hr : Ram.ofImage s.ramWords image with
      | error e => rw [hv, hp, hr] at h; cases h
      | ok ram =>
        rw [hv, hp, hr] at h
        cases h
        exact ⟨period, ram, rfl, rfl, rfl, rfl⟩

end Machine

/-! ## Reachable machines -/

/-- What may happen to a machine: a tick of its own, or the hand of the host. -/
inductive Action where
  | tick
  | setRegister (i : BitVec 5) (value : Word)
  | setPc (pc : Word)
  | writeRam (index : Nat) (data : Word) (mask : Byte)
  | clockBus (t : Transaction)

namespace Machine

def act (m : Machine) : Action → Machine
  | .tick => m.tick
  | .setRegister i value =>
    { m with core := { m.core with registers := m.core.registers.write i value } }
  | .setPc pc => { m with core := { m.core with pc } }
  | .writeRam index data mask => { m with bus := { m.bus with ram := m.bus.ram.write index data mask } }
  | .clockBus t => { m with bus := m.bus.tick t }

/-- The machines that come of settings and an image, whatever is done to them. -/
inductive Reachable (s : Settings) (image : List Word) : Machine → Prop where
  | built {m : Machine} (h : build s image = .ok m) : Reachable s image m
  | act {m : Machine} (h : Reachable s image m) (a : Action) : Reachable s image (m.act a)

/-- What every reachable machine has of its settings. -/
structure Sound (s : Settings) (m : Machine) : Prop where
  accepted : s.validate = .ok ()
  size : m.bus.ram.size = s.ramWords
  ioBit : m.bus.ioBit.val = s.ioSelectBit
  settled : m.bus.page.serial.pending = none

/-- A tick of the bus, whoever asks for it, keeps a machine sound. -/
theorem Sound.of_bus_tick {s : Settings} {m m' : Machine} (h : m.Sound s) (t : Transaction)
    (hbus : m'.bus = m.bus.tick t) : m'.Sound s := by
  refine ⟨h.accepted, ?_, ?_, ?_⟩
  · rw [hbus, Bus.size_tick, h.size]
  · rw [hbus, Bus.ioBit_tick, h.ioBit]
  · rw [hbus, Bus.serial_tick h.settled]

theorem Sound.act {s : Settings} {m : Machine} (h : m.Sound s) (a : Action) : (m.act a).Sound s := by
  cases a with
  | tick => exact h.of_bus_tick m.step.request rfl
  | setRegister i value => exact ⟨h.accepted, h.size, h.ioBit, h.settled⟩
  | setPc pc => exact ⟨h.accepted, h.size, h.ioBit, h.settled⟩
  | writeRam index data mask =>
    refine ⟨h.accepted, ?_, h.ioBit, h.settled⟩
    exact (Ram.size_write ..).trans h.size
  | clockBus t => exact h.of_bus_tick t rfl

theorem Reachable.sound {s : Settings} {image : List Word} {m : Machine}
    (h : Reachable s image m) : m.Sound s := by
  induction h with
  | built h =>
    obtain ⟨period, ram, hv, -, hram, rfl⟩ := of_build_eq_ok h
    obtain ⟨-, -, -, hhi, -⟩ := (s.validate_eq_ok_iff.1 hv).imp_right s.checkMemory_eq_ok_iff.1
    refine ⟨hv, ?_, Nat.mod_eq_of_lt (by omega), rfl⟩
    -- The image fits, or there would be no machine.
    unfold Ram.ofImage at hram
    split at hram
    · rename_i hfit
      obtain ⟨ram', hram', hsize, -⟩ := Ram.ofImage_eq_ok hfit
      rw [Ram.ofImage, if_pos hfit] at hram'
      cases hram.symm.trans hram'
      exact hsize
    · cases hram
  | act _ a ih => exact ih.act a

theorem Sound.tick_iterate {s : Settings} {m : Machine} (h : m.Sound s) (n : Nat) :
    (tick^[n] m).Sound s := by
  induction n generalizing m with
  | zero => exact h
  | succ n ih => exact ih (h.act .tick)

/-- The address split of a sound machine: all of RAM lies below the page. -/
theorem Sound.split {s : Settings} {m : Machine} (h : m.Sound s) :
    2 ≤ m.bus.ioBit.val ∧ 0 < m.bus.ram.size ∧ 4 * m.bus.ram.size ≤ 2 ^ m.bus.ioBit.val := by
  obtain ⟨-, hmem⟩ := s.validate_eq_ok_iff.1 h.accepted
  obtain ⟨hpos, hlo, -, hfit⟩ := s.checkMemory_eq_ok_iff.1 hmem
  rw [h.size, h.ioBit]
  exact ⟨hlo, hpos, hfit⟩

end Machine

/-- An address below the first one with a bit does not have that bit. -/
theorem Word.below_of_lt {ioBit : Nat} {a : Word} (h : a.toNat < 2 ^ ioBit) :
    a.getLsbD ioBit = false := Nat.testBit_lt_two_pow h

end Multicycle
