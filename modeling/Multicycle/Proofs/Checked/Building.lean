/-
Building a machine with every arithmetic step checked that can go wrong: a division by zero, a product
past 64 bits, a shift by as much as its operand is wide, memory past what can be allotted, an image
past the end of the memory that it is copied to. As long as the bytes of RAM can be counted in 64 bits,
building goes wrong nowhere: it gives the machine, or the error of the first requirement missed.
-/
import Multicycle.Proofs.Except
import Multicycle.Proofs.Machine.Building
import Multicycle.Proofs.Machine.Reach

namespace Multicycle

/-- What arithmetic on numbers of fixed width must not do. -/
inductive Overrun where
  | quotient (dividend : Nat)
  | product (value : Nat)
  | shift (amount width : Nat)
  | space (bytes : Nat)
  | copy (length size : Nat)
  deriving DecidableEq

abbrev Exact := Except Overrun

namespace Exact

/-! ## Operations -/

def div (a b : Nat) : Exact Nat := if b = 0 then .error (.quotient a) else .ok (a / b)

/-- The product of two numbers in 64 bits. -/
def mul (a b : Nat) : Exact Nat := if a * b < 2 ^ 64 then .ok (a * b) else .error (.product (a * b))

/-- One, shifted within the given width. -/
def bit (width n : Nat) : Exact Nat := if n < width then .ok (1 <<< n) else .error (.shift n width)

/-- As many words of zeros as are asked for, of which there can be 2^63 bytes at most. -/
def zeros (n : Nat) : Exact (List Word) :=
  if 4 * n < 2 ^ 63 then .ok (List.replicate n 0) else .error (.space (4 * n))

/-- The words with a start of the same length replaced. -/
def copy (words start : List Word) : Exact (List Word) :=
  if start.length ≤ words.length then .ok (start ++ words.drop start.length)
  else .error (.copy start.length words.length)

end Exact

open Exact

/-! ## Settings -/

namespace Settings

def periodExact (s : Settings) : Exact (Except SettingsError Nat) :=
  if s.baudRate = 0 then .ok (.error .zeroBaudRate)
  else if s.clockHz < s.baudRate then .ok (.error (.baudRateAboveClock s.clockHz s.baudRate))
  else do
    let period ← div s.clockHz s.baudRate
    .ok (if UInt32.size ≤ period then .error (.dividerTooLarge period) else .ok period)

def checkMemoryExact (s : Settings) : Exact (Except SettingsError Unit) :=
  if s.ramWords = 0 then .ok (.error .emptyRam)
  else if s.ioSelectBit < 2 ∨ 31 < s.ioSelectBit then
    .ok (.error (.ioSelectBitOutOfRange s.ioSelectBit))
  else do
    let ramBytes ← mul 4 s.ramWords
    let ioBase ← bit 64 s.ioSelectBit
    .ok (if ioBase < ramBytes then .error (.ramOverlapsIo ramBytes ioBase) else .ok ())

def validateExact (s : Settings) : Exact (Except SettingsError Unit) := do
  match ← s.periodExact with
  | .error e => .ok (.error e)
  | .ok _ => s.checkMemoryExact

variable (s : Settings)

theorem periodExact_eq : s.periodExact = .ok s.period := by
  unfold periodExact Settings.period
  split
  · rfl
  · rename_i hrate
    unfold div
    rw [if_neg hrate, ok_bind]
    split
    · rfl
    · split <;> rfl

variable {s}

theorem checkMemoryExact_eq (h : s.ramWords < 2 ^ 62) : s.checkMemoryExact = .ok s.checkMemory := by
  unfold checkMemoryExact Settings.checkMemory mul bit
  rw [if_pos (show 4 * s.ramWords < 2 ^ 64 by omega), ok_bind]
  split
  · rfl
  · split
    · rfl
    · rw [if_pos (by omega), ok_bind]

theorem validateExact_eq (h : s.ramWords < 2 ^ 62) : s.validateExact = .ok s.validate := by
  unfold validateExact Settings.validate
  rw [periodExact_eq, ok_bind, checkMemoryExact_eq h]
  cases s.period <;> rfl

end Settings

/-! ## Memory -/

namespace Ram

def ofImageExact (capacity : Nat) (image : List Word) : Exact (Except ImageError Ram) := do
  if capacity < image.length then .ok (.error (.tooLarge image.length capacity))
  else
    let words ← copy (← zeros capacity) image
    .ok (.ok ⟨words.toArray⟩)

theorem ofImageExact_eq {capacity : Nat} (h : 4 * capacity < 2 ^ 63) (image : List Word) :
    ofImageExact capacity image = .ok (Ram.ofImage capacity image) := by
  unfold ofImageExact Ram.ofImage zeros copy
  rw [if_pos h, ok_bind]
  by_cases hfit : image.length ≤ capacity
  · rw [if_neg (Nat.not_lt.2 hfit), if_pos hfit, List.length_replicate, if_pos hfit, ok_bind,
      List.drop_replicate]
  · rw [if_pos (Nat.lt_of_not_le hfit), if_neg hfit]

end Ram

/-! ## Machines -/

namespace Machine

/-- Building ends with a report of where the I/O page starts, a number of 32 bits. -/
def buildExact (s : Settings) (image : List Word) : Exact (Except BuildError Machine) := do
  match ← s.validateExact with
  | .error e => .ok (.error (.settings e))
  | .ok () =>
    match ← s.periodExact with
    | .error e => .ok (.error (.settings e))
    | .ok period =>
      match ← Ram.ofImageExact s.ramWords image with
      | .error e => .ok (.error (.image e))
      | .ok ram => do
        let _ ← bit 32 s.ioSelectBit
        .ok (.ok
          { core := .reset
            bus := .ofRam ram s.ioSelectBit period
            tally := {}
            tickLimit := s.tickLimit })

theorem buildExact_eq {s : Settings} (h : s.ramWords < 2 ^ 62) (image : List Word) :
    buildExact s image = .ok (build s image) := by
  unfold buildExact build
  rw [Settings.validateExact_eq h, ok_bind]
  cases hvalid : s.validate with
  | error e => rfl
  | ok u =>
    obtain ⟨⟨period, hperiod⟩, hmemory⟩ := s.validate_eq_ok_iff.1 hvalid
    obtain ⟨-, -, hbit, hfit⟩ := s.checkMemory_eq_ok_iff.1 hmemory
    have hpage : 2 ^ s.ioSelectBit ≤ 2 ^ 31 := Nat.pow_le_pow_right (by decide) hbit
    dsimp only
    rw [Settings.periodExact_eq, ok_bind, hperiod]
    dsimp only
    rw [Ram.ofImageExact_eq (by omega), ok_bind]
    cases Ram.ofImage s.ramWords image with
    | error e => rfl
    | ok ram =>
      unfold bit
      dsimp only
      rw [if_pos (by omega)]
      rfl

/-- For all settings whose bytes of RAM can be counted in 64 bits and every image: a machine is built
just where the line is no faster than the clock and its bit period has 32 bits, where there is some RAM,
the I/O bit is an address bit above the two lowest, all of RAM lies below it, and the image fits. The
machine is fresh; otherwise the error is that of the first requirement missed. No arithmetic step on
the way goes wrong. -/
theorem builds_or_refuses (s : Settings) (image : List Word) (h : s.ramWords < 2 ^ 62) :
    ((∃ m, build s image = .ok m) ↔
      1 ≤ s.baudRate ∧ s.baudRate ≤ s.clockHz ∧ s.clockHz / s.baudRate < 2 ^ 32 ∧
        1 ≤ s.ramWords ∧ (2 ≤ s.ioSelectBit ∧ s.ioSelectBit ≤ 31) ∧
        4 * s.ramWords ≤ 2 ^ s.ioSelectBit ∧ image.length ≤ s.ramWords) ∧
      (∀ m, build s image = .ok m → m.Fresh s image) ∧
      (∀ e, build s image = .error e ↔ ∃ before r after,
        requirements s image = before ++ r :: after ∧
          (∀ q ∈ before, q.met = true) ∧ r.met = false ∧ r.error = e) ∧
      buildExact s image = .ok (build s image) := by
  refine ⟨?_, fun m hm => ?_, fun e => build_eq_error_iff, buildExact_eq h image⟩
  · simp only [build_eq_ok_iff, exists_and_left, exists_eq, and_true, forall_mem_requirements]
  · obtain ⟨hmet, rfl⟩ := build_eq_ok_iff.1 hm
    exact fresh_initial hmet

/-- The longest bit period that there is, with RAM up to an I/O page that starts at bit 31; and memory
that is too large by a word, where the image is too large as well. -/
theorem builds_or_refuses_at_limits :
    (∃ m, build ⟨⟨0⟩, ⟨2 ^ 64 - 1, 2 ^ 32 + 1⟩, ⟨2 ^ 29, 31⟩⟩ [0x73] = .ok m ∧
      m.bus.page.serial.transmitter.period * (2 ^ 32 + 1) ≤ 2 ^ 64 - 1) ∧
    build ⟨⟨0⟩, ⟨1, 1⟩, ⟨2, 2⟩⟩ [0, 0, 0] = .error (.settings (.ramOverlapsIo 8 4)) ∧
    buildExact ⟨⟨0⟩, ⟨1, 1⟩, ⟨2, 2⟩⟩ [0, 0, 0] = .ok (.error (.settings (.ramOverlapsIo 8 4))) := by
  obtain ⟨hok, hfresh, -, -⟩ :=
    builds_or_refuses ⟨⟨0⟩, ⟨2 ^ 64 - 1, 2 ^ 32 + 1⟩, ⟨2 ^ 29, 31⟩⟩ [0x73] (by decide)
  obtain ⟨-, -, herror, hexact⟩ := builds_or_refuses ⟨⟨0⟩, ⟨1, 1⟩, ⟨2, 2⟩⟩ [0, 0, 0] (by decide)
  obtain ⟨m, hm⟩ := hok.2 (by decide)
  -- It is the sixth of the seven requirements that is missed first.
  have hoverlap := (herror (.settings (.ramOverlapsIo 8 4))).2
    ⟨(requirements ⟨⟨0⟩, ⟨1, 1⟩, ⟨2, 2⟩⟩ [0, 0, 0]).take 5, ⟨false, .settings (.ramOverlapsIo 8 4)⟩,
      (requirements ⟨⟨0⟩, ⟨1, 1⟩, ⟨2, 2⟩⟩ [0, 0, 0]).drop 6, by decide, by decide, rfl, rfl⟩
  exact ⟨⟨m, hm, (hfresh m hm).rate.1⟩, hoverlap, hoverlap ▸ hexact⟩

end Machine

end Multicycle
