/-
What it takes to build a machine. Settings and an image have to meet requirements, each with the error
that is reported where it is the first one missed: those of the serial line come before those of
memory, and that of the image is the last. Where all are met there is a machine, in its reset state
and with the image in RAM.
-/
import Multicycle.Machine
import Mathlib.Tactic

namespace Multicycle

/-! ## Requirements -/

structure Requirement where
  met : Bool
  error : BuildError
  deriving DecidableEq

namespace Requirement

/-- The first requirement of a list that is missed. -/
def missed? (rs : List Requirement) : Option Requirement := rs.find? fun r => !r.met

theorem missed?_eq_none_iff {rs : List Requirement} :
    missed? rs = none ↔ ∀ r ∈ rs, r.met = true := by
  unfold missed?
  simp only [List.find?_eq_none, Bool.not_eq_true', Bool.not_eq_false]

theorem missed?_eq_some_iff {rs : List Requirement} {r : Requirement} :
    missed? rs = some r ↔ r.met = false ∧
      ∃ before after, rs = before ++ r :: after ∧ ∀ q ∈ before, q.met = true := by
  unfold missed?
  simp only [List.find?_eq_some_iff_append, Bool.not_eq_true', Bool.not_not]

/-- A result that is had only where all requirements of a list are met. -/
def demand {α : Type} (rs : List Requirement) (x : Except BuildError α) : Except BuildError α :=
  match missed? rs with
  | some r => .error r.error
  | none => x

section
variable {α β : Type} (rs : List Requirement) (x : Except BuildError α)

theorem demand_nil : demand [] x = x := rfl

theorem demand_cons (r : Requirement) :
    demand (r :: rs) x = if r.met = true then demand rs x else .error r.error := by
  unfold demand missed?
  rw [List.find?_cons]
  cases r.met <;> rfl

theorem demand_append (qs : List Requirement) : demand (rs ++ qs) x = demand rs (demand qs x) := by
  induction rs with
  | nil => rfl
  | cons r rs ih => rw [List.cons_append, demand_cons, demand_cons, ih]

theorem demand_bind (f : α → Except BuildError β) :
    demand rs x >>= f = demand rs (x >>= f) := by
  unfold demand
  cases missed? rs <;> rfl

/-- What is demanded already holds for the rest. -/
theorem demand_congr {rs : List Requirement} {x y : Except BuildError α}
    (h : missed? rs = none → x = y) : demand rs x = demand rs y := by
  unfold demand
  cases hmissed : missed? rs with
  | none => exact h hmissed
  | some r => rfl

theorem demand_of_met {rs : List Requirement} (h : missed? rs = none) (x : Except BuildError α) :
    demand rs x = x := by
  unfold demand
  rw [h]

end

end Requirement

open Requirement

namespace Settings

/-! ## Settings -/

/-- The line is no faster than the clock, and a bit period has 32 bits. -/
def lineRequirements (s : Settings) : List Requirement :=
  [⟨1 ≤ s.baudRate, .settings .zeroBaudRate⟩,
    ⟨s.baudRate ≤ s.clockHz, .settings (.baudRateAboveClock s.clockHz s.baudRate)⟩,
    ⟨s.clockHz / s.baudRate < 2 ^ 32, .settings (.dividerTooLarge (s.clockHz / s.baudRate))⟩]

/-- There is some RAM, all of it below the I/O page. -/
def memoryRequirements (s : Settings) : List Requirement :=
  [⟨1 ≤ s.ramWords, .settings .emptyRam⟩,
    ⟨2 ≤ s.ioSelectBit ∧ s.ioSelectBit ≤ 31, .settings (.ioSelectBitOutOfRange s.ioSelectBit)⟩,
    ⟨4 * s.ramWords ≤ 2 ^ s.ioSelectBit,
      .settings (.ramOverlapsIo (4 * s.ramWords) (2 ^ s.ioSelectBit))⟩]

theorem period_eq_demand (s : Settings) :
    s.period.mapError .settings = demand s.lineRequirements (.ok (s.clockHz / s.baudRate)) := by
  unfold Settings.period lineRequirements
  -- Both sides ask the same questions, the one for what is wrong, the other for what is right.
  simp only [demand_cons, demand_nil, decide_eq_true_eq, ← Nat.not_lt, Nat.lt_one_iff, ite_not,
    apply_ite (Except.mapError BuildError.settings)]
  rfl

theorem checkMemory_eq_demand (s : Settings) :
    s.checkMemory.mapError .settings = demand s.memoryRequirements (.ok ()) := by
  unfold Settings.checkMemory memoryRequirements
  rw [Nat.one_shiftLeft]
  simp only [demand_cons, demand_nil, decide_eq_true_eq, ← Nat.not_lt, ← not_or, Nat.lt_one_iff,
    ite_not, apply_ite (Except.mapError BuildError.settings)]
  rfl

theorem validate_eq_demand (s : Settings) :
    s.validate.mapError .settings =
      demand (s.lineRequirements ++ s.memoryRequirements) (.ok ()) := by
  have hbind : s.validate.mapError BuildError.settings =
      s.period.mapError .settings >>= fun _ => s.checkMemory.mapError .settings := by
    unfold Settings.validate
    cases s.period <;> rfl
  rw [hbind, period_eq_demand, checkMemory_eq_demand, demand_bind, demand_append]
  rfl

end Settings

namespace Machine

/-! ## Machines -/

/-- What settings and an image have to meet, in the order in which it is looked at. -/
def requirements (s : Settings) (image : List Word) : List Requirement :=
  s.lineRequirements ++ s.memoryRequirements ++
    [⟨image.length ≤ s.ramWords, .image (.tooLarge image.length s.ramWords)⟩]

theorem forall_mem_requirements {s : Settings} {image : List Word} :
    (∀ r ∈ requirements s image, r.met = true) ↔
      1 ≤ s.baudRate ∧ s.baudRate ≤ s.clockHz ∧ s.clockHz / s.baudRate < 2 ^ 32 ∧
        1 ≤ s.ramWords ∧ (2 ≤ s.ioSelectBit ∧ s.ioSelectBit ≤ 31) ∧
        4 * s.ramWords ≤ 2 ^ s.ioSelectBit ∧ image.length ≤ s.ramWords := by
  simp only [requirements, Settings.lineRequirements, Settings.memoryRequirements, List.cons_append,
    List.nil_append, List.forall_mem_cons, decide_eq_true_eq, List.not_mem_nil, false_implies,
    implies_true, and_true]

/-- The machine after reset, as the settings have it. -/
def initial (s : Settings) (image : List Word) : Machine where
  core := .reset
  bus := .ofRam ⟨(image ++ List.replicate (s.ramWords - image.length) 0).toArray⟩ s.ioSelectBit
    (s.clockHz / s.baudRate)
  tally := {}
  tickLimit := s.tickLimit

theorem build_eq_demand (s : Settings) (image : List Word) :
    build s image = demand (requirements s image) (.ok (initial s image)) := by
  have hram : (Ram.ofImage s.ramWords image).mapError BuildError.image =
      demand [⟨image.length ≤ s.ramWords, .image (.tooLarge image.length s.ramWords)⟩]
        (.ok ⟨(image ++ List.replicate (s.ramWords - image.length) 0).toArray⟩) := by
    unfold Ram.ofImage
    simp only [demand_cons, demand_nil, decide_eq_true_eq]
    split <;> rfl
  unfold build requirements
  rw [s.validate_eq_demand, s.period_eq_demand, hram]
  simp only [demand_append, demand_bind]
  -- The line is asked about twice, and has met its requirements the second time.
  refine demand_congr fun hline => congrArg (demand s.memoryRequirements) ?_
  exact demand_of_met hline _

/-- There is a machine just where all requirements are met. -/
theorem build_eq_ok_iff {s : Settings} {image : List Word} {m : Machine} :
    build s image = .ok m ↔ (∀ r ∈ requirements s image, r.met = true) ∧ m = initial s image := by
  rw [build_eq_demand, ← missed?_eq_none_iff]
  unfold demand
  cases missed? (requirements s image) with
  | none => simp [eq_comm]
  | some r => simp

theorem build_eq_error_iff {s : Settings} {image : List Word} {e : BuildError} :
    build s image = .error e ↔ ∃ before r after, requirements s image = before ++ r :: after ∧
      (∀ q ∈ before, q.met = true) ∧ r.met = false ∧ r.error = e := by
  rw [build_eq_demand]
  constructor
  · intro h
    unfold demand at h
    cases hmissed : missed? (requirements s image) with
    | none =>
      rw [hmissed] at h
      cases h
    | some r =>
      rw [hmissed] at h
      cases h
      obtain ⟨hunmet, before, after, hsplit, hbefore⟩ := missed?_eq_some_iff.1 hmissed
      exact ⟨before, r, after, hsplit, hbefore, hunmet, rfl⟩
  · rintro ⟨before, r, after, hsplit, hbefore, hunmet, rfl⟩
    unfold demand
    rw [missed?_eq_some_iff.2 ⟨hunmet, before, after, hsplit, hbefore⟩]

/-! ## Machines that have not ticked -/

/-- A machine as it leaves the building: the bit period is the clock frequency over the bit rate,
rounded down, RAM holds the image and zeros behind it, and everything else is as after reset. -/
structure Fresh (s : Settings) (image : List Word) (m : Machine) : Prop where
  core : m.core = .reset
  registers : ∀ i, m.core.registers.read i = 0
  ram : m.bus.ram.words.toList = image ++ List.replicate (s.ramWords - image.length) 0
  size : m.bus.ram.size = s.ramWords
  ioBit : m.bus.ioBit.val = s.ioSelectBit
  held : m.bus.readData = 0
  lights : m.bus.page.leds.value = 0
  silent : m.bus.page.serial.transmitter.frame = none
  unsent : m.bus.page.serial.pending = none ∧ m.bus.page.serial.sent = #[]
  period : 1 ≤ m.bus.page.serial.transmitter.period ∧
    m.bus.page.serial.transmitter.period < 2 ^ 32
  rate : m.bus.page.serial.transmitter.period * s.baudRate ≤ s.clockHz ∧
    s.clockHz < (m.bus.page.serial.transmitter.period + 1) * s.baudRate
  tally : ∀ n ∈ m.tally.toList, n = 0
  tickLimit : m.tickLimit = s.tickLimit

theorem fresh_initial {s : Settings} {image : List Word}
    (h : ∀ r ∈ requirements s image, r.met = true) : (initial s image).Fresh s image := by
  obtain ⟨hrate, hclock, hperiod, -, ⟨-, hbit⟩, -, hfit⟩ := forall_mem_requirements.1 h
  have hpos : 1 ≤ s.clockHz / s.baudRate := Nat.div_pos hclock hrate
  have hheld : (initial s image).bus.page.serial.transmitter.period = s.clockHz / s.baudRate :=
    Nat.max_eq_left hpos
  have htally : ∀ n ∈ ({} : Tally).toList, n = 0 := by decide
  refine ⟨rfl, Registers.read_zero, rfl, ?_, Nat.mod_eq_of_lt (by omega), rfl, rfl, rfl, ⟨rfl, rfl⟩,
    ?_, ?_, htally, rfl⟩
  · show (image ++ List.replicate (s.ramWords - image.length) 0).length = s.ramWords
    rw [List.length_append, List.length_replicate]
    omega
  · rw [hheld]
    exact ⟨hpos, hperiod⟩
  · rw [hheld]
    exact ⟨Nat.div_mul_le_self _ _, (Nat.div_lt_iff_lt_mul hrate).1 (Nat.lt_succ_self _)⟩

end Machine

end Multicycle
