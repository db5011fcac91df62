/-
The machine: the core beside its bus, ticked together, with its counters. A tick evaluates the core
on the state before it, clocks the bus with what the core asks, and commits the core last, so that
every clocked part sees only values from before the tick.
-/
import Multicycle.Core
import Multicycle.Settings
import Multicycle.Tally

namespace Multicycle

/-- The core, the bus, the counters and the most ticks of an unbounded run. -/
structure Machine where
  core : Core
  bus : Bus
  tally : Tally
  tickLimit : Nat
  deriving DecidableEq

inductive BuildError where
  | settings (error : SettingsError)
  | image (error : ImageError)
  deriving DecidableEq

/-- Why a run stopped. -/
inductive Outcome where
  /-- At a system instruction: its address and all ticks so far. -/
  | halted (pc : Word) (ticks : Nat)
  | outOfTicks
  deriving DecidableEq

namespace Machine

/-! ## Building -/

/-- The machine after reset, its RAM starting with `image`, or the first thing wrong with the
settings and then the image. -/
def build (s : Settings) (image : List Word) : Except BuildError Machine := do
  s.validate.mapError .settings
  let period ← s.period.mapError .settings
  let ram ← (Ram.ofImage s.ramWords image).mapError .image
  .ok
    { core := .reset
      bus := .ofRam ram s.ioSelectBit period
      tally := {}
      tickLimit := s.tickLimit }

def buildEvents (s : Settings) (m : Machine) (image : List Word) : List Event :=
  [.ready s.ramWords (BitVec.twoPow 32 s.ioSelectBit) m.bus.page.serial.transmitter.period
    image.length]

/-! ## Ticks -/

def step (m : Machine) : Step := m.core.evaluate m.bus.readData

/-- The counters after a tick that takes step `s` and leaves the bus as `bus`. -/
def tallyAfter (m : Machine) (s : Step) (bus : Bus) : Tally :=
  let t := match s.retired with
    | some r => m.tally.record r.kind r.taken
    | none => m.tally
  { t with
    ticks := t.ticks + 1
    bytesSent := t.bytesSent + (bus.page.serial.sent.size - m.bus.page.serial.sent.size) }

def tick (m : Machine) : Machine :=
  let s := m.step
  let bus := m.bus.tick s.request
  { m with core := m.core.commit s, bus, tally := m.tallyAfter s bus }

def tickEvents (m : Machine) : List Event :=
  m.core.evaluateEvents ++ m.bus.tickEvents m.step.request

/-! ## Runs -/

def isHalted (m : Machine) : Bool := m.core.isHalted

/-- The machine after at most `n` ticks, fewer if it is halted before. -/
def advance : Nat → Machine → Machine
  | 0, m => m
  | n + 1, m => if m.isHalted then m else advance n m.tick

/-- Why a run that has come to this state stops here. -/
def outcome (m : Machine) : Outcome :=
  if m.isHalted then .halted m.core.pc m.tally.ticks else .outOfTicks

def outcomeEvents (m : Machine) : List Event :=
  if m.isHalted then [.halted m.core.pc m.tally.ticks, .dump m.core.registers]
  else [.outOfTicks m.tally.ticks]

/-- Runs until halted, for at most `n` ticks. -/
def runFor (n : Nat) (m : Machine) : Outcome × Machine :=
  let m := advance n m
  (m.outcome, m)

def run (m : Machine) : Outcome × Machine := runFor m.tickLimit m

/-! ## Logged runs -/

/-- As `advance`, with what the ticks report added to a log. -/
def advanceLogged : Nat → Machine → Array Event → Machine × Array Event
  | 0, m, log => (m, log)
  | n + 1, m, log =>
    if m.isHalted then (m, log) else advanceLogged n m.tick (log.appendList m.tickEvents)

/-- As `runFor`, with everything that the run reports. -/
def runLogged (n : Nat) (m : Machine) : Outcome × Machine × Array Event :=
  let (m, log) := advanceLogged n m #[]
  (m.outcome, m, log.appendList m.outcomeEvents)

/-- Keeping a log does not change a run. -/
theorem advanceLogged_fst (n : Nat) (m : Machine) (log : Array Event) :
    (advanceLogged n m log).1 = advance n m := by
  induction n generalizing m log with
  | zero => rfl
  | succ n ih =>
    unfold advanceLogged advance
    split <;> simp [ih]

end Machine

end Multicycle
