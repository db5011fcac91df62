/-
The I/O page: the lights and the serial device, selected one bit per register by the word offset in
the page, so that one access may reach several registers.
-/
import Multicycle.Serial

namespace Multicycle

/-! ## Lights -/

structure Leds where
  value : Word
  deriving DecidableEq

namespace Leds

def off : Leds := ⟨0⟩

def name : String := "LEDS"

/-- The latch cannot be read back. -/
def read (_ : Leds) (_select : Word) : Word := 0

/-- The latch after a write, which bit 0 of the selection directs to it. -/
def write (l : Leds) (select data : Word) : Leds := if select.getLsbD 0 then ⟨data⟩ else l

/-- What a write reports: a new value, if it differs. -/
def writeEvents (l : Leds) (select data : Word) : List Event :=
  if select.getLsbD 0 ∧ data ≠ l.value then [.lights data] else []

end Leds

/-! ## Page -/

structure Page where
  leds : Leds
  serial : Serial
  deriving DecidableEq

namespace Page

def idle (period : Nat) : Page := ⟨.off, .idle period⟩

/-- What the selected registers drive together. -/
def read (p : Page) (select : Word) : Word := p.leds.read select ||| p.serial.read select

/-- The page after a write to every selected register. -/
def write (p : Page) (select data : Word) : Page :=
  ⟨p.leds.write select data, p.serial.write select data⟩

def tick (p : Page) : Page := { p with serial := p.serial.tick }

def writeEvents (p : Page) (select data : Word) : List Event := p.leds.writeEvents select data

def tickEvents (p : Page) : List Event := p.serial.tickEvents

end Page

end Multicycle
