/-
The settings of a machine: their defaults, what makes them fit to build a machine from, and the
first thing wrong with them where they are not.
-/
import Multicycle.Event

namespace Multicycle

/-! ## The baseline -/

namespace Baseline

def clockHz : Nat := 12000000

def baudRate : Nat := 1000000

def ramWords : Nat := 1536

def ioSelectBit : Nat := 22

def tickLimit : Nat := 50000000

end Baseline

/-! ## Sections -/

/-- How long a machine is run. -/
structure Settings.General where
  tickLimit : Nat := Baseline.tickLimit
  deriving DecidableEq

/-- The clock and the serial line. -/
structure Settings.System where
  clockHz : Nat := Baseline.clockHz
  baudRate : Nat := Baseline.baudRate
  deriving DecidableEq

/-- The size of RAM, and the address bit that leads to the I/O page. -/
structure Settings.Memory where
  ramWords : Nat := Baseline.ramWords
  ioSelectBit : Nat := Baseline.ioSelectBit
  deriving DecidableEq

/-- Everything about a machine that can be chosen, in three sections. Where nothing is chosen, each
section has its own defaults. -/
structure Settings extends Settings.General, Settings.System, Settings.Memory
  deriving DecidableEq

/-! ## Fitness -/

/-- Why no machine can be built from some settings. -/
inductive SettingsError where
  | zeroBaudRate
  | baudRateAboveClock (clockHz baudRate : Nat)
  | dividerTooLarge (divider : Nat)
  | emptyRam
  | ioSelectBitOutOfRange (bit : Nat)
  | ramOverlapsIo (ramBytes ioBase : Nat)
  deriving DecidableEq

def SettingsError.message : SettingsError → String
  | zeroBaudRate => "UART baud rate must be non-zero"
  | baudRateAboveClock clockHz baudRate =>
    s!"UART baud rate {baudRate} exceeds clock frequency {clockHz} Hz"
  | dividerTooLarge divider => s!"UART tick divider {divider} does not fit in 32 bits"
  | emptyRam => "RAM size must be at least one word"
  | ioSelectBitOutOfRange bit => s!"I/O select bit {bit} is outside 2..=31"
  | ramOverlapsIo ramBytes ioBase =>
    s!"RAM of {ramBytes} bytes overlaps the I/O page at {Numeral.hex 8 ioBase}"

namespace Settings

/-- The ticks that one bit is held on the serial line: the clock frequency divided by the bit rate,
rounded down. -/
def period (s : Settings) : Except SettingsError Nat :=
  if s.baudRate = 0 then .error .zeroBaudRate
  else if s.clockHz < s.baudRate then .error (.baudRateAboveClock s.clockHz s.baudRate)
  else if UInt32.size ≤ s.clockHz / s.baudRate then
    .error (.dividerTooLarge (s.clockHz / s.baudRate))
  else .ok (s.clockHz / s.baudRate)

/-- The first address of the I/O page, if the select bit is an address bit. -/
def ioBase? (s : Settings) : Option Word :=
  if s.ioSelectBit < 32 then some (BitVec.twoPow 32 s.ioSelectBit) else none

/-- Whether RAM and the address split are sound: some RAM, a select bit above the offset in a word
and within the address, and all of RAM below the page. -/
def checkMemory (s : Settings) : Except SettingsError Unit :=
  if s.ramWords = 0 then .error .emptyRam
  else if s.ioSelectBit < 2 ∨ 31 < s.ioSelectBit then .error (.ioSelectBitOutOfRange s.ioSelectBit)
  else if 1 <<< s.ioSelectBit < 4 * s.ramWords then
    .error (.ramOverlapsIo (4 * s.ramWords) (1 <<< s.ioSelectBit))
  else .ok ()

/-- Whether a machine can be built: the serial line is checked first, then memory. -/
def validate (s : Settings) : Except SettingsError Unit := do
  let _ ← s.period
  s.checkMemory

end Settings

end Multicycle
