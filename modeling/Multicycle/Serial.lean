/-
The serial transmitter and its register block. A byte goes out as a frame of ten bits, a low start
bit, the eight data bits from the lowest on and a high stop bit, each held for one bit period.
-/
import Multicycle.Event

namespace Multicycle

/-! ## Transmitter -/

/-- A frame on its way: the bits still to send, the one on the line lowest, and the ticks for which
that one is still held. -/
structure Frame where
  bits : BitVec 10
  left : Nat
  deriving DecidableEq

namespace Frame

/-- The frame of a byte, its start bit about to be held for a whole period. -/
def ofByte (period : Nat) (b : Byte) : Frame := ⟨1#1 ++ b ++ 0#1, period⟩

/-- The frame after a tick. The frame is over when no bit that is set remains, for the stop bit is
the last one and is set. -/
def tick (period : Nat) (f : Frame) : Option Frame :=
  if 1 < f.left then some { f with left := f.left - 1 }
  else if f.bits >>> 1 = 0 then none
  else some ⟨f.bits >>> 1, period⟩

end Frame

/-- The transmitter: the ticks in a bit period, and the frame being sent, if any. -/
structure Transmitter where
  period : Nat
  frame : Option Frame
  deriving DecidableEq

namespace Transmitter

/-- An idle transmitter; a period of zero counts as one. -/
def idle (period : Nat) : Transmitter := ⟨max period 1, none⟩

def ready (t : Transmitter) : Bool := t.frame.isNone

/-- The level of the line, high when idle. -/
def line (t : Transmitter) : Bool := t.frame.all fun f => f.bits.getLsbD 0

/-- The byte taken on a tick with the given offer. -/
def accepts (t : Transmitter) (offer : Option Byte) : Option Byte := if t.ready then offer else none

/-- The transmitter after a tick. A byte offered while a frame is being sent is lost. -/
def tick (t : Transmitter) (offer : Option Byte) : Transmitter :=
  match t.frame with
  | none => { t with frame := offer.map (.ofByte t.period) }
  | some f => { t with frame := f.tick t.period }

end Transmitter

/-! ## Register block -/

/-- The transmitter behind its registers: the byte to be offered on this tick, and every byte taken
so far. -/
structure Serial where
  transmitter : Transmitter
  pending : Option Byte
  sent : Array Byte
  deriving DecidableEq

namespace Serial

def idle (period : Nat) : Serial := ⟨.idle period, none, #[]⟩

def name : String := "UART0"

/-- The status register: bit 9 is set while a frame is being sent. -/
def status (d : Serial) : Word := if d.transmitter.ready then 0 else 0x200

/-- The value read at a register selection: the status if bit 2 selects it. -/
def read (d : Serial) (select : Word) : Word := if select.getLsbD 2 then d.status else 0

/-- The device after a write: selected by bit 1, the low byte is to be offered. -/
def write (d : Serial) (select data : Word) : Serial :=
  if select.getLsbD 1 then { d with pending := some (data.byte 0) } else d

/-- The device after a tick, which offers the pending byte once. -/
def tick (d : Serial) : Serial where
  transmitter := d.transmitter.tick d.pending
  pending := none
  sent := match d.transmitter.accepts d.pending with
    | some b => d.sent.push b
    | none => d.sent

def tickEvents (d : Serial) : List Event :=
  (d.transmitter.accepts d.pending).toList.map .accepted

end Serial

end Multicycle
