/-
What the board reports while it runs: events with their level of detail, and the line of text that
stands for each.
-/
import Multicycle.Numeral
import Multicycle.Registers

namespace Multicycle

/-- How much detail an event is, the coarsest first. -/
inductive Level where
  | info
  | debug
  | trace
  deriving DecidableEq

namespace Level

def name : Level → String
  | info => "INFO"
  | debug => "DEBUG"
  | trace => "TRACE"

/-- How far down the order of detail a level stands. -/
def rank : Level → Nat
  | info => 0
  | debug => 1
  | trace => 2

/-- Whether a log kept at level `l` takes an event of level `e`: one as coarse or coarser. -/
def admits (l e : Level) : Bool := e.rank ≤ l.rank

end Level

inductive Event where
  | ready (ramWords : Nat) (ioBase : Word) (period imageWords : Nat)
  | halted (pc : Word) (ticks : Nat)
  | dump (registers : Registers)
  | outOfTicks (ticks : Nat)
  | readOutside (index : Nat)
  | writeOutside (index : Nat)
  | lights (leds : Word)
  | accepted (byte : Byte)
  | execute (pc instr : Word)
  deriving DecidableEq

/-- A word with all its eight hexadecimal digits. -/
def Word.text (w : Word) : String := Numeral.hex 8 w.toNat

/-- How a byte appears between single quotes, taken as one of the first 256 characters: the usual
short escapes, the quote and the backslash escaped, the other control characters, the no-break
space and the soft hyphen as their number, and all else as itself. -/
def Byte.quoted (b : Byte) : String :=
  match b.toNat with
  | 0x00 => "\\0"
  | 0x09 => "\\t"
  | 0x0a => "\\n"
  | 0x0d => "\\r"
  | 0x27 => "\\'"
  | 0x5c => "\\\\"
  | n =>
    if n < 0x20 ∨ (0x7f ≤ n ∧ n ≤ 0xa0) ∨ n = 0xad then
      "\\u\x7b" ++ String.ofList (Nat.toDigits 16 n) ++ "\x7d"
    else String.singleton (Char.ofNat n)

namespace Registers

/-- One register of a dump: its name in four columns and its value. -/
def dumpEntry (r : Registers) (i : Nat) : String :=
  Numeral.alignRight 4 (registerName i) ++ "=" ++ (r.snapshot[i]?.getD 0).text

/-- The registers in eight lines of four. -/
def dumpLines (r : Registers) : List String :=
  (List.range 8).map fun row =>
    " ".intercalate ((List.range 4).map fun column => r.dumpEntry (4 * row + column))

end Registers

namespace Event

def level : Event → Level
  | ready .. => .info
  | execute .. => .trace
  | _ => .debug

/-- The text of an event, one line but for a dump. -/
def texts : Event → List String
  | ready ramWords ioBase period imageWords =>
    [s!"simulator ready ram_words={ramWords} io_base={ioBase.text} " ++
      s!"uart_divider={period} image_words={imageWords}"]
  | halted pc ticks => [s!"halt detected pc={pc.text} ticks={ticks}"]
  | dump registers => registers.dumpLines
  | outOfTicks ticks => [s!"tick limit reached ticks={ticks}"]
  | readOutside index => [s!"RAM read out of range index={index}"]
  | writeOutside index => [s!"RAM write out of range dropped index={index}"]
  | lights leds => [s!"LED output changed leds={Numeral.binary leds.toNat}"]
  | accepted byte => ["UART accepted byte byte='" ++ byte.quoted ++ "'"]
  | execute pc instr => [s!"execute pc={pc.text} inst={instr.text}"]

/-- The lines of an event, each behind the name of its level. -/
def lines (e : Event) : List String := e.texts.map fun text => e.level.name ++ " " ++ text

/-- The lines of those events that a log kept at level `l` takes. -/
def log (l : Level) (events : List Event) : List String :=
  (events.filter fun e => l.admits e.level).flatMap lines

end Event

end Multicycle
