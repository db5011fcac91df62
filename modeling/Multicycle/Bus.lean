/-
The memory bus: one address bit divides the addresses between RAM and the I/O page. A tick samples
the read first, then writes, then clocks the devices, and the value read is held until the next
read.
-/
import Multicycle.Page
import Multicycle.Ram

namespace Multicycle

/-- What is asked of the bus during a tick. Reading and writing may be asked together. -/
structure Transaction where
  address : Word := 0
  read : Bool := false
  write : Bool := false
  data : Word := 0
  mask : Byte := 0
  deriving DecidableEq

namespace Transaction

def idle : Transaction := {}

def reading (address : Word) : Transaction := { address, read := true }

def writing (address data : Word) (mask : Byte) : Transaction :=
  { address, write := true, data, mask }

end Transaction

/-- The bus with everything on it; `ioBit` is the address bit that selects the page, and `readData`
the value held from the last read. -/
structure Bus where
  ram : Ram
  page : Page
  ioBit : Fin 32
  readData : Word
  deriving DecidableEq

namespace Bus

/-- A fresh bus. The I/O bit counts modulo 32. -/
def ofRam (ram : Ram) (ioBit period : Nat) : Bus := ⟨ram, .idle period, Fin.ofNat 32 ioBit, 0⟩

def isIo (b : Bus) (address : Word) : Bool := address.getLsbD b.ioBit

/-- The word offset of an address on its side of the bus: the I/O bit cleared, the two low bits
dropped. -/
def offset (b : Bus) (address : Word) : Word := (address &&& ~~~BitVec.twoPow 32 b.ioBit) >>> 2

/-- The word at an address, as things stand before the tick. -/
def sample (b : Bus) (address : Word) : Word :=
  if b.isIo address then b.page.read (b.offset address) else b.ram.read (b.offset address).toNat

def nextReadData (b : Bus) (t : Transaction) : Word :=
  if t.read then b.sample t.address else b.readData

def nextRam (b : Bus) (t : Transaction) : Ram :=
  if t.write && !b.isIo t.address then b.ram.write (b.offset t.address).toNat t.data t.mask
  else b.ram

/-- The page after the write of a tick, before it is clocked. -/
def writtenPage (b : Bus) (t : Transaction) : Page :=
  if t.write && b.isIo t.address then b.page.write (b.offset t.address) t.data else b.page

def tick (b : Bus) (t : Transaction) : Bus where
  ram := b.nextRam t
  page := (b.writtenPage t).tick
  ioBit := b.ioBit
  readData := b.nextReadData t

/-- What a tick reports, in the order in which it happens. -/
def tickEvents (b : Bus) (t : Transaction) : List Event :=
  let select := b.offset t.address
  let reads := if t.read && !b.isIo t.address then b.ram.readEvents select.toNat else []
  let writes :=
    if !t.write then []
    else if b.isIo t.address then b.page.writeEvents select t.data
    else b.ram.writeEvents select.toNat
  reads ++ writes ++ (b.writtenPage t).tickEvents

end Bus

end Multicycle
