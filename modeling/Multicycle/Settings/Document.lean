/-
Settings as a JSON document of three sections. Every section and every setting may be left out, and
what is left out gets its default in one of two ways: a section that is not there has the defaults of
its kind, and in one that is there each field has a default by itself.
-/
import Multicycle.Json.Record
import Multicycle.Settings

namespace Multicycle.Settings

open Json

/-! ## Fields -/

section
variable {σ τ : Type}

/-- A field that holds a number below `bound`. -/
def numberField (key : String) (bound : Nat) (set : σ → Nat → σ) : Entry σ where
  key := key
  read s cs := do
    let (n, cs) ← natural bound cs
    .ok (set s n, cs)

/-- A field that is a record in turn, which holds the values of `unset` where it gives no others. -/
def recordField (key : String) (fields : List (Entry τ)) (unset : τ) (set : σ → τ → σ) :
    Entry σ where
  key := key
  read s cs := do
    let (t, cs) ← record fields unset cs
    .ok (set s t, cs)

end

/-! ## Sections -/

namespace General

def defaultTickLimit : Nat := Baseline.tickLimit

/-- The section where it is there and gives none of its fields. -/
def unset : General where
  tickLimit := defaultTickLimit

def fields : List (Entry General) :=
  [numberField "tick_limit" UInt64.size fun s n => { s with tickLimit := n }]

end General

namespace System

def defaultClockHz : Nat := Baseline.clockHz

def defaultBaudRate : Nat := Baseline.baudRate

def unset : System where
  clockHz := defaultClockHz
  baudRate := defaultBaudRate

def fields : List (Entry System) :=
  [numberField "clock_hz" UInt64.size fun s n => { s with clockHz := n },
    numberField "baud_rate" UInt64.size fun s n => { s with baudRate := n }]

end System

namespace Memory

def defaultRamWords : Nat := Baseline.ramWords

def defaultIoSelectBit : Nat := Baseline.ioSelectBit

def unset : Memory where
  ramWords := defaultRamWords
  ioSelectBit := defaultIoSelectBit

/-- The settings of memory. The select bit is a 32-bit number. -/
def fields : List (Entry Memory) :=
  [numberField "ram_words" UInt64.size fun s n => { s with ramWords := n },
    numberField "io_select_bit" UInt32.size fun s n => { s with ioSelectBit := n }]

end Memory

/-! ## Documents -/

def sections : List (Entry Settings) :=
  [recordField "general" General.fields General.unset fun s sec => { s with toGeneral := sec },
    recordField "system" System.fields System.unset fun s sec => { s with toSystem := sec },
    recordField "memory" Memory.fields Memory.unset fun s sec => { s with toMemory := sec }]

/-- The settings where no section is there: each section has the defaults of its kind. -/
def absent : Settings where
  toGeneral := {}
  toSystem := {}
  toMemory := {}

/-- The settings that a document gives, not yet validated. -/
def ofDocument (text : String) : Except Fault Settings := document sections absent text

end Multicycle.Settings
