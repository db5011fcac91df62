/-
The three registers of the page at their documented places, 4, 8 and 16 bytes above its base. A
register is found there unless its own address bit is the one that chooses the page: then the two
bits add up to the next higher one, the access leaves the page, and below it there is no RAM either.
So the lights are lost for select bit 2, the data register for 3 and the status register for 4, and
from bit 5 on all three are in place.
-/
import Multicycle.Proofs.Machine.Reach

namespace Multicycle

/-! ## Places -/

/-- The place of register `j`, counted from the base of the page. -/
def Word.place (ioBit j : Nat) : Word := BitVec.twoPow 32 ioBit + BitVec.twoPow 32 (j + 2)

namespace Word

/-- A place is on the page and selects its register, unless the bit of the register is the I/O
bit. -/
theorem place_selects {ioBit j : Nat} (hbit : ioBit < 32) (hj : j + 2 < 32) (h : j + 2 ≠ ioBit) :
    (place ioBit j).getLsbD ioBit = true ∧ (place ioBit j).selects ioBit j = true := by
  have hdisjoint : BitVec.twoPow 32 ioBit &&& BitVec.twoPow 32 (j + 2) = 0#32 := by
    rw [BitVec.and_twoPow, BitVec.getLsbD_twoPow, if_neg]
    simp [hbit, Ne.symm h]
  have hbits : ∀ i, (place ioBit j).getLsbD i = (decide (ioBit = i) || decide (j + 2 = i)) := by
    intro i
    rw [place, BitVec.add_eq_or_of_and_eq_zero _ _ hdisjoint, BitVec.getLsbD_or,
      BitVec.getLsbD_twoPow, BitVec.getLsbD_twoPow]
    simp [hbit, hj]
  unfold selects
  rw [hbits, hbits]
  simp [h]

/-- Where the two bits are one, they carry into the next. -/
theorem place_self (j : Nat) : place (j + 2) j = BitVec.twoPow 32 (j + 3) := by
  unfold place
  rw [← BitVec.two_mul, show 2#32 = BitVec.twoPow 32 1 from rfl, BitVec.twoPow_mul_twoPow_eq,
    Nat.add_comm]

theorem place_self_below (j : Nat) : (place (j + 2) j).getLsbD (j + 2) = false := by
  rw [place_self, BitVec.getLsbD_twoPow]
  simp

end Word

/-! ## Registers at an address -/

namespace Bus

/-- The lights are at `a`: what is written there shows at once, and RAM stays as it is. -/
def LightsAt (b : Bus) (a : Word) : Prop :=
  ∀ t : Transaction, t.write = true → t.address = a →
    (b.tick t).page.leds.value = t.data ∧ (b.tick t).ram = b.ram

/-- The data register is at `a`: the low byte of what is written there is put before the
transmitter, which takes it if it is ready, and RAM stays as it is. -/
def DataAt (b : Bus) (a : Word) : Prop :=
  ∀ t : Transaction, t.write = true → t.address = a →
    (b.writtenPage t).serial.pending = some (t.data.setWidth 8) ∧
      (b.tick t).page.serial.sent = (if b.page.serial.transmitter.ready then
        b.page.serial.sent.push (t.data.setWidth 8) else b.page.serial.sent) ∧
      (b.tick t).ram = b.ram

/-- The status register is at `a`: what is read there is the busy flag in bit 9. -/
def StatusAt (b : Bus) (a : Word) : Prop :=
  ∀ t : Transaction, t.read = true → t.address = a →
    (b.tick t).readData =
      if b.page.serial.transmitter.ready then 0 else BitVec.twoPow 32 9

variable {b : Bus}

theorem lightsAt_iff :
    b.LightsAt (Word.place b.ioBit 0) ↔ b.ioBit.val ≠ 2 := by
  constructor
  · intro h hbit
    have hbelow := Word.place_self_below 0
    -- Any word but the one that shows already will do.
    obtain ⟨hleds, -⟩ := h (.writing (Word.place b.ioBit 0) (b.page.leds.value + 1) 0) rfl rfl
    rw [leds_tick, hbit, Transaction.writesLights, Transaction.writing,
      Word.selects_of_below hbelow, if_neg (by simp)] at hleds
    have hne : ∀ w : Word, w ≠ w + 1 := fun w h => by simpa using h.symm
    exact hne _ hleds
  · intro hbit t hw ha
    obtain ⟨hpage, hsel⟩ := Word.place_selects (j := 0) b.ioBit.isLt (by omega) (Ne.symm hbit)
    refine ⟨?_, ram_tick_of_page b (ha ▸ hpage)⟩
    rw [leds_tick, Transaction.writesLights, hw, ha, hsel]
    rfl

theorem dataAt_iff (hnone : b.page.serial.pending = none) :
    b.DataAt (Word.place b.ioBit 1) ↔ b.ioBit.val ≠ 3 := by
  constructor
  · intro h hbit
    have hbelow := Word.place_self_below 1
    obtain ⟨hpending, -⟩ := h (.writing (Word.place b.ioBit 1) 0 0) rfl rfl
    rw [pending_writtenPage, hnone, hbit, Transaction.offer, Transaction.writing,
      Word.selects_of_below hbelow, if_neg (by simp)] at hpending
    cases hpending
  · intro hbit t hw ha
    obtain ⟨hpage, hsel⟩ := Word.place_selects (j := 1) b.ioBit.isLt (by omega) (Ne.symm hbit)
    have hoffer : t.offer b.ioBit = some (t.data.setWidth 8) := by
      rw [Transaction.offer, hw, ha, hsel]
      rfl
    refine ⟨?_, ?_, ram_tick_of_page b (ha ▸ hpage)⟩
    · rw [pending_writtenPage, hoffer]
      rfl
    · rw [serial_tick hnone, hoffer, Transmitter.accepts]
      split <;> simp

/-- A read of the page's hole gives zero, which is the status of an idle transmitter. -/
theorem statusAt_iff (hfit : 4 * b.ram.size ≤ 2 ^ b.ioBit.val) :
    b.StatusAt (Word.place b.ioBit 2) ↔
      b.ioBit.val ≠ 4 ∨ b.page.serial.transmitter.ready = true := by
  by_cases hbit : b.ioBit.val = 4
  · -- The sum has carried out of the I/O bit: the address is below the page and past the end of RAM.
    have hword : b.wordAt (Word.place b.ioBit 2) = 0 := by
      have hindex : (Word.place 4 2).toNat / 4 = 8 := rfl
      rw [wordAt, hbit, Word.place_self_below 2, if_neg (by simp), hindex, Ram.read,
        Array.getElem?_eq_none, Option.getD_none]
      have : b.ram.words.size = b.ram.size := rfl
      rw [hbit] at hfit
      omega
    constructor
    · intro h
      have hread := h (.reading (Word.place b.ioBit 2)) rfl rfl
      rw [readData_tick, Transaction.reading, if_pos rfl, hword] at hread
      right
      by_contra hbusy
      rw [if_neg hbusy] at hread
      cases hread
    · rintro (hne | hready) t hr ha
      · exact absurd hbit hne
      · rw [readData_tick, if_pos hr, ha, hword, if_pos hready]
  · refine iff_of_true (fun t hr ha => ?_) (.inl hbit)
    obtain ⟨hpage, hsel⟩ := Word.place_selects (j := 2) b.ioBit.isLt (by omega) (Ne.symm hbit)
    rw [readData_tick, if_pos hr, ha, wordAt, hpage, hsel]
    cases b.page.serial.transmitter.ready <;> rfl

end Bus

/-! ## Reachable machines -/

/-- On every reachable machine of accepted settings the lights are 4 bytes above the base of the page
unless the select bit is 2, the data register is 8 bytes above it unless the bit is 3, and the status
register 16 bytes above it unless the bit is 4, where a busy transmitter still reads as ready. -/
theorem Machine.Reachable.page_registers {s : Settings} {image : List Word} {m : Machine}
    (h : Reachable s image m) :
    ∃ base, s.ioBase? = some base ∧
      (m.bus.LightsAt (base + 4) ↔ s.ioSelectBit ≠ 2) ∧
      (m.bus.DataAt (base + 8) ↔ s.ioSelectBit ≠ 3) ∧
      (m.bus.StatusAt (base + 16) ↔
        s.ioSelectBit ≠ 4 ∨ m.bus.page.serial.transmitter.ready = true) := by
  have hs := h.sound
  obtain ⟨-, -, hfit⟩ := hs.split
  have hlt := m.bus.ioBit.isLt
  rw [← hs.ioBit]
  refine ⟨BitVec.twoPow 32 m.bus.ioBit, ?_, Bus.lightsAt_iff, Bus.dataAt_iff hs.settled,
    Bus.statusAt_iff hfit⟩
  rw [Settings.ioBase?_of_lt (hs.ioBit ▸ hlt), hs.ioBit]

/-- With select bit 4 and a frame on its way, the lights and the data register are in place and the
status register is not. -/
theorem Machine.page_registers_at_bit_four :
    ∃ m, Reachable { ramWords := 1, ioSelectBit := 4 } [] m ∧
      m.bus.LightsAt (16 + 4) ∧ m.bus.DataAt (16 + 8) ∧ ¬ m.bus.StatusAt (16 + 16) := by
  have hbuilt : Reachable { ramWords := 1, ioSelectBit := 4 } [] _ := .built rfl
  have hbusy := hbuilt.act (.clockBus (.writing 24 65 0b1111))
  obtain ⟨base, hbase, hlights, hdata, hstatus⟩ := hbusy.page_registers
  obtain rfl : (16 : Word) = base := Option.some.inj hbase
  refine ⟨_, hbusy, hlights.2 (by decide), hdata.2 (by decide), fun h => ?_⟩
  rcases hstatus.1 h with hne | hready
  · exact hne rfl
  · cases hready

/-- With select bit 2 the settings are accepted, and the page starts at 4; but a write 4 bytes above
that leaves the lights dark. -/
theorem Machine.lights_lost_at_bit_two :
    Settings.validate { ramWords := 1, ioSelectBit := 2 } = .ok () ∧
      Settings.ioBase? { ramWords := 1, ioSelectBit := 2 } = some 4 ∧
      ∃ m, Machine.build { ramWords := 1, ioSelectBit := 2 } [] = .ok m ∧
        (m.bus.tick (.writing (4 + 4) 21 0b1111)).page.leds.value = 0 :=
  ⟨rfl, rfl, _, rfl, rfl⟩

end Multicycle
