/-
Where an address leads. Below the page a word of RAM, and on the page the registers whose bits the
address sets, each two bits above its number; the bit that chooses the page chooses no register.
From it follow what a read returns and what a write reaches, on the bus as it stands.
-/
import Multicycle.Bus
import Multicycle.Proofs.Serial.Offers

namespace Multicycle

/-- Whether an access to `a` reaches register `j` of the page: `a` is on the page, and bit `j` of its
word offset is set. The offset leaves the I/O bit out. -/
def Word.selects (ioBit j : Nat) (a : Word) : Bool :=
  a.getLsbD ioBit && a.getLsbD (j + 2) && (j + 2 != ioBit)

theorem Word.selects_of_below {ioBit : Nat} {a : Word} (h : a.getLsbD ioBit = false) (j : Nat) :
    a.selects ioBit j = false := by
  unfold Word.selects
  rw [h, Bool.false_and, Bool.false_and]

namespace Bus

/-! ## Offsets -/

theorem getLsbD_offset (b : Bus) (a : Word) (j : Nat) :
    (b.offset a).getLsbD j = (a.getLsbD (j + 2) && (j + 2 != b.ioBit.val)) := by
  have hlt := b.ioBit.isLt
  unfold offset
  rw [BitVec.getLsbD_ushiftRight, BitVec.getLsbD_and, BitVec.getLsbD_not, BitVec.getLsbD_twoPow,
    Nat.add_comm 2 j]
  by_cases hj : j + 2 < 32
  · by_cases he : b.ioBit.val = j + 2
    · simp [hj, he]
    · have he' : ¬ j + 2 = b.ioBit.val := fun h => he h.symm
      simp [hj, he, he']
  · rw [BitVec.getLsbD_of_ge a (j + 2) (by omega)]
    rfl

theorem toNat_offset (b : Bus) {a : Word} (h : a.getLsbD b.ioBit = false) :
    (b.offset a).toNat = a.toNat / 4 := by
  -- The bit that the offset clears is clear already.
  have hoff : b.offset a = a >>> 2 := by
    apply BitVec.eq_of_getLsbD_eq
    intro j _
    rw [getLsbD_offset, BitVec.getLsbD_ushiftRight, Nat.add_comm 2 j]
    by_cases he : j + 2 = b.ioBit.val
    · rw [he, h]
      rfl
    · simp [he]
  rw [hoff, BitVec.toNat_ushiftRight, Nat.shiftRight_eq_div_pow]

/-- Of an address on the page, the register bits of the offset are what it selects. -/
theorem offset_selects (b : Bus) {a : Word} (h : a.getLsbD b.ioBit = true) (j : Nat) :
    (b.offset a).getLsbD j = a.selects b.ioBit j := by
  rw [getLsbD_offset, Word.selects, h, Bool.true_and]

/-! ## Reads -/

/-- The word found at `a`: on the page the busy flag in bit 9 where the status register is selected,
elsewhere the word of RAM, zero past its end. -/
def wordAt (b : Bus) (a : Word) : Word :=
  if a.getLsbD b.ioBit then
    if a.selects b.ioBit 2 && !b.page.serial.transmitter.ready then BitVec.twoPow 32 9 else 0
  else b.ram.read (a.toNat / 4)

theorem sample_eq (b : Bus) (a : Word) : b.sample a = b.wordAt a := by
  unfold sample wordAt isIo
  cases h : a.getLsbD b.ioBit with
  | false => simp [toNat_offset b h]
  | true =>
    have hs := offset_selects b h 2
    simp only [if_true, Page.read, Leds.read, Serial.read, Serial.status, hs]
    cases a.selects b.ioBit 2 <;> cases b.page.serial.transmitter.ready <;> rfl

end Bus

/-! ## Accesses -/

namespace Transaction

/-- Whether the status is read. -/
def readsStatus (ioBit : Nat) (t : Transaction) : Bool := t.read && t.address.selects ioBit 2

/-- Whether lane `k` of RAM word `i` is written. -/
def writesLane (ioBit i k : Nat) (t : Transaction) : Bool :=
  t.write && !t.address.getLsbD ioBit && t.address.toNat / 4 == i && t.mask.getLsbD k

/-- Whether the lights are written. The mask plays no part on the page. -/
def writesLights (ioBit : Nat) (t : Transaction) : Bool := t.write && t.address.selects ioBit 0

/-- The byte put before the transmitter, if any: the low eight bits of what is written to the data
register. -/
def offer (ioBit : Nat) (t : Transaction) : Option Byte :=
  if t.write && t.address.selects ioBit 1 then some (t.data.setWidth 8) else none

end Transaction

namespace Bus

/-- A write to RAM shows in the lanes that it names, and in no other. -/
theorem byte_tick (b : Bus) (t : Transaction) {i k : Nat} (hi : i < b.ram.size) (hk : k < 4) :
    ((b.tick t).ram.read i).byte k =
      if t.writesLane b.ioBit i k then t.data.byte k else (b.ram.read i).byte k := by
  show ((b.nextRam t).read i).byte k = _
  unfold nextRam isIo Transaction.writesLane
  by_cases hw : (t.write && !t.address.getLsbD b.ioBit) = true
  · have hio : t.address.getLsbD b.ioBit = false := by simp_all
    rw [if_pos hw, hw, Ram.read_write, toNat_offset b hio]
    by_cases ha : t.address.toNat / 4 = i
    · rw [if_pos ⟨ha, ha ▸ hi⟩, Word.byte_merge _ _ _ hk]
      simp [ha]
    · rw [if_neg fun h => ha h.1]
      simp [ha]
  · rw [if_neg hw, Bool.eq_false_iff.2 hw]
    rfl

theorem ram_tick_of_page (b : Bus) {t : Transaction} (h : t.address.getLsbD b.ioBit = true) :
    (b.tick t).ram = b.ram := by
  show b.nextRam t = _
  unfold nextRam isIo
  rw [h, Bool.not_true, Bool.and_false]
  rfl

@[simp] theorem size_tick (b : Bus) (t : Transaction) : (b.tick t).ram.size = b.ram.size := by
  show (b.nextRam t).size = _
  unfold nextRam
  split
  · exact Ram.size_write ..
  · rfl

@[simp] theorem ioBit_tick (b : Bus) (t : Transaction) : (b.tick t).ioBit = b.ioBit := rfl

theorem leds_tick (b : Bus) (t : Transaction) :
    (b.tick t).page.leds.value = if t.writesLights b.ioBit then t.data else b.page.leds.value := by
  show (b.writtenPage t).leds.value = _
  unfold writtenPage isIo Transaction.writesLights
  cases hw : t.write with
  | false => rfl
  | true =>
    cases hio : t.address.getLsbD b.ioBit with
    | false => simp [Word.selects_of_below hio]
    | true =>
      have hs := offset_selects b hio 0
      simp only [Bool.and_self, if_true, Page.write, Leds.write, hs, Bool.true_and]
      split <;> rfl

/-- What is pending while the devices are clocked: the offer of the tick, or what was left over. -/
theorem pending_writtenPage (b : Bus) (t : Transaction) :
    (b.writtenPage t).serial.pending = (t.offer b.ioBit).or b.page.serial.pending := by
  unfold writtenPage isIo Transaction.offer
  cases hw : t.write with
  | false => rfl
  | true =>
    cases hio : t.address.getLsbD b.ioBit with
    | false => simp [Word.selects_of_below hio]
    | true =>
      have hs := offset_selects b hio 1
      simp only [Bool.and_self, if_true, Page.write, Serial.write, hs, Bool.true_and]
      split
      · rw [Word.byte, Nat.mul_zero, BitVec.setWidth_eq_extractLsb' (by omega)]
        rfl
      · rfl

theorem serial_writtenPage (b : Bus) (t : Transaction) :
    (b.writtenPage t).serial.transmitter = b.page.serial.transmitter ∧
      (b.writtenPage t).serial.sent = b.page.serial.sent := by
  unfold writtenPage
  split
  · simp only [Page.write, Serial.write]
    split <;> exact ⟨rfl, rfl⟩
  · exact ⟨rfl, rfl⟩

/-- The serial device after a tick that began with nothing left over. -/
theorem serial_tick {b : Bus} (h : b.page.serial.pending = none) (t : Transaction) :
    (b.tick t).page.serial =
      ⟨b.page.serial.transmitter.tick (t.offer b.ioBit), none,
        b.page.serial.sent ++ (b.page.serial.transmitter.accepts (t.offer b.ioBit)).toList.toArray⟩ := by
  show (b.writtenPage t).serial.tick = _
  obtain ⟨htx, hsent⟩ := serial_writtenPage b t
  rw [Serial.tick_eq, pending_writtenPage, h, Option.or_none, htx, hsent]

/-- A tick takes at most one byte, and gives none back. -/
theorem size_sent_tick (b : Bus) (t : Transaction) :
    b.page.serial.sent.size ≤ (b.tick t).page.serial.sent.size ∧
      (b.tick t).page.serial.sent.size ≤ b.page.serial.sent.size + 1 := by
  show _ ≤ ((b.writtenPage t).serial.tick).sent.size ∧ ((b.writtenPage t).serial.tick).sent.size ≤ _
  rw [Serial.tick_eq, (b.serial_writtenPage t).2]
  cases (b.writtenPage t).serial.transmitter.accepts (b.writtenPage t).serial.pending <;> simp

theorem readData_tick (b : Bus) (t : Transaction) :
    (b.tick t).readData = if t.read then b.wordAt t.address else b.readData := by
  rw [← sample_eq]
  rfl

/-! ## Accesses below the page -/

theorem ram_tick_of_read (b : Bus) {t : Transaction} (h : t.write = false) :
    (b.tick t).ram = b.ram := by
  show b.nextRam t = _
  unfold nextRam
  rw [h]
  rfl

theorem ram_tick_of_below {b : Bus} {t : Transaction}
    (h : t.address.getLsbD b.ioBit = false) (hw : t.write = true) :
    (b.tick t).ram = b.ram.write (t.address.toNat / 4) t.data t.mask := by
  show b.nextRam t = _
  unfold nextRam isIo
  rw [hw, h, toNat_offset b h]
  rfl

theorem readData_tick_of_below {b : Bus} {t : Transaction}
    (h : t.address.getLsbD b.ioBit = false) (hr : t.read = true) :
    (b.tick t).readData = b.ram.read (t.address.toNat / 4) := by
  rw [readData_tick, if_pos hr, wordAt, h]
  rfl

/-- Past the end of RAM nothing is found and nothing kept. -/
theorem tick_of_hole {b : Bus} {t : Transaction} (h : t.address.getLsbD b.ioBit = false)
    (hend : 4 * b.ram.size ≤ t.address.toNat) :
    (t.read = true → (b.tick t).readData = 0) ∧ (b.tick t).ram = b.ram := by
  have hindex : b.ram.size ≤ t.address.toNat / 4 := by omega
  refine ⟨fun hr => ?_, ?_⟩
  · rw [readData_tick_of_below h hr, Ram.read_of_size_le hindex]
  · cases hw : t.write with
    | false => exact ram_tick_of_read b hw
    | true => rw [ram_tick_of_below h hw, Ram.write_of_size_le hindex]

end Bus

end Multicycle
