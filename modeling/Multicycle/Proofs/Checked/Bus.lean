/-
A tick of the bus with every step checked that can go wrong. It fails on a memory index past the end,
on a shift by as much as its operand is wide, and on a bit period counted below zero. Where the bit on
the line is held for at least one more tick, a checked tick is the tick itself.
-/
import Multicycle.Proofs.Bus.Select
import Multicycle.Proofs.Checked.Units

namespace Multicycle

open Checked

/-! ## Memory -/

namespace Ram

/-- The word of an index that has to be in memory. -/
def cell (ram : Ram) (index : Nat) : Checked Word :=
  if h : index < ram.words.size then .ok ram.words[index] else .error (.cell index ram.size)

def setCell (ram : Ram) (index : Nat) (word : Word) : Checked Ram :=
  if h : index < ram.words.size then .ok ⟨ram.words.set index word⟩
  else .error (.cell index ram.size)

def readChecked (ram : Ram) (index : Nat) : Checked Word :=
  if index < ram.size then ram.cell index else .ok 0

/-- The bits of the first `n` lanes that a mask chooses. -/
def laneBits (mask : Byte) : Nat → Checked Word
  | 0 => .ok 0
  | n + 1 => do
    let lanes ← laneBits mask n
    if mask &&& (← shl 1#8 n) = 0#8 then .ok lanes else .ok (lanes ||| (← shl 0xff#32 (n * 8)))

def writeChecked (ram : Ram) (index : Nat) (data : Word) (mask : Byte) : Checked Ram := do
  if index < ram.size then
    let lanes ← laneBits mask 4
    ram.setCell index (((← ram.cell index) &&& ~~~lanes) ||| (data &&& lanes))
  else .ok ram

theorem readChecked_eq (ram : Ram) (index : Nat) : ram.readChecked index = .ok (ram.read index) := by
  unfold readChecked cell read size
  by_cases h : index < ram.words.size
  · rw [if_pos h, dif_pos h, Array.getElem?_eq_getElem h]
    rfl
  · rw [if_neg h, Array.getElem?_eq_none (Nat.le_of_not_lt h)]
    rfl

theorem getLsbD_lane (n : Nat) {i : Nat} (hi : i < 32) :
    (0xff#32 <<< (n * 8)).getLsbD i = decide (i / 8 = n) := by
  have hff : 0xff#32 = (BitVec.allOnes 8).setWidth 32 := rfl
  rw [hff, BitVec.getLsbD_shiftLeft, BitVec.getLsbD_setWidth, BitVec.getLsbD_allOnes,
    Bool.eq_iff_iff]
  simp only [Bool.and_eq_true, Bool.not_eq_true', decide_eq_true_eq, decide_eq_false_iff_not]
  omega

/-- Lane by lane, a bit is set where the mask has its lane. -/
theorem laneBits_eq (mask : Byte) {n : Nat} (h : n ≤ 4) :
    ∃ lanes, laneBits mask n = .ok lanes ∧
      ∀ i < 32, lanes.getLsbD i = (decide (i / 8 < n) && mask.getLsbD (i / 8)) := by
  induction n with
  | zero => exact ⟨0, rfl, fun i _ => by simp⟩
  | succ n ih =>
    obtain ⟨lanes, hlanes, hbits⟩ := ih (by omega)
    have hbit : mask &&& 1#8 <<< n = if mask.getLsbD n then BitVec.twoPow 8 n else 0#8 := by
      rw [← BitVec.and_twoPow, BitVec.twoPow_eq]
    have hsucc : ∀ k, (decide (k < n + 1) && mask.getLsbD k) =
        (decide (k < n) && mask.getLsbD k || decide (k = n) && mask.getLsbD n) := by
      intro k
      by_cases hk : k = n
      · simp [hk]
      · simp [hk, show k < n + 1 ↔ k < n by omega]
    unfold laneBits
    rw [hlanes, ok_bind, shl_of_lt (by omega), ok_bind, hbit]
    cases hm : mask.getLsbD n with
    | false =>
      refine ⟨lanes, if_pos rfl, fun i hi => ?_⟩
      rw [hbits i hi, hsucc, hm, Bool.and_false, Bool.or_false]
    | true =>
      have hne : BitVec.twoPow 8 n ≠ 0#8 := by
        intro h0
        have h := BitVec.toNat_twoPow_of_lt (show n < 8 by omega)
        rw [h0] at h
        exact absurd h (Nat.ne_of_lt (Nat.two_pow_pos n))
      refine ⟨lanes ||| 0xff#32 <<< (n * 8), ?_, fun i hi => ?_⟩
      · rw [if_pos rfl, if_neg hne, shl_of_lt (by omega)]
        rfl
      · rw [BitVec.getLsbD_or, hbits i hi, getLsbD_lane n hi, hsucc, hm, Bool.and_true]

/-- Clearing the chosen bits of the old word and keeping those of the new one is a merge of lanes. -/
theorem merge_eq_or {mask : Byte} {lanes : Word}
    (h : ∀ i < 32, lanes.getLsbD i = mask.getLsbD (i / 8)) (old new : Word) :
    (old &&& ~~~lanes) ||| (new &&& lanes) = old.merge mask new := by
  ext i hi
  rw [← BitVec.getLsbD_eq_getElem, ← BitVec.getLsbD_eq_getElem, Word.getLsbD_merge mask old new hi,
    BitVec.getLsbD_or, BitVec.getLsbD_and, BitVec.getLsbD_and, BitVec.getLsbD_not, h i hi]
  cases mask.getLsbD (i / 8) <;> simp [hi]

theorem writeChecked_eq (ram : Ram) (index : Nat) (data : Word) (mask : Byte) :
    ram.writeChecked index data mask = .ok (ram.write index data mask) := by
  obtain ⟨lanes, hlanes, hbits⟩ := laneBits_eq mask (n := 4) (by decide)
  have hmask : ∀ i < 32, lanes.getLsbD i = mask.getLsbD (i / 8) := fun i hi => by
    rw [hbits i hi, decide_eq_true (by omega), Bool.true_and]
  unfold writeChecked cell setCell
  by_cases h : index < ram.size
  · have hcell : index < ram.words.size := h
    rw [if_pos h, hlanes, dif_pos hcell, ok_bind, ok_bind, dif_pos hcell, merge_eq_or hmask,
      write_of_lt hcell]
  · rw [if_neg h, write_of_size_le (Nat.le_of_not_lt h)]

end Ram

/-! ## Transmitter -/

namespace Frame

def ofByteChecked (period : Nat) (b : Byte) : Checked Frame := do
  .ok ⟨(← shl 1#10 9) ||| (← shl (b.setWidth 10) 1), period⟩

/-- The frame after a tick: the ticks left are counted down first. -/
def tickChecked (period : Nat) (f : Frame) : Checked (Option Frame) := do
  let left ← sub f.left 1
  if left = 0 then
    let bits ← shr f.bits 1
    .ok (if bits = 0 then none else some ⟨bits, period⟩)
  else .ok (some { f with left })

theorem ofByteChecked_eq (period : Nat) (b : Byte) :
    ofByteChecked period b = .ok (ofByte period b) := by
  unfold ofByteChecked ofByte
  have h : 1#1 ++ b ++ 0#1 = 1#10 <<< 9 ||| b.setWidth 10 <<< 1 := by
    rw [← BitVec.setWidth_eq (1#1 ++ b ++ 0#1), Word.setWidth_append, Word.setWidth_append 1#1 b,
      BitVec.shiftLeft_or_distrib, ← BitVec.shiftLeft_add]
    exact BitVec.or_zero
  rw [shl_of_lt (by decide), shl_of_lt (by decide), ok_bind, ok_bind, h]

theorem tickChecked_eq (period : Nat) {f : Frame} (h : 0 < f.left) :
    f.tickChecked period = .ok (f.tick period) := by
  unfold tickChecked tick
  rw [sub_of_le h, ok_bind, shr_of_lt (by decide), ok_bind]
  by_cases h1 : 1 < f.left
  · rw [if_neg (by omega), if_pos h1]
  · rw [if_pos (by omega), if_neg h1]

example : Frame.tickChecked 4 ⟨1, 0⟩ = .error (.difference 0 1) := rfl

end Frame

namespace Transmitter

/-- The bit on the line is held for at least one more tick, and so will be the bits to come. -/
structure Steady (t : Transmitter) : Prop where
  period : 0 < t.period
  left : ∀ f ∈ t.frame, 0 < f.left

def tickChecked (t : Transmitter) (offer : Option Byte) : Checked Transmitter := do
  match t.frame with
  | none =>
    match offer with
    | none => .ok t
    | some b => .ok { t with frame := some (← Frame.ofByteChecked t.period b) }
  | some f => .ok { t with frame := ← f.tickChecked t.period }

theorem Steady.tickChecked_eq {t : Transmitter} (h : t.Steady) (offer : Option Byte) :
    t.tickChecked offer = .ok (t.tick offer) := by
  obtain ⟨period, frame⟩ := t
  unfold tickChecked tick
  cases frame with
  | none =>
    cases offer with
    | none => rfl
    | some b =>
      simp only [Frame.ofByteChecked_eq, ok_bind]
      rfl
  | some f =>
    simp only [Frame.tickChecked_eq period (h.left f rfl), ok_bind]

theorem Steady.tick {t : Transmitter} (h : t.Steady) (offer : Option Byte) : (t.tick offer).Steady := by
  obtain ⟨period, frame⟩ := t
  cases frame with
  | none =>
    refine ⟨h.period, fun f hf => ?_⟩
    obtain ⟨b, -, rfl⟩ := Option.map_eq_some_iff.1 hf
    exact h.period
  | some g =>
    refine ⟨h.period, fun f hf => ?_⟩
    replace hf : g.tick period = some f := hf
    unfold Frame.tick at hf
    split at hf
    · cases hf
      exact Nat.sub_pos_of_lt ‹_›
    · split at hf
      · cases hf
      · cases hf
        exact h.period

end Transmitter

namespace Serial

def statusChecked (d : Serial) : Checked Word := shl (if d.transmitter.ready then 0 else 1) 9

def readChecked (d : Serial) (select : Word) : Checked Word :=
  if select.getLsbD 2 then d.statusChecked else .ok 0

def tickChecked (d : Serial) : Checked Serial := do
  .ok { d.tick with transmitter := ← d.transmitter.tickChecked d.pending }

theorem readChecked_eq (d : Serial) (select : Word) : d.readChecked select = .ok (d.read select) := by
  unfold readChecked read statusChecked status
  split
  · rw [shl_of_lt (by decide)]
    split <;> rfl
  · rfl

theorem tickChecked_eq {d : Serial} (h : d.transmitter.Steady) : d.tickChecked = .ok d.tick := by
  unfold tickChecked
  rw [h.tickChecked_eq]
  rfl

end Serial

/-! ## Bus -/

namespace Page

def readChecked (p : Page) (select : Word) : Checked Word := do
  .ok (p.leds.read select ||| (← p.serial.readChecked select))

def tickChecked (p : Page) : Checked Page := do
  .ok { p with serial := ← p.serial.tickChecked }

theorem readChecked_eq (p : Page) (select : Word) : p.readChecked select = .ok (p.read select) := by
  unfold readChecked
  rw [Serial.readChecked_eq]
  rfl

theorem tickChecked_eq {p : Page} (h : p.serial.transmitter.Steady) : p.tickChecked = .ok p.tick := by
  unfold tickChecked
  rw [Serial.tickChecked_eq h]
  rfl

end Page

namespace Bus

def offsetChecked (b : Bus) (address : Word) : Checked Word :=
  shr (address &&& ~~~BitVec.twoPow 32 b.ioBit) 2

def sampleChecked (b : Bus) (address : Word) : Checked Word := do
  let select ← b.offsetChecked address
  if b.isIo address then b.page.readChecked select else b.ram.readChecked select.toNat

def nextReadDataChecked (b : Bus) (t : Transaction) : Checked Word :=
  if t.read then b.sampleChecked t.address else .ok b.readData

def nextRamChecked (b : Bus) (t : Transaction) : Checked Ram := do
  let select ← b.offsetChecked t.address
  if t.write && !b.isIo t.address then b.ram.writeChecked select.toNat t.data t.mask else .ok b.ram

def tickChecked (b : Bus) (t : Transaction) : Checked Bus := do
  let readData ← b.nextReadDataChecked t
  let ram ← b.nextRamChecked t
  let page ← (b.writtenPage t).tickChecked
  .ok { ram, page, ioBit := b.ioBit, readData }

variable (b : Bus)

theorem offsetChecked_eq (address : Word) : b.offsetChecked address = .ok (b.offset address) :=
  shr_of_lt (by decide)

theorem sampleChecked_eq (address : Word) : b.sampleChecked address = .ok (b.sample address) := by
  unfold sampleChecked sample
  rw [offsetChecked_eq, ok_bind, Page.readChecked_eq, Ram.readChecked_eq]
  split <;> rfl

theorem nextReadDataChecked_eq (t : Transaction) :
    b.nextReadDataChecked t = .ok (b.nextReadData t) := by
  unfold nextReadDataChecked nextReadData
  rw [sampleChecked_eq]
  split <;> rfl

theorem nextRamChecked_eq (t : Transaction) : b.nextRamChecked t = .ok (b.nextRam t) := by
  unfold nextRamChecked nextRam
  rw [offsetChecked_eq, ok_bind, Ram.writeChecked_eq]
  split <;> rfl

variable {b}

/-- A tick of the bus, whatever is asked of it, goes wrong in no part of it. -/
theorem tickChecked_eq (h : b.page.serial.transmitter.Steady) (t : Transaction) :
    b.tickChecked t = .ok (b.tick t) := by
  have hpage : (b.writtenPage t).serial.transmitter.Steady := (b.serial_writtenPage t).1 ▸ h
  unfold tickChecked
  rw [nextReadDataChecked_eq, ok_bind, nextRamChecked_eq, ok_bind, Page.tickChecked_eq hpage]
  rfl

theorem steady_tick (h : b.page.serial.transmitter.Steady) (t : Transaction) :
    (b.tick t).page.serial.transmitter.Steady := by
  have hpage : (b.writtenPage t).serial.transmitter.Steady := (b.serial_writtenPage t).1 ▸ h
  exact hpage.tick _

end Bus

end Multicycle
