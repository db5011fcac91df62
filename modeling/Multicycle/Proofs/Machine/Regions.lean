/-
The map of the addresses. Accepted settings divide the addresses into three regions, the page, RAM and
the hole that is neither. Each word of RAM stands at four addresses of its own; an access in one region
leaves alone what belongs to another; and in the hole nothing is found and nothing kept. RAM may reach
up to the first address of the page.
-/
import Multicycle.Proofs.Machine.Reach

namespace Multicycle

/-! ## Regions -/

inductive Region where
  | page
  | ram
  | hole

/-- The addresses of a region. -/
def Region.Contains (s : Settings) (a : Word) : Region → Prop
  | page => a.getLsbD s.ioSelectBit = true
  | ram => a.toNat < 4 * s.ramWords
  | hole => a.getLsbD s.ioSelectBit = false ∧ 4 * s.ramWords ≤ a.toNat

instance (s : Settings) (a : Word) (r : Region) : Decidable (r.Contains s a) :=
  match r with
  | .page => inferInstanceAs (Decidable (a.getLsbD s.ioSelectBit = true))
  | .ram => inferInstanceAs (Decidable (a.toNat < 4 * s.ramWords))
  | .hole =>
    inferInstanceAs (Decidable (a.getLsbD s.ioSelectBit = false ∧ 4 * s.ramWords ≤ a.toNat))

/-- Every address is in one region and in no other. -/
theorem Region.existsUnique_contains {s : Settings} (hfit : 4 * s.ramWords ≤ 2 ^ s.ioSelectBit)
    (a : Word) : ∃! r : Region, r.Contains s a := by
  by_cases hram : a.toNat < 4 * s.ramWords
  · have hbelow : a.getLsbD s.ioSelectBit = false := Word.below_of_lt (by omega)
    refine ⟨.ram, hram, fun r hr => ?_⟩
    cases r with
    | page => exact absurd (hbelow.symm.trans hr) Bool.false_ne_true
    | ram => rfl
    | hole => exact absurd hr.2 (Nat.not_le_of_lt hram)
  · cases hbit : a.getLsbD s.ioSelectBit with
    | true =>
      refine ⟨.page, hbit, fun r hr => ?_⟩
      cases r with
      | page => rfl
      | ram => exact absurd hr hram
      | hole => exact absurd (hr.1.symm.trans hbit) Bool.false_ne_true
    | false =>
      refine ⟨.hole, ⟨hbit, Nat.le_of_not_lt hram⟩, fun r hr => ?_⟩
      cases r with
      | page => exact absurd (hbit.symm.trans hr) Bool.false_ne_true
      | ram => exact absurd hr hram
      | hole => rfl

/-- All of RAM has addresses, and they lie below the page. -/
theorem Settings.lt_ioBase {s : Settings} (hbit : s.ioSelectBit < 32)
    (hfit : 4 * s.ramWords ≤ 2 ^ s.ioSelectBit) {i : Nat} (hi : i < s.ramWords) :
    4 * i + 3 < 2 ^ 32 ∧ ∃ base, s.ioBase? = some base ∧ 4 * i + 3 < base.toNat := by
  have hpow : 2 ^ s.ioSelectBit < 2 ^ 32 := Nat.pow_lt_pow_right (by decide) hbit
  refine ⟨by omega, _, ioBase?_of_lt hbit, ?_⟩
  rw [BitVec.toNat_twoPow, Nat.mod_eq_of_lt hpow]
  omega

/-! ## Accesses below the page -/

namespace Bus

variable {b : Bus} {t : Transaction} {a : Word} {i : Nat}

/-- The lights stay as they are and nothing is put before the transmitter. -/
theorem page_of_below (hnone : b.page.serial.pending = none)
    (h : t.address.getLsbD b.ioBit = false) :
    (b.tick t).page.leds = b.page.leds ∧ (b.writtenPage t).serial.pending = none := by
  have hpage : b.writtenPage t = b.page := by
    unfold writtenPage isIo
    rw [h, Bool.and_false]
    rfl
  refine ⟨?_, hpage ▸ hnone⟩
  show (b.writtenPage t).leds = _
  rw [hpage]

/-- An access touches no word of RAM but the one of its own address. -/
theorem read_tick_of_ne (h : t.address.toNat / 4 ≠ i) : (b.tick t).ram.read i = b.ram.read i := by
  cases hw : t.write with
  | false => rw [ram_tick_of_read b hw]
  | true =>
    cases ha : t.address.getLsbD b.ioBit with
    | true => rw [ram_tick_of_page b ha]
    | false =>
      rw [ram_tick_of_below ha hw, Ram.read_write]
      exact if_neg fun hi => h hi.1

/-- Word `i` of RAM is at `a`: it is what a read there gives, and it takes what is written there. -/
def RamAt (b : Bus) (a : Word) (i : Nat) : Prop :=
  ∀ t : Transaction, t.address = a →
    (t.read = true → (b.tick t).readData = b.ram.read i) ∧
      (t.write = true → (b.tick t).ram = b.ram.write i t.data t.mask)

/-- A word of RAM is at its own four addresses and at no other. -/
theorem ramAt_iff (hfit : 4 * b.ram.size ≤ 2 ^ b.ioBit.val) (hi : i < b.ram.size) :
    b.RamAt a i ↔ 4 * i ≤ a.toNat ∧ a.toNat ≤ 4 * i + 3 := by
  constructor
  · intro h
    -- From anywhere else the complement of what the word holds cannot be written into it.
    by_contra hout
    obtain ⟨-, hwrite⟩ := h (.writing a (~~~b.ram.read i) 0b1111) rfl
    have hkept : (b.tick (.writing a (~~~b.ram.read i) 0b1111)).ram.read i = b.ram.read i :=
      read_tick_of_ne (show a.toNat / 4 ≠ i by omega)
    rw [hwrite rfl, Ram.read_write, if_pos ⟨rfl, hi⟩] at hkept
    have hbit : ((b.ram.read i).merge 0b1111 (~~~b.ram.read i)).getLsbD 0 =
        (b.ram.read i).getLsbD 0 := congrArg (·.getLsbD 0) hkept
    rw [Word.getLsbD_merge _ _ _ (by decide)] at hbit
    simp at hbit
  · rintro ⟨hlo, hhi⟩ t rfl
    have hindex : t.address.toNat / 4 = i := by omega
    have hbelow : t.address.getLsbD b.ioBit = false := Word.below_of_lt (by omega)
    rw [← hindex]
    exact ⟨readData_tick_of_below hbelow, ram_tick_of_below hbelow⟩

theorem below_of_ramAt (hfit : 4 * b.ram.size ≤ 2 ^ b.ioBit.val) (hi : i < b.ram.size)
    (h : b.RamAt a i) : a.getLsbD b.ioBit = false := by
  obtain ⟨-, hhi⟩ := (ramAt_iff hfit hi).1 h
  exact Word.below_of_lt (by omega)

/-- Of its four addresses one is aligned. -/
theorem existsUnique_ramAt (hfit : 4 * b.ram.size ≤ 2 ^ b.ioBit.val) (hi : i < b.ram.size) :
    ∃! a : Word, 4 ∣ a.toNat ∧ b.RamAt a i := by
  have hpow : 2 ^ b.ioBit.val < 2 ^ 32 := Nat.pow_lt_pow_right (by decide) b.ioBit.isLt
  have haddress : (BitVec.ofNat 32 (4 * i)).toNat = 4 * i := Nat.mod_eq_of_lt (by omega)
  refine ⟨BitVec.ofNat 32 (4 * i), ⟨?_, ?_⟩, fun a ha => ?_⟩
  · rw [haddress]
    exact Nat.dvd_mul_right 4 i
  · rw [ramAt_iff hfit hi, haddress]
    omega
  · obtain ⟨hdvd, hat⟩ := ha
    obtain ⟨hlo, hhi⟩ := (ramAt_iff hfit hi).1 hat
    apply BitVec.eq_of_toNat_eq
    omega

end Bus

/-! ## The map -/

/-- What the settings of a bus promise of its addresses. -/
structure Bus.Mapped (s : Settings) (b : Bus) : Prop where
  region : ∀ a : Word, ∃! r : Region, r.Contains s a
  fits : ∀ i < s.ramWords, 4 * i + 3 < 2 ^ 32 ∧
    ∃ base, s.ioBase? = some base ∧ 4 * i + 3 < base.toNat
  ramAt : ∀ i < s.ramWords, ∀ a : Word, b.RamAt a i ↔ 4 * i ≤ a.toNat ∧ a.toNat ≤ 4 * i + 3
  below : ∀ i < s.ramWords, ∀ a : Word, b.RamAt a i → a.getLsbD s.ioSelectBit = false
  aligned : ∀ i < s.ramWords, ∃! a : Word, 4 ∣ a.toNat ∧ b.RamAt a i
  page : ∀ t, Region.page.Contains s t.address → (b.tick t).ram = b.ram
  ram : ∀ t, Region.ram.Contains s t.address →
    (b.tick t).page.leds = b.page.leds ∧ (b.writtenPage t).serial.pending = none
  hole : ∀ t, Region.hole.Contains s t.address →
    (t.read = true → (b.tick t).readData = 0) ∧ (b.tick t).ram = b.ram ∧
      (b.tick t).page.leds = b.page.leds ∧ (b.writtenPage t).serial.pending = none

namespace Machine

variable {s : Settings} {image : List Word} {m : Machine}

/-- For all accepted settings and every machine that comes of them, the regions divide the addresses,
the words of RAM have their own addresses below the page, and an access touches nothing outside its
region. -/
theorem Reachable.mapped (h : Reachable s image m) : m.bus.Mapped s := by
  have hs := h.sound
  obtain ⟨-, -, hfit⟩ := hs.split
  have hfit' : 4 * s.ramWords ≤ 2 ^ s.ioSelectBit := by rwa [← hs.size, ← hs.ioBit]
  have hbit : s.ioSelectBit < 32 := hs.ioBit ▸ m.bus.ioBit.isLt
  -- A word, and an address on one side of the I/O bit, as the bus has them.
  have hword : ∀ i < s.ramWords, i < m.bus.ram.size := fun i hi => hs.size ▸ hi
  have hside : ∀ {a : Word} {v : Bool}, a.getLsbD s.ioSelectBit = v → a.getLsbD m.bus.ioBit = v :=
    fun ha => hs.ioBit ▸ ha
  refine ⟨Region.existsUnique_contains hfit', fun i => Settings.lt_ioBase hbit hfit',
    fun i hi a => Bus.ramAt_iff hfit (hword i hi), fun i hi a ha => ?_,
    fun i hi => Bus.existsUnique_ramAt hfit (hword i hi), fun t ht => ?_, fun t ht => ?_,
    fun t ht => ?_⟩
  · rw [← hs.ioBit]
    exact Bus.below_of_ramAt hfit (hword i hi) ha
  · exact Bus.ram_tick_of_page m.bus (hside ht)
  · exact Bus.page_of_below hs.settled (hside (Word.below_of_lt (Nat.lt_of_lt_of_le ht hfit')))
  · obtain ⟨hpage, hend⟩ := ht
    rw [← hs.size] at hend
    obtain ⟨hread, hram⟩ := Bus.tick_of_hole (hside hpage) hend
    exact ⟨hread, hram, Bus.page_of_below hs.settled (hside hpage)⟩

/-- One word of RAM right below the page: the last address of the one and the first of the other, and
the hole between two parts of the page. -/
theorem mapped_up_to_page :
    ∃ m, Reachable { ramWords := 1, ioSelectBit := 2 } [0xdeadbeef] m ∧
      m.bus.RamAt 3 0 ∧ ¬ m.bus.RamAt 4 0 ∧ (m.bus.tick (.reading 8)).readData = 0 := by
  have hbuilt : Reachable { ramWords := 1, ioSelectBit := 2 } [0xdeadbeef] _ := .built rfl
  have hmapped := hbuilt.mapped
  refine ⟨_, hbuilt, (hmapped.ramAt 0 (by decide) 3).2 (by decide), fun h => ?_, ?_⟩
  · exact absurd ((hmapped.ramAt 0 (by decide) 4).1 h) (by decide)
  · exact (hmapped.hole (.reading 8) (by decide)).1 rfl

end Machine

end Multicycle
