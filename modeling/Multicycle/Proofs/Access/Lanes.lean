/-
Loads and stores by the byte. A store of some width drives the lanes that its address covers, each
with one byte of the value; at an address that is a multiple of the width these are the bytes of the
value in order. A load takes bytes out of a word in the same places.
-/
import Multicycle.Access
import Mathlib.Tactic

namespace Multicycle

theorem getLsbD_zero_eq (a : Word) : a.getLsbD 0 = decide (a.toNat % 2 = 1) := by
  rw [BitVec.getLsbD, Nat.testBit_eq_decide_div_mod_eq, Nat.pow_zero, Nat.div_one]

theorem getLsbD_one_eq (a : Word) : a.getLsbD 1 = decide (a.toNat / 2 % 2 = 1) := by
  rw [BitVec.getLsbD, Nat.testBit_eq_decide_div_mod_eq, Nat.pow_one]

/-! ## Lanes of a store -/

/-- Whether an access of the given width at address `a` covers lane `k`: a byte its own lane, a half
the lanes of its half of the word, a word all of them. -/
def Width.covers (width : Width) (a k : Nat) : Bool :=
  match width with
  | .byte => k == a % 4
  | .half => k / 2 == a / 2 % 2
  | .word => true

theorem Width.getLsbD_mask (width : Width) (a : Word) {k : Nat} (hk : k < 4) :
    (width.mask a).getLsbD k = width.covers a.toNat k := by
  cases width with
  | byte =>
    have hlt : a.toNat % 4 < 4 := Nat.mod_lt _ (by decide)
    simp only [mask, covers]
    generalize a.toNat % 4 = lane at hlt ⊢
    interval_cases lane <;> interval_cases k <;> decide
  | half =>
    simp only [mask, covers, getLsbD_one_eq]
    rcases Nat.mod_two_eq_zero_or_one (a.toNat / 2) with h | h
    · rw [h]
      interval_cases k <;> decide
    · rw [h]
      interval_cases k <;> decide
  | word =>
    simp only [mask, covers]
    interval_cases k <;> decide

/-- The byte of the stored value that lane `k` carries for an access at address `a`. -/
def laneSource (a k : Nat) : Nat :=
  match k with
  | 0 => 0
  | 1 => if a % 2 = 1 then 0 else 1
  | 2 => if a / 2 % 2 = 1 then 0 else 2
  | _ => if a % 2 = 1 then 0 else if a / 2 % 2 = 1 then 1 else 3

theorem byte_spread (value a : Word) {k : Nat} (hk : k < 4) :
    (spread value a).byte k = value.byte (laneSource a.toNat k) := by
  unfold spread
  obtain ⟨h0, h1, h2, h3⟩ := Word.byte_ofBytes (value.byte 0)
    (if a.getLsbD 0 then value.byte 0 else value.byte 1)
    (if a.getLsbD 1 then value.byte 0 else value.byte 2)
    (if a.getLsbD 0 then value.byte 0 else if a.getLsbD 1 then value.byte 1 else value.byte 3)
  simp only [getLsbD_zero_eq, getLsbD_one_eq, decide_eq_true_eq] at h0 h1 h2 h3 ⊢
  interval_cases k
  · exact h0
  · rw [h1]
    simp only [laneSource]
    split <;> rfl
  · rw [h2]
    simp only [laneSource]
    split <;> rfl
  · rw [h3]
    simp only [laneSource]
    split_ifs <;> rfl

/-- At a multiple of the width the lanes covered are as many as the width has bytes, from that of the
address on. -/
theorem Width.covers_of_aligned {width : Width} {a k : Nat} (ha : a % width.bytes = 0) (hk : k < 4) :
    width.covers a k = true ↔ a % 4 ≤ k ∧ k < a % 4 + width.bytes := by
  cases width with
  | byte =>
    simp only [covers, bytes, beq_iff_eq]
    omega
  | half =>
    simp only [covers, bytes, beq_iff_eq] at ha ⊢
    omega
  | word =>
    simp only [bytes] at ha
    simp only [covers, bytes, true_iff]
    omega

/-- And they carry the bytes of the value in order. -/
theorem laneSource_of_aligned {width : Width} {a k : Nat} (ha : a % width.bytes = 0) (hk : k < 4)
    (hc : width.covers a k = true) : laneSource a k = k - a % 4 := by
  obtain ⟨hlo, hhi⟩ := (Width.covers_of_aligned ha hk).1 hc
  -- A byte carries its own lane; of a half or a word, lane `k` is reached from an even lane below it.
  have hlane : a % 4 = k ∨ (a % 2 = 0 ∧ k < a % 4 + 2) ∨ a % 4 = 0 := by
    cases width <;> simp only [Width.bytes] at ha hhi <;> omega
  unfold laneSource
  interval_cases k
  · show 0 = 0 - a % 4
    omega
  · show (if a % 2 = 1 then 0 else 1) = 1 - a % 4
    split <;> omega
  · show (if a / 2 % 2 = 1 then 0 else 2) = 2 - a % 4
    split <;> omega
  · show (if a % 2 = 1 then 0 else if a / 2 % 2 = 1 then 1 else 3) = 3 - a % 4
    split_ifs <;> omega

/-! ## Lanes of a load -/

theorem selectHalf_eq (data a : Word) :
    selectHalf data a = data.byte (2 * (a.toNat / 2 % 2) + 1) ++ data.byte (2 * (a.toNat / 2 % 2)) := by
  unfold selectHalf Word.byte
  rw [getLsbD_one_eq, BitVec.extractLsb'_append_extractLsb'_eq_extractLsb' (by omega)]
  rcases Nat.mod_two_eq_zero_or_one (a.toNat / 2) with h | h
  · rw [h]
    rfl
  · rw [h]
    rfl

theorem selectByte_eq (data a : Word) : selectByte data a = data.byte (a.toNat % 4) := by
  have hsplit : a.toNat % 4 = 2 * (a.toNat / 2 % 2) + a.toNat % 2 := by omega
  unfold selectByte
  rw [getLsbD_zero_eq, selectHalf_eq, BitVec.extractLsb'_append_eq_left,
    BitVec.extractLsb'_append_eq_right, hsplit]
  rcases Nat.mod_two_eq_zero_or_one a.toNat with h | h
  · rw [h]
    rfl
  · rw [h]
    rfl

end Multicycle
