/-
A frame from its first tick to its last, in closed form. Its ten bits follow each other with one
period each, so after `n` ticks `n / period` bits are over and the next one has been held for
`n % period` ticks. What is offered meanwhile plays no part, and ten periods after the byte was taken
the transmitter is ready again.
-/
import Multicycle.Proofs.Serial.Offers
import Mathlib.Tactic

namespace Multicycle

/-! ## Bits of a frame -/

namespace Frame

/-- The start bit, the data bits from the lowest on, the stop bit, and nothing more. -/
theorem getLsbD_bits_ofByte (period : Nat) (b : Byte) (k : Nat) :
    (ofByte period b).bits.getLsbD k =
      if k = 0 then false else if k < 9 then b.getLsbD (k - 1) else decide (k = 9) := by
  show (1#1 ++ b ++ 0#1).getLsbD k = _
  rw [BitVec.getLsbD_append, BitVec.getLsbD_append]
  by_cases h0 : k = 0
  · subst h0
    rfl
  by_cases h9 : k < 9
  · rw [if_neg (by omega), if_pos (by omega), if_neg h0, if_pos h9]
  · rw [if_neg (by omega), if_neg (by omega), if_neg h0, if_neg h9, BitVec.getLsbD_one]
    simp
    omega

/-- While the stop bit is still to come, something of the frame is left. -/
theorem bits_ofByte_shift_ne_zero (period : Nat) (b : Byte) {k : Nat} (hk : k < 10) :
    (ofByte period b).bits >>> k ≠ 0 := by
  intro h
  have hstop := congrArg (·.getLsbD (9 - k)) h
  simp only [BitVec.getLsbD_ushiftRight, Nat.add_sub_of_le (show k ≤ 9 by omega),
    getLsbD_bits_ofByte] at hstop
  simp at hstop

end Frame

namespace Transmitter

/-- A transmitter that has just taken a byte. -/
def sending (period : Nat) (b : Byte) : Transmitter := ⟨period, some (.ofByte period b)⟩

variable {period : Nat} {b : Byte} {os : List (Option Byte)}

theorem run_sending (hpos : 0 < period) (h : os.length < 10 * period) :
    (sending period b).run os =
      ⟨period, some ⟨(Frame.ofByte period b).bits >>> (os.length / period),
        period - os.length % period⟩⟩ := by
  induction os using List.reverseRecOn with
  | nil =>
    rw [List.length_nil, Nat.zero_div, Nat.zero_mod, BitVec.ushiftRight_zero]
    rfl
  | append_singleton os o ih =>
    rw [List.length_append, List.length_singleton] at h ⊢
    have hlt := Nat.mod_lt os.length hpos
    have hsplit := Nat.mod_add_div os.length period
    rw [run_append, ih (by omega)]
    show Transmitter.mk period (Frame.tick period _) = _
    unfold Frame.tick
    dsimp only
    by_cases hheld : os.length % period + 1 < period
    · -- The bit on the line is held for one more tick.
      obtain ⟨hbit, hticks⟩ : (os.length + 1) / period = os.length / period ∧
          (os.length + 1) % period = os.length % period + 1 :=
        (Nat.div_mod_unique hpos).2 ⟨by omega, hheld⟩
      rw [if_pos (by omega), hbit, hticks]
      rfl
    · -- The next bit begins; it is not past the stop bit.
      have hnext : os.length + 1 = period * (os.length / period + 1) := by
        rw [Nat.mul_add_one]
        omega
      have hbit : os.length / period + 1 < 10 := by
        rw [hnext, Nat.mul_comm] at h
        exact Nat.lt_of_mul_lt_mul_right h
      have hleft := Frame.bits_ofByte_shift_ne_zero period b hbit
      rw [if_neg (by omega), ← BitVec.shiftRight_add, if_neg hleft, hnext,
        Nat.mul_div_cancel_left _ hpos, Nat.mul_mod_right]
      rfl

/-- After ten periods nothing is left. -/
theorem run_sending_done (hpos : 0 < period) (h : os.length = 10 * period) :
    (sending period b).run os = ⟨period, none⟩ := by
  -- The last of these ticks finds the stop bit at the end of its period.
  obtain ⟨us, o, rfl⟩ : ∃ us o, os = us ++ [o] :=
    (List.eq_nil_or_concat' os).resolve_left (by rintro rfl; simp at h; omega)
  rw [List.length_append, List.length_singleton] at h
  obtain ⟨hbit, hticks⟩ : us.length / period = 9 ∧ us.length % period = period - 1 :=
    (Nat.div_mod_unique hpos).2 ⟨by omega, by omega⟩
  rw [run_append, run_sending hpos (by omega), hbit, hticks]
  show Transmitter.mk period (Frame.tick period _) = _
  unfold Frame.tick
  dsimp only
  rw [if_neg (by omega), ← BitVec.shiftRight_add, if_pos]
  exact BitVec.ushiftRight_eq_zero (Nat.le_refl 10)

end Transmitter

end Multicycle
