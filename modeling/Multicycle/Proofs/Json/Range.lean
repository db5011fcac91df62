/-
Which numbers lie in the range of a double: all that have no exponent and at most three hundred digits.
A double made from a number is not much larger than it, since rounding raises the exponent by at most
one.
-/
import Multicycle.Proofs.Json.Numbers

namespace Multicycle

/-! ## Rounding -/

theorem roundDiv_le {num den c : Nat} (h : num < c * den) : roundDiv num den ≤ c := by
  have hq : num / den < c := Nat.div_lt_of_lt_mul (by rwa [Nat.mul_comm])
  unfold roundDiv
  dsimp only
  split <;> omega

namespace Binary64

/-- Where a quotient of less than 53 bits is rounded, there are at most 53 bits, and the exponent is
at most one higher. -/
theorem nearestAt_le {num den : Nat} {e : Int}
    (h : num <<< (-e).toNat < (1 <<< 53) * (den <<< e.toNat)) :
    (nearestAt num den e).significand ≤ 1 <<< 53 ∧ (nearestAt num den e).exponent ≤ e + 1 := by
  have hround := roundDiv_le h
  unfold nearestAt
  dsimp only
  split
  · exact ⟨(by decide : 1 <<< 52 ≤ 1 <<< 53), Int.le_refl _⟩
  · exact ⟨hround, by dsimp only; omega⟩

theorem nearest_le {num den : Nat} (hnum : num ≠ 0) (hden : den ≠ 0) :
    (nearest num den).significand ≤ 1 <<< 53 ∧
      (nearest num den).exponent ≤ (Nat.log2 num : Int) - Nat.log2 den - 51 := by
  have hhigh : num < 2 ^ (num.log2 + 1) := Nat.lt_log2_self
  have hlow : 2 ^ den.log2 ≤ den := Nat.log2_self_le hden
  unfold nearest
  rw [if_neg hnum]
  dsimp only
  generalize he : (num.log2 : Int) - den.log2 - 52 = e
  split
  · rename_i hsmall
    have hfits : num <<< (-(e - 1)).toNat < (1 <<< 53) * (den <<< (e - 1).toNat) := by
      simp only [Nat.shiftLeft_eq] at hsmall ⊢
      -- One of the two shifts is none, and the other one is off by one.
      obtain ⟨ha, hb⟩ | ⟨ha, hb⟩ : ((-(e - 1)).toNat = (-e).toNat + 1 ∧ (e - 1).toNat = e.toNat) ∨
          ((-(e - 1)).toNat = (-e).toNat ∧ e.toNat = (e - 1).toNat + 1) := by omega
      · rw [ha, hb, Nat.pow_succ]
        linarith
      · rw [hb, Nat.pow_succ] at hsmall
        rw [ha]
        linarith
    obtain ⟨hs, he'⟩ := nearestAt_le hfits
    exact ⟨hs, by omega⟩
  · have hfits : num <<< (-e).toNat < (1 <<< 53) * (den <<< e.toNat) := by
      calc num <<< (-e).toNat = num * 2 ^ (-e).toNat := Nat.shiftLeft_eq ..
        _ < 2 ^ (num.log2 + 1) * 2 ^ (-e).toNat :=
          Nat.mul_lt_mul_of_pos_right hhigh (Nat.two_pow_pos _)
        _ = 2 ^ (num.log2 + 1 + (-e).toNat) := (Nat.pow_add ..).symm
        _ = 2 ^ (53 + (den.log2 + e.toNat)) := by
          congr 1
          omega
        _ = 2 ^ 53 * (2 ^ den.log2 * 2 ^ e.toNat) := by rw [Nat.pow_add, Nat.pow_add]
        _ ≤ 2 ^ 53 * (den * 2 ^ e.toNat) :=
          Nat.mul_le_mul_left _ (Nat.mul_le_mul_right _ hlow)
        _ = (1 <<< 53) * (den <<< e.toNat) := by rw [Nat.shiftLeft_eq, Nat.shiftLeft_eq, Nat.one_mul]
    obtain ⟨hs, he'⟩ := nearestAt_le hfits
    exact ⟨hs, by omega⟩

theorem ofNat_le {n : Nat} (h : n ≠ 0) :
    (ofNat n).significand ≤ 1 <<< 53 ∧ (ofNat n).exponent ≤ (Nat.log2 n : Int) - 51 := by
  obtain ⟨hs, he⟩ := nearest_le h Nat.one_ne_zero
  rw [show Nat.log2 1 = 0 by decide] at he
  exact ⟨hs, he.trans (by omega)⟩

/-- The product of two numbers far below the largest double is a double. -/
theorem isFinite_mul_ofNat {a b k : Nat} (hk : k ≤ 1000) (h : a * b < 2 ^ k) :
    ((ofNat a).mul (ofNat b)).isFinite = true := by
  unfold isFinite mul
  rw [decide_eq_true_eq]
  dsimp only
  generalize hx : ofNat a = x
  generalize hy : ofNat b = y
  generalize he : x.exponent + y.exponent = e
  by_cases hzero : (x.significand * y.significand) <<< e.toNat = 0
  · rw [hzero, nearest, if_pos rfl]
    decide
  · have ha : a ≠ 0 := by
      rintro rfl
      rw [← hx] at hzero
      exact hzero (by simp [ofNat, nearest])
    have hb : b ≠ 0 := by
      rintro rfl
      rw [← hy] at hzero
      exact hzero (by simp [ofNat, nearest])
    obtain ⟨hxs, hxe⟩ := ofNat_le ha
    obtain ⟨hys, hye⟩ := ofNat_le hb
    rw [hx] at hxs hxe
    rw [hy] at hys hye
    have hden : 1 <<< (-e).toNat ≠ 0 := by simp [Nat.shiftLeft_eq]
    obtain ⟨-, hexponent⟩ := nearest_le hzero hden
    have hlogs : a.log2 + b.log2 < k := by
      refine (Nat.pow_lt_pow_iff_right (a := 2) (by decide)).1 (Nat.lt_of_le_of_lt ?_ h)
      rw [Nat.pow_add]
      exact Nat.mul_le_mul (Nat.log2_self_le ha) (Nat.log2_self_le hb)
    have hnum : ((x.significand * y.significand) <<< e.toNat).log2 < 107 + e.toNat := by
      rw [Nat.log2_lt hzero, Nat.shiftLeft_eq, Nat.pow_add]
      refine Nat.mul_lt_mul_of_pos_right ?_ (Nat.two_pow_pos _)
      exact Nat.lt_of_le_of_lt (Nat.mul_le_mul hxs hys) (by decide)
    have hdenlog : (1 <<< (-e).toNat).log2 = (-e).toNat := by
      rw [Nat.shiftLeft_eq, Nat.one_mul, Nat.log2_two_pow]
    rw [hdenlog] at hexponent
    omega

end Binary64

namespace Json

namespace Number

/-- The digits that are read are those that the number has. -/
theorem leading_lt {acc k : Nat} {ds : List Char} (hacc : acc < 10 ^ k)
    (hds : ∀ c ∈ ds, c.isDigit = true) :
    (leading acc ds).2.length ≤ ds.length ∧
      (leading acc ds).1 < 10 ^ (k + (ds.length - (leading acc ds).2.length)) := by
  induction ds generalizing acc k with
  | nil => exact ⟨Nat.le_refl _, hacc⟩
  | cons d ds ih =>
    rw [leading]
    split
    · have hd : d.toNat - 48 ≤ 9 := by
        have := (Char.isDigit_iff_toNat.1 (hds d List.mem_cons_self)).2
        have : '9'.toNat = 57 := rfl
        omega
      have hnext : 10 * acc + (d.toNat - 48) < 10 ^ (k + 1) := by
        rw [Nat.pow_succ]
        omega
      obtain ⟨hle, hlt⟩ := ih hnext fun c hc => hds c (List.mem_cons_of_mem _ hc)
      refine ⟨Nat.le_succ_of_le hle, ?_⟩
      rw [List.length_cons, Nat.sub_add_comm hle]
      rwa [Nat.add_right_comm, Nat.add_assoc k] at hlt
    · exact ⟨Nat.le_refl _, by simpa using hacc⟩

theorem scaledFinite_of_lt {significand k : Nat} {e : Int} (hsignificand : significand < 10 ^ k)
    (hrange : k + e ≤ 300) : scaledFinite significand e = true := by
  unfold scaledFinite
  by_cases he : e ≤ 0
  · simp [he]
  · have hthree : 10 ^ 3 ≤ 2 ^ 10 := by decide
    obtain ⟨n, hn, hdigits⟩ : ∃ n ≤ 100, k + e.toNat ≤ 3 * n := ⟨100, by omega⟩
    have hproduct : significand * 10 ^ e.toNat < 2 ^ (10 * n) := by
      calc significand * 10 ^ e.toNat < 10 ^ k * 10 ^ e.toNat :=
            Nat.mul_lt_mul_of_pos_right hsignificand (Nat.pow_pos (by decide))
        _ = 10 ^ (k + e.toNat) := (Nat.pow_add ..).symm
        _ ≤ 10 ^ (3 * n) := Nat.pow_le_pow_right (by decide) hdigits
        _ = (10 ^ 3) ^ n := Nat.pow_mul ..
        _ ≤ (2 ^ 10) ^ n := Nat.pow_le_pow_left hthree n
        _ = 2 ^ (10 * n) := (Nat.pow_mul ..).symm
    have hfinite := Binary64.isFinite_mul_ofNat (by omega) hproduct
    have hrange' : e ≤ 308 := by omega
    simp only [Bool.or_eq_true, Bool.and_eq_true, decide_eq_true_eq]
    exact .inr ⟨hrange', hfinite⟩

end Number

/-- A number without an exponent and with at most 300 digits is in range. -/
theorem Numeric.isFinite_number {w : Numeric} (hexponent : w.number.exponent = none)
    (hshort : w.number.whole.length + (w.number.fraction.getD []).length ≤ 300) :
    w.number.isFinite = true := by
  have hfraction : ∀ c ∈ w.number.fraction.getD [], c.isDigit = true := by
    intro c hc
    cases h : w.number.fraction with
    | none =>
      rw [h] at hc
      cases hc
    | some ds =>
      rw [h] at hc
      exact (w.fraction ds h).isDigit c hc
  obtain ⟨hdropped, hhigh⟩ := Number.leading_lt (show 0 < 10 ^ 0 by decide) w.whole.isDigit
  obtain ⟨hunread, hlow⟩ := Number.leading_lt hhigh hfraction
  unfold Number.isFinite
  rw [hexponent]
  refine Number.scaledFinite_of_lt hlow ?_
  dsimp only
  omega

end Json

end Multicycle
