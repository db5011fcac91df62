/-
The transmitter told from the ticks on which it has taken bytes. A frame keeps it busy for ten bit
periods, so a byte is taken just if none has been taken in the ten periods before; and how long ago the
last one was taken says whether the transmitter is ready and which bit of the frame is on the line.
What is offered in the meantime makes no difference.
-/
import Multicycle.Proofs.Serial.Frame

namespace Multicycle

/-- The levels of the frame of a byte, in the order in which they are sent: the start bit, the data bits
from the lowest on, the stop bit. -/
def Byte.frame (b : Byte) : List Bool := false :: (List.range 8).map b.getLsbD ++ [true]

theorem Byte.getElem?_frame (period : Nat) (b : Byte) {k : Nat} (hk : k < 10) :
    b.frame[k]? = some ((Frame.ofByte period b).bits.getLsbD k) := by
  rw [Frame.getLsbD_bits_ofByte]
  interval_cases k <;> rfl

namespace Transmitter

variable {t : Transmitter} {os : List (Option Byte)} {b : Byte}

/-! ## Ticks -/

@[simp] theorem period_tick (t : Transmitter) (o : Option Byte) : (t.tick o).period = t.period := by
  unfold tick
  split <;> rfl

@[simp] theorem period_run (t : Transmitter) (os : List (Option Byte)) :
    (t.run os).period = t.period := by
  induction os generalizing t with
  | nil => rfl
  | cons o os ih => exact (ih (t.tick o)).trans (period_tick t o)

theorem eq_of_ready (h : t.ready = true) : t = ⟨t.period, none⟩ := by
  obtain ⟨period, frame⟩ := t
  cases frame with
  | none => rfl
  | some f => cases h

/-- A busy transmitter does not look at what it is offered. -/
theorem tick_of_busy (h : t.ready = false) (o u : Option Byte) : t.tick o = t.tick u := by
  obtain ⟨period, frame⟩ := t
  cases frame with
  | none => cases h
  | some f => rfl

theorem accepts_eq_some_iff {o : Option Byte} :
    t.accepts o = some b ↔ t.ready = true ∧ o = some b := by
  unfold accepts
  cases t.ready <;> simp

/-! ## Bytes taken -/

/-- What is offered on tick `j`; the ticks of a run are counted from one. -/
def offeredOn (os : List (Option Byte)) : Nat → Option Byte
  | 0 => none
  | j + 1 => os[j]?.join

/-- The byte taken on tick `j`, if one is. -/
def takenOn (t : Transmitter) (os : List (Option Byte)) (j : Nat) : Option Byte :=
  (t.run (os.take (j - 1))).accepts (offeredOn os j)

theorem takenOn_zero (t : Transmitter) (os : List (Option Byte)) : t.takenOn os 0 = none :=
  accepts_none _

theorem takenOn_succ (t : Transmitter) (os : List (Option Byte)) (j : Nat) :
    t.takenOn os (j + 1) = (t.run (os.take j)).accepts os[j]?.join := rfl

theorem takenOn_eq_some_iff {j : Nat} :
    t.takenOn os j = some b ↔ (t.run (os.take (j - 1))).ready = true ∧ offeredOn os j = some b :=
  accepts_eq_some_iff

theorem offeredOn_eq_some {j : Nat} (h : offeredOn os j = some b) :
    ∃ i, ∃ hi : i < os.length, j = i + 1 ∧ os[i] = some b := by
  cases j with
  | zero => cases h
  | succ i =>
    obtain ⟨hi, ho⟩ := List.getElem?_eq_some_iff.1 (Option.join_eq_some_iff.1 h)
    exact ⟨i, hi, rfl, ho⟩

theorem takenOn_of_length_lt {j : Nat} (hj : os.length < j) : t.takenOn os j = none := by
  by_contra hsome
  obtain ⟨b, hb⟩ := Option.ne_none_iff_exists'.1 hsome
  obtain ⟨i, hi, rfl, -⟩ := offeredOn_eq_some (takenOn_eq_some_iff.1 hb).2
  omega

/-- What is taken on a tick does not depend on later ones. -/
theorem takenOn_take {j n : Nat} (hj : j ≤ n) : t.takenOn (os.take n) j = t.takenOn os j := by
  cases j with
  | zero => rfl
  | succ j =>
    rw [takenOn_succ, takenOn_succ, List.take_take, Nat.min_eq_left (Nat.le_of_succ_le hj),
      List.getElem?_take_of_lt hj]

/-- On earlier ones it depends through the transmitter only. -/
theorem takenOn_drop (t : Transmitter) (os : List (Option Byte)) (n j : Nat) :
    (t.run (os.take n)).takenOn (os.drop n) (j + 1) = t.takenOn os (n + (j + 1)) := by
  show _ = t.takenOn os (n + j + 1)
  rw [takenOn_succ, takenOn_succ, ← run_append, ← List.take_add, List.getElem?_drop]

theorem run_take_succ (t : Transmitter) {j : Nat} (hj : j < os.length) :
    t.run (os.take (j + 1)) = (t.run (os.take j)).tick os[j] := by
  rw [List.take_add_one, List.getElem?_eq_getElem hj, run_append]
  rfl

theorem run_take_of_taken {k : Nat} (h : t.takenOn os k = some b) :
    t.run (os.take k) = sending t.period b := by
  obtain ⟨hready, hoffered⟩ := takenOn_eq_some_iff.1 h
  obtain ⟨j, hj, rfl, ho⟩ := offeredOn_eq_some hoffered
  rw [Nat.add_sub_cancel] at hready
  rw [run_take_succ t hj, ho, eq_of_ready hready, period_run]
  rfl

/-- A ready transmitter that takes nothing stays as it is. -/
theorem run_of_untaken (hready : t.ready = true) (h : ∀ j, t.takenOn os j = none) : t.run os = t := by
  induction os with
  | nil => rfl
  | cons o os ih =>
    -- It has been offered nothing, for it would have taken it.
    have hfirst : t.accepts o = none := h 1
    obtain rfl : o = none := by
      rwa [accepts, if_pos hready] at hfirst
    have htick : t.run [none] = t := tick_none_of_ready hready
    have hrest : ∀ j, t.takenOn os j = none := by
      intro j
      cases j with
      | zero => exact takenOn_zero t os
      | succ j =>
        have hlater := takenOn_drop t (none :: os) 1 j
        rw [h] at hlater
        rwa [← htick]
    show (t.tick none).run os = t
    rw [tick_none_of_ready hready, ih hrest]

/-! ## After the last byte -/

/-- As long as the frame of the last byte is sent, the run shows how far it is. -/
theorem run_of_last {k : Nat} (hpos : 0 < t.period) (hk : t.takenOn os k = some b)
    (hbusy : os.length - k < 10 * t.period) :
    t.run os = ⟨t.period, some ⟨(Frame.ofByte t.period b).bits >>> ((os.length - k) / t.period),
      t.period - (os.length - k) % t.period⟩⟩ := by
  rw [← List.length_drop] at hbusy ⊢
  rw [← run_sending hpos hbusy, ← run_take_of_taken hk, ← run_append, List.take_append_drop]

/-- Behind it the transmitter waits. -/
theorem run_of_last_over {k : Nat} (hpos : 0 < t.period) (hk : t.takenOn os k = some b)
    (hlast : ∀ j, k < j → t.takenOn os j = none) (hover : 10 * t.period ≤ os.length - k) :
    t.run os = ⟨t.period, none⟩ := by
  have hframe : ((os.drop k).take (10 * t.period)).length = 10 * t.period := by
    rw [List.length_take, List.length_drop]
    omega
  have hdone : t.run (os.take (k + 10 * t.period)) = ⟨t.period, none⟩ := by
    rw [List.take_add, run_append, run_take_of_taken hk, run_sending_done hpos hframe]
  have hrest : ∀ j, (t.run (os.take (k + 10 * t.period))).takenOn
      (os.drop (k + 10 * t.period)) j = none := by
    intro j
    cases j with
    | zero => exact takenOn_zero _ _
    | succ j =>
      rw [takenOn_drop]
      exact hlast _ (by omega)
  rw [← hdone, ← run_of_untaken (by rw [hdone]; rfl) hrest, ← run_append, List.take_append_drop]

/-- Of the bytes taken up to tick `n` there is a last one, if there is any. -/
theorem exists_last_taken (t : Transmitter) (os : List (Option Byte)) (n : Nat) :
    (∀ j ≤ n, t.takenOn os j = none) ∨
      ∃ k ≤ n, ∃ b, t.takenOn os k = some b ∧ ∀ j ≤ n, k < j → t.takenOn os j = none := by
  induction n with
  | zero =>
    refine .inl fun j hj => ?_
    rw [Nat.le_zero.1 hj, takenOn_zero]
  | succ n ih =>
    cases hnew : t.takenOn os (n + 1) with
    | some b => exact .inr ⟨n + 1, le_rfl, b, hnew, fun j hj hlt => absurd hlt hj.not_gt⟩
    | none =>
      rcases ih with hnone | ⟨k, hk, b, hb, hlast⟩
      · refine .inl fun j hj => ?_
        rcases Nat.le_or_eq_of_le_succ hj with hj | rfl
        · exact hnone j hj
        · exact hnew
      · refine .inr ⟨k, Nat.le_succ_of_le hk, b, hb, fun j hj hlt => ?_⟩
        rcases Nat.le_or_eq_of_le_succ hj with hj | rfl
        · exact hlast j hj hlt
        · exact hnew

/-! ## Readiness -/

/-- The transmitter is ready just if nothing has been taken in the last ten bit periods. -/
theorem ready_run_iff (hpos : 0 < t.period) (hready : t.ready = true) :
    (t.run os).ready = true ↔ ∀ i, os.length < i + 10 * t.period → t.takenOn os i = none := by
  rcases exists_last_taken t os os.length with hnone | ⟨k, hk, b, hb, hlast⟩
  · have hall : ∀ j, t.takenOn os j = none := by
      intro j
      rcases Nat.lt_or_ge os.length j with hj | hj
      · exact takenOn_of_length_lt hj
      · exact hnone j hj
    rw [run_of_untaken hready hall, hready]
    exact iff_of_true rfl fun i _ => hall i
  · have hafter : ∀ j, k < j → t.takenOn os j = none := by
      intro j hj
      rcases Nat.lt_or_ge os.length j with hlong | hlong
      · exact takenOn_of_length_lt hlong
      · exact hlast j hlong hj
    rcases Nat.lt_or_ge (os.length - k) (10 * t.period) with hbusy | hover
    · rw [run_of_last hpos hb hbusy]
      refine iff_of_false Bool.false_ne_true fun h => ?_
      rw [h k (by omega)] at hb
      cases hb
    · rw [run_of_last_over hpos hb hafter hover]
      exact iff_of_true rfl fun i hi => hafter i (by omega)

/-! ## Offers to a busy transmitter -/

/-- Two runs with the same offers on the ticks on which the transmitter is ready are the same. -/
theorem run_take_congr {us : List (Option Byte)} (hlen : us.length = os.length)
    (h : ∀ j, (t.run (os.take j)).ready = true → us[j]? = os[j]?) (j : Nat) :
    t.run (us.take j) = t.run (os.take j) := by
  induction j with
  | zero => rfl
  | succ j ih =>
    rcases Nat.lt_or_ge j os.length with hj | hj
    · rw [run_take_succ t hj, run_take_succ t (hlen ▸ hj), ih]
      cases hready : (t.run (os.take j)).ready with
      | false => exact tick_of_busy hready _ _
      | true =>
        have hoffer := h j hready
        rw [List.getElem?_eq_getElem hj, List.getElem?_eq_getElem (hlen ▸ hj)] at hoffer
        rw [Option.some.inj hoffer]
    · rw [List.take_of_length_le (Nat.le_succ_of_le hj),
        List.take_of_length_le (hlen ▸ Nat.le_succ_of_le hj)]
      rwa [List.take_of_length_le hj, List.take_of_length_le (hlen ▸ hj)] at ih

theorem takenOn_congr {us : List (Option Byte)} (hlen : us.length = os.length)
    (h : ∀ j, (t.run (os.take j)).ready = true → us[j]? = os[j]?) :
    t.takenOn us = t.takenOn os := by
  funext j
  cases j with
  | zero => rw [takenOn_zero, takenOn_zero]
  | succ j =>
    rw [takenOn_succ, takenOn_succ, run_take_congr hlen h]
    cases hready : (t.run (os.take j)).ready with
    | false => simp [accepts, hready]
    | true => rw [h j hready]

/-! ## Pace -/

/-- What the ticks on which bytes are taken tell of a run. -/
structure Paced (t : Transmitter) (os : List (Option Byte)) : Prop where
  takes : ∀ j b, offeredOn os j = some b →
    (t.takenOn os j = some b ↔ ∀ i < j, j ≤ i + 10 * t.period → t.takenOn os i = none)
  sends : ∀ k b, t.takenOn os k = some b → (∀ j, k < j → t.takenOn os j = none) →
    os.length - k < 10 * t.period →
      (t.run os).ready = false ∧ b.frame[(os.length - k) / t.period]? = some (t.run os).line
  waits : ∀ k b, t.takenOn os k = some b → (∀ j, k < j → t.takenOn os j = none) →
    10 * t.period ≤ os.length - k → (t.run os).ready = true ∧ (t.run os).line = true
  idles : (∀ j, t.takenOn os j = none) → (t.run os).ready = true ∧ (t.run os).line = true
  ignores : ∀ us, us.length = os.length →
    (∀ j, (t.run (os.take j)).ready = true → us[j]? = os[j]?) →
      t.run us = t.run os ∧ t.takenOn us = t.takenOn os

/-- For every bit period, zero counting as one, and every sequence of offers to an idle transmitter. A
byte offered on tick `j` is taken just if none was taken on the ten periods of ticks before. If the last
byte was taken on tick `k` of `n`, the transmitter is busy up to `n - k = 10 * period` and bit
`(n - k) / period` of the frame is on the line; from then on, and if no byte was taken at all, it is
ready and the line high. Whatever is offered on the ticks on which it is busy, the run is the same. -/
theorem paced_run (period : Nat) (os : List (Option Byte)) :
    (idle period).period = max period 1 ∧ (idle period).Paced os := by
  have hpos : 0 < (idle period).period := Nat.lt_of_lt_of_le Nat.one_pos (Nat.le_max_right period 1)
  have hready : (idle period).ready = true := rfl
  refine ⟨rfl, fun j b hoffered => ?_, fun k b hb hlast hbusy => ?_, fun k b hb hlast hover => ?_,
    fun hnone => ?_, fun us hlen h => ⟨?_, takenOn_congr hlen h⟩⟩
  · obtain ⟨n, hn, rfl, -⟩ := offeredOn_eq_some hoffered
    have hshort : (os.take n).length = n := by
      rw [List.length_take]
      omega
    rw [takenOn_eq_some_iff, and_iff_left hoffered, Nat.add_sub_cancel, ready_run_iff hpos hready,
      hshort]
    constructor
    · intro h i hi hwindow
      rw [← takenOn_take (Nat.le_of_lt_succ hi)]
      exact h i (by omega)
    · intro h i hwindow
      rcases Nat.lt_or_ge n i with hi | hi
      · exact takenOn_of_length_lt (by omega)
      · rw [takenOn_take hi]
        exact h i (by omega) (by omega)
  · have hbit : (os.length - k) / (idle period).period < 10 := by
      rwa [Nat.div_lt_iff_lt_mul hpos]
    rw [run_of_last hpos hb hbusy, Byte.getElem?_frame (idle period).period b hbit]
    exact ⟨rfl, by simp [line]⟩
  · rw [run_of_last_over hpos hb hlast hover]
    exact ⟨rfl, rfl⟩
  · rw [run_of_untaken hready hnone]
    exact ⟨rfl, rfl⟩
  · rw [← List.take_length (l := us), ← List.take_length (l := os), hlen]
    exact run_take_congr hlen h os.length

/-- At the shortest period a byte offered on the eleventh tick is still too early after one on the first,
and the next one is taken; after the eighth tick bit 6 of the first byte is on the line, after the
eleventh the transmitter is ready. -/
theorem paced_run_early :
    let os := some 0x41 :: List.replicate 9 none ++ [some 0x42, some 0x43]
    (idle 0).takenOn os 11 ≠ some 0x42 ∧ (idle 0).takenOn os 12 = some 0x43 ∧
      ((idle 0).run (os.take 8)).line = true ∧ ((idle 0).run (os.take 11)).ready = true := by
  intro os
  obtain ⟨-, hall⟩ := paced_run 0 os
  obtain ⟨-, hfirst⟩ := paced_run 0 (os.take 8)
  obtain ⟨-, hframe⟩ := paced_run 0 (os.take 11)
  have hlast : ∀ n ≤ 11, ∀ j, 1 < j → (idle 0).takenOn (os.take n) j = none := by
    intro n hn j hj
    rcases Nat.lt_or_ge n j with hlong | hlong
    · exact takenOn_of_length_lt (List.length_take_le n os |>.trans_lt hlong)
    · rw [takenOn_take hlong]
      have hle := hlong.trans hn
      interval_cases j <;> rfl
  refine ⟨fun h => ?_, (hall.takes 12 0x43 rfl).2 (by decide), ?_, ?_⟩
  · have hfree := (hall.takes 11 0x42 rfl).1 h 1 (by decide) (by decide)
    cases hfree
  · obtain ⟨-, hline⟩ := hfirst.sends 1 0x41 rfl (hlast 8 (by decide)) (by decide)
    exact Option.some.inj (hline.symm.trans (by decide))
  · exact (hframe.waits 1 0x41 rfl (hlast 11 (by decide)) (by decide)).1

end Transmitter

end Multicycle
