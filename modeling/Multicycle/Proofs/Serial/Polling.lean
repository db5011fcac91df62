/-
Sending with and without waiting. What is written to the data register is taken if the transmitter is
ready just before the tick of the write, and lost otherwise. A ready transmitter stays ready up to the
next write to its data register; so whoever writes only after the status has read as zero, with no
other write to the register in between, loses no byte, however many ticks and whatever other traffic
lie between the read and the write.
-/
import Multicycle.Proofs.Bus.History
import Mathlib.Tactic

namespace Multicycle

namespace Bus

variable {b : Bus} {ts : List Transaction}

/-! ## Ticks of a history -/

/-- The bus just before tick `j` of a history. -/
def before (b : Bus) (ts : List Transaction) (j : Nat) : Bus := b.run (ts.take j)

theorem before_length (b : Bus) (ts : List Transaction) : b.before ts ts.length = b.run ts := by
  rw [before, List.take_length]

theorem before_append (b : Bus) (us : List Transaction) {j : Nat} (hj : j ≤ ts.length) :
    b.before (ts ++ us) j = b.before ts j := by
  rw [before, List.take_append_of_le_length hj, before]

theorem before_succ (b : Bus) {j : Nat} (hj : j < ts.length) :
    b.before ts (j + 1) = (b.before ts j).tick ts[j] := by
  rw [before, List.take_add_one, List.getElem?_eq_getElem hj, run_append]
  rfl

@[simp] theorem ioBit_before (b : Bus) (ts : List Transaction) (j : Nat) :
    (b.before ts j).ioBit = b.ioBit := ioBit_run b _

theorem pending_before (hnone : b.page.serial.pending = none) (ts : List Transaction) (j : Nat) :
    (b.before ts j).page.serial.pending = none := by
  rw [before, serial_run hnone]

/-! ## Bytes taken -/

/-- The byte that is taken on tick `j` of a history, given the transaction of that tick: the one
written to the data register, if the transmitter is ready just before. -/
def takenOn (b : Bus) (ts : List Transaction) : Transaction × Nat → Option Byte
  | (t, j) => if (b.before ts j).page.serial.transmitter.ready then t.offer b.ioBit else none

/-- What was taken on a tick does not depend on later ones. -/
theorem takenOn_append (b : Bus) (us : List Transaction) (t : Transaction) {j : Nat}
    (hj : j ≤ ts.length) : b.takenOn (ts ++ us) (t, j) = b.takenOn ts (t, j) := by
  rw [takenOn, takenOn, before_append b us hj]

theorem takenOn_length (b : Bus) (ts : List Transaction) (t : Transaction) :
    b.takenOn ts (t, ts.length) =
      (b.run ts).page.serial.transmitter.accepts (t.offer b.ioBit) := by
  rw [takenOn, before_length]
  rfl

/-- From any bus without a byte left waiting, what is sent grows by the bytes taken, tick by tick. -/
theorem sent_run_eq (hnone : b.page.serial.pending = none) (ts : List Transaction) :
    (b.run ts).page.serial.sent.toList =
      b.page.serial.sent.toList ++ ts.zipIdx.filterMap (b.takenOn ts) := by
  induction ts using List.reverseRecOn with
  | nil => simp
  | append_singleton ts t ih =>
    have hearlier : ts.zipIdx.filterMap (b.takenOn (ts ++ [t])) =
        ts.zipIdx.filterMap (b.takenOn ts) := by
      refine List.filterMap_congr fun (u, j) hj => ?_
      exact takenOn_append b [t] u (Nat.le_of_lt (List.snd_lt_of_mem_zipIdx hj))
    have hnew : [(t, ts.length)].filterMap (b.takenOn (ts ++ [t])) =
        ((b.run ts).page.serial.transmitter.accepts (t.offer b.ioBit)).toList := by
      rw [List.filterMap_cons, List.filterMap_nil, takenOn_append b [t] t (Nat.le_refl _),
        takenOn_length]
      cases (b.run ts).page.serial.transmitter.accepts (t.offer b.ioBit) <;> rfl
    have hpending : (b.run ts).page.serial.pending = none := by rw [serial_run hnone]
    have hrun : b.run (ts ++ [t]) = (b.run ts).tick t := run_append b ts [t]
    rw [hrun, serial_tick hpending, ioBit_run, Array.toList_append, List.toList_toArray,
      List.zipIdx_append, List.zipIdx_singleton, Nat.zero_add, List.filterMap_append, hearlier, hnew,
      ih, List.append_assoc]

/-! ## Readiness -/

/-- A ready transmitter is ready after the tick too, unless it is given a byte. -/
theorem ready_tick (hnone : b.page.serial.pending = none) {t : Transaction}
    (ht : t.offer b.ioBit = none) (h : b.page.serial.transmitter.ready = true) :
    (b.tick t).page.serial.transmitter.ready = true := by
  rw [serial_tick hnone, ht]
  show (b.page.serial.transmitter.tick none).ready = true
  rwa [Transmitter.tick_none_of_ready h]

/-- So it stays ready up to the next write to its data register. -/
theorem ready_before (hnone : b.page.serial.pending = none) {i j : Nat} (hij : i ≤ j)
    (hj : j ≤ ts.length) (hquiet : ∀ k, (hk : k < j) → i ≤ k → ts[k].offer b.ioBit = none)
    (h : (b.before ts i).page.serial.transmitter.ready = true) :
    (b.before ts j).page.serial.transmitter.ready = true := by
  induction j, hij using Nat.le_induction with
  | base => exact h
  | succ j hij ih =>
    have hready := ih (Nat.le_of_succ_le hj) fun k hk => hquiet k (Nat.lt_succ_of_lt hk)
    have hoffer := hquiet j (Nat.lt_succ_self j) hij
    rw [before_succ b hj]
    exact ready_tick (pending_before hnone ts j) (by rwa [ioBit_before]) hready

/-- A read of the status gives zero just if the transmitter is ready. -/
theorem readData_tick_eq_zero_iff (b : Bus) {t : Transaction} (ht : t.readsStatus b.ioBit = true) :
    (b.tick t).readData = 0 ↔ b.page.serial.transmitter.ready = true := by
  obtain ⟨hread, hselect⟩ := Bool.and_eq_true_iff.1 ht
  have hpage : t.address.getLsbD b.ioBit = true := by
    by_contra hbelow
    rw [Word.selects_of_below (Bool.eq_false_iff.2 hbelow)] at hselect
    cases hselect
  rw [readData_tick, if_pos hread, wordAt, hpage, hselect]
  cases b.page.serial.transmitter.ready with
  | true => exact iff_of_true rfl rfl
  | false => exact iff_of_false (show BitVec.twoPow 32 9 ≠ 0#32 by decide) Bool.false_ne_true

/-! ## Polling -/

/-- Before every write to the data register the status has been read as zero, with no write to the
data register on the tick of that read or since. -/
def Polled (b : Bus) (ts : List Transaction) : Prop :=
  ∀ j, (hj : j < ts.length) → ts[j].offer b.ioBit ≠ none →
    ∃ i, ∃ hi : i < j, ts[i].readsStatus b.ioBit = true ∧ (b.before ts (i + 1)).readData = 0 ∧
      ∀ k, (hk : k < j) → i ≤ k → ts[k].offer b.ioBit = none

instance (b : Bus) (ts : List Transaction) : Decidable (b.Polled ts) :=
  inferInstanceAs (Decidable (∀ j, (hj : j < ts.length) → ts[j].offer b.ioBit ≠ none →
    ∃ i, ∃ hi : i < j, ts[i].readsStatus b.ioBit = true ∧ (b.before ts (i + 1)).readData = 0 ∧
      ∀ k, (hk : k < j) → i ≤ k → ts[k].offer b.ioBit = none))

theorem Polled.ready (h : b.Polled ts) (hnone : b.page.serial.pending = none) {j : Nat}
    (hj : j < ts.length) (ht : ts[j].offer b.ioBit ≠ none) :
    (b.before ts j).page.serial.transmitter.ready = true := by
  obtain ⟨i, hij, hstatus, hzero, hquiet⟩ := h j hj ht
  rw [before_succ b (hij.trans hj), readData_tick_eq_zero_iff _ (by rwa [ioBit_before])] at hzero
  exact ready_before hnone hij.le hj.le hquiet hzero

/-- For every bit period and every history of a fresh bus: if it is polled, all bytes written to the
data register are sent, in the order of their ticks; and polled or not, no byte is missing but those
before whose tick the transmitter was busy. -/
theorem sent_of_polled (ram : Ram) (ioBit period : Nat) (ts : List Transaction) :
    let b := Bus.ofRam ram ioBit period
    (b.Polled ts → (b.run ts).page.serial.sent.toList = ts.filterMap (·.offer b.ioBit)) ∧
      (b.run ts).page.serial.sent.toList = ts.zipIdx.filterMap (b.takenOn ts) := by
  intro b
  have hnone : b.page.serial.pending = none := rfl
  have hsent := sent_run_eq hnone ts
  refine ⟨fun hpolled => ?_, hsent⟩
  have hall : ts.zipIdx.filterMap (b.takenOn ts) =
      ts.zipIdx.filterMap ((·.offer b.ioBit) ∘ Prod.fst) := by
    refine List.filterMap_congr fun (t, j) hj => ?_
    obtain ⟨hlt, rfl⟩ : ∃ hlt : j < ts.length, ts[j] = t :=
      List.getElem?_eq_some_iff.1 (List.mem_zipIdx_iff_getElem?.1 hj)
    rw [takenOn, Function.comp_apply]
    by_cases ht : ts[j].offer b.ioBit = none
    · rw [ht, ite_self]
    · rw [if_pos (hpolled.ready hnone hlt ht)]
  calc (b.run ts).page.serial.sent.toList
      = ts.zipIdx.filterMap ((·.offer b.ioBit) ∘ Prod.fst) := hsent.trans hall
    _ = (ts.zipIdx.map Prod.fst).filterMap (·.offer b.ioBit) := List.filterMap_map.symm
    _ = ts.filterMap (·.offer b.ioBit) := by rw [List.zipIdx_map_fst]

/-- Two letters at the shortest period: the second is written on the tick after the status has read as
zero again, with a write to the lights before the first. -/
theorem sent_of_polled_twice :
    let ts := [.reading 0x400010, .writing 0x400004 5 0, .writing 0x400008 0x141 0] ++
      List.replicate 11 (.reading 0x400010) ++ [.writing 0x400008 0x142 0]
    (Bus.ofRam ⟨#[]⟩ 22 0).Polled ts ∧
      ((Bus.ofRam ⟨#[]⟩ 22 0).run ts).page.serial.sent.toList = [0x41, 0x42] := by
  intro ts
  have hpolled : (Bus.ofRam ⟨#[]⟩ 22 0).Polled ts := by decide
  exact ⟨hpolled, (sent_of_polled ⟨#[]⟩ 22 0 ts).1 hpolled⟩

end Bus

end Multicycle
