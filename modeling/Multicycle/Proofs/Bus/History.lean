/-
The bus over a whole history of transactions. Whatever it shows afterwards is the doing of one
transaction, the last of its kind: a lane of RAM holds what was last written to that lane, the lights
what was last written to them, and the value held is what the last read found at the time. The serial
device alone depends on all of its writes: its transmitter has been offered one byte for each.
-/
import Multicycle.Proofs.Bus.Select

namespace Multicycle

/-! ## Last transactions -/

/-- A history cut at its last transaction with `p`: what came before it, and the transaction. -/
def cutLast (p : Transaction → Bool) : List Transaction → Option (List Transaction × Transaction)
  | [] => none
  | t :: ts =>
    match cutLast p ts with
    | some (before, last) => some (t :: before, last)
    | none => if p t then some ([], t) else none

theorem cutLast_eq_none_iff {p : Transaction → Bool} {ts : List Transaction} :
    cutLast p ts = none ↔ ∀ t ∈ ts, p t = false := by
  induction ts with
  | nil => simp [cutLast]
  | cons t ts ih =>
    unfold cutLast
    cases h : cutLast p ts with
    | none =>
      have hts := ih.1 h
      simp only [List.mem_cons, forall_eq_or_imp]
      constructor
      · intro ht
        exact ⟨by simpa using ht, hts⟩
      · rintro ⟨ht, -⟩
        simp [ht]
    | some cut =>
      simp only [List.mem_cons, forall_eq_or_imp, reduceCtorEq, false_iff, not_and]
      intro _ hts
      rw [ih.2 hts] at h
      cases h

/-- What `cutLast` finds has `p`, and nothing after it has. -/
theorem cutLast_eq_some_iff {p : Transaction → Bool} {ts before : List Transaction}
    {t : Transaction} :
    cutLast p ts = some (before, t) ↔
      p t = true ∧ ∃ after, ts = before ++ t :: after ∧ ∀ u ∈ after, p u = false := by
  induction ts generalizing before with
  | nil => simp [cutLast]
  | cons u ts ih =>
    unfold cutLast
    constructor
    · intro h
      split at h
      · rename_i hcut
        cases h
        obtain ⟨hp, after, rfl, hafter⟩ := ih.1 hcut
        exact ⟨hp, after, rfl, hafter⟩
      · rename_i hcut
        split at h
        · rename_i hu
          cases h
          exact ⟨hu, ts, rfl, cutLast_eq_none_iff.1 hcut⟩
        · cases h
    · rintro ⟨hp, after, hts, hafter⟩
      cases before with
      | nil =>
        cases hts
        rw [cutLast_eq_none_iff.2 hafter]
        exact if_pos hp
      | cons v before =>
        cases hts
        rw [ih.2 ⟨hp, after, rfl, hafter⟩]

/-! ## Runs -/

namespace Bus

def run (b : Bus) (ts : List Transaction) : Bus := ts.foldl tick b

@[simp] theorem run_nil (b : Bus) : b.run [] = b := rfl

theorem run_cons (b : Bus) (t : Transaction) (ts : List Transaction) :
    b.run (t :: ts) = (b.tick t).run ts := rfl

theorem run_append (b : Bus) (ts us : List Transaction) : b.run (ts ++ us) = (b.run ts).run us :=
  List.foldl_append

@[simp] theorem size_run (b : Bus) (ts : List Transaction) : (b.run ts).ram.size = b.ram.size := by
  induction ts generalizing b with
  | nil => rfl
  | cons t ts ih => rw [run_cons, ih, size_tick]

@[simp] theorem ioBit_run (b : Bus) (ts : List Transaction) : (b.run ts).ioBit = b.ioBit := by
  induction ts generalizing b with
  | nil => rfl
  | cons t ts ih => rw [run_cons, ih, ioBit_tick]

theorem size_sent_run (b : Bus) (ts : List Transaction) :
    b.page.serial.sent.size ≤ (b.run ts).page.serial.sent.size := by
  induction ts generalizing b with
  | nil => exact Nat.le_refl _
  | cons t ts ih => exact Nat.le_trans (b.size_sent_tick t).1 (ih (b.tick t))

/-- What a transaction with `p` sets and every other one keeps was set by the last one with `p`. -/
theorem run_last {α : Type} (g : Bus → α) (p : Transaction → Bool) (v : Bus → Transaction → α)
    (b : Bus) (ts : List Transaction)
    (step : ∀ before t, g ((b.run before).tick t) =
      if p t then v (b.run before) t else g (b.run before)) :
    g (b.run ts) = match cutLast p ts with
      | some (before, t) => v (b.run before) t
      | none => g b := by
  induction ts generalizing b with
  | nil => rfl
  | cons t ts ih =>
    -- The last one is in the tail, or it is the first, or there is none.
    rw [run_cons, ih (b.tick t) fun before u => step (t :: before) u]
    cases h : cutLast p ts with
    | some cut => simp only [cutLast, h, run_cons]
    | none =>
      have htick : g (b.tick t) = if p t then v b t else g b := step [] t
      simp only [cutLast, h, htick]
      cases p t <;> rfl

theorem byte_run (b : Bus) (ts : List Transaction) {i k : Nat} (hi : i < b.ram.size) (hk : k < 4) :
    ((b.run ts).ram.read i).byte k = match cutLast (·.writesLane b.ioBit i k) ts with
      | some (_, t) => t.data.byte k
      | none => (b.ram.read i).byte k := by
  refine run_last (fun b => (b.ram.read i).byte k) _ (fun _ t => t.data.byte k) b ts ?_
  intro before t
  rw [byte_tick _ _ (by rwa [size_run]) hk, ioBit_run]

theorem leds_run (b : Bus) (ts : List Transaction) :
    (b.run ts).page.leds.value = match cutLast (·.writesLights b.ioBit) ts with
      | some (_, t) => t.data
      | none => b.page.leds.value := by
  refine run_last (fun b => b.page.leds.value) _ (fun _ t => t.data) b ts ?_
  intro before t
  rw [leds_tick, ioBit_run]

theorem readData_run (b : Bus) (ts : List Transaction) :
    (b.run ts).readData = match cutLast (·.read) ts with
      | some (before, t) => (b.run before).wordAt t.address
      | none => b.readData :=
  run_last (fun b => b.readData) _ (fun b t => b.wordAt t.address) b ts
    fun before t => readData_tick (b.run before) t

/-- Behind its registers the transmitter has been offered one byte, or none, for each tick. -/
theorem serial_run {b : Bus} (h : b.page.serial.pending = none) (ts : List Transaction) :
    (b.run ts).page.serial =
      ⟨b.page.serial.transmitter.run (ts.map (·.offer b.ioBit)), none,
        b.page.serial.sent ++
          (b.page.serial.transmitter.taken (ts.map (·.offer b.ioBit))).toArray⟩ := by
  induction ts generalizing b with
  | nil =>
    show b.page.serial = ⟨b.page.serial.transmitter, none, b.page.serial.sent ++ #[]⟩
    rw [Array.append_empty, ← h]
  | cons t ts ih =>
    -- Nothing is left over after a tick, so the next one begins as this one did.
    have htick := serial_tick h t
    have hnone : (b.tick t).page.serial.pending = none := by rw [htick]
    rw [run_cons, ih hnone, htick, ioBit_tick]
    simp only [List.map_cons, Transmitter.taken, Array.append_assoc, List.append_toArray]
    rfl

/-! ## Histories without a write -/

theorem ram_run_of_reads (b : Bus) {ts : List Transaction} (h : ∀ t ∈ ts, t.write = false) :
    (b.run ts).ram = b.ram := by
  induction ts generalizing b with
  | nil => rfl
  | cons t ts ih =>
    rw [run_cons, ih _ fun u hu => h u (List.mem_cons_of_mem _ hu)]
    exact ram_tick_of_read b (h t (List.mem_cons_self ..))

theorem leds_run_of_reads (b : Bus) {ts : List Transaction} (h : ∀ t ∈ ts, t.write = false) :
    (b.run ts).page.leds.value = b.page.leds.value := by
  have hcut : cutLast (·.writesLights b.ioBit) ts = none := by
    rw [cutLast_eq_none_iff]
    intro t ht
    rw [Transaction.writesLights, h t ht, Bool.false_and]
  rw [leds_run, hcut]

/-- Without a write the transmitter is clocked with nothing offered. -/
theorem serial_run_of_reads {b : Bus} (hnone : b.page.serial.pending = none)
    {ts : List Transaction} (h : ∀ t ∈ ts, t.write = false) :
    (b.run ts).page.serial =
      ⟨b.page.serial.transmitter.run (List.replicate ts.length none), none, b.page.serial.sent⟩ := by
  have hoffers : ts.map (·.offer b.ioBit) = List.replicate ts.length none := by
    rw [List.eq_replicate_iff, List.length_map]
    refine ⟨rfl, fun o ho => ?_⟩
    obtain ⟨t, ht, rfl⟩ := List.mem_map.1 ho
    rw [Transaction.offer, h t ht, Bool.false_and]
    rfl
  rw [serial_run hnone, hoffers, Transmitter.taken_replicate_none, Array.append_empty]

end Bus

/-! ## Histories from reset -/

/-- What a history makes of a fresh bus with `ramWords` words that start with `image`. -/
structure Bus.Recounts (ramWords ioBit period : Nat) (image : List Word) (start : Bus)
    (ts : List Transaction) : Prop where
  size : (start.run ts).ram.size = ramWords
  lanes : ∀ i < ramWords, ∀ k < 4, ((start.run ts).ram.read i).byte k =
    match cutLast (·.writesLane ioBit i k) ts with
    | some (_, t) => t.data.byte k
    | none => (image[i]?.getD 0).byte k
  lights : (start.run ts).page.leds.value = match cutLast (·.writesLights ioBit) ts with
    | some (_, t) => t.data
    | none => 0
  offered : ∀ before t after, ts = before ++ t :: after →
    ((start.run before).writtenPage t).serial.pending = t.offer ioBit
  transmitter : (start.run ts).page.serial.transmitter =
    (Transmitter.idle period).run (ts.map (·.offer ioBit))
  sent : (start.run ts).page.serial.sent.toList =
    (Transmitter.idle period).taken (ts.map (·.offer ioBit))
  held : (start.run ts).readData = match cutLast (·.read) ts with
    | some (before, t) => (start.run before).wordAt t.address
    | none => 0

theorem Ram.ofImage_eq_ok {capacity : Nat} {image : List Word} (h : image.length ≤ capacity) :
    ∃ ram, Ram.ofImage capacity image = .ok ram ∧ ram.size = capacity ∧
      ∀ i, ram.read i = image[i]?.getD 0 := by
  refine ⟨_, if_pos h, ?_, fun i => ?_⟩
  · simp only [Ram.size, List.size_toArray, List.length_append, List.length_replicate]
    omega
  · simp only [Ram.read, List.getElem?_toArray, List.getElem?_append, List.getElem?_replicate]
    by_cases hi : i < image.length
    · rw [if_pos hi]
    · rw [if_neg hi, List.getElem?_eq_none (by omega)]
      split <;> rfl

/-- For every size of RAM, I/O bit, bit period and fitting image, and every history of transactions:
each lane of RAM holds its last write, the lights theirs, the transmitter is offered exactly the
bytes written to its data register, and the value held is what the last read found just before its
tick. -/
theorem Bus.recounts_run {ramWords ioBit : Nat} (period : Nat) {image : List Word}
    (hbit : ioBit < 32) (hfit : image.length ≤ ramWords) :
    ∃ ram, Ram.ofImage ramWords image = .ok ram ∧
      ∀ ts, Bus.Recounts ramWords ioBit period image (.ofRam ram ioBit period) ts := by
  obtain ⟨ram, hram, hsize, hread⟩ := Ram.ofImage_eq_ok hfit
  refine ⟨ram, hram, fun ts => ?_⟩
  have hio : (Bus.ofRam ram ioBit period).ioBit.val = ioBit := Nat.mod_eq_of_lt hbit
  have hnone : (Bus.ofRam ram ioBit period).page.serial.pending = none := rfl
  have hserial := fun us => Bus.serial_run hnone us
  rw [hio] at hserial
  refine ⟨?_, fun i hi k hk => ?_, ?_, fun before t after _ => ?_, ?_, ?_, ?_⟩
  · rw [Bus.size_run]
    exact hsize
  · rw [Bus.byte_run _ _ (hsize.symm ▸ hi) hk, hio, ← hread i]
    rfl
  · rw [Bus.leds_run, hio]
    rfl
  · rw [Bus.pending_writtenPage, hserial, Bus.ioBit_run, hio, Option.or_none]
  · rw [hserial]
    rfl
  · rw [hserial]
    simp [Bus.ofRam, Page.idle, Serial.idle]
  · exact Bus.readData_run _ _

/-- A write to two of four lanes, a write to all registers of the page at once that also reads there,
and a read of the status. -/
theorem Bus.recounts_run_overlapping :
    22 < 32 ∧ [0x33#32].length ≤ 2 ∧
      ∃ ram, Ram.ofImage 2 [0x33] = .ok ram ∧
        let b := (Bus.ofRam ram 22 12).run
          [.writing 4 0x44332211 0b0101, ⟨0x40001c, true, true, 0x1234, 0⟩, .reading 0x400010]
        b.ram.size = 2 ∧ (b.ram.read 1).byte 2 = 0x33 ∧ (b.ram.read 1).byte 3 = 0 ∧
          b.page.leds.value = 0x1234 ∧ b.page.serial.sent.toList = [0x34] ∧ b.readData = 0x200 := by
  obtain ⟨ram, hram, h⟩ := Bus.recounts_run 12 (show 22 < 32 by decide)
    (show [0x33#32].length ≤ 2 by decide)
  have hlast := h [.writing 4 0x44332211 0b0101, ⟨0x40001c, true, true, 0x1234, 0⟩,
    .reading 0x400010]
  refine ⟨by decide, by decide, ram, hram, hlast.size, ?_, ?_, ?_, ?_, ?_⟩
  · exact hlast.lanes 1 (by decide) 2 (by decide)
  · exact hlast.lanes 1 (by decide) 3 (by decide)
  · exact hlast.lights
  · exact hlast.sent
  · have hbusy := (h [.writing 4 0x44332211 0b0101, ⟨0x40001c, true, true, 0x1234, 0⟩]).transmitter
    refine hlast.held.trans ?_
    show Bus.wordAt _ 0x400010 = 0x200
    rw [Bus.wordAt, hbusy, Bus.ioBit_run, show (Bus.ofRam ram 22 12).ioBit.val = 22 from rfl]
    rfl

end Multicycle
