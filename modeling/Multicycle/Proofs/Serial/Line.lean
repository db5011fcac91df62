/-
The serial line heard from outside. A receiver that samples the line once a tick looks for a start
bit, reads the frame behind it in the middle of each bit and goes on from the middle of the stop bit.
It hears the bytes that the transmitter has taken, all of them and nothing else, however long the
line is idle between two frames and whatever is offered during one; only of a frame that is still
being sent it may not have heard enough.
-/
import Multicycle.Proofs.Machine.Reach
import Multicycle.Proofs.Machine.Ticks
import Multicycle.Proofs.Serial.Frame

namespace Multicycle

/-! ## Receiver -/

namespace Receiver

/-- The sample in the middle of bit `k` of a frame whose start bit begins the samples. -/
def middle (period : Nat) (samples : List Bool) (k : Nat) : Option Bool :=
  samples[k * period + period / 2]?

/-- The eight bits after the start bit, the lowest first. -/
def data (period : Nat) (samples : List Bool) : Byte :=
  (BitVec.ofBoolListLE ((List.range 8).map fun k =>
    (middle period samples (k + 1)).getD false)).setWidth 8

/-- The bytes of all frames among the samples. A frame is looked for from a low sample on and counts
if its stop bit is high; what comes next is looked for from the middle of the stop bit on, which
stands so many samples after the low one. -/
def receive (period : Nat) : List Bool → List Byte
  | [] => []
  | true :: samples => receive period samples
  | false :: samples =>
    match middle period (false :: samples) 9 with
    | none => []
    | some stop =>
      (if stop then [data period (false :: samples)] else []) ++
        receive period (samples.drop (9 * period + period / 2 - 1))
  termination_by samples => samples.length
  decreasing_by all_goals simp only [List.length_cons, List.length_drop]; omega

/-- What is heard is what was sent, or all of it but the last byte, whose frame is then still on its
way. -/
def Hears (period : Nat) (samples : List Bool) (ready : Bool) (sent : List Byte) : Prop :=
  receive period samples = sent ∨
    ready = false ∧ ∃ b, sent = receive period samples ++ [b]

variable {period : Nat}

theorem receive_append_of_high {high samples : List Bool} (h : ∀ level ∈ high, level = true) :
    receive period (high ++ samples) = receive period samples := by
  induction high with
  | nil => rfl
  | cons level high ih =>
    obtain rfl := h level (List.mem_cons_self ..)
    rw [List.cons_append, receive]
    exact ih fun level hl => h level (List.mem_cons_of_mem _ hl)

/-- One more byte at the front, heard and sent. -/
theorem Hears.cons {samples samples' : List Bool} {ready : Bool} {sent : List Byte} {b : Byte}
    (h : Hears period samples ready sent)
    (hb : receive period samples' = b :: receive period samples) :
    Hears period samples' ready (b :: sent) := by
  rcases h with hall | ⟨hbusy, last, hmost⟩
  · left
    rw [hb, hall]
  · right
    refine ⟨hbusy, last, ?_⟩
    rw [hb, hmost]
    rfl

end Receiver

/-! ## Line of the transmitter -/

namespace Transmitter

/-- The level of the line after each tick. -/
def levels : Transmitter → List (Option Byte) → List Bool
  | _, [] => []
  | t, offer :: offers => (t.tick offer).line :: levels (t.tick offer) offers

theorem length_levels (t : Transmitter) (os : List (Option Byte)) :
    (t.levels os).length = os.length := by
  induction os generalizing t with
  | nil => rfl
  | cons o os ih => exact congrArg (· + 1) (ih (t.tick o))

theorem levels_append (t : Transmitter) (os us : List (Option Byte)) :
    t.levels (os ++ us) = t.levels os ++ (t.run os).levels us := by
  induction os generalizing t with
  | nil => rfl
  | cons o os ih => exact congrArg ((t.tick o).line :: ·) (ih (t.tick o))

theorem taken_append (t : Transmitter) (os us : List (Option Byte)) :
    t.taken (os ++ us) = t.taken os ++ (t.run os).taken us := by
  induction os generalizing t with
  | nil => rfl
  | cons o os ih =>
    show (t.accepts o).toList ++ (t.tick o).taken (os ++ us) = _
    rw [ih, ← List.append_assoc]
    rfl

theorem getElem?_levels (t : Transmitter) (o : Option Byte) {os : List (Option Byte)} {j : Nat}
    (hj : j ≤ os.length) :
    (t.levels (o :: os))[j]? = some ((t.tick o).run (os.take j)).line := by
  induction j generalizing t o os with
  | zero => rfl
  | succ j ih =>
    cases os with
    | nil => simp at hj
    | cons u os => exact ih (t.tick o) u (Nat.le_of_succ_le_succ hj)

/-- While a transmitter is busy it takes nothing. -/
theorem taken_of_busy {t : Transmitter} {os : List (Option Byte)}
    (h : ∀ i < os.length, (t.run (os.take i)).ready = false) : t.taken os = [] := by
  induction os generalizing t with
  | nil => rfl
  | cons o os ih =>
    have hbusy : t.ready = false := h 0 (Nat.succ_pos _)
    have hrest : (t.tick o).taken os = [] := ih fun i hi => h (i + 1) (Nat.succ_lt_succ hi)
    unfold taken
    rw [hrest, accepts, hbusy]
    rfl

/-! ## Line of a frame -/

variable {period : Nat} {b : Byte} {os : List (Option Byte)}

theorem tick_idle_some (period : Nat) (b : Byte) :
    (⟨period, none⟩ : Transmitter).tick (some b) = sending period b := rfl

theorem ready_run_sending (hpos : 0 < period) (h : os.length < 10 * period) :
    ((sending period b).run os).ready = false := by
  rw [run_sending hpos h]
  rfl

theorem taken_sending (hpos : 0 < period) (h : os.length ≤ 10 * period) :
    (sending period b).taken os = [] :=
  taken_of_busy fun i hi => ready_run_sending hpos (by rw [List.length_take]; omega)

/-- Bit `k` is on the line for `period` ticks, from the tick that takes the byte on. -/
theorem levels_frame (hpos : 0 < period) {k i : Nat} (hi : i < period) (hk : k < 10)
    (hlen : k * period + i ≤ os.length) :
    ((⟨period, none⟩ : Transmitter).levels (some b :: os))[k * period + i]? =
      some ((Frame.ofByte period b).bits.getLsbD k) := by
  have hshort : (os.take (k * period + i)).length = k * period + i := by
    rw [List.length_take]
    omega
  have hdiv : (k * period + i) / period = k := by
    rw [Nat.mul_comm, Nat.mul_add_div hpos, Nat.div_eq_of_lt hi, Nat.add_zero]
  have hbound : k * period + i < 10 * period := by nlinarith
  rw [getElem?_levels _ _ hlen, tick_idle_some, run_sending hpos (by rwa [hshort]), hshort, hdiv]
  simp [line]

/-- From the stop bit on the line is high, up to the tick on which the transmitter is ready. -/
theorem levels_after (hpos : 0 < period) {j : Nat} (hlo : 9 * period ≤ j) (hhi : j ≤ 10 * period)
    (hlen : j ≤ os.length) :
    ((⟨period, none⟩ : Transmitter).levels (some b :: os))[j]? = some true := by
  by_cases hdone : j = 10 * period
  · rw [getElem?_levels _ _ hlen, tick_idle_some,
      run_sending_done hpos (by rw [List.length_take]; omega)]
    rfl
  · obtain ⟨i, rfl⟩ := Nat.exists_eq_add_of_le hlo
    rw [levels_frame hpos (by omega) (by omega) hlen, Frame.getLsbD_bits_ofByte]
    rfl

theorem levels_some (period : Nat) (b : Byte) (os : List (Option Byte)) :
    (⟨period, none⟩ : Transmitter).levels (some b :: os) = false :: (sending period b).levels os := by
  show (sending period b).line :: _ = _
  congr 1
  exact Frame.getLsbD_bits_ofByte period b 0

/-- Each bit of a frame is found in its middle, whatever follows the frame. -/
theorem middle_frame (hpos : 0 < period) (hlo : 9 * period + period / 2 ≤ os.length)
    (rest : List Bool) {k : Nat} (hk : k < 10) :
    Receiver.middle period ((⟨period, none⟩ : Transmitter).levels (some b :: os) ++ rest) k =
      some ((Frame.ofByte period b).bits.getLsbD k) := by
  have hhalf : period / 2 < period := Nat.div_lt_self hpos (by decide)
  have hle : k * period + period / 2 ≤ os.length := by nlinarith
  unfold Receiver.middle
  rw [List.getElem?_append_left (by rw [length_levels, List.length_cons]; omega)]
  exact levels_frame hpos hhalf hk hle

theorem data_frame (hpos : 0 < period) (hlo : 9 * period + period / 2 ≤ os.length)
    (rest : List Bool) :
    Receiver.data period ((⟨period, none⟩ : Transmitter).levels (some b :: os) ++ rest) = b := by
  apply BitVec.eq_of_getLsbD_eq
  intro k hk
  unfold Receiver.data
  rw [BitVec.getLsbD_setWidth, BitVec.getLsbD_ofBoolListLE]
  simp [middle_frame hpos hlo rest (show k + 1 < 10 by omega), Frame.getLsbD_bits_ofByte, hk]

/-- From the middle of the stop bit on there is nothing low in what is left of the frame. -/
theorem high_after_stop (hpos : 0 < period) (hhi : os.length ≤ 10 * period) :
    ∀ level ∈ ((⟨period, none⟩ : Transmitter).levels (some b :: os)).drop
      (9 * period + period / 2), level = true := by
  intro level hl
  obtain ⟨j, hj⟩ := List.mem_iff_getElem?.1 hl
  rw [List.getElem?_drop] at hj
  have hin := (List.getElem?_eq_some_iff.1 hj).1
  rw [length_levels, List.length_cons] at hin
  rw [levels_after hpos (by omega) (by omega) (by omega)] at hj
  exact (Option.some.inj hj).symm

/-- A receiver that finds a whole frame up to the middle of its stop bit hears the byte, and then
what follows the frame. -/
theorem receive_frame (hpos : 0 < period) (hlo : 9 * period + period / 2 ≤ os.length)
    (hhi : os.length ≤ 10 * period) (rest : List Bool) :
    Receiver.receive period ((⟨period, none⟩ : Transmitter).levels (some b :: os) ++ rest) =
      b :: Receiver.receive period rest := by
  have hdata := data_frame (b := b) hpos hlo rest
  have hstop := middle_frame (b := b) hpos hlo rest (show 9 < 10 by decide)
  have hhigh := high_after_stop (b := b) hpos hhi
  obtain ⟨n, hn⟩ : ∃ n, 9 * period + period / 2 = n + 1 :=
    Nat.exists_eq_add_one.2 (by omega)
  rw [Frame.getLsbD_bits_ofByte] at hstop
  rw [levels_some, hn, List.drop_succ_cons] at hhigh
  rw [levels_some, List.cons_append] at hstop hdata
  rw [levels_some, List.cons_append, Receiver.receive, hstop, hdata, hn, Nat.add_sub_cancel,
    List.drop_append_of_le_length (by rw [length_levels]; omega),
    Receiver.receive_append_of_high hhigh]
  rfl

/-- Of a frame that is cut off before that nothing is heard. -/
theorem receive_frame_cut (h : os.length < 9 * period + period / 2) :
    Receiver.receive period ((⟨period, none⟩ : Transmitter).levels (some b :: os)) = [] := by
  have hstop : Receiver.middle period (false :: (sending period b).levels os) 9 = none := by
    unfold Receiver.middle
    rw [List.getElem?_eq_none]
    rw [List.length_cons, length_levels]
    omega
  rw [levels_some, Receiver.receive, hstop]

/-! ## Whole runs -/

/-- The last frame of a run is still being sent. -/
theorem hears_last (hpos : 0 < period) (h : os.length < 10 * period) :
    Receiver.Hears period ((⟨period, none⟩ : Transmitter).levels (some b :: os))
      ((sending period b).run os).ready (b :: (sending period b).taken os) := by
  rw [taken_sending hpos h.le, ready_run_sending hpos h]
  by_cases hmiddle : 9 * period + period / 2 ≤ os.length
  · left
    have hframe := receive_frame (b := b) hpos hmiddle h.le []
    rw [List.append_nil] at hframe
    rw [hframe, Receiver.receive]
  · right
    rw [receive_frame_cut (by omega)]
    exact ⟨rfl, b, rfl⟩

/-- A frame that is sent in full is heard, and then all begins anew. -/
theorem hears_first (hpos : 0 < period) {us vs : List (Option Byte)} (hus : us.length = 10 * period)
    (h : Receiver.Hears period ((⟨period, none⟩ : Transmitter).levels vs)
      ((⟨period, none⟩ : Transmitter).run vs).ready ((⟨period, none⟩ : Transmitter).taken vs)) :
    Receiver.Hears period ((⟨period, none⟩ : Transmitter).levels (some b :: (us ++ vs)))
      ((sending period b).run (us ++ vs)).ready (b :: (sending period b).taken (us ++ vs)) := by
  have hdone := run_sending_done (b := b) hpos hus
  have hfirst : (⟨period, none⟩ : Transmitter).run (some b :: us) = ⟨period, none⟩ := hdone
  rw [run_append, hdone, taken_append, taken_sending hpos hus.le, hdone, List.nil_append]
  apply h.cons
  rw [← List.cons_append, levels_append, hfirst]
  exact receive_frame hpos (by omega) hus.le _

theorem hears_levels (hpos : 0 < period) (os : List (Option Byte)) :
    Receiver.Hears period ((⟨period, none⟩ : Transmitter).levels os)
      ((⟨period, none⟩ : Transmitter).run os).ready ((⟨period, none⟩ : Transmitter).taken os) := by
  induction hn : os.length using Nat.strong_induction_on generalizing os with
  | _ n ih =>
    rcases os with _ | ⟨o | b, os⟩
    · exact .inl (Receiver.receive.eq_1 period)
    · -- The line stays high and the transmitter as it is.
      have hrest := ih os.length (by rw [← hn, List.length_cons]; omega) os rfl
      have hlevels : (⟨period, none⟩ : Transmitter).levels (none :: os) =
          [true] ++ (⟨period, none⟩ : Transmitter).levels os := rfl
      unfold Receiver.Hears
      rw [hlevels, Receiver.receive_append_of_high (by simp)]
      exact hrest
    · rcases Nat.lt_or_ge os.length (10 * period) with hshort | hlong
      · exact hears_last hpos hshort
      · obtain ⟨us, vs, hus, rfl⟩ : ∃ us vs, us.length = 10 * period ∧ os = us ++ vs :=
          ⟨os.take (10 * period), os.drop (10 * period), by simp [hlong],
            (List.take_append_drop ..).symm⟩
        have hshorter : vs.length < n := by
          rw [← hn, List.length_cons, List.length_append]
          omega
        exact hears_first hpos hus (ih vs.length hshorter vs rfl)

end Transmitter

/-! ## Buses and machines -/

namespace Bus

/-- The level of the serial line after each tick. -/
def levels : Bus → List Transaction → List Bool
  | _, [] => []
  | b, t :: ts => (b.tick t).page.serial.transmitter.line :: levels (b.tick t) ts

theorem levels_eq {b : Bus} (h : b.page.serial.pending = none) (ts : List Transaction) :
    b.levels ts = b.page.serial.transmitter.levels (ts.map (·.offer b.ioBit)) := by
  induction ts generalizing b with
  | nil => rfl
  | cons t ts ih =>
    have htick := serial_tick h t
    have hnone : (b.tick t).page.serial.pending = none := by rw [htick]
    unfold levels
    rw [ih hnone, htick, ioBit_tick]
    rfl

theorem hears_run (ram : Ram) (ioBit period : Nat) (ts : List Transaction) :
    let b := Bus.ofRam ram ioBit period
    Receiver.Hears (max period 1) (b.levels ts) (b.run ts).page.serial.transmitter.ready
      (b.run ts).page.serial.sent.toList := by
  intro b
  have hnone : b.page.serial.pending = none := rfl
  have hsent : (b.run ts).page.serial.sent.toList =
      b.page.serial.transmitter.taken (ts.map (·.offer b.ioBit)) := by
    rw [serial_run hnone]
    show (#[] ++ (_ : List Byte).toArray).toList = _
    rw [Array.empty_append, List.toList_toArray]
  rw [levels_eq hnone, hsent, serial_run hnone]
  exact Transmitter.hears_levels (Nat.le_max_right ..) _

end Bus

namespace Machine

/-- The level of the serial line after each of `n` ticks. -/
def levels : Nat → Machine → List Bool
  | 0, _ => []
  | n + 1, m => m.tick.bus.page.serial.transmitter.line :: levels n m.tick

theorem levels_eq (m : Machine) (n : Nat) : m.levels n = m.bus.levels (m.requests n) := by
  induction n generalizing m with
  | zero => rfl
  | succ n ih => exact congrArg (m.tick.bus.page.serial.transmitter.line :: ·) (ih m.tick)

end Machine

/-- For every bit period, zero counting as one, and every history of a fresh bus, so in every run of
a machine too, a receiver on the serial line hears the bytes that were sent, in order. If the history
ends in the middle of a frame, it may miss the byte of that frame. -/
theorem Receiver.hears_sent :
    (∀ (ram : Ram) (ioBit period : Nat) (ts : List Transaction),
      let b := Bus.ofRam ram ioBit period
      Hears (max period 1) (b.levels ts) (b.run ts).page.serial.transmitter.ready
        (b.run ts).page.serial.sent.toList) ∧
    ∀ (s : Settings) (image : List Word) (m : Machine), Machine.build s image = .ok m → ∀ n,
      ∃ period, s.period = .ok period ∧ 0 < period ∧
        Hears period (m.levels n) (Machine.tick^[n] m).bus.page.serial.transmitter.ready
          (Machine.tick^[n] m).bus.page.serial.sent.toList := by
  refine ⟨Bus.hears_run, fun s image m h n => ?_⟩
  obtain ⟨period, ram, -, hperiod, -, rfl⟩ := Machine.of_build_eq_ok h
  have hpos := Settings.period_pos hperiod
  refine ⟨period, hperiod, hpos, ?_⟩
  have heard := Bus.hears_run ram s.ioSelectBit period (Machine.requests n
    ⟨.reset, .ofRam ram s.ioSelectBit period, {}, s.tickLimit⟩)
  rw [Nat.max_eq_left (show 1 ≤ period from hpos)] at heard
  rw [Machine.levels_eq, Machine.bus_tick_iterate]
  exact heard

/-- A program that sends a letter and, while that is on its way, another one in vain; and a byte of
zeros with the next one close behind it, at the shortest period. -/
theorem Receiver.hears_sent_once :
    (∃ m, Machine.build { clockHz := 1, baudRate := 1, ramWords := 4 }
        [0x4000b7, 0x4100113, 0x208423, 0x208423] = .ok m ∧ receive 1 (m.levels 30) = [0x41]) ∧
      receive 1 ((Bus.ofRam ⟨#[]⟩ 22 0).levels
        (.writing 0x400008 0 0 :: List.replicate 10 (.writing 0x400008 0xff 0) ++
          .writing 0x400008 0xaa 0 :: List.replicate 10 .idle)) = [0, 0xaa] := by
  obtain ⟨hbus, hmachine⟩ := Receiver.hears_sent
  constructor
  · refine ⟨_, rfl, ?_⟩
    obtain ⟨period, hperiod, -, hheard⟩ := hmachine
      { clockHz := 1, baudRate := 1, ramWords := 4 }
      [0x4000b7, 0x4100113, 0x208423, 0x208423] _ rfl 30
    obtain rfl : 1 = period := Except.ok.inj hperiod
    rcases hheard with hall | ⟨hbusy, -⟩
    · exact hall.trans (by decide)
    · exact absurd hbusy (by decide)
  · rcases hbus ⟨#[]⟩ 22 0 _ with hall | ⟨hbusy, -⟩
    · exact hall.trans (by decide)
    · exact absurd hbusy (by decide)

end Multicycle
