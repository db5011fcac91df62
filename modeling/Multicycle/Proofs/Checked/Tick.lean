/-
A tick of the whole machine with every step checked that can go wrong: those of the units and of the
bus, and besides them the numbers of registers, the count of the bytes sent during the tick, and the
counters, which are 64 bits wide. As long as the counters are not full, no reachable machine fails:
its checked tick is the tick itself.
-/
import Multicycle.Proofs.Checked.Bus
import Multicycle.Proofs.Machine.Reach
import Multicycle.Proofs.Machine.Ticks

namespace Multicycle

open Checked

/-! ## Core -/

namespace Core

def resultChecked (c : Core) : Checked (Option Word) := do
  match c.decoded.kind with
  | some .aluReg | some .aluImm => .ok (some (← c.decoded.aluResultChecked c.rs1 c.rs2))
  | _ => .ok c.result?

def executeChecked (c : Core) : Checked Step := do
  let result ← c.resultChecked
  let rd ← c.decoded.raw.registerAt 7
  .ok { c.execute with
    effects := c.nextPc?.toList.map .setPc ++ result.toList.map (.writeReg rd) }

/-- The step of a tick. The numbers of registers are taken from the word behind the latched fields. -/
def evaluateChecked (c : Core) (readData : Word) : Checked Step := do
  match c.phase with
  | .fetchInstr | .waitInstr | .load => .ok (c.evaluate readData)
  | .fetchRegs =>
    let rs1 ← c.decoded.raw.registerAt 15
    let rs2 ← c.decoded.raw.registerAt 20
    .ok { next := .execute, effects := [.latchOperands (c.registers.read rs1) (c.registers.read rs2)] }
  | .execute => c.executeChecked
  | .waitData =>
    let value ← loadValueChecked readData c.address c.decoded.funct3
    let rd ← c.decoded.raw.registerAt 7
    .ok { next := .fetchInstr, effects := [.writeReg rd value] }
  | .store =>
    let lanes ← storeLanesChecked c.rs2 c.address c.decoded.funct3
    .ok { next := .fetchInstr, request := .writing c.address lanes.data lanes.mask }

def applyChecked (c : Core) : Effect → Checked Core
  | .latchInstr word => do .ok { c with instr := word, decoded := ← Instr.decodeChecked word }
  | effect => .ok (c.apply effect)

def commitChecked (c : Core) (s : Step) : Checked Core := do
  let c ← s.effects.foldlM applyChecked c
  .ok { c with phase := s.next }

variable {c : Core}

theorem resultChecked_eq (c : Core) : c.resultChecked = .ok c.result? := by
  unfold resultChecked result? Instr.aluResultChecked Instr.aluResult
  simp only [AluOp.evalChecked_eq, ok_bind]
  cases c.decoded.kind with
  | none => rfl
  | some kind => cases kind <;> rfl

theorem evaluateChecked_eq (h : c.decoded = .decode c.instr) (readData : Word) :
    c.evaluateChecked readData = .ok (c.evaluate readData) := by
  obtain ⟨registers, pc, instr, decoded, rs1, rs2, phase⟩ := c
  obtain rfl : decoded = .decode instr := h
  have hregister : ∀ low < 32,
      (Instr.decode instr).raw.registerAt low = .ok (instr.extractLsb' low 5) :=
    fun _ hlow => Word.registerAt_eq instr hlow
  unfold evaluateChecked executeChecked
  rw [hregister 7 (by decide), hregister 15 (by decide), hregister 20 (by decide),
    resultChecked_eq, loadValueChecked_eq, storeLanesChecked_eq]
  cases phase <;> rfl

theorem applyChecked_eq (c : Core) (effect : Effect) : c.applyChecked effect = .ok (c.apply effect) := by
  cases effect with
  | latchInstr word =>
    simp only [applyChecked, Instr.decodeChecked_eq, ok_bind]
    rfl
  | _ => rfl

theorem commitChecked_eq (c : Core) (s : Step) : c.commitChecked s = .ok (c.commit s) := by
  have hfold : s.effects.foldlM applyChecked c = .ok (s.effects.foldl apply c) := by
    generalize s.effects = effects
    induction effects generalizing c with
    | nil => rfl
    | cons effect effects ih =>
      rw [List.foldlM_cons, applyChecked_eq, ok_bind, ih, List.foldl_cons]
  unfold commitChecked
  rw [hfold]
  rfl

/-- Whatever a step does, the fields latched are those of the word latched. -/
theorem decoded_commit (h : c.decoded = .decode c.instr) (s : Step) :
    (c.commit s).decoded = .decode (c.commit s).instr := by
  show (s.effects.foldl apply c).decoded = .decode (s.effects.foldl apply c).instr
  generalize s.effects = effects
  induction effects generalizing c with
  | nil => exact h
  | cons effect effects ih =>
    apply ih
    cases effect with
    | latchInstr word => rfl
    | _ => exact h

end Core

/-! ## Counters -/

namespace Tally

theorem forall_mem_toList {p : Nat → Prop} {t : Tally} :
    (∀ n ∈ t.toList, p n) ↔
      p t.ticks ∧ p t.instructions ∧ p t.alu ∧ p t.load ∧ p t.store ∧ p t.branchTaken ∧
        p t.branchNotTaken ∧ p t.jump ∧ p t.upper ∧ p t.system ∧ p t.undecoded ∧ p t.bytesSent := by
  simp [toList]

/-- No counter runs ahead of the ticks. -/
def Bounded (t : Tally) : Prop := ∀ n ∈ t.toList, n ≤ t.ticks

theorem bounded_empty : Bounded {} := forall_mem_toList.2 (by decide)

/-- An executed instruction raises no counter by more than one. -/
theorem Bounded.le_retire {t : Tally} (h : t.Bounded) (r : Option Retired) :
    ∀ n ∈ (t.retire r).toList, n ≤ t.ticks + 1 := by
  have h := forall_mem_toList.1 h
  rw [forall_mem_toList]
  rcases r with _ | ⟨pc, raw, kind, taken⟩
  · dsimp only [retire]
    omega
  · rcases kind with _ | kind
    · dsimp only [retire, record]
      omega
    · cases kind <;> cases taken <;>
        simp only [retire, record, if_true, Bool.false_eq_true, if_false] <;> omega

theorem Bounded.tick {t : Tally} (h : t.Bounded) (r : Option Retired) {sent : Nat} (hsent : sent ≤ 1) :
    Bounded { t.retire r with ticks := t.ticks + 1, bytesSent := t.bytesSent + sent } := by
  have hretire := forall_mem_toList.1 (h.le_retire r)
  have h := forall_mem_toList.1 h
  simp only [Bounded, forall_mem_toList]
  omega

end Tally

/-! ## Machine -/

namespace Machine

/-- The counters after a tick, which have to fit in 64 bits. -/
def tallyChecked (m : Machine) (s : Step) (bus : Bus) : Checked Tally := do
  let sent ← sub bus.page.serial.sent.size m.bus.page.serial.sent.size
  let t := { m.tally.retire s.retired with
    ticks := m.tally.ticks + 1
    bytesSent := m.tally.bytesSent + sent }
  if ∀ n ∈ t.toList, n < UInt64.size then .ok t else .error (.counter t.toList)

def tickChecked (m : Machine) : Checked Machine := do
  let s ← m.core.evaluateChecked m.bus.readData
  let bus ← m.bus.tickChecked s.request
  let tally ← m.tallyChecked s bus
  let core ← m.core.commitChecked s
  .ok { m with core, bus, tally }

def advanceChecked : Nat → Machine → Checked Machine
  | 0, m => .ok m
  | n + 1, m => if m.isHalted then .ok m else m.tickChecked >>= advanceChecked n

def runForChecked (n : Nat) (m : Machine) : Checked (Outcome × Machine) := do
  let m ← advanceChecked n m
  .ok (m.outcome, m)

/-- What keeps a tick from going wrong: latched fields that belong to the latched word, a bit on the
line that is still held, and counters that the ticks bound. -/
structure Guarded (m : Machine) : Prop where
  decoded : m.core.decoded = .decode m.core.instr
  steady : m.bus.page.serial.transmitter.Steady
  bounded : m.tally.Bounded

variable {m : Machine}

theorem Guarded.bounded_tick (h : m.Guarded) : m.tick.tally.Bounded := by
  have hsent := m.bus.size_sent_tick m.step.request
  rw [tally_tick]
  exact h.bounded.tick m.step.retired (Nat.sub_le_iff_le_add'.2 hsent.2)

theorem Guarded.tallyChecked_eq (h : m.Guarded) (hticks : m.tally.ticks + 1 < UInt64.size) :
    m.tallyChecked m.step (m.bus.tick m.step.request) = .ok m.tick.tally := by
  have hfits : ∀ n ∈ m.tick.tally.toList, n < UInt64.size := by
    intro n hn
    refine Nat.lt_of_le_of_lt (h.bounded_tick n hn) ?_
    rw [tally_tick]
    exact hticks
  unfold tallyChecked
  rw [sub_of_le (m.bus.size_sent_tick m.step.request).1, ok_bind]
  rw [tally_tick] at hfits ⊢
  exact if_pos hfits

/-- As long as the tick can be counted, it goes wrong nowhere. -/
theorem Guarded.tickChecked_eq (h : m.Guarded) (hticks : m.tally.ticks + 1 < UInt64.size) :
    m.tickChecked = .ok m.tick := by
  have hstep : m.core.evaluateChecked m.bus.readData = .ok m.step :=
    Core.evaluateChecked_eq h.decoded m.bus.readData
  unfold tickChecked
  rw [hstep, ok_bind, Bus.tickChecked_eq h.steady, ok_bind, h.tallyChecked_eq hticks, ok_bind,
    Core.commitChecked_eq, ok_bind]
  rfl

theorem Guarded.act (h : m.Guarded) (a : Action) : (m.act a).Guarded := by
  cases a with
  | tick =>
    exact ⟨Core.decoded_commit h.decoded _, Bus.steady_tick h.steady _, h.bounded_tick⟩
  | clockBus t => exact ⟨h.decoded, Bus.steady_tick h.steady t, h.bounded⟩
  | _ => exact ⟨h.decoded, h.steady, h.bounded⟩

theorem Reachable.guarded {s : Settings} {image : List Word} (h : Reachable s image m) :
    m.Guarded := by
  induction h with
  | built h =>
    obtain ⟨period, ram, -, -, -, rfl⟩ := of_build_eq_ok h
    refine ⟨rfl, ⟨?_, fun f hf => ?_⟩, Tally.bounded_empty⟩
    · exact Nat.lt_of_lt_of_le Nat.one_pos (Nat.le_max_right _ _)
    · cases hf
  | act _ a ih => exact ih.act a

/-! ## Runs -/

theorem ticks_tick (m : Machine) : m.tick.tally.ticks = m.tally.ticks + 1 := by
  rw [tally_tick]

variable {s : Settings} {image : List Word}

theorem Reachable.advance (h : Reachable s image m) (n : Nat) : Reachable s image (advance n m) := by
  induction n generalizing m with
  | zero => exact h
  | succ n ih =>
    unfold Machine.advance
    split
    · exact h
    · exact ih (h.act .tick)

theorem Reachable.advanceChecked_eq (h : Reachable s image m) {n : Nat}
    (hticks : m.tally.ticks + n < UInt64.size) : advanceChecked n m = .ok (Machine.advance n m) := by
  induction n generalizing m with
  | zero => rfl
  | succ n ih =>
    unfold advanceChecked Machine.advance
    split
    · rfl
    · rw [h.guarded.tickChecked_eq (by omega), ok_bind]
      refine ih (h.act .tick) ?_
      show m.tick.tally.ticks + n < UInt64.size
      rw [ticks_tick]
      omega

/-- Whatever has been done to a machine, as long as the ticks can be counted in 64 bits: its next
tick goes wrong nowhere, nor does a tick of the bus with any transaction, a write to RAM at any index,
or a run, which again leaves a machine to which all this applies. -/
theorem Reachable.unfailing (h : Reachable s image m) :
    (m.tally.ticks + 1 < UInt64.size → m.tickChecked = .ok m.tick) ∧
      (∀ t, m.bus.tickChecked t = .ok (m.bus.tick t)) ∧
      (∀ index data mask,
        m.bus.ram.writeChecked index data mask = .ok (m.bus.ram.write index data mask)) ∧
      ∀ n, Reachable s image (m.runFor n).2 ∧
        (m.tally.ticks + n < UInt64.size → m.runForChecked n = .ok (m.runFor n)) := by
  refine ⟨h.guarded.tickChecked_eq, fun t => Bus.tickChecked_eq h.guarded.steady t,
    Ram.writeChecked_eq m.bus.ram, fun n => ⟨h.advance n, fun hticks => ?_⟩⟩
  unfold runForChecked
  rw [h.advanceChecked_eq hticks]
  rfl

/-- An arithmetic shift by 15, fetched from an odd address while a byte that the host put on the bus
is being sent, after a write of the host past the end of RAM. -/
theorem unfailing_poked_shift :
    ∃ m, Reachable { ramWords := 1 } [0x40ffd093] m ∧ m.core.phase = .execute ∧
      m.bus.page.serial.transmitter.ready = false ∧ m.tally.ticks + 1 < UInt64.size ∧
      m.tickChecked = .ok m.tick ∧ m.tick.core.registers.read 1 = 0xffff0000 := by
  have hbuilt : Reachable { ramWords := 1 } [0x40ffd093]
      ⟨.reset, .ofRam ⟨#[0x40ffd093]⟩ 22 12, {}, 50000000⟩ := .built rfl
  have hpoked := (((hbuilt.act (.setRegister 31 0x80000000)).act (.setPc 3)).act
    (.writeRam 9 0x13 0xff)).act (.clockBus ⟨0x400008, true, true, 0x141, 0xff⟩)
  have hm := ((hpoked.act .tick).act .tick).act .tick
  refine ⟨_, hm, by decide, by decide, by decide, hm.unfailing.1 (by decide), by decide⟩

end Machine

end Multicycle
