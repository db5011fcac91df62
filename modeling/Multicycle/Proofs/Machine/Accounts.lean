/-
The counters of a machine against each other. Every executed instruction stands under exactly one
head, every byte sent is counted, and the ticks are those that the executed instructions take, but for
the instruction under way: how far that one has come is told by the phase alone. An instruction is
counted in EXECUTE, before the access that it may still have to make, so that in the phases of an
access the ticks are behind.
-/
import Multicycle.Proofs.Machine.Reach
import Multicycle.Proofs.Machine.Ticks

namespace Multicycle

/-! ## Ticks that are due -/

/-- How many ticks there are in a phase beyond those that the executed instructions take. -/
def Phase.lead : Phase → Int
  | fetchInstr => 0
  | waitInstr => 1
  | fetchRegs => 2
  | execute => 3
  | load => -2
  | waitData => -1
  | store => -1

namespace Tally

/-- The ticks that the executed instructions take: four each, two more for a load and one more for a
store. -/
def due (t : Tally) : Nat := 4 * t.instructions + 2 * t.load + t.store

/-- Every executed instruction is counted under exactly one head. -/
def Itemised (t : Tally) : Prop :=
  t.instructions = t.alu + t.load + t.store + t.branchTaken + t.branchNotTaken + t.jump + t.upper +
    t.system + t.undecoded

theorem Itemised.record {t : Tally} (h : t.Itemised) (kind : Option Kind) (taken : Bool) :
    (t.record kind taken).Itemised := by
  unfold Itemised at h
  rcases kind with _ | kind
  · simp only [Itemised, Tally.record]
    omega
  · cases kind <;> cases taken <;>
      simp only [Itemised, Tally.record, if_true, Bool.false_eq_true, if_false] <;> omega

theorem Itemised.retire {t : Tally} (h : t.Itemised) (r : Option Retired) :
    (t.retire r).Itemised := by
  cases r with
  | none => exact h
  | some r => exact h.record r.kind r.taken

end Tally

namespace Core

/-- In EXECUTE the instruction becomes due as a whole, so that an access is then still to be made up
for. -/
theorem due_execute (c : Core) (t : Tally) :
    ((t.retire c.execute.retired).due : Int) + c.execute.next.lead = t.due + 4 := by
  show ((t.record c.decoded.kind (c.decoded.is .branch && c.comparison)).due : Int) +
    c.afterExecute.lead = t.due + 4
  generalize (c.decoded.is .branch && c.comparison) = taken
  unfold afterExecute
  rcases c.decoded.kind with _ | kind
  · simp only [Tally.record, Tally.due, Phase.lead]
    omega
  · cases kind <;> cases taken <;>
      simp only [Tally.record, Tally.due, Phase.lead, if_true, Bool.false_eq_true, if_false] <;>
      omega

/-- A tick makes up for one tick, or makes so many more due. -/
theorem due_evaluate (c : Core) (readData : Word) (t : Tally) :
    ((t.retire (c.evaluate readData).retired).due : Int) + (c.evaluate readData).next.lead =
      t.due + c.phase.lead + 1 := by
  unfold evaluate
  cases c.phase with
  | execute =>
    show ((t.retire c.execute.retired).due : Int) + c.execute.next.lead = t.due + 3 + 1
    rw [c.due_execute t]
    omega
  | fetchInstr => show (t.due : Int) + 1 = t.due + 0 + 1; omega
  | waitInstr => show (t.due : Int) + 2 = t.due + 1 + 1; omega
  | fetchRegs => show (t.due : Int) + 3 = t.due + 2 + 1; omega
  | load => show (t.due : Int) + -1 = t.due + -2 + 1; omega
  | waitData => show (t.due : Int) + 0 = t.due + -1 + 1; omega
  | store => show (t.due : Int) + 0 = t.due + -1 + 1; omega

end Core

namespace Machine

variable {m : Machine}

/-! ## Accounts of a machine -/

/-- What the counters of a machine say of each other, of its output and of its phase. -/
structure Accounted (m : Machine) : Prop where
  itemised : m.tally.Itemised
  sent : m.tally.bytesSent = m.bus.page.serial.sent.size
  ticks : (m.tally.ticks : Int) = m.tally.due + m.core.phase.lead

theorem accounted_tick (h : m.Accounted) : m.tick.Accounted := by
  have hphase : m.tick.core.phase = m.step.next := rfl
  have hdue := m.core.due_evaluate m.bus.readData m.tally
  have hgrow := (m.bus.size_sent_tick m.step.request).1
  refine ⟨?_, ?_, ?_⟩
  · rw [tally_tick]
    exact h.itemised.retire m.step.retired
  · rw [tally_tick, h.sent]
    exact Nat.add_sub_cancel' hgrow
  · rw [tally_tick, hphase]
    show ((m.tally.ticks + 1 : Nat) : Int) = (m.tally.retire m.step.retired).due + m.step.next.lead
    have hticks := h.ticks
    unfold step
    omega

theorem accounted_tick_iterate (h : m.Accounted) (n : Nat) : (tick^[n] m).Accounted := by
  induction n generalizing m with
  | zero => exact h
  | succ n ih => exact ih (accounted_tick h)

theorem accounted_advance (h : m.Accounted) (n : Nat) : (advance n m).Accounted := by
  induction n generalizing m with
  | zero => exact h
  | succ n ih =>
    unfold advance
    split
    · exact h
    · exact ih (accounted_tick h)

theorem accounted_of_build {s : Settings} {image : List Word} (h : build s image = .ok m) :
    m.Accounted := by
  obtain ⟨period, ram, -, -, -, rfl⟩ := of_build_eq_ok h
  exact ⟨rfl, rfl, rfl⟩

/-- A run that stops at a halt reports its ticks: those that are due, and the three that lead to
EXECUTE of the system instruction. -/
theorem Accounted.of_halted (h : m.Accounted) {budget ticks : Nat} {pc : Word} {m' : Machine}
    (hrun : m.runFor budget = (.halted pc ticks, m')) : ticks = m'.tally.due + 3 := by
  obtain ⟨houtcome, rfl⟩ := Prod.mk.inj hrun
  have hticks := (accounted_advance h budget).ticks
  unfold outcome at houtcome
  split at houtcome
  · rename_i hhalted
    cases houtcome
    obtain ⟨hp, -⟩ := (isHalted_iff _).1 hhalted
    rw [hp] at hticks
    exact Int.ofNat_inj.1 hticks
  · cases houtcome

/-- For all accepted settings, every image that fits and every number of ticks: the heads add up to
the instructions, the bytes counted are those sent, and the ticks are those due and what the phase
adds. So a run from there that halts has taken the ticks due and three more. -/
theorem accounted_run {s : Settings} {image : List Word} (h : build s image = .ok m) (n : Nat) :
    (tick^[n] m).Accounted ∧ ∀ budget pc ticks m',
      (tick^[n] m).runFor budget = (.halted pc ticks, m') ∨
          (tick^[n] m).run = (.halted pc ticks, m') →
        ticks = m'.tally.due + 3 := by
  have haccounted := accounted_tick_iterate (accounted_of_build h) n
  refine ⟨haccounted, fun budget pc ticks m' hrun => ?_⟩
  rcases hrun with hrun | hrun
  · exact haccounted.of_halted hrun
  · exact haccounted.of_halted hrun

/-- A load and a store, each of which is waited for, before the instruction that halts. -/
theorem accounted_run_accesses :
    ∃ m m', build { ramWords := 4 } [0xc02083, 0x102623, 0x73] = .ok m ∧
      m.runFor 100 = (.halted 8 14, m') ∧ m'.tally.due = 11 := by
  refine ⟨_, _, rfl, rfl, ?_⟩
  obtain ⟨-, hhalted⟩ := accounted_run
    (show build { ramWords := 4 } [0xc02083, 0x102623, 0x73] = .ok _ from rfl) 0
  have hticks : 11 + 3 = _ + 3 := hhalted 100 8 14 _ (.inl rfl)
  exact (Nat.add_right_cancel hticks).symm

end Machine

end Multicycle
