/-
Runs with a budget of ticks. A halt is looked for before every tick and once more behind the last one,
so a run stops in the first of its states that is halted, be it the one that the last tick leads to,
and spends all its ticks if there is none. Hence a budget may be spent in parts, and a machine that has
halted is not ticked again.
-/
import Multicycle.Machine
import Mathlib.Logic.Function.Iterate
import Mathlib.Tactic

namespace Multicycle

namespace Machine

variable {m : Machine}

/-! ## Ticks of a run -/

theorem advance_of_halted (h : m.isHalted = true) (n : Nat) : advance n m = m := by
  cases n with
  | zero => rfl
  | succ n => exact if_pos h

theorem advance_succ_of_running (h : m.isHalted = false) (n : Nat) :
    advance (n + 1) m = advance n m.tick := by
  rw [advance, h]
  rfl

/-- As long as no halt is met, every tick is taken. -/
theorem advance_eq_iterate {n : Nat} (h : ∀ j < n, (tick^[j] m).isHalted = false) :
    advance n m = tick^[n] m := by
  induction n generalizing m with
  | zero => rfl
  | succ n ih =>
    have hfirst : m.isHalted = false := h 0 (Nat.succ_pos n)
    rw [advance_succ_of_running hfirst]
    exact ih fun j hj => h (j + 1) (Nat.succ_lt_succ hj)

/-- A budget may be spent in two parts. -/
theorem advance_add (a b : Nat) (m : Machine) : advance (a + b) m = advance b (advance a m) := by
  induction a generalizing m with
  | zero =>
    rw [Nat.zero_add]
    rfl
  | succ a ih =>
    rw [Nat.add_right_comm]
    cases h : m.isHalted with
    | true => rw [advance_of_halted h, advance_of_halted h, advance_of_halted h]
    | false => rw [advance_succ_of_running h, advance_succ_of_running h, ih]

/-- Once a halt is met, no more ticks are taken. -/
theorem advance_eq_iterate_of_halted {n k : Nat} (hk : k ≤ n) (h : (tick^[k] m).isHalted = true)
    (hfirst : ∀ j < k, (tick^[j] m).isHalted = false) : advance n m = tick^[k] m := by
  obtain ⟨rest, rfl⟩ := Nat.exists_eq_add_of_le hk
  rw [advance_add, advance_eq_iterate hfirst, advance_of_halted h]

/-! ## Outcomes -/

theorem outcome_of_halted (h : m.isHalted = true) :
    m.outcome = .halted m.core.pc m.tally.ticks := if_pos h

theorem outcome_of_running (h : m.isHalted = false) : m.outcome = .outOfTicks := by
  rw [outcome, h]
  rfl

theorem runFor_eq (n : Nat) (m : Machine) : m.runFor n = ((advance n m).outcome, advance n m) := rfl

theorem runFor_add (a b : Nat) (m : Machine) : m.runFor (a + b) = (m.runFor a).2.runFor b := by
  rw [runFor_eq, advance_add]
  rfl

/-- A log is kept beside a run and does not change it. -/
theorem runLogged_eq (n : Nat) (m : Machine) :
    ((m.runLogged n).1, (m.runLogged n).2.1) = m.runFor n := by
  rw [runFor_eq, ← advanceLogged_fst n m #[]]
  rfl

/-- From any state and for any budget: a run stops in the first halted state that the budget reaches,
and reports its program counter and its ticks; if there is none it has spent the whole budget. A budget
spent in two parts leads to the same state and the same outcome, with a log or without; and a halted
machine stays as it is. -/
theorem runFor_stops (m : Machine) (n : Nat) :
    (∀ k ≤ n, (tick^[k] m).isHalted = true → (∀ j < k, (tick^[j] m).isHalted = false) →
        m.runFor n = (.halted (tick^[k] m).core.pc (tick^[k] m).tally.ticks, tick^[k] m)) ∧
      ((∀ k ≤ n, (tick^[k] m).isHalted = false) → m.runFor n = (.outOfTicks, tick^[n] m)) ∧
      (∀ a b, m.runFor (a + b) = (m.runFor a).2.runFor b) ∧
      ((m.runLogged n).1, (m.runLogged n).2.1) = m.runFor n ∧
      (m.isHalted = true → m.runFor n = (.halted m.core.pc m.tally.ticks, m)) := by
  refine ⟨fun k hk h hfirst => ?_, fun h => ?_, fun a b => runFor_add a b m, runLogged_eq n m,
    fun h => ?_⟩
  · rw [runFor_eq, advance_eq_iterate_of_halted hk h hfirst, outcome_of_halted h]
  · rw [runFor_eq, advance_eq_iterate fun j hj => h j hj.le, outcome_of_running (h n n.le_refl)]
  · rw [runFor_eq, advance_of_halted h, outcome_of_halted h]

/-- A system instruction behind an addition: the seventh tick leads to its halt, and a budget of seven
finds it, a budget of six does not; the last tick may also be taken by itself. -/
theorem runFor_stops_last_tick :
    ∃ m, build { ramWords := 2 } [0x00500093, 0x00000073] = .ok m ∧
      (m.runFor 7).1 = .halted 4 7 ∧ (m.runFor 6).1 = .outOfTicks ∧
      (m.runFor 6).2.runFor 1 = m.runFor 7 ∧
      (tick^[7] m).runFor 100 = (.halted 4 7, tick^[7] m) := by
  refine ⟨_, rfl, ?_, ?_, ?_, ?_⟩
  · rw [(runFor_stops _ 7).1 7 (by decide) (by decide) (by decide)]
    rfl
  · rw [(runFor_stops _ 6).2.1 (by decide)]
  · exact ((runFor_stops _ 7).2.2.1 6 1).symm
  · rw [(runFor_stops _ 100).2.2.2.2 (by decide)]
    rfl

end Machine

end Multicycle
