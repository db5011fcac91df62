/-
What the latches of the core hold while the machine ticks by itself. Each is loaded in one phase and
relied on in a later one: the word fetched is still the word in RAM when it is executed, the operands
are still those of the register file when they are used, and the word that a load has found is still
there when it is written back. So each phase has an assertion of its own, and a tick leads from that
of one phase to that of the next.
-/
import Multicycle.Proofs.Machine.Reach
import Multicycle.Proofs.Machine.Ticks

namespace Multicycle

/-! ## Words found -/

/-- A read of `a` may have found the word `w`: in RAM the word that is there, on the page nothing but
perhaps the busy flag. -/
def Bus.MayFind (b : Bus) (a w : Word) : Prop :=
  if a.getLsbD b.ioBit then w = 0 ∨ w = BitVec.twoPow 32 9 else w = b.ram.read (a.toNat / 4)

namespace Bus

variable {b : Bus} {a w : Word} {t : Transaction}

theorem mayFind_wordAt (b : Bus) (a : Word) : b.MayFind a (b.wordAt a) := by
  unfold MayFind wordAt
  split
  · split
    · exact .inr rfl
    · exact .inl rfl
  · rfl

/-- It stays there as long as nothing is written. -/
theorem MayFind.tick (h : b.MayFind a w) (ht : t.write = false) : (b.tick t).MayFind a w := by
  unfold MayFind at h ⊢
  rwa [ioBit_tick, ram_tick_of_read b ht]

theorem mayFind_reading (b : Bus) (a : Word) :
    (b.tick (.reading a)).MayFind a (b.tick (.reading a)).readData := by
  rw [readData_tick]
  exact (b.mayFind_wordAt a).tick rfl

theorem MayFind.eq_read (h : b.MayFind a w) (ha : a.getLsbD b.ioBit = false) :
    w = b.ram.read (a.toNat / 4) := by
  unfold MayFind at h
  rwa [ha] at h

end Bus

/-! ## Phases -/

namespace Core

/-- The operand latches hold what the register file holds. -/
def OperandsLatched (c : Core) : Prop :=
  c.rs1 = c.registers.read c.decoded.rs1 ∧ c.rs2 = c.registers.read c.decoded.rs2

/-- What can be relied on in each phase. -/
def HoldsIn (c : Core) (b : Bus) : Phase → Prop
  | .fetchInstr => True
  | .waitInstr => b.MayFind c.pc b.readData
  | .fetchRegs => c.instr = b.readData ∧ b.MayFind c.pc c.instr
  | .execute => c.instr = b.readData ∧ b.MayFind c.pc c.instr ∧ c.OperandsLatched
  | .load => c.decoded.kind = some .load ∧ c.OperandsLatched
  | .waitData =>
    c.decoded.kind = some .load ∧ c.OperandsLatched ∧ b.MayFind c.address b.readData
  | .store => c.decoded.kind = some .store ∧ c.OperandsLatched

structure Latched (c : Core) (b : Bus) : Prop where
  decoded : c.decoded = .decode c.instr
  zero : c.registers.cell 0 = 0
  holds : c.HoldsIn b c.phase

/-- Where EXECUTE leads to an access, it writes no register. -/
theorem afterExecute_cases (c : Core) :
    c.afterExecute = .fetchInstr ∨ c.result? = none ∧
      (c.afterExecute = .load ∧ c.decoded.kind = some .load ∨
        c.afterExecute = .store ∧ c.decoded.kind = some .store) := by
  unfold afterExecute result?
  rcases c.decoded.kind with _ | kind
  · exact .inl rfl
  · cases kind with
    | load => exact .inr ⟨rfl, .inl ⟨rfl, rfl⟩⟩
    | store => exact .inr ⟨rfl, .inr ⟨rfl, rfl⟩⟩
    | _ => exact .inl rfl

theorem latched_reset (b : Bus) : reset.Latched b := ⟨rfl, rfl, trivial⟩

end Core

namespace Machine

variable {m : Machine}

/-- The operands of an access are still the right ones, for no register has been written. -/
theorem latched_tick_of_execute (h : m.core.Latched m.bus) (hp : m.core.phase = .execute) :
    m.tick.core.Latched m.tick.bus := by
  obtain ⟨-, -, hoperands⟩ : m.core.HoldsIn m.bus .execute := hp ▸ h.holds
  obtain ⟨hcore, hbus⟩ := tick_of_execute hp
  rw [hcore, hbus]
  rcases m.core.afterExecute_cases with hnext | ⟨hresult, ⟨hnext, hkind⟩ | ⟨hnext, hkind⟩⟩
  · rw [hnext]
    refine ⟨h.decoded, ?_, trivial⟩
    cases m.core.result? with
    | none => exact h.zero
    | some value => exact (Registers.cell_zero_write _ _ _).trans h.zero
  · rw [hnext, hresult]
    exact ⟨h.decoded, h.zero, hkind, hoperands⟩
  · rw [hnext, hresult]
    exact ⟨h.decoded, h.zero, hkind, hoperands⟩

theorem latched_tick (h : m.core.Latched m.bus) : m.tick.core.Latched m.tick.bus := by
  cases hp : m.core.phase with
  | execute => exact latched_tick_of_execute h hp
  | fetchInstr =>
    obtain ⟨hcore, hbus⟩ := tick_of_fetchInstr hp
    rw [hcore, hbus]
    exact ⟨h.decoded, h.zero, m.bus.mayFind_reading _⟩
  | waitInstr =>
    have hfetched : m.core.HoldsIn m.bus .waitInstr := hp ▸ h.holds
    obtain ⟨hcore, hbus⟩ := tick_of_waitInstr hp
    rw [hcore, hbus]
    exact ⟨rfl, h.zero, rfl, hfetched.tick rfl⟩
  | fetchRegs =>
    obtain ⟨hheld, hfetched⟩ : m.core.HoldsIn m.bus .fetchRegs := hp ▸ h.holds
    obtain ⟨hcore, hbus⟩ := tick_of_fetchRegs hp
    rw [hcore, hbus]
    exact ⟨h.decoded, h.zero, hheld, hfetched.tick rfl, rfl, rfl⟩
  | load =>
    obtain ⟨hkind, hoperands⟩ : m.core.HoldsIn m.bus .load := hp ▸ h.holds
    obtain ⟨hcore, hbus⟩ := tick_of_load hp
    rw [hcore, hbus]
    exact ⟨h.decoded, h.zero, hkind, hoperands, m.bus.mayFind_reading _⟩
  | waitData =>
    obtain ⟨hcore, hbus⟩ := tick_of_waitData hp
    rw [hcore, hbus]
    exact ⟨h.decoded, (Registers.cell_zero_write _ _ _).trans h.zero, trivial⟩
  | store =>
    obtain ⟨hcore, hbus⟩ := tick_of_store hp
    rw [hcore, hbus]
    exact ⟨h.decoded, h.zero, trivial⟩

theorem latched_tick_iterate (h : m.core.Latched m.bus) (n : Nat) :
    (tick^[n] m).core.Latched (tick^[n] m).bus := by
  induction n generalizing m with
  | zero => exact h
  | succ n ih => exact ih (latched_tick h)

theorem latched_of_build {s : Settings} {image : List Word} (h : build s image = .ok m) :
    m.core.Latched m.bus := by
  obtain ⟨period, ram, -, -, -, rfl⟩ := of_build_eq_ok h
  exact Core.latched_reset _

/-! ## Latches -/

/-- What each latch holds, by the latch. -/
structure Coherent (m : Machine) : Prop where
  decoded : m.core.decoded = .decode m.core.instr
  loading : m.core.phase ∈ [.load, .waitData] → m.core.decoded.kind = some .load
  storing : m.core.phase = .store → m.core.decoded.kind = some .store
  zero : m.core.registers.cell 0 = 0
  shown : ∀ i : BitVec 5, m.core.registers.cell i = m.core.registers.read i ∧
    m.core.registers.snapshot[i.toNat]? = some (m.core.registers.read i)
  awaited : m.core.pc.getLsbD m.bus.ioBit = false → m.core.phase = .waitInstr →
    m.bus.readData = m.bus.ram.read (m.core.pc.toNat / 4)
  fetched : m.core.pc.getLsbD m.bus.ioBit = false → m.core.phase ∈ [.fetchRegs, .execute] →
    m.core.instr = m.bus.ram.read (m.core.pc.toNat / 4)
  operands : m.core.phase ∈ [.execute, .load, .waitData, .store] →
    m.core.rs1 = m.core.registers.read m.core.decoded.rs1 ∧
      m.core.rs2 = m.core.registers.read m.core.decoded.rs2
  found : m.core.phase = .waitData → m.core.address.getLsbD m.bus.ioBit = false →
    m.bus.readData = m.bus.ram.read (m.core.address.toNat / 4)

/-- For all accepted settings, every image that fits and every number of ticks, every latch holds
what it stands for. -/
theorem coherent_run {s : Settings} {image : List Word} (h : build s image = .ok m) (n : Nat) :
    (tick^[n] m).Coherent := by
  have hlatched := latched_tick_iterate (latched_of_build h) n
  generalize tick^[n] m = m at hlatched
  have hin : ∀ p, m.core.phase = p → m.core.HoldsIn m.bus p := fun p hp => hp ▸ hlatched.holds
  refine ⟨hlatched.decoded, fun hp => ?_, fun hp => ?_, hlatched.zero, fun i => ?_, fun hpc hp => ?_,
    fun hpc hp => ?_, fun hp => ?_, fun hp ha => ?_⟩
  · simp only [List.mem_cons, List.not_mem_nil, or_false] at hp
    rcases hp with hp | hp
    · obtain ⟨hkind, -⟩ := hin _ hp
      exact hkind
    · obtain ⟨hkind, -⟩ := hin _ hp
      exact hkind
  · obtain ⟨hkind, -⟩ := hin _ hp
    exact hkind
  · exact ⟨(Registers.read_eq_cell hlatched.zero i).symm, m.core.registers.getElem?_snapshot i⟩
  · have hfound : m.bus.MayFind m.core.pc m.bus.readData := hin _ hp
    exact hfound.eq_read hpc
  · simp only [List.mem_cons, List.not_mem_nil, or_false] at hp
    rcases hp with hp | hp
    · obtain ⟨-, hfound⟩ := hin _ hp
      exact hfound.eq_read hpc
    · obtain ⟨-, hfound, -⟩ := hin _ hp
      exact hfound.eq_read hpc
  · simp only [List.mem_cons, List.not_mem_nil, or_false] at hp
    rcases hp with hp | hp | hp | hp
    · obtain ⟨-, -, hoperands⟩ := hin _ hp
      exact hoperands
    · obtain ⟨-, hoperands⟩ := hin _ hp
      exact hoperands
    · obtain ⟨-, hoperands, -⟩ := hin _ hp
      exact hoperands
    · obtain ⟨-, hoperands⟩ := hin _ hp
      exact hoperands
  · obtain ⟨-, -, hfound⟩ := hin _ hp
    exact hfound.eq_read ha

/-- A load of the word behind it, one tick before that is written back. -/
theorem coherent_run_load :
    ∃ m, build { ramWords := 2 } [0x402083, 0xdeadbeef] = .ok m ∧
      (tick^[5] m).core.phase = .waitData ∧ (tick^[5] m).core.decoded.kind = some .load ∧
      (tick^[5] m).bus.readData = 0xdeadbeef := by
  refine ⟨_, rfl, ?_⟩
  have hcoherent := coherent_run
    (show build { ramWords := 2 } [0x402083, 0xdeadbeef] = .ok _ from rfl) 5
  refine ⟨by decide, hcoherent.loading (by decide), ?_⟩
  exact (hcoherent.found (by decide) (by decide)).trans (by decide)

end Machine

end Multicycle
