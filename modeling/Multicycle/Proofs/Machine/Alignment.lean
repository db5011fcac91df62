/-
The alignment of the program counter. Every way on keeps it even: the next instruction is four bytes
away, the offsets of branches and jumps are even in every word, and the lowest bit of a JALR target is
cleared. As long as jumps keep to multiples of four, so does the program counter.
-/
import Multicycle.Proofs.Access.Lanes
import Multicycle.Proofs.Machine.Latches
import Multicycle.Proofs.Rv32i.Encode

namespace Multicycle

/-! ## Multiples in words -/

namespace Word

variable {g : Nat}

/-- A word is as good a multiple read with a sign as without, for 2^32 is a multiple itself. -/
theorem dvd_toInt_iff (hg : g ∣ 2 ^ 32) (a : Word) : (g : Int) ∣ a.toInt ↔ g ∣ a.toNat := by
  have hmodulus : (g : Int) ∣ ((2 ^ 32 : Nat) : Int) := Int.natCast_dvd_natCast.2 hg
  rw [← Int.natCast_dvd_natCast, BitVec.toInt_eq_toNat_cond]
  split
  · exact Iff.rfl
  · exact dvd_sub_left hmodulus

theorem dvd_toNat_add (hg : g ∣ 2 ^ 32) {a b : Word} (ha : g ∣ a.toNat) (hb : g ∣ b.toNat) :
    g ∣ (a + b).toNat := by
  rw [BitVec.toNat_add, Nat.dvd_mod_iff hg]
  exact Nat.dvd_add ha hb

theorem getLsbD_clear_lowest (a : Word) :
    (a &&& ~~~1#32).getLsbD 0 = false ∧ (a &&& ~~~1#32).getLsbD 1 = a.getLsbD 1 := by
  rw [BitVec.getLsbD_and, BitVec.getLsbD_and]
  exact ⟨Bool.and_false _, Bool.and_true _⟩

theorem two_dvd_clear_lowest (a : Word) : 2 ∣ (a &&& ~~~1#32).toNat := by
  have hbit := (getLsbD_clear_lowest a).1
  rw [getLsbD_zero_eq, decide_eq_false_iff_not] at hbit
  omega

theorem four_dvd_clear_lowest {a : Word} (h : a.getLsbD 1 = false) :
    4 ∣ (a &&& ~~~1#32).toNat := by
  obtain ⟨hbit₀, hbit₁⟩ := getLsbD_clear_lowest a
  rw [h] at hbit₁
  rw [getLsbD_zero_eq, decide_eq_false_iff_not] at hbit₀
  rw [getLsbD_one_eq, decide_eq_false_iff_not] at hbit₁
  omega

end Word

/-! ## Jumps -/

/-- Wherever an instruction leads other than to the one that follows, it leads by multiples of `g`:
its offset is one, or for a JALR its target. -/
structure Instr.JumpsBy (d : Instr) (g : Nat) (rs1 : Word) (taken : Bool) : Prop where
  branch : d.kind = some .branch → taken = true → (g : Int) ∣ d.imm.b.toInt
  jal : d.kind = some .jal → (g : Int) ∣ d.imm.j.toInt
  jalr : d.kind = some .jalr → g ∣ ((rs1 + d.imm.i) &&& ~~~1#32).toNat

namespace Instr

open Rv32i (is_iff)

variable {d : Instr} {g : Nat} {pc rs1 : Word} {taken : Bool}

theorem JumpsBy.nextPc (h : d.JumpsBy g rs1 taken) (hg : g ∣ 4) (hpc : g ∣ pc.toNat) :
    g ∣ (d.nextPc pc rs1 taken).toNat := by
  have hg32 : g ∣ 2 ^ 32 := hg.trans (by decide)
  unfold Instr.nextPc
  split
  · rename_i hbranch
    rw [Bool.and_eq_true, is_iff] at hbranch
    exact Word.dvd_toNat_add hg32 hpc ((Word.dvd_toInt_iff hg32 _).1 (h.branch hbranch.1 hbranch.2))
  · split
    · rename_i hjal
      exact Word.dvd_toNat_add hg32 hpc ((Word.dvd_toInt_iff hg32 _).1 (h.jal (is_iff.1 hjal)))
    · split
      · rename_i hjalr
        exact h.jalr (is_iff.1 hjalr)
      · exact Word.dvd_toNat_add hg32 hpc hg

/-- No word jumps to an odd address from an even one. -/
theorem jumpsBy_two (w rs1 : Word) (taken : Bool) : (decode w).JumpsBy 2 rs1 taken :=
  ⟨fun _ _ => Rv32i.Operands.two_dvd_immB w, fun _ => Rv32i.Operands.two_dvd_immJ w,
    fun _ => Word.two_dvd_clear_lowest _⟩

end Instr

namespace Core

/-- The instruction in EXECUTE, if it jumps, goes by multiples of four: the offset of a taken branch
and of a JAL is one, and a JALR comes to an address with bit 1 clear. -/
structure AlignedJump (c : Core) : Prop where
  branch : c.decoded.kind = some .branch → c.comparison = true → 4 ∣ c.decoded.imm.b.toInt
  jal : c.decoded.kind = some .jal → 4 ∣ c.decoded.imm.j.toInt
  jalr : c.decoded.kind = some .jalr → (c.rs1 + c.decoded.imm.i).getLsbD 1 = false

theorem AlignedJump.jumpsBy_four {c : Core} (h : c.AlignedJump) :
    c.decoded.JumpsBy 4 c.rs1 c.comparison :=
  ⟨h.branch, h.jal, fun hjalr => Word.four_dvd_clear_lowest (h.jalr hjalr)⟩

end Core

/-! ## Runs -/

namespace Machine

variable {m : Machine}

/-- The program counter moves in EXECUTE only. -/
theorem pc_tick (m : Machine) :
    m.tick.core.pc =
      if m.core.phase = .execute then m.core.nextPc?.getD m.core.pc else m.core.pc := by
  cases hp : m.core.phase with
  | execute =>
    rw [(tick_of_execute hp).1]
    rfl
  | fetchInstr =>
    rw [(tick_of_fetchInstr hp).1]
    rfl
  | waitInstr =>
    rw [(tick_of_waitInstr hp).1]
    rfl
  | fetchRegs =>
    rw [(tick_of_fetchRegs hp).1]
    rfl
  | load =>
    rw [(tick_of_load hp).1]
    rfl
  | waitData =>
    rw [(tick_of_waitData hp).1]
    rfl
  | store =>
    rw [(tick_of_store hp).1]
    rfl

theorem dvd_pc_tick {g : Nat} (hg : g ∣ 4) (h : g ∣ m.core.pc.toNat)
    (hjump : m.core.phase = .execute → m.core.decoded.JumpsBy g m.core.rs1 m.core.comparison) :
    g ∣ m.tick.core.pc.toNat := by
  rw [pc_tick]
  split
  · rename_i hp
    unfold Core.nextPc?
    split
    · exact h
    · exact (hjump hp).nextPc hg h
  · exact h

theorem dvd_pc_tick_iterate {g : Nat} (hg : g ∣ 4) (h : g ∣ m.core.pc.toNat) (n : Nat)
    (hjumps : ∀ k < n, (tick^[k] m).core.phase = .execute →
      (tick^[k] m).core.decoded.JumpsBy g (tick^[k] m).core.rs1 (tick^[k] m).core.comparison) :
    g ∣ (tick^[n] m).core.pc.toNat := by
  induction n with
  | zero => exact h
  | succ n ih =>
    rw [Function.iterate_succ_apply']
    have hbefore := ih fun k hk => hjumps k (Nat.lt_succ_of_lt hk)
    exact dvd_pc_tick hg hbefore (hjumps n (Nat.lt_succ_self n))

/-- For all accepted settings, every image that fits and every number of ticks, the program counter
is even. If besides every jump so far went by multiples of four, it has been a multiple of four all
along. -/
theorem aligned_run {s : Settings} {image : List Word} (h : build s image = .ok m) (n : Nat) :
    (tick^[n] m).core.pc.getLsbD 0 = false ∧
      ((∀ k < n, (tick^[k] m).core.phase = .execute → (tick^[k] m).core.AlignedJump) →
        ∀ k ≤ n, 4 ∣ (tick^[k] m).core.pc.toNat) := by
  have hstart : m.core.pc = 0 := by
    obtain ⟨period, ram, -, -, -, rfl⟩ := of_build_eq_ok h
    rfl
  have hzero : ∀ g : Nat, g ∣ m.core.pc.toNat := fun g => by
    rw [hstart]
    exact Nat.dvd_zero g
  refine ⟨?_, fun hjumps k hk => ?_⟩
  · have heven : 2 ∣ (tick^[n] m).core.pc.toNat := by
      refine dvd_pc_tick_iterate (by decide) (hzero 2) n fun k _ _ => ?_
      rw [(latched_tick_iterate (latched_of_build h) k).decoded]
      exact Instr.jumpsBy_two _ _ _
    rw [getLsbD_zero_eq, decide_eq_false_iff_not]
    omega
  · refine dvd_pc_tick_iterate (by decide) (hzero 4) k fun i hi hp => ?_
    exact (hjumps i (Nat.lt_of_lt_of_le hi hk) hp).jumpsBy_four

/-- A JALR to the odd address 9, where bit 1 is clear: its lowest bit is cleared, and the machine goes
on at 8. A JAL by 6 leads to an even address that is no multiple of four. -/
theorem aligned_run_odd_target :
    (∃ m, build { ramWords := 1 } [0x00900067] = .ok m ∧
      (∀ k < 4, (tick^[k] m).core.phase = .execute → (tick^[k] m).core.AlignedJump) ∧
      (tick^[4] m).core.pc = 8 ∧ 4 ∣ (tick^[4] m).core.pc.toNat) ∧
    ∃ m, build { ramWords := 1 } [0x0060006f] = .ok m ∧ (tick^[4] m).core.pc = 6 ∧
      (tick^[4] m).core.pc.getLsbD 0 = false := by
  constructor
  · have hbuild : build { ramWords := 1 } [0x00900067] =
        .ok ⟨.reset, .ofRam ⟨#[0x00900067]⟩ 22 12, {}, 50000000⟩ := rfl
    have hjumps : ∀ k < 4,
        (tick^[k] ⟨.reset, .ofRam ⟨#[0x00900067]⟩ 22 12, {}, 50000000⟩).core.phase = .execute →
          (tick^[k] ⟨.reset, .ofRam ⟨#[0x00900067]⟩ 22 12, {}, 50000000⟩).core.AlignedJump := by
      intro k hk hp
      interval_cases k
      · cases hp
      · cases hp
      · cases hp
      · exact ⟨by decide, by decide, by decide⟩
    exact ⟨_, hbuild, hjumps, by decide, (aligned_run hbuild 4).2 hjumps 4 (Nat.le_refl 4)⟩
  · have hbuild : build { ramWords := 1 } [0x0060006f] =
        .ok ⟨.reset, .ofRam ⟨#[0x0060006f]⟩ 22 12, {}, 50000000⟩ := rfl
    exact ⟨_, hbuild, by decide, (aligned_run hbuild 4).1⟩

end Machine

end Multicycle
