/-
The machine refines the base instruction set. Seen at its FETCH_INSTR, a machine is a reference
machine: whatever that executes, the machine executes too, in as many ticks as the kinds of the
instructions call for, and at the FETCH_INSTR after them it is seen again as what the other has
become. Nothing of it matters but what a program can see, neither what its latches hold nor what its
transmitter is sending.
-/
import Multicycle.Proofs.Machine.Completion
import Multicycle.Proofs.Machine.Reach
import Multicycle.Proofs.Rv32i.Values

namespace Multicycle

open Rv32i

def Rv32i.Insn.ticks : Insn → Nat
  | .load .. => 6
  | .store .. => 5
  | _ => 4

namespace Machine

/-- What a program can see of a machine. -/
def hart (m : Machine) : Hart where
  pc := m.core.pc
  x := m.core.registers.read
  zero := if_pos rfl
  size := 4 * m.bus.ram.size
  mem := bytesOf m.bus.ram.read

/-! ## The effect of an instruction on the program's view -/

theorem ofInt_toNat_add (a : Word) (z : Int) :
    BitVec.ofInt 32 (a.toNat + z) = a + BitVec.ofInt 32 z := by
  rw [BitVec.ofInt_add, BitVec.ofInt_natCast, BitVec.ofNat_toNat, BitVec.setWidth_eq]

/-- Clearing the lowest bit of a word halves and doubles its integer. -/
theorem ofInt_and_not_one (z : Int) :
    BitVec.ofInt 32 z &&& ~~~1#32 = BitVec.ofInt 32 (2 * (z / 2)) := by
  have hshift : ∀ x : Word, x &&& ~~~1#32 = x >>> 1 <<< 1 := by
    intro x
    ext i hi
    rw [BitVec.getElem_and, BitVec.getElem_not, BitVec.getElem_one, BitVec.getElem_shiftLeft]
    rcases i with _ | i
    · simp
    · simp [Nat.add_comm 1 i, BitVec.getLsbD_eq_getElem hi]
  apply BitVec.eq_of_toNat_eq
  rw [hshift, BitVec.toNat_shiftLeft, BitVec.toNat_ushiftRight, BitVec.toNat_ofInt,
    BitVec.toNat_ofInt, Nat.shiftRight_eq_div_pow, Nat.shiftLeft_eq]
  omega

theorem hart_tick_issue {m : Machine} (h : m.core.phase = .fetchInstr) :
    (tick^[m.issue.ticks] m).hart =
      { pc := m.issue.nextPc
        x := (m.issue.writeBack m.core.registers m.loaded).read
        zero := if_pos rfl
        size := 4 * m.bus.ram.size
        mem := bytesOf (m.bus.run m.issue.requests).ram.read } := by
  rw [tick_issue h]
  unfold hart clocked
  simp only [Bus.size_run]
  rfl

/-- An instruction that does not store is seen to write its result and to go on. -/
theorem hart_tick_of_result {m : Machine} (h : m.core.phase = .fetchInstr)
    {kind : Kind} (hk : m.issue.instr.kind = some kind) (hs : kind ≠ .store) {v pc : Int}
    (hv : m.issue.result? m.loaded = some (.ofInt 32 v)) (hpc : m.issue.nextPc = .ofInt 32 pc) :
    (tick^[m.issue.ticks] m).hart = (m.hart.put m.issue.instr.rd v).goto pc := by
  have hread : m.issue.instr.kind ≠ some .store := by
    rw [hk]
    exact fun heq => hs (Option.some.inj heq)
  have hx : (m.issue.writeBack m.core.registers m.loaded).read =
      (m.hart.put m.issue.instr.rd v).x := by
    funext r
    rw [Issue.read_writeBack, hv]
    rfl
  rw [hart_tick_issue h, Bus.ram_run_of_reads m.bus (Issue.write_requests hread)]
  exact Hart.ext hpc hx rfl rfl

/-- An instruction that neither stores nor has a result is seen to go on. -/
theorem hart_tick_of_no_result {m : Machine} (h : m.core.phase = .fetchInstr)
    (hs : m.issue.instr.kind ≠ some .store) {pc : Int} (hv : m.issue.result? m.loaded = none)
    (hpc : m.issue.nextPc = .ofInt 32 pc) : (tick^[m.issue.ticks] m).hart = m.hart.goto pc := by
  have hx : m.issue.writeBack m.core.registers m.loaded = m.core.registers := by
    unfold Issue.writeBack
    rw [hv]
    rfl
  rw [hart_tick_issue h, hx, Bus.ram_run_of_reads m.bus (Issue.write_requests hs)]
  exact Hart.ext hpc rfl rfl rfl

/-- A store below the page is seen to deposit its bytes and to go on. -/
theorem hart_tick_of_store {m : Machine} (h : m.core.phase = .fetchInstr)
    (hk : m.issue.instr.kind = some .store) {op : Store} {pc : Int}
    (hop : store? m.issue.instr.funct3.toNat = some op)
    (ha : m.hart.Admits m.issue.address.toNat op.bytes)
    (hbelow : m.issue.address.getLsbD m.bus.ioBit = false)
    (hpc : m.issue.nextPc = .ofInt 32 pc) :
    (tick^[m.issue.ticks] m).hart =
      { m.hart with
        mem := deposit m.hart.mem m.issue.address.toNat op.bytes m.issue.rs2.toNat }.goto pc := by
  have hbytes := bytes_ofFunct3 hop
  obtain ⟨halign, hin⟩ := ha
  have hx : m.issue.writeBack m.core.registers m.loaded = m.core.registers := by
    unfold Issue.writeBack Issue.result?
    rw [hk]
    rfl
  rw [hart_tick_issue h, hx]
  refine Hart.ext hpc rfl rfl ?_
  show bytesOf (m.bus.run m.issue.requests).ram.read = deposit (bytesOf m.bus.ram.read) _ _ _
  rw [← hbytes] at halign hin ⊢
  refine bytesOf_eq_deposit halign fun j k hk4 => ?_
  by_cases hj : j < m.bus.ram.size
  · rw [m.byte_run_requests hj hk4]
    unfold Issue.storesLane Instr.is
    rw [hk, hbelow]
    simp
  · -- Past the end of RAM nothing is stored, and the access ends before that.
    have hout : ¬(m.issue.address.toNat / 4 = j ∧
        (Width.ofFunct3 m.issue.instr.funct3).covers m.issue.address.toNat k = true) := by
      rintro ⟨rfl, -⟩
      have hn : (Width.ofFunct3 m.issue.instr.funct3).bytes ≠ 0 := by
        rw [hbytes]
        cases op <;> decide
      have hsize : m.hart.size = 4 * m.bus.ram.size := rfl
      omega
    rw [if_neg hout, Ram.read_of_size_le (by rw [Bus.size_run]; omega),
      Ram.read_of_size_le (Nat.le_of_not_lt hj)]

/-! ## One instruction -/

/-- No address that an access may have is on the page, for RAM ends below it. -/
theorem below_of_admits {m : Machine} (hfit : 4 * m.bus.ram.size ≤ 2 ^ m.bus.ioBit.val) {a : Word}
    {n : Nat} (hn : n = 1 ∨ n = 2 ∨ n = 4) (h : m.hart.Admits a.toNat n) :
    a.getLsbD m.bus.ioBit = false := by
  obtain ⟨-, hin⟩ := h
  have hlt : a.toNat < 4 * m.bus.ram.size := by
    change a.toNat + n ≤ 4 * m.bus.ram.size at hin
    omega
  exact Word.below_of_lt (Nat.lt_of_lt_of_le hlt hfit)

theorem loaded_of_below {m : Machine} (h : m.issue.address.getLsbD m.bus.ioBit = false) :
    m.loaded = m.bus.ram.read (m.issue.address.toNat / 4) := by
  unfold loaded Bus.wordAt
  rw [Bus.ioBit_run, h, Bus.ram_run_of_reads _ (Issue.write_fetch _)]
  rfl

/-- What is fetched is what the reference machine has at its program counter. -/
theorem issue_matches {m : Machine} (hfit : 4 * m.bus.ram.size ≤ 2 ^ m.bus.ioBit.val) {i : Insn}
    (hi : m.hart.insn? = some i) : i.Matches m.issue.instr := by
  unfold Hart.insn? at hi
  split at hi
  · rename_i hpc
    have hword : m.bus.wordAt m.core.pc = m.bus.ram.read (m.core.pc.toNat / 4) := by
      have hbelow : m.core.pc.getLsbD m.bus.ioBit = false :=
        below_of_admits hfit (.inr (.inr rfl)) hpc
      unfold Bus.wordAt
      rw [hbelow]
      rfl
    have hfetch : fetch m.hart.mem m.hart.pc.toNat 4 = (m.bus.wordAt m.core.pc).toNat := by
      have hlt := (m.bus.wordAt m.core.pc).isLt
      rw [hword] at hlt ⊢
      show fetch (bytesOf m.bus.ram.read) m.core.pc.toNat 4 = _
      have halign : m.core.pc.toNat % 4 = 0 := hpc.1
      rw [fetch_bytesOf m.bus.ram.read halign (.inr (.inr rfl)), halign, Nat.pow_zero,
        Nat.div_one]
      exact Nat.mod_eq_of_lt hlt
    rw [hfetch] at hi
    exact decode_matches hi
  · cases hi

theorem ticks_of_matches {j : Issue} {i : Insn} (h : i.Matches j.instr) : j.ticks = i.ticks := by
  unfold Issue.ticks
  cases i <;> rw [h.1] <;> rfl

theorem nextPc_eq_ofInt {j : Issue} {kind : Kind} (hk : j.instr.kind = some kind)
    (hother : kind ∉ [Kind.system, .branch, .jal, .jalr]) :
    j.nextPc = .ofInt 32 (j.pc.toNat + 4) := by
  rw [ofInt_toNat_add]
  exact Issue.nextPc_of_other hk hother

theorem hart_address {m : Machine} {imm : Int}
    (himm : (if m.issue.instr.is .store then m.issue.instr.imm.s else m.issue.instr.imm.i) =
      .ofInt 32 imm) :
    m.hart.address m.issue.instr.rs1 imm = m.issue.address.toNat := by
  unfold Hart.address Issue.address Instr.address
  rw [himm, ofInt_toNat_add]
  rfl

/-- A load that may be executed finds its word in RAM and takes out of it what is fetched there. -/
theorem result?_of_load {m : Machine} (hfit : 4 * m.bus.ram.size ≤ 2 ^ m.bus.ioBit.val)
    (hk : m.issue.instr.kind = some .load) {op : Load}
    (hop : load? m.issue.instr.funct3.toNat = some op)
    (ha : m.hart.Admits m.issue.address.toNat op.bytes) :
    m.issue.result? m.loaded =
      some (.ofInt 32 (op.extend (fetch m.hart.mem m.issue.address.toNat op.bytes))) := by
  have hfetch : fetch m.hart.mem m.issue.address.toNat op.bytes = _ :=
    fetch_bytesOf m.bus.ram.read ha.1 op.bytes_eq
  unfold Issue.result?
  rw [hk, loadValue_eq hop ha.1, loaded_of_below (below_of_admits hfit op.bytes_eq ha), hfetch]

/-- What a program sees of the machine after an instruction is what the reference machine makes of
it. -/
theorem hart_tick_of_execute {m : Machine} (h : m.core.phase = .fetchInstr)
    (hfit : 4 * m.bus.ram.size ≤ 2 ^ m.bus.ioBit.val) {i : Insn} {h' : Hart}
    (hi : m.hart.insn? = some i) (hexec : m.hart.execute? i = some h') :
    (tick^[i.ticks] m).hart = h' := by
  have hm := issue_matches hfit hi
  rw [← ticks_of_matches hm]
  -- Each case puts the matched fields in place of the instruction's own, and then both machines do
  -- the same to the same registers.
  cases i with
  | lui rd imm =>
    obtain ⟨hkind, rfl, himm⟩ := hm
    cases hexec
    refine hart_tick_of_result h hkind (by decide) ?_ (nextPc_eq_ofInt hkind (by decide))
    unfold Issue.result?
    rw [hkind]
    exact congrArg some himm
  | auipc rd imm =>
    obtain ⟨hkind, rfl, himm⟩ := hm
    cases hexec
    refine hart_tick_of_result h hkind (by decide) ?_ (nextPc_eq_ofInt hkind (by decide))
    unfold Issue.result?
    rw [hkind, ofInt_toNat_add, ← himm]
    rfl
  | jal rd imm =>
    obtain ⟨hkind, rfl, himm⟩ := hm
    cases hexec
    refine hart_tick_of_result h hkind (by decide) ?_ ?_
    · unfold Issue.result?
      rw [hkind, ofInt_toNat_add]
      rfl
    · rw [Issue.nextPc_of_jal hkind, ofInt_toNat_add, ← himm]
      rfl
  | jalr rd rs1 imm =>
    obtain ⟨hkind, rfl, rfl, himm⟩ := hm
    cases hexec
    refine hart_tick_of_result h hkind (by decide) ?_ ?_
    · unfold Issue.result?
      rw [hkind, ofInt_toNat_add]
      rfl
    · rw [Issue.nextPc_of_jalr hkind, ← ofInt_and_not_one, ofInt_toNat_add, ← himm]
      rfl
  | branch c rs1 rs2 imm =>
    obtain ⟨hkind, rfl, rfl, himm, hc⟩ := hm
    cases hexec
    refine hart_tick_of_no_result h (by rw [hkind]; decide) ?_ ?_
    · unfold Issue.result?
      rw [hkind]
    · have hcomparison : m.issue.comparison = c.holds m.issue.rs1 m.issue.rs2 :=
        branchTaken_eq hc m.issue.rs1 m.issue.rs2
      rw [Issue.nextPc_of_branch hkind, hcomparison, ofInt_toNat_add, himm]
      change m.core.pc + _ =
        m.core.pc + BitVec.ofInt 32 (if c.holds m.issue.rs1 m.issue.rs2 then imm else 4)
      cases c.holds m.issue.rs1 m.issue.rs2 <;> rfl
  | load op rd rs1 imm =>
    obtain ⟨hkind, rfl, rfl, himm, hop⟩ := hm
    have haddress : m.hart.address m.issue.instr.rs1 imm = m.issue.address.toNat := by
      apply hart_address
      unfold Instr.is
      rw [hkind, ← himm]
      rfl
    unfold Hart.execute? at hexec
    dsimp only at hexec
    rw [haddress] at hexec
    split at hexec
    · rename_i ha
      cases hexec
      exact hart_tick_of_result h hkind (by decide) (result?_of_load hfit hkind hop ha)
        (nextPc_eq_ofInt hkind (by decide))
    · cases hexec
  | store op rs1 rs2 imm =>
    obtain ⟨hkind, rfl, rfl, himm, hop⟩ := hm
    have haddress : m.hart.address m.issue.instr.rs1 imm = m.issue.address.toNat := by
      apply hart_address
      unfold Instr.is
      rw [hkind, ← himm]
      rfl
    unfold Hart.execute? at hexec
    dsimp only at hexec
    rw [haddress] at hexec
    split at hexec
    · rename_i ha
      cases hexec
      exact hart_tick_of_store h hkind hop ha (below_of_admits hfit op.bytes_eq ha)
        (nextPc_eq_ofInt hkind (by decide))
    · cases hexec
  | opImm op rd rs1 imm =>
    obtain ⟨hkind, rfl, rfl, hop, himm⟩ := hm
    cases hexec
    refine hart_tick_of_result h hkind (by decide) ?_ (nextPc_eq_ofInt hkind (by decide))
    unfold Issue.result? Instr.aluResult Instr.is
    rw [hkind, hop, eval_unit]
    exact congrArg (fun v => some (BitVec.ofInt 32 v)) (himm m.issue.rs1)
  | op op rd rs1 rs2 =>
    obtain ⟨hkind, rfl, rfl, rfl, hop⟩ := hm
    cases hexec
    refine hart_tick_of_result h hkind (by decide) ?_ (nextPc_eq_ofInt hkind (by decide))
    unfold Issue.result? Instr.aluResult Instr.is
    rw [hkind, hop, eval_unit]
    rfl

/-! ## Runs -/

/-- One step of the reference machine is matched from one FETCH_INSTR to the next. -/
theorem Sound.tick_of_step {s : Settings} {m : Machine} (hm : m.Sound s)
    (h : m.core.phase = .fetchInstr) {i : Insn} {next : Hart}
    (hstep : m.hart.step? = some (i, next)) :
    (tick^[i.ticks] m).core.phase = .fetchInstr ∧ (tick^[i.ticks] m).hart = next := by
  obtain ⟨-, -, hfit⟩ := hm.split
  obtain ⟨hi, hexec⟩ := Hart.step?_eq_some_iff.1 hstep
  have hphase : (tick^[m.issue.ticks] m).core.phase = .fetchInstr := by
    rw [tick_issue h]
    rfl
  rw [ticks_of_matches (issue_matches hfit hi)] at hphase
  exact ⟨hphase, hart_tick_of_execute h hfit hi hexec⟩

theorem Sound.tick_of_steps {s : Settings} {m : Machine} (hm : m.Sound s)
    (h : m.core.phase = .fetchInstr) {n : Nat} {is : List Insn} {last : Hart}
    (hrun : m.hart.steps? n = some (is, last)) :
    is.length = n ∧ (tick^[(is.map Insn.ticks).sum] m).core.phase = .fetchInstr ∧
      (tick^[(is.map Insn.ticks).sum] m).hart = last := by
  induction n generalizing m is with
  | zero =>
    cases hrun
    exact ⟨rfl, h, rfl⟩
  | succ n ih =>
    obtain ⟨i, next, rest, hstep, hrest, rfl⟩ := Hart.steps?_succ_eq_some_iff.1 hrun
    obtain ⟨hphase, hview⟩ := hm.tick_of_step h hstep
    rw [← hview] at hrest
    obtain ⟨hlength, hlast, hend⟩ := ih (hm.tick_iterate i.ticks) hphase hrest
    have hsplit : tick^[((i :: rest).map Insn.ticks).sum] m =
        tick^[(rest.map Insn.ticks).sum] (tick^[i.ticks] m) := by
      rw [List.map_cons, List.sum_cons, Nat.add_comm, Function.iterate_add_apply]
    rw [hsplit]
    exact ⟨congrArg (· + 1) hlength, hlast, hend⟩

/-- For every machine there is in FETCH_INSTR and every number of steps: if the reference machine,
started as a program sees the machine, can take them, then after the ticks of the instructions it
executed the machine is in FETCH_INSTR again, with the program counter, the registers and the bytes of
RAM of the reference machine. -/
theorem Reachable.refines {s : Settings} {image : List Word} {m : Machine}
    (hm : Reachable s image m) (h : m.core.phase = .fetchInstr) {n : Nat} {is : List Insn}
    {last : Hart} (hrun : m.hart.steps? n = some (is, last)) :
    is.length = n ∧
      let m' := tick^[(is.map Insn.ticks).sum] m
      m'.core.phase = .fetchInstr ∧ m'.core.pc = last.pc ∧
        (∀ r, m'.core.registers.read r = last.x r) ∧ m'.bus.ram.size = m.bus.ram.size ∧
        ∀ i < m.bus.ram.size, ∀ k < 4, (m'.bus.ram.read i).byte k = last.mem (4 * i + k) := by
  obtain ⟨hlength, hphase, hview⟩ := hm.sound.tick_of_steps h hrun
  have hsize := (hm.sound.tick_iterate (is.map Insn.ticks).sum).size
  refine ⟨hlength, hphase, congrArg Hart.pc hview, congrFun (congrArg Hart.x hview),
    hsize.trans hm.sound.size.symm, fun i _ k hk => ?_⟩
  rw [← hview]
  show _ = bytesOf _ (4 * i + k)
  unfold bytesOf
  rw [show (4 * i + k) / 4 = i by omega, show (4 * i + k) % 4 = k by omega]

/-- A negative number into a register, its low half to memory, and the upper byte of that back. -/
theorem refines_store_load :
    ∃ m, Reachable { ramWords := 4 } [0xffe00093, 0x101723, 0xf04103] m ∧
      m.core.phase = .fetchInstr ∧ (m.hart.steps? 3).isSome ∧
      (tick^[15] m).core.phase = .fetchInstr ∧ (tick^[15] m).core.registers.read 2 = 0xff ∧
      ((tick^[15] m).bus.ram.read 3).byte 2 = 0xfe := by
  let m : Machine :=
    ⟨.reset, .ofRam ⟨#[0xffe00093, 0x101723, 0xf04103, 0]⟩ 22 12, {}, 50000000⟩
  have hbuilt : Reachable { ramWords := 4 } [0xffe00093, 0x101723, 0xf04103] m := .built rfl
  have hseen : (m.hart.steps? 3).map (fun r =>
      ((r.1.map Insn.ticks).sum, r.2.x 2, r.2.mem (4 * 3 + 2))) = some (15, 0xff, 0xfe) := by decide
  obtain ⟨⟨is, last⟩, hrun, hlast⟩ := Option.map_eq_some_iff.1 hseen
  obtain ⟨hticks, htail⟩ := Prod.mk.inj hlast
  obtain ⟨hx, hmem⟩ := Prod.mk.inj htail
  obtain ⟨-, hphase, -, hread, -, hbyte⟩ := hbuilt.refines rfl hrun
  rw [hticks] at hphase hread hbyte
  refine ⟨m, hbuilt, rfl, by rw [hrun]; rfl, hphase, (hread 2).trans hx, ?_⟩
  exact (hbyte 3 (by decide) 2 (by decide)).trans hmem

end Machine

end Multicycle
