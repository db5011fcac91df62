/-
The decoder reads what the base instruction set encodes. Each field of a word is the quotient and
remainder that the encoding names, each immediate the integer that it stands for, and of a word that
encodes an instruction the decoder gives the kind, the registers and the immediate, with function
codes that the units of the core take for what the instruction computes.
-/
import Multicycle.Access
import Multicycle.Alu
import Multicycle.Flow
import Multicycle.Proofs.Rv32i.Insn
import Mathlib.Tactic

namespace Multicycle.Rv32i

/-! ## Fields -/

theorem toNat_bits (w : Word) (low n : Nat) :
    (w.extractLsb' low n).toNat = field w.toNat low n := by
  rw [BitVec.extractLsb'_toNat, Nat.shiftRight_eq_div_pow]
  rfl

theorem bits_eq_reg (w : Word) (low : Nat) : w.extractLsb' low 5 = reg w.toNat low := by
  unfold reg
  rw [← toNat_bits, BitVec.ofNat_toNat, BitVec.setWidth_eq]

/-! ## Immediates -/

theorem toNat_append_eq {m n : Nat} (x : BitVec m) (y : BitVec n) :
    (x ++ y).toNat = 2 ^ n * x.toNat + y.toNat := by
  rw [BitVec.toNat_append, ← Nat.shiftLeft_add_eq_or_of_lt y.isLt, Nat.shiftLeft_eq, Nat.mul_comm]

theorem toInt_eq_signed {n : Nat} (x : BitVec n) : x.toInt = signed n x.toNat := by
  rw [BitVec.toInt_eq_toNat_cond]
  unfold signed
  rw [Nat.cast_pow]
  rfl

/-- A sign extension is the integer that the bits stand for, in the wider word. -/
theorem signExtend_eq_ofInt {n : Nat} (x : BitVec n) :
    x.signExtend 32 = BitVec.ofInt 32 (signed n x.toNat) := by
  rw [← toInt_eq_signed]
  rfl

theorem immU_eq (w : Word) : w.immU = BitVec.ofInt 32 (immU w.toNat) := by
  unfold immU Word.immU
  rw [BitVec.ofInt_natCast, ← toNat_bits]
  apply BitVec.eq_of_toNat_eq
  have hlt := (w.extractLsb' 12 20).isLt
  simp only [toNat_append_eq, BitVec.toNat_ofNat]
  omega

theorem immI_eq (w : Word) : w.immI = BitVec.ofInt 32 (immI w.toNat) := by
  unfold immI Word.immI
  rw [signExtend_eq_ofInt, toNat_bits]

theorem immS_eq (w : Word) : w.immS = BitVec.ofInt 32 (immS w.toNat) := by
  unfold immS Word.immS
  rw [signExtend_eq_ofInt, toNat_append_eq, toNat_bits, toNat_bits]

theorem immB_eq (w : Word) : w.immB = BitVec.ofInt 32 (immB w.toNat) := by
  unfold immB Word.immB
  rw [signExtend_eq_ofInt]
  simp only [toNat_append_eq, toNat_bits, BitVec.toNat_ofNat]
  congr 2
  omega

theorem immJ_eq (w : Word) : w.immJ = BitVec.ofInt 32 (immJ w.toNat) := by
  unfold immJ Word.immJ
  rw [signExtend_eq_ofInt]
  simp only [toNat_append_eq, toNat_bits, BitVec.toNat_ofNat]
  congr 2
  omega

/-! ## Operations -/

/-- The operation of the arithmetic unit that carries an operation out. -/
def Operation.unit : Operation → AluOp
  | add => .add
  | sub => .sub
  | sll => .sll
  | slt => .slt
  | sltu => .sltu
  | xor => .xor
  | srl => .srl
  | sra => .sra
  | or => .or
  | and => .and

theorem ofFunct_of_operation? {funct3 : BitVec 3} {funct7 : BitVec 7} {op : Operation}
    (h : operation? funct3.toNat funct7.toNat = some op) :
    AluOp.ofFunct funct3 funct7 true = op.unit := by
  unfold AluOp.ofFunct BitVec.getLsbD
  generalize funct3.toNat = code3 at h ⊢
  generalize funct7.toNat = code7 at h ⊢
  unfold operation? at h
  split at h <;> cases h <;> rfl

/-- The amount of a shift is in the low five bits of the immediate. -/
theorem toNat_immI_mod (w : Word) : w.immI.toNat % 32 = field w.toNat 20 5 := by
  rw [immI_eq, BitVec.toNat_ofInt]
  unfold immI signed field
  split
  · omega
  · omega

/-- A shift looks at the low five bits of its second operand only. -/
theorem Operation.eval_congr {op : Operation} (h : op = sll ∨ op = srl ∨ op = sra) (a : Word)
    {b b' : Word} (hb : b.toNat % 32 = b'.toNat % 32) : op.eval a b = op.eval a b' := by
  rcases h with rfl | rfl | rfl
  · simp only [eval, hb]
  · simp only [eval, hb]
  · simp only [eval, hb]

/-- An operation on an immediate is carried out on the sign-extended one, which for a shift has the
function code above the amount. -/
theorem ofFunct_of_immediate? {w : Word} {op : Operation} {imm : Int}
    (h : immediate? w.toNat = some (op, imm)) :
    AluOp.ofFunct w.funct3 w.funct7 false = op.unit ∧
      ∀ a, op.eval a w.immI = op.eval a (.ofInt 32 imm) := by
  have h3 : w.funct3.toNat = field w.toNat 12 3 := toNat_bits w 12 3
  have h7 : w.funct7.toNat = field w.toNat 25 7 := toNat_bits w 25 7
  -- The two immediates of a shift differ, but not in the bits that it looks at.
  have hamount : w.immI.toNat % 32 =
      (BitVec.ofInt 32 (field w.toNat 20 5)).toNat % 32 := by
    have hlt : field w.toNat 20 5 < 2 ^ 5 := Nat.mod_lt _ (by decide)
    rw [toNat_immI_mod, BitVec.toNat_ofInt]
    omega
  have himm := immI_eq w
  unfold AluOp.ofFunct BitVec.getLsbD
  rw [h3, h7]
  unfold immediate? at h
  generalize field w.toNat 12 3 = code3 at h ⊢
  generalize field w.toNat 25 7 = code7 at h ⊢
  rw [Bool.and_false]
  split at h
  case h_2 =>
    split at h
    · cases h
      exact ⟨rfl, fun a => Operation.eval_congr (.inl rfl) a hamount⟩
    · cases h
  case h_6 =>
    split at h
    · rename_i hlogical
      cases h
      rw [hlogical]
      exact ⟨rfl, fun a => Operation.eval_congr (.inr (.inl rfl)) a hamount⟩
    · split at h
      · rename_i harith
        cases h
        rw [harith]
        exact ⟨rfl, fun a => Operation.eval_congr (.inr (.inr rfl)) a hamount⟩
      · cases h
  case h_9 => cases h
  all_goals
    cases h
    exact ⟨rfl, fun a => by rw [himm]⟩

/-! ## Instructions -/

/-- What the decoder has to give for an instruction: its kind, its registers and its immediate, and
codes that say what is computed. -/
def Insn.Matches : Insn → Instr → Prop
  | .lui rd imm, d => d.kind = some .lui ∧ d.rd = rd ∧ d.imm.u = .ofInt 32 imm
  | .auipc rd imm, d => d.kind = some .auipc ∧ d.rd = rd ∧ d.imm.u = .ofInt 32 imm
  | .jal rd imm, d => d.kind = some .jal ∧ d.rd = rd ∧ d.imm.j = .ofInt 32 imm
  | .jalr rd rs1 imm, d =>
    d.kind = some .jalr ∧ d.rd = rd ∧ d.rs1 = rs1 ∧ d.imm.i = .ofInt 32 imm
  | .branch c rs1 rs2 imm, d =>
    d.kind = some .branch ∧ d.rs1 = rs1 ∧ d.rs2 = rs2 ∧ d.imm.b = .ofInt 32 imm ∧
      condition? d.funct3.toNat = some c
  | .load o rd rs1 imm, d =>
    d.kind = some .load ∧ d.rd = rd ∧ d.rs1 = rs1 ∧ d.imm.i = .ofInt 32 imm ∧
      load? d.funct3.toNat = some o
  | .store o rs1 rs2 imm, d =>
    d.kind = some .store ∧ d.rs1 = rs1 ∧ d.rs2 = rs2 ∧ d.imm.s = .ofInt 32 imm ∧
      store? d.funct3.toNat = some o
  | .opImm o rd rs1 imm, d =>
    d.kind = some .aluImm ∧ d.rd = rd ∧ d.rs1 = rs1 ∧ d.aluOp = o.unit ∧
      ∀ a, o.eval a d.imm.i = o.eval a (.ofInt 32 imm)
  | .op o rd rs1 rs2, d =>
    d.kind = some .aluReg ∧ d.rd = rd ∧ d.rs1 = rs1 ∧ d.rs2 = rs2 ∧ d.aluOp = o.unit

/-- Every word that encodes an instruction is decoded to match it. -/
theorem decode_matches {w : Word} {i : Insn} (h : decode? w.toNat = some i) :
    i.Matches (.decode w) := by
  have hkind : (Instr.decode w).kind = Kind.ofOpcode? (field w.toNat 0 7) :=
    congrArg Kind.ofOpcode? (toNat_bits w 0 7)
  have hfunct3 : (Instr.decode w).funct3.toNat = field w.toNat 12 3 := toNat_bits w 12 3
  have hfunct7 : (Instr.decode w).funct7.toNat = field w.toNat 25 7 := toNat_bits w 25 7
  have hrd : (Instr.decode w).rd = reg w.toNat 7 := bits_eq_reg w 7
  have hrs1 : (Instr.decode w).rs1 = reg w.toNat 15 := bits_eq_reg w 15
  have hrs2 : (Instr.decode w).rs2 = reg w.toNat 20 := bits_eq_reg w 20
  -- One case for each major opcode, in the order of `decode?`.
  unfold decode? at h
  split at h
  case h_10 => cases h
  all_goals
    rename_i hopcode
    rw [hopcode] at hkind
  · cases h
    exact ⟨hkind, hrd, immU_eq w⟩
  · cases h
    exact ⟨hkind, hrd, immU_eq w⟩
  · cases h
    exact ⟨hkind, hrd, immJ_eq w⟩
  · split at h
    · cases h
      exact ⟨hkind, hrd, hrs1, immI_eq w⟩
    · cases h
  · obtain ⟨c, hc, rfl⟩ := Option.map_eq_some_iff.1 h
    exact ⟨hkind, hrs1, hrs2, immB_eq w, hfunct3 ▸ hc⟩
  · obtain ⟨op, hop, rfl⟩ := Option.map_eq_some_iff.1 h
    exact ⟨hkind, hrd, hrs1, immI_eq w, hfunct3 ▸ hop⟩
  · obtain ⟨op, hop, rfl⟩ := Option.map_eq_some_iff.1 h
    exact ⟨hkind, hrs1, hrs2, immS_eq w, hfunct3 ▸ hop⟩
  · obtain ⟨⟨op, imm⟩, hop, rfl⟩ := Option.map_eq_some_iff.1 h
    obtain ⟨hunit, himm⟩ := ofFunct_of_immediate? hop
    have haluOp : (Instr.decode w).aluOp = AluOp.ofFunct w.funct3 w.funct7 false := by
      unfold Instr.aluOp Instr.is
      rw [hkind]
      rfl
    exact ⟨hkind, hrd, hrs1, haluOp.trans hunit, himm⟩
  · obtain ⟨op, hop, rfl⟩ := Option.map_eq_some_iff.1 h
    rw [← hfunct3, ← hfunct7] at hop
    have haluOp : (Instr.decode w).aluOp = AluOp.ofFunct w.funct3 w.funct7 true := by
      unfold Instr.aluOp Instr.is
      rw [hkind]
      rfl
    exact ⟨hkind, hrd, hrs1, hrs2, haluOp.trans (ofFunct_of_operation? hop)⟩

end Multicycle.Rv32i
