/-
The results of the arithmetic instructions as integers, for every word of the two arithmetic kinds and
not only for those that the base instruction set defines. The operation is told by the function code
of three bits and by bit 30 of the word; nothing else above the register fields has a say. Immediates
are added only, for there bit 30 belongs to the number.
-/
import Multicycle.Proofs.Rv32i.Values

namespace Multicycle.Rv32i

/-! ## Operations of words -/

/-- The operation that an arithmetic word asks for. Bit 30 makes a right shift copy the sign, and an
addition of two registers a subtraction. -/
def operation (register : Bool) (w : Nat) : Operation :=
  match field w 12 3 with
  | 0 => if register && w.testBit 30 then .sub else .add
  | 1 => .sll
  | 2 => .slt
  | 3 => .sltu
  | 4 => .xor
  | 5 => if w.testBit 30 then .sra else .srl
  | 6 => .or
  | _ => .and

theorem aluOp_decode (w : Word) :
    (Instr.decode w).aluOp = (operation ((Instr.decode w).is .aluReg) w.toNat).unit := by
  have hcode : (Instr.decode w).funct3.toNat = field w.toNat 12 3 := toNat_bits w 12 3
  have hbit : (Instr.decode w).funct7.getLsbD 5 = w.toNat.testBit 30 :=
    BitVec.getLsbD_extractLsb' ..
  unfold Instr.aluOp AluOp.ofFunct operation
  rw [hcode, hbit]
  generalize field w.toNat 12 3 = code
  generalize w.toNat.testBit 30 = alternate
  generalize (Instr.decode w).is .aluReg = register
  match code with
  | 0 => cases alternate <;> cases register <;> rfl
  | 5 => cases alternate <;> rfl
  | 1 | 2 | 3 | 4 | 6 => rfl
  | _ + 7 => rfl

/-- Both kinds are computed alike, but for the second operand. -/
theorem aluResult_decode (w rs1 rs2 : Word) :
    (Instr.decode w).aluResult rs1 rs2 =
      BitVec.ofInt 32 ((operation ((Instr.decode w).is .aluReg) w.toNat).eval rs1
        (if (Instr.decode w).is .aluReg then rs2 else w.immI)) := by
  unfold Instr.aluResult
  rw [aluOp_decode, eval_unit]
  rfl

/-! ## Bits that have a say -/

theorem extractLsb'_congr {v w : Word} {low n : Nat}
    (h : ∀ i, low ≤ i → i < low + n → v.getLsbD i = w.getLsbD i) :
    v.extractLsb' low n = w.extractLsb' low n := by
  ext i hi
  rw [BitVec.getElem_extractLsb', BitVec.getElem_extractLsb']
  exact h (low + i) (Nat.le_add_right ..) (Nat.add_lt_add_left hi low)

/-- Words alike below bit 25 and in bit 30 have the same kind and ask for the same operation. -/
theorem operation_congr {v w : Word} (h : ∀ i, i < 25 ∨ i = 30 → v.getLsbD i = w.getLsbD i)
    (register : Bool) :
    (Instr.decode v).kind = (Instr.decode w).kind ∧
      operation register v.toNat = operation register w.toNat := by
  have hopcode : v.opcode = w.opcode := extractLsb'_congr fun i _ hi => h i (.inl (by omega))
  have hcode : v.funct3 = w.funct3 := extractLsb'_congr fun i _ hi => h i (.inl (by omega))
  have hfield : field v.toNat 12 3 = field w.toNat 12 3 := by
    rw [← toNat_bits, ← toNat_bits]
    exact congrArg BitVec.toNat hcode
  have hbit : v.toNat.testBit 30 = w.toNat.testBit 30 := h 30 (.inr rfl)
  constructor
  · unfold Instr.decode
    rw [hopcode]
  · unfold operation
    rw [hfield, hbit]

/-! ## Results -/

/-- For every word of an arithmetic kind and all operands, the result is that of the operation on
integers, modulo 2^32. Two registers give the same result whatever stands in the seven bits of the
function code, bit 30 apart; with an immediate the second register does not matter. -/
theorem aluResult_eq_ofInt (w rs1 rs2 : Word) :
    ((Instr.decode w).kind = some .aluReg →
      (Instr.decode w).aluResult rs1 rs2 =
          BitVec.ofInt 32 ((operation true w.toNat).eval rs1 rs2) ∧
        ∀ v : Word, (∀ i, i < 25 ∨ i = 30 → v.getLsbD i = w.getLsbD i) →
          (Instr.decode v).aluResult rs1 rs2 = (Instr.decode w).aluResult rs1 rs2) ∧
    ((Instr.decode w).kind = some .aluImm →
      (Instr.decode w).aluResult rs1 rs2 =
          BitVec.ofInt 32 ((operation false w.toNat).eval rs1 (.ofInt 32 (immI w.toNat))) ∧
        ∀ rs2', (Instr.decode w).aluResult rs1 rs2' = (Instr.decode w).aluResult rs1 rs2) := by
  constructor
  · intro hkind
    have hregister : ∀ v : Word, (Instr.decode v).kind = some .aluReg →
        (Instr.decode v).aluResult rs1 rs2 =
          BitVec.ofInt 32 ((operation true v.toNat).eval rs1 rs2) := by
      intro v hv
      have his : (Instr.decode v).is .aluReg = true := beq_iff_eq.2 hv
      rw [aluResult_decode, his, if_pos rfl]
    refine ⟨hregister w hkind, fun v halike => ?_⟩
    obtain ⟨hsame, hop⟩ := operation_congr halike true
    rw [hregister v (hsame.trans hkind), hregister w hkind, hop]
  · intro hkind
    have himmediate : ∀ rs2, (Instr.decode w).aluResult rs1 rs2 =
        BitVec.ofInt 32 ((operation false w.toNat).eval rs1 (.ofInt 32 (immI w.toNat))) := by
      intro rs2
      have his : (Instr.decode w).is .aluReg = false := by
        unfold Instr.is
        rw [hkind]
        rfl
      rw [aluResult_decode, his, immI_eq, if_neg Bool.false_ne_true]
    exact ⟨himmediate rs2, fun rs2' => (himmediate rs2').trans (himmediate rs2).symm⟩

/-- A negative immediate, which has bit 30 set, is added; two registers with bits 31 to 25 all set
are subtracted, as with bit 30 alone. -/
theorem aluResult_eq_ofInt_negative :
    (Instr.decode 0xfff00093).kind = some .aluImm ∧
      (Instr.decode 0xfff00093).aluResult 5 7 = 4 ∧
      (Instr.decode 0xfe0000b3).kind = some .aluReg ∧
      (Instr.decode 0xfe0000b3).aluResult 3 5 = 0xfffffffe ∧
      (Instr.decode 0x400000b3).aluResult 3 5 = (Instr.decode 0xfe0000b3).aluResult 3 5 := by
  have hadd := ((aluResult_eq_ofInt 0xfff00093 5 7).2 (by decide)).1
  obtain ⟨hsub, hbits⟩ := (aluResult_eq_ofInt 0xfe0000b3 3 5).1 (by decide)
  refine ⟨by decide, hadd.trans (by decide), by decide, hsub.trans (by decide), hbits _ ?_⟩
  rintro i (hi | rfl)
  · interval_cases i <;> rfl
  · rfl

end Multicycle.Rv32i
