/-
Encoding and decoding undo each other. The six layouts of the base instruction set place registers,
function codes and the slices of an immediate side by side above the major opcode. The decoder gives
back the operands that a word was made of, and the operands that it reads off a word of any kind make
that word again. Here a layout is a concatenation of bits and an opcode a place in the opcode map;
neither is taken from the decoder.
-/
import Multicycle.Instr
import Mathlib.Tactic

namespace Multicycle.Rv32i

open BitVec (extractLsb'_eq_self extractLsb'_append_eq_of_le extractLsb'_append_eq_of_add_le
  extractLsb'_append_extractLsb'_eq_extractLsb')

/-! ## Immediates -/

/-- A multiple of `step` from `low` to `high`. -/
structure Imm (step low high : Int) where
  value : Int
  dvd : step ∣ value
  low_le : low ≤ value
  le_high : value ≤ high

namespace Imm

variable {step low high : Int}

/-- The two's complement of an immediate. -/
def word (imm : Imm step low high) : Word := .ofInt 32 imm.value

/-- The `n` bits of an immediate from bit `start` on. -/
def bits (imm : Imm step low high) (start n : Nat) : BitVec n := imm.word.extractLsb' start n

theorem toInt_bits (imm : Imm step low high) {n : Nat} (hn : n ≤ 32) :
    (imm.bits 0 n).toInt = imm.value.bmod (2 ^ n) := by
  unfold bits word
  rw [← BitVec.setWidth_eq_extractLsb' hn, ← BitVec.signExtend_eq_setWidth_of_le _ hn,
    BitVec.toInt_signExtend, BitVec.toInt_ofInt, Nat.min_eq_left hn,
    Int.bmod_bmod_of_dvd (Nat.pow_dvd_pow 2 hn)]

/-- An immediate that fits in some low bits is their sign extension. -/
theorem signExtend_bits (imm : Imm step low high) {n : Nat} (hn : n < 32) (hlow : -2 ^ n ≤ low)
    (hhigh : high < 2 ^ n) : (imm.bits 0 (n + 1)).signExtend 32 = imm.word := by
  have hlow_le := imm.low_le
  have hle_high := imm.le_high
  have hvalue : (imm.bits 0 (n + 1)).toInt = imm.value := by
    rw [toInt_bits imm hn, Nat.pow_succ]
    apply Int.bmod_eq_of_le
    · push_cast
      omega
    · push_cast
      omega
  rw [BitVec.signExtend, hvalue]
  rfl

/-- The low bits of a multiple of a power of two are zero. -/
theorem bits_of_dvd (imm : Imm step low high) {n : Nat} (hn : n ≤ 32)
    (hstep : (2 : Int) ^ n ∣ step) : imm.bits 0 n = 0#n := by
  apply BitVec.eq_of_toInt_eq
  rw [toInt_bits imm hn, BitVec.toInt_zero]
  apply Int.bmod_eq_zero_of_dvd
  rw [Nat.cast_pow]
  exact hstep.trans imm.dvd

end Imm

/-! ## Layouts -/

inductive Format where
  | r
  | i
  | s
  | b
  | u
  | j
  deriving DecidableEq

/-- The operands that a layout has room for. -/
inductive Operands : Format → Type where
  | r (rd rs1 rs2 : BitVec 5) (funct3 : BitVec 3) (funct7 : BitVec 7) : Operands .r
  | i (rd rs1 : BitVec 5) (funct3 : BitVec 3) (imm : Imm 1 (-2048) 2047) : Operands .i
  | s (rs1 rs2 : BitVec 5) (funct3 : BitVec 3) (imm : Imm 1 (-2048) 2047) : Operands .s
  | b (rs1 rs2 : BitVec 5) (funct3 : BitVec 3) (imm : Imm 2 (-4096) 4094) : Operands .b
  | u (rd : BitVec 5) (imm : Imm 4096 (-2 ^ 31) (2 ^ 32 - 4096)) : Operands .u
  | j (rd : BitVec 5) (imm : Imm 2 (-2 ^ 20) (2 ^ 20 - 2)) : Operands .j

namespace Operands

variable {format : Format}

/-- The operands laid out above an opcode. -/
def word (opcode : BitVec 7) : Operands format → Word
  | r rd rs1 rs2 funct3 funct7 => funct7 ++ rs2 ++ rs1 ++ funct3 ++ rd ++ opcode
  | i rd rs1 funct3 imm => imm.bits 0 12 ++ rs1 ++ funct3 ++ rd ++ opcode
  | s rs1 rs2 funct3 imm => imm.bits 5 7 ++ rs2 ++ rs1 ++ funct3 ++ imm.bits 0 5 ++ opcode
  | b rs1 rs2 funct3 imm =>
    imm.bits 12 1 ++ imm.bits 5 6 ++ rs2 ++ rs1 ++ funct3 ++ imm.bits 1 4 ++ imm.bits 11 1 ++ opcode
  | u rd imm => imm.bits 12 20 ++ rd ++ opcode
  | j rd imm =>
    imm.bits 20 1 ++ imm.bits 1 10 ++ imm.bits 11 1 ++ imm.bits 12 8 ++ rd ++ opcode

/-- The operands are in the fields of a decoded instruction, the immediate in the view of the
layout. -/
def ReadIn (d : Instr) : Operands format → Prop
  | r rd rs1 rs2 funct3 funct7 =>
    d.rd = rd ∧ d.rs1 = rs1 ∧ d.rs2 = rs2 ∧ d.funct3 = funct3 ∧ d.funct7 = funct7
  | i rd rs1 funct3 imm => d.rd = rd ∧ d.rs1 = rs1 ∧ d.funct3 = funct3 ∧ d.imm.i = imm.word
  | s rs1 rs2 funct3 imm => d.rs1 = rs1 ∧ d.rs2 = rs2 ∧ d.funct3 = funct3 ∧ d.imm.s = imm.word
  | b rs1 rs2 funct3 imm => d.rs1 = rs1 ∧ d.rs2 = rs2 ∧ d.funct3 = funct3 ∧ d.imm.b = imm.word
  | u rd imm => d.rd = rd ∧ d.imm.u = imm.word
  | j rd imm => d.rd = rd ∧ d.imm.j = imm.word

/-! ## From operands to words and back -/

section Immediates

variable (opcode : BitVec 7) (rd rs1 rs2 : BitVec 5) (funct3 : BitVec 3)

theorem immI_word (imm) : Word.immI ((i rd rs1 funct3 imm).word opcode) = imm.word := by
  simp (disch := decide) only [Word.immI, word, extractLsb'_append_eq_of_le, Nat.reduceSub,
    extractLsb'_eq_self]
  exact imm.signExtend_bits (n := 11) (by decide) (by decide) (by decide)

theorem immS_word (imm) : Word.immS ((s rs1 rs2 funct3 imm).word opcode) = imm.word := by
  simp (disch := decide) only [Word.immS, word, extractLsb'_append_eq_of_le,
    extractLsb'_append_eq_of_add_le, Nat.reduceSub, extractLsb'_eq_self]
  simp (disch := decide) only [Imm.bits, extractLsb'_append_extractLsb'_eq_extractLsb']
  exact imm.signExtend_bits (n := 11) (by decide) (by decide) (by decide)

theorem immB_word (imm) : Word.immB ((b rs1 rs2 funct3 imm).word opcode) = imm.word := by
  simp (disch := decide) only [Word.immB, word, extractLsb'_append_eq_of_le,
    extractLsb'_append_eq_of_add_le, Nat.reduceSub, extractLsb'_eq_self]
  -- The lowest bit of the offset is not laid out: it is the zero that an even number ends in.
  rw [← imm.bits_of_dvd (by decide) (by decide)]
  simp (disch := decide) only [Imm.bits, extractLsb'_append_extractLsb'_eq_extractLsb']
  exact imm.signExtend_bits (n := 12) (by decide) (by decide) (by decide)

theorem immU_word (imm) : Word.immU ((u rd imm).word opcode) = imm.word := by
  simp (disch := decide) only [Word.immU, word, extractLsb'_append_eq_of_le, Nat.reduceSub,
    extractLsb'_eq_self]
  rw [← imm.bits_of_dvd (by decide) (by decide)]
  simp (disch := decide) only [Imm.bits, extractLsb'_append_extractLsb'_eq_extractLsb']
  exact extractLsb'_eq_self

theorem immJ_word (imm) : Word.immJ ((j rd imm).word opcode) = imm.word := by
  simp (disch := decide) only [Word.immJ, word, extractLsb'_append_eq_of_le,
    extractLsb'_append_eq_of_add_le, Nat.reduceSub, extractLsb'_eq_self]
  rw [← imm.bits_of_dvd (by decide) (by decide)]
  simp (disch := decide) only [Imm.bits, extractLsb'_append_extractLsb'_eq_extractLsb']
  exact imm.signExtend_bits (n := 20) (by decide) (by decide) (by decide)

end Immediates

theorem opcode_word (opcode : BitVec 7) (x : Operands format) :
    (x.word opcode).opcode = opcode := by
  cases x <;>
    simp (disch := decide) only [Word.opcode, word, extractLsb'_append_eq_of_add_le,
      extractLsb'_eq_self]

/-- The decoder gives back what a word was made of. -/
theorem readIn_decode_word (opcode : BitVec 7) (x : Operands format) :
    x.ReadIn (.decode (x.word opcode)) := by
  cases x
  case' r => refine ⟨?_, ?_, ?_, ?_, ?_⟩
  case' i => refine ⟨?_, ?_, ?_, immI_word ..⟩
  case' s => refine ⟨?_, ?_, ?_, immS_word ..⟩
  case' b => refine ⟨?_, ?_, ?_, immB_word ..⟩
  case' u => refine ⟨?_, immU_word ..⟩
  case' j => refine ⟨?_, immJ_word ..⟩
  -- The registers and the function codes are each laid out where the decoder looks for them.
  all_goals
    simp (disch := decide) only [Instr.decode, Word.rd, Word.funct3, Word.rs1, Word.rs2, Word.funct7,
      word, extractLsb'_append_eq_of_le, extractLsb'_append_eq_of_add_le, Nat.reduceSub,
      extractLsb'_eq_self]

theorem extractLsb'_signExtend {n start len : Nat} (x : BitVec n) (hn : n ≤ 32)
    (h : start + len ≤ n) : (x.signExtend 32).extractLsb' start len = x.extractLsb' start len := by
  apply BitVec.eq_of_getLsbD_eq
  intro k hk
  have hin : start + k < n := by omega
  rw [BitVec.getLsbD_extractLsb', BitVec.getLsbD_extractLsb', BitVec.getLsbD_signExtend, if_pos hin,
    decide_eq_true (hin.trans_le hn), Bool.true_and]

/-- The operands that the decoder reads off a word make the word again. -/
theorem word_of_readIn {w : Word} {x : Operands format} (h : x.ReadIn (.decode w)) :
    x.word w.opcode = w := by
  cases x
  case' r => obtain ⟨rfl, rfl, rfl, rfl, rfl⟩ := h
  case' i | s | b => obtain ⟨rfl, rfl, rfl, himm⟩ := h
  case' u | j => obtain ⟨rfl, himm⟩ := h
  -- Each slice of an immediate is the slice of the word that it was read from.
  case' i | s | b | u | j =>
    simp (disch := decide) only [word, Imm.bits, ← himm, Instr.decode, Immediates.ofWord, Word.immI,
      Word.immS, Word.immB, Word.immU, Word.immJ, extractLsb'_signExtend,
      extractLsb'_append_eq_of_le, extractLsb'_append_eq_of_add_le, Nat.reduceSub,
      extractLsb'_eq_self]
  -- The slices of the word are adjacent, and together all of it.
  all_goals
    simp (disch := decide) only [word, Instr.decode, Word.opcode, Word.rd, Word.funct3, Word.rs1,
      Word.rs2, Word.funct7, extractLsb'_append_extractLsb'_eq_extractLsb']
    exact extractLsb'_eq_self

/-! ## The operands of a word -/

theorem toInt_signExtend_bounds {n : Nat} (x : BitVec (n + 1)) (hn : n < 32) :
    -2 ^ n ≤ (x.signExtend 32).toInt ∧ (x.signExtend 32).toInt < 2 ^ n := by
  rw [BitVec.toInt_signExtend_of_le hn]
  exact ⟨x.le_toInt, x.toInt_lt⟩

theorem immI_range (w : Word) : -2048 ≤ w.immI.toInt ∧ w.immI.toInt ≤ 2047 := by
  obtain ⟨hlow, hhigh⟩ := toInt_signExtend_bounds (n := 11) (w.extractLsb' 20 12) (by decide)
  exact ⟨hlow, Int.le_of_lt_add_one hhigh⟩

theorem immS_range (w : Word) : -2048 ≤ w.immS.toInt ∧ w.immS.toInt ≤ 2047 := by
  obtain ⟨hlow, hhigh⟩ := toInt_signExtend_bounds (n := 11)
    (w.extractLsb' 25 7 ++ w.extractLsb' 7 5) (by decide)
  exact ⟨hlow, Int.le_of_lt_add_one hhigh⟩

theorem two_dvd_immB (w : Word) : 2 ∣ w.immB.toInt := by
  unfold Word.immB
  rw [BitVec.toInt_signExtend_of_le (by decide), BitVec.toInt_append_zero]
  exact Int.dvd_mul_right _ _

theorem immB_range (w : Word) : -4096 ≤ w.immB.toInt ∧ w.immB.toInt ≤ 4094 := by
  have heven := two_dvd_immB w
  obtain ⟨hlow, hhigh⟩ : -2 ^ 12 ≤ w.immB.toInt ∧ w.immB.toInt < 2 ^ 12 :=
    toInt_signExtend_bounds (n := 12) _ (by decide)
  exact ⟨hlow, by omega⟩

theorem immU_range (w : Word) :
    4096 ∣ w.immU.toInt ∧ -2 ^ 31 ≤ w.immU.toInt ∧ w.immU.toInt ≤ 2 ^ 32 - 4096 := by
  have hdvd : 4096 ∣ w.immU.toInt := by
    unfold Word.immU
    rw [BitVec.toInt_append_zero]
    exact Int.dvd_mul_right _ _
  have hhigh : w.immU.toInt < 2 ^ 31 := w.immU.toInt_lt
  exact ⟨hdvd, w.immU.le_toInt, by omega⟩

theorem two_dvd_immJ (w : Word) : 2 ∣ w.immJ.toInt := by
  unfold Word.immJ
  rw [BitVec.toInt_signExtend_of_le (by decide), BitVec.toInt_append_zero]
  exact Int.dvd_mul_right _ _

theorem immJ_range (w : Word) : -2 ^ 20 ≤ w.immJ.toInt ∧ w.immJ.toInt ≤ 2 ^ 20 - 2 := by
  have heven := two_dvd_immJ w
  obtain ⟨hlow, hhigh⟩ : -2 ^ 20 ≤ w.immJ.toInt ∧ w.immJ.toInt < 2 ^ 20 :=
    toInt_signExtend_bounds (n := 20) _ (by decide)
  exact ⟨hlow, by omega⟩

/-- The operands that the decoder reads off a word for a layout. -/
def ofWord (w : Word) (format : Format) : Operands format :=
  let d := Instr.decode w
  match format with
  | .r => r d.rd d.rs1 d.rs2 d.funct3 d.funct7
  | .i => i d.rd d.rs1 d.funct3 ⟨d.imm.i.toInt, one_dvd _, (immI_range w).1, (immI_range w).2⟩
  | .s => s d.rs1 d.rs2 d.funct3 ⟨d.imm.s.toInt, one_dvd _, (immS_range w).1, (immS_range w).2⟩
  | .b =>
    b d.rs1 d.rs2 d.funct3 ⟨d.imm.b.toInt, two_dvd_immB w, (immB_range w).1, (immB_range w).2⟩
  | .u => u d.rd ⟨d.imm.u.toInt, (immU_range w).1, (immU_range w).2.1, (immU_range w).2.2⟩
  | .j => j d.rd ⟨d.imm.j.toInt, two_dvd_immJ w, (immJ_range w).1, (immJ_range w).2⟩

theorem readIn_ofWord (w : Word) (format : Format) : (ofWord w format).ReadIn (.decode w) := by
  have hview : ∀ v : Word, v = .ofInt 32 v.toInt := fun _ => BitVec.ofInt_toInt.symm
  cases format with
  | r => exact ⟨rfl, rfl, rfl, rfl, rfl⟩
  | i => exact ⟨rfl, rfl, rfl, hview _⟩
  | s => exact ⟨rfl, rfl, rfl, hview _⟩
  | b => exact ⟨rfl, rfl, rfl, hview _⟩
  | u => exact ⟨rfl, hview _⟩
  | j => exact ⟨rfl, hview _⟩

end Operands

/-! ## Kinds -/

/-- The layout of a kind's words. -/
def Format.ofKind : Kind → Format
  | .aluReg => .r
  | .aluImm | .jalr | .load | .system => .i
  | .store => .s
  | .branch => .b
  | .auipc | .lui => .u
  | .jal => .j

/-- The major opcode of a kind, by its row and its column in the opcode map of the words of 32 bits. -/
def majorOpcode : Kind → BitVec 7
  | .load => 0b00#2 ++ 0b000#3 ++ 0b11#2
  | .aluImm => 0b00#2 ++ 0b100#3 ++ 0b11#2
  | .auipc => 0b00#2 ++ 0b101#3 ++ 0b11#2
  | .store => 0b01#2 ++ 0b000#3 ++ 0b11#2
  | .aluReg => 0b01#2 ++ 0b100#3 ++ 0b11#2
  | .lui => 0b01#2 ++ 0b101#3 ++ 0b11#2
  | .branch => 0b11#2 ++ 0b000#3 ++ 0b11#2
  | .jalr => 0b11#2 ++ 0b001#3 ++ 0b11#2
  | .jal => 0b11#2 ++ 0b011#3 ++ 0b11#2
  | .system => 0b11#2 ++ 0b100#3 ++ 0b11#2

def encode (kind : Kind) (x : Operands (.ofKind kind)) : Word := x.word (majorOpcode kind)

theorem opcode_eq_majorOpcode (kind : Kind) : kind.opcode = majorOpcode kind := by
  cases kind <;> rfl

/-- The kind of a word is told by its low seven bits. -/
theorem kind_eq_some_iff {w : Word} {kind : Kind} :
    (Instr.decode w).kind = some kind ↔ w.opcode = majorOpcode kind := by
  rw [← opcode_eq_majorOpcode]
  constructor
  · exact Instr.opcode_of_kind
  · intro h
    unfold Instr.decode
    rw [h]
    exact kind.ofOpcode?_opcode

theorem kind_eq_none_iff {w : Word} : (Instr.decode w).kind = none ↔
    ∀ kind, w.toNat % 2 ^ 7 ≠ (majorOpcode kind).toNat := by
  have hlow : w.opcode.toNat = w.toNat % 2 ^ 7 := BitVec.extractLsb'_toNat ..
  rw [Option.eq_none_iff_forall_ne_some]
  refine forall_congr' fun kind => not_congr ?_
  rw [kind_eq_some_iff, ← BitVec.toNat_inj, hlow]

theorem is_iff {d : Instr} {kind : Kind} : d.is kind = true ↔ d.kind = some kind := beq_iff_eq

/-- A kind sets one flag, no kind none. -/
theorem count_flags (d : Instr) : d.flags.count true = if d.kind.isSome then 1 else 0 := by
  unfold Instr.flags Instr.is
  cases d.kind with
  | none => rfl
  | some kind => cases kind <;> rfl

/-- For every kind and all operands of its layout, the word that they encode to is decoded to this kind
alone and to these operands. A word of any kind is what the operands read off it encode to, and every
branch or jump offset is even. The words without a kind are those whose low seven bits are no major
opcode, and none of their flags is set. -/
theorem decode_encode_inverse :
    (∀ (kind : Kind) (x : Operands (.ofKind kind)), let d := Instr.decode (encode kind x)
      d.kind = some kind ∧ (∀ other, d.is other = true ↔ other = kind) ∧ d.flags.count true = 1 ∧
        x.ReadIn d) ∧
    (∀ w : Word, let d := Instr.decode w
      (∀ kind, d.kind = some kind → (Operands.ofWord w (.ofKind kind)).ReadIn d ∧
        encode kind (.ofWord w (.ofKind kind)) = w) ∧
      2 ∣ d.imm.b.toInt ∧ 2 ∣ d.imm.j.toInt) ∧
    (∀ w : Word, let d := Instr.decode w
      (d.kind = none ↔ ∀ kind, w.toNat % 2 ^ 7 ≠ (majorOpcode kind).toNat) ∧
      (d.kind = none → (∀ kind, d.is kind = false) ∧ d.flags.count true = 0)) := by
  refine ⟨fun kind x => ?_, fun w => ⟨fun kind hkind => ?_, Operands.two_dvd_immB w,
    Operands.two_dvd_immJ w⟩, fun w => ⟨kind_eq_none_iff, fun hnone => ⟨fun kind => ?_, ?_⟩⟩⟩
  · have hkind : (Instr.decode (encode kind x)).kind = some kind :=
      kind_eq_some_iff.2 (x.opcode_word _)
    refine ⟨hkind, fun other => ?_, ?_, x.readIn_decode_word _⟩
    · rw [is_iff, hkind, Option.some.injEq, eq_comm]
    · rw [count_flags, hkind]
      rfl
  · have hread := Operands.readIn_ofWord w (.ofKind kind)
    refine ⟨hread, ?_⟩
    unfold encode
    rw [← kind_eq_some_iff.1 hkind]
    exact Operands.word_of_readIn hread
  · rw [← Bool.not_eq_true, is_iff, hnone]
    exact (Option.some_ne_none kind).symm
  · rw [count_flags, hnone]
    rfl

/-- A branch backwards by 2050 bytes, where bit 12 of the offset is set and bit 11 is not, and a word of
zeros, which has no kind. -/
theorem decode_encode_inverse_backward :
    let bne : Operands .b := .b 5 6 1 ⟨-2050, by decide, by decide, by decide⟩
    encode .branch bne = 0xfe629f63#32 ∧ (Instr.decode 0xfe629f63#32).imm.b = 0xfffff7fe#32 ∧
      encode .branch (.ofWord 0xfe629f63#32 .b) = 0xfe629f63#32 ∧
      (Instr.decode 0#32).flags.count true = 0 := by
  intro bne
  obtain ⟨hdecode, hencode, hnone⟩ := decode_encode_inverse
  have hword : encode .branch bne = 0xfe629f63#32 := by decide
  obtain ⟨hkind, -, -, -, -, -, himm⟩ := hdecode .branch bne
  rw [hword] at hkind himm
  exact ⟨hword, himm, ((hencode _).1 .branch hkind).2, ((hnone 0#32).2 (by decide)).2⟩

end Multicycle.Rv32i
