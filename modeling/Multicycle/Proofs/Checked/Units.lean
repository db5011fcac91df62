/-
The combinational units with every step checked that can go wrong: a shift by as much as its operand
is wide, a number that names no register, a difference below zero. Here the fields, immediates,
shifts and lanes are computed by masks and shifts of whole words, so that no width in a type keeps
them in bounds. Each unit comes to the value of its unchecked counterpart, and never fails.
-/
import Multicycle.Core
import Multicycle.Proofs.Except

namespace Multicycle

/-- What a tick must not do. -/
inductive Misuse where
  | register (index : Nat)
  | shift (amount width : Nat)
  | difference (minuend subtrahend : Nat)
  | cell (index size : Nat)
  | counter (counts : List Nat)
  deriving DecidableEq

abbrev Checked := Except Misuse

namespace Checked

/-! ## Operations -/

section
variable {width n : Nat} {x : BitVec width}

def shl (x : BitVec width) (n : Nat) : Checked (BitVec width) :=
  if n < width then .ok (x <<< n) else .error (.shift n width)

def shr (x : BitVec width) (n : Nat) : Checked (BitVec width) :=
  if n < width then .ok (x >>> n) else .error (.shift n width)

/-- The shift that brings in copies of the sign. -/
def sar (x : BitVec width) (n : Nat) : Checked (BitVec width) :=
  if n < width then .ok (x.sshiftRight n) else .error (.shift n width)

@[simp] theorem shl_of_lt (h : n < width) : shl x n = .ok (x <<< n) := if_pos h

@[simp] theorem shr_of_lt (h : n < width) : shr x n = .ok (x >>> n) := if_pos h

@[simp] theorem sar_of_lt (h : n < width) : sar x n = .ok (x.sshiftRight n) := if_pos h

end

def sub (a b : Nat) : Checked Nat := if b ≤ a then .ok (a - b) else .error (.difference a b)

@[simp] theorem sub_of_le {a b : Nat} (h : b ≤ a) : sub a b = .ok (a - b) := if_pos h

/-- The register of a number. -/
def register (index : Nat) : Checked (BitVec 5) :=
  if h : index < 32 then .ok (BitVec.ofNatLT index h) else .error (.register index)

theorem register_toNat (i : BitVec 5) : register i.toNat = .ok i := dif_pos i.isLt

end Checked

open Checked

/-! ## Fields -/

namespace Word

/-- The `n` bits from bit `low` on, as a number in a whole word. -/
def field (w : Word) (low n : Nat) : Checked Word := do
  .ok ((← shr w low) &&& (BitVec.allOnes n).setWidth 32)

/-- Masking a shifted word leaves the bits that a slice takes. -/
theorem shift_and_mask (w : Word) (low n : Nat) :
    w >>> low &&& (BitVec.allOnes n).setWidth 32 = (w.extractLsb' low n).setWidth 32 := by
  ext i hi
  simp only [BitVec.getElem_and, BitVec.getElem_ushiftRight, BitVec.getElem_setWidth,
    BitVec.getLsbD_allOnes, BitVec.getLsbD_extractLsb']
  exact Bool.and_comm ..

theorem field_eq (w : Word) {low : Nat} (h : low < 32) (n : Nat) :
    w.field low n = .ok ((w.extractLsb' low n).setWidth 32) := by
  unfold field
  rw [shr_of_lt h, ok_bind, shift_and_mask]

/-- The register that a field of a word names. -/
def registerAt (w : Word) (low : Nat) : Checked (BitVec 5) := do
  register (← w.field low 5).toNat

theorem registerAt_eq (w : Word) {low : Nat} (h : low < 32) :
    w.registerAt low = .ok (w.extractLsb' low 5) := by
  unfold registerAt
  rw [field_eq w h, ok_bind, BitVec.toNat_setWidth_of_le (by decide), register_toNat]

/-! ## Immediates -/

/-- The number in the low `n` bits, its sign copied to the bits above. -/
def signExtended (n : Nat) (w : Word) : Checked Word := do
  let amount ← sub 32 n
  sar (← shl w amount) amount

def immIChecked (w : Word) : Checked Word := sar w 20

def immSChecked (w : Word) : Checked Word := do
  let low ← w.field 7 5
  let high ← w.field 25 7
  signExtended 12 ((← shl high 5) ||| low)

def immBChecked (w : Word) : Checked Word := do
  let bit₁₁ ← w.field 7 1
  let bits₄ ← w.field 8 4
  let bits₁₀ ← w.field 25 6
  let bit₁₂ ← w.field 31 1
  signExtended 13
    ((← shl bit₁₂ 12) ||| (← shl bit₁₁ 11) ||| (← shl bits₁₀ 5) ||| (← shl bits₄ 1))

def immJChecked (w : Word) : Checked Word := do
  let bits₁₉ ← w.field 12 8
  let bit₁₁ ← w.field 20 1
  let bits₁₀ ← w.field 21 10
  let bit₂₀ ← w.field 31 1
  signExtended 21
    ((← shl bit₂₀ 20) ||| (← shl bits₁₉ 12) ||| (← shl bit₁₁ 11) ||| (← shl bits₁₀ 1))

/-- An arithmetic shift leaves the top slice of a word, sign-extended. -/
theorem sshiftRight_eq_signExtend (w : Word) {low n : Nat} (hn : 0 < n) (h : low + n = 32) :
    w.sshiftRight low = (w.extractLsb' low n).signExtend 32 := by
  have hlast : low + (n - 1) = 32 - 1 := by omega
  ext i hi
  rw [BitVec.getElem_sshiftRight, BitVec.getElem_signExtend]
  by_cases hin : i < n
  · rw [dif_pos (by omega), dif_pos hin, BitVec.getElem_extractLsb', ← BitVec.getLsbD_eq_getElem]
  · rw [dif_neg (by omega), dif_neg hin, BitVec.msb_eq_getLsbD_last, BitVec.msb_eq_getLsbD_last,
      BitVec.getLsbD_extractLsb', decide_eq_true (Nat.sub_lt hn Nat.one_pos), Bool.true_and, hlast]

/-- Two slices side by side are the first shifted past the second. -/
theorem setWidth_append {m n : Nat} (x : BitVec m) (y : BitVec n) (width : Nat) :
    (x ++ y).setWidth width = x.setWidth width <<< n ||| y.setWidth width := by
  ext i hi
  simp only [BitVec.getElem_shiftLeft, BitVec.getElem_or, BitVec.getElem_setWidth,
    BitVec.getLsbD_append]
  by_cases hn : i < n
  · simp [hn]
  · simp [hn, BitVec.getLsbD_of_ge y i (Nat.le_of_not_lt hn)]

theorem signExtended_setWidth {n : Nat} (x : BitVec n) (hn : 0 < n) (h : n ≤ 32) :
    signExtended n (x.setWidth 32) = .ok (x.signExtend 32) := by
  unfold signExtended
  rw [sub_of_le h, ok_bind, shl_of_lt (by omega), ok_bind, sar_of_lt (by omega),
    sshiftRight_eq_signExtend _ hn (by omega)]
  congr 2
  ext i hi
  simp only [BitVec.getElem_extractLsb', BitVec.getLsbD_shiftLeft, BitVec.getLsbD_setWidth]
  rw [Nat.add_sub_cancel_left]
  simp [hi, show 32 - n + i < 32 by omega, show i < 32 by omega]

theorem immIChecked_eq (w : Word) : w.immIChecked = .ok w.immI := by
  unfold immIChecked
  rw [sar_of_lt (by decide), sshiftRight_eq_signExtend w (n := 12) (by decide) rfl]
  rfl

theorem immSChecked_eq (w : Word) : w.immSChecked = .ok w.immS := by
  unfold immSChecked immS
  simp only [field_eq, ok_bind, shl_of_lt, Nat.reduceLT]
  rw [← signExtended_setWidth _ (by decide) (by decide), setWidth_append]

theorem immBChecked_eq (w : Word) : w.immBChecked = .ok w.immB := by
  unfold immBChecked immB
  simp only [field_eq, ok_bind, shl_of_lt, Nat.reduceLT]
  rw [← signExtended_setWidth _ (by decide) (by decide)]
  simp only [setWidth_append, BitVec.shiftLeft_or_distrib, ← BitVec.shiftLeft_add]
  simp

theorem immJChecked_eq (w : Word) : w.immJChecked = .ok w.immJ := by
  unfold immJChecked immJ
  simp only [field_eq, ok_bind, shl_of_lt, Nat.reduceLT]
  rw [← signExtended_setWidth _ (by decide) (by decide)]
  simp only [setWidth_append, BitVec.shiftLeft_or_distrib, ← BitVec.shiftLeft_add]
  simp

end Word

/-! ## Decoding -/

namespace Instr

/-- The decoded instruction, every field taken by shift and mask. -/
def decodeChecked (w : Word) : Checked Instr := do
  .ok
    { raw := w
      opcode := w.opcode
      kind := Kind.ofOpcode? w.opcode.toNat
      rd := ← w.registerAt 7
      rs1 := ← w.registerAt 15
      rs2 := ← w.registerAt 20
      funct3 := (← w.field 12 3).setWidth 3
      funct7 := (← w.field 25 7).setWidth 7
      imm := ⟨w.immU, ← w.immIChecked, ← w.immSChecked, ← w.immBChecked, ← w.immJChecked⟩ }

theorem decodeChecked_eq (w : Word) : decodeChecked w = .ok (decode w) := by
  unfold decodeChecked
  simp only [Word.registerAt_eq, Word.field_eq, Word.immIChecked_eq, Word.immSChecked_eq,
    Word.immBChecked_eq, Word.immJChecked_eq, ok_bind, Nat.reduceLT]
  rw [BitVec.setWidth_setWidth_of_le _ (by decide), BitVec.setWidth_setWidth_of_le _ (by decide),
    BitVec.setWidth_eq, BitVec.setWidth_eq]
  rfl

end Instr

/-! ## Arithmetic -/

/-- A mask of low bits takes a number modulo the next power of two. -/
theorem Word.toNat_and_allOnes (w : Word) {n : Nat} (h : n ≤ 32) :
    (w &&& (BitVec.allOnes n).setWidth 32).toNat = w.toNat % (1 <<< n) := by
  rw [BitVec.toNat_and, BitVec.toNat_setWidth_of_le h, BitVec.toNat_allOnes,
    Nat.and_two_pow_sub_one_eq_mod, Nat.one_shiftLeft]

/-- An operation, a shift by the five low bits of the second operand. -/
def AluOp.evalChecked (op : AluOp) (a b : Word) : Checked Word :=
  let amount := (b &&& (BitVec.allOnes 5).setWidth 32).toNat
  match op with
  | sll => shl a amount
  | srl => shr a amount
  | sra => sar a amount
  | add | sub | slt | sltu | xor | or | and => .ok (op.eval a b)

theorem AluOp.evalChecked_eq (op : AluOp) (a b : Word) : op.evalChecked a b = .ok (op.eval a b) := by
  have hlt : b.toNat % 32 < 32 := Nat.mod_lt _ (by decide)
  unfold evalChecked
  rw [Word.toNat_and_allOnes b (by decide)]
  cases op with
  | sll => exact shl_of_lt hlt
  | srl => exact shr_of_lt hlt
  | sra => exact sar_of_lt hlt
  | _ => rfl

def Instr.aluResultChecked (d : Instr) (rs1 rs2 : Word) : Checked Word :=
  d.aluOp.evalChecked rs1 (if d.is .aluReg then rs2 else d.imm.i)

/-! ## Loads -/

/-- The value of a load, the half and then the byte addressed shifted down to bit 0. -/
def loadValueChecked (data addr : Word) (funct3 : BitVec 3) : Checked Word := do
  let half ← data.field ((addr &&& 2).toNat * 8) 16
  let byte ← half.field ((addr &&& 1).toNat * 8) 8
  .ok <| match Width.ofFunct3 funct3, zeroExtends funct3 with
    | .byte, true => byte
    | .byte, false => (byte.setWidth 8).signExtend 32
    | .half, true => half
    | .half, false => (half.setWidth 16).signExtend 32
    | .word, _ => data

theorem field_half (data addr : Word) :
    data.field ((addr &&& 2).toNat * 8) 16 = .ok ((selectHalf data addr).setWidth 32) := by
  have h2 : addr &&& 2 = if addr.getLsbD 1 then 2 else 0 := BitVec.and_twoPow addr 1
  unfold selectHalf
  rw [h2]
  split
  · exact Word.field_eq data (by decide) 16
  · exact Word.field_eq data (by decide) 16

theorem field_byte (data addr : Word) :
    Word.field ((selectHalf data addr).setWidth 32) ((addr &&& 1).toNat * 8) 8 =
      .ok ((selectByte data addr).setWidth 32) := by
  have h1 : addr &&& 1 = if addr.getLsbD 0 then 1 else 0 := BitVec.and_twoPow addr 0
  unfold selectByte
  rw [h1]
  split
  · show Word.field ((selectHalf data addr).setWidth 32) 8 8 = _
    rw [Word.field_eq _ (by decide), BitVec.extractLsb'_setWidth_of_le (by decide)]
  · show Word.field ((selectHalf data addr).setWidth 32) 0 8 = _
    rw [Word.field_eq _ (by decide), BitVec.extractLsb'_setWidth_of_le (by decide)]

theorem loadValueChecked_eq (data addr : Word) (funct3 : BitVec 3) :
    loadValueChecked data addr funct3 = .ok (loadValue data addr funct3) := by
  have hhalf : ((selectHalf data addr).setWidth 32).setWidth 16 = selectHalf data addr := by
    rw [BitVec.setWidth_setWidth_of_le _ (by decide), BitVec.setWidth_eq]
  have hbyte : ((selectByte data addr).setWidth 32).setWidth 8 = selectByte data addr := by
    rw [BitVec.setWidth_setWidth_of_le _ (by decide), BitVec.setWidth_eq]
  unfold loadValueChecked loadValue
  rw [field_half, ok_bind, field_byte, ok_bind]
  cases Width.ofFunct3 funct3 <;> cases zeroExtends funct3 <;> simp only [hhalf, hbyte]

/-! ## Stores -/

/-- The value to store, its bytes shifted up into their lanes. -/
def spreadChecked (value addr : Word) : Checked Word := do
  let a₀ := addr.getLsbD 0
  let a₁ := addr.getLsbD 1
  let b₀ ← value.field 0 8
  let b₁ ← value.field 8 8
  let b₂ ← value.field 16 8
  let b₃ ← value.field 24 8
  let lane₁ := if a₀ then b₀ else b₁
  let lane₂ := if a₁ then b₀ else b₂
  let lane₃ := if a₀ then b₀ else if a₁ then b₁ else b₃
  .ok (b₀ ||| (← shl lane₁ 8) ||| (← shl lane₂ 16) ||| (← shl lane₃ 24))

theorem Word.ofBytes_eq_or (b₀ b₁ b₂ b₃ : Byte) :
    ofBytes b₀ b₁ b₂ b₃ =
      b₀.setWidth 32 ||| b₁.setWidth 32 <<< 8 ||| b₂.setWidth 32 <<< 16 ||| b₃.setWidth 32 <<< 24 := by
  calc ofBytes b₀ b₁ b₂ b₃
      = (b₃ ++ b₂ ++ b₁ ++ b₀).setWidth 32 := (BitVec.setWidth_eq _).symm
    _ = (((b₃.setWidth 32 <<< 8 ||| b₂.setWidth 32) <<< 8 ||| b₁.setWidth 32) <<< 8 |||
          b₀.setWidth 32) := by
        rw [setWidth_append (b₃ ++ b₂ ++ b₁), setWidth_append (b₃ ++ b₂), setWidth_append b₃]
    _ = _ := by
        simp only [BitVec.shiftLeft_or_distrib, ← BitVec.shiftLeft_add, Nat.reduceAdd]
        rw [BitVec.or_comm _ (b₀.setWidth 32), BitVec.or_comm _ (b₁.setWidth 32 <<< 8),
          BitVec.or_comm _ (b₂.setWidth 32 <<< 16), BitVec.or_assoc, BitVec.or_assoc]

theorem spreadChecked_eq (value addr : Word) : spreadChecked value addr = .ok (spread value addr) := by
  unfold spreadChecked spread
  rw [Word.ofBytes_eq_or]
  cases addr.getLsbD 0 <;> cases addr.getLsbD 1 <;>
    simp only [Word.field_eq, ok_bind, shl_of_lt, Nat.reduceLT] <;> rfl

def Width.maskChecked (width : Width) (addr : Word) : Checked Byte :=
  match width with
  | .byte => shl 1#8 (addr &&& 3).toNat
  | .half | .word => .ok (width.mask addr)

theorem Width.maskChecked_eq (width : Width) (addr : Word) :
    width.maskChecked addr = .ok (width.mask addr) := by
  have h3 : (addr &&& 3).toNat = addr.toNat % 4 := addr.toNat_and_allOnes (n := 2) (by decide)
  cases width with
  | byte =>
    unfold maskChecked mask
    rw [h3]
    exact shl_of_lt (by omega)
  | half => rfl
  | word => rfl

def storeLanesChecked (value addr : Word) (funct3 : BitVec 3) : Checked Lanes := do
  .ok ⟨← spreadChecked value addr, ← (Width.ofFunct3 funct3).maskChecked addr⟩

theorem storeLanesChecked_eq (value addr : Word) (funct3 : BitVec 3) :
    storeLanesChecked value addr funct3 = .ok (storeLanes value addr funct3) := by
  unfold storeLanesChecked
  rw [spreadChecked_eq, Width.maskChecked_eq]
  rfl

end Multicycle
