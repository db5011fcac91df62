/-
The units of the core compute what the base instruction set does. The branch comparator decides its
conditions, the arithmetic unit gives its integers modulo 2^32, a load takes out of a word the bytes
that an aligned access finds there, and a store drives the lanes that such an access fills.
-/
import Multicycle.Proofs.Access.Lanes
import Multicycle.Proofs.Rv32i.Decode
import Multicycle.Proofs.Rv32i.Hart

namespace Multicycle.Rv32i

/-! ## Branches -/

theorem branchTaken_eq {funct3 : BitVec 3} {c : Condition}
    (h : condition? funct3.toNat = some c) (a b : Word) : branchTaken funct3 a b = c.holds a b := by
  unfold branchTaken
  generalize funct3.toNat = code at h ⊢
  unfold condition? at h
  split at h
  case h_1 =>
    cases h
    show (a == b) = decide (a.toInt = b.toInt)
    simp only [BitVec.toInt_inj]
    rfl
  case h_2 =>
    cases h
    show (a != b) = decide (a.toInt ≠ b.toInt)
    simp only [ne_eq, BitVec.toInt_inj, decide_not]
    rfl
  all_goals cases h
  all_goals rfl

/-! ## Arithmetic -/

theorem eval_unit (op : Operation) (a b : Word) :
    op.unit.eval a b = BitVec.ofInt 32 (op.eval a b) := by
  have hcast : ∀ n : Nat, BitVec.ofInt 32 (n : Int) = BitVec.ofNat 32 n := BitVec.ofInt_natCast 32
  cases op with
  | add =>
    show a + b = _
    rw [Operation.eval, BitVec.ofInt_add, BitVec.ofInt_toInt, BitVec.ofInt_toInt]
  | sub =>
    show a - b = BitVec.ofInt 32 (a.toInt - b.toInt)
    rw [Int.sub_eq_add_neg, BitVec.ofInt_add, BitVec.ofInt_neg, BitVec.ofInt_toInt,
      BitVec.ofInt_toInt, BitVec.sub_eq_add_neg]
  | sll =>
    show a <<< (b.toNat % 32) = BitVec.ofInt 32 (a.toInt * 2 ^ (b.toNat % 32))
    have hpow : BitVec.ofInt 32 (2 ^ (b.toNat % 32)) = BitVec.twoPow 32 (b.toNat % 32) := by
      apply BitVec.eq_of_toNat_eq
      have hnat := hcast (2 ^ (b.toNat % 32))
      push_cast at hnat
      rw [hnat, BitVec.toNat_ofNat, BitVec.toNat_twoPow]
    rw [BitVec.ofInt_mul, BitVec.ofInt_toInt, hpow, BitVec.shiftLeft_eq_mul_twoPow]
  | slt =>
    show (if decide (a.toInt < b.toInt) then 1 else 0) = BitVec.ofInt 32 _
    rw [Operation.eval]
    by_cases h : a.toInt < b.toInt
    · simp only [h, decide_true, if_true]
      rfl
    · simp only [h, decide_false, if_false]
      rfl
  | sltu =>
    show (if decide (a.toNat < b.toNat) then 1 else 0) = BitVec.ofInt 32 _
    rw [Operation.eval]
    by_cases h : a.toNat < b.toNat
    · simp only [h, decide_true, if_true]
      rfl
    · simp only [h, decide_false, if_false]
      rfl
  | xor =>
    show a ^^^ b = BitVec.ofInt 32 ((a.toNat ^^^ b.toNat : Nat) : Int)
    rw [hcast, ← BitVec.toNat_xor, BitVec.ofNat_toNat, BitVec.setWidth_eq]
  | srl =>
    show a >>> (b.toNat % 32) = BitVec.ofInt 32 ((a.toNat / 2 ^ (b.toNat % 32) : Nat) : Int)
    rw [hcast, ← Nat.shiftRight_eq_div_pow, ← BitVec.toNat_ushiftRight, BitVec.ofNat_toNat,
      BitVec.setWidth_eq]
  | sra =>
    show BitVec.ofInt 32 (a.toInt >>> (b.toNat % 32)) = _
    rw [Int.shiftRight_eq_div_pow]
    rfl
  | or =>
    show a ||| b = BitVec.ofInt 32 ((a.toNat ||| b.toNat : Nat) : Int)
    rw [hcast, ← BitVec.toNat_or, BitVec.ofNat_toNat, BitVec.setWidth_eq]
  | and =>
    show a &&& b = BitVec.ofInt 32 ((a.toNat &&& b.toNat : Nat) : Int)
    rw [hcast, ← BitVec.toNat_and, BitVec.ofNat_toNat, BitVec.setWidth_eq]

/-! ## Memory -/

/-- Memory as the bytes of words, lane after lane. -/
def bytesOf (words : Nat → Word) : Nat → Byte := fun a => (words (a / 4)).byte (a % 4)

theorem toNat_byte (w : Word) (k : Nat) : (w.byte k).toNat = w.toNat / 256 ^ k % 256 := by
  rw [Word.byte, toNat_bits]
  exact congrArg (fun p => w.toNat / p % 256) (Nat.pow_mul 2 8 k)

/-- Bytes in memory are digits of the number fetched. -/
theorem fetch_eq_mod {mem : Nat → Byte} {a n v : Nat}
    (h : ∀ k < n, (mem (a + k)).toNat = v / 256 ^ k % 256) : fetch mem a n = v % 256 ^ n := by
  induction n generalizing a v with
  | zero =>
    rw [Nat.pow_zero, Nat.mod_one]
    rfl
  | succ n ih =>
    -- The first byte is the lowest digit, and the others are the digits of the quotient.
    have hlow : (mem a).toNat = v % 256 := by
      have h0 := h 0 (Nat.zero_lt_succ n)
      rwa [Nat.add_zero, Nat.pow_zero, Nat.div_one] at h0
    have hhigh : fetch mem (a + 1) n = v / 256 % 256 ^ n := by
      apply ih
      intro k hk
      rw [Nat.add_assoc, Nat.add_comm 1 k, h (k + 1) (Nat.succ_lt_succ hk), Nat.pow_succ',
        Nat.div_div_eq_div_mul]
    rw [fetch, hlow, hhigh, Nat.pow_succ', Nat.mod_mul]

/-- An aligned access lies in one word. -/
theorem lane_add_le {a n : Nat} (ha : a % n = 0) (hn : n = 1 ∨ n = 2 ∨ n = 4) : a % 4 + n ≤ 4 := by
  rcases hn with rfl | rfl | rfl
  · omega
  · omega
  · omega

theorem fetch_bytesOf (words : Nat → Word) {a n : Nat} (ha : a % n = 0)
    (hn : n = 1 ∨ n = 2 ∨ n = 4) :
    fetch (bytesOf words) a n = (words (a / 4)).toNat / 256 ^ (a % 4) % 256 ^ n := by
  apply fetch_eq_mod
  intro k hk
  have hlane := lane_add_le ha hn
  unfold bytesOf
  rw [show (a + k) / 4 = a / 4 by omega, show (a + k) % 4 = a % 4 + k by omega, toNat_byte,
    Nat.div_div_eq_div_mul, Nat.pow_add]

theorem Load.bytes_eq (op : Load) : op.bytes = 1 ∨ op.bytes = 2 ∨ op.bytes = 4 := by
  cases op <;> decide

/-- A load takes out of the word found what an aligned access fetches. -/
theorem loadValue_eq {funct3 : BitVec 3} {op : Load} (h : load? funct3.toNat = some op)
    {data a : Word} (ha : a.toNat % op.bytes = 0) :
    loadValue data a funct3 =
      BitVec.ofInt 32 (op.extend (data.toNat / 256 ^ (a.toNat % 4) % 256 ^ op.bytes)) := by
  have hbyte : (selectByte data a).toNat = data.toNat / 256 ^ (a.toNat % 4) % 256 ^ 1 := by
    rw [selectByte_eq, toNat_byte, Nat.pow_one]
  have hhalf : a.toNat % 2 = 0 →
      (selectHalf data a).toNat = data.toNat / 256 ^ (a.toNat % 4) % 256 ^ 2 := by
    intro h2
    unfold selectHalf
    rw [getLsbD_one_eq]
    rcases Nat.mod_two_eq_zero_or_one (a.toNat / 2) with h1 | h1
    · rw [h1, show a.toNat % 4 = 0 by omega]
      exact toNat_bits data 0 16
    · rw [h1, show a.toNat % 4 = 2 by omega]
      exact toNat_bits data 16 16
  unfold loadValue Width.ofFunct3 zeroExtends BitVec.getLsbD
  generalize funct3.toNat = code at h ⊢
  unfold load? at h
  split at h
  case h_6 => cases h
  all_goals cases h
  · show (selectByte data a).signExtend 32 = BitVec.ofInt 32 (signed 8 _)
    rw [signExtend_eq_ofInt, hbyte]
    rfl
  · show (selectHalf data a).signExtend 32 = BitVec.ofInt 32 (signed 16 _)
    rw [signExtend_eq_ofInt, hhalf ha]
    rfl
  · show data = BitVec.ofInt 32 ((data.toNat / 256 ^ (a.toNat % 4) % 256 ^ 4 : Nat) : Int)
    have hlt := data.isLt
    rw [show a.toNat % 4 = 0 from ha, Nat.pow_zero, Nat.div_one, Nat.mod_eq_of_lt (by omega),
      BitVec.ofInt_natCast, BitVec.ofNat_toNat, BitVec.setWidth_eq]
  · show (selectByte data a).setWidth 32 =
      BitVec.ofInt 32 ((data.toNat / 256 ^ (a.toNat % 4) % 256 ^ 1 : Nat) : Int)
    rw [← hbyte, BitVec.ofInt_natCast, BitVec.ofNat_toNat]
  · show (selectHalf data a).setWidth 32 =
      BitVec.ofInt 32 ((data.toNat / 256 ^ (a.toNat % 4) % 256 ^ 2 : Nat) : Int)
    rw [← hhalf ha, BitVec.ofInt_natCast, BitVec.ofNat_toNat]

theorem Store.bytes_eq (op : Store) : op.bytes = 1 ∨ op.bytes = 2 ∨ op.bytes = 4 := by
  cases op <;> decide

theorem bytes_ofFunct3 {funct3 : BitVec 3} {op : Store} (h : store? funct3.toNat = some op) :
    (Width.ofFunct3 funct3).bytes = op.bytes := by
  unfold Width.ofFunct3
  generalize funct3.toNat = code at h ⊢
  unfold store? at h
  split at h <;> cases h <;> rfl

/-- Memory is what an aligned access deposits if the lanes that its width covers, in the word of its
address, have the bytes of the value that they carry, and all others stay. -/
theorem bytesOf_eq_deposit {words words' : Nat → Word} {width : Width} {a : Nat} {value : Word}
    (ha : a % width.bytes = 0)
    (h : ∀ j, ∀ k < 4, (words' j).byte k =
      if a / 4 = j ∧ width.covers a k = true then value.byte (laneSource a k)
      else (words j).byte k) :
    bytesOf words' = deposit (bytesOf words) a width.bytes value.toNat := by
  have hlane := lane_add_le ha (by cases width <;> decide)
  -- Byte `b` is lane `b % 4` of word `b / 4`.
  funext b
  have hk : b % 4 < 4 := Nat.mod_lt _ (by decide)
  unfold deposit bytesOf
  rw [h (b / 4) (b % 4) hk]
  by_cases hin : a ≤ b ∧ b < a + width.bytes
  · have hword : a / 4 = b / 4 := by omega
    have hcovers : width.covers a (b % 4) = true :=
      (Width.covers_of_aligned ha hk).2 ⟨by omega, by omega⟩
    rw [if_pos hin, if_pos ⟨hword, hcovers⟩, laneSource_of_aligned ha hk hcovers,
      show b % 4 - a % 4 = b - a by omega]
    apply BitVec.eq_of_toNat_eq
    rw [toNat_byte, BitVec.toNat_ofNat]
  · rw [if_neg hin, if_neg]
    rintro ⟨hword, hcovers⟩
    obtain ⟨hlo, hhi⟩ := (Width.covers_of_aligned ha hk).1 hcovers
    omega

end Multicycle.Rv32i
