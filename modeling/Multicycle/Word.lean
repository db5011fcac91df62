/-
Machine words and their byte lanes: a word is four bytes, lane 0 the least significant, and a
masked merge takes each lane from one of two words.
-/
namespace Multicycle

/-- The 32 bits of a register, an address or a bus transfer. -/
abbrev Word := BitVec 32

/-- One byte lane of a word, or one character on the serial line. -/
abbrev Byte := BitVec 8

namespace Word

/-- Byte lane `k`; a lane past the third is zero. -/
def byte (w : Word) (k : Nat) : Byte := w.extractLsb' (8 * k) 8

/-- The word with the given lanes, least significant first. -/
def ofBytes (b₀ b₁ b₂ b₃ : Byte) : Word := b₃ ++ b₂ ++ b₁ ++ b₀

/-- Lane `k` of `new` where the mask bit is set, of `old` elsewhere. -/
def mergeLane (mask : Byte) (old new : Word) (k : Nat) : Byte :=
  if mask.getLsbD k then byte new k else byte old k

/-- The lanes whose mask bit is set from `new`, the others from `old`. Only the four low mask bits
have a lane. -/
def merge (mask : Byte) (old new : Word) : Word :=
  ofBytes (mergeLane mask old new 0) (mergeLane mask old new 1) (mergeLane mask old new 2)
    (mergeLane mask old new 3)

/-! ## Laws of lanes -/

theorem ofBytes_byte (w : Word) : ofBytes (byte w 0) (byte w 1) (byte w 2) (byte w 3) = w := by
  unfold ofBytes byte
  ext i hi
  simp only [BitVec.getElem_append, BitVec.getElem_extractLsb']
  repeat' split
  all_goals
    rw [BitVec.getLsbD_eq_getElem (by omega)]
    congr 1
    omega

/-- The bits of a word are those of its lanes, lane after lane. -/
theorem getLsbD_ofBytes (b₀ b₁ b₂ b₃ : Byte) (i : Nat) :
    (ofBytes b₀ b₁ b₂ b₃).getLsbD i =
      if i < 8 then b₀.getLsbD i else if i < 16 then b₁.getLsbD (i - 8)
      else if i < 24 then b₂.getLsbD (i - 16) else b₃.getLsbD (i - 24) := by
  have happ : (ofBytes b₀ b₁ b₂ b₃).getLsbD i = (b₃ ++ b₂ ++ b₁ ++ b₀).getLsbD i := rfl
  have h16 : i - 8 < 8 ↔ i < 16 := by omega
  have h24 : i - (8 + 8) < 8 ↔ i < 24 := by omega
  rw [happ, BitVec.getLsbD_append, BitVec.getLsbD_append, BitVec.getLsbD_append]
  split
  · rfl
  · simp only [Nat.sub_sub, h16, h24]

theorem byte_ofBytes (b₀ b₁ b₂ b₃ : Byte) :
    byte (ofBytes b₀ b₁ b₂ b₃) 0 = b₀ ∧ byte (ofBytes b₀ b₁ b₂ b₃) 1 = b₁ ∧
      byte (ofBytes b₀ b₁ b₂ b₃) 2 = b₂ ∧ byte (ofBytes b₀ b₁ b₂ b₃) 3 = b₃ := by
  unfold byte
  refine ⟨?_, ?_, ?_, ?_⟩
  all_goals
    ext i hi
    rw [BitVec.getElem_extractLsb', getLsbD_ofBytes]
    repeat rw [if_neg (by omega)]
    try rw [if_pos (by omega)]
    rw [BitVec.getLsbD_eq_getElem (by omega)]
    congr 1
    omega

/-- A merge, lane by lane. -/
theorem byte_merge (mask : Byte) (old new : Word) {k : Nat} (hk : k < 4) :
    byte (merge mask old new) k = if mask.getLsbD k then byte new k else byte old k := by
  obtain ⟨h0, h1, h2, h3⟩ := byte_ofBytes (mergeLane mask old new 0) (mergeLane mask old new 1)
    (mergeLane mask old new 2) (mergeLane mask old new 3)
  match k, hk with
  | 0, _ => exact h0
  | 1, _ => exact h1
  | 2, _ => exact h2
  | 3, _ => exact h3

theorem getLsbD_byte_mod (w : Word) (i : Nat) : (byte w (i / 8)).getLsbD (i % 8) = w.getLsbD i := by
  unfold byte
  rw [BitVec.getLsbD_extractLsb', decide_eq_true (Nat.mod_lt i (by decide)), Bool.true_and,
    Nat.div_add_mod]

/-- A merge, bit by bit. -/
theorem getLsbD_merge (mask : Byte) (old new : Word) {i : Nat} (hi : i < 32) :
    (merge mask old new).getLsbD i =
      if mask.getLsbD (i / 8) then new.getLsbD i else old.getLsbD i := by
  rw [← getLsbD_byte_mod (merge mask old new), byte_merge mask old new (k := i / 8) (by omega),
    ← getLsbD_byte_mod new, ← getLsbD_byte_mod old]
  split <;> rfl

end Word

end Multicycle
