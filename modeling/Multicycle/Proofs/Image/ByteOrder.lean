/-
Binary images byte by byte. The bytes of a word list, the lowest of each word first, are the one binary
image that is read as it. A machine built from such an image has these bytes in RAM at their own
addresses, with zeros behind them: a load finds what stands in the image from its address on.
-/
import Multicycle.Image.Binary
import Multicycle.Proofs.Access.Memory
import Multicycle.Proofs.Machine.Building
import Multicycle.Proofs.Machine.Reach

namespace Multicycle.Image.Binary

open Rv32i (fetch)

/-! ## Reading -/

/-- The bytes of words one after another, the lowest byte of each first. -/
def expand (ws : List Word) : List Byte := ws.flatMap fun w => [w.byte 0, w.byte 1, w.byte 2, w.byte 3]

theorem length_expand (ws : List Word) : (expand ws).length = 4 * ws.length := by
  induction ws with
  | nil => rfl
  | cons w ws ih =>
    rw [List.length_cons, Nat.mul_succ, ← ih]
    rfl

theorem words_expand (ws : List Word) : words (expand ws) = ws := by
  induction ws with
  | nil => rfl
  | cons w ws ih =>
    have hcons : words (expand (w :: ws)) =
        .ofBytes (w.byte 0) (w.byte 1) (w.byte 2) (w.byte 3) :: words (expand ws) := rfl
    rw [hcons, Word.ofBytes_byte, ih]

theorem expand_words {bytes : List Byte} (h : bytes.length % 4 = 0) : expand (words bytes) = bytes := by
  fun_induction words bytes with
  | case1 b₀ b₁ b₂ b₃ bytes ih =>
    have hrest : bytes.length % 4 = 0 := by
      simp only [List.length_cons] at h
      omega
    obtain ⟨h0, h1, h2, h3⟩ := Word.byte_ofBytes b₀ b₁ b₂ b₃
    rw [expand, List.flatMap_cons, h0, h1, h2, h3]
    exact congrArg ([b₀, b₁, b₂, b₃] ++ ·) (ih hrest)
  | case2 bytes hshort =>
    match bytes, h with
    | [], _ => rfl
    | b₀ :: b₁ :: b₂ :: b₃ :: bytes, _ => exact absurd rfl (hshort b₀ b₁ b₂ b₃ bytes)

theorem read_eq_ok_iff {bytes : List Byte} {ws : List Word} :
    read bytes = .ok ws ↔ expand ws = bytes := by
  unfold read
  constructor
  · intro h
    split at h
    · rename_i hlength
      cases h
      exact expand_words hlength
    · cases h
  · rintro rfl
    rw [if_pos (by rw [length_expand, Nat.mul_mod_right]), words_expand]

/-- Only the length can be wrong. -/
theorem read_eq_error_iff {bytes : List Byte} {e : ImageError} :
    read bytes = .error e ↔ ¬ 4 ∣ bytes.length ∧ e = .unalignedLength bytes.length := by
  unfold read
  rw [Nat.dvd_iff_mod_eq_zero]
  split
  · simp [*]
  · simp [*, eq_comm (a := e)]

/-! ## Loading -/

/-- The byte at an address: in the image, or behind it. -/
theorem byte_of_expand (ws : List Word) (i : Nat) :
    (ws[i / 4]?.getD 0).byte (i % 4) = (expand ws)[i]?.getD 0 := by
  induction ws generalizing i with
  | nil => exact BitVec.extractLsb'_zero
  | cons w ws ih =>
    match i with
    | 0 | 1 | 2 | 3 => rfl
    | i + 4 =>
      rw [Nat.add_div_right i (by decide), Nat.add_mod_right, List.getElem?_cons_succ, ih i]
      rfl

/-- The number that bytes stand for, the lowest first. -/
def littleEndian (bytes : List Byte) : Nat := Nat.ofDigits 256 (bytes.map BitVec.toNat)

theorem fetch_getD (bytes : List Byte) (i n : Nat) :
    fetch (fun a => bytes[a]?.getD 0) i n = littleEndian ((bytes.drop i).take n) := by
  unfold littleEndian
  induction n generalizing i with
  | zero => rfl
  | succ n ih =>
    rw [fetch, ih]
    by_cases hi : i < bytes.length
    · rw [List.drop_eq_getElem_cons hi, List.take_succ_cons, List.map_cons, Nat.ofDigits_cons,
        List.getElem?_eq_getElem hi]
      rfl
    · have hend : bytes.length ≤ i := Nat.le_of_not_lt hi
      rw [List.drop_eq_nil_of_le hend, List.drop_eq_nil_of_le (Nat.le_succ_of_le hend),
        List.getElem?_eq_none hend, List.take_nil, List.take_nil]
      rfl

/-- What a bus does whose RAM of `size` bytes holds `bytes` and zeros behind them. -/
structure Holds (b : Bus) (size : Nat) (bytes : List Byte) : Prop where
  byte : ∀ i (h : i < bytes.length),
    b.answer (.load .lbu (.ofNat 32 i)) = some (bytes[i].setWidth 32)
  group : ∀ (op : Rv32i.Load) i, op.bytes ∣ i → i + op.bytes ≤ size →
    b.answer (.load op (.ofNat 32 i)) =
      some (.ofInt 32 (op.extend (littleEndian ((bytes.drop i).take op.bytes))))
  behind : ∀ i, bytes.length ≤ i → i < size → b.answer (.load .lbu (.ofNat 32 i)) = some 0

theorem holds_of_group {b : Bus} {size : Nat} {bytes : List Byte} (hfit : bytes.length ≤ size)
    (h : ∀ (op : Rv32i.Load) i, op.bytes ∣ i → i + op.bytes ≤ size →
      b.answer (.load op (.ofNat 32 i)) =
        some (.ofInt 32 (op.extend (littleEndian ((bytes.drop i).take op.bytes))))) :
    Holds b size bytes := by
  refine ⟨fun i hi => ?_, h, fun i hi hsize => ?_⟩
  · have hone : (bytes.drop i).take 1 = [bytes[i]] := by
      rw [List.drop_eq_getElem_cons hi, List.take_succ_cons, List.take_zero]
    have hvalue : BitVec.ofInt 32 (bytes[i].toNat : Int) = bytes[i].setWidth 32 := by
      rw [BitVec.ofInt_natCast, BitVec.ofNat_toNat]
    rw [h .lbu i (Nat.one_dvd i) (Nat.lt_of_lt_of_le hi hfit)]
    refine congrArg some (Eq.trans ?_ hvalue)
    show BitVec.ofInt 32 (littleEndian ((bytes.drop i).take 1) : Int) = _
    rw [hone, littleEndian, List.map_singleton, Nat.ofDigits_singleton]
  · rw [h .lbu i (Nat.one_dvd i) hsize, List.drop_eq_nil_of_le hi]
    rfl

/-- A machine that has not ticked has its image in RAM. -/
theorem memory_of_build {s : Settings} {ws : List Word} {m : Machine}
    (h : Machine.build s ws = .ok m) :
    m.bus.memory.byte = fun a => (expand ws)[a]?.getD 0 := by
  obtain ⟨-, -, -, -, -, -, hfit⟩ :=
    Machine.forall_mem_requirements.1 (Machine.build_eq_ok_iff.1 h).1
  obtain ⟨period, ram, -, -, hram, rfl⟩ := Machine.of_build_eq_ok h
  have hmemory := Bus.memory_ofRam hfit hram s.ioSelectBit period
  funext a
  rw [← byte_of_expand]
  exact congrFun (congrArg ByteMemory.byte hmemory) a

theorem holds_of_build {s : Settings} {ws : List Word} {m : Machine}
    (h : Machine.build s ws = .ok m) : Holds m.bus (4 * s.ramWords) (expand ws) := by
  obtain ⟨-, -, -, -, ⟨-, hbit⟩, hbelow, hfit⟩ :=
    Machine.forall_mem_requirements.1 (Machine.build_eq_ok_iff.1 h).1
  have hpow : 2 ^ s.ioSelectBit < 2 ^ 32 := Nat.pow_lt_pow_right (by decide) (by omega)
  refine holds_of_group ?_ fun op i halign hend => ?_
  · rw [length_expand]
    exact Nat.mul_le_mul_left 4 hfit
  · have hsome : 0 < op.bytes := by cases op <;> decide
    have haddress : (BitVec.ofNat 32 i).toNat = i := Nat.mod_eq_of_lt (by omega)
    have hplain : (Access.load op (.ofNat 32 i)).Plain m.bus.ioBit := by
      constructor
      · rw [(Machine.Reachable.built h).sound.ioBit]
        exact Word.below_of_lt (show (BitVec.ofNat 32 i).toNat < _ by omega)
      · show (BitVec.ofNat 32 i).toNat % op.bytes = 0
        rw [haddress, Nat.mod_eq_zero_of_dvd halign]
    rw [Bus.answer_eq hplain]
    show some (BitVec.ofInt 32
      (op.extend (fetch m.bus.memory.byte (BitVec.ofNat 32 i).toNat op.bytes))) = _
    rw [haddress, memory_of_build h, fetch_getD]

/-- Bytes are accepted exactly if they make whole words, and they are read as the words whose bytes
they are. A machine built from these has the bytes at their addresses. -/
theorem read_expanded_loads (bytes : List Byte) :
    ((∃ ws, read bytes = .ok ws) ↔ 4 ∣ bytes.length) ∧
      (∀ e, read bytes = .error e ↔ ¬ 4 ∣ bytes.length ∧ e = .unalignedLength bytes.length) ∧
      (∀ ws, read bytes = .ok ws ↔ expand ws = bytes) ∧
      ∀ s ws m, read bytes = .ok ws → Machine.build s ws = .ok m →
        Holds m.bus (4 * s.ramWords) bytes := by
  refine ⟨⟨?_, fun h => ?_⟩, fun e => read_eq_error_iff, fun ws => read_eq_ok_iff,
    fun s ws m hread hbuild => ?_⟩
  · rintro ⟨ws, hws⟩
    rw [← read_eq_ok_iff.1 hws, length_expand]
    exact Nat.dvd_mul_right 4 ws.length
  · exact ⟨words bytes, read_eq_ok_iff.2 (expand_words (Nat.mod_eq_zero_of_dvd h))⟩
  · rw [← read_eq_ok_iff.1 hread]
    exact holds_of_build hbuild

/-- The upper half of the second word with its sign and without, a byte of the first, and one behind
the image. -/
theorem read_expanded_loads_two_words :
    let bytes : List Byte := [0x11, 0x22, 0x33, 0x44, 0x55, 0x66, 0x77, 0x88]
    let s : Settings := { ramWords := 3 }
    read bytes = .ok [0x44332211#32, 0x88776655#32] ∧
      ∃ m, Machine.build s [0x44332211#32, 0x88776655#32] = .ok m ∧
        m.bus.answer (.load .lbu 2) = some 0x33 ∧ m.bus.answer (.load .lh 6) = some 0xffff8877 ∧
        m.bus.answer (.load .lhu 6) = some 0x8877 ∧ m.bus.answer (.load .lw 4) = some 0x88776655 ∧
        m.bus.answer (.load .lbu 8) = some 0 := by
  intro bytes s
  have hread : read bytes = .ok [0x44332211#32, 0x88776655#32] := read_eq_ok_iff.2 (by decide)
  have hbuild : Machine.build s [0x44332211#32, 0x88776655#32] = .ok (.initial s _) :=
    Machine.build_eq_ok_iff.2 ⟨by decide, rfl⟩
  obtain ⟨-, -, -, h⟩ := read_expanded_loads bytes
  have hholds := h s _ _ hread hbuild
  exact ⟨hread, _, hbuild, hholds.byte 2 (by decide),
    (hholds.group .lh 6 (by decide) (by decide)).trans (by decide),
    (hholds.group .lhu 6 (by decide) (by decide)).trans (by decide),
    (hholds.group .lw 4 (by decide) (by decide)).trans (by decide),
    hholds.behind 8 (by decide) (by decide)⟩

end Multicycle.Image.Binary
