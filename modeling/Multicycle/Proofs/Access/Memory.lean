/-
Loads and stores over the bus as accesses to a memory of single bytes. Below the page an aligned store
lays the low bytes of its value down from its address on, if RAM has a place for them, and a load finds
the bytes from its address on, the lowest first, and extends what it found. Widths may be mixed: what
was stored byte by byte is found as a word, and the other way round.
-/
import Multicycle.Proofs.Bus.History
import Multicycle.Proofs.Rv32i.Values

namespace Multicycle

open Rv32i (bytesOf deposit fetch)

/-! ## Accesses -/

/-- The function code of a load. -/
def Rv32i.Load.code : Load → BitVec 3
  | lb => 0
  | lh => 1
  | lw => 2
  | lbu => 4
  | lhu => 5

theorem Rv32i.Load.load?_code (op : Load) : load? op.code.toNat = some op := by
  cases op <;> rfl

/-- The multiple of its width that a load reads from: its address, or the one below. -/
def Rv32i.Load.align (op : Load) (a : Word) : Word := .ofNat 32 (a.toNat / op.bytes * op.bytes)

theorem Rv32i.Load.toNat_align (op : Load) (a : Word) :
    (op.align a).toNat = a.toNat / op.bytes * op.bytes :=
  Nat.mod_eq_of_lt (Nat.lt_of_le_of_lt (Nat.div_mul_le_self ..) a.isLt)

/-- What is left of that multiple chooses no lanes. -/
theorem loadValue_align (op : Rv32i.Load) (data a : Word) :
    loadValue data (op.align a) op.code = loadValue data a op.code := by
  have hdown := op.toNat_align a
  have hhalf : op.bytes = 2 → selectHalf data (op.align a) = selectHalf data a := by
    intro h
    rw [selectHalf_eq, selectHalf_eq, hdown, h, Nat.mul_div_cancel _ Nat.two_pos]
  have hbyte : op.bytes = 1 → selectByte data (op.align a) = selectByte data a := by
    intro h
    rw [selectByte_eq, selectByte_eq, hdown, h, Nat.div_one, Nat.mul_one]
  cases op with
  | lb => exact congrArg (·.signExtend 32) (hbyte rfl)
  | lh => exact congrArg (·.signExtend 32) (hhalf rfl)
  | lw => rfl
  | lbu => exact congrArg (·.setWidth 32) (hbyte rfl)
  | lhu => exact congrArg (·.setWidth 32) (hhalf rfl)

/-- A load by one of the five loads, or a store by any function code. -/
inductive Access where
  | load (op : Rv32i.Load) (address : Word)
  | store (funct3 : BitVec 3) (address value : Word)
  deriving DecidableEq

namespace Access

def address : Access → Word
  | load _ a => a
  | store _ a _ => a

/-- How many bytes are moved. The width of a store is told by the two low bits of its code. -/
def bytes : Access → Nat
  | load op _ => op.bytes
  | store funct3 _ _ =>
    match funct3.toNat % 4 with
    | 0 => 1
    | 1 => 2
    | _ => 4

/-- What is asked of the bus. -/
def request : Access → Transaction
  | load _ a => .reading a
  | store funct3 a v => .writing a (storeLanes v a funct3).data (storeLanes v a funct3).mask

/-- Whether an access is aligned and stays off the page. -/
def Plain (ioBit : Nat) (x : Access) : Prop :=
  x.address.getLsbD ioBit = false ∧ x.address.toNat % x.bytes = 0

instance (ioBit : Nat) (x : Access) : Decidable (x.Plain ioBit) :=
  inferInstanceAs (Decidable (_ ∧ _))

theorem bytes_store (funct3 : BitVec 3) (a v : Word) :
    (store funct3 a v).bytes = (Width.ofFunct3 funct3).bytes := by
  unfold bytes Width.ofFunct3
  dsimp only
  generalize funct3.toNat % 4 = code
  match code with
  | 0 => rfl
  | 1 => rfl
  | _ + 2 => rfl

end Access

/-! ## Memory of bytes -/

/-- A memory of single bytes; past its end there are only zeros. -/
@[ext]
structure ByteMemory where
  size : Nat
  byte : Nat → Byte
  byte_of_size_le : ∀ a, size ≤ a → byte a = 0

namespace ByteMemory

/-- The bytes of an image, those of each word from the lowest on, and zeros behind it. -/
def ofImage (capacity : Nat) (image : List Word) (h : image.length ≤ capacity) : ByteMemory where
  size := 4 * capacity
  byte := fun a => (image[a / 4]?.getD 0).byte (a % 4)
  byte_of_size_le := by
    intro a ha
    rw [List.getElem?_eq_none (by omega)]
    exact BitVec.extractLsb'_zero

/-- Memory with the `n` low bytes of `v` from address `a` on. Where they do not all fit in, nothing is
stored. -/
def store (mem : ByteMemory) (a n v : Nat) : ByteMemory :=
  if h : a + n ≤ mem.size then
    { mem with
      byte := deposit mem.byte a n v
      byte_of_size_le := fun b hb =>
        (if_neg (by omega : ¬(a ≤ b ∧ b < a + n))).trans (mem.byte_of_size_le b hb) }
  else mem

def after (mem : ByteMemory) : Access → ByteMemory
  | .load .. => mem
  | .store funct3 a v => mem.store a.toNat (Access.store funct3 a v).bytes v.toNat

/-- The value of a load: the number in its bytes, the lowest first, extended to a word. -/
def answer (mem : ByteMemory) : Access → Option Word
  | .load op a => some (.ofInt 32 (op.extend (fetch mem.byte a.toNat op.bytes)))
  | .store .. => none

def run (mem : ByteMemory) (xs : List Access) : ByteMemory := xs.foldl after mem

/-- The values of the loads among the accesses, each with the stores before it done. -/
def answers : ByteMemory → List Access → List (Option Word)
  | _, [] => []
  | mem, x :: xs => mem.answer x :: answers (mem.after x) xs

end ByteMemory

namespace Bus

/-- The value of a load over the bus: what its tick reads, with the lanes chosen. -/
def answer (b : Bus) : Access → Option Word
  | .load op a => some (loadValue (b.tick (.reading a)).readData a op.code)
  | .store .. => none

/-- The values of the loads among the accesses, one tick each. -/
def answers : Bus → List Access → List (Option Word)
  | _, [] => []
  | b, x :: xs => b.answer x :: answers (b.tick x.request) xs

/-- RAM by its bytes. -/
def memory (b : Bus) : ByteMemory where
  size := 4 * b.ram.size
  byte := bytesOf b.ram.read
  byte_of_size_le := by
    intro a ha
    unfold Rv32i.bytesOf
    rw [Ram.read_of_size_le (by omega)]
    exact BitVec.extractLsb'_zero

/-! ## Loads -/

theorem answer_load {b : Bus} {a : Word} (h : a.getLsbD b.ioBit = false) (op : Rv32i.Load) :
    b.answer (.load op a) = some (loadValue (b.ram.read (a.toNat / 4)) a op.code) :=
  congrArg (fun data => some (loadValue data a op.code)) (readData_tick_of_below h rfl)

/-- An aligned load takes the bytes from its address on out of the word there. -/
theorem memory_answer_load (b : Bus) {a : Word} {op : Rv32i.Load} (halign : a.toNat % op.bytes = 0) :
    b.memory.answer (.load op a) = some (loadValue (b.ram.read (a.toNat / 4)) a op.code) := by
  have hfetch : fetch b.memory.byte a.toNat op.bytes = _ :=
    Rv32i.fetch_bytesOf b.ram.read halign op.bytes_eq
  show some (BitVec.ofInt 32 (op.extend (fetch b.memory.byte a.toNat op.bytes))) = _
  rw [Rv32i.loadValue_eq op.load?_code halign, hfetch]

/-- Any load below the page takes them from the multiple of its width on. -/
theorem answer_load_eq {b : Bus} {a : Word} (h : a.getLsbD b.ioBit = false) (op : Rv32i.Load) :
    b.answer (.load op a) = b.memory.answer (.load op (op.align a)) := by
  have hdown := op.toNat_align a
  have hword : (op.align a).toNat / 4 = a.toNat / 4 := by
    rcases op.bytes_eq with hw | hw | hw <;> rw [hdown, hw] <;> omega
  have halign : (op.align a).toNat % op.bytes = 0 := by
    rw [hdown, Nat.mul_mod_left]
  rw [answer_load h, memory_answer_load b halign, hword, loadValue_align]

/-! ## Stores -/

/-- An aligned store deposits its bytes in RAM, or finds no place for any of them. -/
theorem memory_tick_store {b : Bus} {funct3 : BitVec 3} {a v : Word}
    (h : a.getLsbD b.ioBit = false) (halign : a.toNat % (Width.ofFunct3 funct3).bytes = 0) :
    (b.tick (Access.store funct3 a v).request).memory =
      b.memory.store a.toNat (Width.ofFunct3 funct3).bytes v.toNat := by
  have hlane := Rv32i.lane_add_le halign (by cases Width.ofFunct3 funct3 <;> decide)
  have hsome : 0 < (Width.ofFunct3 funct3).bytes := by cases Width.ofFunct3 funct3 <;> decide
  have hsize : b.memory.size = 4 * b.ram.size := rfl
  have hram : (b.tick (Access.store funct3 a v).request).ram = b.ram.write (a.toNat / 4)
      (storeLanes v a funct3).data (storeLanes v a funct3).mask := ram_tick_of_below h rfl
  unfold ByteMemory.store
  by_cases hin : a.toNat / 4 < b.ram.size
  · rw [dif_pos (by omega)]
    refine ByteMemory.ext (congrArg (4 * ·) (size_tick ..)) ?_
    refine Rv32i.bytesOf_eq_deposit halign fun j k hk => ?_
    have hdata : (storeLanes v a funct3).data.byte k = v.byte (laneSource a.toNat k) :=
      byte_spread v a hk
    have hmask : (storeLanes v a funct3).mask.getLsbD k =
        (Width.ofFunct3 funct3).covers a.toNat k := Width.getLsbD_mask _ a hk
    rw [hram, Ram.read_write]
    by_cases hj : a.toNat / 4 = j
    · rw [if_pos ⟨hj, hin⟩, Word.byte_merge _ _ _ hk, hdata, hmask]
      simp only [hj, true_and]
    · rw [if_neg fun h' => hj h'.1, if_neg fun h' => hj h'.1]
  · rw [dif_neg (by omega)]
    rw [Ram.write_of_size_le (Nat.le_of_not_lt hin)] at hram
    unfold memory
    simp only [hram]

/-! ## Accesses in turn -/

theorem answer_eq {b : Bus} {x : Access} (h : x.Plain b.ioBit) : b.answer x = b.memory.answer x := by
  obtain ⟨hbelow, halign⟩ := h
  cases x with
  | load op a => exact (answer_load hbelow op).trans (b.memory_answer_load halign).symm
  | store funct3 a v => rfl

theorem memory_tick {b : Bus} {x : Access} (h : x.Plain b.ioBit) :
    (b.tick x.request).memory = b.memory.after x := by
  obtain ⟨hbelow, halign⟩ := h
  cases x with
  | load op a =>
    have hram : (b.tick (Access.load op a).request).ram = b.ram := ram_tick_of_read b rfl
    unfold memory
    simp only [hram]
    rfl
  | store funct3 a v =>
    show _ = b.memory.store a.toNat (Access.store funct3 a v).bytes v.toNat
    rw [Access.bytes_store] at halign ⊢
    exact memory_tick_store hbelow halign

/-- A run of accesses over the bus is one of the memory of bytes. -/
theorem answers_eq {b : Bus} {xs : List Access} (h : ∀ x ∈ xs, x.Plain b.ioBit) :
    b.answers xs = b.memory.answers xs ∧
      (b.run (xs.map Access.request)).memory = b.memory.run xs := by
  induction xs generalizing b with
  | nil => exact ⟨rfl, rfl⟩
  | cons x xs ih =>
    have hx := h x (List.mem_cons_self ..)
    obtain ⟨hanswers, hrun⟩ := ih (b := b.tick x.request) fun y hy => by
      rw [ioBit_tick]
      exact h y (List.mem_cons_of_mem _ hy)
    rw [memory_tick hx] at hanswers hrun
    refine ⟨?_, hrun⟩
    unfold answers ByteMemory.answers
    rw [answer_eq hx, hanswers]

theorem memory_ofRam {capacity : Nat} {image : List Word} (hfit : image.length ≤ capacity)
    {ram : Ram} (hram : Ram.ofImage capacity image = .ok ram) (ioBit period : Nat) :
    (ofRam ram ioBit period).memory = .ofImage capacity image hfit := by
  obtain ⟨ram', hram', hsize, hread⟩ := Ram.ofImage_eq_ok hfit
  cases hram.symm.trans hram'
  refine ByteMemory.ext (congrArg (4 * ·) hsize) ?_
  funext a
  exact congrArg (·.byte (a % 4)) (hread (a / 4))

/-- For every size of RAM, I/O bit, bit period and fitting image, and every sequence of accesses that
are aligned and stay off the page, within RAM or past its end: the loads over the bus have the values
that they have on a memory of bytes, and RAM holds the bytes of that memory at the end. A load that is
not aligned has the value of the one at the multiple of its width below it. -/
theorem answers_accesses {capacity ioBit : Nat} (period : Nat) {image : List Word}
    (hbit : ioBit < 32) (hfit : image.length ≤ capacity) :
    ∃ ram, Ram.ofImage capacity image = .ok ram ∧ ∀ xs, (∀ x ∈ xs, x.Plain ioBit) →
      let b := ofRam ram ioBit period
      let mem := ByteMemory.ofImage capacity image hfit
      b.answers xs = mem.answers xs ∧ (b.run (xs.map Access.request)).memory = mem.run xs ∧
        ∀ op a, a.getLsbD ioBit = false →
          (b.run (xs.map Access.request)).answer (.load op a) =
            (mem.run xs).answer (.load op (op.align a)) := by
  obtain ⟨ram, hram, -, -⟩ := Ram.ofImage_eq_ok hfit
  refine ⟨ram, hram, fun xs hxs => ?_⟩
  have hio : (ofRam ram ioBit period).ioBit.val = ioBit := Nat.mod_eq_of_lt hbit
  obtain ⟨hanswers, hrun⟩ := answers_eq (b := ofRam ram ioBit period) (by rwa [hio])
  rw [memory_ofRam hfit hram] at hanswers hrun
  refine ⟨hanswers, hrun, fun op a ha => ?_⟩
  rw [← hrun]
  exact answer_load_eq (by rwa [ioBit_run, hio]) op

/-- Two bytes and a half word that are found as a word, its upper half with its sign, a byte of the
image, and a word past the end of RAM. -/
theorem answers_accesses_mixed :
    let xs := [.store 0 4 0x11, .store 4 5 0x22, .store 1 6 0x8433, .load .lw 4, .load .lh 6,
      .load .lbu 1, .store 2 8 0xffffffff, .load .lw 8]
    22 < 32 ∧ [0x04030201#32].length ≤ 2 ∧ (∀ x ∈ xs, Access.Plain 22 x) ∧
      ∃ ram, Ram.ofImage 2 [0x04030201] = .ok ram ∧ (ofRam ram 22 12).answers xs =
        [none, none, none, some 0x84332211, some 0xffff8433, some 2, none, some 0] := by
  intro xs
  obtain ⟨ram, hram, h⟩ := answers_accesses 12 (show 22 < 32 by decide)
    (show [0x04030201#32].length ≤ 2 by decide)
  have hplain : ∀ x ∈ xs, Access.Plain 22 x := by decide
  obtain ⟨hanswers, -⟩ := h xs hplain
  exact ⟨by decide, by decide, hplain, ram, hram, hanswers.trans (by decide)⟩

end Bus

end Multicycle
