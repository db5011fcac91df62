/-
The reference machine: it executes one instruction a step. Its state is what a program can see, the
program counter, the registers and a memory of single bytes, words and half words lying in it with
their low byte first. It takes no step where the program has left its rails: where the program
counter is not a multiple of four or leads out of memory, the word there encodes no instruction, or
the instruction has an access that is not aligned or not within memory.
-/
import Multicycle.Proofs.Rv32i.Insn

namespace Multicycle.Rv32i

/-! ## Memory -/

/-- The number in the `n` bytes from address `a` on, the lowest byte first. -/
def fetch (mem : Nat → Byte) (a : Nat) : Nat → Nat
  | 0 => 0
  | n + 1 => (mem a).toNat + 256 * fetch mem (a + 1) n

/-- Memory with the `n` low bytes of `v` from address `a` on. -/
def deposit (mem : Nat → Byte) (a n v : Nat) : Nat → Byte :=
  fun b => if a ≤ b ∧ b < a + n then .ofNat 8 (v / 256 ^ (b - a)) else mem b

/-! ## State -/

/-- What a program can see. Register 0 is zero, and memory has `size` bytes. -/
@[ext]
structure Hart where
  pc : Word
  x : BitVec 5 → Word
  zero : x 0 = 0
  size : Nat
  mem : Nat → Byte

namespace Hart

/-- The hart with an integer written to a register, modulo 2^32. Register 0 stays zero. -/
def put (h : Hart) (rd : BitVec 5) (v : Int) : Hart where
  pc := h.pc
  x := fun r => if r = rd ∧ r ≠ 0 then .ofInt 32 v else h.x r
  zero := (if_neg fun h0 => h0.2 rfl).trans h.zero
  size := h.size
  mem := h.mem

def goto (h : Hart) (pc : Int) : Hart := { h with pc := .ofInt 32 pc }

/-- Whether an access of `n` bytes is aligned and within memory. -/
def Admits (h : Hart) (a n : Nat) : Prop := a % n = 0 ∧ a + n ≤ h.size

instance (h : Hart) (a n : Nat) : Decidable (h.Admits a n) :=
  inferInstanceAs (Decidable (_ ∧ _))

def address (h : Hart) (rs1 : BitVec 5) (imm : Int) : Nat :=
  (BitVec.ofInt 32 ((h.x rs1).toNat + imm)).toNat

/-! ## Steps -/

def execute? (h : Hart) : Insn → Option Hart
  | .lui rd imm => some ((h.put rd imm).goto (h.pc.toNat + 4))
  | .auipc rd imm => some ((h.put rd (h.pc.toNat + imm)).goto (h.pc.toNat + 4))
  | .jal rd imm => some ((h.put rd (h.pc.toNat + 4)).goto (h.pc.toNat + imm))
  | .jalr rd rs1 imm =>
    some ((h.put rd (h.pc.toNat + 4)).goto (2 * (((h.x rs1).toNat + imm) / 2)))
  | .branch c rs1 rs2 imm =>
    some (h.goto (h.pc.toNat + if c.holds (h.x rs1) (h.x rs2) then imm else 4))
  | .load op rd rs1 imm =>
    let a := h.address rs1 imm
    if h.Admits a op.bytes then
      some ((h.put rd (op.extend (fetch h.mem a op.bytes))).goto (h.pc.toNat + 4))
    else none
  | .store op rs1 rs2 imm =>
    let a := h.address rs1 imm
    if h.Admits a op.bytes then
      some ({ h with mem := deposit h.mem a op.bytes (h.x rs2).toNat }.goto (h.pc.toNat + 4))
    else none
  | .opImm op rd rs1 imm =>
    some ((h.put rd (op.eval (h.x rs1) (.ofInt 32 imm))).goto (h.pc.toNat + 4))
  | .op op rd rs1 rs2 =>
    some ((h.put rd (op.eval (h.x rs1) (h.x rs2))).goto (h.pc.toNat + 4))

def insn? (h : Hart) : Option Insn :=
  if h.Admits h.pc.toNat 4 then decode? (fetch h.mem h.pc.toNat 4) else none

/-- The hart after a step, if it can take one, and the instruction executed. -/
def step? (h : Hart) : Option (Insn × Hart) :=
  h.insn?.bind fun i => (h.execute? i).map fun h' => (i, h')

/-- The hart after `n` steps, if it can take them, and the instructions executed in order. -/
def steps? : Nat → Hart → Option (List Insn × Hart)
  | 0, h => some ([], h)
  | n + 1, h => h.step?.bind fun (i, h') => (steps? n h').map fun (is, h'') => (i :: is, h'')

theorem step?_eq_some_iff {h h' : Hart} {i : Insn} :
    h.step? = some (i, h') ↔ h.insn? = some i ∧ h.execute? i = some h' := by
  unfold step?
  cases h.insn? with
  | none => simp
  | some j =>
    simp only [Option.bind_some, Option.map_eq_some_iff, Prod.mk.injEq, Option.some.injEq]
    constructor
    · rintro ⟨next, hexec, rfl, rfl⟩
      exact ⟨rfl, hexec⟩
    · rintro ⟨rfl, hexec⟩
      exact ⟨h', hexec, rfl, rfl⟩

theorem steps?_succ_eq_some_iff {n : Nat} {h last : Hart} {is : List Insn} :
    steps? (n + 1) h = some (is, last) ↔
      ∃ i next rest, h.step? = some (i, next) ∧ steps? n next = some (rest, last) ∧
        is = i :: rest := by
  rw [steps?]
  simp only [Option.bind_eq_some_iff, Option.map_eq_some_iff, Prod.mk.injEq, Prod.exists]
  constructor
  · rintro ⟨i, next, hstep, rest, _, hsteps, rfl, rfl⟩
    exact ⟨i, next, rest, hstep, hsteps, rfl⟩
  · rintro ⟨i, next, rest, hstep, hsteps, rfl⟩
    exact ⟨i, next, hstep, rest, last, hsteps, rfl, rfl⟩

end Hart

end Multicycle.Rv32i
