/-
The 32 integer registers. Register 0 reads as zero and swallows writes; its storage cell is never
touched. The instruction fields name registers by five bits, the host by any number, so there are
total accessors for the first and optional ones for the second.
-/
import Multicycle.Word

namespace Multicycle

def registerNames : List String :=
  ["zero", "ra", "sp", "gp", "tp", "t0", "t1", "t2", "s0", "s1", "a0", "a1", "a2", "a3", "a4",
    "a5", "a6", "a7", "s2", "s3", "s4", "s5", "s6", "s7", "s8", "s9", "s10", "s11", "t3", "t4",
    "t5", "t6"]

/-- The conventional name of register `i`, a question mark past the last one. -/
def registerName (i : Nat) : String := registerNames[i]?.getD "?"

/-- The register file: one storage cell per register. -/
structure Registers where
  cells : Vector Word 32
  deriving DecidableEq

namespace Registers

def zero : Registers := ⟨Vector.replicate 32 0⟩

/-- What is stored for register `i`. -/
def cell (r : Registers) (i : BitVec 5) : Word := r.cells[i.toNat]

def read (r : Registers) (i : BitVec 5) : Word := if i = 0 then 0 else r.cells[i.toNat]

/-- The registers after a write; a write to register 0 is lost. -/
def write (r : Registers) (i : BitVec 5) (value : Word) : Registers :=
  if i = 0 then r else ⟨r.cells.set i.toNat value⟩

def read? (r : Registers) (i : Nat) : Option Word :=
  if h : i < 32 then some (r.read (BitVec.ofNatLT i h)) else none

def write? (r : Registers) (i : Nat) (value : Word) : Option Registers :=
  if h : i < 32 then some (r.write (BitVec.ofNatLT i h) value) else none

/-- The values of all registers in order, register 0 as zero whatever its cell holds. -/
def snapshot (r : Registers) : List Word := (r.cells.set 0 0).toList

/-! ## Laws of access -/

theorem read_zero (i : BitVec 5) : zero.read i = 0 := by
  unfold read zero
  rw [Vector.getElem_replicate, ite_self]

/-- A write shows in its own register only, and never in register 0. -/
theorem read_write (r : Registers) (i j : BitVec 5) (value : Word) :
    (r.write i value).read j = if i = j ∧ i ≠ 0 then value else r.read j := by
  unfold read write
  by_cases h0 : i = 0
  · rw [if_pos h0, if_neg (fun h => h.2 h0 : ¬(i = j ∧ i ≠ 0))]
  rw [if_neg h0]
  by_cases hij : i = j
  · subst hij
    rw [if_neg h0, if_pos ⟨rfl, h0⟩]
    exact Vector.getElem_set_self _
  · have hn : i.toNat ≠ j.toNat := fun h => hij (BitVec.toNat_inj.1 h)
    rw [if_neg (fun h => hij h.1 : ¬(i = j ∧ i ≠ 0)), Vector.getElem_set_ne _ _ hn]

/-- The cell of register 0 is never touched. -/
theorem cell_zero_write (r : Registers) (i : BitVec 5) (value : Word) :
    (r.write i value).cell 0 = r.cell 0 := by
  unfold write
  split
  · rfl
  · rename_i h
    exact Vector.getElem_set_ne i.isLt (by decide) fun h0 => h (BitVec.eq_of_toNat_eq h0)

/-- Where that cell holds zero, every register reads as its cell. -/
theorem read_eq_cell {r : Registers} (h : r.cell 0 = 0) (i : BitVec 5) : r.read i = r.cell i := by
  unfold read
  split
  · rename_i hi
    subst hi
    exact h.symm
  · rfl

theorem getElem?_snapshot (r : Registers) (i : BitVec 5) :
    r.snapshot[i.toNat]? = some (r.read i) := by
  unfold snapshot read
  rw [Vector.getElem?_toList, Vector.getElem?_eq_getElem i.isLt]
  by_cases hi : i = 0
  · subst hi
    rw [if_pos rfl]
    exact congrArg some (Vector.getElem_set_self _)
  · have hn : 0 ≠ i.toNat := fun h => hi (BitVec.eq_of_toNat_eq h.symm)
    rw [if_neg hi, Vector.getElem_set_ne _ _ hn]

theorem read?_toNat (r : Registers) (i : BitVec 5) : r.read? i.toNat = some (r.read i) := by
  have := i.isLt
  simp [read?, this]

theorem read?_eq_none_iff (r : Registers) (i : Nat) : r.read? i = none ↔ 32 ≤ i := by
  unfold read?
  split <;> simp <;> omega

end Registers

end Multicycle
