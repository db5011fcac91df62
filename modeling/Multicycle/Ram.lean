/-
Main memory: a fixed number of words addressed by word index. A read past the end gives zero and a
write past the end is lost; neither is an error.
-/
import Multicycle.Event
import Multicycle.Image

namespace Multicycle

/-- The words of memory, from address 0 on. -/
structure Ram where
  words : Array Word
  deriving DecidableEq

namespace Ram

/-- Memory of `capacity` words that starts with `image` and goes on with zeros. The image has to
fit. -/
def ofImage (capacity : Nat) (image : List Word) : Except ImageError Ram :=
  if image.length ≤ capacity then
    .ok ⟨(image ++ List.replicate (capacity - image.length) 0).toArray⟩
  else .error (.tooLarge image.length capacity)

def size (ram : Ram) : Nat := ram.words.size

/-- The word at an index, zero past the end. -/
def read (ram : Ram) (index : Nat) : Word := ram.words[index]?.getD 0

/-- Memory after a write of the lanes chosen by `mask`. -/
def write (ram : Ram) (index : Nat) (data : Word) (mask : Byte) : Ram :=
  ⟨ram.words.modify index fun old => old.merge mask data⟩

/-! ## Laws of access -/

@[simp] theorem size_write (ram : Ram) (index : Nat) (data : Word) (mask : Byte) :
    (ram.write index data mask).size = ram.size := by
  simp [write, size]

/-- A write shows in its own word only, and only within memory. -/
theorem read_write (ram : Ram) (i j : Nat) (data : Word) (mask : Byte) :
    (ram.write i data mask).read j =
      if i = j ∧ i < ram.size then (ram.read j).merge mask data else ram.read j := by
  unfold read write
  rw [Array.getElem?_modify]
  by_cases h : i = j
  · subst h
    by_cases hi : i < ram.size
    · rw [if_pos rfl, if_pos ⟨rfl, hi⟩, Array.getElem?_eq_getElem hi]
      rfl
    · rw [if_pos rfl, if_neg fun h => hi h.2, Array.getElem?_eq_none (Nat.le_of_not_lt hi)]
      rfl
  · rw [if_neg h, if_neg fun h' => h h'.1]

theorem read_of_size_le {ram : Ram} {i : Nat} (h : ram.size ≤ i) : ram.read i = 0 := by
  unfold read
  rw [Array.getElem?_eq_none h]
  rfl

theorem write_of_lt {ram : Ram} {index : Nat} (h : index < ram.words.size) (data : Word)
    (mask : Byte) :
    ram.write index data mask = ⟨ram.words.set index (ram.words[index].merge mask data)⟩ := by
  refine congrArg Ram.mk (Array.ext (by simp) fun i _ _ => ?_)
  rw [Array.getElem_modify, Array.getElem_set]
  split
  · rename_i hi
    subst hi
    rfl
  · rfl

theorem write_of_size_le {ram : Ram} {index : Nat} (h : ram.size ≤ index) (data : Word)
    (mask : Byte) : ram.write index data mask = ram := by
  refine congrArg Ram.mk (Array.ext (Array.size_modify ..) fun i _ hi => ?_)
  rw [Array.getElem_modify, if_neg (Nat.ne_of_gt (Nat.lt_of_lt_of_le hi h))]

/-! ## Events -/

def readEvents (ram : Ram) (index : Nat) : List Event :=
  if index < ram.size then [] else [.readOutside index]

def writeEvents (ram : Ram) (index : Nat) : List Event :=
  if index < ram.size then [] else [.writeOutside index]

end Ram

end Multicycle
