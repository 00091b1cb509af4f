/-
Runs of lines in one buffer.

A model of `editor/LineBlob`: the bytes of all lines in one string and a table of line
starts, both with slack at the front. A blob *spells* a list of lines when its bytes past
the slack are their concatenation and its table past the slack holds their starts.
-/

import Mathlib.Algebra.Group.Nat.Defs
import Microide.Text.Lines

namespace Microide.Editor

open List Option Lib Text

/-- `LineBlob`. The offsets of the table are `std::uint32_t`. -/
structure LineBlob where
  data : List UInt8 := []
  head : Nat := 0
  starts : List Nat := []
  firstLine : Nat := 0

namespace LineBlob

/-- `size`. -/
def size (blob : LineBlob) : Nat := blob.starts.length - blob.firstLine

/-- `push_back`, and `emplace_back`. -/
def pushBack (blob : LineBlob) (line : Line) : LineBlob :=
  { blob with
    starts := blob.starts ++ [blob.data.length % 2 ^ 32]
    data := blob.data ++ line }

/-- `StartOf`. -/
def startOf (blob : LineBlob) (index : Nat) : Nat :=
  blob.starts.getD (blob.firstLine + index) 0

/-- `EndOf`. -/
def endOf (blob : LineBlob) (index : Nat) : Nat :=
  blob.starts.getD (blob.firstLine + index + 1) blob.data.length

/-- `operator[]`. -/
def line (blob : LineBlob) (index : Nat) : Line :=
  slice blob.data (blob.startOf index) (blob.endOf index)

/-- `ToVector`. -/
def toVector (blob : LineBlob) : List Line :=
  (List.range blob.size).map blob.line

/-! ### The lines of a blob -/

/-- The starts of lines that follow each other from `base` on. -/
def startsFrom (base : Nat) : List Line → List Nat
  | [] => []
  | line :: lines => base :: startsFrom (base + line.length) lines

theorem length_startsFrom (base : Nat) (lines : List Line) :
    (startsFrom base lines).length = lines.length := by
  induction lines generalizing base with
  | nil => rfl
  | cons line lines ih => simp [startsFrom, ih]

theorem startsFrom_append (base : Nat) (lines more : List Line) :
    startsFrom base (lines ++ more) =
      startsFrom base lines ++ startsFrom (base + lines.flatten.length) more := by
  induction lines generalizing base with
  | nil => simp [startsFrom]
  | cons line lines ih => simp [startsFrom, ih, Nat.add_assoc]

theorem getElem?_startsFrom (base : Nat) (lines : List Line) {index : Nat} (h : index < lines.length) :
    (startsFrom base lines)[index]? = some (base + (lines.take index).flatten.length) := by
  have hsplit := startsFrom_append base (lines.take index) (lines.drop index)
  rw [take_append_drop] at hsplit
  have hlength : (startsFrom base (lines.take index)).length = index := by
    rw [length_startsFrom, length_take]
    omega
  obtain ⟨line, rest, hrest⟩ := exists_cons_of_length_pos
    (show 0 < (lines.drop index).length by rw [length_drop]; omega)
  rw [hsplit, getElem?_append_right (by omega), hlength, Nat.sub_self, hrest]
  simp [startsFrom]

/-- The bytes and the table past the slack are those of `lines`. -/
structure Spells (blob : LineBlob) (lines : List Line) : Prop where
  head_le : blob.head ≤ blob.data.length
  firstLine_le : blob.firstLine ≤ blob.starts.length
  data : blob.data.drop blob.head = lines.flatten
  starts : blob.starts.drop blob.firstLine = startsFrom blob.head lines

variable {blob : LineBlob} {lines : List Line}

theorem Spells.length_data (h : blob.Spells lines) :
    blob.data.length = blob.head + lines.flatten.length := by
  have hlength := congrArg List.length h.data
  have hle := h.head_le
  rw [length_drop] at hlength
  omega

theorem Spells.size_eq (h : blob.Spells lines) : blob.size = lines.length := by
  rw [size, ← length_startsFrom blob.head lines, ← h.starts, length_drop]

theorem spells_empty : ({} : LineBlob).Spells [] := by
  refine ⟨?_, ?_, ?_, ?_⟩ <;> simp [startsFrom]

/-- The lines a blob gives back. -/
theorem Spells.toVector_eq (h : blob.Spells lines) : blob.toVector = lines := by
  have hget (index : Nat) : blob.starts[blob.firstLine + index]? =
      (startsFrom blob.head lines)[index]? := by
    rw [← h.starts, getElem?_drop]
  apply ext_getElem
  · rw [toVector, length_map, length_range, h.size_eq]
  · intro index _ hindex
    have hstart : blob.startOf index = blob.head + (lines.take index).flatten.length := by
      rw [startOf, getD_eq_getElem?_getD, hget, getElem?_startsFrom _ _ hindex, getD_some]
    have hend : blob.endOf index = blob.head + (lines.take (index + 1)).flatten.length := by
      rw [endOf, getD_eq_getElem?_getD, Nat.add_assoc, hget]
      by_cases hnext : index + 1 < lines.length
      · rw [getElem?_startsFrom _ _ hnext, getD_some]
      · rw [getElem?_eq_none (by rw [length_startsFrom]; omega), getD_none, h.length_data,
          take_of_length_le (by omega)]
    have htake : (lines.take (index + 1)).flatten = (lines.take index).flatten ++ lines[index] := by
      rw [take_succ_eq_append_getElem hindex, flatten_append, flatten_singleton]
    have hsplit : lines.flatten = (lines.take index).flatten ++ lines[index] ++
        (lines.drop (index + 1)).flatten := by
      rw [← htake, ← flatten_append, take_append_drop]
    have hdata : blob.data = blob.data.take blob.head ++ lines.flatten := by
      rw [← h.data, take_append_drop]
    have hhead : (blob.data.take blob.head).length = blob.head := by
      rw [length_take, Nat.min_eq_left h.head_le]
    have hmiddle := slice_middle (blob.data.take blob.head ++ (lines.take index).flatten) lines[index]
      (lines.drop (index + 1)).flatten
    rw [length_append, hhead] at hmiddle
    simp only [toVector, getElem_map, getElem_range, line, hstart, hend, htake]
    rw [hdata, hsplit, length_append, ← Nat.add_assoc, append_assoc,
      ← append_assoc (blob.data.take blob.head), ← append_assoc, hmiddle]

/-- **push_back** adds a line while the offsets fit into 32 bits. -/
theorem Spells.pushBack (h : blob.Spells lines) (line : Line) (hroom : blob.data.length < 2 ^ 32) :
    (blob.pushBack line).Spells (lines ++ [line]) := by
  have hlength := h.length_data
  refine ⟨?_, ?_, ?_, ?_⟩
  · simp only [LineBlob.pushBack, length_append]
    omega
  · have := h.firstLine_le
    simp only [LineBlob.pushBack, length_append]
    omega
  · simp only [LineBlob.pushBack]
    rw [drop_append_of_le_length h.head_le, h.data]
    simp
  · simp only [LineBlob.pushBack]
    rw [drop_append_of_le_length h.firstLine_le, h.starts, startsFrom_append,
      Nat.mod_eq_of_lt hroom, hlength]
    rfl

end LineBlob

end Microide.Editor
