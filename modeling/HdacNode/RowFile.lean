import Mathlib.Logic.Function.Basic

/-!
# Files of fixed-size rows

A row file is a sequence of rows with a write position.  A row can be written
at any place, further rows follow the last one written, and nothing ever
shortens the file, so rows of an abandoned longer history stay behind the
live ones.
-/

/-- A file of fixed-size rows and the position of the next sequential write. -/
structure RowFile (Row : Type) where
  size : Nat
  row : Nat → Row
  position : Nat

namespace RowFile

variable {Row : Type}

/-- A new file; `zero` is what a row consists of that was never written. -/
def empty (zero : Row) : RowFile Row where
  size := 0
  row := fun _ => zero
  position := 0

/-- Read a row, failing behind the end of the file. -/
def getRow (file : RowFile Row) (rowID : Nat) : Option Row :=
  if rowID < file.size then some (file.row rowID) else none

/-- Write at the current position. -/
def writeRow (file : RowFile Row) (row : Row) : RowFile Row where
  size := max file.size (file.position + 1)
  row := Function.update file.row file.position row
  position := file.position + 1

/-- Write at a given place. -/
def setRow (file : RowFile Row) (rowID : Nat) (row : Row) : RowFile Row :=
  writeRow { file with position := rowID } row

/-- Write rows one after the other from the current position on. -/
def writeRows (file : RowFile Row) (rows : List Row) : RowFile Row :=
  rows.foldl writeRow file

@[simp]
theorem size_setRow (file : RowFile Row) (rowID : Nat) (row : Row) :
    (file.setRow rowID row).size = max file.size (rowID + 1) :=
  rfl

@[simp]
theorem row_setRow (file : RowFile Row) (rowID : Nat) (row : Row) :
    (file.setRow rowID row).row = Function.update file.row rowID row :=
  rfl

@[simp]
theorem position_setRow (file : RowFile Row) (rowID : Nat) (row : Row) :
    (file.setRow rowID row).position = rowID + 1 :=
  rfl

@[simp]
theorem getRow_setRow_self (file : RowFile Row) (rowID : Nat) (row : Row) :
    (file.setRow rowID row).getRow rowID = some row := by
  have inside : rowID < max file.size (rowID + 1) := by omega
  simp [getRow, inside]

theorem getRow_setRow_of_gt (file : RowFile Row) {rowID other : Nat} (row : Row)
    (above : rowID < other) :
    (file.setRow rowID row).getRow other = file.getRow other := by
  have different : other ≠ rowID := by omega
  have sizeIff : other < max file.size (rowID + 1) ↔ other < file.size := by omega
  simp [getRow, different, sizeIff]

theorem getRow_setRow_of_lt (file : RowFile Row) {rowID other : Nat} (row : Row)
    (below : other < rowID) (inside : other < file.size) :
    (file.setRow rowID row).getRow other = file.getRow other := by
  have different : other ≠ rowID := by omega
  have insideMax : other < max file.size (rowID + 1) := by omega
  simp [getRow, different, inside, insideMax]

theorem getRow_setRow_of_ne (file : RowFile Row) {rowID other : Nat} (row : Row)
    (different : other ≠ rowID) (inside : other < file.size) :
    (file.setRow rowID row).getRow other = file.getRow other := by
  rcases Nat.lt_or_gt_of_ne different with below | above
  · exact getRow_setRow_of_lt file row below inside
  · exact getRow_setRow_of_gt file row above

theorem size_writeRows (file : RowFile Row) (rows : List Row)
    (inside : file.position ≤ file.size) :
    (file.writeRows rows).size = max file.size (file.position + rows.length) := by
  induction rows generalizing file with
  | nil => simp [writeRows, inside]
  | cons row rows ih =>
      change ((file.writeRow row).writeRows rows).size = _
      rw [ih _ (Nat.le_max_right _ _)]
      simp only [writeRow, List.length_cons]
      omega

/-- Sequential writes touch only the rows from the current position on. -/
theorem writeRows_row_of_lt (file : RowFile Row) (rows : List Row) {rowID : Nat}
    (before : rowID < file.position) :
    (file.writeRows rows).row rowID = file.row rowID := by
  induction rows generalizing file with
  | nil => rfl
  | cons row rows ih =>
      change ((file.writeRow row).writeRows rows).row rowID = _
      rw [ih _ (by simp only [writeRow]; omega)]
      exact Function.update_of_ne (Nat.ne_of_lt before) _ _

theorem writeRows_row_of_le (file : RowFile Row) (rows : List Row) {rowID : Nat}
    (behind : file.position + rows.length ≤ rowID) :
    (file.writeRows rows).row rowID = file.row rowID := by
  induction rows generalizing file with
  | nil => rfl
  | cons row rows ih =>
      simp only [List.length_cons] at behind
      change ((file.writeRow row).writeRows rows).row rowID = _
      rw [ih _ (by simp only [writeRow]; omega)]
      exact Function.update_of_ne (by omega) _ _

theorem writeRows_row_getElem (file : RowFile Row) (rows : List Row) {index : Nat}
    (inside : index < rows.length) :
    (file.writeRows rows).row (file.position + index) = rows[index] := by
  induction rows generalizing file index with
  | nil => simp at inside
  | cons row rows ih =>
      change ((file.writeRow row).writeRows rows).row (file.position + index) = _
      cases index with
      | zero =>
          rw [writeRows_row_of_lt _ _ (by simp [writeRow])]
          simp [writeRow]
      | succ index =>
          have shifted := ih (file.writeRow row)
            (by simpa using inside)
          simpa [writeRow, Nat.add_assoc, Nat.add_comm 1 index] using shifted

end RowFile
