import Mathlib.Algebra.Order.Group.Int

/-!
# Files of linked rows of different sizes

The rows of an extent file stand at byte positions and take different numbers of
bytes.  A row that is written destroys every row it overlaps.  Each row of a
chain knows its position and the position of the row before it, so a chain is
read from its last row backwards.
-/

namespace HdacNode

/-- A file of rows, each found by the position of its first byte. -/
structure ExtentFile (Row : Type) where
  rowAt : Int → Option Row

namespace ExtentFile

variable {Row : Type}

/-- A new file. -/
def empty : ExtentFile Row := ⟨fun _ => none⟩

/-- Write a row at a position. -/
def setRow (size : Row → Int) (file : ExtentFile Row) (pos : Int) (row : Row) :
    ExtentFile Row where
  rowAt other :=
    if other = pos then some row
    else
      (file.rowAt other).filter fun old =>
        ¬ (other < pos + size row ∧ pos < other + size old)

variable {size : Row → Int} {file : ExtentFile Row} {pos other : Int} {row old : Row}

@[simp]
theorem rowAt_setRow_self : (file.setRow size pos row).rowAt pos = some row := by
  simp [setRow]

/-- A row in front of the written one stays. -/
theorem rowAt_setRow_of_before (found : file.rowAt other = some old) (different : other ≠ pos)
    (before : other + size old ≤ pos) : (file.setRow size pos row).rowAt other = some old := by
  have apart : ¬ (other < pos + size row ∧ pos < other + size old) := by omega
  simp only [setRow, if_neg different, found, Option.filter, apart]
  rfl

theorem rowAt_setRow_of_behind (found : file.rowAt other = some old) (different : other ≠ pos)
    (behind : pos + size row ≤ other) : (file.setRow size pos row).rowAt other = some old := by
  have apart : ¬ (other < pos + size row ∧ pos < other + size old) := by omega
  simp only [setRow, if_neg different, found, Option.filter, apart]
  rfl

end ExtentFile

/-- What a row of an extent file says about its place. -/
structure ExtentShape (Row : Type) where
  size : Row → Int
  pos : Row → Int
  prevPos : Row → Int
  base : Int
  base_pos : 0 < base
  base_le : ∀ row, base ≤ size row

namespace ExtentShape

variable {Row : Type} (shape : ExtentShape Row)

/-- The position of the last row of a chain, newest first; 0 without rows. -/
def lastPos : List Row → Int
  | [] => 0
  | row :: _ => shape.pos row

/-- The position behind a chain.  A base stands in front of all rows. -/
def endPos : List Row → Int
  | [] => shape.base
  | row :: _ => shape.pos row + shape.size row

/-- The rows of a chain, newest first, stand in the file one behind the other and
are linked backwards. -/
def Chain (file : ExtentFile Row) : List Row → Prop
  | [] => True
  | row :: log =>
      file.rowAt (shape.pos row) = some row ∧ shape.prevPos row = shape.lastPos log ∧
        shape.endPos log ≤ shape.pos row ∧ Chain file log

/-- The rows that are read back along their links, newest first. -/
def rowsFrom (file : ExtentFile Row) : Nat → Int → List Row
  | 0, _ => []
  | fuel + 1, pos =>
      if pos ≤ 0 then []
      else
        match file.rowAt pos with
        | none => []
        | some row => row :: rowsFrom file fuel (shape.prevPos row)

variable {shape} {file : ExtentFile Row} {log : List Row} {row : Row}

theorem lastPos_lt_endPos (shape : ExtentShape Row) (log : List Row) :
    shape.lastPos log < shape.endPos log := by
  cases log with
  | nil => exact shape.base_pos
  | cons row log =>
      have sizeLe := shape.base_le row
      have positive := shape.base_pos
      change shape.pos row < shape.pos row + shape.size row
      omega

namespace Chain

theorem of_append {segment : List Row} (chain : shape.Chain file (segment ++ log)) :
    shape.Chain file log := by
  induction segment with
  | nil => exact chain
  | cons row segment ih => exact ih chain.2.2.2

theorem base_le_endPos (chain : shape.Chain file log) : shape.base ≤ shape.endPos log := by
  induction log with
  | nil => exact le_rfl
  | cons row log ih =>
      have older := ih chain.2.2.2
      have inside := chain.2.2.1
      have sizeLe := shape.base_le row
      have positive := shape.base_pos
      change _ ≤ shape.pos row + shape.size row
      omega

theorem base_le_pos (chain : shape.Chain file log) (member : row ∈ log) :
    shape.base ≤ shape.pos row := by
  induction log with
  | nil => simp at member
  | cons head log ih =>
      rcases List.mem_cons.1 member with rfl | inTail
      · exact (base_le_endPos chain.2.2.2).trans chain.2.2.1
      · exact ih chain.2.2.2 inTail

theorem pos_add_size_le (chain : shape.Chain file log) (member : row ∈ log) :
    shape.pos row + shape.size row ≤ shape.endPos log := by
  induction log with
  | nil => simp at member
  | cons head log ih =>
      rcases List.mem_cons.1 member with rfl | inTail
      · exact le_rfl
      · have older := ih chain.2.2.2 inTail
        have inside := chain.2.2.1
        have sizeLe := shape.base_le head
        have positive := shape.base_pos
        change _ ≤ shape.pos head + shape.size head
        omega

theorem rowAt_pos (chain : shape.Chain file log) (member : row ∈ log) :
    file.rowAt (shape.pos row) = some row := by
  induction log with
  | nil => simp at member
  | cons head log ih =>
      rcases List.mem_cons.1 member with rfl | inTail
      · exact chain.1
      · exact ih chain.2.2.2 inTail

/-- An older part of a chain ends in front of the newer rows. -/
theorem endPos_le_of_suffix {older : List Row} (chain : shape.Chain file log)
    (suffix : older <:+ log) : shape.endPos older ≤ shape.endPos log := by
  obtain ⟨skipped, rfl⟩ := suffix
  cases older with
  | nil => exact base_le_endPos chain
  | cons row older => exact pos_add_size_le chain (by simp)

theorem endPos_le_lastPos {older : List Row} (chain : shape.Chain file log)
    (suffix : older <:+ log) (different : older ≠ log) :
    shape.endPos older ≤ shape.lastPos log := by
  obtain ⟨skipped, rfl⟩ := suffix
  cases skipped with
  | nil => exact absurd rfl different
  | cons row skipped =>
      have older := endPos_le_of_suffix chain.2.2.2 (List.suffix_append skipped older)
      exact older.trans chain.2.2.1

theorem length_lt_endPos (chain : shape.Chain file log) : (log.length : Int) < shape.endPos log := by
  induction log with
  | nil => exact shape.base_pos
  | cons row log ih =>
      have older := ih chain.2.2.2
      have inside := chain.2.2.1
      have sizeLe := shape.base_le row
      have positive := shape.base_pos
      rw [List.length_cons]
      change _ < shape.pos row + shape.size row
      push_cast
      omega

/-- The last position of a chain is an upper bound of its rows. -/
theorem length_lt_lastPos (chain : shape.Chain file log) :
    log.length < (shape.lastPos log).toNat + 1 := by
  cases log with
  | nil => exact Nat.succ_pos _
  | cons row log =>
      have older := length_lt_endPos chain.2.2.2
      have inside := chain.2.2.1
      rw [List.length_cons]
      change _ < (shape.pos row).toNat + 1
      omega

theorem rowsFrom_lastPos (chain : shape.Chain file log) {fuel : Nat}
    (enough : log.length < fuel) : shape.rowsFrom file fuel (shape.lastPos log) = log := by
  induction log generalizing fuel with
  | nil =>
      obtain ⟨fuel, rfl⟩ : ∃ fewer, fuel = fewer + 1 := ⟨fuel - 1, by omega⟩
      exact if_pos le_rfl
  | cons row log ih =>
      obtain ⟨fuel, rfl⟩ : ∃ fewer, fuel = fewer + 1 := ⟨fuel - 1, by omega⟩
      have positive := shape.base_pos
      have behind := chain.base_le_pos (List.mem_cons_self ..)
      have fewer : log.length < fuel := Nat.lt_of_succ_lt_succ enough
      change shape.rowsFrom file (fuel + 1) (shape.pos row) = _
      unfold rowsFrom
      rw [if_neg (by omega), chain.1]
      dsimp only
      rw [chain.2.1, ih chain.2.2.2 fewer]

/-- Writing behind a chain keeps it. -/
theorem setRow_of_endPos_le (chain : shape.Chain file log) {pos : Int} {written : Row}
    (behind : shape.endPos log ≤ pos) :
    shape.Chain (file.setRow shape.size pos written) log := by
  induction log with
  | nil => trivial
  | cons row log ih =>
      have ends : shape.pos row + shape.size row ≤ pos := behind
      have inside := chain.2.2.1
      have sizeLe := shape.base_le row
      have positive := shape.base_pos
      exact ⟨ExtentFile.rowAt_setRow_of_before chain.1 (by omega) ends, chain.2.1, inside,
        ih chain.2.2.2 (by omega)⟩

theorem setRow_zero (chain : shape.Chain file log) {written : Row}
    (fits : shape.size written = shape.base) :
    shape.Chain (file.setRow shape.size 0 written) log := by
  induction log with
  | nil => trivial
  | cons row log ih =>
      have behind := base_le_endPos chain.2.2.2
      have inside := chain.2.2.1
      have positive := shape.base_pos
      exact ⟨ExtentFile.rowAt_setRow_of_behind chain.1 (by omega) (by omega), chain.2.1, inside,
        ih chain.2.2.2⟩

theorem cons_setRow (chain : shape.Chain file log) (pos : shape.pos row = shape.endPos log)
    (prev : shape.prevPos row = shape.lastPos log) :
    shape.Chain (file.setRow shape.size (shape.pos row) row) (row :: log) :=
  ⟨ExtentFile.rowAt_setRow_self, prev, pos.ge, chain.setRow_of_endPos_le pos.ge⟩

/-- The base is not touched by writes behind a chain. -/
theorem rowAt_zero_setRow (chain : shape.Chain file log) {base written : Row} {pos : Int}
    (found : file.rowAt 0 = some base) (fits : shape.size base = shape.base)
    (behind : shape.endPos log ≤ pos) :
    (file.setRow shape.size pos written).rowAt 0 = some base := by
  have endLe := base_le_endPos chain
  have positive := shape.base_pos
  exact ExtentFile.rowAt_setRow_of_before found (by omega) (by omega)

end Chain

end ExtentShape

end HdacNode
