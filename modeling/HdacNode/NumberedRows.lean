import HdacNode.WriteBatchTable
import Mathlib.Data.List.Range

/-!
# Rows numbered from one in a table

A table keeps a list when the list's rows stand under the positions from one
on and no other position has a row.  The list grows by writes behind its end
and shrinks by deletes from its end.  A window of positions selects a part of
the list.
-/

namespace NumberedRows

variable {Row : Type}

/-- A table of positions holds the rows of a list, numbered from one. -/
def Holds (read : Nat → Option Row) (rows : List Row) : Prop :=
  read 0 = none ∧ ∀ index, read (index + 1) = rows[index]?

theorem Holds.congr {read other : Nat → Option Row} {rows : List Row} (holds : Holds read rows)
    (same : ∀ position, other position = read position) : Holds other rows := by
  have sameRead : other = read := funext same
  rw [sameRead]
  exact holds

theorem Holds.isSome_iff {read : Nat → Option Row} {rows : List Row} (holds : Holds read rows)
    (position : Nat) :
    (read position).isSome ↔ 1 ≤ position ∧ position ≤ rows.length := by
  cases position with
  | zero => simp [holds.1]
  | succ index =>
      rw [holds.2 index]
      by_cases inside : index < rows.length
      · rw [List.getElem?_eq_getElem inside]
        exact iff_of_true rfl ⟨Nat.succ_pos index, inside⟩
      · rw [List.getElem?_eq_none (not_lt.mp inside)]
        exact iff_of_false Bool.false_ne_true fun bounds => inside bounds.2

theorem Holds.read_eq {read : Nat → Option Row} {rows : List Row} (holds : Holds read rows)
    {index : Nat} (inside : index < rows.length) : read (index + 1) = some rows[index] := by
  rw [holds.2, List.getElem?_eq_getElem inside]

/-- A table holds one list only. -/
theorem Holds.unique {read : Nat → Option Row} {first second : List Row}
    (holdsFirst : Holds read first) (holdsSecond : Holds read second) : first = second := by
  apply List.ext_getElem?
  intro index
  rw [← holdsFirst.2, holdsSecond.2]

theorem Holds.filterMap_range {read : Nat → Option Row} {rows : List Row}
    (holds : Holds read rows) : (List.range' 1 rows.length).filterMap read = rows := by
  induction rows using List.reverseRecOn generalizing read with
  | nil => rfl
  | append_singleton rows row ih =>
      have shorter : Holds (fun position => if position = rows.length + 1 then none
          else read position) rows := by
        constructor
        · simp [holds.1]
        · intro index
          by_cases atEnd : index = rows.length
          · simp [atEnd]
          · simp only [Nat.add_right_cancel_iff, atEnd, if_false, holds.2 index]
            by_cases inside : index < rows.length
            · rw [List.getElem?_append_left inside]
            · rw [List.getElem?_eq_none (by rw [List.length_append, List.length_singleton]; omega),
                List.getElem?_eq_none (by omega)]
      have agree : ∀ position ∈ List.range' 1 rows.length,
          read position = if position = rows.length + 1 then none else read position := by
        intro position inside
        have := List.mem_range'_1.1 inside
        rw [if_neg (by omega)]
      have last : read (rows.length + 1) = some row := by
        rw [holds.2]
        simp
      rw [List.length_append, List.length_singleton, List.range'_concat, List.filterMap_append,
        List.filterMap_congr agree, ih shorter]
      simp [Nat.add_comm 1, last]

/-- One more row behind the end. -/
theorem Holds.concat {read other : Nat → Option Row} {rows : List Row} (holds : Holds read rows)
    {row : Row}
    (written : ∀ position, other position =
      if position = rows.length + 1 then some row else read position) :
    Holds other (rows ++ [row]) := by
  constructor
  · rw [written 0, if_neg (by omega), holds.1]
  · intro index
    rw [written (index + 1)]
    by_cases atEnd : index = rows.length
    · subst atEnd
      simp
    · rw [if_neg (by omega), holds.2 index]
      by_cases inside : index < rows.length
      · rw [List.getElem?_append_left inside]
      · rw [List.getElem?_eq_none (by omega),
          List.getElem?_eq_none (by rw [List.length_append, List.length_singleton]; omega)]

theorem Holds.dropEnd {read other : Nat → Option Row} {kept dropped : List Row}
    (holds : Holds read (kept ++ dropped))
    (deleted : ∀ position, other position =
      if kept.length < position ∧ position ≤ (kept ++ dropped).length then none
      else read position) :
    Holds other kept := by
  constructor
  · rw [deleted 0, if_neg (by omega), holds.1]
  · intro index
    rw [deleted (index + 1)]
    by_cases inKept : index < kept.length
    · rw [if_neg (by omega), holds.2 index, List.getElem?_append_left inKept]
    · rw [List.getElem?_eq_none (by omega : kept.length ≤ index)]
      by_cases inside : index + 1 ≤ (kept ++ dropped).length
      · rw [if_pos ⟨by omega, inside⟩]
      · rw [if_neg (by omega), holds.2 index, List.getElem?_eq_none (by omega)]

/-- The rows of a list, numbered from one, at the positions from `first` to `last`. -/
def between (rows : List Row) (first last : Int) : List Row :=
  ((rows.zipIdx 1).filter fun entry => first ≤ entry.2 ∧ entry.2 ≤ last).map Prod.fst

theorem filter_zipIdx (rows : List Row) (start : Nat) (first last : Int) :
    ((rows.zipIdx start).filter fun entry => first ≤ entry.2 ∧ entry.2 ≤ last).map Prod.fst =
      (rows.take (last - start + 1).toNat).drop (first - start).toNat := by
  induction rows generalizing start with
  | nil => simp
  | cons row rows ih =>
      have rest := ih (start + 1)
      rw [List.zipIdx_cons, List.filter_cons]
      by_cases after : last < start
      · have none : (last - start + 1).toNat = 0 := by omega
        have noneBehind : (last - (start + 1 : Nat) + 1).toNat = 0 := by omega
        have outside : ¬ (first ≤ (start : Int) ∧ (start : Int) ≤ last) := by omega
        rw [noneBehind] at rest
        rw [if_neg (by simpa using outside), rest, none]
        simp
      · obtain ⟨size, isSize⟩ : ∃ size : Nat, (last - start + 1).toNat = size + 1 :=
          ⟨(last - start).toNat, by omega⟩
        have fewer : (last - (start + 1 : Nat) + 1).toNat = size := by omega
        rw [fewer] at rest
        rw [isSize, List.take_succ_cons]
        by_cases before : (start : Int) < first
        · have outside : ¬ (first ≤ (start : Int) ∧ (start : Int) ≤ last) := by omega
          have skips : (first - start).toNat = (first - (start + 1 : Nat)).toNat + 1 := by omega
          rw [if_neg (by simpa using outside), rest, skips, List.drop_succ_cons]
        · have inside : first ≤ (start : Int) ∧ (start : Int) ≤ last := by omega
          have none : (first - start).toNat = 0 := by omega
          have noneBehind : (first - (start + 1 : Nat)).toNat = 0 := by omega
          rw [noneBehind, List.drop_zero] at rest
          rw [if_pos (by simpa using inside), List.map_cons, rest, none, List.drop_zero]

/-- A window is a part of the list. -/
theorem between_eq (rows : List Row) (first last : Int) :
    between rows first last = (rows.take last.toNat).drop (first - 1).toNat := by
  have split := filter_zipIdx rows 1 first last
  have size : last - (1 : Nat) + 1 = last := by omega
  rw [size] at split
  exact split

theorem between_eq_take (rows : List Row) {first : Int} (last : Int) (positive : 1 ≤ first) :
    between rows first last = (rows.drop (first - 1).toNat).take
      (min last rows.length - first + 1).toNat := by
  have cut : rows.take last.toNat = rows.take (min last rows.length).toNat := by
    rw [List.take_eq_take_iff]
    omega
  have size : (min last rows.length).toNat - (first - 1).toNat =
      (min last rows.length - first + 1).toNat := by omega
  rw [between_eq, cut, List.drop_take, size]

theorem flatMap_windows (rows : List Row) (count pages : Nat) :
    ((List.range pages).reverse.flatMap fun page => between rows
      ((rows.length : Int) - count + 1 - (page * count : Nat))
      ((rows.length : Int) - (page * count : Nat))) =
        rows.drop (rows.length - pages * count) := by
  induction pages with
  | zero => simp
  | succ pages ih =>
      have last : ((rows.length : Int) - (pages * count : Nat)).toNat =
          rows.length - pages * count := by omega
      have first : ((rows.length : Int) - count + 1 - (pages * count : Nat) - 1).toNat =
          rows.length - (pages + 1) * count := by
        rw [Nat.succ_mul]
        omega
      have within : rows.length - (pages + 1) * count ≤ rows.length - pages * count := by
        rw [Nat.succ_mul]
        omega
      rw [List.range_succ, List.reverse_append, List.reverse_singleton, List.singleton_append,
        List.flatMap_cons, ih, between_eq, last, first]
      have parts := List.take_append_drop (rows.length - pages * count) rows
      have front : rows.length - (pages + 1) * count ≤
          (rows.take (rows.length - pages * count)).length := by
        rw [List.length_take]
        omega
      rw [← List.drop_append_of_le_length front, parts]

/-- A window that ends in front of the list is empty. -/
theorem between_eq_nil (rows : List Row) (first : Int) {last : Int} (none : last < 1) :
    between rows first last = [] := by
  have nothing : last.toNat = 0 := by omega
  rw [between_eq, nothing, List.take_zero, List.drop_nil]

/-- A window that begins in front of the list selects what is behind its first row. -/
theorem between_of_le_one (rows : List Row) {first : Int} (last : Int) (early : first ≤ 1) :
    between rows first last = between rows 1 last := by
  have front : (first - 1).toNat = (1 - 1 : Int).toNat := by omega
  rw [between_eq, between_eq, front]

/-- The size of a window that begins in the list or in front of it. -/
theorem length_between (rows : List Row) (first last : Int) :
    (between rows first last).length = min last.toNat rows.length - (first - 1).toNat := by
  rw [between_eq, List.length_drop, List.length_take]

end NumberedRows
