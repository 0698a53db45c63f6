import Mathlib.Data.List.Basic

/-!
# Logs whose rows link to the previous row of their key

A log is kept newest row first, so a suffix of the list is an earlier state of
the log and the position of a row is the length of the list from that row on.
Every row names its own position and the position of the newest earlier row
with the same key, zero when there is none.

Three readers of such a log are covered: following the links forward from the
newest row of a base log, following them backward, and undoing a segment row
by row, where the oldest undone row of a key decides.
-/

namespace LinkedRowLog

/-- How a row names its key, its predecessor and its own position. -/
structure Shape (Key Row : Type) where
  keyOf : Row → Key
  prevRow : Row → Nat
  thisRow : Row → Nat

variable {Key Row : Type} [DecidableEq Key] (shape : Shape Key Row)

namespace Shape

/-- Position of the newest row of a key, zero when the key has none. -/
def newest : List Row → Key → Nat
  | [], _ => 0
  | row :: log, key => if shape.keyOf row = key then log.length + 1 else newest log key

/-- The newest row of a key. -/
def newestRow (log : List Row) (key : Key) : Option Row :=
  log.find? fun row => shape.keyOf row = key

/-- Every row stands where it says and links to the newest earlier row of its
key. -/
def Linked : List Row → Prop
  | [] => True
  | row :: log =>
      shape.thisRow row = log.length + 1 ∧
        shape.prevRow row = newest shape log (shape.keyOf row) ∧ Linked log

/-- The row at a position; position zero holds no row. -/
def rowAt : List Row → Nat → Option Row
  | [], _ => none
  | row :: log, position =>
      if position = log.length + 1 then some row else rowAt log position

end Shape

open Shape

variable {shape}

theorem newest_le_length (log : List Row) (key : Key) :
    shape.newest log key ≤ log.length := by
  induction log with
  | nil => simp [newest]
  | cons row log ih =>
      unfold newest
      split
      · simp
      · simp only [List.length_cons]
        omega

theorem newest_eq_zero_iff (log : List Row) (key : Key) :
    shape.newest log key = 0 ↔ shape.newestRow log key = none := by
  induction log with
  | nil => simp [newest, newestRow]
  | cons row log ih =>
      by_cases sameKey : shape.keyOf row = key
      · simp [newest, newestRow, sameKey]
      · simpa [newest, newestRow, sameKey] using ih

theorem newest_append (first second : List Row) (key : Key) :
    shape.newest (first ++ second) key =
      if shape.newestRow first key = none then shape.newest second key
      else second.length + shape.newest first key := by
  induction first with
  | nil => simp [newestRow]
  | cons row first ih =>
      by_cases sameKey : shape.keyOf row = key
      · simp [newest, newestRow, sameKey]
        omega
      · simpa [newest, newestRow, sameKey] using ih

theorem newestRow_append (first second : List Row) (key : Key) :
    shape.newestRow (first ++ second) key =
      (shape.newestRow first key).or (shape.newestRow second key) :=
  List.find?_append

theorem keyOf_of_newestRow {log : List Row} {key : Key} {row : Row}
    (found : shape.newestRow log key = some row) : shape.keyOf row = key := by
  simpa using List.find?_some found

theorem mem_of_newestRow {log : List Row} {key : Key} {row : Row}
    (found : shape.newestRow log key = some row) : row ∈ log :=
  List.mem_of_find?_eq_some found

theorem mem_of_rowAt {log : List Row} {position : Nat} {row : Row}
    (found : rowAt log position = some row) : row ∈ log := by
  induction log with
  | nil => cases found
  | cons head log ih =>
      unfold rowAt at found
      split at found
      · cases found
        exact List.mem_cons_self ..
      · exact List.mem_cons_of_mem _ (ih found)

theorem mem_of_rowAt_append {upper lower : List Row} {position : Nat} {row : Row}
    (above : lower.length < position) (found : rowAt (upper ++ lower) position = some row) :
    row ∈ upper := by
  induction upper with
  | nil =>
      have outside : ∀ log : List Row, log.length < position → rowAt log position = none := by
        intro log
        induction log with
        | nil => exact fun _ => rfl
        | cons head log ih =>
            intro longer
            rw [List.length_cons] at longer
            unfold rowAt
            rw [if_neg (by omega)]
            exact ih (by omega)
      rw [List.nil_append, outside lower above] at found
      cases found
  | cons head upper ih =>
      rw [List.cons_append] at found
      unfold rowAt at found
      split at found
      · cases found
        exact List.mem_cons_self ..
      · exact List.mem_cons_of_mem _ (ih found)

namespace Shape.Linked

theorem of_append {first second : List Row}
    (linked : shape.Linked (first ++ second)) : shape.Linked second := by
  induction first with
  | nil => exact linked
  | cons row first ih => exact ih linked.2.2

/-- The newest row of a key stands at the newest position of the key. -/
theorem thisRow_newestRow {log : List Row} (linked : shape.Linked log)
    {key : Key} {row : Row} (found : shape.newestRow log key = some row) :
    shape.thisRow row = shape.newest log key := by
  induction log with
  | nil => simp [newestRow] at found
  | cons head log ih =>
      by_cases sameKey : shape.keyOf head = key
      · have headEq : head = row := by simpa [newestRow, sameKey] using found
        subst headEq
        simpa [newest, sameKey] using linked.1
      · have tailFound : shape.newestRow log key = some row := by
          simpa [newestRow, sameKey] using found
        simpa [newest, sameKey] using ih linked.2.2 tailFound

theorem thisRow_le_length {log : List Row} (linked : shape.Linked log)
    {row : Row} (member : row ∈ log) : shape.thisRow row ≤ log.length := by
  induction log with
  | nil => simp at member
  | cons head log ih =>
      rcases List.mem_cons.1 member with rfl | inTail
      · simp [linked.1]
      · have := ih linked.2.2 inTail
        simp only [List.length_cons]
        omega

theorem thisRow_pos {log : List Row} (linked : shape.Linked log)
    {row : Row} (member : row ∈ log) : 0 < shape.thisRow row := by
  induction log with
  | nil => simp at member
  | cons head log ih =>
      rcases List.mem_cons.1 member with rfl | inTail
      · simp [linked.1]
      · exact ih linked.2.2 inTail

theorem prevRow_lt_newest {log : List Row} (linked : shape.Linked log)
    {row : Row} (member : row ∈ log) :
    shape.prevRow row < shape.newest log (shape.keyOf row) := by
  induction log with
  | nil => simp at member
  | cons head log ih =>
      obtain ⟨-, headPrev, tailLinked⟩ := linked
      have tailLe : shape.newest log (shape.keyOf row) ≤ log.length :=
        newest_le_length log (shape.keyOf row)
      rcases List.mem_cons.1 member with rfl | inTail
      · simp only [newest, if_true]
        omega
      · have tailLt := ih tailLinked inTail
        unfold newest
        split <;> omega

theorem prevRow_lt_thisRow {log : List Row} (linked : shape.Linked log)
    {row : Row} (member : row ∈ log) : shape.prevRow row < shape.thisRow row := by
  induction log with
  | nil => simp at member
  | cons head log ih =>
      obtain ⟨place, headPrev, tailLinked⟩ := linked
      rcases List.mem_cons.1 member with rfl | inTail
      · rw [place, headPrev]
        exact Nat.lt_succ_of_le (newest_le_length log _)
      · exact ih tailLinked inTail

theorem exists_prev {log : List Row} (linked : shape.Linked log) {row : Row}
    (member : row ∈ log) (notFirst : shape.prevRow row ≠ 0) :
    ∃ prev ∈ log, shape.thisRow prev = shape.prevRow row ∧ shape.keyOf prev = shape.keyOf row := by
  induction log with
  | nil => simp at member
  | cons head log ih =>
      obtain ⟨-, headPrev, tailLinked⟩ := linked
      rcases List.mem_cons.1 member with rfl | inTail
      · rw [headPrev, ne_eq, newest_eq_zero_iff] at notFirst
        obtain ⟨prev, found⟩ := Option.ne_none_iff_exists'.1 notFirst
        exact ⟨prev, List.mem_cons_of_mem _ (mem_of_newestRow found),
          (tailLinked.thisRow_newestRow found).trans headPrev.symm, keyOf_of_newestRow found⟩
      · obtain ⟨prev, prevMem, place, sameKey⟩ := ih tailLinked inTail
        exact ⟨prev, List.mem_cons_of_mem _ prevMem, place, sameKey⟩

/-- A row read at a position within the log is there and names the position. -/
theorem rowAt_thisRow {log : List Row} (linked : shape.Linked log)
    {row : Row} (member : row ∈ log) :
    rowAt log (shape.thisRow row) = some row := by
  induction log with
  | nil => simp at member
  | cons head log ih =>
      rcases List.mem_cons.1 member with rfl | inTail
      · simp [rowAt, linked.1]
      · have bound := thisRow_le_length linked.2.2 inTail
        have notHead : shape.thisRow row ≠ log.length + 1 := by omega
        simpa [rowAt, notHead] using ih linked.2.2 inTail

/-- The oldest row of a key in a segment links to the newest row of that key
below the segment. -/
theorem prevRow_oldest {segment base : List Row}
    (linked : shape.Linked (segment ++ base)) {key : Key} {row : Row}
    (oldest : shape.newestRow segment.reverse key = some row) :
    shape.prevRow row = shape.newest base key := by
  induction segment with
  | nil => simp [newestRow] at oldest
  | cons head segment ih =>
      rw [List.reverse_cons, newestRow_append] at oldest
      cases olderFound : shape.newestRow segment.reverse key with
      | some older =>
          rw [olderFound] at oldest
          exact ih linked.2.2 (by simpa [olderFound] using oldest)
      | none =>
          have headEq : shape.newestRow [head] key = some row := by
            simpa [olderFound] using oldest
          have sameKey := keyOf_of_newestRow headEq
          have rowEq : row = head := by
            simpa using mem_of_newestRow headEq
          subst rowEq
          have noneNewer : shape.newestRow segment key = none := by
            simpa [newestRow] using olderFound
          rw [linked.2.1, sameKey, List.append_eq, newest_append, if_pos noneNewer]

end Shape.Linked

section FollowPrev

/-- The rows reached from a position by following the links backward. -/
def linkedRows (shape : Shape Key Row) (log : List Row) : Nat → Nat → List Row
  | 0, _ => []
  | fuel + 1, position =>
      match rowAt log position with
      | none => []
      | some row => row :: linkedRows shape log fuel (shape.prevRow row)

theorem rowAt_eq_getElem? (log : List Row) (position : Nat) :
    rowAt log position = if position = 0 then none else log.reverse[position - 1]? := by
  induction log with
  | nil => simp [rowAt]
  | cons head log ih =>
      unfold rowAt
      by_cases isTop : position = log.length + 1
      · simp [isTop]
      · rw [if_neg isTop, ih]
        by_cases isZero : position = 0
        · simp [isZero]
        · rw [if_neg isZero, if_neg isZero, List.reverse_cons, List.getElem?_append]
          by_cases inside : position - 1 < log.reverse.length
          · rw [if_pos inside]
          · rw [List.length_reverse] at inside
            have outside : log.reverse[position - 1]? = none := by
              rw [List.getElem?_eq_none_iff, List.length_reverse]
              omega
            rw [if_neg (by simpa using inside), outside, eq_comm, List.getElem?_eq_none_iff,
              List.length_reverse, List.length_singleton]
            omega

theorem rowAt_append_of_le (upper : List Row) {lower : List Row} {position : Nat}
    (inside : position ≤ lower.length) : rowAt (upper ++ lower) position = rowAt lower position := by
  induction upper with
  | nil => rfl
  | cons head upper ih =>
      rw [List.cons_append]
      unfold rowAt
      rw [List.length_append, if_neg (by omega), ih]
      cases lower <;> rfl

/-- The links of older rows stay below the rows on top of them. -/
theorem linkedRows_append_of_le {upper lower : List Row} (linked : shape.Linked lower)
    (fuel : Nat) : ∀ position ≤ lower.length,
      linkedRows shape (upper ++ lower) fuel position = linkedRows shape lower fuel position := by
  induction fuel with
  | zero => exact fun _ _ => rfl
  | succ fuel ih =>
      intro position inside
      unfold linkedRows
      rw [rowAt_append_of_le upper inside]
      cases found : rowAt lower position with
      | none => rfl
      | some row =>
          have below := linked.prevRow_lt_newest (mem_of_rowAt found)
          have := @newest_le_length _ _ _ shape lower (shape.keyOf row)
          dsimp only
          rw [ih _ (by omega)]

/-- From the newest row of a key the links lead through all rows of the key,
newest first. -/
theorem linkedRows_newest {log : List Row} (linked : shape.Linked log) (key : Key)
    {fuel : Nat} (enough : log.length ≤ fuel) :
    linkedRows shape log fuel (shape.newest log key) =
      log.filter fun row => shape.keyOf row = key := by
  induction log generalizing fuel with
  | nil =>
      cases fuel <;> rfl
  | cons head log ih =>
      have tailEq : ∀ {fuel : Nat}, log.length ≤ fuel →
          linkedRows shape (head :: log) fuel (shape.newest log key) =
            log.filter fun row => shape.keyOf row = key := fun enough => by
        rw [← List.singleton_append,
          linkedRows_append_of_le linked.2.2 _ _ (newest_le_length log key)]
        exact ih linked.2.2 enough
      rw [List.length_cons] at enough
      by_cases sameKey : shape.keyOf head = key
      · obtain ⟨rest, rfl⟩ : ∃ rest, fuel = rest + 1 := ⟨fuel - 1, by omega⟩
        have atTop : rowAt (head :: log) (log.length + 1) = some head := if_pos rfl
        rw [newest, if_pos sameKey, linkedRows, atTop]
        dsimp only
        rw [linked.2.1, sameKey, tailEq (by omega), List.filter_cons_of_pos (by simpa)]
      · rw [newest, if_neg sameKey, tailEq (by omega), List.filter_cons_of_neg (by simpa)]

/-- From any row of a log the links lead through the rows of its key from that
row on. -/
theorem linkedRows_thisRow {upper lower : List Row} {row : Row}
    (linked : shape.Linked (upper ++ row :: lower)) {fuel : Nat}
    (enough : lower.length < fuel) :
    linkedRows shape (upper ++ row :: lower) fuel (shape.thisRow row) =
      (row :: lower).filter fun other => shape.keyOf other = shape.keyOf row := by
  have lowerLinked := linked.of_append
  have place : shape.thisRow row = shape.newest (row :: lower) (shape.keyOf row) := by
    rw [newest, if_pos rfl, lowerLinked.1]
  rw [place, linkedRows_append_of_le lowerLinked _ _ (newest_le_length _ _)]
  exact linkedRows_newest lowerLinked _ enough

end FollowPrev

section FollowNext

/-- Follow the links forward through rows stored oldest first: from a
position to the row of the key that links to it, until there is none. -/
def followNext (shape : Shape Key Row) (rows : List Row) (key : Key) :
    Nat → Nat → Option Row → Option Row
  | 0, _, current => current
  | fuel + 1, position, current =>
      match rows.find? fun row => shape.keyOf row = key ∧ shape.prevRow row = position with
      | some row => followNext shape rows key fuel (shape.thisRow row) (some row)
      | none => current

private theorem find?_linked {base before after : List Row} {key : Key}
    (linked : shape.Linked ((before ++ after).reverse ++ base)) :
    (before ++ after).find? (fun row => shape.keyOf row = key ∧
        shape.prevRow row = shape.newest (before.reverse ++ base) key) =
      shape.newestRow after key := by
  have beforeLinked : shape.Linked (before.reverse ++ base) := by
    rw [List.reverse_append, List.append_assoc] at linked
    exact linked.of_append
  have noneBefore : before.find? (fun row => shape.keyOf row = key ∧
      shape.prevRow row = shape.newest (before.reverse ++ base) key) = none := by
    rw [List.find?_eq_none]
    intro row member matched
    obtain ⟨rfl, prevEq⟩ : shape.keyOf row = key ∧ _ := by simpa using matched
    have below := beforeLinked.prevRow_lt_newest
      (show row ∈ before.reverse ++ base by simp [member])
    omega
  rw [List.find?_append, noneBefore, Option.none_or]
  cases found : shape.newestRow after key with
  | none =>
      rw [List.find?_eq_none]
      intro row member matched
      have := List.find?_eq_none.1 found row member
      simp_all
  | some row =>
      obtain ⟨_, left, right, rfl, noneLeft⟩ := List.find?_eq_some_iff_append.1 found
      have sameKey := keyOf_of_newestRow found
      have rowPrev : shape.prevRow row = shape.newest (before.reverse ++ base) key := by
        have oldest : shape.newestRow (left ++ row :: right).reverse.reverse key =
            some row := by simpa using found
        have segmentLinked : shape.Linked
            ((left ++ row :: right).reverse ++ (before.reverse ++ base)) := by
          simpa [List.reverse_append] using linked
        exact segmentLinked.prevRow_oldest oldest
      have noneInLeft : left.find? (fun row => shape.keyOf row = key ∧
          shape.prevRow row = shape.newest (before.reverse ++ base) key) = none := by
        rw [List.find?_eq_none]
        intro other member matched
        have := noneLeft other member
        simp_all
      rw [List.find?_append, noneInLeft]
      simp [sameKey, rowPrev]

private theorem followNext_split {base : List Row} {key : Key} (fuel : Nat) :
    ∀ (before after : List Row) (current : Option Row),
      shape.Linked ((before ++ after).reverse ++ base) →
      after.length ≤ fuel →
      followNext shape (before ++ after) key fuel
          (shape.newest (before.reverse ++ base) key) current =
        (shape.newestRow after.reverse key).or current := by
  induction fuel with
  | zero =>
      intro before after current _ enough
      have : after = [] := by simpa using enough
      simp [followNext, this, newestRow]
  | succ fuel ih =>
      intro before after current linked enough
      unfold followNext
      rw [find?_linked linked]
      cases found : shape.newestRow after key with
      | none =>
          have : shape.newestRow after.reverse key = none := by
            simpa [newestRow] using found
          simp [this]
      | some row =>
          obtain ⟨_, left, right, rfl, noneLeft⟩ := List.find?_eq_some_iff_append.1 found
          have sameKey := keyOf_of_newestRow found
          have regroup : before ++ (left ++ row :: right) =
              (before ++ left ++ [row]) ++ right := by simp
          have linkedRow : shape.Linked (row :: ((before ++ left).reverse ++ base)) := by
            have : (before ++ (left ++ row :: right)).reverse ++ base =
                right.reverse ++ (row :: ((before ++ left).reverse ++ base)) := by simp
            rw [this] at linked
            exact linked.of_append
          have position : shape.thisRow row =
              shape.newest ((before ++ left ++ [row]).reverse ++ base) key := by
            have : (before ++ left ++ [row]).reverse ++ base =
                row :: ((before ++ left).reverse ++ base) := by simp
            rw [this, newest, if_pos sameKey, linkedRow.1]
          have shorter : right.length ≤ fuel := by
            simp only [List.length_append, List.length_cons] at enough
            omega
          simp only []
          rw [regroup, position, ih _ right (some row) (by rwa [← regroup]) shorter]
          have : (left ++ row :: right).reverse = right.reverse ++ [row] ++ left.reverse := by
            simp
          rw [this, newestRow_append, newestRow_append]
          cases shape.newestRow right.reverse key <;> simp [newestRow, sameKey]

/-- Following the links forward from the newest row of the base ends at the
newest row of all. -/
theorem followNext_newest {base rows : List Row} (key : Key) {fuel : Nat}
    (linked : shape.Linked (rows.reverse ++ base)) (enough : rows.length ≤ fuel)
    (current : Option Row) :
    followNext shape rows key fuel (shape.newest base key) current =
      (shape.newestRow rows.reverse key).or current := by
  simpa using followNext_split fuel [] rows current
    (by simpa using linked) enough

end FollowNext

end LinkedRowLog
