import Mathlib.Data.List.Basic

/-!
# Row buffers with an optional key index

`mc_Buffer` keeps fixed-size rows whose leading bytes are a key.  In map mode
it also keeps an index from keys to row numbers.  The index is filled by
`std::map::insert`, so the first row stored under a key stays the one that a
seek finds.  Rows behind the live count are still in memory and come back
when the count is raised again.

The abstraction of a buffer is its list of live rows.  A coherent buffer
answers every seek as a search from the first live row does.
-/

namespace HdacNode

/-- `MC_DCT_BUF_ALLOC_ITEMS`. -/
def bufAllocItems : Nat := 256

/-- The rows of an `mc_Buffer`: everything that was ever stored, the number of
live rows and, in map mode, the key index. -/
structure RowBuffer (Key Row : Type) where
  data : Nat → Row
  count : Nat
  index : Option (Key → Option Nat)

namespace RowBuffer

variable {Key Row : Type}

/-- `mc_Buffer::Initialize`, with `MC_BUF_MODE_MAP` when `mapMode` is set. -/
def initializeBuffer (zero : Row) (mapMode : Bool) : RowBuffer Key Row where
  data := fun _ => zero
  count := 0
  index := if mapMode then some fun _ => none else none

/-- `mc_Buffer::GetRow`. -/
def getRow (buffer : RowBuffer Key Row) (rowID : Nat) : Row :=
  buffer.data rowID

/-- The live rows, first stored first. -/
def rows (buffer : RowBuffer Key Row) : List Row :=
  (List.range buffer.count).map buffer.data

/-- `mc_Buffer::Clear`. -/
def clear (buffer : RowBuffer Key Row) : RowBuffer Key Row :=
  { buffer with
    count := 0
    index := buffer.index.map fun _ _ => none }

/-- `mc_MapStringIndex::Add`: an existing entry is not replaced. -/
def indexAdd [DecidableEq Key] (index : Key → Option Nat) (key : Key)
    (rowID : Nat) : Key → Option Nat :=
  fun other =>
    if other = key then
      match index key with
      | some old => some old
      | none => some rowID
    else index other

section Operations

variable [DecidableEq Key] (keyOf : Row → Key)

/-- `mc_Buffer::Add`. -/
def add (buffer : RowBuffer Key Row) (row : Row) : RowBuffer Key Row where
  data := Function.update buffer.data buffer.count row
  count := buffer.count + 1
  index := buffer.index.map fun index => indexAdd index (keyOf row) buffer.count

/-- `mc_Buffer::PutRow`, which refuses a row number behind the live rows. -/
def putRow (buffer : RowBuffer Key Row) (rowID : Nat) (row : Row) :
    RowBuffer Key Row :=
  if buffer.count ≤ rowID then buffer
  else
    { buffer with
      data := Function.update buffer.data rowID row
      index := buffer.index.map fun index => indexAdd index (keyOf row) rowID }

/-- `mc_Buffer::Seek`: through the index in map mode, by a scan otherwise. -/
def seek (buffer : RowBuffer Key Row) (key : Key) : Option Nat :=
  match buffer.index with
  | some index =>
      match index key with
      | some rowID => if keyOf (buffer.getRow rowID) = key then some rowID else none
      | none => none
  | none => buffer.rows.findIdx? fun row => keyOf row = key

/-- `mc_Buffer::SetCount`.  A smaller count in map mode stores the kept rows
again, one by one, so that the index is rebuilt. -/
def setCount (buffer : RowBuffer Key Row) (count : Nat) : RowBuffer Key Row :=
  if count < buffer.count then
    match buffer.index with
    | some _ =>
        (List.range count).foldl
          (fun kept rowID => add keyOf kept (kept.getRow rowID)) buffer.clear
    | none => { buffer with count := count }
  else { buffer with count := count }

/-- The row that a seek finds. -/
def lookup (buffer : RowBuffer Key Row) (key : Key) : Option Row :=
  (seek keyOf buffer key).map buffer.getRow

/-- Write into a row in place, past the index. -/
def overwrite (buffer : RowBuffer Key Row) (rowID : Nat) (row : Row) : RowBuffer Key Row :=
  { buffer with data := Function.update buffer.data rowID row }

/-- A seek in a coherent buffer finds the first live row with the key. -/
def Coherent (buffer : RowBuffer Key Row) : Prop :=
  ∀ index, buffer.index = some index →
    ∀ key, index key = buffer.rows.findIdx? fun row => keyOf row = key

end Operations

@[simp]
theorem rows_length (buffer : RowBuffer Key Row) :
    buffer.rows.length = buffer.count := by
  simp [rows]

theorem getRow_eq_rows_getElem (buffer : RowBuffer Key Row) {rowID : Nat}
    (live : rowID < buffer.rows.length) :
    buffer.getRow rowID = buffer.rows[rowID] := by
  simp [rows, getRow]

theorem rows_getElem? (buffer : RowBuffer Key Row) {rowID : Nat}
    (live : rowID < buffer.count) :
    buffer.rows[rowID]? = some (buffer.getRow rowID) := by
  simp [rows, getRow, live]

@[simp]
theorem rows_clear (buffer : RowBuffer Key Row) : buffer.clear.rows = [] := by
  simp [rows, clear]

@[simp]
theorem count_clear (buffer : RowBuffer Key Row) : buffer.clear.count = 0 :=
  rfl

@[simp]
theorem rows_initializeBuffer (zero : Row) (mapMode : Bool) :
    (initializeBuffer zero mapMode : RowBuffer Key Row).rows = [] := by
  simp [rows, initializeBuffer]

variable [DecidableEq Key] {keyOf : Row → Key}

@[simp]
theorem count_add (buffer : RowBuffer Key Row) (row : Row) :
    (buffer.add keyOf row).count = buffer.count + 1 :=
  rfl

theorem data_add (buffer : RowBuffer Key Row) (row : Row) :
    (buffer.add keyOf row).data = Function.update buffer.data buffer.count row :=
  rfl

@[simp]
theorem rows_add (buffer : RowBuffer Key Row) (row : Row) :
    (buffer.add keyOf row).rows = buffer.rows ++ [row] := by
  have old : ∀ rowID ∈ List.range buffer.count,
      Function.update buffer.data buffer.count row rowID = buffer.data rowID := by
    intro rowID live
    exact Function.update_of_ne (Nat.ne_of_lt (List.mem_range.1 live)) _ _
  simp [rows, add, List.range_succ, List.map_congr_left old]

theorem coherent_initializeBuffer (zero : Row) (mapMode : Bool) :
    Coherent keyOf (initializeBuffer zero mapMode) := by
  intro index indexEq key
  cases mapMode with
  | false => simp [initializeBuffer] at indexEq
  | true =>
      have : index = fun _ => none := by simpa [initializeBuffer] using indexEq.symm
      simp [this]

theorem coherent_clear (buffer : RowBuffer Key Row) :
    Coherent keyOf buffer.clear := by
  intro index indexEq key
  obtain ⟨old, -, rfl⟩ := Option.map_eq_some_iff.1 indexEq
  simp

theorem coherent_add {buffer : RowBuffer Key Row} (row : Row)
    (coherent : Coherent keyOf buffer) :
    Coherent keyOf (buffer.add keyOf row) := by
  intro index indexEq key
  obtain ⟨old, oldEq, rfl⟩ := Option.map_eq_some_iff.1 indexEq
  have oldSearch := coherent old oldEq
  rw [rows_add, List.findIdx?_append, ← oldSearch key]
  by_cases sameKey : key = keyOf row
  · subst sameKey
    cases found : old (keyOf row) <;> simp [indexAdd, found]
  · have otherKey : ¬ keyOf row = key := fun h => sameKey h.symm
    simp [indexAdd, sameKey, otherKey]

theorem seek_of_coherent {buffer : RowBuffer Key Row}
    (coherent : Coherent keyOf buffer) (key : Key) :
    buffer.seek keyOf key = buffer.rows.findIdx? fun row => keyOf row = key := by
  unfold seek
  split
  · rename_i index indexEq
    rw [coherent index indexEq key]
    cases found : buffer.rows.findIdx? fun row => keyOf row = key with
    | none => rfl
    | some rowID =>
        obtain ⟨live, matched, -⟩ := List.findIdx?_eq_some_iff_getElem.1 found
        rw [← getRow_eq_rows_getElem buffer live] at matched
        simpa using matched
  · rfl

theorem lookup_of_coherent {buffer : RowBuffer Key Row}
    (coherent : Coherent keyOf buffer) (key : Key) :
    buffer.lookup keyOf key = buffer.rows.find? fun row => keyOf row = key := by
  rw [lookup, seek_of_coherent coherent]
  cases found : buffer.rows.findIdx? fun row => keyOf row = key with
  | none =>
      symm
      simpa [List.findIdx?_eq_none_iff] using found
  | some rowID =>
      obtain ⟨live, matched, earlier⟩ := List.findIdx?_eq_some_iff_getElem.1 found
      symm
      rw [Option.map_some, getRow_eq_rows_getElem buffer live,
        List.find?_eq_some_iff_getElem]
      exact ⟨matched, rowID, live, rfl, fun other before => by
        simpa using earlier other before⟩

/-- A row added under a new key is found, and nothing else changes. -/
theorem lookup_add {buffer : RowBuffer Key Row} {row : Row}
    (coherent : Coherent keyOf buffer)
    (absent : buffer.lookup keyOf (keyOf row) = none) (key : Key) :
    (buffer.add keyOf row).lookup keyOf key =
      if keyOf row = key then some row else buffer.lookup keyOf key := by
  rw [lookup_of_coherent (coherent_add row coherent), rows_add, List.find?_append,
    ← lookup_of_coherent coherent]
  split
  · rename_i sameKey
    subst sameKey
    simp [absent]
  · rename_i otherKey
    simp [otherKey]

theorem keyOf_getRow_of_seek {buffer : RowBuffer Key Row} {key : Key} {rowID : Nat}
    (found : buffer.seek keyOf key = some rowID)
    (coherent : Coherent keyOf buffer) :
    rowID < buffer.count ∧ keyOf (buffer.getRow rowID) = key := by
  rw [seek_of_coherent coherent] at found
  obtain ⟨live, matched, -⟩ := List.findIdx?_eq_some_iff_getElem.1 found
  refine ⟨by simpa using live, ?_⟩
  rw [getRow_eq_rows_getElem buffer live]
  simpa using matched

/-- In a coherent buffer whose keys are all different every live row is found. -/
theorem seek_of_nodup {buffer : RowBuffer Key Row} (coherent : Coherent keyOf buffer)
    (nodup : (buffer.rows.map keyOf).Nodup) {rowID : Nat} {row : Row}
    (live : buffer.rows[rowID]? = some row) : buffer.seek keyOf (keyOf row) = some rowID := by
  rw [seek_of_coherent coherent]
  cases found : buffer.rows.findIdx? fun other => keyOf other = keyOf row with
  | none =>
      have unmatched := List.findIdx?_eq_none_iff.1 found row (List.mem_of_getElem? live)
      simp at unmatched
  | some other =>
      obtain ⟨inside, matched, -⟩ := List.findIdx?_eq_some_iff_getElem.1 found
      have sameKey : (buffer.rows.map keyOf)[other]? = (buffer.rows.map keyOf)[rowID]? := by
        rw [List.getElem?_map, List.getElem?_map, live, List.getElem?_eq_getElem inside]
        exact congrArg some (of_decide_eq_true matched)
      have otherInside : other < (buffer.rows.map keyOf).length := by
        rw [List.length_map]
        exact inside
      rw [(List.getElem?_inj otherInside nodup).1 sameKey]

theorem seek_eq_none {buffer : RowBuffer Key Row} (coherent : Coherent keyOf buffer) {key : Key}
    (absent : ∀ row ∈ buffer.rows, keyOf row ≠ key) : buffer.seek keyOf key = none := by
  rw [seek_of_coherent coherent, List.findIdx?_eq_none_iff]
  intro row member
  simpa using absent row member

theorem lookup_eq_none_iff {buffer : RowBuffer Key Row} (coherent : Coherent keyOf buffer)
    {key : Key} : buffer.lookup keyOf key = none ↔ key ∉ buffer.rows.map keyOf := by
  rw [lookup_of_coherent coherent, List.find?_eq_none]
  simp

theorem seek_congr {first second : RowBuffer Key Row} (firstCoherent : Coherent keyOf first)
    (secondCoherent : Coherent keyOf second) (sameRows : first.rows = second.rows) (key : Key) :
    first.seek keyOf key = second.seek keyOf key := by
  rw [seek_of_coherent firstCoherent, seek_of_coherent secondCoherent, sameRows]

omit [DecidableEq Key] in
theorem count_congr {first second : RowBuffer Key Row} (sameRows : first.rows = second.rows) :
    first.count = second.count := by
  rw [← rows_length first, ← rows_length second, sameRows]

omit [DecidableEq Key] in
theorem getRow_congr {first second : RowBuffer Key Row} (sameRows : first.rows = second.rows)
    {rowID : Nat} (live : rowID < first.count) :
    first.getRow rowID = second.getRow rowID := by
  have firstRow := rows_getElem? first live
  have secondLive : rowID < second.count := by
    rw [← count_congr sameRows]
    exact live
  have secondRow := rows_getElem? second secondLive
  rw [sameRows, secondRow] at firstRow
  exact (Option.some.inj firstRow).symm

theorem rows_putRow {buffer : RowBuffer Key Row} {rowID : Nat} {row : Row}
    (live : rowID < buffer.count) :
    (buffer.putRow keyOf rowID row).rows = buffer.rows.set rowID row := by
  have notBehind : ¬ buffer.count ≤ rowID := by omega
  simp only [putRow, notBehind, if_false]
  apply List.ext_getElem
  · simp [rows]
  · intro other _ _
    by_cases same : rowID = other
    · subst same
      simp [rows]
    · have different : other ≠ rowID := fun h => same h.symm
      simp [rows, same, different]

private theorem findIdx?_keys (stored : List Row) (key : Key) :
    stored.findIdx? (fun row => keyOf row = key) =
      (stored.map keyOf).findIdx? fun other => other = key := by
  rw [List.findIdx?_map]
  rfl

private theorem keys_putRow {buffer : RowBuffer Key Row} {rowID : Nat} {row : Row}
    (live : rowID < buffer.count) (sameKey : keyOf (buffer.getRow rowID) = keyOf row) :
    (buffer.putRow keyOf rowID row).rows.map keyOf = buffer.rows.map keyOf := by
  have inside : rowID < buffer.rows.length := by simpa using live
  rw [rows_putRow live, List.map_set, ← sameKey, getRow_eq_rows_getElem buffer inside,
    ← List.getElem_map keyOf (h := by simpa using inside), List.set_getElem_self]

/-- Replacing the row found under its own key keeps the index coherent. -/
theorem coherent_putRow {buffer : RowBuffer Key Row} {rowID : Nat} {row : Row}
    (coherent : Coherent keyOf buffer)
    (found : buffer.seek keyOf (keyOf row) = some rowID) :
    Coherent keyOf (buffer.putRow keyOf rowID row) := by
  obtain ⟨live, sameKey⟩ := keyOf_getRow_of_seek found coherent
  have notBehind : ¬ buffer.count ≤ rowID := by omega
  intro index indexEq key
  rw [findIdx?_keys, keys_putRow live sameKey, ← findIdx?_keys]
  simp only [putRow, notBehind, if_false] at indexEq
  obtain ⟨old, oldEq, rfl⟩ := Option.map_eq_some_iff.1 indexEq
  rw [← coherent old oldEq key]
  have oldFound : old (keyOf row) = some rowID := by
    rw [coherent old oldEq, ← seek_of_coherent coherent, found]
  unfold indexAdd
  split
  · rename_i same
    rw [same, oldFound]
  · rfl

/-- Replacing the row found under its own key changes the value of that key
only. -/
theorem lookup_putRow {buffer : RowBuffer Key Row} {rowID : Nat} {row : Row}
    (coherent : Coherent keyOf buffer)
    (found : buffer.seek keyOf (keyOf row) = some rowID) (key : Key) :
    (buffer.putRow keyOf rowID row).lookup keyOf key =
      if keyOf row = key then some row else buffer.lookup keyOf key := by
  obtain ⟨live, sameKey⟩ := keyOf_getRow_of_seek found coherent
  have seekEq : (buffer.putRow keyOf rowID row).seek keyOf key = buffer.seek keyOf key := by
    rw [seek_of_coherent (coherent_putRow coherent found), seek_of_coherent coherent,
      findIdx?_keys, keys_putRow live sameKey, ← findIdx?_keys]
  have notBehind : ¬ buffer.count ≤ rowID := by omega
  have getRowEq : ∀ other, (buffer.putRow keyOf rowID row).getRow other =
      if other = rowID then row else buffer.getRow other := by
    intro other
    simp [putRow, notBehind, getRow, Function.update_apply]
  rw [lookup, seekEq, lookup]
  split
  · rename_i same
    rw [← same, found]
    simp [getRowEq]
  · rename_i different
    cases otherFound : buffer.seek keyOf key with
    | none => rfl
    | some other =>
        have otherKey := (keyOf_getRow_of_seek otherFound coherent).2
        have otherNe : other ≠ rowID := by
          rintro rfl
          exact different (sameKey.symm.trans otherKey)
        simp [getRowEq, otherNe]

/-- Where all keys are different, the live rows are those that are found under their keys. -/
theorem mem_rows_iff {buffer : RowBuffer Key Row} (coherent : Coherent keyOf buffer)
    (nodup : (buffer.rows.map keyOf).Nodup) {row : Row} :
    row ∈ buffer.rows ↔ buffer.lookup keyOf (keyOf row) = some row := by
  constructor
  · intro member
    obtain ⟨rowID, live⟩ := List.getElem?_of_mem member
    obtain ⟨inside, rowEq⟩ := List.getElem?_eq_some_iff.1 live
    rw [lookup, seek_of_nodup coherent nodup live, Option.map_some,
      getRow_eq_rows_getElem buffer inside, rowEq]
  · intro found
    rw [lookup_of_coherent coherent] at found
    exact List.mem_of_find?_eq_some found

theorem keys_putRow_of_seek {buffer : RowBuffer Key Row} {rowID : Nat} {row : Row}
    (coherent : Coherent keyOf buffer)
    (found : buffer.seek keyOf (keyOf row) = some rowID) :
    (buffer.putRow keyOf rowID row).rows.map keyOf = buffer.rows.map keyOf := by
  obtain ⟨live, sameKey⟩ := keyOf_getRow_of_seek found coherent
  exact keys_putRow live sameKey

/-- Writing in place into a row that a seek found is `PutRow`. -/
theorem overwrite_eq_putRow {buffer : RowBuffer Key Row} {rowID : Nat} {row : Row}
    (coherent : Coherent keyOf buffer)
    (found : buffer.seek keyOf (keyOf row) = some rowID) :
    buffer.overwrite rowID row = buffer.putRow keyOf rowID row := by
  obtain ⟨live, -⟩ := keyOf_getRow_of_seek found coherent
  have inside : ¬ buffer.count ≤ rowID := by omega
  have sameIndex : buffer.index.map (fun index => indexAdd index (keyOf row) rowID) =
      buffer.index := by
    cases indexEq : buffer.index with
    | none => rfl
    | some index =>
        have stored : index (keyOf row) = some rowID := by
          rw [coherent index indexEq, ← seek_of_coherent coherent]
          exact found
        have sameEntries : indexAdd index (keyOf row) rowID = index := by
          funext other
          by_cases same : other = keyOf row
          · simp [indexAdd, same, stored]
          · simp [indexAdd, same]
        rw [Option.map_some, sameEntries]
  simp [putRow, overwrite, inside, sameIndex]

theorem lookup_overwrite {buffer : RowBuffer Key Row} {rowID : Nat} {row : Row} {key : Key}
    (coherent : Coherent keyOf buffer) (found : buffer.seek keyOf key = some rowID)
    (sameKey : keyOf row = key) (other : Key) :
    (buffer.overwrite rowID row).lookup keyOf other =
      if key = other then some row else buffer.lookup keyOf other := by
  subst sameKey
  rw [overwrite_eq_putRow coherent found]
  exact lookup_putRow coherent found other

omit [DecidableEq Key] in
theorem count_overwrite (buffer : RowBuffer Key Row) (rowID : Nat) (row : Row) :
    (buffer.overwrite rowID row).count = buffer.count :=
  rfl

omit [DecidableEq Key] in
theorem getRow_overwrite (buffer : RowBuffer Key Row) (rowID other : Nat) (row : Row) :
    (buffer.overwrite rowID row).getRow other =
      if other = rowID then row else buffer.getRow other := by
  simp [overwrite, getRow, Function.update_apply]

omit [DecidableEq Key] in
/-- Writing in place under the same key changes no key. -/
theorem keys_overwrite {buffer : RowBuffer Key Row} {rowID : Nat} {row : Row}
    (sameKey : keyOf row = keyOf (buffer.getRow rowID)) :
    (buffer.overwrite rowID row).rows.map keyOf = buffer.rows.map keyOf := by
  rw [rows, rows, count_overwrite, List.map_map, List.map_map]
  apply List.map_congr_left
  intro other _
  have written := getRow_overwrite buffer rowID other row
  simp only [getRow] at written sameKey
  rw [Function.comp_apply, Function.comp_apply, written]
  split
  · rename_i same
    rw [same, sameKey]
  · rfl

theorem coherent_overwrite {buffer : RowBuffer Key Row} {rowID : Nat} {row : Row}
    (coherent : Coherent keyOf buffer) (sameKey : keyOf row = keyOf (buffer.getRow rowID)) :
    Coherent keyOf (buffer.overwrite rowID row) := by
  intro index indexEq key
  rw [findIdx?_keys, keys_overwrite sameKey, ← findIdx?_keys]
  exact coherent index indexEq key

theorem getRow_add_of_lt {buffer : RowBuffer Key Row} {rowID : Nat} (live : rowID < buffer.count)
    (row : Row) : (buffer.add keyOf row).getRow rowID = buffer.getRow rowID := by
  rw [getRow, data_add, Function.update_of_ne (Nat.ne_of_lt live), getRow]

private theorem foldl_add_take (buffer : RowBuffer Key Row)
    (coherent : Coherent keyOf buffer.clear) (count : Nat) :
    let kept := (List.range count).foldl
      (fun kept rowID => add keyOf kept (kept.getRow rowID)) buffer.clear
    kept.data = buffer.data ∧ kept.count = count ∧ Coherent keyOf kept := by
  induction count with
  | zero => exact ⟨rfl, rfl, coherent⟩
  | succ count ih =>
      obtain ⟨dataEq, countEq, keptCoherent⟩ := ih
      simp only [List.range_succ, List.foldl_append, List.foldl_cons, List.foldl_nil]
      refine ⟨?_, by simp [countEq], coherent_add _ keptCoherent⟩
      rw [data_add, getRow, countEq, Function.update_eq_self, dataEq]

theorem rows_setCount {buffer : RowBuffer Key Row} {count : Nat}
    (kept : count ≤ buffer.count) :
    (buffer.setCount keyOf count).rows = buffer.rows.take count := by
  have rowsEq : ∀ other : RowBuffer Key Row, other.data = buffer.data →
      other.count = count → other.rows = buffer.rows.take count := by
    intro other dataEq countEq
    simp [rows, dataEq, countEq, ← List.map_take, List.take_range, kept]
  unfold setCount
  split
  · split
    · obtain ⟨dataEq, countEq, -⟩ :=
        foldl_add_take buffer (coherent_clear buffer) count
      exact rowsEq _ dataEq countEq
    · exact rowsEq _ rfl rfl
  · exact rowsEq _ rfl rfl

theorem getRow_setCount {buffer : RowBuffer Key Row} {count rowID : Nat}
    (live : rowID < count) (kept : count ≤ buffer.count) :
    (buffer.setCount keyOf count).getRow rowID = buffer.getRow rowID := by
  have stored := rows_getElem? buffer (Nat.lt_of_lt_of_le live kept)
  have keptLive : rowID < (buffer.setCount keyOf count).rows.length := by
    simp [rows_setCount kept]
    omega
  rw [getRow_eq_rows_getElem _ keptLive]
  apply Option.some.inj
  rw [← List.getElem?_eq_getElem keptLive, rows_setCount kept, List.getElem?_take, if_pos live,
    stored]

theorem coherent_setCount {buffer : RowBuffer Key Row} {count : Nat}
    (coherent : Coherent keyOf buffer) (kept : count ≤ buffer.count) :
    Coherent keyOf (buffer.setCount keyOf count) := by
  unfold setCount
  split
  · split
    · exact (foldl_add_take buffer (coherent_clear buffer) count).2.2
    · rename_i noIndex
      intro index indexEq
      simp [noIndex] at indexEq
  · have sameCount : count = buffer.count := by omega
    simpa [sameCount] using coherent

theorem count_setCount (buffer : RowBuffer Key Row) (count : Nat) :
    (buffer.setCount keyOf count).count = count := by
  unfold setCount
  split
  · split
    · exact (foldl_add_take buffer (coherent_clear buffer) count).2.1
    · rfl
  · rfl

end RowBuffer

end HdacNode
