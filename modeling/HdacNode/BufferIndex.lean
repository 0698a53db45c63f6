import HdacNode.BufferMemory

/-!
# The index of a row buffer

Every change of a buffer in map mode keeps its index true to its live rows: an added row does not
displace an earlier one of its key, a row that keeps its key changes no key, and a smaller count
builds the index again from the rows that lie at the front of the block then.
-/

namespace HdacNode

/-- Only the keys of the live rows and the index matter for coherence. -/
theorem RowBuffer.Coherent.congr {Key Row : Type} [DecidableEq Key] {keyOf : Row → Key}
    {first second : RowBuffer Key Row} (coherent : Coherent keyOf first)
    (sameIndex : second.index = first.index)
    (sameKeys : second.rows.map keyOf = first.rows.map keyOf) : Coherent keyOf second := by
  have byKeys : ∀ (stored : List Row) (key : Key),
      stored.findIdx? (fun row => keyOf row = key) =
        (stored.map keyOf).findIdx? fun other => other = key := by
    intro stored key
    rw [List.findIdx?_map]
    rfl
  intro index indexEq key
  rw [byKeys, sameKeys, ← byKeys]
  exact coherent index (sameIndex ▸ indexEq) key

theorem writeBlock_readBlock (memory : Nat → UInt8) (address size : Nat) :
    writeBlock memory address (readBlock memory address size) = memory := by
  funext other
  unfold writeBlock
  split
  · rename_i inside
    exact congrArg memory (Nat.add_sub_of_le inside.1)
  · rfl

namespace McBuffer

variable {keySize valueSize : Nat} {buffer : McBuffer keySize valueSize}

/-- The index answers as a search from the first live row. -/
def Indexed (buffer : McBuffer keySize valueSize) : Prop :=
  RowBuffer.Coherent keyOf buffer.table

theorem Indexed.congr {changed : McBuffer keySize valueSize} (indexed : buffer.Indexed)
    (sameIndex : changed.lpIndex = buffer.lpIndex)
    (sameKeys : changed.rows.map keyOf = buffer.rows.map keyOf) : changed.Indexed :=
  RowBuffer.Coherent.congr indexed sameIndex sameKeys

theorem indexed_initializeBuffer (mapMode : Bool) :
    (initializeBuffer mapMode : McBuffer keySize valueSize).Indexed :=
  (RowBuffer.coherent_initializeBuffer (fun _ => 0) mapMode).congr rfl rfl

theorem indexed_clear (buffer : McBuffer keySize valueSize) : buffer.clear.Indexed :=
  (RowBuffer.coherent_clear buffer.table).congr rfl rfl

theorem Indexed.add (indexed : buffer.Indexed) (lpKey : ByteBlock keySize)
    (lpValue : ByteBlock valueSize) : (buffer.add lpKey lpValue).Indexed := by
  have added := RowBuffer.coherent_add (Fin.append lpKey lpValue) indexed
  refine added.congr ?_ ?_
  · change (buffer.add lpKey lpValue).lpIndex = buffer.lpIndex.map fun index =>
      RowBuffer.indexAdd index (keyOf (Fin.append lpKey lpValue)) buffer.count
    rw [lpIndex_add, keyOf_append]
  · rw [rows_table, RowBuffer.rows_add, rows_add, rows_table]

section SetCount

theorem lpData_addAgain (buffer : McBuffer keySize valueSize)
    (room : buffer.size + (keySize + valueSize) ≤ buffer.allocSize) :
    (buffer.addAgain buffer.count).lpData = buffer.lpData ∧
      (buffer.addAgain buffer.count).allocSize = buffer.allocSize := by
  have enough : ¬ buffer.allocSize < buffer.size + (keySize + valueSize) * 1 := by omega
  have same : buffer.realloc 1 = buffer := if_neg enough
  have start : (keySize + valueSize) * buffer.count = buffer.size := by
    rw [buffer.size_eq, Nat.mul_comm]
  have written : (buffer.addAgain buffer.count).lpData =
      writeBlock
        (writeBlock (buffer.realloc 1).lpData (buffer.realloc 1).size
          (readBlock buffer.lpData ((keySize + valueSize) * buffer.count) keySize))
        ((buffer.realloc 1).size + keySize)
        (readBlock buffer.lpData ((keySize + valueSize) * buffer.count + keySize) valueSize) := rfl
  constructor
  · rw [written, same, start, writeBlock_readBlock, writeBlock_readBlock]
  · change (buffer.realloc 1).allocSize = buffer.allocSize
    rw [same]

/-- The rows at the front are added again, and the index is built from them. -/
theorem foldl_addAgain (buffer : McBuffer keySize valueSize) {count : Nat}
    (kept : count ≤ buffer.count) :
    let rebuilt := (List.range count).foldl addAgain buffer.clear
    rebuilt.lpData = buffer.lpData ∧ rebuilt.allocSize = buffer.allocSize ∧
      rebuilt.count = count ∧ rebuilt.Indexed := by
  induction count with
  | zero => exact ⟨rfl, rfl, rfl, buffer.indexed_clear⟩
  | succ count ih =>
    obtain ⟨sameData, sameAlloc, counted, indexed⟩ := ih (by omega)
    simp only [List.range_succ, List.foldl_append, List.foldl_cons, List.foldl_nil]
    generalize (List.range count).foldl addAgain buffer.clear = rebuilt at *
    have room : rebuilt.size + (keySize + valueSize) ≤ rebuilt.allocSize := by
      have inside := le_trans (buffer.rowEnd_le_size kept) buffer.size_le
      rw [rebuilt.size_eq, counted, sameAlloc, Nat.mul_comm]
      exact inside
    obtain ⟨keptData, keptAlloc⟩ := rebuilt.lpData_addAgain room
    rw [counted] at keptData keptAlloc
    refine ⟨keptData.trans sameData, keptAlloc.trans sameAlloc, ?_, indexed.add _ _⟩
    rw [addAgain, addFrom, count_add, counted]

theorem allocSize_setCount {count : Nat} (kept : count ≤ buffer.count) :
    (buffer.setCount count).allocSize = buffer.allocSize := by
  unfold setCount
  split
  · split
    · obtain ⟨-, sameAlloc, counted, -⟩ := buffer.foldl_addAgain kept
      rw [allocSize_withCount _ counted.ge, sameAlloc]
    · exact buffer.allocSize_withCount kept
  · exact buffer.allocSize_withCount kept

theorem rows_setCount {count : Nat} (kept : count ≤ buffer.count) :
    (buffer.setCount count).rows = buffer.rows.take count := by
  unfold setCount
  split
  · split
    · obtain ⟨sameData, -, counted, -⟩ := buffer.foldl_addAgain kept
      rw [rows_withCount _ counted.ge, rows, rows, counted, ← List.map_take, ← List.map_take,
        List.take_range, List.take_range, Nat.min_self, Nat.min_eq_left kept]
      unfold getRow
      rw [sameData]
    · exact buffer.rows_withCount kept
  · exact buffer.rows_withCount kept

/-- A smaller count builds the index from the rows, whatever it was before. -/
theorem indexed_setCount {count : Nat} (fewer : count < buffer.count) :
    (buffer.setCount count).Indexed := by
  unfold setCount
  rw [if_pos fewer]
  split
  · obtain ⟨-, -, counted, rebuilt⟩ := buffer.foldl_addAgain fewer.le
    refine rebuilt.congr (lpIndex_withCount _ _) ?_
    rw [rows_withCount _ counted.ge, List.take_of_length_le]
    simp [rows, counted]
  · rename_i noIndex
    intro index indexEq
    change (buffer.withCount count).lpIndex = some index at indexEq
    rw [lpIndex_withCount, noIndex] at indexEq
    cases indexEq

theorem Indexed.setCount {count : Nat} (indexed : buffer.Indexed) (kept : count ≤ buffer.count) :
    (buffer.setCount count).Indexed := by
  rcases Nat.lt_or_eq_of_le kept with fewer | same
  · exact indexed_setCount fewer
  · rw [McBuffer.setCount, if_neg (by omega)]
    refine indexed.congr (lpIndex_withCount _ _) ?_
    rw [rows_withCount _ kept, same, List.take_of_length_le]
    simp [rows]

end SetCount

section Rewriting

theorem indexAdd_of_some {index : ByteBlock keySize → Option Nat} {lpKey : ByteBlock keySize}
    {first : Nat} (stored : index lpKey = some first) (rowID : Nat) :
    RowBuffer.indexAdd index lpKey rowID = index := by
  funext other
  unfold RowBuffer.indexAdd
  split
  · rename_i same
    rw [same, stored]
  · rfl

/-- The live rows have their keys in the index. -/
theorem Indexed.stored (indexed : buffer.Indexed) {index : ByteBlock keySize → Option Nat}
    (mapMode : buffer.lpIndex = some index) {rowID : Nat} (live : rowID < buffer.count) :
    ∃ first, index (keyOf (buffer.getRow rowID)) = some first := by
  rw [indexed index mapMode]
  apply Option.isSome_iff_exists.mp
  rw [List.findIdx?_isSome, List.any_eq_true]
  refine ⟨buffer.getRow rowID, ?_, by simp⟩
  exact List.mem_map.mpr ⟨rowID, List.mem_range.mpr live, rfl⟩

theorem getRow_putRow {rowID : Nat} (live : rowID < buffer.count) (lpKey : ByteBlock keySize)
    (lpValue : ByteBlock valueSize) (other : Nat) :
    (buffer.putRow rowID lpKey lpValue).getRow other =
      if other = rowID then Fin.append lpKey lpValue else buffer.getRow other := by
  rw [putRow, if_neg (by omega)]
  by_cases same : other = rowID
  · rw [if_pos same, same, getRow_eq_append]
    congr 1
    · exact (readBlock_writeBlock_of_disjoint _ _ (.inl le_rfl)).trans (readBlock_writeBlock _ _ _)
    · exact readBlock_writeBlock _ _ _
  · rw [if_neg same]
    have apart := rows_disjoint (keySize + valueSize) same
    exact (readBlock_writeBlock_of_disjoint _ _ (by omega)).trans
      (readBlock_writeBlock_of_disjoint _ _ (by omega))

/-- A row that keeps its key changes no key. -/
theorem Indexed.putRow (indexed : buffer.Indexed) {rowID : Nat} {lpKey : ByteBlock keySize}
    (sameKey : rowID < buffer.count → keyOf (buffer.getRow rowID) = lpKey)
    (lpValue : ByteBlock valueSize) : (buffer.putRow rowID lpKey lpValue).Indexed := by
  by_cases behind : buffer.count ≤ rowID
  · rw [McBuffer.putRow, if_pos behind]
    exact indexed
  · have live : rowID < buffer.count := Nat.lt_of_not_le behind
    have written := getRow_putRow live lpKey lpValue
    refine indexed.congr ?_ ?_
    · rw [McBuffer.putRow, if_neg behind]
      cases mapMode : buffer.lpIndex with
      | none => rfl
      | some index =>
        obtain ⟨first, stored⟩ := indexed.stored mapMode live
        rw [sameKey live] at stored
        exact congrArg some (indexAdd_of_some stored rowID)
    · have sameCount : (buffer.putRow rowID lpKey lpValue).count = buffer.count := by
        rw [McBuffer.putRow, if_neg behind]
      rw [rows, rows, sameCount, List.map_map, List.map_map]
      apply List.map_congr_left
      intro other _
      rw [Function.comp_apply, Function.comp_apply, written]
      split
      · rename_i same
        rw [keyOf_append, same, sameKey live]
      · rfl

end Rewriting

section Moving

theorem getRow_copyRow (buffer : McBuffer keySize valueSize) (target source other : Nat) :
    (buffer.copyRow target source).getRow other =
      if other = target then buffer.getRow source else buffer.getRow other := by
  by_cases same : other = target
  · rw [if_pos same, same]
    exact readBlock_writeBlock _ _ _
  · rw [if_neg same]
    have apart := rows_disjoint (keySize + valueSize) same
    exact readBlock_writeBlock_of_disjoint _ _ (by omega)

/-- After some rounds the kept ones of the rows passed lie at the front, and the rows ahead are
untouched. -/
theorem foldl_keepRow (buffer : McBuffer keySize valueSize) (keep : Nat → Bool) (passed : Nat) :
    let moved := (List.range passed).foldl (keepRow keep) (buffer, 0)
    moved.2 = ((List.range passed).filter keep).length ∧
      moved.1.count = buffer.count ∧ moved.1.lpIndex = buffer.lpIndex ∧
      moved.1.allocSize = buffer.allocSize ∧
      (List.range moved.2).map moved.1.getRow =
        ((List.range passed).filter keep).map buffer.getRow ∧
      ∀ ahead, passed ≤ ahead → moved.1.getRow ahead = buffer.getRow ahead := by
  induction passed with
  | zero => exact ⟨rfl, rfl, rfl, rfl, rfl, fun _ _ => rfl⟩
  | succ passed ih =>
    obtain ⟨length, sameCount, sameIndex, sameAlloc, front, untouched⟩ := ih
    simp only [List.range_succ, List.foldl_append, List.foldl_cons, List.foldl_nil]
    generalize (List.range passed).foldl (keepRow keep) (buffer, 0) = moved at *
    have within : moved.2 ≤ passed := by
      rw [length]
      exact (List.length_filter_le _ _).trans_eq List.length_range
    rw [List.filter_append]
    by_cases kept : keep passed
    · have filtered : [passed].filter keep = [passed] := by simp [kept]
      rw [keepRow, if_pos kept, filtered]
      refine ⟨by simp [length], sameCount, sameIndex, sameAlloc, ?_, ?_⟩
      · have below : ∀ place ∈ List.range moved.2,
            (moved.1.copyRow moved.2 passed).getRow place = moved.1.getRow place := by
          intro place live
          rw [getRow_copyRow, if_neg (Nat.ne_of_lt (List.mem_range.mp live))]
        rw [List.range_succ, List.map_append, List.map_congr_left below, front, List.map_append,
          List.map_singleton, List.map_singleton, getRow_copyRow, if_pos rfl,
          untouched passed le_rfl]
      · intro ahead behind
        rw [getRow_copyRow, if_neg (by omega), untouched ahead (by omega)]
    · have filtered : [passed].filter keep = [] := by simp [kept]
      rw [keepRow, if_neg kept, filtered, List.append_nil]
      exact ⟨length, sameCount, sameIndex, sameAlloc, front,
        fun ahead behind => untouched ahead (by omega)⟩

theorem rows_compact (buffer : McBuffer keySize valueSize) (keep : Nat → Bool) :
    (buffer.compact keep).rows = ((List.range buffer.count).filter keep).map buffer.getRow := by
  obtain ⟨length, sameCount, -, -, front, -⟩ := buffer.foldl_keepRow keep buffer.count
  have within : ((List.range buffer.count).filter keep).length ≤ buffer.count :=
    (List.length_filter_le _ _).trans_eq List.length_range
  rw [compact, rows_setCount (by omega), rows, ← List.map_take, List.take_range,
    Nat.min_eq_left (by omega), front]

theorem allocSize_compact (buffer : McBuffer keySize valueSize) (keep : Nat → Bool) :
    (buffer.compact keep).allocSize = buffer.allocSize := by
  obtain ⟨length, sameCount, -, sameAlloc, -, -⟩ := buffer.foldl_keepRow keep buffer.count
  have within : ((List.range buffer.count).filter keep).length ≤ buffer.count :=
    (List.length_filter_le _ _).trans_eq List.length_range
  rw [compact, allocSize_setCount (by omega), sameAlloc]

theorem Indexed.compact (indexed : buffer.Indexed) (keep : Nat → Bool) :
    (buffer.compact keep).Indexed := by
  obtain ⟨length, sameCount, sameIndex, -, front, -⟩ := buffer.foldl_keepRow keep buffer.count
  have within : ((List.range buffer.count).filter keep).length ≤ buffer.count :=
    (List.length_filter_le _ _).trans_eq List.length_range
  unfold McBuffer.compact
  generalize (List.range buffer.count).foldl (keepRow keep) (buffer, 0) = moved at *
  by_cases all : moved.2 = buffer.count
  · -- every row stays where it is, and the index is not built again
    have everyRow : (List.range buffer.count).filter keep = List.range buffer.count := by
      apply List.filter_sublist.eq_of_length
      rw [← length, all, List.length_range]
    have still : moved.1.Indexed := by
      refine indexed.congr sameIndex ?_
      rw [rows, sameCount, ← all, front, everyRow, rows]
    exact still.setCount (by omega)
  · -- the index is built from the rows at the front
    exact indexed_setCount (by omega)

end Moving

section Searching

theorem foldl_addFrom (buffer source : McBuffer keySize valueSize) (count : Nat) :
    let copied := (List.range count).foldl (addFrom source) buffer.clear
    copied.rows = (List.range count).map source.getRow ∧ copied.Indexed ∧
      copied.count = count ∧
      copied.allocSize ≤
        max buffer.allocSize (mcAllocSize count bufAllocItems (keySize + valueSize)) := by
  induction count with
  | zero => exact ⟨rfl, buffer.indexed_clear, rfl, le_max_left _ _⟩
  | succ count ih =>
    obtain ⟨copied, indexed, counted, alloc⟩ := ih
    simp only [List.range_succ, List.foldl_append, List.foldl_cons, List.foldl_nil]
    generalize (List.range count).foldl (addFrom source) buffer.clear = before at *
    refine ⟨?_, indexed.add _ _, ?_, ?_⟩
    · rw [addFrom, rows_add, copied, ← getRow_eq_append, List.map_append, List.map_singleton]
    · rw [addFrom, count_add, counted]
    · refine (before.allocSize_add_le _ _).trans ?_
      have more := mcAllocSize_le bufAllocItems (keySize + valueSize) (Nat.le_add_right count 1)
      rw [counted]
      omega

theorem find?_range_eq_findIdx? (count : Nat) (found : Nat → Bool) :
    (List.range count).find? found = (List.range count).findIdx? found := by
  induction count with
  | zero => rfl
  | succ count ih =>
    rw [List.range_succ, List.find?_append, List.findIdx?_append, ih, List.length_range]
    cases (List.range count).findIdx? found with
    | some row => rfl
    | none => by_cases last : found count <;> simp [last]

theorem Indexed.seek_eq (indexed : buffer.Indexed) (lpKey : ByteBlock keySize) :
    buffer.seek lpKey = buffer.rows.findIdx? fun row => keyOf row = lpKey := by
  cases mapMode : buffer.lpIndex with
  | some index =>
    have searched := RowBuffer.seek_of_coherent indexed lpKey
    have sameIndex : buffer.table.index = some index := mapMode
    rw [rows_table] at searched
    rw [← searched, seek, RowBuffer.seek, mapMode, sameIndex]
    rfl
  | none =>
    rw [seek, mapMode, rows, List.findIdx?_map]
    exact find?_range_eq_findIdx? _ _

end Searching

end McBuffer

/-- What the program does with a buffer. -/
inductive BufferOp (keySize valueSize : Nat) where
  | add (lpKey : ByteBlock keySize) (lpValue : ByteBlock valueSize)
  | putRow (rowID : Nat) (lpKey : ByteBlock keySize) (lpValue : ByteBlock valueSize)
  | compact (keep : Nat → Bool)
  | setCount (count : Nat)
  | clear
  | copyFrom (source : McBuffer keySize valueSize)
  | seek (lpKey : ByteBlock keySize)

namespace BufferOp

variable {keySize valueSize : Nat}

/-- What an operation does to the buffer in memory. -/
def apply (buffer : McBuffer keySize valueSize) : BufferOp keySize valueSize →
    McBuffer keySize valueSize
  | add lpKey lpValue => buffer.add lpKey lpValue
  | putRow rowID lpKey lpValue => buffer.putRow rowID lpKey lpValue
  | compact keep => buffer.compact keep
  | setCount count => buffer.setCount count
  | clear => buffer.clear
  | copyFrom source => buffer.copyFrom source
  | seek _ => buffer

/-- Run an operation.  One that computes a size or a count beyond an `int` has no result; they
only grow within an operation, so that the last ones tell. -/
def run (buffer : McBuffer keySize valueSize) (op : BufferOp keySize valueSize) :
    Option (McBuffer keySize valueSize) :=
  if (op.apply buffer).FitsInt then some (op.apply buffer) else none

/-- Initialize a buffer in map mode and run operations on it. -/
def runAll (ops : List (BufferOp keySize valueSize)) : Option (McBuffer keySize valueSize) :=
  let buffer := McBuffer.initializeBuffer true
  if buffer.FitsInt then ops.foldlM run buffer else none

/-- What an operation does to a list of rows. -/
def onRows (rows : List (ByteBlock (keySize + valueSize))) : BufferOp keySize valueSize →
    List (ByteBlock (keySize + valueSize))
  | add lpKey lpValue => rows ++ [Fin.append lpKey lpValue]
  | putRow rowID lpKey lpValue => rows.set rowID (Fin.append lpKey lpValue)
  | compact keep => ((List.range rows.length).filter keep).filterMap fun rowID => rows[rowID]?
  | setCount count => rows.take count
  | clear => []
  | copyFrom source => source.rows
  | seek _ => rows

/-- `PutRow` keeps the key of the row, and `SetCount` does not raise the count. -/
def Allowed (rows : List (ByteBlock (keySize + valueSize))) : BufferOp keySize valueSize → Prop
  | putRow rowID lpKey _ => ∀ row ∈ rows[rowID]?, McBuffer.keyOf row = lpKey
  | setCount count => count ≤ rows.length
  | _ => True

/-- Every operation is allowed on the rows that the ones before it leave. -/
def AllAllowed : List (ByteBlock (keySize + valueSize)) → List (BufferOp keySize valueSize) → Prop
  | _, [] => True
  | rows, op :: ops => op.Allowed rows ∧ AllAllowed (op.onRows rows) ops

/-- The most rows that a buffer has within an operation. -/
def peak (rows : List (ByteBlock (keySize + valueSize))) : BufferOp keySize valueSize → Nat
  | add _ _ => rows.length + 1
  | copyFrom source => source.count
  | _ => rows.length

/-- The number of rows and the bytes that `mc_AllocSize` asks for them are `int`s. -/
def RoomFits (keySize valueSize rowCount : Nat) : Prop :=
  mcAllocSize rowCount bufAllocItems (keySize + valueSize) < 2 ^ 31 ∧ rowCount < 2 ^ 31

/-- The rows of every operation fit. -/
def AllFit : List (ByteBlock (keySize + valueSize)) → List (BufferOp keySize valueSize) → Prop
  | _, [] => True
  | rows, op :: ops => RoomFits keySize valueSize (op.peak rows) ∧ AllFit (op.onRows rows) ops

/-- `Seek` finds the first live row of a key, and misses only keys of no live row. -/
structure FindsFirst (buffer : McBuffer keySize valueSize) : Prop where
  hit : ∀ lpKey row, buffer.seek lpKey = some row ↔
    row < buffer.count ∧ McBuffer.keyOf (buffer.getRow row) = lpKey ∧
      ∀ earlier < row, McBuffer.keyOf (buffer.getRow earlier) ≠ lpKey
  miss : ∀ lpKey, buffer.seek lpKey = none ↔
    ∀ row < buffer.count, McBuffer.keyOf (buffer.getRow row) ≠ lpKey

variable {buffer : McBuffer keySize valueSize}

theorem rows_getElem? (rowID : Nat) :
    buffer.rows[rowID]? = if rowID < buffer.count then some (buffer.getRow rowID) else none := by
  rw [McBuffer.rows, List.getElem?_map]
  split
  · rename_i live
    rw [List.getElem?_range live]
    rfl
  · rename_i behind
    rw [List.getElem?_eq_none (by rw [List.length_range]; omega)]
    rfl

theorem rows_putRow (rowID : Nat) (lpKey : ByteBlock keySize) (lpValue : ByteBlock valueSize) :
    (buffer.putRow rowID lpKey lpValue).rows =
      buffer.rows.set rowID (Fin.append lpKey lpValue) := by
  have length : buffer.rows.length = buffer.count := by simp [McBuffer.rows]
  by_cases live : rowID < buffer.count
  · have sameCount : (buffer.putRow rowID lpKey lpValue).count = buffer.count := by
      rw [McBuffer.putRow, if_neg (by omega)]
    apply List.ext_getElem?
    intro other
    rw [rows_getElem?, sameCount, McBuffer.getRow_putRow live]
    by_cases same : other = rowID
    · rw [if_pos same, same, if_pos live, List.getElem?_set_self (by omega)]
    · rw [if_neg same, List.getElem?_set_ne (Ne.symm same), rows_getElem?]
  · rw [McBuffer.putRow, if_pos (by omega), List.set_eq_of_length_le (by omega)]

/-- An operation changes the rows as it changes a list, and keeps the index true to them. -/
theorem apply_spec (indexed : buffer.Indexed) {op : BufferOp keySize valueSize}
    (allowed : op.Allowed buffer.rows) :
    (op.apply buffer).rows = op.onRows buffer.rows ∧ (op.apply buffer).Indexed := by
  have length : buffer.rows.length = buffer.count := by simp [McBuffer.rows]
  cases op with
  | add lpKey lpValue => exact ⟨buffer.rows_add lpKey lpValue, indexed.add lpKey lpValue⟩
  | putRow rowID lpKey lpValue =>
    refine ⟨rows_putRow rowID lpKey lpValue, indexed.putRow (fun live => ?_) lpValue⟩
    apply allowed
    rw [rows_getElem?, if_pos live]
    rfl
  | compact keep =>
    refine ⟨?_, indexed.compact keep⟩
    have stored : ∀ rowID ∈ (List.range buffer.count).filter keep,
        buffer.rows[rowID]? = some (buffer.getRow rowID) := by
      intro rowID kept
      rw [rows_getElem?, if_pos (List.mem_range.mp (List.mem_of_mem_filter kept))]
    rw [apply, onRows, McBuffer.rows_compact, length, List.filterMap_congr stored,
      List.filterMap_eq_map']
  | setCount count =>
    have kept : count ≤ buffer.count := length ▸ allowed
    exact ⟨McBuffer.rows_setCount kept, indexed.setCount kept⟩
  | clear => exact ⟨rfl, buffer.indexed_clear⟩
  | copyFrom source =>
    obtain ⟨copied, copiedIndexed, -, -⟩ := buffer.foldl_addFrom source source.count
    exact ⟨copied, copiedIndexed⟩
  | seek lpKey => exact ⟨rfl, indexed⟩

/-- An operation whose rows fit leaves the sizes in the range of an `int`. -/
theorem fitsInt_apply (fits : buffer.FitsInt) {op : BufferOp keySize valueSize}
    (allowed : op.Allowed buffer.rows)
    (room : RoomFits keySize valueSize (op.peak buffer.rows)) : (op.apply buffer).FitsInt := by
  have length : buffer.rows.length = buffer.count := by simp [McBuffer.rows]
  obtain ⟨allocFits, countFits⟩ := fits
  cases op with
  | add lpKey lpValue =>
    rw [peak, length] at room
    have alloc := buffer.allocSize_add_le lpKey lpValue
    exact ⟨lt_of_le_of_lt alloc (max_lt allocFits room.1),
      (buffer.count_add lpKey lpValue).trans_lt room.2⟩
  | putRow rowID lpKey lpValue =>
    rw [apply, McBuffer.putRow]
    split
    · exact ⟨allocFits, countFits⟩
    · exact ⟨allocFits, countFits⟩
  | compact keep =>
    have rowsEq := congrArg List.length (buffer.rows_compact keep)
    have within := List.length_filter_le keep (List.range buffer.count)
    simp only [McBuffer.rows, List.length_map, List.length_range] at rowsEq within
    exact ⟨(buffer.allocSize_compact keep).trans_lt allocFits, by rw [apply]; omega⟩
  | setCount count =>
    have kept : count ≤ buffer.count := length ▸ allowed
    have rowsEq := congrArg List.length (McBuffer.rows_setCount kept)
    simp only [McBuffer.rows, List.length_map, List.length_range, List.length_take] at rowsEq
    exact ⟨(McBuffer.allocSize_setCount kept).trans_lt allocFits, by rw [apply]; omega⟩
  | clear => exact ⟨allocFits, Nat.two_pow_pos 31⟩
  | copyFrom source =>
    obtain ⟨-, -, counted, alloc⟩ := buffer.foldl_addFrom source source.count
    exact ⟨lt_of_le_of_lt alloc (max_lt allocFits room.1), counted.trans_lt room.2⟩
  | seek lpKey => exact ⟨allocFits, countFits⟩

theorem foldlM_run_spec (indexed : buffer.Indexed) (fits : buffer.FitsInt)
    {ops : List (BufferOp keySize valueSize)} (allowed : AllAllowed buffer.rows ops)
    (room : AllFit buffer.rows ops) :
    ∃ last, ops.foldlM run buffer = some last ∧ last.rows = ops.foldl onRows buffer.rows ∧
      last.Indexed := by
  induction ops generalizing buffer with
  | nil => exact ⟨buffer, rfl, rfl, indexed⟩
  | cons op ops ih =>
    obtain ⟨opAllowed, opsAllowed⟩ := allowed
    obtain ⟨opRoom, opsRoom⟩ := room
    obtain ⟨sameRows, stillIndexed⟩ := apply_spec indexed opAllowed
    have stillFits := fitsInt_apply fits opAllowed opRoom
    rw [← sameRows] at opsAllowed opsRoom
    rw [List.foldlM_cons, run, if_pos stillFits, List.foldl_cons, ← sameRows]
    exact ih stillIndexed stillFits opsAllowed opsRoom

theorem findsFirst_of_indexed (indexed : buffer.Indexed) : FindsFirst buffer where
  hit lpKey row := by
    rw [indexed.seek_eq, List.findIdx?_eq_some_iff_getElem]
    simp only [McBuffer.rows, List.getElem_map, List.getElem_range, List.length_map,
      List.length_range, decide_eq_true_eq, exists_prop]
  miss lpKey := by
    rw [indexed.seek_eq, List.findIdx?_eq_none_iff]
    simp [McBuffer.rows]

/-- As long as its sizes are `int`s, a buffer in map mode is a list of rows, and `Seek` finds the
first live row of a key. -/
theorem seek_finds_first {ops : List (BufferOp keySize valueSize)} (allowed : AllAllowed [] ops)
    (initial : RoomFits keySize valueSize 1) (room : AllFit [] ops) :
    ∃ buffer, runAll ops = some buffer ∧ buffer.rows = ops.foldl onRows [] ∧
      FindsFirst buffer := by
  have start : (McBuffer.initializeBuffer true : McBuffer keySize valueSize).Indexed :=
    McBuffer.indexed_initializeBuffer true
  have startFits : (McBuffer.initializeBuffer true : McBuffer keySize valueSize).FitsInt :=
    ⟨initial.1, Nat.two_pow_pos 31⟩
  obtain ⟨buffer, runs, sameRows, indexed⟩ := foldlM_run_spec start startFits allowed room
  exact ⟨buffer, by rw [runAll, if_pos startFits, runs], sameRows, findsFirst_of_indexed indexed⟩

/-- The room of the first rows of `2 ^ 23` bytes is beyond an `int`: `Initialize` fails. -/
theorem not_seek_finds_first_longRow :
    ¬∀ (keySize valueSize : Nat) (ops : List (BufferOp keySize valueSize)), AllAllowed [] ops →
      ∃ buffer, runAll ops = some buffer ∧ buffer.rows = ops.foldl onRows [] ∧
        FindsFirst buffer := by
  intro all
  obtain ⟨buffer, runs, -⟩ := all (2 ^ 23) 0 [] trivial
  have beyond : ¬(McBuffer.initializeBuffer true : McBuffer (2 ^ 23) 0).FitsInt := by
    rintro ⟨allocFits, -⟩
    exact absurd allocFits (by decide)
  rw [runAll, if_neg beyond] at runs
  contradiction

/-- Two rows of one key behind a third row, which is dropped; the second row gets a new value. -/
def repeatedKeyOps : List (BufferOp 1 1) :=
  [.add (fun _ => 7) (fun _ => 1), .add (fun _ => 8) (fun _ => 2), .add (fun _ => 8) (fun _ => 3),
    .putRow 1 (fun _ => 8) (fun _ => 4), .compact (fun rowID => rowID ≠ 0), .seek (fun _ => 8)]

theorem seek_finds_first_repeatedKey :
    ∃ buffer, runAll repeatedKeyOps = some buffer ∧
      buffer.rows = [Fin.append (fun _ => 8) fun _ => 4, Fin.append (fun _ => 8) fun _ => 3] ∧
      FindsFirst buffer := by
  have allowed : AllAllowed [] repeatedKeyOps := by
    refine ⟨trivial, trivial, trivial, ?_, trivial, trivial, trivial⟩
    intro row stored
    cases stored
    exact McBuffer.keyOf_append _ _
  have room : AllFit [] repeatedKeyOps := by
    refine ⟨?_, ?_, ?_, ?_, ?_, ?_, trivial⟩ <;> exact ⟨by decide, by decide⟩
  exact seek_finds_first allowed ⟨by decide, by decide⟩ room

end BufferOp

end HdacNode
