import HdacNode.KeyedRowBuffer
import Mathlib.Algebra.Group.Nat.Defs
import Mathlib.Data.Fintype.Basic

/-!
# Row buffers in memory

`utility.cpp`: an `mc_Buffer` keeps its rows one behind another in an allocated block, and in map
mode the numbers of the rows under their keys.  Adding a row may move the block, a smaller count
leaves the bytes behind the last row in place, and callers move rows inside the block without the
index.  The buffer as it lies in memory is a `RowBuffer`, with its rows read from the block.
-/

namespace HdacNode

section Blocks

/-- A number of bytes behind a pointer. -/
abbrev ByteBlock (size : Nat) := Fin size → UInt8

/-- The bytes at an address. -/
def readBlock (memory : Nat → UInt8) (address size : Nat) : ByteBlock size :=
  fun place => memory (address + place)

/-- `memcpy` to an address. -/
def writeBlock (memory : Nat → UInt8) (address : Nat) {size : Nat} (block : ByteBlock size) :
    Nat → UInt8 :=
  fun other =>
    if inside : address ≤ other ∧ other < address + size then
      block ⟨other - address, by omega⟩
    else memory other

theorem readBlock_congr {first second : Nat → UInt8} {address size : Nat}
    (same : ∀ other, address ≤ other → other < address + size → first other = second other) :
    readBlock first address size = readBlock second address size := by
  funext place
  exact same _ (Nat.le_add_right _ _) (by omega)

theorem readBlock_writeBlock (memory : Nat → UInt8) (address : Nat) {size : Nat}
    (block : ByteBlock size) : readBlock (writeBlock memory address block) address size = block := by
  funext place
  have inside : address ≤ address + place.val ∧ address + place.val < address + size := by omega
  rw [readBlock, writeBlock, dif_pos inside]
  congr
  omega

theorem readBlock_writeBlock_of_disjoint (memory : Nat → UInt8) {address other size count : Nat}
    (block : ByteBlock size) (disjoint : other + count ≤ address ∨ address + size ≤ other) :
    readBlock (writeBlock memory address block) other count = readBlock memory other count := by
  apply readBlock_congr
  intro place low high
  rw [writeBlock, dif_neg (by omega)]

theorem readBlock_append (memory : Nat → UInt8) (address first second : Nat) :
    readBlock memory address (first + second) =
      Fin.append (readBlock memory address first) (readBlock memory (address + first) second) := by
  funext place
  refine Fin.addCases (fun left => ?_) (fun right => ?_) place
  · rw [Fin.append_left]
    rfl
  · rw [Fin.append_right, readBlock, readBlock, Fin.val_natAdd, Nat.add_assoc]

end Blocks

/-- `mc_AllocSize`. -/
def mcAllocSize (items chunkSize itemSize : Nat) : Nat :=
  if items = 0 then 0 else ((items - 1) / chunkSize + 1) * chunkSize * itemSize

theorem mul_le_mcAllocSize (items itemSize : Nat) :
    items * itemSize ≤ mcAllocSize items bufAllocItems itemSize := by
  unfold mcAllocSize bufAllocItems
  split
  · rename_i none
    rw [none, Nat.zero_mul]
  · exact Nat.mul_le_mul_right _ (by omega)

theorem mcAllocSize_le {items more : Nat} (chunkSize itemSize : Nat) (fewer : items ≤ more) :
    mcAllocSize items chunkSize itemSize ≤ mcAllocSize more chunkSize itemSize := by
  unfold mcAllocSize
  split
  · exact Nat.zero_le _
  · rw [if_neg (by omega)]
    have chunks : (items - 1) / chunkSize ≤ (more - 1) / chunkSize :=
      Nat.div_le_div_right (by omega)
    exact Nat.mul_le_mul_right _ (Nat.mul_le_mul_right _ (by omega))

/-- `mc_Buffer` with keys and values of fixed sizes.  The live rows fill the beginning of the
allocated block.  The sizes and the count are `int`s of the source: operations are run only as
long as `FitsInt` holds. -/
structure McBuffer (keySize valueSize : Nat) where
  lpIndex : Option (ByteBlock keySize → Option Nat)
  lpData : Nat → UInt8
  allocSize : Nat
  size : Nat
  count : Nat
  size_eq : size = count * (keySize + valueSize)
  size_le : size ≤ allocSize

namespace McBuffer

variable {keySize valueSize : Nat}

/-- `m_AllocSize`, with `m_Size` below it, and `m_Count` are in the range of an `int`. -/
def FitsInt (buffer : McBuffer keySize valueSize) : Prop :=
  buffer.allocSize < 2 ^ 31 ∧ buffer.count < 2 ^ 31

instance (buffer : McBuffer keySize valueSize) : Decidable buffer.FitsInt :=
  inferInstanceAs (Decidable (_ ∧ _))

/-- The leading bytes of a row. -/
def keyOf (row : ByteBlock (keySize + valueSize)) : ByteBlock keySize :=
  fun place => row (Fin.castAdd valueSize place)

/-- `mc_Buffer::Initialize`, with `MC_BUF_MODE_MAP` when `mapMode` is set. -/
def initializeBuffer (mapMode : Bool) : McBuffer keySize valueSize where
  lpIndex := if mapMode then some fun _ => none else none
  lpData := fun _ => 0
  allocSize := mcAllocSize 1 bufAllocItems (keySize + valueSize)
  size := 0
  count := 0
  size_eq := (Nat.zero_mul _).symm
  size_le := Nat.zero_le _

/-- `mc_Buffer::GetRow`. -/
def getRow (buffer : McBuffer keySize valueSize) (rowID : Nat) : ByteBlock (keySize + valueSize) :=
  readBlock buffer.lpData ((keySize + valueSize) * rowID) (keySize + valueSize)

/-- The live rows, first stored first. -/
def rows (buffer : McBuffer keySize valueSize) : List (ByteBlock (keySize + valueSize)) :=
  (List.range buffer.count).map buffer.getRow

/-- `mc_Buffer::Clear`. -/
def clear (buffer : McBuffer keySize valueSize) : McBuffer keySize valueSize where
  lpIndex := buffer.lpIndex.map fun _ _ => none
  lpData := buffer.lpData
  allocSize := buffer.allocSize
  size := 0
  count := 0
  size_eq := (Nat.zero_mul _).symm
  size_le := Nat.zero_le _

/-- `mc_Buffer::Realloc`: the new block is cleared, and the old one is copied to its beginning. -/
def realloc (buffer : McBuffer keySize valueSize) (rowCount : Nat) :
    McBuffer keySize valueSize :=
  if buffer.allocSize < buffer.size + (keySize + valueSize) * rowCount then
    { buffer with
      lpData := fun address => if address < buffer.allocSize then buffer.lpData address else 0
      allocSize := mcAllocSize (buffer.count + rowCount) bufAllocItems (keySize + valueSize)
      size_le := by
        have room := mul_le_mcAllocSize (buffer.count + rowCount) (keySize + valueSize)
        rw [Nat.add_mul, ← buffer.size_eq] at room
        omega }
  else buffer

theorem realloc_room (buffer : McBuffer keySize valueSize) (rowCount : Nat) :
    (buffer.realloc rowCount).size + (keySize + valueSize) * rowCount ≤
      (buffer.realloc rowCount).allocSize := by
  unfold realloc
  split
  · have room := mul_le_mcAllocSize (buffer.count + rowCount) (keySize + valueSize)
    rw [Nat.add_mul, ← buffer.size_eq, Nat.mul_comm rowCount] at room
    exact room
  · rename_i enough
    exact Nat.le_of_not_lt enough

/-- `mc_Buffer::Add`. -/
def add (buffer : McBuffer keySize valueSize) (lpKey : ByteBlock keySize)
    (lpValue : ByteBlock valueSize) : McBuffer keySize valueSize where
  lpIndex := (buffer.realloc 1).lpIndex.map fun index =>
    RowBuffer.indexAdd index lpKey (buffer.realloc 1).count
  lpData :=
    writeBlock (writeBlock (buffer.realloc 1).lpData (buffer.realloc 1).size lpKey)
      ((buffer.realloc 1).size + keySize) lpValue
  allocSize := (buffer.realloc 1).allocSize
  size := (buffer.realloc 1).size + (keySize + valueSize)
  count := (buffer.realloc 1).count + 1
  size_eq := by rw [Nat.add_mul, Nat.one_mul, ← (buffer.realloc 1).size_eq]
  size_le := by simpa using buffer.realloc_room 1

/-- `mc_Buffer::PutRow`, which refuses a row number behind the live rows. -/
def putRow (buffer : McBuffer keySize valueSize) (rowID : Nat) (lpKey : ByteBlock keySize)
    (lpValue : ByteBlock valueSize) : McBuffer keySize valueSize :=
  if buffer.count ≤ rowID then buffer
  else
    { buffer with
      lpData :=
        writeBlock (writeBlock buffer.lpData ((keySize + valueSize) * rowID) lpKey)
          ((keySize + valueSize) * rowID + keySize) lpValue
      lpIndex := buffer.lpIndex.map fun index => RowBuffer.indexAdd index lpKey rowID }

/-- `mc_Buffer::Seek`: through the index in map mode, by a scan otherwise. -/
def seek (buffer : McBuffer keySize valueSize) (lpKey : ByteBlock keySize) : Option Nat :=
  match buffer.lpIndex with
  | some index =>
    match index lpKey with
    | some row => if keyOf (buffer.getRow row) = lpKey then some row else none
    | none => none
  | none => (List.range buffer.count).find? fun row => keyOf (buffer.getRow row) = lpKey

/-- `Add` of a row of a buffer. -/
def addFrom (source buffer : McBuffer keySize valueSize) (rowID : Nat) :
    McBuffer keySize valueSize :=
  buffer.add (readBlock source.lpData ((keySize + valueSize) * rowID) keySize)
    (readBlock source.lpData ((keySize + valueSize) * rowID + keySize) valueSize)

/-- `Add` of a row that lies in the block already. -/
def addAgain (buffer : McBuffer keySize valueSize) (rowID : Nat) : McBuffer keySize valueSize :=
  addFrom buffer buffer rowID

/-- The count alone, behind `Realloc` where it grows. -/
def withCount (buffer : McBuffer keySize valueSize) (count : Nat) : McBuffer keySize valueSize :=
  { buffer.realloc (count - buffer.count) with
    count := count
    size := count * (keySize + valueSize)
    size_eq := rfl
    size_le := by
      have room := buffer.realloc_room (count - buffer.count)
      have same : (buffer.realloc (count - buffer.count)).size =
          buffer.count * (keySize + valueSize) := by
        rw [← buffer.size_eq]
        unfold realloc
        split <;> rfl
      rw [same, Nat.mul_comm (keySize + valueSize), ← Nat.add_mul] at room
      exact le_trans (Nat.mul_le_mul_right _ (by omega)) room }

/-- `mc_Buffer::SetCount`.  A smaller count in map mode clears the index and adds the kept rows
again where they are. -/
def setCount (buffer : McBuffer keySize valueSize) (count : Nat) : McBuffer keySize valueSize :=
  if count < buffer.count then
    match buffer.lpIndex with
    | some _ => ((List.range count).foldl addAgain buffer.clear).withCount count
    | none => buffer.withCount count
  else buffer.withCount count

/-- `mc_Buffer::CopyFrom`. -/
def copyFrom (buffer source : McBuffer keySize valueSize) : McBuffer keySize valueSize :=
  (List.range source.count).foldl (addFrom source) buffer.clear

/-- `memcpy` of a row over another one. -/
def copyRow (buffer : McBuffer keySize valueSize) (target source : Nat) :
    McBuffer keySize valueSize :=
  { buffer with
    lpData := writeBlock buffer.lpData ((keySize + valueSize) * target) (buffer.getRow source) }

/-- A round of the loop in which callers move the rows they keep to the front. -/
def keepRow (keep : Nat → Bool) (state : McBuffer keySize valueSize × Nat) (rowID : Nat) :
    McBuffer keySize valueSize × Nat :=
  if keep rowID then (state.1.copyRow state.2 rowID, state.2 + 1) else state

/-- Move the kept rows to the front, and set the count to their number. -/
def compact (buffer : McBuffer keySize valueSize) (keep : Nat → Bool) :
    McBuffer keySize valueSize :=
  let moved := (List.range buffer.count).foldl (keepRow keep) (buffer, 0)
  moved.1.setCount moved.2

/-- The buffer with its rows read from the block. -/
def table (buffer : McBuffer keySize valueSize) :
    RowBuffer (ByteBlock keySize) (ByteBlock (keySize + valueSize)) where
  data := buffer.getRow
  count := buffer.count
  index := buffer.lpIndex

section Rows

variable (buffer : McBuffer keySize valueSize)

@[simp]
theorem rows_table : buffer.table.rows = buffer.rows := rfl

theorem keyOf_append (lpKey : ByteBlock keySize) (lpValue : ByteBlock valueSize) :
    keyOf (Fin.append lpKey lpValue) = lpKey := by
  funext place
  exact Fin.append_left _ _ _

/-- A row is its key and its value. -/
theorem getRow_eq_append (rowID : Nat) :
    buffer.getRow rowID =
      Fin.append (readBlock buffer.lpData ((keySize + valueSize) * rowID) keySize)
        (readBlock buffer.lpData ((keySize + valueSize) * rowID + keySize) valueSize) :=
  readBlock_append _ _ _ _

/-- Live rows lie in the filled part of the block. -/
theorem rowEnd_le_size {rowID : Nat} (live : rowID < buffer.count) :
    (keySize + valueSize) * rowID + (keySize + valueSize) ≤ buffer.size := by
  rw [buffer.size_eq, ← Nat.mul_succ, Nat.mul_comm buffer.count]
  exact Nat.mul_le_mul_left _ live

/-- Rows of other numbers lie elsewhere. -/
theorem rows_disjoint (width : Nat) {first second : Nat} (different : first ≠ second) :
    width * first + width ≤ width * second ∨ width * second + width ≤ width * first := by
  rw [← Nat.mul_succ, ← Nat.mul_succ]
  rcases Nat.lt_or_gt_of_ne different with before | behind
  · exact .inl (Nat.mul_le_mul_left _ before)
  · exact .inr (Nat.mul_le_mul_left _ behind)

@[simp]
theorem count_realloc (rowCount : Nat) : (buffer.realloc rowCount).count = buffer.count := by
  unfold realloc
  split <;> rfl

@[simp]
theorem size_realloc (rowCount : Nat) : (buffer.realloc rowCount).size = buffer.size := by
  unfold realloc
  split <;> rfl

@[simp]
theorem lpIndex_realloc (rowCount : Nat) : (buffer.realloc rowCount).lpIndex = buffer.lpIndex := by
  unfold realloc
  split <;> rfl

/-- Moving the block keeps the rows in it. -/
theorem getRow_realloc {rowCount rowID : Nat} (live : rowID < buffer.count) :
    (buffer.realloc rowCount).getRow rowID = buffer.getRow rowID := by
  have inside := le_trans (buffer.rowEnd_le_size live) buffer.size_le
  unfold realloc
  split
  · apply readBlock_congr
    intro address _ behind
    exact if_pos (by omega)
  · rfl

@[simp]
theorem count_add (lpKey : ByteBlock keySize) (lpValue : ByteBlock valueSize) :
    (buffer.add lpKey lpValue).count = buffer.count + 1 :=
  congrArg (· + 1) (buffer.count_realloc 1)

theorem lpIndex_add (lpKey : ByteBlock keySize) (lpValue : ByteBlock valueSize) :
    (buffer.add lpKey lpValue).lpIndex =
      buffer.lpIndex.map fun index => RowBuffer.indexAdd index lpKey buffer.count := by
  change (buffer.realloc 1).lpIndex.map
    (fun index => RowBuffer.indexAdd index lpKey (buffer.realloc 1).count) = _
  rw [lpIndex_realloc, count_realloc]

theorem getRow_add_self (lpKey : ByteBlock keySize) (lpValue : ByteBlock valueSize) :
    (buffer.add lpKey lpValue).getRow buffer.count = Fin.append lpKey lpValue := by
  have start : (keySize + valueSize) * buffer.count = (buffer.realloc 1).size := by
    rw [size_realloc, buffer.size_eq, Nat.mul_comm]
  rw [getRow_eq_append, start]
  congr 1
  · rw [add, readBlock_writeBlock_of_disjoint _ _ (.inl le_rfl), readBlock_writeBlock]
  · rw [add, readBlock_writeBlock]

theorem getRow_add_of_lt (lpKey : ByteBlock keySize) (lpValue : ByteBlock valueSize) {rowID : Nat}
    (live : rowID < buffer.count) :
    (buffer.add lpKey lpValue).getRow rowID = buffer.getRow rowID := by
  have inside := buffer.rowEnd_le_size live
  rw [← buffer.size_realloc 1] at inside
  rw [← buffer.getRow_realloc live, getRow, getRow, add,
    readBlock_writeBlock_of_disjoint _ _ (.inl (by omega)),
    readBlock_writeBlock_of_disjoint _ _ (.inl inside)]

theorem rows_add (lpKey : ByteBlock keySize) (lpValue : ByteBlock valueSize) :
    (buffer.add lpKey lpValue).rows = buffer.rows ++ [Fin.append lpKey lpValue] := by
  have old : ∀ rowID ∈ List.range buffer.count,
      (buffer.add lpKey lpValue).getRow rowID = buffer.getRow rowID := fun rowID live =>
    buffer.getRow_add_of_lt lpKey lpValue (List.mem_range.mp live)
  rw [rows, count_add, List.range_succ, List.map_append, List.map_congr_left old,
    List.map_singleton, getRow_add_self, rows]

theorem rows_withCount {count : Nat} (kept : count ≤ buffer.count) :
    (buffer.withCount count).rows = buffer.rows.take count := by
  have same : ∀ rowID ∈ List.range count,
      (buffer.withCount count).getRow rowID = buffer.getRow rowID := fun rowID live =>
    buffer.getRow_realloc (lt_of_lt_of_le (List.mem_range.mp live) kept)
  have counted : (buffer.withCount count).count = count := rfl
  rw [rows, counted, List.map_congr_left same, rows, ← List.map_take, List.take_range,
    Nat.min_eq_left kept]

theorem lpIndex_withCount (count : Nat) : (buffer.withCount count).lpIndex = buffer.lpIndex :=
  buffer.lpIndex_realloc _

theorem allocSize_withCount {count : Nat} (kept : count ≤ buffer.count) :
    (buffer.withCount count).allocSize = buffer.allocSize := by
  have inside := buffer.size_le
  change (buffer.realloc (count - buffer.count)).allocSize = buffer.allocSize
  rw [Nat.sub_eq_zero_of_le kept, realloc, if_neg (by omega)]

theorem allocSize_add_le (lpKey : ByteBlock keySize) (lpValue : ByteBlock valueSize) :
    (buffer.add lpKey lpValue).allocSize ≤
      max buffer.allocSize (mcAllocSize (buffer.count + 1) bufAllocItems (keySize + valueSize)) := by
  change (buffer.realloc 1).allocSize ≤ _
  unfold realloc
  split
  · exact le_max_right _ _
  · exact le_max_left _ _

end Rows

end McBuffer

end HdacNode
