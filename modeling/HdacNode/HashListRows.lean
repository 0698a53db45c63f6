import HdacNode.Mempool

/-!
# The rows of the hash list

The hash list is compacted in place and shifted to free rows in front.  Rows behind its count
stay in memory, and a shift of an empty list brings them back.
-/

namespace HdacNode

open WriteBatch

namespace CTxMemPool

theorem getRow_of_rows {hashList : RowBuffer Hash Hash} {before behind : List Hash} {hash : Hash}
    (rows : hashList.rows = before ++ hash :: behind) : hashList.getRow before.length = hash := by
  have live : before.length < hashList.rows.length := by
    rw [rows, List.length_append, List.length_cons]
    omega
  rw [RowBuffer.getRow_eq_rows_getElem hashList live]
  simp only [rows]
  exact List.getElem_append_right (Nat.le_refl _) |>.trans (by simp)

section Defragment

variable (pool : CTxMemPool)

/-- The rows after some rounds of the loop: the pooled ones of those that were read, rows that
are left over, and those that were not read. -/
structure Compacted (all : List Hash) (read : Nat) (st : RowBuffer Hash Hash × Nat) : Prop where
  next : st.2 = ((all.take read).filter pool.exist).length
  rows : ∃ left, st.1.rows = (all.take read).filter pool.exist ++ left ++ all.drop read ∧
    st.2 + left.length = read

variable {pool}

/-- A round takes over the row if its transaction is pooled. -/
theorem Compacted.round {all : List Hash} {read : Nat} {st : RowBuffer Hash Hash × Nat}
    (compacted : Compacted pool all read st) (inside : read < all.length) :
    Compacted pool all (read + 1) (pool.defragmentRow st read) := by
  obtain ⟨next, left, rows, sizes⟩ := compacted
  have taken : all.take (read + 1) = all.take read ++ [all[read]] :=
    (List.take_append_getElem inside).symm
  have dropped : all.drop read = all[read] :: all.drop (read + 1) :=
    List.drop_eq_getElem_cons inside
  have current : st.1.getRow read = all[read] := by
    have place : read = ((all.take read).filter pool.exist ++ left).length := by
      rw [List.length_append, ← next]
      exact sizes.symm
    conv_lhs => rw [place]
    exact getRow_of_rows (rows.trans (by rw [dropped]))
  rw [defragmentRow, current]
  split
  · rename_i pooled
    have filtered : (all.take (read + 1)).filter pool.exist =
        (all.take read).filter pool.exist ++ [all[read]] := by
      rw [taken, List.filter_append, List.filter_singleton, pooled]
      rfl
    refine ⟨?_, ?_⟩
    · rw [filtered, List.length_append, ← next]
      rfl
    · split
      · rename_i moved
        cases left with
        | nil =>
          rw [List.length_nil] at sizes
          omega
        | cons overwritten left =>
          have live : st.2 < st.1.count := by
            rw [← RowBuffer.rows_length, rows]
            simp only [List.length_append, List.length_cons, next]
            omega
          refine ⟨left ++ [all[read]], ?_, ?_⟩
          · rw [RowBuffer.rows_putRow live, rows, next, filtered, dropped]
            simp
          · simp only [List.length_cons, List.length_append, List.length_nil] at sizes ⊢
            omega
      · rename_i same
        have noneLeft : left = [] := List.eq_nil_of_length_eq_zero (by omega)
        refine ⟨[], ?_, by simp only [List.length_nil]; omega⟩
        rw [rows, noneLeft, filtered, dropped]
        simp
  · rename_i notPooled
    have filtered : (all.take (read + 1)).filter pool.exist =
        (all.take read).filter pool.exist := by
      rw [taken, List.filter_append, List.filter_singleton]
      simp [notPooled]
    refine ⟨by rw [filtered]; exact next, left ++ [all[read]], ?_, ?_⟩
    · rw [rows, filtered, dropped]
      simp
    · rw [List.length_append, List.length_singleton]
      omega

/-- The loop of `defragmentHashList` compacts all rows. -/
theorem compacted_loop (pool : CTxMemPool) {read : Nat} (inside : read ≤ pool.hashList.count) :
    Compacted pool pool.hashList.rows read
      ((List.range read).foldl pool.defragmentRow (pool.hashList, 0)) := by
  induction read with
  | zero => exact ⟨rfl, [], by simp, rfl⟩
  | succ read ih =>
    rw [List.range_succ, List.foldl_append]
    exact (ih (by omega)).round (by rw [RowBuffer.rows_length]; omega)

theorem rows_zeroRows {hashList : RowBuffer Hash Hash} {first rows : Nat} :
    (zeroRows hashList first rows).rows.take first = hashList.rows.take first := by
  rw [RowBuffer.rows, RowBuffer.rows, ← List.map_take, ← List.map_take]
  apply List.map_congr_left
  intro row among
  have below : row < first := by
    rw [List.take_range, List.mem_range] at among
    omega
  exact if_neg (by omega)

/-- After `defragmentHashList` the rows are those of pooled transactions, in their order. -/
theorem rows_defragmentHashList (pool : CTxMemPool) :
    pool.defragmentHashList.hashList.rows = pool.hashList.rows.filter pool.exist := by
  have compacted := compacted_loop pool (Nat.le_refl pool.hashList.count)
  rw [defragmentHashList]
  dsimp only
  generalize (List.range pool.hashList.count).foldl pool.defragmentRow (pool.hashList, 0) = st
    at compacted
  obtain ⟨next, left, rows, sizes⟩ := compacted
  have all : pool.hashList.rows.take pool.hashList.count = pool.hashList.rows :=
    List.take_of_length_le (by rw [RowBuffer.rows_length])
  rw [all] at next rows
  have kept : st.2 ≤ st.1.count := by
    rw [← RowBuffer.rows_length, rows]
    simp only [List.length_append]
    omega
  have front : st.1.rows.take st.2 = pool.hashList.rows.filter pool.exist := by
    rw [rows, next, List.append_assoc, List.take_left]
  split
  · rw [RowBuffer.rows_setCount (by exact kept), rows_zeroRows, front]
  · rw [RowBuffer.rows_setCount kept, front]

end Defragment

section Shift

/-- The rows that a shift frees: zeros, or what is left in memory behind an empty list. -/
def freedRows (pool : CTxMemPool) (rows : Nat) : List Hash :=
  if pool.hashList.count ≠ 0 then List.replicate rows 0
  else (List.range rows).map pool.hashList.data

/-- After `shiftHashList` the rows follow the freed ones. -/
theorem rows_shiftHashList (pool : CTxMemPool) (rows : Nat) :
    (pool.shiftHashList rows).hashList.rows = pool.freedRows rows ++ pool.hashList.rows := by
  have grown : ∀ hashList : RowBuffer Hash Hash, ∀ count, hashList.count ≤ count →
      (hashList.setCount id count).data = hashList.data ∧
        (hashList.setCount id count).count = count := by
    intro hashList count notBelow
    rw [RowBuffer.setCount, if_neg (by omega)]
    exact ⟨rfl, rfl⟩
  obtain ⟨sameData, newCount⟩ := grown pool.hashList (pool.hashList.count + rows) (by omega)
  rw [shiftHashList, freedRows]
  dsimp only
  split
  · have count : (zeroRows (moveRows (pool.hashList.setCount id (pool.hashList.count + rows)) rows
        pool.hashList.count) 0 rows).count = pool.hashList.count + rows := newCount
    apply List.ext_getElem
    · rw [RowBuffer.rows_length, count, List.length_append, List.length_replicate,
        RowBuffer.rows_length]
      omega
    · intro row inside _
      rw [RowBuffer.rows_length, count] at inside
      simp only [RowBuffer.rows, List.getElem_map, List.getElem_range]
      change (if 0 ≤ row ∧ row < 0 + rows then 0 else if rows ≤ row ∧
        row < rows + pool.hashList.count then
          (pool.hashList.setCount id (pool.hashList.count + rows)).data (row - rows) else _) = _
      rw [sameData]
      by_cases freed : row < rows
      · rw [if_pos (by omega), List.getElem_append_left (by rwa [List.length_replicate]),
          List.getElem_replicate]
      · rw [if_neg (by omega), if_pos (by omega),
          List.getElem_append_right (by rw [List.length_replicate]; omega)]
        simp
  · rename_i noRows
    have empty : pool.hashList.count = 0 := by omega
    have noOld : pool.hashList.rows = [] :=
      List.eq_nil_of_length_eq_zero (by rw [RowBuffer.rows_length, empty])
    rw [noOld, List.append_nil, RowBuffer.rows, newCount, sameData, empty, Nat.zero_add]

end Shift

end CTxMemPool

end HdacNode
