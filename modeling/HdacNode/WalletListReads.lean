import HdacNode.WalletListBlocks
import Mathlib.Data.List.Infix

/-!
# Reading the wallet's lists

The full list of an entity consists of its rows in the database and of the rows that wait.
In a gap-free list `GetList` answers with the part of the full list that it is asked for.
In block order the binary search of `GetBlockItemIndex` finds the number of confirmed rows
up to a block.
-/

namespace HdacNode

open NumberedRows WriteBatch

variable {Tx : Type}

section Rows

variable (entity : TxEntity)

/-- The rows of an entity in the database. -/
def storedRows (confirmed : List TxRowValue) : List TxEntityRow :=
  confirmed.mapIdx fun index value => (TxRowKey.mk entity 0 (index + 1)).row value

/-- The rows of an entity that wait, at the positions they will get. -/
def queuedRows (pool : List TxEntityRow) : List TxEntityRow :=
  (waitingRows pool entity).map fun row => { row with pos := row.tempPos }

/-- The full list of an entity. -/
def fullList (confirmed : List TxRowValue) (pool : List TxEntityRow) : List TxEntityRow :=
  storedRows entity confirmed ++ queuedRows entity pool

end Rows

variable {entity : TxEntity} {confirmed : List TxRowValue}

@[simp]
theorem length_storedRows : (storedRows entity confirmed).length = confirmed.length :=
  List.length_mapIdx

@[simp]
theorem length_queuedRows (pool : List TxEntityRow) :
    (queuedRows entity pool).length = (waitingRows pool entity).length :=
  List.length_map ..

theorem dropWhile_waitingRows {pool : List TxEntityRow} {start count pos : Nat}
    (numbered : (waitingRows pool entity).map (fun row => row.tempPos) = List.range' start count)
    (after : start ≤ pos) (before : pos < start + count) :
    ∃ row behind, (pool.dropWhile fun row => ¬ (row.tempPos = pos ∧ row.entity = entity)) =
        row :: behind ∧ row.tempPos = pos ∧
      (waitingRows pool entity).drop (pos - start) = row :: waitingRows behind entity := by
  induction pool generalizing start count with
  | nil =>
      have : count = 0 := by simpa using (congrArg List.length numbered).symm
      omega
  | cons row pool ih =>
      by_cases ofEntity : row.entity = entity
      · have waits : waitingRows (row :: pool) entity = row :: waitingRows pool entity := by
          simp [waitingRows, ofEntity]
        rw [waits, List.map_cons] at numbered
        obtain ⟨count, rfl⟩ : ∃ fewer, count = fewer + 1 := ⟨count - 1, by omega⟩
        rw [List.range'_succ, List.cons.injEq] at numbered
        obtain ⟨first, rest⟩ := numbered
        by_cases atPos : start = pos
        · refine ⟨row, pool, ?_, by rw [first, atPos], ?_⟩
          · rw [List.dropWhile_cons_of_neg]
            simp [first, atPos, ofEntity]
          · rw [waits, atPos, Nat.sub_self]
            rfl
        · obtain ⟨found, behind, dropped, isAt, behindRows⟩ := ih rest (by omega) (by omega)
          refine ⟨found, behind, ?_, isAt, ?_⟩
          · rw [List.dropWhile_cons_of_pos, dropped]
            simp [first, atPos]
          · rw [waits, ← behindRows]
            have oneMore : pos - start = pos - (start + 1) + 1 := by omega
            rw [oneMore, List.drop_succ_cons]
      · have waits : waitingRows (row :: pool) entity = waitingRows pool entity := by
          simp [waitingRows, ofEntity]
        rw [waits] at numbered
        obtain ⟨found, behind, dropped, isAt, behindRows⟩ := ih numbered after before
        refine ⟨found, behind, ?_, isAt, by rw [waits, behindRows]⟩
        rw [List.dropWhile_cons_of_pos, dropped]
        simp [ofEntity]

theorem numbered_behind {pool behind : List TxEntityRow} {row : TxEntityRow}
    {start count pos : Nat}
    (numbered : (waitingRows pool entity).map (fun row => row.tempPos) = List.range' start count)
    (after : start ≤ pos)
    (behindRows : (waitingRows pool entity).drop (pos - start) = row :: waitingRows behind entity) :
    (waitingRows behind entity).map (fun row => row.tempPos) =
      List.range' (pos + 1) (start + count - (pos + 1)) := by
  have dropped := congrArg (List.map fun row => row.tempPos) behindRows
  rw [List.map_drop, numbered, List.drop_range', List.map_cons] at dropped
  have tail := congrArg List.tail dropped
  rw [List.tail_cons, List.tail_range'] at tail
  rw [← tail]
  congr 1 <;> omega

/-- The loop of `GetList` over a gap-free list. -/
theorem listRows_eq {db : TxDB Tx} (holds : holdsList db.rows entity confirmed)
    {pool : List TxEntityRow} {start waiting pos count : Nat}
    (numbered : (waitingRows pool entity).map (fun row => row.tempPos) =
      List.range' start waiting)
    (positive : 1 ≤ pos) (from_confirmed : start ≤ max pos (confirmed.length + 1))
    (within : pos + count ≤ start + waiting) :
    db.listRows (fun pos => ⟨entity, 0, pos⟩) confirmed.length pool pos count =
      .ok (((storedRows entity confirmed).drop (pos - 1) ++
        (queuedRows entity pool).drop (max pos (confirmed.length + 1) - start)).take count) := by
  induction count generalizing pool start waiting pos with
  | zero => rw [List.take_zero]; rfl
  | succ count ih =>
      unfold TxDB.listRows
      by_cases stored : pos ≤ confirmed.length
      · obtain ⟨index, rfl⟩ : ∃ index, pos = index + 1 := ⟨pos - 1, by omega⟩
        have inside : index < confirmed.length := by omega
        have found : db.rows.read ⟨entity, 0, index + 1⟩ = some confirmed[index] :=
          holds.read_eq inside
        have rest := ih numbered (by omega : 1 ≤ index + 1 + 1) (by omega) (by omega)
        have sameStart : max (index + 1 + 1) (confirmed.length + 1) =
            max (index + 1) (confirmed.length + 1) := by omega
        have head : (storedRows entity confirmed).drop index =
            (TxRowKey.mk entity 0 (index + 1)).row confirmed[index] ::
              (storedRows entity confirmed).drop (index + 1) := by
          rw [List.drop_eq_getElem_cons (by rw [length_storedRows]; exact inside)]
          simp [storedRows]
        rw [if_pos (by exact_mod_cast stored), found]
        dsimp only
        rw [rest, sameStart, Nat.add_sub_cancel, Nat.add_sub_cancel, head, List.cons_append,
          List.take_succ_cons]
        rfl
      · obtain ⟨row, behind, dropped, isAt, behindRows⟩ :=
          @dropWhile_waitingRows entity pool start waiting pos numbered (by omega) (by omega)
        have rest := ih (numbered_behind numbered (by omega) behindRows)
          (by omega : 1 ≤ pos + 1) (by omega) (by omega)
        have noneStored (place : Nat) (behindStored : confirmed.length ≤ place) :
            (storedRows entity confirmed).drop place = [] :=
          List.drop_eq_nil_of_le (by rw [length_storedRows]; exact behindStored)
        have maxAt : max pos (confirmed.length + 1) = pos := by omega
        have maxNext : max (pos + 1) (confirmed.length + 1) = pos + 1 := by omega
        have queued : (queuedRows entity pool).drop (pos - start) =
            { row with pos := pos } :: queuedRows entity behind := by
          unfold queuedRows
          rw [← List.map_drop, behindRows, List.map_cons, isAt]
        rw [noneStored _ (by omega), maxNext, Nat.sub_self, List.drop_zero] at rest
        rw [if_neg (by exact_mod_cast stored), dropped]
        dsimp only
        rw [rest, noneStored _ (by omega), maxAt, queued, List.nil_append, List.nil_append,
          List.take_succ_cons]
        rfl

variable {pool : List TxEntityRow} {height : Int} {ledger : BlockLedger} {known : Hash → Prop}
  {stat : TxEntityStat}

/-- The loop over positions of a list whose rows are all there. -/
theorem Listed.listRows_eq {db : TxDB Tx}
    (listed : Listed db.rows pool height ledger known stat confirmed) {pos count : Nat}
    (positive : 1 ≤ pos) (within : count = 0 ∨ pos + count ≤ stat.lastPos + 1) :
    db.listRows (fun pos => ⟨stat.entity, 0, pos⟩) stat.lastClearedPos pool pos count =
      .ok (((fullList stat.entity confirmed pool).drop (pos - 1)).take count) := by
  rcases within with rfl | within
  · rw [List.take_zero]
    rfl
  · have last := listed.last
    rw [listed.cleared, HdacNode.listRows_eq listed.holds listed.numbered positive
      (Nat.le_max_right _ _) (by omega)]
    unfold fullList
    rw [List.drop_append, length_storedRows]
    congr 4
    omega

theorem Listed.length_fullList {rows : RowStore}
    (listed : Listed rows pool height ledger known stat confirmed) :
    (fullList stat.entity confirmed pool).length = stat.lastPos := by
  rw [fullList, List.length_append, length_storedRows, length_queuedRows, listed.last]

/-- Where a request begins: a start that is not positive counts from the end. -/
def firstAsked (size start count : Int) : Int :=
  if start ≤ 0 then size - count + 1 + start else start

/-- The rows of a full list at the positions that a request asks for. -/
def askedRows (full : List TxEntityRow) (start count : Int) : List TxEntityRow :=
  between full (firstAsked full.length start count) (firstAsked full.length start count + count - 1)

/-- The loop over the positions that remain of a request. -/
theorem Listed.listRows_between {db : TxDB Tx}
    (listed : Listed db.rows pool height ledger known stat confirmed) {first : Int} (last : Int)
    (positive : 1 ≤ first) :
    db.listRows (fun pos => ⟨stat.entity, 0, pos⟩) stat.lastClearedPos pool first.toNat
        (min last stat.lastPos - first + 1).toNat =
      .ok (between (fullList stat.entity confirmed pool) first last) := by
  have within : (min last stat.lastPos - first + 1).toNat = 0 ∨
      first.toNat + (min last stat.lastPos - first + 1).toNat ≤ stat.lastPos + 1 := by omega
  have place : first.toNat - 1 = (first - 1).toNat := by omega
  rw [listed.listRows_eq (by omega) within, place, between_eq_take _ last positive,
    listed.length_fullList]

namespace ImportInOrder

variable {db : TxDB Tx}

theorem listSize_eq (inOrder : ImportInOrder db.rows ledger known db.chain)
    (tracked : stat ∈ db.chain.entities) :
    db.listSize stat.entity = ((stat.lastPos : Int), (stat.lastClearedPos : Int)) := by
  unfold TxDB.listSize
  rw [TxImport.findEntity_of_mem inOrder.distinct tracked]

theorem getListSize_eq (inOrder : ImportInOrder db.rows ledger known db.chain)
    (tracked : stat ∈ db.chain.entities) :
    db.getListSize stat.entity 0 = ((stat.lastPos : Int), (stat.lastClearedPos : Int)) := by
  have plain := (inOrder.plain stat tracked).2
  unfold TxDB.getListSize
  rw [if_neg (by rw [plain]; exact Bool.false_ne_true)]
  exact inOrder.listSize_eq tracked

/-- `GetList` of a tracked entity answers with the rows at the positions asked for. -/
theorem getList_eq (inOrder : ImportInOrder db.rows ledger known db.chain)
    (tracked : stat ∈ db.chain.entities)
    (listed : Listed db.rows db.chain.memPool height ledger known stat confirmed)
    (start count : Int) :
    db.getList 0 stat.entity start count =
      .ok (askedRows (fullList stat.entity confirmed db.chain.memPool) start count) := by
  have found : (db.imports 0).findEntity stat.entity = some stat :=
    TxImport.findEntity_of_mem inOrder.distinct tracked
  have keys : stat.key = fun pos => ⟨stat.entity, 0, pos⟩ := by
    funext pos
    unfold TxEntityStat.key
    rw [(inOrder.plain stat tracked).1]
  unfold TxDB.getList askedRows
  rw [found, inOrder.listSize_eq tracked, listed.length_fullList]
  dsimp only
  rw [keys, ← firstAsked, show (db.imports 0).memPool = db.chain.memPool from rfl]
  generalize firstAsked stat.lastPos start count = first
  by_cases empty : first + count - 1 < 1
  · rw [if_pos empty, between_eq_nil _ _ empty]
  · rw [if_neg empty]
    by_cases early : first ≤ 0
    · have same : (1 : Int) + (count - (1 - first)) - 1 = first + count - 1 := by omega
      rw [if_pos early, if_pos early, same, ← min_def, listed.listRows_between _ le_rfl,
        between_of_le_one _ _ (by omega : first ≤ 1)]
    · rw [if_neg early, if_neg early, ← min_def, listed.listRows_between _ (by omega)]

/-- `GetList` with a generation does not shorten a request that begins in front of the first
row. -/
theorem getGenerationList_eq (inOrder : ImportInOrder db.rows ledger known db.chain)
    (tracked : stat ∈ db.chain.entities)
    (listed : Listed db.rows db.chain.memPool height ledger known stat confirmed)
    (start count : Int) :
    db.getGenerationList 0 stat.entity stat.generation start count =
      .ok (if firstAsked stat.lastPos start count + count - 1 < 1 then []
        else between (fullList stat.entity confirmed db.chain.memPool)
          (max (firstAsked stat.lastPos start count) 1)
          (max (firstAsked stat.lastPos start count) 1 + count - 1)) := by
  obtain ⟨generation, -⟩ := inOrder.plain stat tracked
  unfold TxDB.getGenerationList
  rw [generation, inOrder.getListSize_eq tracked]
  dsimp only
  rw [← firstAsked, show (db.imports 0).memPool = db.chain.memPool from rfl]
  generalize firstAsked stat.lastPos start count = first
  have start_eq : (if first ≤ 0 then 1 else first) = max first 1 := by omega
  rw [start_eq, ← min_def, listed.listRows_between _ (Int.le_max_right first 1)]
  by_cases none : (stat.lastPos : Int) ≤ 0
  · have noRows : fullList stat.entity confirmed db.chain.memPool = [] :=
      List.eq_nil_of_length_eq_zero (by rw [listed.length_fullList]; omega)
    rw [if_pos none, noRows, between_eq, List.take_nil, List.drop_nil, ite_self]
  · rw [if_neg none]
    split_ifs <;> rfl

end ImportInOrder

section BlockIndex

theorem countP_of_split {rows : List TxRowValue} {block : Int} {count : Nat}
    (within : count ≤ rows.length) (upTo : ∀ value ∈ rows.take count, value.block ≤ block)
    (above : ∀ value ∈ rows.drop count, block < value.block) :
    rows.countP (fun value => value.block ≤ block) = count := by
  have first : (rows.take count).countP (fun value => value.block ≤ block) =
      (rows.take count).length :=
    List.countP_eq_length.2 fun value member => by simpa using upTo value member
  have rest : (rows.drop count).countP (fun value => value.block ≤ block) = 0 :=
    List.countP_eq_zero.2 fun value member => by simpa using above value member
  rw [← List.take_append_drop count rows, List.countP_append, first, rest, List.length_take]
  omega

/-- In block order a row in a block up to a height with one above it behind it tells the
number of rows up to the height. -/
theorem countP_of_ordered {rows : List TxRowValue} {block : Int} {count : Nat}
    (ordered : (rows.map TxRowValue.block).Pairwise fun first second => first ≤ second)
    (within : count ≤ rows.length)
    (upTo : ∀ inside : count - 1 < rows.length, 0 < count → rows[count - 1].block ≤ block)
    (above : ∀ inside : count < rows.length, block < rows[count].block) :
    rows.countP (fun value => value.block ≤ block) = count := by
  have sorted : rows.Pairwise fun first second => first.block ≤ second.block :=
    List.pairwise_map.1 ordered
  apply countP_of_split within
  · intro value member
    obtain ⟨place, inTake, rfl⟩ := List.mem_iff_getElem.1 member
    rw [List.length_take] at inTake
    have last := upTo (by omega) (by omega)
    rw [List.getElem_take]
    rcases Nat.lt_or_ge place (count - 1) with earlier | atEnd
    · have le := List.pairwise_iff_getElem.1 sorted place (count - 1) (by omega) (by omega) earlier
      omega
    · have same : place = count - 1 := by omega
      subst same
      exact last
  · intro value member
    obtain ⟨place, inDrop, rfl⟩ := List.mem_iff_getElem.1 member
    rw [List.length_drop] at inDrop
    have first := above (by omega)
    rw [List.getElem_drop]
    rcases Nat.eq_zero_or_pos place with rfl | later
    · exact first
    · have le := List.pairwise_iff_getElem.1 sorted count (count + place) (by omega) (by omega)
        (by omega)
      omega

variable {db : TxDB Tx}

/-- `GetRow` finds the row at a confirmed position. -/
theorem getRow_eq (holds : holdsList db.rows entity confirmed) {row : TxEntityRow}
    (ofEntity : row.entity = entity) (generation : row.generation = 0) {index : Nat}
    (position : row.pos = index + 1) (inside : index < confirmed.length) :
    (db.getRow row).1 = (TxRowKey.mk entity 0 (index + 1)).row confirmed[index] := by
  have key : row.key = ⟨entity, 0, index + 1⟩ := by
    unfold TxEntityRow.key
    rw [ofEntity, generation, position]
  have found : db.rows.read ⟨entity, 0, index + 1⟩ = some confirmed[index] := holds.read_eq inside
  unfold TxDB.getRow
  rw [key, found]

theorem searchBlock_eq (holds : holdsList db.rows entity confirmed)
    (ordered : (confirmed.map TxRowValue.block).Pairwise fun first second => first ≤ second)
    {block : Int} {rounds first last : Nat} {row : TxEntityRow} (ofEntity : row.entity = entity)
    (generation : row.generation = 0) (firstInside : first < confirmed.length)
    (lastInside : last < confirmed.length) (between : first < last)
    (upTo : confirmed[first].block ≤ block) (above : block < confirmed[last].block)
    (enough : last - first ≤ rounds + 1) :
    db.searchBlock block rounds row (first + 1) (last + 1) =
      confirmed.countP fun value => value.block ≤ block := by
  have adjacent (next : last = first + 1) :
      confirmed.countP (fun value => value.block ≤ block) = first + 1 := by
    subst next
    exact countP_of_ordered ordered (by omega) (fun _ _ => upTo) fun _ => above
  induction rounds generalizing row first last with
  | zero => exact (adjacent (by omega)).symm
  | succ rounds ih =>
      unfold TxDB.searchBlock
      by_cases wide : 1 < last + 1 - (first + 1)
      · obtain ⟨middle, isMiddle⟩ : ∃ middle, (last + 1 + (first + 1)) / 2 = middle + 1 :=
          ⟨(last + first) / 2, by omega⟩
        have inside : middle < confirmed.length := by omega
        have read := @getRow_eq _ entity confirmed db holds { row with pos := middle + 1 } ofEntity
          generation middle rfl inside
        rw [if_pos wide, isMiddle]
        dsimp only
        rw [read]
        split_ifs with isAbove
        · refine ih rfl rfl firstInside inside (by omega) upTo isAbove (by omega) fun next => ?_
          subst next
          exact countP_of_ordered ordered (by omega) (fun _ _ => upTo) fun _ => isAbove
        · have isUpTo : confirmed[middle].block ≤ block := Int.not_lt.mp isAbove
          refine ih rfl rfl inside lastInside (by omega) isUpTo above (by omega) fun next => ?_
          subst next
          exact countP_of_ordered ordered (by omega) (fun _ _ => isUpTo) fun _ => above
      · rw [if_neg wide]
        exact (adjacent (by omega)).symm

/-- `GetBlockItemIndex` of a list by chain position is the number of confirmed rows up to a
block. -/
theorem ImportInOrder.getBlockItemIndex_eq (inOrder : ImportInOrder db.rows ledger known db.chain)
    (tracked : stat ∈ db.chain.entities)
    (listed : Listed db.rows db.chain.memPool height ledger known stat confirmed)
    (byPosition : stat.entity.entityType.order ≠ .timeReceived) (block : Int) :
    db.getBlockItemIndex 0 stat.entity block =
      confirmed.countP fun value => value.block ≤ block := by
  have found : (db.imports 0).findEntity stat.entity = some stat :=
    TxImport.findEntity_of_mem inOrder.distinct tracked
  obtain ⟨generation, -⟩ := inOrder.plain stat tracked
  have ordered := listed.ordered byPosition
  unfold TxDB.getBlockItemIndex
  rw [found]
  dsimp only
  rw [generation, inOrder.getListSize_eq tracked, Int.toNat_natCast, listed.cleared]
  by_cases empty : confirmed.length = 0
  · rw [if_pos empty, List.eq_nil_of_length_eq_zero empty]
    rfl
  · have inside : 0 < confirmed.length := Nat.pos_of_ne_zero empty
    have first := @getRow_eq _ stat.entity confirmed db listed.holds
      ⟨stat.entity, 0, 1, 0, 0, 0, 0, 0⟩ rfl rfl 0 rfl inside
    rw [if_neg empty, first]
    have final := @getRow_eq _ stat.entity confirmed db listed.holds
      { (TxRowKey.mk stat.entity 0 (0 + 1)).row confirmed[0] with pos := confirmed.length } rfl rfl
      (confirmed.length - 1) (by dsimp only; omega) (by omega)
    rw [final]
    split_ifs with noneUpTo allUpTo
    · exact (countP_of_ordered ordered (Nat.zero_le _) (fun _ positive => absurd positive
        (Nat.lt_irrefl 0)) fun _ => noneUpTo).symm
    · exact (countP_of_ordered ordered le_rfl (fun _ _ => allUpTo) fun outside =>
        absurd outside (Nat.lt_irrefl _)).symm
    · have isUpTo : confirmed[0].block ≤ block := Int.not_lt.mp noneUpTo
      have isAbove : block < confirmed[confirmed.length - 1].block := Int.not_le.mp allUpTo
      have several : 0 < confirmed.length - 1 := by
        by_contra single
        have same : confirmed.length - 1 = 0 := by omega
        simp only [same] at isAbove
        omega
      have searched := @searchBlock_eq _ stat.entity confirmed db listed.holds ordered block
        confirmed.length 0 (confirmed.length - 1)
        ((TxRowKey.mk stat.entity 0 (confirmed.length - 1 + 1)).row confirmed[confirmed.length - 1])
        rfl rfl inside (by omega) several isUpTo isAbove (by omega)
      have last : confirmed.length - 1 + 1 = confirmed.length := by omega
      rw [last] at searched
      rw [last]
      exact searched

end BlockIndex

end HdacNode
