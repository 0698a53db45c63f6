import HdacNode.PermissionCommitSteps

/-!
# A rollback cuts the chain

The ledger walk undoes the rows above the target height from the newest to the
oldest.  The oldest row of a key is undone last and links to the newest row
that stays, so the database ends with the newest remaining row of every key.
-/

namespace HdacNode

open LinkedRowLog WriteBatch

namespace BlockLog

/-- The height row of a block links behind all rows of the block. -/
theorem prevRow_indexRow {log grants : List LedgerRow} {blocks : List (Address × Hash)}
    {minerRow indexRow : LedgerRow} {miner : Address} {height : Int}
    (older : BlockLog log blocks) (grantRows : ∀ row ∈ grants, GrantRow row height)
    (minerKey : minerRow.key = blockMinerKey miner)
    (isIndex : indexRow.key.type = mcPtpBlockIndex)
    (linked : ledgerShape.Linked (indexRow :: minerRow :: (grants ++ log))) :
    indexRow.prevRow = log.length := by
  have prevEq : indexRow.prevRow =
      ledgerShape.newest (minerRow :: (grants ++ log)) (linkKey indexRow) := linked.2.1
  have indexLink : linkKey indexRow = blockIndexKey 0 := if_pos isIndex
  have minerLink : ¬ ledgerShape.keyOf minerRow = blockIndexKey 0 := by
    change ¬ linkKey minerRow = _
    rw [linkKey_of_ne (by rw [minerKey]; exact blockMinerKey_type_ne miner), minerKey]
    simp [blockMinerKey, nullKey, blockIndexKey]
  have grantsLink : ledgerShape.newestRow grants (blockIndexKey 0) = none := by
    rw [Shape.newestRow, List.find?_eq_none]
    intro other inGrants isLinked
    have notIndex := (grantRows other inGrants).type_ne_blockIndex
    have linkEq : linkKey other = blockIndexKey 0 := of_decide_eq_true isLinked
    rw [linkKey_of_ne notIndex] at linkEq
    exact notIndex (congrArg Key.type linkEq)
  rw [prevEq, indexLink, Shape.newest, if_neg minerLink, newest_append, if_pos grantsLink,
    Permissions.newest_blockIndex older]

/-- A height row belongs to the block of its height.  It links to the row of
the height below, which no row precedes in the first block only. -/
theorem index_row {log : List LedgerRow} {blocks : List (Address × Hash)}
    (blockLog : BlockLog log blocks) (linked : ledgerShape.Linked log) :
    ∀ row ∈ log, row.key.type = mcPtpBlockIndex →
      row.key = blockIndexKey row.blockReceived ∧ 0 ≤ row.blockReceived ∧
        (row.prevRow = 0 ↔ row.blockReceived = 0) ∧
        (row.prevRow ≠ 0 → 2 ≤ row.prevRow) := by
  induction blockLog with
  | genesis => simp
  | @block log grants blocks minerRow indexRow miner hash older grantRows minerKey
      minerReceived indexKey indexReceived indexHash ih =>
      intro row member isIndex
      simp only [List.mem_cons, List.mem_append] at member
      rcases member with rfl | rfl | inGrants | inOlder
      · refine ⟨by rw [indexKey, indexReceived], by omega, ?_⟩
        have below := prevRow_indexRow older grantRows minerKey isIndex linked
        rw [below, indexReceived]
        cases older with
        | genesis => simp
        | block => simp; omega
      · rw [minerKey] at isIndex
        exact absurd isIndex (blockMinerKey_type_ne miner)
      · exact absurd isIndex (grantRows row inGrants).type_ne_blockIndex
      · exact ih (by
          have : indexRow :: minerRow :: (grants ++ log) =
              (indexRow :: minerRow :: grants) ++ log := rfl
          rw [this] at linked
          exact linked.of_append) row inOlder isIndex

/-- Every block of the chain has its height row. -/
theorem exists_index_row {log : List LedgerRow} {blocks : List (Address × Hash)}
    (blockLog : BlockLog log blocks) {height : Nat} (inside : height < blocks.length) :
    ∃ row ∈ log, row.key = blockIndexKey height := by
  induction blockLog with
  | genesis => simp at inside
  | @block log grants blocks minerRow indexRow miner hash older grantRows minerKey
      minerReceived indexKey indexReceived indexHash ih =>
      by_cases isTip : height = blocks.length
      · exact ⟨indexRow, by simp, by rw [indexKey, isTip]⟩
      · simp only [List.length_cons] at inside
        obtain ⟨row, member, keyEq⟩ := ih (by omega)
        exact ⟨row, by simp [member], keyEq⟩

end BlockLog

namespace PermissionFiles

theorem rollBackWalk_eq (files : PermissionFiles) (block : Int) (count : Nat)
    {segment rest : List LedgerRow} (log : ledgerLog files.ledger count = segment ++ rest)
    (undone : ∀ row ∈ segment, block < row.blockReceived)
    (kept : ∀ row ∈ rest, row.blockReceived ≤ block) :
    files.rollBackWalk block count = (segment.map files.undoWrite, rest.length) := by
  induction count generalizing segment with
  | zero =>
      have empty : segment = [] ∧ rest = [] := by simpa [ledgerLog] using log.symm
      simp [rollBackWalk, empty]
  | succ count ih =>
      cases segment with
      | nil =>
          have restEq : rest = ledgerLog files.ledger (count + 1) := by simpa using log.symm
          have top : files.ledgerRowAt (count + 1) ∈ rest := by
            rw [restEq]
            exact List.mem_cons_self ..
          have notUndone : ¬ block < (files.ledgerRowAt (count + 1)).blockReceived :=
            not_lt.2 (kept _ top)
          have lengthEq : rest.length = count + 1 := by rw [restEq, ledgerLog_length]
          simp [rollBackWalk, notUndone, lengthEq]
      | cons row segment =>
          obtain ⟨rowEq, logEq⟩ := List.cons.inj log
          have isUndone : block < (files.ledgerRowAt (count + 1)).blockReceived := by
            change block < ((files.ledger.getRow (count + 1)).getD .zero).blockReceived
            rw [rowEq]
            exact undone row (List.mem_cons_self ..)
          have readEq : files.ledgerRowAt (count + 1) = row := rowEq
          unfold rollBackWalk
          rw [ih logEq fun other member => undone other (List.mem_cons_of_mem _ member)]
          rw [readEq] at isUndone ⊢
          simp [isUndone]

end PermissionFiles

namespace Permissions

theorem lastWrite_undoWrites (files : PermissionFiles) (segment : List LedgerRow) (key : Key) :
    lastWrite (segment.map files.undoWrite) (.permission key) =
      (newestOf segment.reverse key).map files.undoWrite := by
  have undoKey : ∀ row, (files.undoWrite row).key = .permission row.key := by
    intro row
    unfold PermissionFiles.undoWrite
    split <;> rfl
  unfold lastWrite newestOf
  rw [← List.map_reverse, List.find?_map]
  congr 2
  funext row
  simp [undoKey]

/-- What `RollBack` writes back for the oldest undone row of a key. -/
def undoneRow (files : PermissionFiles) (row : LedgerRow) : Option DBRow :=
  if row.prevRow = 0 then none
  else
    let prev := files.ledgerRowAt row.prevRow
    some ⟨prev.blockFrom, prev.blockTo, row.prevRow, prev.flags⟩

theorem value_undoWrite (files : PermissionFiles) (row : LedgerRow) :
    (files.undoWrite row).value = (undoneRow files row).map .row := by
  unfold PermissionFiles.undoWrite undoneRow
  split <;> rfl

section UndoFiles

variable (s : Permissions) (block : Int) (segment : List LedgerRow) (thisRow : Nat)

theorem read_undoFiles {s : Permissions} (pending : s.database.pending = [])
    (writes : List (Write DBKey DBValue)) (key : DBKey) :
    (s.undoFiles block writes thisRow).database.read key =
      match (lastWrite [s.zeroRowWrite block thisRow] key).or (lastWrite writes key) with
      | some entry => entry.value
      | none => s.database.read key := by
  change Store.read (Store.commit _) key = _
  rw [Store.read_commit]
  simp only [Store.foldl_write, Store.write, pending, List.nil_append, lastWrite_append]
  cases (lastWrite [s.zeroRowWrite block thisRow] key).or (lastWrite writes key) <;> rfl

theorem readRow_undoFiles {s : Permissions} (pending : s.database.pending = []) {key : Key}
    (notZero : key ≠ zeroKey) :
    (s.undoFiles block (segment.map s.undoWrite) thisRow).readRow key =
      match newestOf segment.reverse key with
      | some row => undoneRow s.toPermissionFiles row
      | none => s.readRow key := by
  have zeroFree : lastWrite [s.zeroRowWrite block thisRow] (.permission key) = none := by
    rw [lastWrite_singleton, if_neg]
    intro sameKey
    exact notZero (DBKey.permission.inj sameKey).symm
  rw [PermissionFiles.readRow, read_undoFiles _ _ pending, zeroFree, Option.none_or,
    lastWrite_undoWrites]
  cases newestOf segment.reverse key with
  | none => rfl
  | some row =>
      simp only [Option.map_some, value_undoWrite]
      cases undoneRow s.toPermissionFiles row <;> rfl

theorem zeroRow_undoFiles {s : Permissions} (pending : s.database.pending = [])
    {pdbRow : DBRow} (zeroRow : s.readRow zeroKey = some pdbRow)
    (writes : List (Write DBKey DBValue)) :
    (s.undoFiles block writes thisRow).readRow zeroKey =
      some { pdbRow with blockTo := block, ledgerRow := thisRow } := by
  have zeroWrite : lastWrite [s.zeroRowWrite block thisRow] (.permission zeroKey) =
      some (s.zeroRowWrite block thisRow) := by
    rw [lastWrite_singleton]
    exact if_pos rfl
  rw [PermissionFiles.readRow, read_undoFiles _ _ pending, zeroWrite]
  simp [PermissionFiles.zeroRowWrite, zeroRow]

theorem readList_undoFiles {s : Permissions} (pending : s.database.pending = [])
    (address : Address) (type : Nat) :
    (s.undoFiles block (segment.map s.undoWrite) thisRow).database.read
        (.adminMiner address type) =
      s.database.read (.adminMiner address type) := by
  have zeroFree : lastWrite [s.zeroRowWrite block thisRow] (.adminMiner address type) =
      none := by
    rw [lastWrite_singleton, if_neg]
    intro sameKey
    cases sameKey
  have undoFree : lastWrite (segment.map s.undoWrite) (.adminMiner address type) = none := by
    rw [lastWrite_eq_none]
    intro write member sameKey
    obtain ⟨row, -, rfl⟩ := List.mem_map.1 member
    unfold PermissionFiles.undoWrite at sameKey
    split at sameKey <;> cases sameKey
  rw [read_undoFiles _ _ pending, zeroFree, undoFree]
  rfl

end UndoFiles

/-- What a rollback to a height leaves: the rows of the segment are undone, the
rest stays. -/
structure RollBackResult (s : Permissions) (target : Int) (segment rest : List LedgerRow)
    (after : Permissions) : Prop where
  block : after.block = target
  row : after.row = rest.length + 1
  fork : after.copiedRow = s.copiedRow
  rows : after.memPool.rows = []
  memCoherent : RowBuffer.Coherent memPoolKey after.memPool
  pending : after.database.pending = []
  readRow : ∀ key, key ≠ zeroKey → after.readRow key =
    match newestOf segment.reverse key with
    | some row => undoneRow s.toPermissionFiles row
    | none => s.readRow key
  zeroRow : after.readRow zeroKey = some ⟨0, target, rest.length + 1, 0⟩
  readList : ∀ address type, after.database.read (.adminMiner address type) =
    s.database.read (.adminMiner address type)
  ledger : after.ledger = s.ledger.setRow 0
    { s.ledgerRowAt 0 with blockTo := target, prevRow := rest.length + 1 }
  adminCount : after.adminCount = after.database.committed.keys.countP after.countsAdmin
  minerCount : after.minerCount = after.database.committed.keys.countP after.countsMiner
  clearedAdminCount : after.clearedAdminCount = after.adminCount
  clearedMinerCount : after.clearedMinerCount = after.minerCount

/-- What `ClearMemPool` leaves: the committed rows.  The counts are recomputed if
there was a row to drop. -/
structure ClearMemPoolResult (s after : Permissions) : Prop where
  files : after.toPermissionFiles = s.toPermissionFiles
  rows : after.memPool.rows = []
  block : after.block = s.block
  row : after.row = s.countLedgerRows
  copiedMemPool : after.copiedMemPool = s.copiedMemPool
  copiedAdminCount : after.copiedAdminCount = s.copiedAdminCount
  copiedMinerCount : after.copiedMinerCount = s.copiedMinerCount
  recounted : s.memPool.count ≠ 0 →
    after.adminCount = after.database.committed.keys.countP after.countsAdmin ∧
      after.minerCount = after.database.committed.keys.countP after.countsMiner
  kept : s.memPool.count = 0 →
    after.adminCount = s.adminCount ∧ after.minerCount = s.minerCount

namespace ClearMemPoolResult

variable {s after : Permissions}

theorem count (result : ClearMemPoolResult s after) : after.memPool.count = 0 := by
  rw [← RowBuffer.rows_length, result.rows]
  rfl

theorem countLedgerRows (result : ClearMemPoolResult s after) :
    after.countLedgerRows = s.countLedgerRows := by
  rw [Permissions.countLedgerRows, result.count, result.row, Nat.sub_zero]

theorem liveLog (result : ClearMemPoolResult s after) : after.liveLog = s.liveLog := by
  rw [Permissions.liveLog, result.countLedgerRows, result.files]
  rfl

end ClearMemPoolResult

namespace Consistent

variable {s : Permissions} {blocks : List (Address × Hash)} {top : Int}

theorem emptyMemPool (consistent : Consistent s blocks top) :
    Consistent { s with row := s.row - s.memPool.count, memPool := s.memPool.clear }
      blocks top := by
  refine consistent.withPool rfl rfl rfl rfl (RowBuffer.coherent_clear _) (by simp) ?_
  rw [RowBuffer.rows_clear]
  exact consistent.liveLinked

theorem updateCounts (consistent : Consistent s blocks top) :
    Consistent s.updateCounts blocks top := by
  rw [updateCounts_eq consistent.listHeader]
  exact consistent.of_sameStore ⟨rfl, rfl, rfl, rfl, rfl, rfl⟩

theorem clearMemPool_result (consistent : Consistent s blocks top) :
    ClearMemPoolResult s s.clearMemPool := by
  unfold Permissions.clearMemPool
  dsimp only
  split
  · rename_i someRows
    let emptied : Permissions :=
      { s with
        row := s.row - s.memPool.count
        memPool := s.memPool.clear
        adminCount := s.clearedAdminCount
        minerCount := s.clearedMinerCount }
    have counted := updateCounts_eq (s := emptied) consistent.listHeader
    have same : SameStore emptied
        { emptied.updateCounts with
          clearedAdminCount := emptied.updateCounts.adminCount
          clearedMinerCount := emptied.updateCounts.minerCount
          clearedMinerCountForMinerVerification := emptied.updateCounts.minerCount } := by
      rw [counted]
      exact ⟨rfl, rfl, rfl, rfl, rfl, rfl⟩
    exact
      { files := same.files
        rows := by
          rw [same.memPool]
          exact RowBuffer.rows_clear _
        block := same.block
        row := same.row
        copiedMemPool := by
          change emptied.updateCounts.copiedMemPool = _
          rw [counted]
        copiedAdminCount := by
          change emptied.updateCounts.copiedAdminCount = _
          rw [counted]
        copiedMinerCount := by
          change emptied.updateCounts.copiedMinerCount = _
          rw [counted]
        recounted := fun _ => by
          rw [same.countsAdmin, same.countsMiner, same.files]
          change emptied.updateCounts.adminCount = _ ∧ emptied.updateCounts.minerCount = _
          rw [counted]
          exact ⟨rfl, rfl⟩
        kept := fun noRows => absurd noRows someRows }
  · rename_i noRows
    have count : s.memPool.count = 0 := by simpa using noRows
    exact
      { files := rfl
        rows := List.eq_nil_of_length_eq_zero (by simpa using count)
        block := rfl
        row := by rw [countLedgerRows, count, Nat.sub_zero]
        copiedMemPool := rfl
        copiedAdminCount := rfl
        copiedMinerCount := rfl
        recounted := fun someRows => absurd count someRows
        kept := fun _ => ⟨rfl, rfl⟩ }

theorem clearMemPool (consistent : Consistent s blocks top) :
    Consistent s.clearMemPool blocks top := by
  unfold Permissions.clearMemPool
  dsimp only
  split
  · have emptied := consistent.emptyMemPool
    have cleared : Consistent { s with
        row := s.row - s.memPool.count
        memPool := s.memPool.clear
        adminCount := s.clearedAdminCount
        minerCount := s.clearedMinerCount } blocks top :=
      emptied.of_sameStore ⟨rfl, rfl, rfl, rfl, rfl, rfl⟩
    exact cleared.updateCounts.of_sameStore ⟨rfl, rfl, rfl, rfl, rfl, rfl⟩
  · exact consistent.of_sameStore ⟨rfl, rfl, rfl, rfl, rfl, rfl⟩

/-- The live log splits at a height into what a rollback undoes and the log of
the blocks that stay. -/
theorem splitAt (consistent : Consistent s blocks top) {block : Int} (low : -1 ≤ block)
    (high : block ≤ s.block) :
    ∃ segment rest, s.liveLog = segment ++ rest ∧
      BlockLog rest (blocks.drop (blocks.length - (block + 1).toNat)) ∧
      (∀ row ∈ segment, block < row.blockReceived) ∧
      (∀ row ∈ rest, row.blockReceived ≤ block) := by
  have height := consistent.height
  have kept : (block + 1).toNat ≤ blocks.length := by omega
  obtain ⟨segment, rest, log, restLog, segmentReceived⟩ := consistent.blockLog.cut kept
  refine ⟨segment, rest, log, restLog, ?_, ?_⟩
  · intro row member
    have := segmentReceived row member
    omega
  · intro row member
    have := restLog.received_lt row member
    rw [List.length_drop] at this
    omega

theorem undoBlocks_result (consistent : Consistent s blocks top) {block : Int}
    {segment rest : List LedgerRow} (noRows : s.memPool.rows = [])
    (log : s.liveLog = segment ++ rest)
    (undone : ∀ row ∈ segment, block < row.blockReceived)
    (kept : ∀ row ∈ rest, row.blockReceived ≤ block) :
    RollBackResult s block segment rest (s.undoBlocks block) := by
  have count : s.memPool.count = 0 := by
    rw [← RowBuffer.rows_length, noRows]
    rfl
  have rowEq : s.row - 1 = s.countLedgerRows - 1 := by
    rw [countLedgerRows, count, Nat.sub_zero]
  have walk : s.rollBackWalk block (s.row - 1) = (segment.map s.undoWrite, rest.length) := by
    rw [rowEq]
    exact s.rollBackWalk_eq block _ log undone kept
  have present : (s.undoFiles block (segment.map s.undoWrite) (rest.length + 1)).database.read
      adminMinerHeader ≠ none := by
    rw [adminMinerHeader, readList_undoFiles _ _ _ consistent.pending]
    exact consistent.listHeader
  let cut : Permissions :=
    { s with
      toPermissionFiles := s.undoFiles block (segment.map s.undoWrite) (rest.length + 1)
      block := block
      row := rest.length + 1 }
  have final : s.undoBlocks block =
      { cut with
        adminCount := cut.database.committed.keys.countP cut.countsAdmin
        minerCount := cut.database.committed.keys.countP cut.countsMiner
        clearedAdminCount := cut.database.committed.keys.countP cut.countsAdmin
        clearedMinerCount := cut.database.committed.keys.countP cut.countsMiner } := by
    unfold undoBlocks
    rw [walk]
    change { cut.updateCounts with
      clearedAdminCount := cut.updateCounts.adminCount
      clearedMinerCount := cut.updateCounts.minerCount } = _
    rw [updateCounts_eq (s := cut) present]
  have same : SameStore cut (s.undoBlocks block) := by
    rw [final]
    exact ⟨rfl, rfl, rfl, rfl, rfl, rfl⟩
  have files := same.files
  exact
    { block := same.block
      row := same.row
      fork := same.fork
      rows := by
        rw [same.memPool]
        exact noRows
      memCoherent := by
        rw [same.memPool]
        exact consistent.memCoherent
      pending := by
        rw [files]
        rfl
      readRow := fun key notZero => by
        rw [files]
        exact readRow_undoFiles _ _ _ consistent.pending notZero
      zeroRow := by
        rw [files]
        exact zeroRow_undoFiles _ _ consistent.pending consistent.zeroRow _
      readList := fun address type => by
        rw [files]
        exact readList_undoFiles _ _ _ consistent.pending address type
      ledger := by
        rw [files]
        rfl
      adminCount := by
        rw [same.countsAdmin, files, final]
      minerCount := by
        rw [same.countsMiner, files, final]
      clearedAdminCount := by rw [final]
      clearedMinerCount := by rw [final] }

/-- Undoing a key other than a height key gives back its newest remaining
row. -/
theorem undoneRow_eq (consistent : Consistent s blocks top) {segment rest : List LedgerRow}
    (log : s.liveLog = segment ++ rest) {key : Key} (notIndex : key.type ≠ mcPtpBlockIndex)
    {row : LedgerRow} (oldest : newestOf segment.reverse key = some row) :
    undoneRow s.toPermissionFiles row =
      (newestOf rest key).map fun newest =>
        ⟨newest.blockFrom, newest.blockTo, newest.thisRow, newest.flags⟩ := by
  have linked := consistent.liveLinked
  rw [log] at linked
  have prevRow : row.prevRow = (newestOf rest key).elim 0 LedgerRow.thisRow := by
    rw [← newest_eq_thisRow linked.of_append notIndex]
    refine linked.prevRow_oldest ?_
    rw [newestRow_eq_find? _ notIndex]
    exact oldest
  unfold undoneRow
  cases found : newestOf rest key with
  | none =>
      rw [found] at prevRow
      have zeroPrev : row.prevRow = 0 := prevRow
      rw [if_pos zeroPrev]
      rfl
  | some newest =>
      rw [found] at prevRow
      have inRest : newest ∈ rest := List.mem_of_find?_eq_some found
      have inLog : newest ∈ s.liveLog := by
        rw [log]
        exact List.mem_append_right _ inRest
      have positive : 0 < newest.thisRow := linked.thisRow_pos (by simp [inRest])
      have prevEq : row.prevRow = newest.thisRow := prevRow
      rw [if_neg (by omega), prevEq, consistent.stored newest inLog]
      rfl

theorem liveLog_of_rollBackResult {target : Int} {segment rest : List LedgerRow}
    {after : Permissions} (log : s.liveLog = segment ++ rest)
    (result : RollBackResult s target segment rest after) : after.liveLog = rest := by
  have count : after.memPool.count = 0 := by
    rw [← RowBuffer.rows_length, result.rows]
    rfl
  have place : after.countLedgerRows - 1 = rest.length := by
    rw [countLedgerRows, count, result.row]
    rfl
  rw [liveLog, place, result.ledger, ledgerLog_setRow_zero]
  exact ledgerLog_of_append log

section RollBackFields

variable {target : Int} {segment rest : List LedgerRow} {kept : List (Address × Hash)}
  {after : Permissions}

theorem index_row_of_segment (consistent : Consistent s blocks top)
    (log : s.liveLog = segment ++ rest) {row : LedgerRow} (member : row ∈ segment)
    (isIndex : row.key.type = mcPtpBlockIndex) :
    row.key = blockIndexKey row.blockReceived ∧ 0 ≤ row.blockReceived ∧
      (row.prevRow = 0 ↔ row.blockReceived = 0) ∧ (row.prevRow ≠ 0 → 2 ≤ row.prevRow) := by
  refine consistent.blockLog.index_row consistent.liveLinked row ?_ isIndex
  rw [log]
  exact List.mem_append_left _ member

theorem database_of_rollBackResult (consistent : Consistent s blocks top)
    (high : target ≤ s.block) (log : s.liveLog = segment ++ rest)
    (undone : ∀ row ∈ segment, target < row.blockReceived)
    (result : RollBackResult s target segment rest after) {key : Key} (notZero : key ≠ zeroKey)
    (notAbove : ¬after.AboveTip key) : MatchesRow (newestOf rest key) (after.readRow key) := by
  rw [result.readRow key notZero]
  by_cases isIndex : key.type = mcPtpBlockIndex
  · have absent : newestOf segment.reverse key = none := by
      rw [newestOf_eq_none]
      rintro row member rfl
      have inSegment := List.mem_reverse.1 member
      refine notAbove ⟨row.blockReceived, ?_, (consistent.index_row_of_segment log inSegment isIndex).1⟩
      rw [result.block]
      exact undone row inSegment
    have absent' : newestOf segment key = none := by
      rw [newestOf_eq_none] at absent ⊢
      exact fun row member => absent row (List.mem_reverse.2 member)
    have notAboveHere : ¬ s.AboveTip key := by
      rintro ⟨above, higher, keyEq⟩
      refine notAbove ⟨above, ?_, keyEq⟩
      rw [result.block]
      omega
    have matched := consistent.database key notZero notAboveHere
    rw [log, newestOf_append, absent', Option.none_or] at matched
    rw [absent]
    exact matched
  · cases oldest : newestOf segment.reverse key with
    | some row =>
        dsimp only
        rw [consistent.undoneRow_eq log isIndex oldest]
        cases newestOf rest key with
        | none => trivial
        | some newest => exact ⟨rfl, rfl, rfl, fun _ => rfl⟩
    | none =>
        have absent : newestOf segment key = none := by
          rw [newestOf_eq_none] at oldest ⊢
          exact fun row member => oldest row (List.mem_reverse.2 member)
        have notAboveHere : ¬ s.AboveTip key := by
          rintro ⟨above, -, keyEq⟩
          exact isIndex (congrArg Key.type keyEq)
        have matched := consistent.database key notZero notAboveHere
        rw [log, newestOf_append, absent, Option.none_or] at matched
        exact matched

/-- The index rows behind the tip stay in the database. -/
theorem aboveTip_of_rollBackResult (consistent : Consistent s blocks top)
    (log : s.liveLog = segment ++ rest) (restLog : BlockLog rest kept)
    (height : target + 1 = kept.length) (result : RollBackResult s target segment rest after)
    {above : Int} (higher : target < above) :
    (after.readRow (blockIndexKey above) ≠ none ↔ 1 ≤ above ∧ above ≤ top) ∧
      ∀ pdbRow, after.readRow (blockIndexKey above) = some pdbRow → 2 ≤ pdbRow.ledgerRow := by
  have notZero : blockIndexKey above ≠ zeroKey := by simp [blockIndexKey, zeroKey]
  rw [result.readRow _ notZero]
  cases oldest : newestOf segment.reverse (blockIndexKey above) with
  | some row =>
      have inSegment := List.mem_reverse.1 (List.mem_of_find?_eq_some oldest)
      have rowKey := key_of_newestOf oldest
      obtain ⟨keyEq, nonneg, zeroIff, atLeast⟩ :=
        consistent.index_row_of_segment log inSegment (congrArg Key.type rowKey)
      have received : row.blockReceived = above :=
        RowAddress.blockRow.inj (congrArg Key.address (keyEq.symm.trans rowKey))
      have inLog : row ∈ s.liveLog := by
        rw [log]
        exact List.mem_append_left _ inSegment
      have below := consistent.blockLog.received_lt row inLog
      have topLe := consistent.top_le
      have heightEq := consistent.height
      dsimp only
      unfold undoneRow
      split
      · rename_i noPrev
        have := zeroIff.1 noPrev
        constructor
        · simp only [ne_eq, not_true_eq_false, false_iff]
          omega
        · intro pdbRow found
          cases found
      · rename_i hasPrev
        constructor
        · simp only [ne_eq, reduceCtorEq, not_false_eq_true, true_iff]
          have : row.blockReceived ≠ 0 := fun isZero => hasPrev (zeroIff.2 isZero)
          omega
        · intro pdbRow found
          cases found
          exact atLeast hasPrev
  | none =>
      by_cases tip : s.block < above
      · exact consistent.aboveTip above tip
      · have heightEq := consistent.height
        have inside : above.toNat < blocks.length := by omega
        obtain ⟨row, inLog, rowKey⟩ := consistent.blockLog.exists_index_row inside
        have aboveEq : ((above.toNat : Nat) : Int) = above := by omega
        rw [aboveEq] at rowKey
        rw [newestOf_eq_none] at oldest
        rw [log, List.mem_append] at inLog
        rcases inLog with inSegment | inRest
        · exact absurd rowKey (oldest row (List.mem_reverse.2 inSegment))
        · have received := restLog.received_lt row inRest
          have inLive : row ∈ s.liveLog := by
            rw [log]
            exact List.mem_append_right _ inRest
          have keyEq := (consistent.blockLog.index_row consistent.liveLinked row inLive
            (congrArg Key.type rowKey)).1
          have : row.blockReceived = above :=
            RowAddress.blockRow.inj (congrArg Key.address (keyEq.symm.trans rowKey))
          omega

theorem present_of_rollBackResult (consistent : Consistent s blocks top)
    (log : s.liveLog = segment ++ rest) (result : RollBackResult s target segment rest after)
    {address : Address} {type : Nat} (isListed : type = mcPtpAdmin ∨ type = mcPtpMine)
    (present : after.readRow (nullKey address type) ≠ none) :
    s.readRow (nullKey address type) ≠ none := by
  have notZero : nullKey address type ≠ zeroKey := by
    rcases isListed with rfl | rfl <;>
      simp [nullKey, zeroKey, mcPtpAdmin, mcPtpMine]
  have notIndex : (nullKey address type).type ≠ mcPtpBlockIndex := by
    rcases isListed with rfl | rfl <;>
      simp [nullKey, mcPtpBlockIndex, mcPtpAdmin, mcPtpMine]
  rw [result.readRow _ notZero] at present
  cases oldest : newestOf segment.reverse (nullKey address type) with
  | none =>
      rw [oldest] at present
      exact present
  | some row =>
      -- a row of the key is live, so the database has the key
      intro absent
      have notAboveHere : ¬ s.AboveTip (nullKey address type) := by
        rintro ⟨above, -, keyEq⟩
        exact notIndex (congrArg Key.type keyEq)
      have matched := consistent.database _ notZero notAboveHere
      rw [absent] at matched
      cases found : newestOf s.liveLog (nullKey address type) with
      | some newest =>
          rw [found] at matched
          exact matched
      | none =>
          rw [newestOf_eq_none] at found
          refine found row ?_ (key_of_newestOf oldest)
          rw [log]
          exact List.mem_append_left _
            (List.mem_reverse.1 (List.mem_of_find?_eq_some oldest))

end RollBackFields

/-- The store after a rollback stands for the blocks that stay. -/
theorem of_rollBackResult (consistent : Consistent s blocks top) {target : Int}
    {segment rest : List LedgerRow} {kept : List (Address × Hash)} {after : Permissions}
    (high : target ≤ s.block) (log : s.liveLog = segment ++ rest)
    (restLog : BlockLog rest kept) (height : target + 1 = kept.length)
    (undone : ∀ row ∈ segment, target < row.blockReceived)
    (result : RollBackResult s target segment rest after) : Consistent after kept top := by
  have liveEq := liveLog_of_rollBackResult log result
  have count : after.memPool.count = 0 := by
    rw [← RowBuffer.rows_length, result.rows]
    rfl
  have countEq : after.countLedgerRows = rest.length + 1 := by
    rw [countLedgerRows, count, result.row]
    rfl
  have lengthEq : segment.length + rest.length + 1 = s.countLedgerRows := by
    have := consistent.countLedgerRows_pos
    rw [← List.length_append, ← log, liveLog_length]
    omega
  have linked := consistent.liveLinked
  exact
    { fork := result.fork.trans consistent.fork
      pending := result.pending
      rows_pos := by
        rw [count, result.row]
        omega
      rows_le := by
        have := consistent.rows_le
        rw [countEq, result.ledger, RowFile.size_setRow]
        omega
      linked := by
        rw [fullLog, result.rows, liveEq]
        rw [log] at linked
        exact linked.of_append
      blockLog := by
        rw [liveEq]
        exact restLog
      height := by
        rw [result.block]
        exact height
      top_le := by
        rw [result.block]
        exact high.trans consistent.top_le
      memCoherent := result.memCoherent
      memRows := by
        rw [result.rows]
        simp
      header := by
        have read : after.ledgerRowAt 0 =
            { s.ledgerRowAt 0 with blockTo := target, prevRow := rest.length + 1 } := by
          rw [PermissionFiles.ledgerRowAt, result.ledger, RowFile.getRow_setRow_self]
          rfl
        rw [read]
        exact ⟨result.block.symm, countEq.symm⟩
      zeroRow := by
        rw [result.zeroRow, result.block, countEq]
      database := by
        intro key notZero notAbove
        rw [liveEq]
        exact consistent.database_of_rollBackResult high log undone result notZero notAbove
      aboveTip := by
        intro above higher
        rw [result.block] at higher
        exact consistent.aboveTip_of_rollBackResult log restLog height result higher
      listHeader := by
        rw [adminMinerHeader, result.readList]
        exact consistent.listHeader
      listed := by
        intro address type isListed present
        rw [result.readList]
        exact consistent.listed address type isListed
          (consistent.present_of_rollBackResult log result isListed present) }

theorem rollBack_result (consistent : Consistent s blocks top) {block : Int}
    {segment rest : List LedgerRow} (log : s.liveLog = segment ++ rest)
    (undone : ∀ row ∈ segment, block < row.blockReceived)
    (kept : ∀ row ∈ rest, row.blockReceived ≤ block) :
    RollBackResult s.clearMemPool block segment rest (s.rollBack block) := by
  have cleared := consistent.clearMemPool_result
  exact consistent.clearMemPool.undoBlocks_result cleared.rows (cleared.liveLog.trans log)
    undone kept

/-- A rollback to a height of the chain cuts the chain there. -/
theorem rollBack (consistent : Consistent s blocks top) {block : Int} (low : -1 ≤ block)
    (high : block ≤ s.block) :
    Consistent (s.rollBack block) (blocks.drop (blocks.length - (block + 1).toNat)) top := by
  obtain ⟨segment, rest, log, restLog, undone, kept⟩ := consistent.splitAt low high
  have height := consistent.height
  have cleared := consistent.clearMemPool_result
  have keptHeight :
      block + 1 = (blocks.drop (blocks.length - (block + 1).toNat)).length := by
    rw [List.length_drop]
    omega
  refine consistent.clearMemPool.of_rollBackResult ?_ (cleared.liveLog.trans log) restLog
    keptHeight undone (consistent.rollBack_result log undone kept)
  rw [cleared.block]
  exact high

end Consistent

end Permissions

end HdacNode
