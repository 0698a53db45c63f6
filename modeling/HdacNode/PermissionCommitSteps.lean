import HdacNode.PermissionGrantSteps

/-!
# A commit extends the chain by one block

The block rows continue the log of the memory pool, the ledger file receives
the whole of it, and the batch leaves the newest row of every key in the
database.
-/

namespace HdacNode

open LinkedRowLog WriteBatch

namespace Permissions

section BlockRows

variable (s : Permissions) (miner : Address) (hash : Hash)

/-- The flags of the block a commit closes. -/
def newBlockFlags : Nat :=
  ((s.getPermissionRow (blockMinerKey miner) true).blockFlags.toNat &&& mcPfbMinedBefore) |||
    s.calculateBlockFlags

/-- The miner row of a commit. -/
def minerRow : LedgerRow :=
  s.newBlockRow (blockMinerKey miner)
    (s.getPermissionRow (blockMinerKey miner) true).thisRow hash (s.newBlockFlags miner)

/-- The height row of a commit. -/
def indexRow : LedgerRow :=
  { s.newBlockRow (blockIndexKey (s.block + 1)) (s.countLedgerRows - 1) hash
      (s.newBlockFlags miner) with
    thisRow := s.row + 1 }

theorem appendBlockRows_eq :
    s.appendBlockRows miner hash =
      (s.appendRow (s.minerRow miner hash)).appendRow (s.indexRow miner hash) := by
  have prevRow : s.row + 1 - (s.memPool.count + 1) - 1 = s.countLedgerRows - 1 := by
    unfold countLedgerRows
    omega
  simp only [appendBlockRows, minerRow, indexRow, newBlockFlags, newBlockRow, ← prevRow]
  rfl

@[simp]
theorem rows_appendBlockRows :
    (s.appendBlockRows miner hash).memPool.rows =
      s.memPool.rows ++ [s.minerRow miner hash, s.indexRow miner hash] := by
  simp [appendBlockRows_eq, appendRow]

@[simp]
theorem row_appendBlockRows : (s.appendBlockRows miner hash).row = s.row + 2 := by
  simp [appendBlockRows_eq, appendRow]

@[simp]
theorem count_appendBlockRows :
    (s.appendBlockRows miner hash).memPool.count = s.memPool.count + 2 := by
  simp [appendBlockRows_eq, appendRow]

@[simp]
theorem files_appendBlockRows :
    (s.appendBlockRows miner hash).toPermissionFiles = s.toPermissionFiles := by
  simp [appendBlockRows_eq, appendRow]

@[simp]
theorem block_appendBlockRows : (s.appendBlockRows miner hash).block = s.block := by
  simp [appendBlockRows_eq, appendRow]

@[simp]
theorem copiedRow_appendBlockRows :
    (s.appendBlockRows miner hash).copiedRow = s.copiedRow := by
  simp [appendBlockRows_eq, appendRow]

@[simp]
theorem fullLog_appendBlockRows :
    (s.appendBlockRows miner hash).fullLog =
      s.indexRow miner hash :: s.minerRow miner hash :: s.fullLog := by
  simp [appendBlockRows_eq]

end BlockRows

/-- The newest height row of a chain is its last row. -/
theorem newest_blockIndex {log : List LedgerRow} {blocks : List (Address × Hash)}
    (blockLog : BlockLog log blocks) :
    ledgerShape.newest log (blockIndexKey 0) = log.length := by
  cases blockLog with
  | genesis => rfl
  | block _ _ _ _ indexKey _ _ =>
      have isIndex : linkKey _ = blockIndexKey 0 := if_pos (congrArg Key.type indexKey)
      simp [Shape.newest, ledgerShape, isIndex]

namespace Consistent

variable {s : Permissions} {blocks : List (Address × Hash)} {top : Int}

theorem newest_blockIndex_fullLog (consistent : Consistent s blocks top) :
    ledgerShape.newest s.fullLog (blockIndexKey 0) = s.countLedgerRows - 1 := by
  have noneInPool : ledgerShape.newestRow s.memPool.rows.reverse (blockIndexKey 0) = none := by
    rw [Shape.newestRow, List.find?_eq_none]
    intro row member isLinked
    have inPool : row ∈ s.memPool.rows := by simpa using member
    have notIndex := consistent.memPool_not_index row inPool
    have linkEq : linkKey row = blockIndexKey 0 := of_decide_eq_true isLinked
    rw [linkKey_of_ne notIndex] at linkEq
    exact notIndex (congrArg Key.type linkEq)
  rw [fullLog, newest_append, if_pos noneInPool, newest_blockIndex consistent.blockLog,
    liveLog_length]

/-- The two block rows continue the linked log. -/
theorem linked_appendBlockRows (consistent : Consistent s blocks top) (miner : Address)
    (hash : Hash) :
    ledgerShape.Linked (s.appendBlockRows miner hash).fullLog := by
  have lengthEq := fullLog_length consistent.rows_pos
  have minerNotIndex := blockMinerKey_type_ne miner
  have minerNotZero : blockMinerKey miner ≠ zeroKey := by
    simp [blockMinerKey, nullKey, zeroKey, mcPtpBlockMiner]
  have minerLink : linkKey (s.minerRow miner hash) = blockMinerKey miner :=
    linkKey_of_ne minerNotIndex
  have indexLink : linkKey (s.indexRow miner hash) = blockIndexKey 0 := if_pos rfl
  rw [fullLog_appendBlockRows]
  refine ⟨?_, ?_, ?_, ?_, consistent.linked⟩
  · change s.row + 1 = _
    simp only [List.length_cons]
    omega
  · change s.countLedgerRows - 1 = ledgerShape.newest _ (linkKey (s.indexRow miner hash))
    have notMiner : blockMinerKey miner ≠ blockIndexKey 0 := by
      simp [blockMinerKey, nullKey, blockIndexKey]
    rw [indexLink, Shape.newest, if_neg, consistent.newest_blockIndex_fullLog]
    change ¬ linkKey (s.minerRow miner hash) = blockIndexKey 0
    rw [minerLink]
    exact notMiner
  · change s.row = _
    omega
  · change (s.getPermissionRow (blockMinerKey miner) true).thisRow =
      ledgerShape.newest s.fullLog (linkKey (s.minerRow miner hash))
    rw [minerLink]
    exact consistent.thisRow_getPermissionRow minerNotZero minerNotIndex

end Consistent

section Batch

theorem lastWrite_commitWrites (rows : List LedgerRow) (key : Key) :
    lastWrite (rows.flatMap commitWrites) (.permission key) =
      (newestOf rows.reverse key).map putRowWrite := by
  induction rows using List.reverseRecOn with
  | nil => rfl
  | append_singleton rows row ih =>
      have listFree : lastWrite ((adminMinerOfKey (.permission row.key)).map listWrite).toList
          (.permission key) = none := by
        rw [lastWrite_eq_none]
        intro write member sameKey
        cases listed : adminMinerOfKey (.permission row.key) with
        | none => simp [listed] at member
        | some entry =>
            have : write = listWrite entry := by simpa [listed] using member
            rw [this] at sameKey
            cases sameKey
      have oneRow : lastWrite (commitWrites row) (.permission key) =
          if row.key = key then some (putRowWrite row) else none := by
        rw [commitWrites, ← List.singleton_append, lastWrite_append, listFree,
          Option.none_or, lastWrite_singleton]
        simp [putRowWrite]
      rw [List.flatMap_append, List.flatMap_singleton, lastWrite_append, oneRow, ih,
        List.reverse_append, List.reverse_singleton, newestOf_append]
      by_cases sameKey : row.key = key <;> simp [newestOf, sameKey]

theorem value_commitWrites {row : LedgerRow} {write : Write DBKey DBValue}
    (member : write ∈ commitWrites row) : write.value ≠ none := by
  rcases List.mem_cons.1 member with rfl | inList
  · simp [putRowWrite]
  · cases listed : adminMinerOfKey (.permission row.key) with
    | none => simp [listed] at inList
    | some entry =>
        have : write = listWrite entry := by simpa [listed] using inList
        simp [this, listWrite]

end Batch

section Stages

variable (s : Permissions) (miner : Address) (hash : Hash)

theorem memPool_commitDatabase :
    (s.commitDatabase miner hash).memPool = (s.appendBlockRows miner hash).memPool :=
  rfl

@[simp]
theorem row_commitDatabase : (s.commitDatabase miner hash).row = s.row + 2 :=
  row_appendBlockRows s miner hash

@[simp]
theorem block_commitDatabase : (s.commitDatabase miner hash).block = s.block :=
  block_appendBlockRows s miner hash

@[simp]
theorem countLedgerRows_commitDatabase :
    (s.commitDatabase miner hash).countLedgerRows = s.countLedgerRows := by
  simp only [countLedgerRows, row_commitDatabase, memPool_commitDatabase,
    count_appendBlockRows]
  omega

theorem writeMemPool_eq {s : Permissions} (nonempty : s.memPool.rows ≠ []) :
    s.writeMemPool =
      RowFile.writeRows { s.ledger with position := s.countLedgerRows } s.memPool.rows := by
  unfold writeMemPool
  cases rowsEq : s.memPool.rows with
  | nil => exact absurd rowsEq nonempty
  | cons row rows => rfl

theorem writeMemPool_appendBlockRows :
    (s.appendBlockRows miner hash).writeMemPool =
      RowFile.writeRows { s.ledger with position := s.countLedgerRows }
        (s.appendBlockRows miner hash).memPool.rows := by
  have countEq : (s.appendBlockRows miner hash).countLedgerRows = s.countLedgerRows :=
    countLedgerRows_commitDatabase s miner hash
  have ledgerEq : (s.appendBlockRows miner hash).ledger = s.ledger :=
    congrArg PermissionFiles.ledger (files_appendBlockRows s miner hash)
  rw [writeMemPool_eq (by simp), countEq, ledgerEq]

/-- The ledger file of a commit holds the whole log, its new rows included. -/
theorem ledgerLog_commitDatabase {s : Permissions} (rowsPos : s.memPool.count < s.row)
    (rowsLe : s.countLedgerRows ≤ s.ledger.size) :
    ledgerLog (s.commitDatabase miner hash).ledger (s.row + 1) =
      s.indexRow miner hash :: s.minerRow miner hash :: s.fullLog := by
  have written : (s.appendBlockRows miner hash).writeMemPool =
      RowFile.writeRows { s.ledger with position := s.countLedgerRows }
        (s.memPool.rows ++ [s.minerRow miner hash, s.indexRow miner hash]) := by
    rw [writeMemPool_appendBlockRows, rows_appendBlockRows]
  have positive : 0 < s.countLedgerRows := by
    unfold countLedgerRows
    omega
  have log := ledgerLog_writeRows { s.ledger with position := s.countLedgerRows }
    (s.memPool.rows ++ [s.minerRow miner hash, s.indexRow miner hash]) positive rowsLe
  have place : s.countLedgerRows - 1 +
      (s.memPool.rows ++ [s.minerRow miner hash, s.indexRow miner hash]).length =
        s.row + 1 := by
    simp only [List.length_append, RowBuffer.rows_length, List.length_cons, List.length_nil]
    unfold countLedgerRows
    omega
  change ledgerLog (RowFile.setRow _ 0 _) (s.row + 1) = _
  dsimp only at log
  rw [ledgerLog_setRow_zero, written, ← place, log, ledgerLog_position, List.reverse_append]
  rfl

/-- The size of the ledger file covers all rows of the block. -/
theorem size_commitDatabase {s : Permissions} (rowsPos : s.memPool.count < s.row)
    (rowsLe : s.countLedgerRows ≤ s.ledger.size) :
    (s.commitDatabase miner hash).ledger.size = max s.ledger.size (s.row + 2) := by
  change (RowFile.setRow _ 0 _).size = _
  rw [RowFile.size_setRow]
  change max (s.appendBlockRows miner hash).writeMemPool.size 1 = _
  rw [writeMemPool_appendBlockRows, rows_appendBlockRows, RowFile.size_writeRows _ _ rowsLe]
  simp only [List.length_append, RowBuffer.rows_length, List.length_cons, List.length_nil]
  unfold countLedgerRows at *
  omega

/-- The header of the ledger names the new height and row count. -/
theorem header_commitDatabase :
    ((s.commitDatabase miner hash).ledgerRowAt 0).blockTo = s.block + 1 ∧
      ((s.commitDatabase miner hash).ledgerRowAt 0).prevRow = s.row + 2 := by
  have read : (s.commitDatabase miner hash).ledger.getRow 0 = some _ :=
    RowFile.getRow_setRow_self _ 0 _
  simp only [PermissionFiles.ledgerRowAt, read, Option.getD_some]
  exact ⟨congrArg (· + 1) (block_appendBlockRows s miner hash), row_appendBlockRows s miner hash⟩

/-- The batch of a commit. -/
theorem pending_prepareCommit :
    (s.prepareCommit miner hash).database.pending =
      s.database.pending ++ (s.appendBlockRows miner hash).memPool.rows.flatMap commitWrites ++
        [s.zeroRowWrite (s.block + 1) (s.row + 2)] := by
  have filesEq := files_appendBlockRows s miner hash
  simp only [prepareCommit, PermissionFiles.setHeader, Store.foldl_write, Store.write, filesEq,
    block_appendBlockRows, row_appendBlockRows]

theorem committed_prepareCommit :
    (s.prepareCommit miner hash).database.committed = s.database.committed := by
  have filesEq := files_appendBlockRows s miner hash
  simp only [prepareCommit, PermissionFiles.setHeader, Store.foldl_write, Store.write, filesEq]

theorem noDeletes_prepareCommit {s : Permissions} (pending : s.database.pending = []) :
    ∀ write ∈ (s.prepareCommit miner hash).database.pending, write.value ≠ none := by
  intro write member
  rw [pending_prepareCommit, pending, List.nil_append] at member
  rcases List.mem_append.1 member with inRows | isZero
  · obtain ⟨row, -, inRow⟩ := List.mem_flatMap.1 inRows
    exact value_commitWrites inRow
  · have : write = s.zeroRowWrite (s.block + 1) (s.row + 2) := by simpa using isZero
    simp [this, PermissionFiles.zeroRowWrite]

/-- The database row of a key after the batch. -/
theorem readRow_commitDatabase {s : Permissions} (pending : s.database.pending = [])
    {key : Key} (notZero : key ≠ zeroKey) :
    (s.commitDatabase miner hash).readRow key =
      match newestOf (s.appendBlockRows miner hash).memPool.rows.reverse key with
      | some row => some ⟨row.blockFrom, row.blockTo, row.thisRow, row.flags⟩
      | none => s.readRow key := by
  have zeroFree : lastWrite [s.zeroRowWrite (s.block + 1) (s.row + 2)] (.permission key) =
      none := by
    rw [lastWrite_singleton, if_neg]
    intro sameKey
    exact notZero (DBKey.permission.inj sameKey).symm
  simp only [PermissionFiles.readRow, commitDatabase, Store.read_commit, pending_prepareCommit,
    pending, List.nil_append, lastWrite_append, zeroFree, Option.none_or,
    lastWrite_commitWrites]
  cases newestOf (s.appendBlockRows miner hash).memPool.rows.reverse key with
  | none => simp [Store.read, committed_prepareCommit]
  | some row => rfl

theorem zeroRow_commitDatabase {s : Permissions} {pdbRow : DBRow}
    (zeroRow : s.readRow zeroKey = some pdbRow) :
    (s.commitDatabase miner hash).readRow zeroKey =
      some { pdbRow with blockTo := s.block + 1, ledgerRow := s.row + 2 } := by
  have zeroWrite : lastWrite [s.zeroRowWrite (s.block + 1) (s.row + 2)]
      (.permission zeroKey) = some (s.zeroRowWrite (s.block + 1) (s.row + 2)) := by
    rw [lastWrite_singleton]
    exact if_pos rfl
  rw [PermissionFiles.readRow]
  simp only [commitDatabase, Store.read_commit, pending_prepareCommit, lastWrite_append,
    zeroWrite, Option.some_or]
  simp [PermissionFiles.zeroRowWrite, zeroRow]

theorem listed_commitDatabase {s : Permissions} (pending : s.database.pending = [])
    {address : Address} {type : Nat} (isListed : type = mcPtpAdmin ∨ type = mcPtpMine)
    (listed : s.readRow (nullKey address type) ≠ none →
      s.database.read (.adminMiner address type) ≠ none)
    (present : (s.commitDatabase miner hash).readRow (nullKey address type) ≠ none) :
    (s.commitDatabase miner hash).database.read (.adminMiner address type) ≠ none := by
  have notZero : nullKey address type ≠ zeroKey := by
    rcases isListed with rfl | rfl <;> simp [nullKey, zeroKey, mcPtpAdmin, mcPtpMine]
  rw [readRow_commitDatabase _ _ pending notZero] at present
  cases found : newestOf (s.appendBlockRows miner hash).memPool.rows.reverse
      (nullKey address type) with
  | none =>
      rw [found] at present
      refine Store.read_commit_ne_none (noDeletes_prepareCommit _ _ pending) ?_
      have := listed present
      simpa [Store.read, committed_prepareCommit] using this
  | some row =>
      have rowKey := key_of_newestOf found
      have inRows : row ∈ (s.appendBlockRows miner hash).memPool.rows :=
        List.mem_reverse.1 (List.mem_of_find?_eq_some found)
      have entryOf : adminMinerOfKey (.permission row.key) = some (address, type) := by
        rw [rowKey]
        exact if_pos isListed
      have inBatch : listWrite (address, type) ∈
          (s.prepareCommit miner hash).database.pending := by
        rw [pending_prepareCommit]
        refine List.mem_append_left _ (List.mem_append_right _ ?_)
        exact List.mem_flatMap.2 ⟨row, inRows, by simp [commitWrites, entryOf]⟩
      change (s.prepareCommit miner hash).database.commit.read _ ≠ none
      rw [Store.read_commit]
      cases last : lastWrite (s.prepareCommit miner hash).database.pending
          (.adminMiner address type) with
      | none => exact absurd rfl (lastWrite_eq_none.1 last _ inBatch)
      | some write =>
          exact noDeletes_prepareCommit _ _ pending write
            (by simpa using List.mem_of_find?_eq_some last)

end Stages

/-- With an empty memory pool `StoreBlockInfo` writes the block record only. -/
theorem storeBlockInfo_of_empty (params : NetworkParams) {s : Permissions} (miner : Address)
    (hash : Hash) (noRows : s.memPool.rows = []) (pending : s.database.pending = []) :
    ∃ database, s.storeBlockInfo params miner hash false = { s with database := database } ∧
      database.pending = [] ∧
      ∀ key, (∀ hash, key ≠ .blockMiner hash) → database.read key = s.database.read key := by
  unfold storeBlockInfo
  split
  · exact ⟨s.database, rfl, pending, fun _ _ => rfl⟩
  · have committed : s.database.commit = s.database := by
      cases database : s.database with
      | mk committed batch =>
          rw [database] at pending
          simp only at pending
          simp [Store.commit, pending]
    simp only [noRows, List.foldl_nil, Nat.lt_irrefl, if_false, committed, Bool.false_eq_true]
    refine ⟨_, rfl, pending, ?_⟩
    intro key notBlock
    rw [Store.read_writeNow, if_neg (Ne.symm (notBlock hash))]

section Result

variable (params : NetworkParams) (s : Permissions) (miner : Address) (hash : Hash)

/-- The state `UpdateCounts` runs on within a commit. -/
def commitCounted : Permissions :=
  updateCounts { s.commitDatabase miner hash with block := s.block + 1 }

/-- The two block rows with the counts of the commit. -/
def countedMinerRow : LedgerRow :=
  (s.minerRow miner hash).withCounts (toUInt32 (s.commitCounted miner hash).adminCount)
    (toUInt32 (s.commitCounted miner hash).minerCount)

def countedIndexRow : LedgerRow :=
  (s.indexRow miner hash).withCounts (toUInt32 (s.commitCounted miner hash).adminCount)
    (toUInt32 (s.commitCounted miner hash).minerCount)

/-- What a commit leaves. -/
structure CommitResult (after : Permissions) : Prop where
  block : after.block = s.block + 1
  row : after.row = s.row + 2
  fork : after.copiedRow = s.copiedRow
  memPool : after.memPool = (s.appendBlockRows miner hash).memPool.clear
  adminCount : after.adminCount = (s.commitCounted miner hash).adminCount
  minerCount : after.minerCount = (s.commitCounted miner hash).minerCount
  clearedAdminCount : after.clearedAdminCount = after.adminCount
  clearedMinerCount : after.clearedMinerCount = after.minerCount
  pending : after.database.pending = []
  readRow : ∀ key, after.readRow key = (s.commitDatabase miner hash).readRow key
  readList : ∀ address type, after.database.read (.adminMiner address type) =
    (s.commitDatabase miner hash).database.read (.adminMiner address type)
  ledger : after.ledger =
    ((s.commitDatabase miner hash).ledger.setRow s.row (s.countedMinerRow miner hash)).setRow
      (s.row + 1) (s.countedIndexRow miner hash)

end Result

namespace Consistent

variable {s : Permissions} {blocks : List (Address × Hash)} {top : Int}

theorem listHeader_commitDatabase (consistent : Consistent s blocks top) (miner : Address)
    (hash : Hash) : (s.commitDatabase miner hash).database.read adminMinerHeader ≠ none := by
  refine Store.read_commit_ne_none (noDeletes_prepareCommit _ _ consistent.pending) ?_
  simpa [Store.read, committed_prepareCommit] using consistent.listHeader

theorem linked_commitDatabase (consistent : Consistent s blocks top) (miner : Address)
    (hash : Hash) :
    ledgerShape.Linked (ledgerLog (s.commitDatabase miner hash).ledger (s.row + 1)) := by
  rw [ledgerLog_commitDatabase _ _ consistent.rows_pos consistent.rows_le,
    ← fullLog_appendBlockRows]
  exact consistent.linked_appendBlockRows miner hash

theorem blockRows_commitDatabase (consistent : Consistent s blocks top) (miner : Address)
    (hash : Hash) :
    (s.commitDatabase miner hash).ledgerRowAt s.row = s.minerRow miner hash ∧
      (s.commitDatabase miner hash).ledgerRowAt (s.row + 1) = s.indexRow miner hash := by
  have log := ledgerLog_commitDatabase miner hash consistent.rows_pos consistent.rows_le
  have readBack := ledgerRowAt_thisRow (consistent.linked_commitDatabase miner hash)
  rw [log] at readBack
  exact ⟨readBack (s.minerRow miner hash) (by simp), readBack (s.indexRow miner hash) (by simp)⟩

theorem commitCounted_eq (consistent : Consistent s blocks top) (miner : Address)
    (hash : Hash) :
    s.commitCounted miner hash =
      { s.commitDatabase miner hash with
        block := s.block + 1
        adminCount := (s.commitCounted miner hash).adminCount
        minerCount := (s.commitCounted miner hash).minerCount } := by
  have present : ({ s.commitDatabase miner hash with block := s.block + 1 } :
      Permissions).database.read adminMinerHeader ≠ none :=
    consistent.listHeader_commitDatabase miner hash
  rw [commitCounted, updateCounts_eq present]

private theorem closeBlock_eq (consistent : Consistent s blocks top) (miner : Address)
    (hash : Hash) :
    (s.commitDatabase miner hash).closeBlock =
      { s.commitDatabase miner hash with
        block := s.block
        ledger := ((s.commitDatabase miner hash).ledger.setRow s.row
          (s.countedMinerRow miner hash)).setRow (s.row + 1) (s.countedIndexRow miner hash)
        memPool := (s.appendBlockRows miner hash).memPool.clear
        adminCount := (s.commitCounted miner hash).adminCount
        minerCount := (s.commitCounted miner hash).minerCount
        clearedAdminCount := (s.commitCounted miner hash).adminCount
        clearedMinerCount := (s.commitCounted miner hash).minerCount
        clearedMinerCountForMinerVerification := (s.commitCounted miner hash).minerCount } := by
  obtain ⟨minerBack, indexBack⟩ := consistent.blockRows_commitDatabase miner hash
  have nextCounts : (s.commitDatabase miner hash).updateNextCounts =
      { s.commitDatabase miner hash with
        block := s.block
        adminCount := (s.commitCounted miner hash).adminCount
        minerCount := (s.commitCounted miner hash).minerCount } := by
    rw [updateNextCounts, block_commitDatabase]
    change { s.commitCounted miner hash with block := s.block } = _
    rw [consistent.commitCounted_eq miner hash]
  have row := row_commitDatabase s miner hash
  have indexKept : ∀ counted, PermissionFiles.ledgerRowAt
      ⟨(s.commitDatabase miner hash).database,
        (s.commitDatabase miner hash).ledger.setRow s.row counted⟩ (s.row + 1) =
        s.indexRow miner hash := by
    intro counted
    rw [← indexBack]
    simp only [PermissionFiles.ledgerRowAt]
    rw [RowFile.getRow_setRow_of_gt _ _ (Nat.lt_succ_self _)]
  unfold closeBlock
  rw [nextCounts]
  simp only [saveCounts, fillBlockCounts, PermissionFiles.setRowCounts, row,
    Nat.add_sub_cancel, minerBack, memPool_commitDatabase]
  rw [show s.row + 2 - 1 = s.row + 1 by omega, indexKept]
  rfl

theorem commitResult (consistent : Consistent s blocks top) (params : NetworkParams)
    (miner : Address) (hash : Hash) :
    CommitResult s miner hash (s.commit params miner hash) := by
  have closed := consistent.closeBlock_eq miner hash
  obtain ⟨stored, storedEq, storedPending, storedRead⟩ :=
    storeBlockInfo_of_empty params (s := (s.commitDatabase miner hash).closeBlock) miner hash
      (by rw [closed]; simp) (by rw [closed]; rfl)
  have commitEq : s.commit params miner hash =
      { (s.commitDatabase miner hash).closeBlock with
        database := stored
        block := (s.commitDatabase miner hash).closeBlock.block + 1 } := by
    change { (s.commitDatabase miner hash).closeBlock.storeBlockInfo params miner hash false with
      block := ((s.commitDatabase miner hash).closeBlock.storeBlockInfo params miner hash
        false).block + 1 } = _
    rw [storedEq]
  rw [commitEq, closed]
  rw [closed] at storedRead
  exact
    { block := rfl
      row := row_commitDatabase s miner hash
      fork := copiedRow_appendBlockRows s miner hash
      memPool := rfl
      adminCount := rfl
      minerCount := rfl
      clearedAdminCount := rfl
      clearedMinerCount := rfl
      pending := storedPending
      readRow := fun key => by
        simp only [PermissionFiles.readRow]
        rw [storedRead _ (by simp)]
      readList := fun address type => storedRead _ (by simp)
      ledger := rfl }

theorem liveLog_commit (consistent : Consistent s blocks top) (params : NetworkParams)
    (miner : Address) (hash : Hash) :
    (s.commit params miner hash).liveLog =
      s.countedIndexRow miner hash :: s.countedMinerRow miner hash :: s.fullLog := by
  have result := consistent.commitResult params miner hash
  have size := size_commitDatabase miner hash consistent.rows_pos consistent.rows_le
  have log := ledgerLog_commitDatabase miner hash consistent.rows_pos consistent.rows_le
  obtain ⟨below, rowEq⟩ : ∃ below, s.row = below + 1 :=
    ⟨s.row - 1, by have := consistent.rows_pos; omega⟩
  have countEq : (s.commit params miner hash).countLedgerRows - 1 = s.row + 1 := by
    simp [countLedgerRows, result.row, result.memPool]
  have belowLog : ledgerLog (s.commitDatabase miner hash).ledger below = s.fullLog := by
    rw [rowEq] at log
    simp only [ledgerLog] at log
    exact (List.cons.inj (List.cons.inj log).2).2
  have indexRead : (s.commit params miner hash).ledger.getRow (s.row + 1) =
      some (s.countedIndexRow miner hash) := by
    rw [result.ledger, RowFile.getRow_setRow_self]
  have minerRead : (s.commit params miner hash).ledger.getRow (below + 1) =
      some (s.countedMinerRow miner hash) := by
    rw [result.ledger, ← rowEq,
      RowFile.getRow_setRow_of_lt _ _ (Nat.lt_succ_self _)
        (by rw [RowFile.size_setRow]; omega),
      RowFile.getRow_setRow_self]
  have restLog : ledgerLog (s.commit params miner hash).ledger below = s.fullLog := by
    rw [← belowLog]
    refine ledgerLog_congr fun rowID _ inside => ?_
    rw [result.ledger,
      RowFile.getRow_setRow_of_lt _ _ (by omega) (by rw [RowFile.size_setRow, size]; omega),
      RowFile.getRow_setRow_of_lt _ _ (by omega) (by rw [size]; omega)]
  rw [liveLog, countEq, ledgerLog, indexRead]
  conv_lhs => rw [rowEq]
  rw [ledgerLog, minerRead, restLog]
  rfl

@[simp]
theorem rows_commit (consistent : Consistent s blocks top) (params : NetworkParams)
    (miner : Address) (hash : Hash) : (s.commit params miner hash).memPool.rows = [] := by
  rw [(consistent.commitResult params miner hash).memPool]
  simp

theorem fullLog_commit (consistent : Consistent s blocks top) (params : NetworkParams)
    (miner : Address) (hash : Hash) :
    (s.commit params miner hash).fullLog =
      s.countedIndexRow miner hash :: s.countedMinerRow miner hash :: s.fullLog := by
  rw [Permissions.fullLog, consistent.rows_commit, consistent.liveLog_commit]
  rfl

/-- A commit leaves the newest row of every key in the database. -/
theorem database_commit (consistent : Consistent s blocks top) (params : NetworkParams)
    (miner : Address) (hash : Hash) {key : Key} (notZero : key ≠ zeroKey)
    (notAbove : ∀ height, s.block + 1 < height → key ≠ blockIndexKey height) :
    MatchesRow
      (newestOf (s.countedIndexRow miner hash :: s.countedMinerRow miner hash :: s.fullLog) key)
      ((s.commit params miner hash).readRow key) := by
  have result := consistent.commitResult params miner hash
  rw [result.readRow, readRow_commitDatabase _ _ consistent.pending notZero,
    rows_appendBlockRows, List.reverse_append]
  change MatchesRow _ (match newestOf (s.indexRow miner hash :: s.minerRow miner hash ::
    s.memPool.rows.reverse) key with
    | some row => _
    | none => _)
  have ungrantable : ∀ type, type = mcPtpBlockMiner ∨ type = mcPtpBlockIndex →
      type ∉ grantableTypes := by
    rintro type (rfl | rfl) <;> decide
  by_cases isIndex : blockIndexKey (s.block + 1) = key
  · have indexKey : (s.indexRow miner hash).key = key := isIndex
    have countedKey : (s.countedIndexRow miner hash).key = key := isIndex
    simp only [newestOf, List.find?_cons, indexKey, countedKey, decide_true]
    refine ⟨rfl, rfl, rfl, fun grantable => absurd grantable ?_⟩
    exact ungrantable _ (.inr rfl)
  · have indexKey : ¬ (s.indexRow miner hash).key = key := isIndex
    have countedKey : ¬ (s.countedIndexRow miner hash).key = key := isIndex
    by_cases isMiner : blockMinerKey miner = key
    · have minerKey : (s.minerRow miner hash).key = key := isMiner
      have countedMinerKey : (s.countedMinerRow miner hash).key = key := isMiner
      simp only [newestOf, List.find?_cons, indexKey, countedKey, minerKey, countedMinerKey,
        decide_true, decide_false]
      refine ⟨rfl, rfl, rfl, fun grantable => absurd grantable ?_⟩
      exact ungrantable _ (.inl rfl)
    · have minerKey : ¬ (s.minerRow miner hash).key = key := isMiner
      have countedMinerKey : ¬ (s.countedMinerRow miner hash).key = key := isMiner
      simp only [newestOf, List.find?_cons, indexKey, countedKey, minerKey, countedMinerKey,
        decide_false]
      change MatchesRow (newestOf s.fullLog key) (match newestOf s.memPool.rows.reverse key with
        | some row => _
        | none => _)
      rw [Permissions.fullLog, newestOf_append]
      cases newestOf s.memPool.rows.reverse key with
      | some row => exact ⟨rfl, rfl, rfl, fun _ => rfl⟩
      | none =>
          refine consistent.database key notZero ?_
          rintro ⟨height, above, rfl⟩
          by_cases next : height = s.block + 1
          · exact isIndex (by rw [next])
          · exact notAbove height (by omega) rfl

theorem readRow_commit_above (consistent : Consistent s blocks top) (params : NetworkParams)
    (miner : Address) (hash : Hash) {height : Int} (above : s.block + 1 < height) :
    (s.commit params miner hash).readRow (blockIndexKey height) =
      s.readRow (blockIndexKey height) := by
  have result := consistent.commitResult params miner hash
  have notZero : blockIndexKey height ≠ zeroKey := by simp [blockIndexKey, zeroKey]
  have absent : newestOf (s.appendBlockRows miner hash).memPool.rows.reverse
      (blockIndexKey height) = none := by
    rw [newestOf_eq_none]
    intro row member sameKey
    have inRows : row ∈ s.memPool.rows ++ [s.minerRow miner hash, s.indexRow miner hash] := by
      rw [← rows_appendBlockRows]
      exact List.mem_reverse.1 member
    simp only [List.mem_append, List.mem_cons, List.not_mem_nil, or_false] at inRows
    rcases inRows with inPool | rfl | rfl
    · exact consistent.memPool_not_index row inPool (by rw [sameKey]; rfl)
    · cases sameKey
    · have : s.block + 1 = height := RowAddress.blockRow.inj (congrArg Key.address sameKey)
      omega
  rw [result.readRow, readRow_commitDatabase _ _ consistent.pending notZero, absent]

/-- A commit extends the chain by the block of its miner and hash. -/
theorem commit (consistent : Consistent s blocks top) (params : NetworkParams)
    (miner : Address) (hash : Hash) :
    Consistent (s.commit params miner hash) ((miner, hash) :: blocks)
      (max top (s.block + 1)) := by
  have result := consistent.commitResult params miner hash
  have size := size_commitDatabase miner hash consistent.rows_pos consistent.rows_le
  have count : (s.commit params miner hash).memPool.count = 0 := by
    rw [result.memPool]
    rfl
  have countEq : (s.commit params miner hash).countLedgerRows = s.row + 2 := by
    rw [countLedgerRows, count, result.row, Nat.sub_zero]
  have height := consistent.height
  exact
    { fork := result.fork.trans consistent.fork
      pending := result.pending
      rows_pos := by
        rw [count, result.row]
        omega
      rows_le := by
        rw [countEq, result.ledger, RowFile.size_setRow, RowFile.size_setRow, size]
        omega
      linked := by
        rw [consistent.fullLog_commit]
        have linked := consistent.linked_appendBlockRows miner hash
        rw [fullLog_appendBlockRows] at linked
        exact linked
      blockLog := by
        rw [consistent.liveLog_commit]
        refine BlockLog.block
          consistent.blockLog ?_ rfl height ?_ height rfl
        · intro row member
          rw [← height]
          exact consistent.memRows row (List.mem_reverse.1 member)
        · rw [← height]
          rfl
      height := by
        rw [result.block, List.length_cons]
        omega
      top_le := by
        rw [result.block]
        exact le_max_right _ _
      memCoherent := by
        rw [result.memPool]
        exact RowBuffer.coherent_clear _
      memRows := by
        rw [consistent.rows_commit]
        simp
      header := by
        have read : (s.commit params miner hash).ledgerRowAt 0 =
            (s.commitDatabase miner hash).ledgerRowAt 0 := by
          have rowPos := consistent.rows_pos
          simp only [PermissionFiles.ledgerRowAt]
          rw [result.ledger,
            RowFile.getRow_setRow_of_lt _ _ (by omega) (by rw [RowFile.size_setRow]; omega),
            RowFile.getRow_setRow_of_lt _ _ (by omega) (by rw [size]; omega)]
        rw [read, result.block, countEq]
        exact header_commitDatabase s miner hash
      zeroRow := by
        rw [result.readRow, zeroRow_commitDatabase _ _ consistent.zeroRow, result.block, countEq]
      database := by
        intro key notZero notAbove
        rw [consistent.liveLog_commit]
        refine consistent.database_commit params miner hash notZero ?_
        rintro height above rfl
        exact notAbove ⟨height, by rw [result.block]; exact above, rfl⟩
      aboveTip := by
        intro height above
        rw [result.block] at above
        rw [consistent.readRow_commit_above params miner hash above]
        obtain ⟨present, position⟩ := consistent.aboveTip height (by omega)
        refine ⟨present.trans ?_, position⟩
        omega
      listHeader := by
        have := result.readList 0 mcPtpConnect
        rw [adminMinerHeader, this]
        exact consistent.listHeader_commitDatabase miner hash
      listed := by
        intro address type isListed present
        rw [result.readRow] at present
        rw [result.readList]
        exact listed_commitDatabase _ _ consistent.pending isListed
          (consistent.listed address type isListed) present }

end Consistent

end Permissions

end HdacNode
