import HdacNode.PermissionGrants

/-!
# Commit, rollback and start of the permission store

`Commit` closes the open block: it appends a row for the miner and one for the
height, writes the memory pool to the ledger file, the newest row of every key
to the database batch, then the ledger header, and last commits the batch.
`RollBack` walks the ledger back and restores every key from the previous row
its newest row links to.  `Initialize` compares the two files and repairs a
ledger that is one commit ahead of the database.
-/

namespace HdacNode

open WriteBatch

/-- The database write of a row that becomes the newest of its key. -/
def putRowWrite (row : LedgerRow) : Write DBKey DBValue :=
  ⟨.permission row.key, some (.row ⟨row.blockFrom, row.blockTo, row.thisRow, row.flags⟩)⟩

/-- The list entry of an address with an admin or mine row. -/
def listWrite (entry : Address × Nat) : Write DBKey DBValue :=
  ⟨.adminMiner entry.1 entry.2, some (.row .zero)⟩

/-- The database writes of `CommitInternal` for one memory pool row. -/
def commitWrites (row : LedgerRow) : List (Write DBKey DBValue) :=
  putRowWrite row :: ((Permissions.adminMinerOfKey (.permission row.key)).map listWrite).toList

namespace PermissionFiles

/-- The write of the zero row; its flags are kept. -/
def zeroRowWrite (files : PermissionFiles) (block : Int) (row : Nat) :
    Write DBKey DBValue :=
  let pdbRow := (files.readRow zeroKey).getD .zero
  ⟨.permission zeroKey, some (.row { pdbRow with blockTo := block, ledgerRow := row })⟩

/-- Rewrite the header row of the ledger. -/
def setHeader (files : PermissionFiles) (block : Int) (row : Nat) : PermissionFiles :=
  { files with
    ledger := files.ledger.setRow 0
      { files.ledgerRowAt 0 with blockTo := block, prevRow := row } }

/-- Fill the counts into a block row. -/
def setRowCounts (files : PermissionFiles) (rowID adminCount minerCount : Nat) :
    PermissionFiles :=
  { files with
    ledger := files.ledger.setRow rowID
      ((files.ledgerRowAt rowID).withCounts adminCount minerCount) }

/-- The database write of `RollBackInternal` for one ledger row: back to the
previous row of the key, or away with the key. -/
def undoWrite (files : PermissionFiles) (row : LedgerRow) : Write DBKey DBValue :=
  if row.prevRow = 0 then ⟨.permission row.key, none⟩
  else
    let prev := files.ledgerRowAt row.prevRow
    ⟨.permission row.key,
      some (.row ⟨prev.blockFrom, prev.blockTo, row.prevRow, prev.flags⟩)⟩

/-- The walk of `RollBackInternal` down the ledger: the writes it collects and
the row it stops at. -/
def rollBackWalk (files : PermissionFiles) (block : Int) :
    Nat → List (Write DBKey DBValue) × Nat
  | 0 => ([], 0)
  | below + 1 =>
      let row := files.ledgerRowAt (below + 1)
      if block < row.blockReceived then
        let (writes, thisRow) := rollBackWalk files block below
        (files.undoWrite row :: writes, thisRow)
      else ([], below + 1)

/-- The scan of `Initialize` for the last row that the database knows. -/
def repairWalk (files : PermissionFiles) (block : Int) : Nat → Nat
  | 0 => 0
  | below + 1 =>
      if (files.ledgerRowAt (below + 1)).blockReceived ≤ block then below + 1
      else repairWalk files block below

end PermissionFiles

namespace Permissions

/-- The rows after a memory pool row with the same key, up to the next one in
consensus. -/
def nextInConsensus (s : Permissions) (key : Key) : Nat → Nat → LedgerRow → LedgerRow
  | 0, _, next => next
  | fuel + 1, prevRow, next =>
      match s.memPool.seek memPoolKey ⟨key, prevRow⟩ with
      | some mprow =>
          let next := s.memPool.getRow mprow
          if next.consensus ≠ 0 then next
          else nextInConsensus s key fuel next.thisRow next
      | none => next

/-- Whether `CalculateBlockFlags` finds a change of governance in a row. -/
def changesGovernance (s : Permissions) (row : LedgerRow) : Bool :=
  if row.key.type &&& (mcPtpAdmin ||| mcPtpMine) ≠ 0 ∧ row.key.entity = .null ∧
      0 < row.consensus then
    let next := s.nextInConsensus row.key s.memPool.count row.thisRow row
    if next.consensus = 0 ∨ next.thisRow = row.thisRow then
      let last := s.getPermissionRow row.key false
      if last.thisRow ≠ 0 then
        (row.blockFrom ≠ last.blockFrom ∧
          (s.block + 1 < row.blockFrom ∨ s.block + 1 < last.blockFrom)) ∨
        (row.blockTo ≠ last.blockTo ∧
          (s.block + 1 < row.blockTo ∨ s.block + 1 < last.blockTo))
      else row.blockFrom < row.blockTo ∧ s.block + 1 < row.blockTo
    else false
  else false

/-- `CalculateBlockFlags`. -/
def calculateBlockFlags (s : Permissions) : Nat :=
  if s.memPool.rows.any s.changesGovernance then mcPfbGovernanceChange else mcPfbNone

/-- What the two block rows of a commit share. -/
def newBlockRow (s : Permissions) (key : Key) (prevRow : Nat) (hash : Hash)
    (blockFlags : Nat) : LedgerRow :=
  { LedgerRow.zero with
    key := key
    prevRow := prevRow
    blockFrom := s.block + 1
    blockTo := s.block + 1
    blockReceived := s.block + 1
    commitHash := hash
    thisRow := s.row
    offset := blockFlags }

/-- Append the miner row and the height row. -/
def appendBlockRows (s : Permissions) (miner : Address) (hash : Hash) : Permissions :=
  let last := s.getPermissionRow (blockMinerKey miner) true
  let blockFlags := (last.blockFlags.toNat &&& mcPfbMinedBefore) ||| s.calculateBlockFlags
  let s := s.appendRow (s.newBlockRow (blockMinerKey miner) last.thisRow hash blockFlags)
  s.appendRow (s.newBlockRow (blockIndexKey (s.block + 1)) (s.row - s.memPool.count - 1)
    hash blockFlags)

/-- Write the rows of the memory pool behind the ledger rows. -/
def writeMemPool (s : Permissions) : RowFile LedgerRow :=
  match s.memPool.rows with
  | [] => s.ledger
  | row :: rows => (s.ledger.setRow (s.row - s.memPool.count) row).writeRows rows

/-- `CommitInternal` up to the database commit. -/
def prepareCommit (s : Permissions) (miner : Address) (hash : Hash) : Permissions :=
  let s := s.appendBlockRows miner hash
  let database := (s.memPool.rows.flatMap commitWrites).foldl Store.write s.database
  let database := database.write (s.zeroRowWrite (s.block + 1) s.row)
  let files : PermissionFiles := { database := database, ledger := s.writeMemPool }
  { s with toPermissionFiles := files.setHeader (s.block + 1) s.row }

/-- `CommitInternal` up to and with the database commit. -/
def commitDatabase (s : Permissions) (miner : Address) (hash : Hash) : Permissions :=
  let s := s.prepareCommit miner hash
  { s with database := s.database.commit }

/-- The counts the next grants of the memory pool start from. -/
def saveCounts (s : Permissions) : Permissions :=
  { s with
    clearedAdminCount := s.adminCount
    clearedMinerCount := s.minerCount
    clearedMinerCountForMinerVerification := s.minerCount }

/-- `UpdateCounts` as of the next height. -/
def updateNextCounts (s : Permissions) : Permissions :=
  { updateCounts { s with block := s.block + 1 } with block := s.block }

/-- What `StoreBlockInfoInternal` keeps between the rows of its loop. -/
structure GrantJournal where
  writes : List (Write DBKey DBValue)
  items : Nat
  lastOffset : Int
  recordID : Nat
  offsets : List Int

/-- The record of the offsets collected so far. -/
def GrantJournal.record (journal : GrantJournal) (hash : Hash) : Write DBKey DBValue :=
  ⟨.adminMinerGrant hash journal.recordID, some (.adminMinerGrant journal.offsets)⟩

/-- One memory pool row in the loop of `StoreBlockInfoInternal`. -/
def journalRow (s : Permissions) (hash : Hash) (journal : GrantJournal)
    (row : LedgerRow) : GrantJournal :=
  match adminMinerOfKey (.permission row.key) with
  | none => journal
  | some entry =>
      if row.blockReceived ≠ s.block + 1 then journal
      else
        let journal := { journal with writes := journal.writes ++ [listWrite entry] }
        if row.offset = journal.lastOffset then journal
        else
          let journal :=
            if 0 < journal.items ∧ journal.items % mcPlsSizeOffsetsPerRow = 0 then
              { journal with
                writes := journal.writes ++ [journal.record hash]
                offsets := List.replicate mcPlsSizeOffsetsPerRow 0 }
            else journal
          { journal with
            recordID := journal.items / mcPlsSizeOffsetsPerRow + 1
            offsets := journal.offsets.set (journal.items % mcPlsSizeOffsetsPerRow) row.offset
            lastOffset := row.offset
            items := journal.items + 1 }

/-- The packed counts of a block record, zero when they do not fit. -/
def adminMinerCount (s : Permissions) : Nat :=
  if s.adminCount ≤ 0xffff ∧ s.minerCount ≤ 0xffff then
    toUInt32 (s.adminCount * 2 ^ 16 + s.minerCount)
  else 0

/-- `StoreBlockInfoInternal`. -/
def storeBlockInfo (params : NetworkParams) (s : Permissions) (miner : Address)
    (hash : Hash) (updateCounts : Bool) : Permissions :=
  if params.supportMinerPrecheck = false ∨ params.anyoneCanMine = true then s
  else
    let journal := s.memPool.rows.foldl (s.journalRow hash)
      ⟨[], 0, 0, 0, List.replicate mcPlsSizeOffsetsPerRow 0⟩
    let writes :=
      if 0 < journal.items then journal.writes ++ [journal.record hash] else journal.writes
    let s := { s with database := (writes.foldl Store.write s.database).commit }
    let s :=
      if updateCounts then
        let s := s.updateNextCounts
        { s with clearedMinerCountForMinerVerification := s.minerCount }
      else s
    { s with
      database := s.database.writeNow
        ⟨.blockMiner hash, some (.blockMiner miner s.adminMinerCount)⟩ }

/-- Fill the counts into the two block rows of the block just committed. -/
def fillBlockCounts (s : Permissions) : Permissions :=
  let adminCount := toUInt32 s.adminCount
  let minerCount := toUInt32 s.minerCount
  { s with
    toPermissionFiles :=
      (s.toPermissionFiles.setRowCounts (s.row - 2) adminCount minerCount).setRowCounts
        (s.row - 1) adminCount minerCount }

/-- The part of `CommitInternal` after the database commit: the counts of the
new height, in memory and in the block rows, and an empty memory pool. -/
def closeBlock (s : Permissions) : Permissions :=
  { s.updateNextCounts.saveCounts.fillBlockCounts with memPool := s.memPool.clear }

/-- `CommitInternal`. -/
def commit (params : NetworkParams) (s : Permissions) (miner : Address) (hash : Hash) :
    Permissions :=
  let s := s.commitDatabase miner hash
  let s := s.closeBlock.storeBlockInfo params miner hash false
  { s with block := s.block + 1 }

/-- The files after the ledger walk of `RollBackInternal`. -/
def undoFiles (s : Permissions) (block : Int) (writes : List (Write DBKey DBValue))
    (thisRow : Nat) : PermissionFiles :=
  let database := writes.foldl Store.write s.database
  let files : PermissionFiles :=
    { database := (database.write (s.zeroRowWrite block thisRow)).commit
      ledger := s.ledger }
  files.setHeader block thisRow

/-- The part of `RollBackInternal` after the memory pool was cleared. -/
def undoBlocks (s : Permissions) (block : Int) : Permissions :=
  let (writes, lastRow) := s.rollBackWalk block (s.row - 1)
  let s := updateCounts
    { s with
      toPermissionFiles := s.undoFiles block writes (lastRow + 1)
      block := block
      row := lastRow + 1 }
  { s with
    clearedAdminCount := s.adminCount
    clearedMinerCount := s.minerCount }

/-- `RollBackInternal`. -/
def rollBack (s : Permissions) (block : Int) : Permissions :=
  s.clearMemPool.undoBlocks block

/-- The zero row of a new database is written at once. -/
def openDatabase (database : Store DBKey DBValue) : Store DBKey DBValue :=
  match database.read (.permission zeroKey) with
  | some _ => database
  | none => database.writeNow ⟨.permission zeroKey, some (.row { DBRow.zero with
      blockTo := -1
      ledgerRow := 1 })⟩

/-- The header row of a new ledger file is written at once. -/
def openLedger (ledger : RowFile LedgerRow) : RowFile LedgerRow :=
  match ledger.getRow 0 with
  | some _ => ledger
  | none => ledger.setRow 0 { LedgerRow.zero with blockTo := -1, prevRow := 1 }

/-- The repair of `Initialize`: a ledger ahead of the database gets the header of
the last row that the database knows. -/
def repairHeader (files : PermissionFiles) (pdbBlock : Int) : PermissionFiles :=
  if pdbBlock < (files.ledgerRowAt 0).blockTo then
    files.setHeader pdbBlock (files.repairWalk pdbBlock (files.ledger.size - 1) + 1)
  else files

/-- The store `Initialize` has once the files agree, with its counts. -/
def openStore (files : PermissionFiles) (block : Int) (row : Nat) : Permissions :=
  (updateCounts
    { Permissions.zero with toPermissionFiles := files, block := block, row := row }).saveCounts

/-- The last step of `Initialize`: after a crash the last block rows may still
lack their counts. -/
def fillLastCounts (s : Permissions) : Except McError Permissions :=
  if s.row - 1 = 0 then .ok s
  else if (s.ledgerRowAt (s.row - 1)).key.address ≠ .blockRow s.block then
    .error .dbOpenError
  else
    let adminCount := toUInt32 s.adminCount
    let minerCount := toUInt32 s.minerCount
    .ok { s with
      toPermissionFiles :=
        (s.toPermissionFiles.setRowCounts (s.row - 1) adminCount minerCount).setRowCounts
          (s.row - 2) adminCount minerCount }

/-- `Initialize` on the files it finds. -/
def initializePermissions (files : PermissionFiles) : Except McError Permissions :=
  let files : PermissionFiles :=
    { database := openDatabase files.database, ledger := openLedger files.ledger }
  let pdbRow := (files.readRow zeroKey).getD .zero
  let ledgerSize := files.ledger.size
  let files := repairHeader files pdbRow.blockTo
  let pldRow := files.ledgerRowAt 0
  if pdbRow.blockTo ≠ pldRow.blockTo then .error .corrupted
  else if pdbRow.ledgerRow ≠ pldRow.prevRow then .error .corrupted
  else if ledgerSize < pldRow.prevRow then .error .corrupted
  else (openStore files pdbRow.blockTo pdbRow.ledgerRow).fillLastCounts

end Permissions

end HdacNode
