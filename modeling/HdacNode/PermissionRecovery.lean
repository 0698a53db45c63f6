import HdacNode.PermissionReorg

/-!
# Start after a crash within a commit

A commit rewrites the ledger header before it commits the database.  A process
that stops in between leaves a ledger one block ahead.  The next start scans the
ledger down from the end of the file for the last row of the older height.  The
file is never shortened, so a row left behind by a rollback may stop the scan
too early.
-/

namespace HdacNode

open LinkedRowLog WriteBatch

namespace PermissionFiles

/-- The scan of a start stops at a row of the older height exactly when all rows
behind it belong to later heights. -/
theorem repairWalk_eq_iff (files : PermissionFiles) (block : Int) {kept count : Nat}
    (inside : kept ≤ count)
    (stops : kept ≠ 0 → (files.ledgerRowAt kept).blockReceived ≤ block) :
    files.repairWalk block count = kept ↔
      ∀ rowID, kept < rowID → rowID ≤ count → block < (files.ledgerRowAt rowID).blockReceived := by
  induction count with
  | zero =>
      obtain rfl : kept = 0 := by omega
      exact iff_of_true rfl fun rowID above below => by omega
  | succ count ih =>
      unfold repairWalk
      by_cases atEnd : kept = count + 1
      · subst atEnd
        rw [if_pos (stops (by omega))]
        exact iff_of_true rfl fun rowID above below => by omega
      · split
        · rename_i early
          refine iff_of_false (by omega) fun later => ?_
          have := later (count + 1) (by omega) le_rfl
          omega
        · rename_i isLater
          rw [ih (by omega)]
          constructor
          · intro later rowID above below
            by_cases last : rowID = count + 1
            · subst last
              omega
            · exact later rowID above (by omega)
          · exact fun later rowID above below => later rowID above (by omega)

end PermissionFiles

namespace Permissions

/-- The files of a process that stops between the header write of a commit and
the database commit: the collected batch is lost. -/
def crashFiles (s : Permissions) (miner : Address) (hash : Hash) : PermissionFiles where
  database := { s.database with pending := [] }
  ledger := (s.prepareCommit miner hash).ledger

/-- The next start goes back to the height and row count of the last database
commit, and answers every query as the database did then. -/
def Recovers (s : Permissions) (files : PermissionFiles) : Prop :=
  ∃ recovered pdbRow, initializePermissions files = .ok recovered ∧
    s.readRow zeroKey = some pdbRow ∧
    recovered.block = pdbRow.blockTo ∧ recovered.row = pdbRow.ledgerRow ∧
    ∀ key checkMempool,
      recovered.getPermissionRow key checkMempool = s.getPermissionRow key false

namespace Consistent

variable {s : Permissions} {blocks : List (Address × Hash)} {top : Int}

theorem ledgerLog_commit (consistent : Consistent s blocks top) (miner : Address) (hash : Hash) :
    ledgerLog (s.commitDatabase miner hash).ledger (s.row + 1) =
      (s.indexRow miner hash :: s.minerRow miner hash :: s.memPool.rows.reverse) ++ s.liveLog :=
  ledgerLog_commitDatabase miner hash consistent.rows_pos consistent.rows_le

/-- The committed rows are as they were. -/
theorem ledgerLog_crashFiles (consistent : Consistent s blocks top) (miner : Address)
    (hash : Hash) :
    ledgerLog (s.crashFiles miner hash).ledger (s.countLedgerRows - 1) = s.liveLog := by
  rw [← liveLog_length]
  exact ledgerLog_of_append (consistent.ledgerLog_commit miner hash)

theorem received_crashFiles (consistent : Consistent s blocks top) (miner : Address)
    (hash : Hash) {rowID : Nat} (above : s.countLedgerRows ≤ rowID)
    (below : rowID < s.row + 2) :
    ((s.crashFiles miner hash).ledgerRowAt rowID).blockReceived = s.block + 1 := by
  have positive := consistent.countLedgerRows_pos
  have inside : rowID ≤ s.row + 1 := by omega
  have read := rowAt_ledgerLog (s.commitDatabase miner hash).ledger (positive.trans_le above)
    inside
  rw [consistent.ledgerLog_commit] at read
  have member := mem_of_rowAt_append (by rw [liveLog_length]; omega) read
  simp only [List.mem_cons, List.mem_reverse] at member
  rcases member with isIndex | isMiner | inPool
  · exact congrArg LedgerRow.blockReceived isIndex
  · exact congrArg LedgerRow.blockReceived isMiner
  · exact (consistent.memRows _ inPool).received

theorem ledgerRowAt_crashFiles_of_le (consistent : Consistent s blocks top) (miner : Address)
    (hash : Hash) {rowID : Nat} (behind : s.row + 2 ≤ rowID) :
    (s.crashFiles miner hash).ledgerRowAt rowID = s.ledgerRowAt rowID := by
  have rowsPos := consistent.rows_pos
  have size := size_commitDatabase miner hash consistent.rows_pos consistent.rows_le
  have lengthEq : s.countLedgerRows + (s.appendBlockRows miner hash).memPool.rows.length =
      s.row + 2 := by
    rw [RowBuffer.rows_length, count_appendBlockRows]
    unfold countLedgerRows
    omega
  have rowEq : (s.commitDatabase miner hash).ledger.row rowID = s.ledger.row rowID := by
    change Function.update (s.appendBlockRows miner hash).writeMemPool.row 0 _ rowID = _
    rw [Function.update_of_ne (by omega), writeMemPool_appendBlockRows]
    exact RowFile.writeRows_row_of_le _ _ (by
      change s.countLedgerRows + _ ≤ rowID
      omega)
  have getEq : (s.commitDatabase miner hash).ledger.getRow rowID = s.ledger.getRow rowID := by
    have sizeIff : rowID < max s.ledger.size (s.row + 2) ↔ rowID < s.ledger.size := by omega
    simp only [RowFile.getRow, size, rowEq, sizeIff]
  exact congrArg (Option.getD · .zero) getEq

/-- The scan of the next start ends at the committed rows exactly when no row of
an old height is left behind the interrupted commit. -/
theorem repairWalk_crashFiles_iff (consistent : Consistent s blocks top) (miner : Address)
    (hash : Hash) :
    (s.crashFiles miner hash).repairWalk s.block ((s.crashFiles miner hash).ledger.size - 1) =
        s.countLedgerRows - 1 ↔
      ∀ rowID, s.row + 2 ≤ rowID → rowID < s.ledger.size →
        s.block < (s.ledgerRowAt rowID).blockReceived := by
  have rowsPos := consistent.rows_pos
  have positive := consistent.countLedgerRows_pos
  have countLe : s.countLedgerRows ≤ s.row := Nat.sub_le _ _
  have size : (s.crashFiles miner hash).ledger.size = max s.ledger.size (s.row + 2) :=
    size_commitDatabase miner hash consistent.rows_pos consistent.rows_le
  rw [PermissionFiles.repairWalk_eq_iff _ _ (by omega)]
  · constructor
    · intro later rowID behind inside
      rw [← consistent.ledgerRowAt_crashFiles_of_le miner hash behind]
      exact later rowID (by omega) (by omega)
    · intro later rowID above below
      by_cases written : rowID < s.row + 2
      · rw [consistent.received_crashFiles miner hash (by omega) written]
        omega
      · rw [consistent.ledgerRowAt_crashFiles_of_le miner hash (by omega)]
        exact later rowID (by omega) (by omega)
  · intro nonzero
    have positive : 0 < s.countLedgerRows - 1 := by omega
    have read := rowAt_ledgerLog (s.crashFiles miner hash).ledger positive le_rfl
    rw [consistent.ledgerLog_crashFiles miner hash] at read
    have received := consistent.blockLog.received_lt _ (mem_of_rowAt read)
    have height := consistent.height
    change ((s.crashFiles miner hash).ledgerRowAt _).blockReceived < _ at received
    omega

theorem database_crashFiles (consistent : Consistent s blocks top) (miner : Address)
    (hash : Hash) : (s.crashFiles miner hash).database = s.database := by
  have noPending := consistent.pending
  unfold crashFiles
  cases databaseEq : s.database with
  | mk committed pending =>
      rw [databaseEq] at noPending
      exact congrArg (Store.mk committed) noPending.symm

theorem open_crashFiles (consistent : Consistent s blocks top) (miner : Address)
    (hash : Hash) :
    openDatabase (s.crashFiles miner hash).database = s.database ∧
      openLedger (s.crashFiles miner hash).ledger = (s.crashFiles miner hash).ledger := by
  have database := consistent.database_crashFiles miner hash
  constructor
  · rw [database]
    have zeroRow := consistent.zeroRow
    unfold PermissionFiles.readRow at zeroRow
    unfold openDatabase
    split
    · rfl
    · rename_i absent
      rw [absent] at zeroRow
      cases zeroRow
  · have header : (s.crashFiles miner hash).ledger.getRow 0 = some _ :=
      RowFile.getRow_setRow_self _ 0 _
    unfold openLedger
    rw [header]

/-- The start after a crash goes on only when the scan ends at the committed
rows. -/
theorem initialize_crashFiles (consistent : Consistent s blocks top) (miner : Address)
    (hash : Hash) :
    initializePermissions (s.crashFiles miner hash) =
      if (s.crashFiles miner hash).repairWalk s.block
          ((s.crashFiles miner hash).ledger.size - 1) = s.countLedgerRows - 1 then
        (openStore ((s.crashFiles miner hash).setHeader s.block s.countLedgerRows) s.block
          s.countLedgerRows).fillLastCounts
      else .error .corrupted := by
  obtain ⟨openedDatabase, openedLedger⟩ := consistent.open_crashFiles miner hash
  have database := consistent.database_crashFiles miner hash
  have opened : (⟨s.database, (s.crashFiles miner hash).ledger⟩ : PermissionFiles) =
      s.crashFiles miner hash := by
    rw [← database]
  have zeroRow : (s.crashFiles miner hash).readRow zeroKey =
      some ⟨0, s.block, s.countLedgerRows, 0⟩ := by
    rw [← consistent.zeroRow]
    simp only [PermissionFiles.readRow, database]
  have header := (header_commitDatabase s miner hash).1
  have ahead : s.block < ((s.crashFiles miner hash).ledgerRowAt 0).blockTo := by
    change s.block < ((s.commitDatabase miner hash).ledgerRowAt 0).blockTo
    omega
  have positive := consistent.countLedgerRows_pos
  have size : (s.crashFiles miner hash).ledger.size = max s.ledger.size (s.row + 2) :=
    size_commitDatabase miner hash consistent.rows_pos consistent.rows_le
  have countLe : s.countLedgerRows ≤ s.row := Nat.sub_le _ _
  unfold initializePermissions
  simp only [openedDatabase, openedLedger, opened, zeroRow, Option.getD_some, repairHeader, if_pos ahead]
  generalize (s.crashFiles miner hash).repairWalk s.block
    ((s.crashFiles miner hash).ledger.size - 1) = walked
  have repaired : ((s.crashFiles miner hash).setHeader s.block (walked + 1)).ledgerRowAt 0 =
      { (s.crashFiles miner hash).ledgerRowAt 0 with
        blockTo := s.block, prevRow := walked + 1 } := by
    simp only [PermissionFiles.ledgerRowAt, PermissionFiles.setHeader,
      RowFile.getRow_setRow_self, Option.getD_some]
  simp only [repaired, ne_eq, not_true_eq_false, if_false]
  by_cases found : walked = s.countLedgerRows - 1
  · have place : s.countLedgerRows = walked + 1 := by omega
    rw [if_pos found, if_neg (not_not.2 place), if_neg (by omega), ← place]
  · rw [if_neg found, if_pos (by omega)]

private theorem getPermissionRow_of_database (consistent : Consistent s blocks top)
    {recovered : Permissions} (fork : recovered.copiedRow = 0)
    (noRows : recovered.memPool.count = 0) (database : recovered.database = s.database)
    (upgrades : ∀ row ∈ s.liveLog, row.key.entity = .upgrade →
      recovered.ledgerRowAt row.thisRow = row) (key : Key) (checkMempool : Bool) :
    recovered.getPermissionRow key checkMempool = s.getPermissionRow key false := by
  have sameRow : recovered.readRow key = s.readRow key := by
    simp only [PermissionFiles.readRow, database]
  have sameDatabaseRow := consistent.databaseRow_eq fork sameRow upgrades
  unfold getPermissionRow
  rw [sameDatabaseRow, noRows]
  cases checkMempool <;> rfl

private theorem fillLastCounts_openStore (consistent : Consistent s blocks top)
    {files : PermissionFiles} (database : files.database = s.database)
    (inside : s.countLedgerRows ≤ files.ledger.size)
    (kept : ∀ row ∈ s.liveLog, files.ledgerRowAt row.thisRow = row) :
    ∃ recovered,
      (openStore files s.block s.countLedgerRows).fillLastCounts = .ok recovered ∧
      recovered.block = s.block ∧ recovered.row = s.countLedgerRows ∧
      ∀ key checkMempool,
        recovered.getPermissionRow key checkMempool = s.getPermissionRow key false := by
  let base : Permissions :=
    { Permissions.zero with
      toPermissionFiles := files, block := s.block, row := s.countLedgerRows }
  have present : base.database.read adminMinerHeader ≠ none := by
    change files.database.read adminMinerHeader ≠ none
    rw [database]
    exact consistent.listHeader
  have same : SameStore base (openStore files s.block s.countLedgerRows) := by
    change SameStore base base.updateCounts.saveCounts
    rw [updateCounts_eq present]
    exact ⟨rfl, rfl, rfl, rfl, rfl, rfl⟩
  generalize openStore files s.block s.countLedgerRows = opened at same ⊢
  have row : opened.row = s.countLedgerRows := same.row
  have block : opened.block = s.block := same.block
  have noRows : opened.memPool.count = 0 := by
    rw [same.memPool]
    rfl
  unfold fillLastCounts
  rw [row]
  by_cases fresh : s.countLedgerRows - 1 = 0
  · rw [if_pos fresh]
    refine ⟨opened, rfl, block, row, ?_⟩
    refine consistent.getPermissionRow_of_database same.fork noRows ?_ ?_
    · rw [same.files]
      exact database
    · intro row inLog _
      rw [same.files]
      exact kept row inLog
  · have nonempty : s.liveLog ≠ [] := by
      intro empty
      have := liveLog_length s
      rw [empty, List.length_nil] at this
      omega
    obtain ⟨indexRow, minerRow, rest, miner, log, indexKey, minerKey⟩ :=
      consistent.blockLog.exists_block_rows nonempty
    have linked := consistent.liveLinked
    have lengthEq := liveLog_length s
    rw [log] at linked lengthEq
    simp only [List.length_cons] at lengthEq
    have indexPlace : indexRow.thisRow = rest.length + 1 + 1 := linked.1
    have minerPlace : minerRow.thisRow = rest.length + 1 := linked.2.2.1
    have indexKept := kept indexRow (by simp [log])
    have minerKept := kept minerRow (by simp [log])
    have height := consistent.height
    have lastAddress : ¬ (opened.ledgerRowAt (s.countLedgerRows - 1)).key.address ≠
        .blockRow opened.block := by
      have place : s.countLedgerRows - 1 = indexRow.thisRow := by omega
      have blockEq : (blocks.length : Int) - 1 = s.block := by omega
      rw [place, same.files, block]
      change ¬ (files.ledgerRowAt indexRow.thisRow).key.address ≠ _
      rw [indexKept, indexKey, blockEq]
      exact not_not.2 rfl
    rw [if_neg fresh, if_neg lastAddress]
    refine ⟨_, rfl, block, rfl, ?_⟩
    refine consistent.getPermissionRow_of_database same.fork noRows ?_ ?_
    · change opened.database = _
      rw [same.files]
      exact database
    · -- the rows of upgrades are not the two that get their counts
      intro row inLog upgrade
      have notIndex : row.thisRow ≠ indexRow.thisRow := by
        intro samePlace
        have sameRow : row = indexRow := by rw [← kept row inLog, samePlace, indexKept]
        rw [sameRow, indexKey] at upgrade
        cases upgrade
      have notMiner : row.thisRow ≠ minerRow.thisRow := by
        intro samePlace
        have sameRow : row = minerRow := by rw [← kept row inLog, samePlace, minerKept]
        rw [sameRow, minerKey] at upgrade
        cases upgrade
      have place : row.thisRow ≤ s.countLedgerRows - 1 := by
        have := consistent.liveLinked.thisRow_le_length inLog
        rw [liveLog_length] at this
        exact this
      have positive := consistent.countLedgerRows_pos
      have keptRow := kept row inLog
      unfold PermissionFiles.ledgerRowAt at keptRow
      simp only [PermissionFiles.ledgerRowAt, PermissionFiles.setRowCounts]
      rw [RowFile.getRow_setRow_of_ne _ _ (by omega)
          (by rw [RowFile.size_setRow, same.files]; change row.thisRow < max files.ledger.size _; omega),
        RowFile.getRow_setRow_of_ne _ _ (by omega)
          (by rw [same.files]; change row.thisRow < files.ledger.size; omega), same.files]
      exact keptRow

/-- The start after a crash recovers exactly when no row of an old height is left
behind the interrupted commit. -/
theorem recovers_crashFiles_iff (consistent : Consistent s blocks top) (miner : Address)
    (hash : Hash) :
    Recovers s (s.crashFiles miner hash) ↔
      ∀ rowID, s.row + 2 ≤ rowID → rowID < s.ledger.size →
        s.block < (s.ledgerRowAt rowID).blockReceived := by
  rw [← consistent.repairWalk_crashFiles_iff miner hash]
  have started := consistent.initialize_crashFiles miner hash
  constructor
  · rintro ⟨recovered, pdbRow, success, -⟩
    by_contra missed
    rw [started, if_neg missed] at success
    cases success
  · intro found
    rw [if_pos found] at started
    have size : (s.crashFiles miner hash).ledger.size = max s.ledger.size (s.row + 2) :=
      size_commitDatabase miner hash consistent.rows_pos consistent.rows_le
    have rowsLe := consistent.rows_le
    let repaired := (s.crashFiles miner hash).setHeader s.block s.countLedgerRows
    have database : repaired.database = s.database := consistent.database_crashFiles miner hash
    have inside : s.countLedgerRows ≤ repaired.ledger.size := by
      change _ ≤ max (s.crashFiles miner hash).ledger.size _
      omega
    have kept : ∀ row ∈ s.liveLog, repaired.ledgerRowAt row.thisRow = row := by
      intro row inLog
      have linked := consistent.liveLinked
      have log := consistent.ledgerLog_crashFiles miner hash
      rw [← log] at linked
      have stored := ledgerRowAt_thisRow linked
      rw [log] at stored
      have positive : 0 < row.thisRow := consistent.liveLinked.thisRow_pos inLog
      have storedRow := stored row inLog
      unfold PermissionFiles.ledgerRowAt at storedRow ⊢
      change (RowFile.getRow (RowFile.setRow _ 0 _) row.thisRow).getD .zero = row
      rw [RowFile.getRow_setRow_of_gt _ _ positive]
      exact storedRow
    obtain ⟨recovered, success, block, row, answers⟩ :=
      consistent.fillLastCounts_openStore database inside kept
    exact ⟨recovered, _, started.trans success, consistent.zeroRow, block, row, answers⟩

end Consistent

end Permissions

namespace PermissionRun

/-- After every run, the start after a crash within the next commit recovers
exactly when every row left behind that commit in the ledger file belongs to a
later height than the chain. -/
theorem recovers_iff (params : NetworkParams) (calls : List PermissionCall)
    (follows : Follows params Allows start calls) (miner : Address) (hash : Hash) :
    (start.after params calls).store.Recovers
        ((start.after params calls).store.crashFiles miner hash) ↔
      ∀ rowID, (start.after params calls).store.row + 2 ≤ rowID →
        rowID < (start.after params calls).store.ledger.size →
        (start.after params calls).store.block <
          ((start.after params calls).store.ledgerRowAt rowID).blockReceived :=
  (sound_start.after follows).consistent.recovers_crashFiles_iff miner hash

/-- A grant of chain permissions by one address. -/
def chainGrant (admin address : Address) (type : Nat) : PermissionCall :=
  .setPermission
    { entity := .null
      address := address
      type := type
      admin := admin
      blockFrom := 0
      blockTo := 1000
      timestamp := 1
      flags := 0
      updateMempool := true
      offset := 0 }

/-- A second block with three grants is replaced by one without any. -/
def replacedBlock : List PermissionCall :=
  [chainGrant 7 7 mcPtpAdmin, .commit 7 1,
    chainGrant 7 8 (mcPtpConnect ||| mcPtpSend ||| mcPtpReceive), .commit 7 2,
    .rollBack 0, .commit 7 3]

theorem follows_replacedBlock : Follows Permissions.unanimous Allows start replacedBlock :=
  ⟨trivial, trivial, trivial, trivial, ⟨by decide +kernel, by decide +kernel⟩, trivial, trivial⟩

/-- The last row of the replaced block stops the scan, and the start fails. -/
theorem replacedBlock_not_recovers :
    ¬ (start.after Permissions.unanimous replacedBlock).store.Recovers
      ((start.after Permissions.unanimous replacedBlock).store.crashFiles 7 4) := by
  rintro ⟨recovered, pdbRow, success, -⟩
  have failed : (Permissions.initializePermissions
      ((start.after Permissions.unanimous replacedBlock).store.crashFiles 7 4)).toOption.isNone =
        true := by decide +kernel
  rw [success] at failed
  cases failed

theorem recovers_iff_replacedBlock :
    (start.after Permissions.unanimous replacedBlock).store.Recovers
        ((start.after Permissions.unanimous replacedBlock).store.crashFiles 7 4) ↔
      ∀ rowID, (start.after Permissions.unanimous replacedBlock).store.row + 2 ≤ rowID →
        rowID < (start.after Permissions.unanimous replacedBlock).store.ledger.size →
        (start.after Permissions.unanimous replacedBlock).store.block <
          ((start.after Permissions.unanimous replacedBlock).store.ledgerRowAt
            rowID).blockReceived :=
  recovers_iff Permissions.unanimous replacedBlock follows_replacedBlock 7 4

end PermissionRun

end HdacNode
