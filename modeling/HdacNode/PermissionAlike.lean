import HdacNode.PermissionForks
import HdacNode.PermissionCounts

/-!
# Permission stores that answer alike

Two stores are alike when they agree on the ledger, on every permission row of the
database, on the live rows of the memory pool and on the counts.  What lies behind the live
rows and the lists kept for recounts may differ.  Alike stores answer every query alike, and
every call keeps them alike.
-/

namespace HdacNode

open LinkedRowLog WriteBatch

namespace Permissions

/-- Two stores that no later call tells apart. -/
structure Alike (s other : Permissions) : Prop where
  ledger : other.ledger = s.ledger
  readRow : ∀ key, other.readRow key = s.readRow key
  rows : other.memPool.rows = s.memPool.rows
  block : other.block = s.block
  row : other.row = s.row
  adminCount : other.adminCount = s.adminCount
  minerCount : other.minerCount = s.minerCount
  clearedAdminCount : other.clearedAdminCount = s.clearedAdminCount
  clearedMinerCount : other.clearedMinerCount = s.clearedMinerCount

/-- Two consistent stores that are alike. -/
structure AlikeStores (s other : Permissions) (blocks : List (Address × Hash)) (top : Int) :
    Prop extends Alike s other where
  consistent : Consistent s blocks top
  otherConsistent : Consistent other blocks top

namespace AlikeStores

variable {s other : Permissions} {blocks : List (Address × Hash)} {top : Int}

theorem count (alike : AlikeStores s other blocks top) :
    other.memPool.count = s.memPool.count :=
  RowBuffer.count_congr alike.rows

theorem ledgerRowAt (alike : AlikeStores s other blocks top) (rowID : Nat) :
    other.ledgerRowAt rowID = s.ledgerRowAt rowID := by
  simp only [PermissionFiles.ledgerRowAt, alike.ledger]

theorem countLedgerRows (alike : AlikeStores s other blocks top) :
    other.countLedgerRows = s.countLedgerRows := by
  simp only [Permissions.countLedgerRows, alike.row, alike.count]

theorem liveLog (alike : AlikeStores s other blocks top) : other.liveLog = s.liveLog := by
  simp only [Permissions.liveLog, alike.countLedgerRows, alike.ledger]

theorem fullLog (alike : AlikeStores s other blocks top) : other.fullLog = s.fullLog := by
  simp only [Permissions.fullLog, alike.liveLog, alike.rows]

section Queries

private theorem seek (alike : AlikeStores s other blocks top) (key : MemPoolKey) :
    other.memPool.seek memPoolKey key = s.memPool.seek memPoolKey key :=
  RowBuffer.seek_congr alike.otherConsistent.memCoherent alike.consistent.memCoherent
    alike.rows key

private theorem getRow (alike : AlikeStores s other blocks top) {rowID : Nat}
    (live : rowID < s.memPool.count) : other.memPool.getRow rowID = s.memPool.getRow rowID :=
  RowBuffer.getRow_congr alike.rows (by rw [alike.count]; exact live)

private theorem getRow_of_seek (alike : AlikeStores s other blocks top) {key : MemPoolKey}
    {rowID : Nat} (found : s.memPool.seek memPoolKey key = some rowID) :
    other.memPool.getRow rowID = s.memPool.getRow rowID :=
  alike.getRow (RowBuffer.keyOf_getRow_of_seek found alike.consistent.memCoherent).1

private theorem seekMemPool (alike : AlikeStores s other blocks top) (key : Key) (fuel : Nat) :
    ∀ prevRow row, other.seekMemPool key fuel prevRow row = s.seekMemPool key fuel prevRow row := by
  induction fuel with
  | zero => intro prevRow row; rfl
  | succ fuel ih =>
      intro prevRow row
      unfold Permissions.seekMemPool
      rw [alike.seek]
      cases found : s.memPool.seek memPoolKey ⟨key, prevRow⟩ with
      | none => rfl
      | some rowID =>
          dsimp only
          rw [alike.getRow_of_seek found, ih]

private theorem databaseRow (alike : AlikeStores s other blocks top) (key : Key) :
    other.databaseRow key = s.databaseRow key := by
  have noFork : s.forkChecked key.type = false := by
    simp [forkChecked, alike.consistent.fork]
  have otherNoFork : other.forkChecked key.type = false := by
    simp [forkChecked, alike.otherConsistent.fork]
  simp only [Permissions.databaseRow, loadRow, alike.readRow, alike.ledgerRowAt, noFork,
    otherNoFork, Bool.false_eq_true, if_false]

theorem getPermissionRow (alike : AlikeStores s other blocks top) (key : Key)
    (checkMempool : Bool) :
    other.getPermissionRow key checkMempool = s.getPermissionRow key checkMempool := by
  simp only [Permissions.getPermissionRow, alike.databaseRow, alike.seekMemPool, alike.count]

theorem getPermission (alike : AlikeStores s other blocks top) (key : Key)
    (checkMempool : Bool) :
    other.getPermission key checkMempool = s.getPermission key checkMempool := by
  simp only [Permissions.getPermission, alike.getPermissionRow, alike.block]

theorem canMine (alike : AlikeStores s other blocks top) (params : NetworkParams)
    (entity : Entity) (address : Address) :
    other.canMine params entity address = s.canMine params entity address := by
  simp only [Permissions.canMine, alike.getPermission, alike.getPermissionRow, alike.block,
    alike.clearedMinerCount]

private theorem canAdmin (alike : AlikeStores s other blocks top) (params : NetworkParams)
    (entity : Entity) (address : Address) :
    other.canAdmin params entity address = s.canAdmin params entity address := by
  simp only [Permissions.canAdmin, alike.getPermission, alike.block]

private theorem canActivate (alike : AlikeStores s other blocks top) (params : NetworkParams)
    (entity : Entity) (address : Address) :
    other.canActivate params entity address = s.canActivate params entity address := by
  simp only [Permissions.canActivate, alike.getPermission, alike.canAdmin]

private theorem isApproved (alike : AlikeStores s other blocks top) (address : Address) :
    other.isApproved address = s.isApproved address := by
  simp only [Permissions.isApproved, alike.getPermissionRow]

end Queries

section Consensus

theorem prevRow_lt (consistent : Consistent s blocks top) {row : LedgerRow}
    (member : row ∈ s.fullLog) : row.prevRow < s.row := by
  have below := consistent.linked.prevRow_lt_newest member
  have bound : ledgerShape.newest s.fullLog (ledgerShape.keyOf row) ≤ s.fullLog.length :=
    newest_le_length _ _
  have length := fullLog_length consistent.rows_pos
  have positive := consistent.rows_pos
  change row.prevRow < _ at below
  omega

private theorem readPrevRow_mem (consistent : Consistent s blocks top) {newRow row : LedgerRow}
    {prevRow : Nat} (nonzero : prevRow ≠ 0) (behind : prevRow < s.row)
    (read : s.readPrevRow newRow prevRow = .ok row) : row ∈ s.fullLog := by
  have positive := consistent.rows_pos
  unfold readPrevRow at read
  dsimp only at read
  by_cases inPool : s.row - s.memPool.count ≤ prevRow
  · rw [if_pos inPool, Except.ok.injEq] at read
    subst read
    have live : prevRow - (s.row - s.memPool.count) < s.memPool.rows.length := by
      rw [RowBuffer.rows_length]
      omega
    rw [RowBuffer.getRow_eq_rows_getElem _ live]
    exact List.mem_append_left _ (List.mem_reverse.2 (List.getElem_mem live))
  · rw [if_neg inPool] at read
    cases stored : s.ledger.getRow prevRow with
    | none => rw [stored] at read; cases read
    | some found =>
        rw [stored] at read
        dsimp only at read
        split at read
        · cases read
        · split at read
          · cases read
          · rw [Except.ok.injEq] at read
            subst read
            have positive : 0 < prevRow := by omega
            have inside : prevRow ≤ s.countLedgerRows - 1 := by
              unfold Permissions.countLedgerRows
              omega
            have place := rowAt_ledgerLog s.ledger positive inside
            rw [stored] at place
            exact List.mem_append_right _ (mem_of_rowAt place)

private theorem readPrevRow (alike : AlikeStores s other blocks top) (newRow : LedgerRow)
    {prevRow : Nat} (behind : prevRow < s.row) :
    other.readPrevRow newRow prevRow = s.readPrevRow newRow prevRow := by
  have positive := alike.consistent.rows_pos
  unfold Permissions.readPrevRow
  rw [alike.row, alike.count, alike.ledger]
  dsimp only
  by_cases inPool : s.row - s.memPool.count ≤ prevRow
  · rw [if_pos inPool, if_pos inPool, alike.getRow (by omega)]
  · rw [if_neg inPool, if_neg inPool]

private theorem scanVotes (alike : AlikeStores s other blocks top) (withRemaining : Bool)
    (newRow lastRow : LedgerRow) (fuel : Nat) :
    ∀ scan pldRow, pldRow.prevRow < s.row →
      other.scanVotes withRemaining newRow lastRow fuel scan pldRow =
        s.scanVotes withRemaining newRow lastRow fuel scan pldRow := by
  induction fuel with
  | zero => intro scan pldRow _; rfl
  | succ fuel ih =>
      intro scan pldRow behind
      unfold Permissions.scanVotes
      rw [alike.readPrevRow newRow behind]
      by_cases first : pldRow.prevRow = 0
      · simp only [first, if_true]
      · cases read : s.readPrevRow newRow pldRow.prevRow with
        | error err => rfl
        | ok row =>
            have member := readPrevRow_mem alike.consistent first behind read
            simp only [ih _ row (prevRow_lt alike.consistent member)]

private theorem adminConsensus (alike : AlikeStores s other blocks top) (params : NetworkParams)
    (entity : Entity) (type : Nat) :
    other.adminConsensus params entity type = s.adminConsensus params entity type := by
  have counts : other.getAdminCount params = s.getAdminCount params := by
    simp only [getAdminCount, alike.adminCount]
  have setup : other.isSetupPeriod params = s.isSetupPeriod params := by
    simp only [isSetupPeriod, alike.block]
  have share : ∀ consensus, other.consensusShare params consensus =
      s.consensusShare params consensus := by
    intro consensus
    simp only [consensusShare, counts]
  unfold Permissions.adminConsensus
  simp only [counts, setup, share]

private theorem verifyConsensus (alike : AlikeStores s other blocks top) (params : NetworkParams)
    (withRemaining : Bool) {newRow : LedgerRow} (lastRow : LedgerRow)
    (behind : newRow.prevRow < s.row) :
    other.verifyConsensus params withRemaining newRow lastRow =
      s.verifyConsensus params withRemaining newRow lastRow := by
  unfold Permissions.verifyConsensus
  rw [alike.adminConsensus, alike.row]
  dsimp only
  split
  · rfl
  · exact alike.scanVotes withRemaining _ lastRow _ _ _ behind

end Consensus

section Grants

private theorem saveClearedCounts (alike : AlikeStores s other blocks top) :
    AlikeStores s.saveClearedCounts other.saveClearedCounts blocks top := by
  have consistent := alike.consistent.of_sameStore (sameStore_saveClearedCounts s)
  have otherConsistent := alike.otherConsistent.of_sameStore (sameStore_saveClearedCounts other)
  refine ⟨?_, consistent, otherConsistent⟩
  have fork := alike.consistent.fork
  have otherFork := alike.otherConsistent.fork
  obtain ⟨same, -, -⟩ := alike
  have count := RowBuffer.count_congr same.rows
  unfold Permissions.saveClearedCounts
  rw [count, fork, otherFork]
  by_cases empty : s.memPool.count = 0 ∧ (0 : Nat) = 0
  · rw [if_pos empty, if_pos empty]
    exact { same with
      clearedAdminCount := same.adminCount
      clearedMinerCount := same.minerCount }
  · rw [if_neg empty, if_neg empty]
    exact same

private theorem appendRow (alike : AlikeStores s other blocks top) {row : LedgerRow}
    (consistent : Consistent (s.appendRow row) blocks top)
    (otherConsistent : Consistent (other.appendRow row) blocks top) :
    AlikeStores (s.appendRow row) (other.appendRow row) blocks top where
  toAlike := { alike.toAlike with
    rows := by
      change (other.memPool.add memPoolKey row).rows = (s.memPool.add memPoolKey row).rows
      rw [RowBuffer.rows_add, RowBuffer.rows_add, alike.rows]
    row := congrArg (· + 1) alike.row }
  consistent := consistent
  otherConsistent := otherConsistent

private theorem adjustCounts (alike : AlikeStores s other blocks top) (grant : Grant)
    (type lastAllowed : Nat) :
    AlikeStores (s.adjustCounts grant type lastAllowed) (other.adjustCounts grant type lastAllowed)
      blocks top := by
  refine ⟨?_, alike.consistent.of_sameStore (sameStore_adjustCounts s grant type lastAllowed),
    alike.otherConsistent.of_sameStore (sameStore_adjustCounts other grant type lastAllowed)⟩
  have allowed := alike.getPermission ⟨grant.entity, .account grant.address, type⟩ true
  obtain ⟨same, -, -⟩ := alike
  unfold Permissions.adjustCounts
  dsimp only
  rw [allowed]
  split
  · split
    · exact { same with adminCount := by simp only [same.adminCount] }
    · exact { same with minerCount := by simp only [same.minerCount] }
  · exact same

private theorem newLedgerRow (alike : AlikeStores s other blocks top) (grant : Grant) (type : Nat)
    (last : LedgerRow) : other.newLedgerRow grant type last = s.newLedgerRow grant type last := by
  simp only [Permissions.newLedgerRow, alike.adminCount, alike.block, alike.row]

private theorem setPermissionType (alike : AlikeStores s other blocks top) (params : NetworkParams)
    (grant : Grant) {type : Nat} (typeMem : type ∈ grantableTypes) :
    AlikeStores (s.setPermissionType params grant type).1
        (other.setPermissionType params grant type).1 blocks top ∧
      (other.setPermissionType params grant type).2 = (s.setPermissionType params grant type).2 := by
  have next := alike.consistent.setPermissionType params grant typeMem
  have otherNext := alike.otherConsistent.setPermissionType params grant typeMem
  let key : Key := ⟨grant.entity, .account grant.address, type⟩
  have behind : (s.newLedgerRow grant type (s.getPermissionRow key true)).prevRow < s.row := by
    have notZero : key ≠ zeroKey := by
      intro isZero
      have typeZero : type = 0 := congrArg Key.type isZero
      rw [typeZero] at typeMem
      exact absurd typeMem (by decide)
    have notIndex : key.type ≠ mcPtpBlockIndex := by
      intro isIndex
      have typeEq : type = mcPtpBlockIndex := isIndex
      rw [typeEq] at typeMem
      exact absurd typeMem (by decide)
    have queried := alike.consistent.thisRow_getPermissionRow notZero notIndex
    have bound : ledgerShape.newest s.fullLog key ≤ s.fullLog.length := newest_le_length _ _
    have length := fullLog_length alike.consistent.rows_pos
    have positive := alike.consistent.rows_pos
    change (s.getPermissionRow key true).thisRow < s.row
    omega
  have verdict := alike.verifyConsensus params false (s.getPermissionRow key true) behind
  unfold Permissions.setPermissionType at next otherNext ⊢
  simp only [alike.getPermissionRow, alike.getPermission, alike.newLedgerRow] at otherNext ⊢
  simp only [key] at verdict
  rw [verdict] at otherNext ⊢
  cases verified : s.verifyConsensus params false
      (s.newLedgerRow grant type (s.getPermissionRow key true)) (s.getPermissionRow key true) with
  | error err => exact ⟨alike, rfl⟩
  | ok outcome =>
      simp only [key] at verified
      simp only [verified] at next otherNext ⊢
      by_cases updates : grant.updateMempool = true
      · rw [if_pos updates] at next otherNext ⊢
        rw [if_pos updates]
        refine ⟨adjustCounts (appendRow alike.saveClearedCounts ?_ ?_) grant type _, rfl⟩
        · exact next.of_sameStore (sameStore_adjustCounts _ _ _ _).symm
        · exact otherNext.of_sameStore (sameStore_adjustCounts _ _ _ _).symm
      · rw [if_neg updates, if_neg updates]
        exact ⟨alike, rfl⟩

private theorem setPermissionTypes (params : NetworkParams) (grant : Grant) (types : List Nat) :
    ∀ {s other : Permissions}, AlikeStores s other blocks top →
      (∀ type ∈ types, type ∈ grantableTypes) →
      AlikeStores (Permissions.setPermissionTypes params grant types s).1
          (Permissions.setPermissionTypes params grant types other).1 blocks top ∧
        (Permissions.setPermissionTypes params grant types other).2 =
          (Permissions.setPermissionTypes params grant types s).2 := by
  induction types with
  | nil => intro s other alike _; exact ⟨alike, rfl⟩
  | cons type types ih =>
      intro s other alike inTypes
      have rest : ∀ other ∈ types, other ∈ grantableTypes :=
        fun other member => inTypes other (List.mem_cons_of_mem _ member)
      unfold Permissions.setPermissionTypes
      by_cases skipped : type &&& grant.type = 0
      · rw [if_pos skipped, if_pos skipped]
        exact ih alike rest
      · rw [if_neg skipped, if_neg skipped]
        obtain ⟨stores, errors⟩ :=
          alike.setPermissionType params grant (inTypes type (List.mem_cons_self ..))
        cases result : s.setPermissionType params grant type with
        | mk next err =>
            cases otherResult : other.setPermissionType params grant type with
            | mk otherNext otherErr =>
                rw [result, otherResult] at stores errors
                cases errors
                cases err with
                | some err => exact ⟨stores, rfl⟩
                | none => exact ih stores rest

private theorem setPermissionInternal (alike : AlikeStores s other blocks top)
    (params : NetworkParams) (grant : Grant) :
    AlikeStores (s.setPermissionInternal params grant).1
        (other.setPermissionInternal params grant).1 blocks top ∧
      (other.setPermissionInternal params grant).2 = (s.setPermissionInternal params grant).2 :=
  setPermissionTypes params grant grantableTypes alike fun _ member => member

theorem setPermission (alike : AlikeStores s other blocks top) (params : NetworkParams)
    (grant : Grant) :
    AlikeStores (s.setPermission params grant).1 (other.setPermission params grant).1 blocks top := by
  unfold Permissions.setPermission
  rw [alike.canAdmin, alike.canActivate]
  split
  · exact alike
  · exact (alike.setPermissionInternal params grant).1

theorem setApproval (alike : AlikeStores s other blocks top) (params : NetworkParams)
    (approval : Approval) :
    AlikeStores (s.setApproval params approval).1 (other.setApproval params approval).1
      blocks top := by
  have created : AlikeStores (s.createUpgradeList params approval).1
        (other.createUpgradeList params approval).1 blocks top ∧
      (other.createUpgradeList params approval).2 = (s.createUpgradeList params approval).2 := by
    unfold createUpgradeList
    rw [alike.getPermission]
    split
    · exact alike.setPermissionInternal params _
    · exact ⟨alike, rfl⟩
  obtain ⟨stores, errors⟩ := created
  unfold Permissions.setApproval
  cases result : s.createUpgradeList params approval with
  | mk next err =>
      cases otherResult : other.createUpgradeList params approval with
      | mk otherNext otherErr =>
          rw [result, otherResult] at stores errors
          cases errors
          cases err with
          | some err => exact stores
          | none =>
              cases approval.admin with
              | none => exact (stores.setPermissionInternal params _).1
              | some admin =>
                  dsimp only
                  rw [stores.isApproved]
                  split
                  · exact stores
                  · exact (stores.setPermissionInternal params _).1

end Grants

section MemPool

private theorem recounted_eq {after otherAfter : Permissions}
    (consistent : Consistent after blocks top) (otherConsistent : Consistent otherAfter blocks top)
    (sameLog : otherAfter.fullLog = after.fullLog) (sameBlock : otherAfter.block = after.block)
    (recounted : Recounted after) (otherRecounted : Recounted otherAfter) :
    otherAfter.adminCount = after.adminCount ∧ otherAfter.minerCount = after.minerCount := by
  have holders : ∀ type, IsCounted type → otherAfter.holders type = after.holders type := by
    intro type counted
    rw [otherConsistent.holders_eq counted, consistent.holders_eq counted, sameLog, sameBlock]
  constructor
  · rw [otherRecounted.1, recounted.1, holders _ (.inl rfl)]
  · rw [otherRecounted.2, recounted.2, holders _ (.inr rfl)]

theorem clearMemPool (alike : AlikeStores s other blocks top) :
    AlikeStores s.clearMemPool other.clearMemPool blocks top := by
  have result := alike.consistent.clearMemPool_result
  have otherResult := alike.otherConsistent.clearMemPool_result
  have consistent := alike.consistent.clearMemPool
  have otherConsistent := alike.otherConsistent.clearMemPool
  have block : other.clearMemPool.block = s.clearMemPool.block := by
    rw [otherResult.block, result.block, alike.block]
  have fullLog : other.clearMemPool.fullLog = s.clearMemPool.fullLog := by
    simp only [Permissions.fullLog, otherResult.rows, result.rows, otherResult.liveLog,
      result.liveLog, alike.liveLog]
  have counts : other.clearMemPool.adminCount = s.clearMemPool.adminCount ∧
      other.clearMemPool.minerCount = s.clearMemPool.minerCount := by
    by_cases empty : s.memPool.count = 0
    · obtain ⟨admins, miners⟩ := result.kept empty
      obtain ⟨otherAdmins, otherMiners⟩ := otherResult.kept (alike.count.trans empty)
      rw [otherAdmins, otherMiners, admins, miners]
      exact ⟨alike.adminCount, alike.minerCount⟩
    · have otherRows : other.memPool.count ≠ 0 := by
        rw [alike.count]
        exact empty
      exact recounted_eq consistent otherConsistent fullLog block
        (alike.consistent.recounted_clearMemPool empty)
        (alike.otherConsistent.recounted_clearMemPool otherRows)
  exact
    { ledger := by rw [otherResult.files, result.files, alike.ledger]
      readRow := by
        intro key
        rw [otherResult.files, result.files, alike.readRow]
      rows := by rw [otherResult.rows, result.rows]
      block := block
      row := by rw [otherResult.row, result.row, alike.countLedgerRows]
      adminCount := counts.1
      minerCount := counts.2
      clearedAdminCount := counts.1
      clearedMinerCount := counts.2
      consistent := consistent
      otherConsistent := otherConsistent }

/-- Going back to the same checkpoint. -/
theorem rollBackToCheckPoint (alike : AlikeStores s other blocks top)
    (checkPointed : CheckPointed s) (otherCheckPointed : CheckPointed other)
    (size : other.checkPointMemPoolSize = s.checkPointMemPoolSize)
    (adminCount : other.checkPointAdminCount = s.checkPointAdminCount)
    (minerCount : other.checkPointMinerCount = s.checkPointMinerCount) :
    AlikeStores s.rollBackToCheckPoint other.rollBackToCheckPoint blocks top where
  ledger := alike.ledger
  readRow := alike.readRow
  rows := by
    rw [Consistent.rows_rollBackToCheckPoint otherCheckPointed,
      Consistent.rows_rollBackToCheckPoint checkPointed, alike.rows, size]
  block := alike.block
  row := by
    have := checkPointed.row
    have := otherCheckPointed.row
    have := alike.row
    have := alike.count
    change other.checkPointRow = s.checkPointRow
    omega
  adminCount := adminCount
  minerCount := minerCount
  clearedAdminCount := alike.clearedAdminCount
  clearedMinerCount := alike.clearedMinerCount
  consistent := alike.consistent.rollBackToCheckPoint checkPointed
  otherConsistent := alike.otherConsistent.rollBackToCheckPoint otherCheckPointed

/-- Going back to the same copy. -/
theorem restoreMemPool (alike : AlikeStores s other blocks top)
    (copied : Copied s) (otherCopied : Copied other)
    (rows : other.copiedMemPool.rows = s.copiedMemPool.rows)
    (adminCount : other.copiedAdminCount = s.copiedAdminCount)
    (minerCount : other.copiedMinerCount = s.copiedMinerCount) :
    AlikeStores s.restoreMemPool other.restoreMemPool blocks top where
  ledger := alike.clearMemPool.ledger
  readRow := alike.clearMemPool.readRow
  rows := by
    rw [alike.otherConsistent.rows_restoreMemPool, alike.consistent.rows_restoreMemPool, rows]
  block := alike.clearMemPool.block
  row := by
    have count : other.restoreMemPool.memPool.count = s.restoreMemPool.memPool.count := by
      refine RowBuffer.count_congr ?_
      rw [alike.otherConsistent.rows_restoreMemPool, alike.consistent.rows_restoreMemPool, rows]
    rw [alike.otherConsistent.row_restoreMemPool, alike.consistent.row_restoreMemPool,
      alike.countLedgerRows, count]
  adminCount := by
    change other.clearMemPool.copiedAdminCount = s.clearMemPool.copiedAdminCount
    rw [alike.otherConsistent.clearMemPool_result.copiedAdminCount,
      alike.consistent.clearMemPool_result.copiedAdminCount, adminCount]
  minerCount := by
    change other.clearMemPool.copiedMinerCount = s.clearMemPool.copiedMinerCount
    rw [alike.otherConsistent.clearMemPool_result.copiedMinerCount,
      alike.consistent.clearMemPool_result.copiedMinerCount, minerCount]
  clearedAdminCount := alike.clearMemPool.clearedAdminCount
  clearedMinerCount := alike.clearMemPool.clearedMinerCount
  consistent := alike.consistent.restoreMemPool copied
  otherConsistent := alike.otherConsistent.restoreMemPool otherCopied

end MemPool

section Blocks

private theorem nextInConsensus (alike : AlikeStores s other blocks top) (key : Key)
    (fuel : Nat) : ∀ prevRow next,
      other.nextInConsensus key fuel prevRow next = s.nextInConsensus key fuel prevRow next := by
  induction fuel with
  | zero => intro prevRow next; rfl
  | succ fuel ih =>
      intro prevRow next
      unfold Permissions.nextInConsensus
      rw [alike.seek]
      cases found : s.memPool.seek memPoolKey ⟨key, prevRow⟩ with
      | none => rfl
      | some rowID =>
          dsimp only
          rw [alike.getRow_of_seek found, ih]

private theorem newBlockFlags (alike : AlikeStores s other blocks top) (miner : Address) :
    other.newBlockFlags miner = s.newBlockFlags miner := by
  have changes : other.changesGovernance = s.changesGovernance := by
    funext row
    simp only [changesGovernance, alike.nextInConsensus, alike.getPermissionRow, alike.block,
      alike.count]
  simp only [Permissions.newBlockFlags, calculateBlockFlags, changes, alike.getPermissionRow,
    alike.rows]

private theorem minerRow (alike : AlikeStores s other blocks top) (miner : Address)
    (hash : Hash) : other.minerRow miner hash = s.minerRow miner hash := by
  simp only [Permissions.minerRow, newBlockRow, alike.newBlockFlags, alike.getPermissionRow,
    alike.block, alike.row]

private theorem indexRow (alike : AlikeStores s other blocks top) (miner : Address)
    (hash : Hash) : other.indexRow miner hash = s.indexRow miner hash := by
  simp only [Permissions.indexRow, newBlockRow, alike.newBlockFlags, alike.countLedgerRows,
    alike.block, alike.row]

private theorem rows_appendBlockRows (alike : AlikeStores s other blocks top) (miner : Address)
    (hash : Hash) : (other.appendBlockRows miner hash).memPool.rows =
      (s.appendBlockRows miner hash).memPool.rows := by
  rw [Permissions.rows_appendBlockRows, Permissions.rows_appendBlockRows, alike.rows,
    alike.minerRow, alike.indexRow]

private theorem ledger_commitDatabase (alike : AlikeStores s other blocks top) (miner : Address)
    (hash : Hash) : (other.commitDatabase miner hash).ledger =
      (s.commitDatabase miner hash).ledger := by
  have ledger : (other.appendBlockRows miner hash).ledger =
      (s.appendBlockRows miner hash).ledger := by
    have first := congrArg PermissionFiles.ledger (files_appendBlockRows other miner hash)
    have second := congrArg PermissionFiles.ledger (files_appendBlockRows s miner hash)
    rw [first, second, alike.ledger]
  have written : (other.appendBlockRows miner hash).writeMemPool =
      (s.appendBlockRows miner hash).writeMemPool := by
    unfold writeMemPool
    rw [alike.rows_appendBlockRows, ledger, row_appendBlockRows, row_appendBlockRows,
      count_appendBlockRows, count_appendBlockRows, alike.row, alike.count]
  change ((other.appendBlockRows miner hash).writeMemPool).setRow 0 _ =
    ((s.appendBlockRows miner hash).writeMemPool).setRow 0 _
  simp only [PermissionFiles.ledgerRowAt, written, block_appendBlockRows, row_appendBlockRows,
    alike.block, alike.row]

private theorem readRow_commit (alike : AlikeStores s other blocks top) (params : NetworkParams)
    (miner : Address) (hash : Hash) (key : Key) :
    (other.commit params miner hash).readRow key = (s.commit params miner hash).readRow key := by
  rw [(alike.otherConsistent.commitResult params miner hash).readRow,
    (alike.consistent.commitResult params miner hash).readRow]
  by_cases isZero : key = zeroKey
  · rw [isZero, zeroRow_commitDatabase miner hash alike.otherConsistent.zeroRow,
      zeroRow_commitDatabase miner hash alike.consistent.zeroRow, alike.block, alike.row]
  · rw [readRow_commitDatabase miner hash alike.otherConsistent.pending isZero,
      readRow_commitDatabase miner hash alike.consistent.pending isZero,
      alike.rows_appendBlockRows, alike.readRow]

theorem commit (alike : AlikeStores s other blocks top) (params : NetworkParams)
    (miner : Address) (hash : Hash) :
    AlikeStores (s.commit params miner hash) (other.commit params miner hash)
      ((miner, hash) :: blocks) (max top (s.block + 1)) := by
  have result := alike.consistent.commitResult params miner hash
  have otherResult := alike.otherConsistent.commitResult params miner hash
  have consistent := alike.consistent.commit params miner hash
  have otherConsistent := alike.otherConsistent.commit params miner hash
  rw [alike.block] at otherConsistent
  have block : (other.commit params miner hash).block = (s.commit params miner hash).block := by
    rw [otherResult.block, result.block, alike.block]
  have counts : (other.commit params miner hash).adminCount =
        (s.commit params miner hash).adminCount ∧
      (other.commit params miner hash).minerCount = (s.commit params miner hash).minerCount := by
    have holders : ∀ type, IsCounted type → (other.commit params miner hash).holders type =
        (s.commit params miner hash).holders type := by
      intro type counted
      rw [otherConsistent.holders_eq counted, consistent.holders_eq counted, block,
        alike.otherConsistent.fullLog_commit, alike.consistent.fullLog_commit,
        holdersIn_blockRows rfl rfl _ _ counted, holdersIn_blockRows rfl rfl _ _ counted,
        alike.fullLog]
    have recounted := alike.consistent.recounted_commit params miner hash
    have otherRecounted := alike.otherConsistent.recounted_commit params miner hash
    rw [recounted.1, recounted.2, otherRecounted.1, otherRecounted.2, holders _ (.inl rfl),
      holders _ (.inr rfl)]
    exact ⟨rfl, rfl⟩
  have countedRows : other.countedMinerRow miner hash = s.countedMinerRow miner hash ∧
      other.countedIndexRow miner hash = s.countedIndexRow miner hash := by
    obtain ⟨admins, miners⟩ := counts
    rw [otherResult.adminCount, result.adminCount] at admins
    rw [otherResult.minerCount, result.minerCount] at miners
    simp only [countedMinerRow, countedIndexRow, alike.minerRow, alike.indexRow, admins, miners]
    exact ⟨trivial, trivial⟩
  exact
    { ledger := by
        rw [otherResult.ledger, result.ledger, alike.ledger_commitDatabase, countedRows.1,
          countedRows.2, alike.row]
      readRow := alike.readRow_commit params miner hash
      rows := by rw [alike.otherConsistent.rows_commit, alike.consistent.rows_commit]
      block := block
      row := by rw [otherResult.row, result.row, alike.row]
      adminCount := counts.1
      minerCount := counts.2
      clearedAdminCount := by
        rw [otherResult.clearedAdminCount, result.clearedAdminCount, counts.1]
      clearedMinerCount := by
        rw [otherResult.clearedMinerCount, result.clearedMinerCount, counts.2]
      consistent := consistent
      otherConsistent := otherConsistent }

theorem rollBack (alike : AlikeStores s other blocks top) {block : Int} (low : -1 ≤ block)
    (high : block ≤ s.block) :
    AlikeStores (s.rollBack block) (other.rollBack block)
      (blocks.drop (blocks.length - (block + 1).toNat)) top := by
  obtain ⟨segment, rest, log, -, undone, kept⟩ := alike.consistent.splitAt low high
  have otherHigh : block ≤ other.block := by
    rw [alike.block]
    exact high
  have otherLog : other.liveLog = segment ++ rest := alike.liveLog.trans log
  have result := alike.consistent.rollBack_result log undone kept
  have otherResult := alike.otherConsistent.rollBack_result otherLog undone kept
  have consistent := alike.consistent.rollBack low high
  have otherConsistent := alike.otherConsistent.rollBack low otherHigh
  have cleared := alike.clearMemPool
  have clearedLog : s.clearMemPool.liveLog = segment ++ rest :=
    alike.consistent.clearMemPool_result.liveLog.trans log
  have fullLog : (other.rollBack block).fullLog = (s.rollBack block).fullLog := by
    simp only [Permissions.fullLog, otherResult.rows, result.rows]
    rw [Consistent.liveLog_of_rollBackResult (cleared.liveLog.trans clearedLog) otherResult,
      Consistent.liveLog_of_rollBackResult clearedLog result]
  have sameBlock : (other.rollBack block).block = (s.rollBack block).block := by
    rw [otherResult.block, result.block]
  have counts := recounted_eq consistent otherConsistent fullLog sameBlock
    (alike.consistent.recounted_rollBack low high)
    (alike.otherConsistent.recounted_rollBack low otherHigh)
  exact
    { ledger := by
        rw [otherResult.ledger, result.ledger, cleared.ledgerRowAt, cleared.ledger]
      readRow := by
        intro key
        by_cases isZero : key = zeroKey
        · rw [isZero, otherResult.zeroRow, result.zeroRow]
        · rw [otherResult.readRow key isZero, result.readRow key isZero, cleared.readRow]
          cases newestOf segment.reverse key with
          | none => rfl
          | some row => simp only [undoneRow, cleared.ledgerRowAt]
      rows := by rw [otherResult.rows, result.rows]
      block := sameBlock
      row := by rw [otherResult.row, result.row]
      adminCount := counts.1
      minerCount := counts.2
      clearedAdminCount := by
        rw [otherResult.clearedAdminCount, result.clearedAdminCount, counts.1]
      clearedMinerCount := by
        rw [otherResult.clearedMinerCount, result.clearedMinerCount, counts.2]
      consistent := consistent
      otherConsistent := otherConsistent }

end Blocks

end AlikeStores

end Permissions

end HdacNode
