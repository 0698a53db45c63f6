import HdacNode.PermissionAlike

/-!
# Speculative work leaves no trace

The miner verification appends the grants of another branch to the memory pool, and a block
under construction is checked with the memory pool set aside.  Both put the store back: it
is alike to the one before, so no later query or call can tell whether they happened.
-/

namespace HdacNode

open LinkedRowLog WriteBatch

namespace Permissions

/-- The permission rows of a database stay, and its list of admins and miners may grow. -/
structure KeepsRows (before after : Store DBKey DBValue) : Prop where
  permission : ∀ key, after.read (.permission key) = before.read (.permission key)
  list : ∀ address type, before.read (.adminMiner address type) ≠ none →
    after.read (.adminMiner address type) ≠ none
  pending : before.pending = [] → after.pending = []

namespace KeepsRows

variable {before middle after : Store DBKey DBValue}

theorem refl (before : Store DBKey DBValue) : KeepsRows before before :=
  ⟨fun _ => rfl, fun _ _ present => present, id⟩

theorem trans (first : KeepsRows before middle) (second : KeepsRows middle after) :
    KeepsRows before after where
  permission := fun key => (second.permission key).trans (first.permission key)
  list := fun address type present => second.list address type (first.list address type present)
  pending := fun none => second.pending (first.pending none)

theorem of_batch {writes : List (Write DBKey DBValue)} (pending : before.pending = [])
    (noDeletes : ∀ write ∈ writes, write.value ≠ none)
    (noRows : ∀ write ∈ writes, ∀ key, write.key ≠ .permission key) :
    KeepsRows before (writes.foldl Store.write before).commit where
  permission := by
    intro key
    have notWritten : lastWrite writes (.permission key) = none := by
      rw [lastWrite_eq_none]
      exact fun write member => noRows write member key
    rw [Store.foldl_write, Store.read_commit]
    dsimp only
    rw [pending, List.nil_append, notWritten]
    rfl
  list := by
    intro address type present
    rw [Store.foldl_write]
    refine Store.read_commit_ne_none ?_ present
    dsimp only
    rw [pending, List.nil_append]
    exact noDeletes
  pending := fun _ => rfl

theorem of_writeNow {write : Write DBKey DBValue}
    (noRow : ∀ key, write.key ≠ .permission key)
    (noList : ∀ address type, write.key ≠ .adminMiner address type) :
    KeepsRows before (before.writeNow write) where
  permission := by
    intro key
    rw [Store.read_writeNow, if_neg (noRow key)]
  list := by
    intro address type present
    rw [Store.read_writeNow, if_neg (noList address type)]
    exact present
  pending := id

end KeepsRows

/-- What the miner verification may change: rows and counts in memory, the height, and the
records kept for later verifications. -/
def Speculates (s after : Permissions) : Prop :=
  ∃ (database : Store DBKey DBValue) (memPool : RowBuffer MemPoolKey LedgerRow) (block : Int)
    (row : Nat) (adminCount minerCount cleared : Int),
    KeepsRows s.database database ∧
      after = { s with
        database := database
        memPool := memPool
        block := block
        row := row
        adminCount := adminCount
        minerCount := minerCount
        clearedMinerCountForMinerVerification := cleared }

namespace Speculates

variable {s middle after : Permissions}

theorem refl (s : Permissions) : Speculates s s :=
  ⟨_, _, _, _, _, _, _, .refl s.database, rfl⟩

theorem trans (first : Speculates s middle) (second : Speculates middle after) :
    Speculates s after := by
  obtain ⟨_, _, _, _, _, _, _, keeps, rfl⟩ := first
  obtain ⟨_, _, _, _, _, _, _, moreKeeps, rfl⟩ := second
  exact ⟨_, _, _, _, _, _, _, keeps.trans moreKeeps, rfl⟩

end Speculates

section ForkCalls

variable (params : NetworkParams) {s : Permissions}

private theorem speculates_adjustCounts (s : Permissions) (grant : Grant)
    (type lastAllowed : Nat) : Speculates s (s.adjustCounts grant type lastAllowed) := by
  unfold adjustCounts
  split
  · dsimp only
    split
    · exact ⟨_, _, _, _, _, _, _, .refl s.database, rfl⟩
    · exact ⟨_, _, _, _, _, _, _, .refl s.database, rfl⟩
  · exact .refl s

private theorem speculates_setPermission (marked : 0 < s.copiedRow) (grant : Grant) :
    Speculates s (s.setPermission params grant).1 := by
  refine setPermission_induction (motive := fun after => Speculates s after) ?_ (.refl s)
  intro middle type _ speculates
  have notSaved : middle.saveClearedCounts = middle := by
    obtain ⟨_, _, _, _, _, _, _, -, rfl⟩ := speculates
    exact if_neg fun empty => by
      have fork : s.copiedRow = 0 := empty.2
      omega
  rcases setPermissionType_cases params middle grant type with unchanged | ⟨row, -, changed⟩
  · rw [unchanged]
    exact speculates
  · rw [changed, notSaved]
    have appended : Speculates middle (middle.appendRow row) :=
      ⟨_, _, _, _, _, _, _, .refl middle.database, rfl⟩
    exact (speculates.trans appended).trans (speculates_adjustCounts _ grant type _)

private theorem speculates_updateCounts (present : s.database.read adminMinerHeader ≠ none) :
    Speculates s s.updateCounts := by
  rw [updateCounts_eq present]
  exact ⟨_, _, _, _, _, _, _, .refl s.database, rfl⟩

private theorem speculates_incrementBlock (present : s.database.read adminMinerHeader ≠ none)
    (adminMinerCount : Nat) : Speculates s (s.incrementBlock adminMinerCount) := by
  have incremented : Speculates s { s with block := s.block + 1 } :=
    ⟨_, _, _, _, _, _, _, .refl s.database, rfl⟩
  have counted : Speculates s (if adminMinerCount ≠ 0 then
      ({ s with block := s.block + 1 } : Permissions).unpackCounts adminMinerCount
      else ({ s with block := s.block + 1 } : Permissions).updateCounts) := by
    split
    · exact ⟨_, _, _, _, _, _, _, .refl s.database, rfl⟩
    · exact incremented.trans (speculates_updateCounts present)
  have marked : ∀ next : Permissions, Speculates s next →
      Speculates s (if 0 < next.copiedRow then
        { next with clearedMinerCountForMinerVerification := next.minerCount } else next) := by
    intro next speculates
    split
    · exact speculates.trans ⟨_, _, _, _, _, _, _, .refl _, rfl⟩
    · exact speculates
  exact marked _ counted

private theorem writes_journal (hash : Hash) (rows : List LedgerRow) (journal : GrantJournal)
    (property : Write DBKey DBValue → Prop) (lists : ∀ entry, property (listWrite entry))
    (records : ∀ recordID offsets,
      property ⟨.adminMinerGrant hash recordID, some (.adminMinerGrant offsets)⟩)
    (start : ∀ write ∈ journal.writes, property write) :
    ∀ write ∈ (rows.foldl (s.journalRow hash) journal).writes, property write := by
  induction rows generalizing journal with
  | nil => exact start
  | cons row rows ih =>
      refine ih _ ?_
      unfold journalRow
      cases adminMinerOfKey (.permission row.key) with
      | none => exact start
      | some entry =>
          have listed : ∀ write ∈ journal.writes ++ [listWrite entry], property write := by
            intro write member
            rcases List.mem_append.1 member with old | new
            · exact start write old
            · rw [List.mem_singleton.1 new]
              exact lists entry
          have recorded : ∀ write ∈ journal.writes ++ [listWrite entry] ++
              [journal.record hash], property write := by
            intro write member
            rcases List.mem_append.1 member with old | new
            · exact listed write old
            · rw [List.mem_singleton.1 new]
              exact records _ _
          dsimp only
          split
          · exact start
          · split
            · exact listed
            · split
              · exact recorded
              · exact listed

private theorem keepsRows_journal (pending : s.database.pending = []) (hash : Hash) :
    let journal := s.memPool.rows.foldl (s.journalRow hash)
      ⟨[], 0, 0, 0, List.replicate mcPlsSizeOffsetsPerRow 0⟩
    let writes :=
      if 0 < journal.items then journal.writes ++ [journal.record hash] else journal.writes
    KeepsRows s.database (writes.foldl Store.write s.database).commit := by
  intro journal writes
  have writesAll : ∀ property : Write DBKey DBValue → Prop,
      (∀ entry, property (listWrite entry)) →
      (∀ recordID offsets,
        property ⟨.adminMinerGrant hash recordID, some (.adminMinerGrant offsets)⟩) →
      ∀ write ∈ writes, property write := by
    intro property lists records write member
    have inJournal : ∀ write ∈ journal.writes, property write :=
      writes_journal hash s.memPool.rows _ property lists records (by simp)
    by_cases some : 0 < journal.items
    · simp only [writes, if_pos some, List.mem_append, List.mem_singleton] at member
      rcases member with old | rfl
      · exact inJournal write old
      · exact records _ _
    · simp only [writes, if_neg some] at member
      exact inJournal write member
  refine .of_batch pending ?_ ?_
  · exact writesAll (fun write => write.value ≠ none) (fun _ => Option.some_ne_none _)
      fun _ _ => Option.some_ne_none _
  · refine writesAll (fun write => ∀ key, write.key ≠ .permission key) ?_ ?_
    · intro entry key sameKey
      cases sameKey
    · intro recordID offsets key sameKey
      cases sameKey

private theorem speculates_countBlock {database : Store DBKey DBValue}
    (keeps : KeepsRows s.database database) (present : database.read adminMinerHeader ≠ none)
    (miner : Address) (hash : Hash) (adminMinerCount : Permissions → Nat) :
    let next := ({ s with database := database } : Permissions).updateNextCounts
    Speculates s
      { next with
        clearedMinerCountForMinerVerification := next.minerCount
        block := next.block + 1
        database := next.database.writeNow
          ⟨.blockMiner hash, some (.blockMiner miner (adminMinerCount next))⟩ } := by
  intro next
  have batched : Speculates s { s with database := database } :=
    ⟨_, _, _, _, _, _, _, keeps, rfl⟩
  have counted : Speculates { s with database := database } next := by
    simp only [next, updateNextCounts]
    rw [updateCounts_eq (by exact present)]
    exact ⟨_, _, _, _, _, _, _, .refl _, rfl⟩
  refine (batched.trans counted).trans ⟨_, _, _, _, _, _, _, .of_writeNow ?_ ?_, rfl⟩
  · intro key sameKey
    cases sameKey
  · intro address type sameKey
    cases sameKey

private theorem speculates_storeBlock (pending : s.database.pending = [])
    (present : s.database.read adminMinerHeader ≠ none) (miner : Address) (hash : Hash) :
    Speculates s (s.storeBlock params miner hash) := by
  have keeps := keepsRows_journal pending hash
  unfold storeBlock storeBlockInfo
  by_cases skipped : params.supportMinerPrecheck = false ∨ params.anyoneCanMine = true
  · rw [if_pos skipped]
    exact ⟨_, _, _, _, _, _, _, .refl _, rfl⟩
  · rw [if_neg skipped]
    dsimp only
    rw [if_pos rfl]
    exact speculates_countBlock keeps (keeps.list _ _ present) miner hash
      fun next => Permissions.adminMinerCount
        { next with clearedMinerCountForMinerVerification := next.minerCount }

theorem speculates_forkCallStore (marked : 0 < s.copiedRow) (pending : s.database.pending = [])
    (present : s.database.read adminMinerHeader ≠ none) (call : ForkCall) :
    Speculates s (s.forkCallStore params call) := by
  cases call with
  | setPermission grant => exact speculates_setPermission params marked grant
  | incrementBlock adminMinerCount => exact speculates_incrementBlock present adminMinerCount
  | storeBlockInfo miner hash => exact speculates_storeBlock params pending present miner hash
  | canMineBlockOnFork address block lastAfterFork => exact .refl s

theorem speculates_forkCalls (marked : 0 < s.copiedRow) (pending : s.database.pending = [])
    (present : s.database.read adminMinerHeader ≠ none) (calls : List ForkCall) :
    Speculates s (calls.foldl (forkCallStore params) s) := by
  induction calls generalizing s with
  | nil => exact .refl s
  | cons call calls ih =>
      have first := speculates_forkCallStore params marked pending present call
      obtain ⟨database, memPool, block, row, adminCount, minerCount, cleared, keeps, result⟩ := first
      have again := ih (s := s.forkCallStore params call) (by rw [result]; exact marked)
        (by rw [result]; exact keeps.pending pending)
        (by rw [result]; exact keeps.list _ _ present)
      exact Speculates.trans ⟨_, _, _, _, _, _, _, keeps, result⟩ again

end ForkCalls

section Brackets

variable {s other : Permissions} {blocks : List (Address × Hash)} {top : Int}

theorem Alike.symm (alike : Alike s other) : Alike other s where
  ledger := alike.ledger.symm
  readRow := fun key => (alike.readRow key).symm
  rows := alike.rows.symm
  block := alike.block.symm
  row := alike.row.symm
  adminCount := alike.adminCount.symm
  minerCount := alike.minerCount.symm
  clearedAdminCount := alike.clearedAdminCount.symm
  clearedMinerCount := alike.clearedMinerCount.symm

theorem Alike.trans {third : Permissions} (first : Alike s other) (second : Alike other third) :
    Alike s third where
  ledger := second.ledger.trans first.ledger
  readRow := fun key => (second.readRow key).trans (first.readRow key)
  rows := second.rows.trans first.rows
  block := second.block.trans first.block
  row := second.row.trans first.row
  adminCount := second.adminCount.trans first.adminCount
  minerCount := second.minerCount.trans first.minerCount
  clearedAdminCount := second.clearedAdminCount.trans first.clearedAdminCount
  clearedMinerCount := second.clearedMinerCount.trans first.clearedMinerCount

/-- A store alike to a consistent one is consistent when its list is as good. -/
theorem Consistent.of_alike (consistent : Consistent s blocks top) (alike : Alike s other)
    (keeps : KeepsRows s.database other.database) (fork : other.copiedRow = 0)
    (coherent : RowBuffer.Coherent memPoolKey other.memPool) :
    Consistent other blocks top := by
  have count : other.memPool.count = s.memPool.count := RowBuffer.count_congr alike.rows
  have countLedgerRows : other.countLedgerRows = s.countLedgerRows := by
    simp only [Permissions.countLedgerRows, alike.row, count]
  have liveLog : other.liveLog = s.liveLog := by
    simp only [Permissions.liveLog, countLedgerRows, alike.ledger]
  have header : other.ledgerRowAt 0 = s.ledgerRowAt 0 := by
    simp only [PermissionFiles.ledgerRowAt, alike.ledger]
  exact
    { fork := fork
      pending := keeps.pending consistent.pending
      rows_pos := by
        rw [count, alike.row]
        exact consistent.rows_pos
      rows_le := by
        rw [countLedgerRows, alike.ledger]
        exact consistent.rows_le
      linked := by
        rw [Permissions.fullLog, liveLog, alike.rows]
        exact consistent.linked
      blockLog := by
        rw [liveLog]
        exact consistent.blockLog
      height := by
        rw [alike.block]
        exact consistent.height
      top_le := by
        rw [alike.block]
        exact consistent.top_le
      memCoherent := coherent
      memRows := by
        rw [alike.rows, alike.block]
        exact consistent.memRows
      header := by
        rw [header, alike.block, countLedgerRows]
        exact consistent.header
      zeroRow := by
        rw [alike.readRow, alike.block, countLedgerRows]
        exact consistent.zeroRow
      database := by
        intro key notZero notAbove
        rw [liveLog, alike.readRow]
        refine consistent.database key notZero ?_
        rintro ⟨height, above, keyEq⟩
        exact notAbove ⟨height, by rw [alike.block]; exact above, keyEq⟩
      aboveTip := by
        intro height above
        rw [alike.block] at above
        simp only [alike.readRow]
        exact consistent.aboveTip height above
      listHeader := keeps.list _ _ consistent.listHeader
      listed := by
        intro address type isListed present
        rw [alike.readRow] at present
        exact keeps.list _ _ (consistent.listed address type isListed present) }

/-- Two stores would go back to the same checkpoint. -/
structure SameCheckPoint (s other : Permissions) : Prop where
  row : other.checkPointRow = s.checkPointRow
  memPoolSize : other.checkPointMemPoolSize = s.checkPointMemPoolSize
  adminCount : other.checkPointAdminCount = s.checkPointAdminCount
  minerCount : other.checkPointMinerCount = s.checkPointMinerCount

/-- What the store keeps while it points at a fork. -/
structure ForkMarked (s after : Permissions) : Prop where
  files : after.toPermissionFiles = s.toPermissionFiles
  copiedRow : after.copiedRow = s.countLedgerRows
  copiedBlock : after.copiedBlock = s.block
  copiedRows : after.copiedMemPool.rows = s.memPool.rows
  copiedAdminCount : after.copiedAdminCount = s.adminCount
  copiedMinerCount : after.copiedMinerCount = s.minerCount
  clearedAdminCount : after.clearedAdminCount = s.clearedAdminCount
  clearedMinerCount : after.clearedMinerCount = s.clearedMinerCount
  checkPoint : SameCheckPoint s after

private theorem forkMarked_markFork (s : Permissions) (block : Int) :
    ForkMarked s (s.copyMemPool.dropMemPool.markFork block) := by
  have rows := rows_copyMemPool s
  unfold dropMemPool
  by_cases empty : s.memPool.count = 0
  · have kept : ¬ s.copyMemPool.memPool.count ≠ 0 := not_not.2 empty
    rw [if_neg kept]
    have row : s.row = s.countLedgerRows := by
      unfold countLedgerRows
      omega
    exact ⟨rfl, row, rfl, rows, rfl, rfl, rfl, rfl, ⟨rfl, rfl, rfl, rfl⟩⟩
  · have someRows : s.copyMemPool.memPool.count ≠ 0 := empty
    rw [if_pos someRows]
    exact ⟨rfl, rfl, rfl, rows, rfl, rfl, rfl, rfl, ⟨rfl, rfl, rfl, rfl⟩⟩

private theorem forkMarked_rollBackBefore (s : Permissions) {block : Int}
    (inside : toUInt32 block ≤ toUInt32 s.block) :
    ForkMarked s (s.rollBackBeforeMinerVerification block).1 := by
  have marked := forkMarked_markFork s block
  unfold rollBackBeforeMinerVerification
  rw [if_neg (Nat.not_lt.2 inside)]
  dsimp only
  split
  · exact marked
  · obtain ⟨files, copiedRow, copiedBlock, copiedRows, copiedAdminCount, copiedMinerCount,
      clearedAdminCount, clearedMinerCount, ⟨checkPointRow, size, admins, miners⟩⟩ := marked
    exact ⟨files, copiedRow, copiedBlock, copiedRows, copiedAdminCount, copiedMinerCount,
      clearedAdminCount, clearedMinerCount, ⟨checkPointRow, size, admins, miners⟩⟩

private theorem alike_restoreAfter {marked after : Permissions} (rowsPos : s.memPool.count < s.row)
    (forkMarked : ForkMarked s marked) (speculates : Speculates marked after) :
    Alike s after.restoreAfterMinerVerification ∧
      KeepsRows s.database after.restoreAfterMinerVerification.database ∧
      SameCheckPoint s after.restoreAfterMinerVerification := by
  obtain ⟨database, memPool, block, row, adminCount, minerCount, cleared, keeps, rfl⟩ := speculates
  rw [forkMarked.files] at keeps
  have count : marked.copiedMemPool.count = s.memPool.count :=
    RowBuffer.count_congr forkMarked.copiedRows
  obtain ⟨checkPointRow, size, admins, miners⟩ := forkMarked.checkPoint
  refine ⟨?_, keeps, checkPointRow, size, admins, miners⟩
  exact
    { ledger := by
        change marked.ledger = s.ledger
        rw [forkMarked.files]
      readRow := by
        intro key
        change PermissionFiles.readRow ⟨database, marked.ledger⟩ key = s.readRow key
        rw [PermissionFiles.readRow, keeps.permission]
        rfl
      rows := by
        change (addRows memPool.clear marked.copiedMemPool).rows = s.memPool.rows
        rw [rows_addRows, RowBuffer.rows_clear, List.nil_append, forkMarked.copiedRows]
      block := forkMarked.copiedBlock
      row := by
        change marked.copiedRow + marked.copiedMemPool.count = s.row
        rw [forkMarked.copiedRow, count]
        unfold countLedgerRows
        omega
      adminCount := forkMarked.copiedAdminCount
      minerCount := forkMarked.copiedMinerCount
      clearedAdminCount := forkMarked.clearedAdminCount
      clearedMinerCount := forkMarked.clearedMinerCount }

/-- A miner verification leaves a store that is alike. -/
theorem alike_verifyMiners (params : NetworkParams) (consistent : Consistent s blocks top)
    {block : Int} (inside : toUInt32 block ≤ toUInt32 s.block) (calls : List ForkCall) :
    AlikeStores s (s.verifyMiners params block calls) blocks top ∧
      SameCheckPoint s (s.verifyMiners params block calls) := by
  have marked := forkMarked_rollBackBefore s inside
  have positive := consistent.countLedgerRows_pos
  have speculates := speculates_forkCalls params
    (s := (s.rollBackBeforeMinerVerification block).1) (by rw [marked.copiedRow]; exact positive)
    (by rw [marked.files]; exact consistent.pending)
    (by rw [marked.files]; exact consistent.listHeader) calls
  obtain ⟨alike, keeps, checkPoint⟩ :=
    alike_restoreAfter consistent.rows_pos marked speculates
  exact ⟨⟨alike, consistent, consistent.of_alike alike keeps rfl
    (coherent_addRows _ (RowBuffer.coherent_clear _))⟩, checkPoint⟩

end Brackets

end Permissions

end HdacNode
