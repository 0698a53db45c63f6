import HdacNode.PermissionHistory

/-!
# What holds in every state of the permission store

A consistent store stands for a chain of blocks: its live ledger rows are the
log of that chain, the memory pool continues the log, and the database holds
the newest live row of every key.  Height keys above the current block are the
exception: a rollback rewrites them instead of deleting them, so the ones up
to the greatest height ever committed stay behind.
-/

namespace HdacNode

open LinkedRowLog WriteBatch

namespace Permissions

/-- The number of the first row that is not in the ledger yet. -/
def countLedgerRows (s : Permissions) : Nat := s.row - s.memPool.count

/-- The committed rows, newest first. -/
def liveLog (s : Permissions) : List LedgerRow := ledgerLog s.ledger (s.countLedgerRows - 1)

/-- The committed rows and those of the memory pool, newest first. -/
def fullLog (s : Permissions) : List LedgerRow := s.memPool.rows.reverse ++ s.liveLog

/-- The newest row with a key in a log. -/
def newestOf (log : List LedgerRow) (key : Key) : Option LedgerRow :=
  log.find? fun row => row.key = key

/-- A database row stands for a ledger row.  The flags of the block rows are
left open: they share their bytes with the miner count, which is filled in
after the database row was written. -/
def MatchesRow : Option LedgerRow → Option DBRow → Prop
  | none, none => True
  | some row, some pdbRow =>
      pdbRow.blockFrom = row.blockFrom ∧ pdbRow.blockTo = row.blockTo ∧
        pdbRow.ledgerRow = row.thisRow ∧
        (row.key.type ∈ grantableTypes → pdbRow.flags = row.flags)
  | _, _ => False

/-- A key that a rollback may have left behind. -/
def AboveTip (s : Permissions) (key : Key) : Prop :=
  ∃ height, s.block < height ∧ key = blockIndexKey height

/-- The store stands for a chain of blocks, newest first, and `top` is the
greatest height it ever had. -/
structure Consistent (s : Permissions) (blocks : List (Address × Hash)) (top : Int) :
    Prop where
  fork : s.copiedRow = 0
  pending : s.database.pending = []
  rows_pos : s.memPool.count < s.row
  rows_le : s.countLedgerRows ≤ s.ledger.size
  linked : ledgerShape.Linked s.fullLog
  blockLog : BlockLog s.liveLog blocks
  height : s.block + 1 = blocks.length
  top_le : s.block ≤ top
  memCoherent : RowBuffer.Coherent memPoolKey s.memPool
  memRows : ∀ row ∈ s.memPool.rows, GrantRow row (s.block + 1)
  header : (s.ledgerRowAt 0).blockTo = s.block ∧ (s.ledgerRowAt 0).prevRow = s.countLedgerRows
  zeroRow : s.readRow zeroKey = some ⟨0, s.block, s.countLedgerRows, 0⟩
  database : ∀ key, key ≠ zeroKey → ¬ s.AboveTip key →
    MatchesRow (newestOf s.liveLog key) (s.readRow key)
  aboveTip : ∀ height, s.block < height →
    (s.readRow (blockIndexKey height) ≠ none ↔ 1 ≤ height ∧ height ≤ top) ∧
      ∀ pdbRow, s.readRow (blockIndexKey height) = some pdbRow → 2 ≤ pdbRow.ledgerRow
  listHeader : s.database.read adminMinerHeader ≠ none
  listed : ∀ address type, type = mcPtpAdmin ∨ type = mcPtpMine →
    s.readRow (nullKey address type) ≠ none →
    s.database.read (.adminMiner address type) ≠ none

/-- The effective range a query reports is that of a row of the log. -/
def ReportsRow (row : LedgerRow) : Option LedgerRow → Prop
  | none => row.blockFrom = 0 ∧ row.blockTo = 0 ∧ row.thisRow = 0
  | some newest =>
      row.blockFrom = newest.blockFrom ∧ row.blockTo = newest.blockTo ∧
        row.thisRow = newest.thisRow

/-- The fields of the store that queries read. -/
structure SameStore (s other : Permissions) : Prop where
  files : other.toPermissionFiles = s.toPermissionFiles
  memPool : other.memPool = s.memPool
  block : other.block = s.block
  row : other.row = s.row
  fork : other.copiedRow = s.copiedRow
  forkBlock : other.forkBlock = s.forkBlock

namespace SameStore

variable {s other : Permissions}

theorem symm (same : SameStore s other) : SameStore other s where
  files := same.files.symm
  memPool := same.memPool.symm
  block := same.block.symm
  row := same.row.symm
  fork := same.fork.symm
  forkBlock := same.forkBlock.symm

theorem fullLog (same : SameStore s other) : other.fullLog = s.fullLog := by
  simp only [Permissions.fullLog, Permissions.liveLog, countLedgerRows, same.files, same.memPool,
    same.row]

private theorem forkRow (same : SameStore s other) (fuel : Nat) :
    ∀ pldRow, other.forkRow fuel pldRow = s.forkRow fuel pldRow := by
  induction fuel with
  | zero => intro pldRow; rfl
  | succ fuel ih =>
      intro pldRow
      simp only [Permissions.forkRow, ih, same.files, same.forkBlock]

private theorem seekMemPool (same : SameStore s other) (key : Key) (fuel : Nat) :
    ∀ prevRow row, other.seekMemPool key fuel prevRow row = s.seekMemPool key fuel prevRow row := by
  induction fuel with
  | zero => intro prevRow row; rfl
  | succ fuel ih =>
      intro prevRow row
      simp only [Permissions.seekMemPool, ih, same.memPool]

private theorem walkMinerRows (same : SameStore s other) (block : Int) (fuel : Nat) :
    ∀ pldRow, other.walkMinerRows block fuel pldRow = s.walkMinerRows block fuel pldRow := by
  induction fuel with
  | zero => intro pldRow; rfl
  | succ fuel ih =>
      intro pldRow
      simp only [Permissions.walkMinerRows, ih, same.memPool, same.row]

private theorem databaseRow (same : SameStore s other) (key : Key) :
    other.databaseRow key = s.databaseRow key := by
  simp only [Permissions.databaseRow, loadRow, forkChecked, same.forkRow, same.files, same.fork,
    same.forkBlock]

theorem getPermissionRow (same : SameStore s other) (key : Key) (checkMempool : Bool) :
    other.getPermissionRow key checkMempool = s.getPermissionRow key checkMempool := by
  simp only [Permissions.getPermissionRow, same.databaseRow, same.seekMemPool, same.memPool]

theorem getPermission (same : SameStore s other) (key : Key) (checkMempool : Bool) :
    other.getPermission key checkMempool = s.getPermission key checkMempool := by
  simp only [Permissions.getPermission, same.getPermissionRow, same.block]

theorem countsAdmin (same : SameStore s other) : other.countsAdmin = s.countsAdmin := by
  funext key
  cases key <;> simp only [Permissions.countsAdmin, same.getPermission]

theorem countsMiner (same : SameStore s other) : other.countsMiner = s.countsMiner := by
  funext key
  cases key <;> simp only [Permissions.countsMiner, findLastAllowedMinerRow, same.walkMinerRows,
    same.getPermission, same.getPermissionRow, same.files, same.memPool, same.block, same.row,
    same.fork]

end SameStore

/-- With the list in place, `UpdateCounts` changes the two counts only. -/
theorem updateCounts_eq {s : Permissions}
    (present : s.database.read adminMinerHeader ≠ none) :
    s.updateCounts =
      { s with
        adminCount := s.database.committed.keys.countP s.countsAdmin
        minerCount := s.database.committed.keys.countP s.countsMiner } := by
  obtain ⟨value, found⟩ := Option.ne_none_iff_exists'.1 present
  simp [updateCounts, found]

section MemPool

private theorem seek_iff {s : Permissions}
    (coherent : RowBuffer.Coherent memPoolKey s.memPool) (key : Key) (prevRow : Nat) :
    (s.memPool.seek memPoolKey ⟨key, prevRow⟩).map s.memPool.getRow =
      s.memPool.rows.find? fun row => row.key = key ∧ row.prevRow = prevRow := by
  have := RowBuffer.lookup_of_coherent coherent ⟨key, prevRow⟩
  rw [RowBuffer.lookup] at this
  rw [this]
  congr 1
  funext row
  simp [memPoolKey]

/-- A seek from a row that nothing links to ends at once. -/
theorem seekMemPool_of_absent {s : Permissions} {key : Key} {prevRow : Nat}
    (coherent : RowBuffer.Coherent memPoolKey s.memPool)
    (absent : ∀ row ∈ s.memPool.rows, row.key = key → row.prevRow ≠ prevRow)
    (fuel : Nat) (row : LedgerRow) :
    s.seekMemPool key fuel prevRow row = row := by
  cases fuel with
  | zero => rfl
  | succ fuel =>
      have noRow : s.memPool.rows.find?
          (fun row => row.key = key ∧ row.prevRow = prevRow) = none := by
        rw [List.find?_eq_none]
        intro other member matched
        obtain ⟨sameKey, samePrev⟩ : other.key = key ∧ other.prevRow = prevRow := by
          simpa using matched
        exact absent other member sameKey samePrev
      have := seek_iff coherent key prevRow
      rw [noRow, Option.map_eq_none_iff] at this
      simp [seekMemPool, this]

private theorem seekMemPool_eq_followNext {s : Permissions} {key : Key}
    (coherent : RowBuffer.Coherent memPoolKey s.memPool)
    (notIndex : key.type ≠ mcPtpBlockIndex) (fuel : Nat) :
    ∀ (prevRow : Nat) (row : LedgerRow),
      some (s.seekMemPool key fuel prevRow row) =
        followNext ledgerShape s.memPool.rows key fuel prevRow (some row) := by
  have sameLink := linkKey_eq_iff notIndex
  induction fuel with
  | zero => intro prevRow row; rfl
  | succ fuel ih =>
      intro prevRow row
      have found := seek_iff coherent key prevRow
      unfold seekMemPool followNext
      simp only [ledgerShape, sameLink]
      rw [← found]
      cases s.memPool.seek memPoolKey ⟨key, prevRow⟩ with
      | none => rfl
      | some mprow => exact ih _ _

/-- The memory pool loop ends at the newest memory pool row of the key. -/
theorem seekMemPool_newest {s : Permissions} {key : Key} {base : List LedgerRow}
    (coherent : RowBuffer.Coherent memPoolKey s.memPool)
    (linked : ledgerShape.Linked (s.memPool.rows.reverse ++ base))
    (notIndex : key.type ≠ mcPtpBlockIndex) (row : LedgerRow) :
    s.seekMemPool key s.memPool.count (ledgerShape.newest base key) row =
      (newestOf s.memPool.rows.reverse key).getD row := by
  have enough : s.memPool.rows.length ≤ s.memPool.count := by simp
  have walked := followNext_newest key linked enough (some row)
  rw [← seekMemPool_eq_followNext coherent notIndex,
    newestRow_eq_find? _ notIndex] at walked
  cases found : newestOf s.memPool.rows.reverse key with
  | none =>
      rw [newestOf] at found
      rw [found] at walked
      simpa using walked
  | some newestRow =>
      rw [newestOf] at found
      rw [found] at walked
      simpa using walked

end MemPool

section Queries

theorem key_of_newestOf {log : List LedgerRow} {key : Key} {row : LedgerRow}
    (found : newestOf log key = some row) : row.key = key := by
  simpa using List.find?_some found

theorem newestOf_append (first second : List LedgerRow) (key : Key) :
    newestOf (first ++ second) key = (newestOf first key).or (newestOf second key) :=
  List.find?_append

theorem newestOf_eq_none {log : List LedgerRow} {key : Key} :
    newestOf log key = none ↔ ∀ row ∈ log, row.key ≠ key := by
  simp [newestOf]

/-- The position of the newest row of a key is the one its links name. -/
theorem newest_eq_thisRow {log : List LedgerRow} (linked : ledgerShape.Linked log)
    {key : Key} (notIndex : key.type ≠ mcPtpBlockIndex) :
    ledgerShape.newest log key = (newestOf log key).elim 0 LedgerRow.thisRow := by
  cases found : newestOf log key with
  | none =>
      change ledgerShape.newest log key = 0
      rw [newest_eq_zero_iff, newestRow_eq_find? _ notIndex]
      exact found
  | some row =>
      have : ledgerShape.newestRow log key = some row := by
        rw [newestRow_eq_find? _ notIndex]
        exact found
      exact (linked.thisRow_newestRow this).symm

theorem databaseRow_of_absent {s : Permissions} {key : Key} (absent : s.readRow key = none) :
    s.databaseRow key = ({ LedgerRow.zero with key := key }, ⟨key, 0⟩) := by
  simp [databaseRow, absent]

/-- The database row of a key is taken over as it is, unless it belongs to an
upgrade. -/
theorem databaseRow_of_present {s : Permissions} {key : Key} {pdbRow : DBRow}
    (fork : s.copiedRow = 0) (found : s.readRow key = some pdbRow)
    (notUpgrade : key.entity ≠ .upgrade) :
    s.databaseRow key =
      ({ LedgerRow.zero with
          key := key
          blockFrom := pdbRow.blockFrom
          blockTo := pdbRow.blockTo
          thisRow := pdbRow.ledgerRow
          flags := pdbRow.flags },
        ⟨key, pdbRow.ledgerRow⟩) := by
  have noFork : s.forkChecked key.type = false := by simp [forkChecked, fork]
  simp [databaseRow, found, loadRow, noFork, notUpgrade, LedgerRow.zero]

/-- Two stores agree on a key when they agree on its database row and on the ledger
row that this names. -/
theorem databaseRow_congr {s other : Permissions} {key : Key} {pdbRow : DBRow}
    (fork : s.copiedRow = 0) (otherFork : other.copiedRow = 0)
    (found : s.readRow key = some pdbRow) (sameRow : other.readRow key = s.readRow key)
    (sameLedgerRow : other.ledgerRowAt pdbRow.ledgerRow = s.ledgerRowAt pdbRow.ledgerRow) :
    other.databaseRow key = s.databaseRow key := by
  have noFork : ∀ type, s.forkChecked type = false := fun type => by simp [forkChecked, fork]
  have otherNoFork : ∀ type, other.forkChecked type = false :=
    fun type => by simp [forkChecked, otherFork]
  simp only [databaseRow, sameRow, found, loadRow, noFork, otherNoFork, sameLedgerRow,
    Bool.false_eq_true, if_false]

/-- What `GetPermission` takes from the database. -/
theorem databaseRow_reports {s : Permissions} {key : Key} {log : List LedgerRow}
    (fork : s.copiedRow = 0) (matched : MatchesRow (newestOf log key) (s.readRow key))
    (stored : ∀ row ∈ log, s.ledgerRowAt row.thisRow = row) :
    ReportsRow (s.databaseRow key).1 (newestOf log key) ∧
      (s.databaseRow key).2 = ⟨key, (newestOf log key).elim 0 LedgerRow.thisRow⟩ := by
  have noFork : s.forkChecked key.type = false := by simp [forkChecked, fork]
  unfold databaseRow
  cases found : newestOf log key with
  | none =>
      cases readEq : s.readRow key with
      | some pdbRow => simp [found, readEq, MatchesRow] at matched
      | none => exact ⟨⟨rfl, rfl, rfl⟩, rfl⟩
  | some row =>
      cases readEq : s.readRow key with
      | none => simp [found, readEq, MatchesRow] at matched
      | some pdbRow =>
          simp only [found, readEq, MatchesRow] at matched
          obtain ⟨fromEq, toEq, rowEq, -⟩ := matched
          have sameKey := key_of_newestOf found
          have rowStored := stored row (List.mem_of_find?_eq_some found)
          by_cases upgrade : key.entity = .upgrade
          · simp [loadRow, noFork, upgrade, rowEq, rowStored, ReportsRow, sameKey]
          · simp [loadRow, noFork, upgrade, rowEq, fromEq, toEq, ReportsRow]

end Queries

namespace Consistent

variable {s : Permissions} {blocks : List (Address × Hash)} {top : Int}

theorem countLedgerRows_pos (consistent : Consistent s blocks top) :
    0 < s.countLedgerRows := by
  have := consistent.rows_pos
  unfold countLedgerRows
  omega

theorem block_ge (consistent : Consistent s blocks top) : -1 ≤ s.block := by
  have := consistent.height
  omega

theorem liveLog_length (s : Permissions) :
    s.liveLog.length = s.countLedgerRows - 1 :=
  ledgerLog_length _ _

theorem liveLinked (consistent : Consistent s blocks top) :
    ledgerShape.Linked s.liveLog :=
  consistent.linked.of_append

/-- A live row is read back at the position it names. -/
theorem stored (consistent : Consistent s blocks top) :
    ∀ row ∈ s.liveLog, s.ledgerRowAt row.thisRow = row :=
  ledgerRowAt_thisRow consistent.liveLinked

theorem memPool_not_index (consistent : Consistent s blocks top) :
    ∀ row ∈ s.memPool.rows, row.key.type ≠ mcPtpBlockIndex :=
  fun row member => (consistent.memRows row member).type_ne_blockIndex

/-- The database alone answers with the newest live row. -/
theorem getPermissionRow_false (consistent : Consistent s blocks top) {key : Key}
    (notZero : key ≠ zeroKey) (notAbove : ¬ s.AboveTip key) :
    ReportsRow (s.getPermissionRow key false) (newestOf s.liveLog key) :=
  (databaseRow_reports consistent.fork (consistent.database key notZero notAbove)
    consistent.stored).1

/-- A query with the memory pool answers with the newest row of all. -/
theorem getPermissionRow_true (consistent : Consistent s blocks top) {key : Key}
    (notZero : key ≠ zeroKey) (notAbove : ¬ s.AboveTip key) :
    ReportsRow (s.getPermissionRow key true) (newestOf s.fullLog key) := by
  obtain ⟨reports, sought⟩ := databaseRow_reports consistent.fork
    (consistent.database key notZero notAbove) consistent.stored
  unfold getPermissionRow
  simp only [if_true, sought, fullLog, newestOf_append]
  by_cases isIndex : key.type = mcPtpBlockIndex
  · have absent : ∀ row ∈ s.memPool.rows, row.key ≠ key := by
      rintro row member rfl
      exact consistent.memPool_not_index row member isIndex
    have noneInPool : newestOf s.memPool.rows.reverse key = none := by
      rw [newestOf_eq_none]
      intro row member
      exact absent row (by simpa using member)
    rw [seekMemPool_of_absent consistent.memCoherent
      fun row member sameKey => absurd sameKey (absent row member), noneInPool, Option.none_or]
    exact reports
  · rw [← newest_eq_thisRow consistent.liveLinked isIndex,
      seekMemPool_newest consistent.memCoherent consistent.linked isIndex]
    cases found : newestOf s.memPool.rows.reverse key with
    | none => simpa using reports
    | some row => exact ⟨rfl, rfl, rfl⟩

/-- Another store over the same database takes the same from it when it finds the
live rows of upgrades at their places. -/
theorem databaseRow_eq {other : Permissions} (consistent : Consistent s blocks top)
    (fork : other.copiedRow = 0) {key : Key} (sameRow : other.readRow key = s.readRow key)
    (upgrades : ∀ row ∈ s.liveLog, row.key.entity = .upgrade →
      other.ledgerRowAt row.thisRow = row) :
    other.databaseRow key = s.databaseRow key := by
  cases found : s.readRow key with
  | none => rw [databaseRow_of_absent found, databaseRow_of_absent (sameRow.trans found)]
  | some pdbRow =>
      by_cases upgrade : key.entity = .upgrade
      · have notZero : key ≠ zeroKey := by
          rintro rfl
          cases upgrade
        have notAbove : ¬ s.AboveTip key := by
          rintro ⟨height, -, rfl⟩
          cases upgrade
        have matched := consistent.database key notZero notAbove
        rw [found] at matched
        cases newest : newestOf s.liveLog key with
        | none =>
            rw [newest] at matched
            exact matched.elim
        | some row =>
            rw [newest] at matched
            have inLog := List.mem_of_find?_eq_some newest
            have isUpgrade : row.key.entity = .upgrade := by
              rw [key_of_newestOf newest]
              exact upgrade
            refine databaseRow_congr consistent.fork fork found sameRow ?_
            rw [matched.2.2.1, consistent.stored row inLog, upgrades row inLog isUpgrade]
      · rw [databaseRow_of_present consistent.fork found upgrade,
          databaseRow_of_present fork (sameRow.trans found) upgrade]

/-- Consistency is about what queries read only. -/
theorem of_sameStore {other : Permissions} (consistent : Consistent s blocks top)
    (same : SameStore s other) : Consistent other blocks top := by
  obtain ⟨files, memPool, block, row, fork, -⟩ := same
  cases s
  cases other
  subst files memPool block row fork
  exact
    { fork := consistent.fork
      pending := consistent.pending
      rows_pos := consistent.rows_pos
      rows_le := consistent.rows_le
      linked := consistent.linked
      blockLog := consistent.blockLog
      height := consistent.height
      top_le := consistent.top_le
      memCoherent := consistent.memCoherent
      memRows := consistent.memRows
      header := consistent.header
      zeroRow := consistent.zeroRow
      database := consistent.database
      aboveTip := consistent.aboveTip
      listHeader := consistent.listHeader
      listed := consistent.listed }

/-- The rows of the memory pool may be replaced by others that continue the
committed log. -/
theorem withPool {other : Permissions} (consistent : Consistent s blocks top)
    (files : other.toPermissionFiles = s.toPermissionFiles) (block : other.block = s.block)
    (fork : other.copiedRow = s.copiedRow)
    (row : other.row = s.countLedgerRows + other.memPool.count)
    (coherent : RowBuffer.Coherent memPoolKey other.memPool)
    (memRows : ∀ row ∈ other.memPool.rows, GrantRow row (s.block + 1))
    (linked : ledgerShape.Linked (other.memPool.rows.reverse ++ s.liveLog)) :
    Consistent other blocks top := by
  have countEq : other.countLedgerRows = s.countLedgerRows := by
    rw [countLedgerRows, row, Nat.add_sub_cancel]
  have liveEq : other.liveLog = s.liveLog := by
    rw [liveLog, countEq, files]
    rfl
  have aboveEq : ∀ key, other.AboveTip key ↔ s.AboveTip key := by
    intro key
    simp only [AboveTip, block]
  have positive := consistent.countLedgerRows_pos
  exact
    { fork := fork.trans consistent.fork
      pending := by
        rw [files]
        exact consistent.pending
      rows_pos := by omega
      rows_le := by
        rw [countEq, files]
        exact consistent.rows_le
      linked := by
        rw [fullLog, liveEq]
        exact linked
      blockLog := by
        rw [liveEq]
        exact consistent.blockLog
      height := by
        rw [block]
        exact consistent.height
      top_le := by
        rw [block]
        exact consistent.top_le
      memCoherent := coherent
      memRows := by
        rw [block]
        exact memRows
      header := by
        rw [files, block, countEq]
        exact consistent.header
      zeroRow := by
        rw [files, block, countEq]
        exact consistent.zeroRow
      database := by
        intro key notZero notAbove
        rw [liveEq, files]
        exact consistent.database key notZero fun above => notAbove ((aboveEq key).2 above)
      aboveTip := by
        rw [files, block]
        exact consistent.aboveTip
      listHeader := by
        rw [files]
        exact consistent.listHeader
      listed := by
        rw [files]
        exact consistent.listed }

end Consistent

theorem inBlockRange_of_reports {row : LedgerRow} {newest : Option LedgerRow} {block : Int}
    (reports : ReportsRow row newest) :
    row.inBlockRange block = newest.any fun newest => newest.inBlockRange block := by
  cases newest with
  | none =>
      obtain ⟨fromEq, toEq, -⟩ := reports
      simp [LedgerRow.inBlockRange, fromEq, toEq]
  | some newest =>
      obtain ⟨fromEq, toEq, -⟩ := reports
      simp [LedgerRow.inBlockRange, fromEq, toEq]

end Permissions

end HdacNode
