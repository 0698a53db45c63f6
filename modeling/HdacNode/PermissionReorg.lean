import HdacNode.PermissionCountRuns

/-!
# A rollback against the state it goes back to

On a chain that only ever grew, a rollback brings back the height, the row
count, both counts and every permission row.  Two kinds of rows of the blocks
themselves come back different.  A height key above the target is rewritten to
the row of the height below instead of being removed.  The newest row of a
miner comes back with the miner count in its flags, since the counts of a block
are filled into the ledger only after its rows went to the database.
-/

namespace HdacNode

open LinkedRowLog

/-- A block: the grants of its transactions, then the commit. -/
structure Batch where
  grants : List (Grant ⊕ Permissions.Approval)
  miner : Address
  hash : Hash

namespace Permissions

section Batches

variable (params : NetworkParams)

/-- One grant of a block. -/
def applyGrant (s : Permissions) : Grant ⊕ Approval → Permissions
  | .inl grant => (s.setPermission params grant).1
  | .inr approval => (s.setApproval params approval).1

/-- Apply the grants of a block and commit it. -/
def closeBatch (s : Permissions) (batch : Batch) : Permissions :=
  (batch.grants.foldl (applyGrant params) s).commit params batch.miner batch.hash

/-- Close blocks one after the other. -/
def closeBatches (s : Permissions) (batches : List Batch) : Permissions :=
  batches.foldl (closeBatch params) s

end Batches

/-- A store on a chain that only grew: the open block is empty, no key is above
the tip, and only permission rows have flags in the database. -/
structure Grew (s : Permissions) (blocks : List (Address × Hash)) : Prop where
  consistent : Consistent s blocks s.block
  noRows : s.memPool.rows = []
  recounted : Recounted s
  flags : ∀ key pdbRow, key.type ∉ grantableTypes → s.readRow key = some pdbRow →
    pdbRow.flags = 0

/-- The rows that blocks put on top of the log of a store. -/
structure Extends (s after : Permissions) (batches : List Batch) (segment : List LedgerRow) :
    Prop where
  liveLog : after.liveLog = segment ++ s.liveLog
  block : after.block = s.block + batches.length
  received : ∀ row ∈ segment, s.block < row.blockReceived
  mined : ∀ miner, (∃ row ∈ segment, row.key = blockMinerKey miner) ↔
    ∃ batch ∈ batches, batch.miner = miner

theorem grew_initial : Grew initial [] where
  consistent := consistent_initial
  noRows := rfl
  recounted :=
    consistent_initial.recounted rfl (by decide +kernel) (by decide +kernel)
  flags := by
    intro key pdbRow _ found
    rw [readRow_initial] at found
    split at found
    · cases found
      rfl
    · cases found

section Grants

variable {params : NetworkParams} {s : Permissions} {blocks : List (Address × Hash)} {top : Int}

theorem Consistent.applyGrant (consistent : Consistent s blocks top)
    (grant : Grant ⊕ Approval) : Consistent (applyGrant params s grant) blocks top := by
  cases grant with
  | inl grant => exact consistent.setPermission params grant
  | inr approval => exact consistent.setApproval params approval

theorem grown_applyGrant (params : NetworkParams) (s : Permissions)
    (grant : Grant ⊕ Approval) : Grown s (applyGrant params s grant) := by
  cases grant with
  | inl grant => exact grown_setPermission params s grant
  | inr approval => exact grown_setApproval params s approval

theorem Consistent.applyGrants (params : NetworkParams) (consistent : Consistent s blocks top)
    (grants : List (Grant ⊕ Approval)) :
    Consistent (grants.foldl (Permissions.applyGrant params) s) blocks top := by
  induction grants generalizing s with
  | nil => exact consistent
  | cons grant grants ih => exact ih (consistent.applyGrant grant)

theorem grown_applyGrants (params : NetworkParams) (s : Permissions)
    (grants : List (Grant ⊕ Approval)) :
    Grown s (grants.foldl (Permissions.applyGrant params) s) := by
  induction grants generalizing s with
  | nil => exact .refl s
  | cons grant grants ih => exact (grown_applyGrant params s grant).trans (ih _)

end Grants

section Blocks

variable {params : NetworkParams} {s : Permissions} {blocks : List (Address × Hash)}

private theorem flags_commit {top : Int} (consistent : Consistent s blocks top)
    (flags : ∀ key pdbRow, key.type ∉ grantableTypes → s.readRow key = some pdbRow →
      pdbRow.flags = 0)
    (miner : Address) (hash : Hash) {key : Key} {pdbRow : DBRow}
    (notGrantable : key.type ∉ grantableTypes)
    (found : (s.commit params miner hash).readRow key = some pdbRow) : pdbRow.flags = 0 := by
  by_cases isZero : key = zeroKey
  · subst isZero
    rw [(consistent.commit params miner hash).zeroRow] at found
    cases found
    rfl
  · rw [(consistent.commitResult params miner hash).readRow,
      readRow_commitDatabase _ _ consistent.pending isZero] at found
    cases newest : newestOf (s.appendBlockRows miner hash).memPool.rows.reverse key with
    | none =>
        rw [newest] at found
        exact flags key pdbRow notGrantable found
    | some row =>
        rw [newest] at found
        have rowKey := key_of_newestOf newest
        have inRows : row ∈ s.memPool.rows ++ [s.minerRow miner hash, s.indexRow miner hash] := by
          rw [← rows_appendBlockRows]
          exact List.mem_reverse.1 (List.mem_of_find?_eq_some newest)
        simp only [List.mem_append, List.mem_cons, List.not_mem_nil, or_false] at inRows
        cases found
        rcases inRows with inPool | rfl | rfl
        · have grantable := (consistent.memRows row inPool).type_mem
          rw [rowKey] at grantable
          exact absurd grantable notGrantable
        · rfl
        · rfl

/-- A closed block keeps a chain growing. -/
theorem Grew.closeBatch (params : NetworkParams) (grew : Grew s blocks) (batch : Batch) :
    Grew (closeBatch params s batch) ((batch.miner, batch.hash) :: blocks) ∧
      ∃ segment, Extends s (closeBatch params s batch) [batch] segment := by
  have consistent := grew.consistent.applyGrants params batch.grants
  have grown := grown_applyGrants params s batch.grants
  have result := consistent.commitResult params batch.miner batch.hash
  have committed := consistent.commit params batch.miner batch.hash
  have live := consistent.liveLog_commit params batch.miner batch.hash
  unfold Permissions.closeBatch
  generalize batch.grants.foldl (applyGrant params) s = granted at *
  have block : (granted.commit params batch.miner batch.hash).block = s.block + 1 := by
    rw [result.block, grown.block]
  constructor
  · exact
      { consistent := by
          rw [block]
          rw [grown.block, max_eq_right (by omega)] at committed
          exact committed
        noRows := consistent.rows_commit params batch.miner batch.hash
        recounted := consistent.recounted_commit params batch.miner batch.hash
        flags := by
          intro key pdbRow
          refine flags_commit consistent ?_ batch.miner batch.hash
          rw [grown.files]
          exact grew.flags }
  · refine ⟨granted.countedIndexRow batch.miner batch.hash ::
      granted.countedMinerRow batch.miner batch.hash :: granted.memPool.rows.reverse, ?_, ?_, ?_,
      ?_⟩
    · rw [live, fullLog, grown.liveLog]
      rfl
    · rw [block]
      rfl
    · intro row member
      simp only [List.mem_cons, List.mem_reverse] at member
      rcases member with rfl | rfl | inPool
      · change s.block < granted.block + 1
        rw [grown.block]
        omega
      · change s.block < granted.block + 1
        rw [grown.block]
        omega
      · rw [(consistent.memRows row inPool).received, grown.block]
        omega
    · intro miner
      simp only [List.mem_cons, List.mem_reverse, List.not_mem_nil, or_false, exists_eq_left]
      constructor
      · rintro ⟨row, rfl | rfl | inPool, rowKey⟩
        · cases rowKey
        · exact RowAddress.account.inj (congrArg Key.address rowKey)
        · exact absurd (congrArg Key.type rowKey)
            (consistent.memRows row inPool).type_ne_blockMiner
      · rintro rfl
        exact ⟨_, .inr (.inl rfl), rfl⟩

theorem Extends.refl (s : Permissions) : Extends s s [] [] where
  liveLog := rfl
  block := by simp
  received := by simp
  mined := by simp

theorem Extends.trans {middle after : Permissions} {first second : List Batch}
    {older newer : List LedgerRow} (below : Extends s middle first older)
    (above : Extends middle after second newer) :
    Extends s after (first ++ second) (newer ++ older) where
  liveLog := by rw [above.liveLog, below.liveLog, List.append_assoc]
  block := by
    rw [above.block, below.block, List.length_append]
    omega
  received := by
    intro row member
    rcases List.mem_append.1 member with inNewer | inOlder
    · have := above.received row inNewer
      have := below.block
      omega
    · exact below.received row inOlder
  mined := by
    intro miner
    have newerMined := above.mined miner
    have olderMined := below.mined miner
    simp only [List.mem_append, or_and_right, exists_or]
    rw [newerMined, olderMined]
    exact or_comm

theorem Grew.closeBatches (params : NetworkParams) (grew : Grew s blocks)
    (batches : List Batch) :
    ∃ blocks segment, Grew (closeBatches params s batches) blocks ∧
      Extends s (closeBatches params s batches) batches segment := by
  induction batches generalizing s blocks with
  | nil => exact ⟨blocks, [], grew, .refl s⟩
  | cons batch batches ih =>
      obtain ⟨closed, segment, extended⟩ := grew.closeBatch params batch
      obtain ⟨all, newer, last, extends_⟩ := ih closed
      exact ⟨all, newer ++ segment, last, extended.trans extends_⟩

end Blocks

section Answers

theorem Consistent.ledgerRow_pos {s : Permissions} {blocks : List (Address × Hash)} {top : Int}
    (consistent : Consistent s blocks top) {key : Key} {pdbRow : DBRow}
    (notZero : key ≠ zeroKey) (found : s.readRow key = some pdbRow) : 0 < pdbRow.ledgerRow := by
  by_cases above : s.AboveTip key
  · obtain ⟨height, higher, rfl⟩ := above
    have := (consistent.aboveTip height higher).2 pdbRow found
    omega
  · have matched := consistent.database key notZero above
    rw [found] at matched
    cases newest : newestOf s.liveLog key with
    | none =>
        rw [newest] at matched
        exact matched.elim
    | some row =>
        rw [newest] at matched
        have positive := consistent.liveLinked.thisRow_pos (List.mem_of_find?_eq_some newest)
        rw [matched.2.2.1]
        exact positive

/-- Two stores with the same log answer a key alike when their database rows of
the key are the same. -/
theorem Consistent.getPermissionRow_congr {s other : Permissions}
    {blocks : List (Address × Hash)} {top otherTop : Int} (consistent : Consistent s blocks top)
    (otherConsistent : Consistent other blocks otherTop) (sameLog : other.liveLog = s.liveLog)
    (key : Key) (sameRow : other.readRow key = s.readRow key) :
    other.getPermissionRow key false = s.getPermissionRow key false := by
  refine congrArg Prod.fst (consistent.databaseRow_eq otherConsistent.fork sameRow ?_)
  intro row inLog _
  refine otherConsistent.stored row ?_
  rw [sameLog]
  exact inLog

theorem readRow_of_getPermissionRow {s other : Permissions} {blocks : List (Address × Hash)}
    {top otherTop : Int} (consistent : Consistent s blocks top)
    (otherConsistent : Consistent other blocks otherTop) {key : Key} (notZero : key ≠ zeroKey)
    (notUpgrade : key.entity ≠ .upgrade)
    (sameAnswer : other.getPermissionRow key false = s.getPermissionRow key false) :
    other.readRow key = s.readRow key := by
  change (other.databaseRow key).1 = (s.databaseRow key).1 at sameAnswer
  cases found : s.readRow key with
  | none =>
      cases otherFound : other.readRow key with
      | none => rfl
      | some pdbRow =>
          rw [databaseRow_of_absent found,
            databaseRow_of_present otherConsistent.fork otherFound notUpgrade] at sameAnswer
          have place : pdbRow.ledgerRow = 0 := congrArg LedgerRow.thisRow sameAnswer
          have := otherConsistent.ledgerRow_pos notZero otherFound
          omega
  | some pdbRow =>
      cases otherFound : other.readRow key with
      | none =>
          rw [databaseRow_of_absent otherFound,
            databaseRow_of_present consistent.fork found notUpgrade] at sameAnswer
          have place : 0 = pdbRow.ledgerRow := congrArg LedgerRow.thisRow sameAnswer
          have := consistent.ledgerRow_pos notZero found
          omega
      | some otherRow =>
          rw [databaseRow_of_present consistent.fork found notUpgrade,
            databaseRow_of_present otherConsistent.fork otherFound notUpgrade] at sameAnswer
          cases pdbRow
          cases otherRow
          simp only [LedgerRow.mk.injEq] at sameAnswer
          simp [sameAnswer]

end Answers

section RollBack

/-- The keys a rollback brings back: not a height of the blocks it undoes, the
first block apart, and not a miner of one of these blocks whose newest earlier
block has recorded miners. -/
def Restorable (before : Permissions) (later : List Batch) (key : Key) : Prop :=
  (∀ miner, key = blockMinerKey miner → (∃ batch ∈ later, batch.miner = miner) →
    ∀ newest, newestOf before.liveLog key = some newest → newest.minerCount = 0) ∧
  (∀ height, key = blockIndexKey height →
    ¬ (1 ≤ height ∧ before.block < height ∧ height ≤ before.block + later.length))

variable {before top : Permissions} {blocks topBlocks : List (Address × Hash)}
  {later : List Batch} {segment : List LedgerRow}

private theorem result_rollBack (grew : Grew before blocks) (topGrew : Grew top topBlocks)
    (extends_ : Extends before top later segment) :
    RollBackResult top.clearMemPool before.block segment before.liveLog
      (top.rollBack before.block) := by
  refine topGrew.consistent.rollBack_result extends_.liveLog extends_.received ?_
  intro row member
  have := grew.consistent.blockLog.received_lt row member
  have := grew.consistent.height
  omega

private theorem consistent_rollBack (grew : Grew before blocks) (topGrew : Grew top topBlocks)
    (extends_ : Extends before top later segment) :
    Consistent (top.rollBack before.block) blocks top.block := by
  have cleared := topGrew.consistent.clearMemPool_result
  refine topGrew.consistent.clearMemPool.of_rollBackResult ?_
    (cleared.liveLog.trans extends_.liveLog) grew.consistent.blockLog grew.consistent.height
    extends_.received (result_rollBack grew topGrew extends_)
  rw [cleared.block, extends_.block]
  omega

private theorem liveLog_rollBack (grew : Grew before blocks) (topGrew : Grew top topBlocks)
    (extends_ : Extends before top later segment) :
    (top.rollBack before.block).liveLog = before.liveLog :=
  Consistent.liveLog_of_rollBackResult
    (topGrew.consistent.clearMemPool_result.liveLog.trans extends_.liveLog)
    (result_rollBack grew topGrew extends_)

private theorem row_rollBack (grew : Grew before blocks) (topGrew : Grew top topBlocks)
    (extends_ : Extends before top later segment) :
    (top.rollBack before.block).row = before.row := by
  have result := result_rollBack grew topGrew extends_
  have count : before.memPool.count = 0 := by
    rw [← RowBuffer.rows_length, grew.noRows]
    rfl
  have positive := grew.consistent.rows_pos
  rw [result.row, Consistent.liveLog_length, countLedgerRows, count]
  omega

private theorem readRow_rollBack_aboveTip (grew : Grew before blocks)
    (topGrew : Grew top topBlocks) (extends_ : Extends before top later segment) {height : Int}
    (above : before.block < height) :
    (top.rollBack before.block).readRow (blockIndexKey height) =
        before.readRow (blockIndexKey height) ↔
      Restorable before later (blockIndexKey height) := by
  have rolledBack := consistent_rollBack grew topGrew extends_
  have blockEq := (result_rollBack grew topGrew extends_).block
  have absent : before.readRow (blockIndexKey height) = none := by
    by_contra present
    have := (grew.consistent.aboveTip height above).1.1 present
    omega
  have present := (rolledBack.aboveTip height (by rw [blockEq]; exact above)).1
  have topBlock := extends_.block
  rw [absent, ← not_iff_not]
  refine present.trans ⟨?_, ?_⟩
  · rintro ⟨positive, below⟩ ⟨-, untouched⟩
    exact untouched height rfl ⟨positive, above, by omega⟩
  · intro touched
    by_contra outside
    refine touched ⟨(by intro miner minerKey; cases minerKey), ?_⟩
    rintro other otherKey ⟨positive, -, below⟩
    have : height = other := RowAddress.blockRow.inj (congrArg Key.address otherKey)
    exact outside ⟨by omega, by omega⟩

private theorem eq_of_matchesRow {row : LedgerRow} {first second : DBRow}
    (matchesFirst : MatchesRow (some row) (some first))
    (matchesSecond : MatchesRow (some row) (some second)) :
    first = second ↔ first.flags = second.flags := by
  obtain ⟨firstFrom, firstTo, firstRow, -⟩ := matchesFirst
  obtain ⟨secondFrom, secondTo, secondRow, -⟩ := matchesSecond
  cases first
  cases second
  simp_all

private theorem flags_rollBack_iff (grew : Grew before blocks) (topGrew : Grew top topBlocks)
    (extends_ : Extends before top later segment) {key : Key} {row : LedgerRow}
    {pdbRow afterRow : DBRow} (notZero : key ≠ zeroKey) (notAbove : ¬ before.AboveTip key)
    (newest : newestOf before.liveLog key = some row)
    (found : before.readRow key = some pdbRow)
    (foundAfter : (top.rollBack before.block).readRow key = some afterRow)
    (matched : MatchesRow (some row) (some pdbRow))
    (matchedAfter : MatchesRow (some row) (some afterRow)) :
    afterRow.flags = pdbRow.flags ↔ Restorable before later key := by
  have rowKey := key_of_newestOf newest
  have cleared := topGrew.consistent.clearMemPool_result
  have untouched : ∀ height, key = blockIndexKey height →
      ¬ (1 ≤ height ∧ before.block < height ∧ height ≤ before.block + later.length) :=
    fun height keyEq between => notAbove ⟨height, between.2.1, keyEq⟩
  by_cases grantable : key.type ∈ grantableTypes
  · rw [← rowKey] at grantable
    refine iff_of_true ?_ ⟨fun miner minerKey => ?_, untouched⟩
    · rw [matchedAfter.2.2.2 grantable, matched.2.2.2 grantable]
    · have minerType : mcPtpBlockMiner ∈ grantableTypes := by
        rw [rowKey, minerKey] at grantable
        exact grantable
      exact absurd minerType (by decide)
  · have beforeFlags := grew.flags key pdbRow grantable found
    have afterRead := (result_rollBack grew topGrew extends_).readRow key notZero
    rw [foundAfter] at afterRead
    cases oldest : newestOf segment.reverse key with
    | none =>
        rw [oldest, cleared.files] at afterRead
        have afterFlags := topGrew.flags key afterRow grantable afterRead.symm
        refine iff_of_true (afterFlags.trans beforeFlags.symm)
          ⟨fun miner minerKey mined => ?_, untouched⟩
        obtain ⟨minerRow, member, minerRowKey⟩ := (extends_.mined miner).2 mined
        rw [newestOf_eq_none] at oldest
        exact absurd (minerRowKey.trans minerKey.symm)
          (oldest minerRow (List.mem_reverse.2 member))
    | some undone =>
        have inSegment := List.mem_reverse.1 (List.mem_of_find?_eq_some oldest)
        have undoneKey := key_of_newestOf oldest
        have notIndex : key.type ≠ mcPtpBlockIndex := by
          intro isIndex
          have inLog : undone ∈ top.liveLog := by
            rw [extends_.liveLog]
            exact List.mem_append_left _ inSegment
          have keyEq := (topGrew.consistent.blockLog.index_row topGrew.consistent.liveLinked
            undone inLog (by rw [undoneKey]; exact isIndex)).1
          exact notAbove
            ⟨undone.blockReceived, extends_.received undone inSegment, undoneKey ▸ keyEq⟩
        obtain ⟨miner, minerKey⟩ : ∃ miner, key = blockMinerKey miner := by
          rcases grew.consistent.blockLog.key_cases row (List.mem_of_find?_eq_some newest)
            with isGrant | ⟨miner, isMiner⟩ | isIndex
          · rw [rowKey] at isGrant
            exact absurd isGrant grantable
          · exact ⟨miner, rowKey ▸ isMiner⟩
          · rw [rowKey] at isIndex
            exact absurd isIndex notIndex
        rw [oldest] at afterRead
        dsimp only at afterRead
        rw [topGrew.consistent.clearMemPool.undoneRow_eq (cleared.liveLog.trans extends_.liveLog)
          notIndex oldest, newest] at afterRead
        have afterFlags : afterRow.flags = row.flags :=
          congrArg DBRow.flags (Option.some.inj afterRead)
        rw [afterFlags, beforeFlags]
        constructor
        · intro noMiners
          refine ⟨fun _ _ _ other otherNewest => ?_, untouched⟩
          rw [newest] at otherNewest
          cases otherNewest
          exact noMiners
        · intro restorable
          exact restorable.1 miner minerKey
            ((extends_.mined miner).1 ⟨undone, inSegment, undoneKey.trans minerKey⟩) row newest

private theorem readRow_rollBack_iff (grew : Grew before blocks)
    (topGrew : Grew top topBlocks) (extends_ : Extends before top later segment) {key : Key}
    (notZero : key ≠ zeroKey) :
    (top.rollBack before.block).readRow key = before.readRow key ↔
      Restorable before later key := by
  by_cases above : before.AboveTip key
  · obtain ⟨height, higher, rfl⟩ := above
    exact readRow_rollBack_aboveTip grew topGrew extends_ higher
  · have result := result_rollBack grew topGrew extends_
    have cleared := topGrew.consistent.clearMemPool_result
    have matched := grew.consistent.database key notZero above
    have matchedAfter := (consistent_rollBack grew topGrew extends_).database key notZero (by
      rintro ⟨height, higher, keyEq⟩
      rw [result.block] at higher
      exact above ⟨height, higher, keyEq⟩)
    rw [liveLog_rollBack grew topGrew extends_] at matchedAfter
    have untouched : ∀ height, key = blockIndexKey height →
        ¬ (1 ≤ height ∧ before.block < height ∧ height ≤ before.block + later.length) :=
      fun height keyEq between => above ⟨height, between.2.1, keyEq⟩
    cases newest : newestOf before.liveLog key with
    | none =>
        rw [newest] at matched matchedAfter
        have restorable : Restorable before later key := by
          refine ⟨fun miner _ _ row found => ?_, untouched⟩
          rw [newest] at found
          cases found
        cases found : before.readRow key with
        | some pdbRow =>
            rw [found] at matched
            exact matched.elim
        | none =>
            cases foundAfter : (top.rollBack before.block).readRow key with
            | some pdbRow =>
                rw [foundAfter] at matchedAfter
                exact matchedAfter.elim
            | none => exact ⟨fun _ => restorable, fun _ => rfl⟩
    | some row =>
        rw [newest] at matched matchedAfter
        cases found : before.readRow key with
        | none =>
            rw [found] at matched
            exact matched.elim
        | some pdbRow =>
            cases foundAfter : (top.rollBack before.block).readRow key with
            | none =>
                rw [foundAfter] at matchedAfter
                exact matchedAfter.elim
            | some afterRow =>
                rw [found] at matched
                rw [foundAfter] at matchedAfter
                rw [Option.some_inj, eq_of_matchesRow matchedAfter matched]
                exact flags_rollBack_iff grew topGrew extends_ notZero above newest found
                  foundAfter matched matchedAfter

private theorem getPermissionRow_rollBack_iff (grew : Grew before blocks)
    (topGrew : Grew top topBlocks) (extends_ : Extends before top later segment) (key : Key) :
    (top.rollBack before.block).getPermissionRow key false = before.getPermissionRow key false ↔
      Restorable before later key := by
  have rolledBack := consistent_rollBack grew topGrew extends_
  have sameLog := liveLog_rollBack grew topGrew extends_
  by_cases isZero : key = zeroKey
  · subst isZero
    have result := result_rollBack grew topGrew extends_
    have count : before.memPool.count = 0 := by
      rw [← RowBuffer.rows_length, grew.noRows]
      rfl
    have countAfter : (top.rollBack before.block).memPool.count = 0 := by
      rw [← RowBuffer.rows_length, result.rows]
      rfl
    refine iff_of_true (grew.consistent.getPermissionRow_congr rolledBack sameLog _ ?_)
      ⟨(by intro miner minerKey; cases minerKey), (by intro height heightKey; cases heightKey)⟩
    rw [grew.consistent.zeroRow, rolledBack.zeroRow, result.block, countLedgerRows,
      countLedgerRows, row_rollBack grew topGrew extends_, count, countAfter]
  · have sameRow := readRow_rollBack_iff grew topGrew extends_ isZero
    constructor
    · intro sameAnswer
      by_contra notRestorable
      have notUpgrade : key.entity ≠ .upgrade := by
        intro upgrade
        refine notRestorable ⟨fun miner minerKey => ?_, fun height heightKey => ?_⟩
        · rw [minerKey] at upgrade
          cases upgrade
        · rw [heightKey] at upgrade
          cases upgrade
      exact notRestorable (sameRow.1 (readRow_of_getPermissionRow grew.consistent rolledBack
        isZero notUpgrade sameAnswer))
    · intro restorable
      exact grew.consistent.getPermissionRow_congr rolledBack sameLog key (sameRow.2 restorable)

end RollBack

/-- Rolling back to any earlier block of a chain that only grew brings back the
height, the row count, both counts, and the answers to the restorable keys. -/
theorem rollBack_restores_iff (params : NetworkParams) (earlier later : List Batch) :
    let before := closeBatches params initial earlier
    let after := (closeBatches params before later).rollBack before.block
    (after.block = before.block ∧ after.row = before.row ∧
        after.adminCount = before.adminCount ∧ after.minerCount = before.minerCount) ∧
      ∀ key, after.getPermissionRow key false = before.getPermissionRow key false ↔
        Restorable before later key := by
  obtain ⟨blocks, _, grew, -⟩ := grew_initial.closeBatches params earlier
  obtain ⟨topBlocks, segment, topGrew, extends_⟩ := grew.closeBatches params later
  intro before after
  have result := result_rollBack grew topGrew extends_
  have rolledBack := consistent_rollBack grew topGrew extends_
  have sameLog := liveLog_rollBack grew topGrew extends_
  have sameHolders : ∀ type, IsCounted type → after.holders type = before.holders type := by
    intro type counted
    rw [rolledBack.holders_eq counted, grew.consistent.holders_eq counted, fullLog, fullLog,
      grew.noRows, result.rows, sameLog, result.block]
  have recounted : Recounted after :=
    rolledBack.recounted result.rows result.adminCount result.minerCount
  refine ⟨⟨result.block, row_rollBack grew topGrew extends_, ?_, ?_⟩,
    getPermissionRow_rollBack_iff grew topGrew extends_⟩
  · rw [recounted.1, grew.recounted.1, sameHolders _ (.inl rfl)]
  · rw [recounted.2, grew.recounted.2, sameHolders _ (.inr rfl)]

/-- A first block that allows its miner to mine. -/
def firstMinedBlock : Batch where
  grants :=
    [.inl
      { entity := .null
        address := 7
        type := mcPtpMine
        admin := 7
        blockFrom := 0
        blockTo := 1000
        timestamp := 1
        flags := 0
        updateMempool := true
        offset := 0 }]
  miner := 7
  hash := 1

/-- A second block of the same miner. -/
def secondMinedBlock : Batch := ⟨[], 7, 2⟩

/-- Rolled back, the second block leaves a flag on its miner, and its height. -/
theorem secondMinedBlock_not_restored :
    ¬ ∀ key,
      ((closeBatches unanimous (closeBatches unanimous initial [firstMinedBlock])
          [secondMinedBlock]).rollBack 0).getPermissionRow key false =
        (closeBatches unanimous initial [firstMinedBlock]).getPermissionRow key false := by
  intro restored
  have flagsBefore : ((closeBatches unanimous initial [firstMinedBlock]).getPermissionRow
      (blockMinerKey 7) false).flags = 0 := by decide +kernel
  have flagsAfter : (((closeBatches unanimous
      (closeBatches unanimous initial [firstMinedBlock]) [secondMinedBlock]).rollBack
        0).getPermissionRow (blockMinerKey 7) false).flags = 1 := by decide +kernel
  rw [restored (blockMinerKey 7), flagsBefore] at flagsAfter
  cases flagsAfter

end Permissions

end HdacNode
