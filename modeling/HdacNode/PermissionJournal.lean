import HdacNode.PackedRecords
import HdacNode.PermissionRuns

/-!
# The journal of the admin and mine grants of a block

`StoreBlockInfoInternal` files the offsets of the transactions that have admin or mine
rows in records of six, and the fork verification reads them back with
`GetBlockAdminMinerGrants`.  `StoreBlockInfo` calls it with the rows of the block in the
memory pool; `CommitInternal` calls it after it has cleared the memory pool.
-/

namespace HdacNode

open WriteBatch PackedRecords

namespace Permissions

/-- `GetBlockAdminMinerGrants`. -/
def getBlockAdminMinerGrants (s : Permissions) (hash : Hash) (record : Nat) :
    Except McError (List Int) :=
  match s.database.read (.adminMinerGrant hash record) with
  | some (.adminMinerGrant offsets) => .ok offsets
  | _ => .error .notFound

/-- `StoreBlockInfo`. -/
def storeBlock (params : NetworkParams) (s : Permissions) (miner : Address) (hash : Hash) :
    Permissions :=
  let s := s.storeBlockInfo params miner hash true
  { s with block := s.block + 1 }

/-- What is read of the journal of a block: the records from the first one on until one is
not found, without the zeros. -/
def ReadsGrants (s : Permissions) (hash : Hash) (offsets : List Int) : Prop :=
  ReadFrom 0 (fun place => (s.getBlockAdminMinerGrants hash (place + 1)).toOption) 0 offsets

/-- The offsets of the admin and mine rows of the chain among some rows. -/
def grantOffsets (rows : List LedgerRow) : List Int :=
  (rows.filter fun row => (adminMinerOfKey (.permission row.key)).isSome).map LedgerRow.offset

/-- The memory pool rows of the open block. -/
def openRows (s : Permissions) : List LedgerRow :=
  s.memPool.rows.filter fun row => row.blockReceived = s.block + 1

/-- The journal while its loop runs, for the offsets that it took in. -/
structure Journals (hash : Hash) (offsets : List Int) (journal : GrantJournal) : Prop where
  items : journal.items = offsets.length
  lastOffset : journal.lastOffset = offsets.getLastD 0
  recordID : 0 < offsets.length →
    journal.recordID = (offsets.length - 1) / mcPlsSizeOffsetsPerRow + 1
  record : journal.offsets =
    record mcPlsSizeOffsetsPerRow 0 offsets ((offsets.length - 1) / mcPlsSizeOffsetsPerRow)
  writes : ∀ place, lastWrite journal.writes (.adminMinerGrant hash (place + 1)) =
    if mcPlsSizeOffsetsPerRow * (place + 1) < offsets.length then
      some ⟨.adminMinerGrant hash (place + 1),
        some (.adminMinerGrant (PackedRecords.record mcPlsSizeOffsetsPerRow 0 offsets place))⟩
    else none

namespace Journals

variable {s : Permissions} {hash : Hash} {offsets : List Int} {journal : GrantJournal}

theorem start (hash : Hash) :
    Journals hash [] ⟨[], 0, 0, 0, List.replicate mcPlsSizeOffsetsPerRow 0⟩ where
  items := rfl
  lastOffset := rfl
  recordID positive := absurd positive (Nat.lt_irrefl 0)
  record := rfl
  writes place := by
    rw [if_neg (by simp)]
    rfl

theorem lastWrite_listWrite (writes : List (Write DBKey DBValue)) (entry : Address × Nat)
    (hash : Hash) (id : Nat) :
    lastWrite (writes ++ [listWrite entry]) (.adminMinerGrant hash id) =
      lastWrite writes (.adminMinerGrant hash id) := by
  rw [lastWrite_append, lastWrite_singleton, if_neg (by simp [listWrite]), Option.none_or]

theorem addListWrite (journals : Journals hash offsets journal) (entry : Address × Nat) :
    Journals hash offsets { journal with writes := journal.writes ++ [listWrite entry] } where
  items := journals.items
  lastOffset := journals.lastOffset
  recordID := journals.recordID
  record := journals.record
  writes place := by rw [lastWrite_listWrite, journals.writes]

/-- The writes of a journal with the record that is being filled. -/
theorem lastWrite_record (journals : Journals hash offsets journal) (place : Nat) :
    lastWrite (if 0 < journal.items then journal.writes ++ [journal.record hash]
        else journal.writes) (.adminMinerGrant hash (place + 1)) =
      if mcPlsSizeOffsetsPerRow * place < offsets.length then
        some ⟨.adminMinerGrant hash (place + 1),
          some (.adminMinerGrant (PackedRecords.record mcPlsSizeOffsetsPerRow 0 offsets place))⟩
      else none := by
  rw [journals.items]
  by_cases positive : 0 < offsets.length
  · rw [if_pos positive, lastWrite_append, lastWrite_singleton, journals.writes]
    unfold GrantJournal.record
    rw [journals.recordID positive, journals.record]
    unfold mcPlsSizeOffsetsPerRow
    by_cases current : place = (offsets.length - 1) / 6
    · subst current
      rw [if_pos rfl, Option.some_or, if_pos (by omega)]
    · have otherKey : DBKey.adminMinerGrant hash ((offsets.length - 1) / 6 + 1) ≠
          .adminMinerGrant hash (place + 1) := by
        simpa using Ne.symm current
      rw [if_neg otherKey, Option.none_or]
      by_cases before : 6 * (place + 1) < offsets.length
      · rw [if_pos before, if_pos (by omega)]
      · rw [if_neg before, if_neg (by omega)]
  · rw [if_neg positive, journals.writes, if_neg (by omega), if_neg (by omega)]

theorem addOffset (journals : Journals hash offsets journal) (offset : Int) :
    Journals hash (offsets ++ [offset])
      (let journal :=
        if 0 < journal.items ∧ journal.items % mcPlsSizeOffsetsPerRow = 0 then
          { journal with
            writes := journal.writes ++ [journal.record hash]
            offsets := List.replicate mcPlsSizeOffsetsPerRow 0 }
        else journal
      { journal with
        recordID := journal.items / mcPlsSizeOffsetsPerRow + 1
        offsets := journal.offsets.set (journal.items % mcPlsSizeOffsetsPerRow) offset
        lastOffset := offset
        items := journal.items + 1 }) := by
  have sizeIs : mcPlsSizeOffsetsPerRow = 6 := rfl
  have length : (offsets ++ [offset]).length = offsets.length + 1 := by simp
  by_cases full : 0 < offsets.length ∧ offsets.length % mcPlsSizeOffsetsPerRow = 0
  · rw [journals.items, if_pos full]
    refine ⟨length.symm, by simp [List.getLastD_eq_getLast?], fun _ => ?_, ?_, fun place => ?_⟩
    · dsimp only
      rw [length, Nat.add_sub_cancel]
    · have atEnd : offsets.length ≤
          mcPlsSizeOffsetsPerRow * (offsets.length / mcPlsSizeOffsetsPerRow) := by
        rw [sizeIs] at full ⊢
        omega
      have empty : PackedRecords.record mcPlsSizeOffsetsPerRow (0 : Int) offsets
          (offsets.length / mcPlsSizeOffsetsPerRow) = List.replicate mcPlsSizeOffsetsPerRow 0 :=
        record_of_length_le atEnd
      dsimp only
      rw [length, Nat.add_sub_cancel, ← set_record (by decide), empty]
    · have filled := journals.lastWrite_record place
      rw [journals.items, if_pos full.1] at filled
      dsimp only
      rw [filled, length]
      by_cases inside : mcPlsSizeOffsetsPerRow * place < offsets.length
      · have isFull : mcPlsSizeOffsetsPerRow * (place + 1) ≤ offsets.length := by
          rw [sizeIs] at full inside ⊢
          omega
        rw [if_pos inside, if_pos (by omega), record_append isFull]
      · rw [if_neg inside, if_neg]
        rw [Nat.mul_succ]
        omega
  · rw [journals.items, if_neg full]
    have sameItems : journal.items + 1 = (offsets ++ [offset]).length := by
      rw [length, journals.items]
    refine ⟨sameItems, by simp [List.getLastD_eq_getLast?], fun _ => ?_, ?_, fun place => ?_⟩
    · dsimp only
      rw [length, journals.items, Nat.add_sub_cancel]
    · have current : (offsets.length - 1) / mcPlsSizeOffsetsPerRow =
          offsets.length / mcPlsSizeOffsetsPerRow := by
        rw [sizeIs] at full ⊢
        omega
      dsimp only
      rw [length, journals.items, journals.record, Nat.add_sub_cancel, current,
        set_record (by decide)]
    · dsimp only
      rw [journals.writes, length]
      by_cases inside : mcPlsSizeOffsetsPerRow * (place + 1) < offsets.length
      · rw [if_pos inside, if_pos (by omega), record_append (by omega)]
      · rw [if_neg inside, if_neg]
        rw [sizeIs] at full inside ⊢
        omega

/-- A row of the memory pool in the loop. -/
theorem journalRow (journals : Journals hash offsets journal) (row : LedgerRow) :
    Journals hash
      (offsets ++ dropRepeats (offsets.getLastD 0)
        (grantOffsets ([row].filter fun row => row.blockReceived = s.block + 1)))
      (s.journalRow hash journal row) := by
  unfold Permissions.journalRow grantOffsets
  by_cases isOpen : row.blockReceived = s.block + 1
  · cases isGrant : adminMinerOfKey (.permission row.key) with
    | none => simpa [isOpen, isGrant, dropRepeats] using journals
    | some entry =>
        have onlyOffset : (([row].filter fun row => row.blockReceived = s.block + 1).filter
            fun row => (adminMinerOfKey (.permission row.key)).isSome).map LedgerRow.offset =
              [row.offset] := by
          simp [isOpen, isGrant]
        rw [onlyOffset]
        dsimp only
        rw [if_neg (not_not.mpr isOpen)]
        by_cases same : row.offset = journal.lastOffset
        · rw [if_pos same]
          have noneLeft : dropRepeats (offsets.getLastD 0) [row.offset] = [] := by
            rw [same, journals.lastOffset, dropRepeats_cons_self]
            rfl
          rw [noneLeft, List.append_nil]
          exact journals.addListWrite entry
        · rw [if_neg same]
          rw [journals.lastOffset] at same
          rw [dropRepeats_cons_of_ne (Ne.symm same)]
          exact (journals.addListWrite entry).addOffset row.offset
  · have notJournaled : Journals hash offsets journal := journals
    cases adminMinerOfKey (.permission row.key) with
    | none => simpa [isOpen, dropRepeats] using notJournaled
    | some entry => simpa [isOpen, dropRepeats] using notJournaled

theorem foldl_journalRow (journals : Journals hash offsets journal) (rows : List LedgerRow) :
    Journals hash
      (offsets ++ dropRepeats (offsets.getLastD 0)
        (grantOffsets (rows.filter fun row => row.blockReceived = s.block + 1)))
      (rows.foldl (s.journalRow hash) journal) := by
  induction rows generalizing offsets journal with
  | nil => simpa [grantOffsets, dropRepeats] using journals
  | cons row rows ih =>
      rw [List.foldl_cons]
      have step : Journals hash _ (s.journalRow hash journal row) := journals.journalRow row
      have behind := ih step
      have joined : grantOffsets ((row :: rows).filter fun row => row.blockReceived = s.block + 1) =
          grantOffsets ([row].filter fun row => row.blockReceived = s.block + 1) ++
            grantOffsets (rows.filter fun row => row.blockReceived = s.block + 1) := by
        rw [← List.singleton_append, List.filter_append]
        simp [grantOffsets]
      rw [joined, dropRepeats_append, ← List.append_assoc]
      rw [getLastD_append] at behind
      exact behind

end Journals

variable {params : NetworkParams} {s : Permissions} {miner : Address} {hash : Hash}
variable {offsets : List Int}

/-- Counting does not write to a journal. -/
theorem read_updateCounts (s : Permissions) (hash : Hash) (record : Nat)
    (noPending : s.database.pending = []) :
    s.updateCounts.database.read (.adminMinerGrant hash record) =
      s.database.read (.adminMinerGrant hash record) := by
  unfold updateCounts
  cases s.database.read adminMinerHeader with
  | some value => rfl
  | none =>
      dsimp only
      unfold buildAdminMinerList
      cases s.readRow zeroKey with
      | none => rfl
      | some pdbRow =>
          dsimp only
          rw [← List.foldl_map, Store.foldl_write, Store.read_commit]
          have notWritten : ∀ entries : List (Write DBKey DBValue),
              (∀ entry ∈ entries, ∃ address type, entry.key = .adminMiner address type) →
              lastWrite entries (.adminMinerGrant hash record) = none := by
            intro entries lists
            rw [lastWrite_eq_none]
            intro entry inEntries
            obtain ⟨address, type, keyEq⟩ := lists entry inEntries
            simp [keyEq]
          rw [notWritten]
          · rfl
          · intro entry inEntries
            simp only [Store.write, noPending, List.nil_append, List.singleton_append,
              List.mem_cons, List.mem_map] at inEntries
            rcases inEntries with rfl | ⟨listed, -, rfl⟩
            · exact ⟨0, mcPtpConnect, rfl⟩
            · exact ⟨listed.1, listed.2, rfl⟩

theorem pending_updateCounts (s : Permissions) (noPending : s.database.pending = []) :
    s.updateCounts.database.pending = [] ∨
      s.updateCounts.database.pending = [⟨adminMinerHeader, some (.row .zero)⟩] := by
  unfold updateCounts
  cases s.database.read adminMinerHeader with
  | some value => exact .inl noPending
  | none =>
      dsimp only
      unfold buildAdminMinerList
      cases s.readRow zeroKey with
      | none => exact .inr (by simp [Store.write, noPending])
      | some pdbRow => exact .inl rfl

/-- The grant records behind `StoreBlockInfoInternal`: those of the open rows in the
memory pool, and what the database had with its batch. -/
theorem read_storeBlockInfo (precheck : params.supportMinerPrecheck = true)
    (permissioned : params.anyoneCanMine = false) (updateCounts : Bool) (place : Nat) :
    (s.storeBlockInfo params miner hash updateCounts).database.read
        (.adminMinerGrant hash (place + 1)) =
      if mcPlsSizeOffsetsPerRow * place < (dropRepeats 0 (grantOffsets s.openRows)).length then
        some (.adminMinerGrant (record mcPlsSizeOffsetsPerRow 0
          (dropRepeats 0 (grantOffsets s.openRows)) place))
      else s.database.commit.read (.adminMinerGrant hash (place + 1)) := by
  have journals : Journals hash (dropRepeats 0 (grantOffsets s.openRows)) _ :=
    (Journals.start hash).foldl_journalRow s.memPool.rows
  have filed := journals.lastWrite_record place
  unfold storeBlockInfo
  rw [if_neg (by simp [precheck, permissioned])]
  dsimp only
  rw [Store.read_writeNow, if_neg (by simp)]
  have counted : ∀ other : Permissions, other.database.pending = [] →
      (if updateCounts then
        { other.updateNextCounts with
          clearedMinerCountForMinerVerification := other.updateNextCounts.minerCount }
        else other).database.read (.adminMinerGrant hash (place + 1)) =
          other.database.read (.adminMinerGrant hash (place + 1)) := by
    intro other noPending
    cases updateCounts with
    | false => rfl
    | true => exact read_updateCounts { other with block := other.block + 1 } hash _ noPending
  rw [counted _ rfl]
  dsimp only
  rw [Store.read_commit, Store.foldl_write]
  dsimp only
  rw [lastWrite_append, filed]
  by_cases inside :
      mcPlsSizeOffsetsPerRow * place < (dropRepeats 0 (grantOffsets s.openRows)).length
  · rw [if_pos inside, if_pos inside]
    rfl
  · rw [if_neg inside, if_neg inside, Option.none_or, Store.read_commit]
    rfl

theorem read_closeBlock (hash : Hash) (record : Nat) {s : Permissions}
    (noPending : s.database.pending = []) :
    s.closeBlock.database.commit.read (.adminMinerGrant hash record) =
      s.database.read (.adminMinerGrant hash record) := by
  have sameDatabase : s.closeBlock.database =
      (updateCounts { s with block := s.block + 1 }).database := rfl
  have nothingFiled : lastWrite (updateCounts { s with block := s.block + 1 }).database.pending
      (.adminMinerGrant hash record) = none := by
    rcases pending_updateCounts { s with block := s.block + 1 } noPending with empty | header
    · rw [empty]
      rfl
    · rw [header, lastWrite_singleton, if_neg (by simp [adminMinerHeader])]
  rw [sameDatabase, Store.read_commit, nothingFiled]
  exact read_updateCounts { s with block := s.block + 1 } hash record noPending

/-- The grant records behind `CommitInternal` are those from before. -/
theorem read_commit_adminMinerGrant (precheck : params.supportMinerPrecheck = true)
    (permissioned : params.anyoneCanMine = false) (place : Nat) :
    (s.commit params miner hash).database.read (.adminMinerGrant hash (place + 1)) =
      s.database.commit.read (.adminMinerGrant hash (place + 1)) := by
  have noRows : (s.commitDatabase miner hash).closeBlock.openRows = [] := by
    change List.filter _ (RowBuffer.clear _).rows = []
    rw [RowBuffer.rows_clear]
    rfl
  have closed : ((s.commitDatabase miner hash).closeBlock.storeBlockInfo params miner hash
      false).database.read (.adminMinerGrant hash (place + 1)) = _ :=
    read_storeBlockInfo precheck permissioned false place
  rw [noRows, if_neg (by simp [grantOffsets, dropRepeats])] at closed
  change ((s.commitDatabase miner hash).closeBlock.storeBlockInfo params miner hash
    false).database.read _ = _
  rw [closed, read_closeBlock hash _ (Store.pending_commit _)]
  change (s.prepareCommit miner hash).database.commit.read _ = _
  have noGrantRecord : lastWrite ((s.appendBlockRows miner hash).memPool.rows.flatMap
      commitWrites ++ [s.zeroRowWrite (s.block + 1) (s.row + 2)])
        (.adminMinerGrant hash (place + 1)) = none := by
    rw [lastWrite_eq_none]
    intro write inBatch
    rw [List.mem_append, List.mem_flatMap, List.mem_singleton] at inBatch
    rcases inBatch with ⟨row, -, inRow⟩ | rfl
    · rw [commitWrites, List.mem_cons, Option.mem_toList, Option.map_eq_some_iff] at inRow
      rcases inRow with rfl | ⟨entry, -, rfl⟩
      · simp [putRowWrite]
      · simp [listWrite]
    · simp [PermissionFiles.zeroRowWrite]
  rw [Store.read_commit, Store.read_commit, pending_prepareCommit, List.append_assoc,
    lastWrite_append, noGrantRecord, Option.none_or, Store.read, committed_prepareCommit]
  rfl

theorem readsGrants_storeBlock_iff (precheck : params.supportMinerPrecheck = true)
    (permissioned : params.anyoneCanMine = false) :
    ReadsGrants (s.storeBlock params miner hash) hash offsets ↔
      ∃ rest, offsets = (dropRepeats 0 (grantOffsets s.openRows)).filter (· ≠ 0) ++ rest ∧
        ReadFrom 0 (fun place =>
            (getBlockAdminMinerGrants { s with database := s.database.commit } hash
              (place + 1)).toOption)
          (recordCount mcPlsSizeOffsetsPerRow (dropRepeats 0 (grantOffsets s.openRows))) rest := by
  apply readFrom_packed (by decide)
  intro place
  have filed : (s.storeBlock params miner hash).database.read
      (.adminMinerGrant hash (place + 1)) = _ :=
    read_storeBlockInfo precheck permissioned true place
  unfold getBlockAdminMinerGrants
  rw [filed]
  by_cases inside :
      mcPlsSizeOffsetsPerRow * place < (dropRepeats 0 (grantOffsets s.openRows)).length
  · rw [if_pos inside, if_pos inside]
    rfl
  · rw [if_neg inside, if_neg inside]

/-- The journal of a block is complete behind `Commit` if and only if it was before, and
behind `StoreBlockInfo` if and only if the rows of each transaction stand together in the
memory pool, none has the offset 0, and no older record of the block goes on behind. -/
theorem grantJournal_complete_iff (params : NetworkParams) (s : Permissions) (miner : Address)
    (hash : Hash) (precheck : params.supportMinerPrecheck = true)
    (permissioned : params.anyoneCanMine = false) :
    (ReadsGrants (s.commit params miner hash) hash (grantOffsets s.memPool.rows).eraseDups ↔
      ReadsGrants { s with database := s.database.commit } hash
        (grantOffsets s.memPool.rows).eraseDups) ∧
    (ReadsGrants (s.storeBlock params miner hash) hash (grantOffsets s.openRows).eraseDups ↔
      0 ∉ grantOffsets s.openRows ∧ ((grantOffsets s.openRows).destutter (· ≠ ·)).Nodup ∧
        ReadFrom 0 (fun place =>
            (getBlockAdminMinerGrants { s with database := s.database.commit } hash
              (place + 1)).toOption)
          (recordCount mcPlsSizeOffsetsPerRow (grantOffsets s.openRows).eraseDups) []) := by
  constructor
  · unfold ReadsGrants
    apply readFrom_congr
    intro place _
    unfold getBlockAdminMinerGrants
    rw [read_commit_adminMinerGrant precheck permissioned]
  · rw [readsGrants_storeBlock_iff precheck permissioned]
    constructor
    · rintro ⟨rest, complete, reads⟩
      obtain ⟨positive, together, rfl⟩ :=
        (eraseDups_eq_append_iff (pad_notMem_of_readFrom reads)).mp complete
      rw [dropRepeats_eq_eraseDups positive together] at reads
      exact ⟨positive, together, reads⟩
    · rintro ⟨positive, together, reads⟩
      rw [← dropRepeats_eq_eraseDups positive together] at reads
      exact ⟨[], (eraseDups_eq_append_iff List.not_mem_nil).mpr ⟨positive, together, rfl⟩, reads⟩

section FirstAdmin

/-- The parameters of a chain with the miner precheck. -/
def prechecked : NetworkParams := { unanimous with supportMinerPrecheck := true }

/-- The transaction at offset 81 makes an address an admin. -/
def firstAdmin : Permissions :=
  (initial.setPermission prechecked
    { entity := .null
      address := 7
      type := mcPtpAdmin
      admin := 7
      blockFrom := 0
      blockTo := 1000
      timestamp := 1
      flags := 0
      updateMempool := true
      offset := 81 }).1

/-- Behind the commit the journal of the block is empty. -/
theorem firstAdmin_not_journaled :
    grantOffsets firstAdmin.memPool.rows = [81] ∧
      ¬ ReadsGrants (firstAdmin.commit prechecked 7 1) 1
        (grantOffsets firstAdmin.memPool.rows).eraseDups := by
  have offsets : grantOffsets firstAdmin.memPool.rows = [81] := by decide +kernel
  refine ⟨offsets, fun complete => ?_⟩
  rw [offsets] at complete
  unfold ReadsGrants at complete
  have notFound : ((firstAdmin.commit prechecked 7 1).getBlockAdminMinerGrants 1 1).toOption =
      none := by
    decide +kernel
  have nothing : ReadFrom 0 (fun place => ((firstAdmin.commit prechecked 7 1).getBlockAdminMinerGrants
      1 (place + 1)).toOption) 0 [] := .missing notFound
  exact absurd (readFrom_unique complete nothing) (by decide)

theorem grantJournal_complete_iff_firstAdmin :
    (ReadsGrants (firstAdmin.commit prechecked 7 1) 1
        (grantOffsets firstAdmin.memPool.rows).eraseDups ↔
      ReadsGrants { firstAdmin with database := firstAdmin.database.commit } 1
        (grantOffsets firstAdmin.memPool.rows).eraseDups) ∧
    (ReadsGrants (firstAdmin.storeBlock prechecked 7 1) 1
        (grantOffsets firstAdmin.openRows).eraseDups ↔
      0 ∉ grantOffsets firstAdmin.openRows ∧
        ((grantOffsets firstAdmin.openRows).destutter (· ≠ ·)).Nodup ∧
        ReadFrom 0 (fun place =>
            (getBlockAdminMinerGrants { firstAdmin with database := firstAdmin.database.commit } 1
              (place + 1)).toOption)
          (recordCount mcPlsSizeOffsetsPerRow (grantOffsets firstAdmin.openRows).eraseDups) []) :=
  grantJournal_complete_iff prechecked firstAdmin 7 1 rfl rfl

end FirstAdmin

end Permissions

end HdacNode
