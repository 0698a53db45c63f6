import HdacNode.LinkedRowLog
import HdacNode.PermissionBlocks

/-!
# The history behind the permission store

The live rows of the ledger file, newest first, followed below by those of the
memory pool on top, form one linked log: every row links to the previous row
of its key.  The rows that index blocks by height are the exception.  They
have a key each, but link to the row of the previous height, so for the links
they all count as rows of one key.
-/

namespace HdacNode

open LinkedRowLog WriteBatch

/-- The key under which a row is linked. -/
def linkKey (row : LedgerRow) : Key :=
  if row.key.type = mcPtpBlockIndex then blockIndexKey 0 else row.key

theorem blockMinerKey_type_ne (miner : Address) :
    (blockMinerKey miner).type ≠ mcPtpBlockIndex := by
  simp [blockMinerKey, nullKey, mcPtpBlockMiner, mcPtpBlockIndex]

/-- The links of the permission ledger. -/
def ledgerShape : Shape Key LedgerRow := ⟨linkKey, LedgerRow.prevRow, LedgerRow.thisRow⟩

/-- The first rows of a ledger file behind the header, newest first. -/
def ledgerLog (ledger : RowFile LedgerRow) : Nat → List LedgerRow
  | 0 => []
  | count + 1 => (ledger.getRow (count + 1)).getD .zero :: ledgerLog ledger count

@[simp]
theorem ledgerLog_length (ledger : RowFile LedgerRow) (count : Nat) :
    (ledgerLog ledger count).length = count := by
  induction count with
  | zero => rfl
  | succ count ih => simp [ledgerLog, ih]

theorem ledgerLog_congr {first second : RowFile LedgerRow} {count : Nat}
    (same : ∀ rowID, 0 < rowID → rowID ≤ count → first.getRow rowID = second.getRow rowID) :
    ledgerLog first count = ledgerLog second count := by
  induction count with
  | zero => rfl
  | succ count ih =>
      unfold ledgerLog
      rw [same (count + 1) (by omega) le_rfl,
        ih fun rowID positive below => same rowID positive (by omega)]

theorem ledgerLog_position (ledger : RowFile LedgerRow) (position count : Nat) :
    ledgerLog { ledger with position := position } count = ledgerLog ledger count :=
  ledgerLog_congr fun _ _ _ => rfl

/-- The header row is not part of the log. -/
@[simp]
theorem ledgerLog_setRow_zero (ledger : RowFile LedgerRow) (row : LedgerRow) (count : Nat) :
    ledgerLog (ledger.setRow 0 row) count = ledgerLog ledger count :=
  ledgerLog_congr fun _ positive _ => RowFile.getRow_setRow_of_gt _ _ positive

/-- The lower part of a log is the log of the lower rows. -/
theorem ledgerLog_of_append {ledger : RowFile LedgerRow} {count : Nat}
    {segment rest : List LedgerRow} (log : ledgerLog ledger count = segment ++ rest) :
    ledgerLog ledger rest.length = rest := by
  induction count generalizing segment with
  | zero =>
      have empty : rest = [] := (List.append_eq_nil_iff.1 log.symm).2
      rw [empty]
      rfl
  | succ count ih =>
      cases segment with
      | nil =>
          have lengthEq := congrArg List.length log
          rw [ledgerLog_length, List.nil_append] at lengthEq
          rw [← lengthEq]
          exact log
      | cons row segment => exact ih (List.cons.inj log).2

theorem rowAt_ledgerLog (ledger : RowFile LedgerRow) {count rowID : Nat}
    (positive : 0 < rowID) (inside : rowID ≤ count) :
    Shape.rowAt (ledgerLog ledger count) rowID = some ((ledger.getRow rowID).getD .zero) := by
  induction count with
  | zero => omega
  | succ count ih =>
      unfold ledgerLog Shape.rowAt
      rw [ledgerLog_length]
      split
      · rename_i atTop
        rw [atTop]
      · exact ih (by omega)

theorem ledgerLog_writeRows (ledger : RowFile LedgerRow) (rows : List LedgerRow)
    (behind : 0 < ledger.position) (inside : ledger.position ≤ ledger.size) :
    ledgerLog (ledger.writeRows rows) (ledger.position - 1 + rows.length) =
      rows.reverse ++ ledgerLog ledger (ledger.position - 1) := by
  have readBelow : ∀ rowID < ledger.position,
      (ledger.writeRows rows).getRow rowID = ledger.getRow rowID := by
    intro rowID before
    simp only [RowFile.getRow, RowFile.size_writeRows _ _ inside,
      RowFile.writeRows_row_of_lt _ _ before]
    rw [if_pos (by omega), if_pos (by omega)]
  have readAbove : ∀ index (inRows : index < rows.length),
      (ledger.writeRows rows).getRow (ledger.position + index) = some rows[index] := by
    intro index inRows
    simp only [RowFile.getRow, RowFile.size_writeRows _ _ inside,
      RowFile.writeRows_row_getElem _ _ inRows]
    rw [if_pos (by omega)]
  have firsts : ∀ count ≤ rows.length,
      ledgerLog (ledger.writeRows rows) (ledger.position - 1 + count) =
        (rows.take count).reverse ++ ledgerLog ledger (ledger.position - 1) := by
    intro count countLe
    induction count with
    | zero =>
        exact ledgerLog_congr fun rowID _ below => readBelow rowID (by omega)
    | succ count ih =>
        have inRows : count < rows.length := by omega
        have place : ledger.position - 1 + count + 1 = ledger.position + count := by omega
        rw [← Nat.add_assoc, ledgerLog, ih (by omega), place, readAbove count inRows,
          List.take_succ_eq_append_getElem inRows, List.reverse_append]
        rfl
  simpa using firsts rows.length le_rfl

theorem linkKey_of_ne {row : LedgerRow} (notIndex : row.key.type ≠ mcPtpBlockIndex) :
    linkKey row = row.key :=
  if_neg notIndex

/-- Away from the index rows, rows are linked under their own keys. -/
theorem linkKey_eq_iff {key : Key} (notIndex : key.type ≠ mcPtpBlockIndex) (row : LedgerRow) :
    linkKey row = key ↔ row.key = key := by
  unfold linkKey
  split
  · rename_i isIndex
    constructor
    · rintro rfl
      exact absurd rfl notIndex
    · rintro rfl
      exact absurd isIndex notIndex
  · rfl

/-- Away from the index rows, the newest row under a link key is the newest row
with that key. -/
theorem newestRow_eq_find? (log : List LedgerRow) {key : Key}
    (notIndex : key.type ≠ mcPtpBlockIndex) :
    ledgerShape.newestRow log key = log.find? fun row => row.key = key := by
  unfold Shape.newestRow
  congr 1
  funext row
  simp [ledgerShape, linkKey_eq_iff notIndex]

/-- A row of a linked log is read back at the position it names. -/
theorem ledgerRowAt_thisRow {files : PermissionFiles} {count : Nat}
    (linked : ledgerShape.Linked (ledgerLog files.ledger count)) :
    ∀ row ∈ ledgerLog files.ledger count, files.ledgerRowAt row.thisRow = row := by
  intro row member
  have positive := linked.thisRow_pos member
  have inside := linked.thisRow_le_length member
  have read := linked.rowAt_thisRow member
  rw [ledgerLog_length] at inside
  rw [rowAt_ledgerLog _ positive inside] at read
  exact Option.some.inj read

/-- A row appended by a grant: it belongs to the open block, names an account
and has one of the types of a mask. -/
structure GrantRow (row : LedgerRow) (height : Int) : Prop where
  received : row.blockReceived = height
  account : ∃ address, row.key.address = .account address
  type_mem : row.key.type ∈ grantableTypes

namespace GrantRow

variable {row : LedgerRow} {height : Int}

theorem key_ne_zeroKey (grantRow : GrantRow row height) : row.key ≠ zeroKey := by
  intro keyEq
  have := grantRow.type_mem
  rw [keyEq] at this
  revert this
  decide

theorem type_ne_blockIndex (grantRow : GrantRow row height) :
    row.key.type ≠ mcPtpBlockIndex := by
  intro isIndex
  have := grantRow.type_mem
  rw [isIndex] at this
  revert this
  decide

theorem type_ne_blockMiner (grantRow : GrantRow row height) :
    row.key.type ≠ mcPtpBlockMiner := by
  intro isMiner
  have := grantRow.type_mem
  rw [isMiner] at this
  revert this
  decide

end GrantRow

/-- The log of a chain of blocks, both newest first: every block has its grant
rows, then a row for its miner and one for its height. -/
inductive BlockLog : List LedgerRow → List (Address × Hash) → Prop
  | genesis : BlockLog [] []
  | block {log grants : List LedgerRow} {blocks : List (Address × Hash)}
      {minerRow indexRow : LedgerRow} {miner : Address} {hash : Hash}
      (older : BlockLog log blocks)
      (grantRows : ∀ row ∈ grants, GrantRow row blocks.length)
      (minerKey : minerRow.key = blockMinerKey miner)
      (minerReceived : minerRow.blockReceived = blocks.length)
      (indexKey : indexRow.key = blockIndexKey blocks.length)
      (indexReceived : indexRow.blockReceived = blocks.length)
      (indexHash : indexRow.commitHash = hash) :
      BlockLog (indexRow :: minerRow :: (grants ++ log)) ((miner, hash) :: blocks)

namespace BlockLog

theorem received_lt {log : List LedgerRow} {blocks : List (Address × Hash)}
    (blockLog : BlockLog log blocks) :
    ∀ row ∈ log, row.blockReceived < blocks.length := by
  induction blockLog with
  | genesis => simp
  | block older grantRows minerKey minerReceived indexKey indexReceived _ ih =>
      intro row member
      simp only [List.mem_cons, List.mem_append] at member
      simp only [List.length_cons]
      rcases member with rfl | rfl | inGrants | inOlder
      · omega
      · omega
      · have := (grantRows row inGrants).received
        omega
      · have := ih row inOlder
        omega

theorem exists_block_rows {log : List LedgerRow} {blocks : List (Address × Hash)}
    (blockLog : BlockLog log blocks) (nonempty : log ≠ []) :
    ∃ indexRow minerRow rest miner, log = indexRow :: minerRow :: rest ∧
      indexRow.key = blockIndexKey (blocks.length - 1) ∧ minerRow.key = blockMinerKey miner := by
  cases blockLog with
  | genesis => exact absurd rfl nonempty
  | @block log grants blocks minerRow indexRow miner hash older grantRows minerKey
      minerReceived indexKey =>
      refine ⟨indexRow, minerRow, grants ++ log, miner, rfl, ?_, minerKey⟩
      rw [indexKey]
      congr 2
      simp

/-- Every row is a row of a grant, of a miner or of a height. -/
theorem key_cases {log : List LedgerRow} {blocks : List (Address × Hash)}
    (blockLog : BlockLog log blocks) :
    ∀ row ∈ log, row.key.type ∈ grantableTypes ∨ (∃ miner, row.key = blockMinerKey miner) ∨
      row.key.type = mcPtpBlockIndex := by
  induction blockLog with
  | genesis => simp
  | block _ grantRows minerKey _ indexKey _ _ ih =>
      intro row member
      simp only [List.mem_cons, List.mem_append] at member
      rcases member with rfl | rfl | inGrants | inOlder
      · exact .inr (.inr (congrArg Key.type indexKey))
      · exact .inr (.inl ⟨_, minerKey⟩)
      · exact .inl (grantRows row inGrants).type_mem
      · exact ih row inOlder

theorem cut {log : List LedgerRow} {blocks : List (Address × Hash)}
    (blockLog : BlockLog log blocks) {kept : Nat} (inside : kept ≤ blocks.length) :
    ∃ segment rest, log = segment ++ rest ∧
      BlockLog rest (blocks.drop (blocks.length - kept)) ∧
      (∀ row ∈ segment, (kept : Int) ≤ row.blockReceived) := by
  induction blockLog with
  | genesis => exact ⟨[], [], rfl, by simpa using BlockLog.genesis, by simp⟩
  | @block log grants blocks minerRow indexRow miner hash older grantRows minerKey
      minerReceived indexKey indexReceived indexHash ih =>
      by_cases all : kept = blocks.length + 1
      · refine ⟨[], _, rfl, ?_, by simp⟩
        simpa [all] using BlockLog.block older grantRows minerKey minerReceived
          indexKey indexReceived indexHash
      · simp only [List.length_cons] at inside
        obtain ⟨segment, rest, rfl, restLog, segmentReceived⟩ := ih (by omega)
        refine ⟨indexRow :: minerRow :: (grants ++ segment), rest, by simp, ?_, ?_⟩
        · have dropEq : blocks.length + 1 - kept = blocks.length - kept + 1 := by omega
          simpa [dropEq] using restLog
        · intro row member
          simp only [List.mem_cons, List.mem_append] at member
          rcases member with rfl | rfl | inGrants | inSegment
          · omega
          · omega
          · have := (grantRows row inGrants).received
            omega
          · exact segmentReceived row inSegment

end BlockLog

end HdacNode
