import HdacNode.PermissionInvariant

/-!
# Grants and the memory pool keep the store consistent

A grant appends one row that links to the newest row of its key.  The memory
pool operations cut the log back to an earlier point or put rows back on top
of the committed ones.
-/

namespace HdacNode

open LinkedRowLog WriteBatch

namespace Permissions

section Consensus

/-- The fields of a row that the consensus check leaves alone. -/
structure SameIdentity (row original : LedgerRow) : Prop where
  key : row.key = original.key
  prevRow : row.prevRow = original.prevRow
  thisRow : row.thisRow = original.thisRow
  blockReceived : row.blockReceived = original.blockReceived

private theorem scanVotes_row {s : Permissions} {withRemaining : Bool}
    {newRow lastRow row : LedgerRow} {remaining : Nat} (fuel : Nat) :
    ∀ (scan : VoteScan) (pldRow : LedgerRow),
      scanVotes s withRemaining newRow lastRow fuel scan pldRow = .ok (row, remaining) →
      row = newRow ∨ row = outvoted newRow lastRow := by
  induction fuel with
  | zero =>
      intro scan pldRow result
      cases result
  | succ fuel ih =>
      intro scan pldRow result
      unfold scanVotes at result
      dsimp only at result
      split at result
      · cases result
        exact .inl rfl
      · split at result
        · cases result
          exact .inr rfl
        · split at result
          · cases result
          · split at result
            · cases result
              exact .inr rfl
            · exact ih _ _ result

/-- What the consensus check makes of a new row: without consensus the row takes
over the range of the last row. -/
structure Decided (row original last : LedgerRow) : Prop extends SameIdentity row original where
  carried : row.consensus = 0 → row.blockFrom = last.blockFrom ∧ row.blockTo = last.blockTo

theorem verifyConsensus_decided {params : NetworkParams} {s : Permissions}
    {withRemaining : Bool} {newRow lastRow row : LedgerRow} {remaining : Nat}
    (result : verifyConsensus params s withRemaining newRow lastRow = .ok (row, remaining)) :
    Decided row newRow lastRow := by
  have positive := adminConsensus_pos params s newRow.key.entity newRow.key.type
  have counted : adminConsensus params s newRow.key.entity newRow.key.type ≠ 0 := by omega
  unfold verifyConsensus at result
  dsimp only at result
  split at result
  · cases result
    exact ⟨⟨rfl, rfl, rfl, rfl⟩, fun noConsensus => absurd noConsensus counted⟩
  · rcases scanVotes_row _ _ _ result with rfl | rfl
    · exact ⟨⟨rfl, rfl, rfl, rfl⟩, fun noConsensus => absurd noConsensus counted⟩
    · exact ⟨⟨rfl, rfl, rfl, rfl⟩, fun _ => ⟨rfl, rfl⟩⟩

end Consensus

theorem fullLog_length {s : Permissions} (rowsPos : s.memPool.count < s.row) :
    s.fullLog.length + 1 = s.row := by
  simp only [fullLog, List.length_append, List.length_reverse, RowBuffer.rows_length,
    Consistent.liveLog_length]
  unfold countLedgerRows
  omega

@[simp]
theorem countLedgerRows_appendRow (s : Permissions) (row : LedgerRow) :
    (s.appendRow row).countLedgerRows = s.countLedgerRows := by
  simp [countLedgerRows, appendRow]

@[simp]
theorem liveLog_appendRow (s : Permissions) (row : LedgerRow) :
    (s.appendRow row).liveLog = s.liveLog := by
  simp only [liveLog, countLedgerRows_appendRow]
  rfl

@[simp]
theorem fullLog_appendRow (s : Permissions) (row : LedgerRow) :
    (s.appendRow row).fullLog = row :: s.fullLog := by
  simp only [fullLog, liveLog_appendRow]
  simp [appendRow]

/-- Appending a grant row that links to the newest row of its key. -/
theorem Consistent.appendRow {s : Permissions} {blocks : List (Address × Hash)} {top : Int}
    (consistent : Consistent s blocks top) {row : LedgerRow}
    (grantRow : GrantRow row (s.block + 1)) (thisRow : row.thisRow = s.row)
    (prevRow : row.prevRow = ledgerShape.newest s.fullLog row.key) :
    Consistent (s.appendRow row) blocks top := by
  have rowsPos := consistent.rows_pos
  refine consistent.withPool rfl rfl rfl ?_
    (RowBuffer.coherent_add _ consistent.memCoherent) ?_ ?_
  · change s.row + 1 = s.countLedgerRows + (s.memPool.count + 1)
    unfold countLedgerRows
    omega
  · intro other member
    have : other ∈ s.memPool.rows ∨ other = row := by
      simpa [Permissions.appendRow] using member
    rcases this with inPool | rfl
    · exact consistent.memRows other inPool
    · exact grantRow
  · rw [← liveLog_appendRow s row]
    change ledgerShape.Linked (s.appendRow row).fullLog
    rw [fullLog_appendRow]
    refine ⟨?_, ?_, consistent.linked⟩
    · have := fullLog_length rowsPos
      change row.thisRow = _
      omega
    · change row.prevRow = ledgerShape.newest s.fullLog (linkKey row)
      rw [linkKey_of_ne grantRow.type_ne_blockIndex, prevRow]

/-- A grant for one type leaves the store as it is or appends one row that
links to the newest row of its key. -/
theorem setPermissionType_cases (params : NetworkParams) (s : Permissions) (grant : Grant)
    (type : Nat) :
    (s.setPermissionType params grant type).1 = s ∨
      ∃ row, Decided row (s.newLedgerRow grant type
          (s.getPermissionRow ⟨grant.entity, .account grant.address, type⟩ true))
          (s.getPermissionRow ⟨grant.entity, .account grant.address, type⟩ true) ∧
        (s.setPermissionType params grant type).1 =
          (s.saveClearedCounts.appendRow row).adjustCounts grant type
            (s.getPermission ⟨grant.entity, .account grant.address, type⟩ true) := by
  unfold setPermissionType
  dsimp only
  cases result : verifyConsensus params s false (s.newLedgerRow grant type
      (s.getPermissionRow ⟨grant.entity, .account grant.address, type⟩ true))
      (s.getPermissionRow ⟨grant.entity, .account grant.address, type⟩ true) with
  | error err => exact .inl rfl
  | ok outcome =>
      obtain ⟨row, remaining⟩ := outcome
      cases grant.updateMempool with
      | false => exact .inl rfl
      | true => exact .inr ⟨row, verifyConsensus_decided result, rfl⟩

theorem sameStore_saveClearedCounts (s : Permissions) : SameStore s s.saveClearedCounts := by
  unfold saveClearedCounts
  split <;> exact ⟨rfl, rfl, rfl, rfl, rfl, rfl⟩

theorem sameStore_adjustCounts (s : Permissions) (grant : Grant) (type lastAllowed : Nat) :
    SameStore s (s.adjustCounts grant type lastAllowed) := by
  unfold adjustCounts
  split
  · dsimp only
    split <;> exact ⟨rfl, rfl, rfl, rfl, rfl, rfl⟩
  · exact ⟨rfl, rfl, rfl, rfl, rfl, rfl⟩

theorem SameStore.appendRow {s other : Permissions} (same : SameStore s other)
    (row : LedgerRow) : SameStore (s.appendRow row) (other.appendRow row) where
  files := same.files
  memPool := congrArg (·.add memPoolKey row) same.memPool
  block := same.block
  row := congrArg (· + 1) same.row
  fork := same.fork
  forkBlock := same.forkBlock

namespace Consistent

variable {s : Permissions} {blocks : List (Address × Hash)} {top : Int}

/-- The previous row a query reports is the newest one of the log. -/
theorem thisRow_getPermissionRow (consistent : Consistent s blocks top) {key : Key}
    (notZero : key ≠ zeroKey) (notIndex : key.type ≠ mcPtpBlockIndex) :
    (s.getPermissionRow key true).thisRow = ledgerShape.newest s.fullLog key := by
  have notAbove : ¬ s.AboveTip key := by
    rintro ⟨height, -, rfl⟩
    exact notIndex rfl
  have reports := consistent.getPermissionRow_true notZero notAbove
  rw [newest_eq_thisRow consistent.linked notIndex]
  cases found : newestOf s.fullLog key with
  | none =>
      rw [found] at reports
      exact reports.2.2
  | some row =>
      rw [found] at reports
      exact reports.2.2

theorem setPermissionType (consistent : Consistent s blocks top) (params : NetworkParams)
    (grant : Grant) {type : Nat} (typeMem : type ∈ grantableTypes) :
    Consistent (s.setPermissionType params grant type).1 blocks top := by
  rcases setPermissionType_cases params s grant type with unchanged | ⟨row, identity, changed⟩
  · rw [unchanged]
    exact consistent
  · rw [changed]
    have rowKey : row.key = ⟨grant.entity, .account grant.address, type⟩ := identity.key
    have grantRow : GrantRow row (s.block + 1) :=
      ⟨identity.blockReceived, ⟨grant.address, by rw [rowKey]⟩, by rw [rowKey]; exact typeMem⟩
    have prevRow : row.prevRow = ledgerShape.newest s.fullLog row.key := by
      have queried := consistent.thisRow_getPermissionRow grantRow.key_ne_zeroKey
        grantRow.type_ne_blockIndex
      rw [← queried, identity.prevRow, rowKey]
      rfl
    have appended := consistent.appendRow grantRow identity.thisRow prevRow
    have saved := appended.of_sameStore ((sameStore_saveClearedCounts s).appendRow row)
    exact saved.of_sameStore (sameStore_adjustCounts _ _ _ _)

end Consistent

/-- What every grant of one type keeps, `SetPermissionInternal` keeps. -/
theorem setPermissionInternal_induction {params : NetworkParams} {grant : Grant}
    {motive : Permissions → Prop} {s : Permissions}
    (step : ∀ s type, type ∈ grantableTypes → motive s →
      motive (s.setPermissionType params grant type).1)
    (start : motive s) : motive (s.setPermissionInternal params grant).1 := by
  have loop : ∀ types : List Nat, (∀ type ∈ types, type ∈ grantableTypes) →
      ∀ s, motive s → motive (setPermissionTypes params grant types s).1 := by
    intro types
    induction types with
    | nil => intro _ s holds; exact holds
    | cons type types ih =>
        intro inTypes s holds
        have rest := ih fun other member => inTypes other (List.mem_cons_of_mem _ member)
        unfold setPermissionTypes
        split
        · exact rest s holds
        · have stepped := step s type (inTypes type (List.mem_cons_self ..)) holds
          cases result : s.setPermissionType params grant type with
          | mk next err =>
              rw [result] at stepped
              cases err with
              | some err => exact stepped
              | none => exact rest next stepped
  exact loop grantableTypes (fun _ member => member) s start

theorem setPermission_induction {params : NetworkParams} {grant : Grant}
    {motive : Permissions → Prop} {s : Permissions}
    (step : ∀ s type, type ∈ grantableTypes → motive s →
      motive (s.setPermissionType params grant type).1)
    (start : motive s) : motive (s.setPermission params grant).1 := by
  unfold setPermission
  split
  · exact start
  · exact setPermissionInternal_induction step start

/-- What every grant of one type keeps, `SetApproval` keeps. -/
theorem setApproval_induction {params : NetworkParams} {approval : Approval}
    {motive : Permissions → Prop} {s : Permissions}
    (step : ∀ s grant type, type ∈ grantableTypes → motive s →
      motive (s.setPermissionType params grant type).1)
    (start : motive s) : motive (s.setApproval params approval).1 := by
  have internal : ∀ s grant, motive s → motive (s.setPermissionInternal params grant).1 :=
    fun s grant holds => setPermissionInternal_induction (fun s type => step s grant type) holds
  have listed : motive (s.createUpgradeList params approval).1 := by
    unfold createUpgradeList
    split
    · exact internal s _ start
    · exact start
  unfold setApproval
  cases result : s.createUpgradeList params approval with
  | mk next err =>
      rw [result] at listed
      cases err with
      | some err => exact listed
      | none =>
          cases approval.admin with
          | none => exact internal next _ listed
          | some admin =>
              dsimp only
              split
              · exact listed
              · exact internal next _ listed

namespace Consistent

variable {s : Permissions} {blocks : List (Address × Hash)} {top : Int}

theorem setPermission (consistent : Consistent s blocks top) (params : NetworkParams)
    (grant : Grant) : Consistent (s.setPermission params grant).1 blocks top :=
  setPermission_induction (motive := fun s => Consistent s blocks top)
    (fun _ _ typeMem consistent => consistent.setPermissionType params grant typeMem) consistent

theorem setApproval (consistent : Consistent s blocks top) (params : NetworkParams)
    (approval : Approval) : Consistent (s.setApproval params approval).1 blocks top :=
  setApproval_induction (motive := fun s => Consistent s blocks top)
    (fun _ grant _ typeMem consistent => consistent.setPermissionType params grant typeMem)
    consistent

end Consistent

end Permissions

end HdacNode
