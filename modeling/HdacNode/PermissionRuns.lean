import HdacNode.PermissionRollBackSteps

/-!
# Runs of the permission store

A run starts from new files and is a sequence of calls.  Next to the store it
keeps what the callers know: the blocks they committed, and whether a
checkpoint or a copy of the memory pool can still be gone back to.  A
checkpoint is lost when the memory pool is cleared, a copy when the chain
changes.
-/

namespace HdacNode

open LinkedRowLog WriteBatch

/-- The store before its first start. -/
def newFiles : PermissionFiles where
  database := ⟨∅, []⟩
  ledger := RowFile.empty .zero

namespace Permissions

/-- The store after its first start. -/
def initial : Permissions :=
  { Permissions.zero with
    database :=
      ((openDatabase newFiles.database).write ⟨adminMinerHeader, some (.row .zero)⟩).commit
    ledger := openLedger newFiles.ledger
    row := 1 }

/-- The zero row is the only permission row of a new database. -/
theorem readRow_initial (key : Key) :
    initial.readRow key = if key = zeroKey then some ⟨0, -1, 1, 0⟩ else none := by
  let header : Write DBKey DBValue := ⟨adminMinerHeader, some (.row .zero)⟩
  let zeroRow : Write DBKey DBValue := ⟨.permission zeroKey, some (.row ⟨0, -1, 1, 0⟩)⟩
  have read : initial.database.read (.permission key) =
      ((Store.writeNow ⟨∅, []⟩ zeroRow).write header).commit.read (.permission key) := rfl
  have headerFree : lastWrite [header] (.permission key) = none := by
    rw [lastWrite_singleton, if_neg]
    intro sameKey
    cases sameKey
  have pending : ((Store.writeNow ⟨∅, []⟩ zeroRow).write header).pending = [header] := rfl
  rw [PermissionFiles.readRow, read, Store.read_commit, pending, headerFree]
  dsimp only
  rw [Store.read_write, Store.read_writeNow]
  by_cases isZero : key = zeroKey
  · subst isZero
    rfl
  · have otherKey : ¬ zeroRow.key = .permission key :=
      fun sameKey => isZero (DBKey.permission.inj sameKey).symm
    rw [if_neg otherKey, if_neg isZero]
    rfl

/-- A new store stands for no blocks. -/
theorem consistent_initial : Consistent initial [] (-1) where
  fork := rfl
  pending := rfl
  rows_pos := Nat.zero_lt_one
  rows_le := le_rfl
  linked := trivial
  blockLog := BlockLog.genesis
  height := rfl
  top_le := le_rfl
  memCoherent := RowBuffer.coherent_initializeBuffer _ _
  memRows := by
    intro row member
    cases member
  header := ⟨rfl, rfl⟩
  zeroRow := readRow_initial zeroKey
  database := by
    intro key notZero _
    rw [readRow_initial, if_neg notZero]
    trivial
  aboveTip := by
    intro height above
    have notZero : blockIndexKey height ≠ zeroKey := by simp [blockIndexKey, zeroKey]
    rw [readRow_initial, if_neg notZero]
    refine ⟨⟨fun absurdity => absurd rfl absurdity, fun between => by omega⟩, ?_⟩
    intro pdbRow found
    cases found
  listHeader := by
    change Store.read (Store.commit _) _ ≠ none
    rw [Store.read_commit]
    exact Option.some_ne_none _
  listed := by
    intro address type isListed present
    have notZero : nullKey address type ≠ zeroKey := by
      rcases isListed with rfl | rfl <;> simp [nullKey, zeroKey, mcPtpAdmin, mcPtpMine]
    rw [readRow_initial, if_neg notZero] at present
    exact absurd rfl present

section MemPool

variable {s : Permissions} {blocks : List (Address × Hash)} {top : Int}

/-- The checkpoint is an earlier point of the memory pool. -/
structure CheckPointed (s : Permissions) : Prop where
  size_le : s.checkPointMemPoolSize ≤ s.memPool.count
  row : s.checkPointRow + (s.memPool.count - s.checkPointMemPoolSize) = s.row

/-- The copied rows continue the committed log. -/
structure Copied (s : Permissions) : Prop where
  linked : ledgerShape.Linked (s.copiedMemPool.rows.reverse ++ s.liveLog)
  grantRows : ∀ row ∈ s.copiedMemPool.rows, GrantRow row (s.block + 1)

theorem checkPointed_setCheckPoint (s : Permissions) : CheckPointed s.setCheckPoint where
  size_le := le_rfl
  row := by
    change s.row + (s.memPool.count - s.memPool.count) = s.row
    omega

theorem rows_addRows (buffer source : RowBuffer MemPoolKey LedgerRow) :
    (addRows buffer source).rows = buffer.rows ++ source.rows := by
  unfold addRows
  generalize source.rows = rows
  induction rows generalizing buffer with
  | nil => simp
  | cons row rows ih => simp [ih]

theorem coherent_addRows {buffer : RowBuffer MemPoolKey LedgerRow}
    (source : RowBuffer MemPoolKey LedgerRow)
    (coherent : RowBuffer.Coherent memPoolKey buffer) :
    RowBuffer.Coherent memPoolKey (addRows buffer source) := by
  unfold addRows
  generalize source.rows = rows
  induction rows generalizing buffer with
  | nil => exact coherent
  | cons row rows ih => exact ih (RowBuffer.coherent_add _ coherent)

theorem rows_copyMemPool (s : Permissions) :
    s.copyMemPool.copiedMemPool.rows = s.memPool.rows := by
  change (addRows _ _).rows = _
  rw [rows_addRows, RowBuffer.rows_clear, List.nil_append]

namespace Consistent

theorem copied_copyMemPool (consistent : Consistent s blocks top) : Copied s.copyMemPool := by
  constructor
  · rw [rows_copyMemPool]
    exact consistent.linked
  · rw [rows_copyMemPool]
    exact consistent.memRows

theorem rows_rollBackToCheckPoint (checkPointed : CheckPointed s) :
    s.rollBackToCheckPoint.memPool.rows = s.memPool.rows.take s.checkPointMemPoolSize :=
  RowBuffer.rows_setCount checkPointed.size_le

theorem row_rollBackToCheckPoint (consistent : Consistent s blocks top)
    (checkPointed : CheckPointed s) :
    s.rollBackToCheckPoint.row = s.countLedgerRows + s.rollBackToCheckPoint.memPool.count := by
  obtain ⟨sizeLe, rowEq⟩ := checkPointed
  have rowsPos := consistent.rows_pos
  change s.checkPointRow = s.countLedgerRows + (s.memPool.setCount memPoolKey _).count
  rw [RowBuffer.count_setCount]
  unfold countLedgerRows
  omega

theorem liveLog_rollBackToCheckPoint (consistent : Consistent s blocks top)
    (checkPointed : CheckPointed s) : s.rollBackToCheckPoint.liveLog = s.liveLog := by
  have rowEq := consistent.row_rollBackToCheckPoint checkPointed
  have countEq : s.rollBackToCheckPoint.countLedgerRows = s.countLedgerRows := by
    rw [countLedgerRows, rowEq, Nat.add_sub_cancel]
  rw [liveLog, countEq]
  rfl

theorem rollBackToCheckPoint (consistent : Consistent s blocks top)
    (checkPointed : CheckPointed s) : Consistent s.rollBackToCheckPoint blocks top := by
  have rowsEq := rows_rollBackToCheckPoint checkPointed
  refine consistent.withPool rfl rfl rfl (consistent.row_rollBackToCheckPoint checkPointed)
    (RowBuffer.coherent_setCount consistent.memCoherent checkPointed.size_le) ?_ ?_
  · intro row member
    rw [rowsEq] at member
    exact consistent.memRows row (List.mem_of_mem_take member)
  · rw [rowsEq]
    have linked := consistent.linked
    rw [fullLog, ← List.take_append_drop s.checkPointMemPoolSize s.memPool.rows,
      List.reverse_append, List.append_assoc] at linked
    exact linked.of_append

theorem rows_restoreMemPool (consistent : Consistent s blocks top) :
    s.restoreMemPool.memPool.rows = s.copiedMemPool.rows := by
  have cleared := consistent.clearMemPool_result
  change (addRows s.clearMemPool.memPool s.clearMemPool.copiedMemPool).rows = _
  rw [rows_addRows, cleared.rows, List.nil_append, cleared.copiedMemPool]

theorem row_restoreMemPool (consistent : Consistent s blocks top) :
    s.restoreMemPool.row = s.countLedgerRows + s.restoreMemPool.memPool.count := by
  have result := consistent.clearMemPool_result
  have countEq : s.restoreMemPool.memPool.count = s.clearMemPool.copiedMemPool.count := by
    rw [← RowBuffer.rows_length, consistent.rows_restoreMemPool, ← result.copiedMemPool,
      RowBuffer.rows_length]
  change s.clearMemPool.row + s.clearMemPool.copiedMemPool.count = _
  rw [countEq, result.row]

theorem liveLog_restoreMemPool (consistent : Consistent s blocks top) :
    s.restoreMemPool.liveLog = s.liveLog := by
  have rowEq := consistent.row_restoreMemPool
  have countEq : s.restoreMemPool.countLedgerRows = s.countLedgerRows := by
    rw [countLedgerRows, rowEq, Nat.add_sub_cancel]
  have files : s.restoreMemPool.toPermissionFiles = s.toPermissionFiles :=
    consistent.clearMemPool_result.files
  rw [liveLog, countEq, files]
  rfl

theorem restoreMemPool (consistent : Consistent s blocks top) (copied : Copied s) :
    Consistent s.restoreMemPool blocks top := by
  have rowsEq := consistent.rows_restoreMemPool
  have cleared := consistent.clearMemPool
  have result := consistent.clearMemPool_result
  have rowEq : s.restoreMemPool.row =
      s.clearMemPool.countLedgerRows + s.restoreMemPool.memPool.count := by
    rw [result.countLedgerRows]
    exact consistent.row_restoreMemPool
  refine cleared.withPool rfl rfl rfl rowEq (coherent_addRows _ cleared.memCoherent) ?_ ?_
  · rw [rowsEq, result.block]
    exact copied.grantRows
  · rw [rowsEq, result.liveLog]
    exact copied.linked

end Consistent

end MemPool

section Grants

/-- Grants only append rows to the memory pool. -/
structure Grown (s after : Permissions) : Prop where
  files : after.toPermissionFiles = s.toPermissionFiles
  block : after.block = s.block
  rows : s.memPool.rows <+: after.memPool.rows
  row : after.row + s.memPool.count = s.row + after.memPool.count
  checkPointRow : after.checkPointRow = s.checkPointRow
  checkPointMemPoolSize : after.checkPointMemPoolSize = s.checkPointMemPoolSize
  checkPointAdminCount : after.checkPointAdminCount = s.checkPointAdminCount
  checkPointMinerCount : after.checkPointMinerCount = s.checkPointMinerCount
  copiedMemPool : after.copiedMemPool = s.copiedMemPool
  copiedAdminCount : after.copiedAdminCount = s.copiedAdminCount
  copiedMinerCount : after.copiedMinerCount = s.copiedMinerCount

namespace Grown

variable {s middle after : Permissions}

theorem refl (s : Permissions) : Grown s s where
  files := rfl
  block := rfl
  rows := List.prefix_rfl
  row := rfl
  checkPointRow := rfl
  checkPointMemPoolSize := rfl
  checkPointAdminCount := rfl
  checkPointMinerCount := rfl
  copiedMemPool := rfl
  copiedAdminCount := rfl
  copiedMinerCount := rfl

theorem trans (first : Grown s middle) (second : Grown middle after) : Grown s after where
  files := second.files.trans first.files
  block := second.block.trans first.block
  rows := first.rows.trans second.rows
  row := by
    have := first.row
    have := second.row
    omega
  checkPointRow := second.checkPointRow.trans first.checkPointRow
  checkPointMemPoolSize := second.checkPointMemPoolSize.trans first.checkPointMemPoolSize
  checkPointAdminCount := second.checkPointAdminCount.trans first.checkPointAdminCount
  checkPointMinerCount := second.checkPointMinerCount.trans first.checkPointMinerCount
  copiedMemPool := second.copiedMemPool.trans first.copiedMemPool
  copiedAdminCount := second.copiedAdminCount.trans first.copiedAdminCount
  copiedMinerCount := second.copiedMinerCount.trans first.copiedMinerCount

theorem count_le (grown : Grown s after) : s.memPool.count ≤ after.memPool.count := by
  simpa using grown.rows.length_le

theorem liveLog (grown : Grown s after) : after.liveLog = s.liveLog := by
  have countEq : after.countLedgerRows = s.countLedgerRows := by
    have := grown.row
    have := grown.count_le
    unfold countLedgerRows
    omega
  rw [Permissions.liveLog, countEq, grown.files]
  rfl

theorem checkPointed (grown : Grown s after) (checkPointed : CheckPointed s) :
    CheckPointed after where
  size_le := by
    rw [grown.checkPointMemPoolSize]
    exact checkPointed.size_le.trans grown.count_le
  row := by
    have sizeLe := checkPointed.size_le
    have rowEq := checkPointed.row
    have := grown.row
    have := grown.count_le
    rw [grown.checkPointRow, grown.checkPointMemPoolSize]
    omega

theorem copied (grown : Grown s after) (copied : Copied s) : Copied after where
  linked := by
    rw [grown.copiedMemPool, grown.liveLog]
    exact copied.linked
  grantRows := by
    rw [grown.copiedMemPool, grown.block]
    exact copied.grantRows

end Grown

theorem grown_setPermissionType (params : NetworkParams) (s : Permissions) (grant : Grant)
    (type : Nat) : Grown s (s.setPermissionType params grant type).1 := by
  rcases setPermissionType_cases params s grant type with unchanged | ⟨row, -, changed⟩
  · rw [unchanged]
    exact .refl s
  · have saved : Grown s (s.saveClearedCounts.appendRow row) := by
      have rows : (s.saveClearedCounts.appendRow row).memPool.rows = s.memPool.rows ++ [row] := by
        have same := (sameStore_saveClearedCounts s).memPool
        simp [Permissions.appendRow, same]
      have count : (s.saveClearedCounts.appendRow row).memPool.count = s.memPool.count + 1 := by
        rw [← RowBuffer.rows_length, rows]
        simp
      have rowEq : (s.saveClearedCounts.appendRow row).row = s.row + 1 :=
        congrArg (· + 1) (sameStore_saveClearedCounts s).row
      refine ⟨?_, ?_, by rw [rows]; exact List.prefix_append .., by omega, ?_, ?_, ?_, ?_,
        ?_, ?_, ?_⟩
      all_goals
        unfold saveClearedCounts
        split <;> rfl
    have adjusted : Grown (s.saveClearedCounts.appendRow row)
        ((s.saveClearedCounts.appendRow row).adjustCounts grant type
          (s.getPermission ⟨grant.entity, .account grant.address, type⟩ true)) := by
      unfold adjustCounts
      split
      · dsimp only
        split <;>
          exact ⟨rfl, rfl, List.prefix_rfl, rfl, rfl, rfl, rfl, rfl, rfl, rfl, rfl⟩
      · exact .refl _
    rw [changed]
    exact saved.trans adjusted

theorem grown_setPermission (params : NetworkParams) (s : Permissions) (grant : Grant) :
    Grown s (s.setPermission params grant).1 :=
  setPermission_induction (fun middle type _ grown =>
    grown.trans (grown_setPermissionType params middle grant type)) (.refl s)

theorem grown_setApproval (params : NetworkParams) (s : Permissions) (approval : Approval) :
    Grown s (s.setApproval params approval).1 :=
  setApproval_induction (fun middle grant type _ grown =>
    grown.trans (grown_setPermissionType params middle grant type)) (.refl s)

end Grants

end Permissions

/-- One call of the permission store. -/
inductive PermissionCall where
  | setPermission (grant : Grant)
  | setApproval (approval : Permissions.Approval)
  | setCheckPoint
  | rollBackToCheckPoint
  | copyMemPool
  | clearMemPool
  | restoreMemPool
  | commit (miner : Address) (hash : Hash)
  | rollBack (block : Int)

/-- A block that was committed. -/
structure CommittedBlock where
  height : Int
  miner : Address
  hash : Hash

/-- The permission store and what its callers know: the commits, last one first,
and whether there is a checkpoint or a copy to go back to. -/
structure PermissionRun where
  store : Permissions
  commits : List CommittedBlock
  checkPointed : Bool
  copied : Bool

namespace PermissionRun

/-- A run that has not made a call yet. -/
def start : PermissionRun := ⟨Permissions.initial, [], false, false⟩

section Calls

variable (params : NetworkParams)

/-- The store after a call. -/
def callStore (s : Permissions) : PermissionCall → Permissions
  | .setPermission grant => (s.setPermission params grant).1
  | .setApproval approval => (s.setApproval params approval).1
  | .setCheckPoint => s.setCheckPoint
  | .rollBackToCheckPoint => s.rollBackToCheckPoint
  | .copyMemPool => s.copyMemPool
  | .clearMemPool => s.clearMemPool
  | .restoreMemPool => s.restoreMemPool
  | .commit miner hash => s.commit params miner hash
  | .rollBack block => s.rollBack block

/-- The run after a call. -/
def next (run : PermissionRun) (call : PermissionCall) : PermissionRun where
  store := callStore params run.store call
  commits :=
    match call with
    | .commit miner hash => ⟨run.store.block + 1, miner, hash⟩ :: run.commits
    | _ => run.commits
  checkPointed :=
    match call with
    | .setCheckPoint => true
    | .clearMemPool | .restoreMemPool | .commit _ _ | .rollBack _ => false
    | _ => run.checkPointed
  copied :=
    match call with
    | .copyMemPool => true
    | .commit _ _ | .rollBack _ => false
    | _ => run.copied

/-- The run after a sequence of calls. -/
def after (run : PermissionRun) (calls : List PermissionCall) : PermissionRun :=
  calls.foldl (next params) run

/-- What a caller sees to: it goes back only to a checkpoint or a copy it has,
and rolls back only to a height of the chain. -/
def Allows (run : PermissionRun) : PermissionCall → Prop
  | .rollBackToCheckPoint => run.checkPointed = true
  | .restoreMemPool => run.copied = true
  | .rollBack block => -1 ≤ block ∧ block ≤ run.store.block
  | _ => True

/-- Every call of a sequence meets a condition on the run before it. -/
def Follows (condition : PermissionRun → PermissionCall → Prop) (run : PermissionRun) :
    List PermissionCall → Prop
  | [] => True
  | call :: calls => condition run call ∧ Follows condition (run.next params call) calls

end Calls

/-- What every call keeps holds after all of them. -/
theorem after_induction {params : NetworkParams}
    {condition : PermissionRun → PermissionCall → Prop} {motive : PermissionRun → Prop}
    (step : ∀ run call, condition run call → motive run → motive (run.next params call))
    {run : PermissionRun} (holds : motive run) {calls : List PermissionCall}
    (follows : Follows params condition run calls) : motive (run.after params calls) := by
  induction calls generalizing run with
  | nil => exact holds
  | cons call calls ih => exact ih (step run call follows.1 holds) follows.2

/-- The last commit of a height. -/
def lastCommit (commits : List CommittedBlock) (height : Int) : Option CommittedBlock :=
  commits.find? fun block => block.height = height

/-- The blocks below a height, newest first: for each height the last commit. -/
def activeChain (commits : List CommittedBlock) : Nat → List (Address × Hash)
  | 0 => []
  | height + 1 =>
      ((lastCommit commits height).elim (0, 0) fun block => (block.miner, block.hash)) ::
        activeChain commits height

/-- The greatest height ever committed. -/
def peak (commits : List CommittedBlock) : Int :=
  commits.foldr (fun block height => max height block.height) (-1)

@[simp]
theorem activeChain_length (commits : List CommittedBlock) (length : Nat) :
    (activeChain commits length).length = length := by
  induction length with
  | zero => rfl
  | succ length ih => simp [activeChain, ih]

theorem activeChain_drop (commits : List CommittedBlock) (kept cut : Nat) :
    (activeChain commits (kept + cut)).drop cut = activeChain commits kept := by
  induction cut with
  | zero => rfl
  | succ cut ih => simpa [activeChain, ← Nat.add_assoc] using ih

theorem activeChain_cons_of_le (block : CommittedBlock) (commits : List CommittedBlock)
    {length : Nat} (below : (length : Int) ≤ block.height) :
    activeChain (block :: commits) length = activeChain commits length := by
  induction length with
  | zero => rfl
  | succ length ih =>
      have otherHeight : ¬ block.height = length := by omega
      have sameCommit : lastCommit (block :: commits) length = lastCommit commits length :=
        List.find?_cons_of_neg (by simpa using otherHeight)
      simp only [activeChain, sameCommit, ih (by omega)]

/-- The store of a run stands for the blocks committed last. -/
structure Sound (run : PermissionRun) : Prop where
  consistent : Permissions.Consistent run.store
    (activeChain run.commits (run.store.block + 1).toNat) (peak run.commits)
  committed : ∀ height, 0 ≤ height → height ≤ peak run.commits →
    (lastCommit run.commits height).isSome
  checkPointed : run.checkPointed = true → Permissions.CheckPointed run.store
  copied : run.copied = true → Permissions.Copied run.store

theorem sound_start : Sound start where
  consistent := Permissions.consistent_initial
  committed := by
    intro height nonneg below
    change height ≤ -1 at below
    omega
  checkPointed := by
    intro absurdity
    cases absurdity
  copied := by
    intro absurdity
    cases absurdity

namespace Sound

variable {params : NetworkParams} {run : PermissionRun}

private theorem of_grown (sound : Sound run) {store : Permissions}
    (consistent : Permissions.Consistent store
      (activeChain run.commits (run.store.block + 1).toNat) (peak run.commits))
    (grown : Permissions.Grown run.store store) : Sound { run with store := store } where
  consistent := by
    change Permissions.Consistent store (activeChain run.commits (store.block + 1).toNat) _
    rw [grown.block]
    exact consistent
  committed := sound.committed
  checkPointed := fun taken => grown.checkPointed (sound.checkPointed taken)
  copied := fun taken => grown.copied (sound.copied taken)

private theorem commit (sound : Sound run) (miner : Address) (hash : Hash) :
    Sound (run.next params (.commit miner hash)) := by
  have consistent := sound.consistent
  have low := consistent.block_ge
  have committed := consistent.commit params miner hash
  have block := (consistent.commitResult params miner hash).block
  let newest : CommittedBlock := ⟨run.store.block + 1, miner, hash⟩
  have height : (run.store.block + 1 + 1).toNat = (run.store.block + 1).toNat + 1 := by omega
  have place : (((run.store.block + 1).toNat : Nat) : Int) = run.store.block + 1 := by omega
  have chain : activeChain (newest :: run.commits) (run.store.block + 1 + 1).toNat =
      (miner, hash) :: activeChain run.commits (run.store.block + 1).toNat := by
    have found : lastCommit (newest :: run.commits) ((run.store.block + 1).toNat : Nat) =
        some newest := List.find?_cons_of_pos (by simp [newest, place])
    rw [height, activeChain, found, activeChain_cons_of_le _ _ (le_of_eq place)]
    rfl
  exact
    { consistent := by
        change Permissions.Consistent (run.store.commit params miner hash)
          (activeChain (newest :: run.commits)
            ((run.store.commit params miner hash).block + 1).toNat)
          (max (peak run.commits) (run.store.block + 1))
        rw [block, chain]
        exact committed
      committed := by
        intro other nonneg below
        change other ≤ max (peak run.commits) (run.store.block + 1) at below
        change (lastCommit (newest :: run.commits) other).isSome
        by_cases isNewest : run.store.block + 1 = other
        · simp [lastCommit, newest, isNewest]
        · have otherHeight : ¬ newest.height = other := isNewest
          have topLe := consistent.top_le
          rw [lastCommit, List.find?_cons_of_neg (by simpa using otherHeight)]
          exact sound.committed other nonneg (by omega)
      checkPointed := by
        intro absurdity
        cases absurdity
      copied := by
        intro absurdity
        cases absurdity }

private theorem rollBack (sound : Sound run) {block : Int} (low : -1 ≤ block)
    (high : block ≤ run.store.block) : Sound (run.next params (.rollBack block)) where
  consistent := by
    have consistent := sound.consistent
    have cut := consistent.rollBack low high
    obtain ⟨segment, rest, log, -, undone, kept⟩ := consistent.splitAt low high
    have blockEq := (consistent.rollBack_result log undone kept).block
    have split : (run.store.block + 1).toNat =
        (block + 1).toNat + ((run.store.block + 1).toNat - (block + 1).toNat) := by omega
    change Permissions.Consistent (run.store.rollBack block)
      (activeChain run.commits ((run.store.rollBack block).block + 1).toNat) (peak run.commits)
    rw [blockEq]
    rw [activeChain_length] at cut
    rw [split, Nat.add_sub_cancel_left, activeChain_drop] at cut
    exact cut
  committed := sound.committed
  checkPointed := by
    intro absurdity
    cases absurdity
  copied := by
    intro absurdity
    cases absurdity

/-- Every call its caller may make keeps a run sound. -/
theorem next (sound : Sound run) {call : PermissionCall} (allowed : run.Allows call) :
    Sound (run.next params call) := by
  have consistent := sound.consistent
  cases call with
  | setPermission grant =>
      exact sound.of_grown (consistent.setPermission params grant)
        (Permissions.grown_setPermission params run.store grant)
  | setApproval approval =>
      exact sound.of_grown (consistent.setApproval params approval)
        (Permissions.grown_setApproval params run.store approval)
  | setCheckPoint =>
      exact
        { consistent := consistent.of_sameStore ⟨rfl, rfl, rfl, rfl, rfl, rfl⟩
          committed := sound.committed
          checkPointed := fun _ => Permissions.checkPointed_setCheckPoint run.store
          copied := fun taken => ⟨(sound.copied taken).linked, (sound.copied taken).grantRows⟩ }
  | rollBackToCheckPoint =>
      have checkPointed := sound.checkPointed allowed
      have back := consistent.rollBackToCheckPoint checkPointed
      exact
        { consistent := back
          committed := sound.committed
          checkPointed := fun _ => by
            have count : (run.store.memPool.setCount memPoolKey
                run.store.checkPointMemPoolSize).count = run.store.checkPointMemPoolSize :=
              RowBuffer.count_setCount _ _
            refine ⟨le_of_eq count.symm, ?_⟩
            change run.store.checkPointRow + ((run.store.memPool.setCount memPoolKey _).count -
              run.store.checkPointMemPoolSize) = run.store.checkPointRow
            omega
          copied := fun taken => by
            have copied := sound.copied taken
            refine ⟨?_, copied.grantRows⟩
            change ledgerShape.Linked (run.store.copiedMemPool.rows.reverse ++
              run.store.rollBackToCheckPoint.liveLog)
            rw [consistent.liveLog_rollBackToCheckPoint checkPointed]
            exact copied.linked }
  | copyMemPool =>
      exact
        { consistent := consistent.of_sameStore ⟨rfl, rfl, rfl, rfl, rfl, rfl⟩
          committed := sound.committed
          checkPointed := fun taken =>
            ⟨(sound.checkPointed taken).size_le, (sound.checkPointed taken).row⟩
          copied := fun _ => consistent.copied_copyMemPool }
  | clearMemPool =>
      have result := consistent.clearMemPool_result
      exact
        { consistent := by
            change Permissions.Consistent run.store.clearMemPool
              (activeChain run.commits (run.store.clearMemPool.block + 1).toNat) _
            rw [result.block]
            exact consistent.clearMemPool
          committed := sound.committed
          checkPointed := by
            intro absurdity
            cases absurdity
          copied := fun taken => by
            have copied := sound.copied taken
            constructor
            · change ledgerShape.Linked (run.store.clearMemPool.copiedMemPool.rows.reverse ++
                run.store.clearMemPool.liveLog)
              rw [result.copiedMemPool, result.liveLog]
              exact copied.linked
            · change ∀ row ∈ run.store.clearMemPool.copiedMemPool.rows,
                GrantRow row (run.store.clearMemPool.block + 1)
              rw [result.copiedMemPool, result.block]
              exact copied.grantRows }
  | restoreMemPool =>
      have copied := sound.copied allowed
      have result := consistent.clearMemPool_result
      exact
        { consistent := by
            change Permissions.Consistent run.store.restoreMemPool
              (activeChain run.commits (run.store.clearMemPool.block + 1).toNat) _
            rw [result.block]
            exact consistent.restoreMemPool copied
          committed := sound.committed
          checkPointed := by
            intro absurdity
            cases absurdity
          copied := fun _ => by
            constructor
            · change ledgerShape.Linked (run.store.clearMemPool.copiedMemPool.rows.reverse ++
                run.store.restoreMemPool.liveLog)
              rw [result.copiedMemPool, consistent.liveLog_restoreMemPool]
              exact copied.linked
            · change ∀ row ∈ run.store.clearMemPool.copiedMemPool.rows,
                GrantRow row (run.store.clearMemPool.block + 1)
              rw [result.copiedMemPool, result.block]
              exact copied.grantRows }
  | commit miner hash => exact sound.commit miner hash
  | rollBack block => exact sound.rollBack allowed.1 allowed.2

/-- Every run its callers may make is sound. -/
theorem after {calls : List PermissionCall} (sound : Sound run)
    (follows : Follows params Allows run calls) : Sound (run.after params calls) :=
  after_induction (fun _ _ allowed sound => sound.next allowed) sound follows

end Sound

end PermissionRun

end HdacNode
