import HdacNode.PermissionCountRuns
import HdacNode.PermissionSpeculation

/-!
# Runs with speculative work

The calls of a run are those of the chain and whole miner verifications.  Wherever the
memory pool is empty, the counts are those of a recount, so setting it aside gives back the
cleared counts too.  Two runs that are alike stay alike under all calls, and so a run with
speculative work goes on as it would have gone on without.
-/

namespace HdacNode

open LinkedRowLog WriteBatch

/-- A call of the permission store, or a whole miner verification. -/
inductive StoreCall where
  | call (call : PermissionCall)
  | verifyMiners (block : Int) (calls : List ForkCall)

namespace Permissions

/-- The counts a recount of a log gives. -/
structure RecountedIn (log : List LedgerRow) (block adminCount minerCount : Int) : Prop where
  admins : adminCount = (holdersIn log block mcPtpAdmin \ {0}).ncard
  miners : minerCount = (holdersIn log block mcPtpMine \ {0}).ncard

/-- The counts that hold without a memory pool are those of a recount. -/
structure BasedStore (s : Permissions) : Prop where
  cleared : RecountedIn s.liveLog s.block s.clearedAdminCount s.clearedMinerCount
  counts : s.memPool.count = 0 → RecountedIn s.liveLog s.block s.adminCount s.minerCount

theorem RecountedIn.eq {log : List LedgerRow}
    {block adminCount minerCount otherAdmins otherMiners : Int}
    (first : RecountedIn log block adminCount minerCount)
    (second : RecountedIn log block otherAdmins otherMiners) :
    adminCount = otherAdmins ∧ minerCount = otherMiners :=
  ⟨first.admins.trans second.admins.symm, first.miners.trans second.miners.symm⟩

section Stores

variable {s : Permissions} {blocks : List (Address × Hash)} {top : Int}

private theorem Consistent.recountedIn (consistent : Consistent s blocks top)
    (noRows : s.memPool.rows = []) (recounted : Recounted s) :
    RecountedIn s.liveLog s.block s.adminCount s.minerCount := by
  have fullLog : s.fullLog = s.liveLog := by
    rw [Permissions.fullLog, noRows]
    rfl
  constructor
  · rw [recounted.1, consistent.holders_eq (.inl rfl), fullLog]
  · rw [recounted.2, consistent.holders_eq (.inr rfl), fullLog]

private theorem basedStore_of_recounted (consistent : Consistent s blocks top)
    (noRows : s.memPool.rows = []) (recounted : Recounted s)
    (clearedAdminCount : s.clearedAdminCount = s.adminCount)
    (clearedMinerCount : s.clearedMinerCount = s.minerCount) : BasedStore s := by
  have counts := consistent.recountedIn noRows recounted
  refine ⟨?_, fun _ => counts⟩
  rw [clearedAdminCount, clearedMinerCount]
  exact counts

theorem recountedIn_clearMemPool (consistent : Consistent s blocks top) (based : BasedStore s) :
    RecountedIn s.liveLog s.block s.clearMemPool.adminCount s.clearMemPool.minerCount := by
  have result := consistent.clearMemPool_result
  by_cases empty : s.memPool.count = 0
  · obtain ⟨admins, miners⟩ := result.kept empty
    rw [admins, miners]
    exact based.counts empty
  · have recounted := consistent.clearMemPool.recountedIn result.rows
      (consistent.recounted_clearMemPool empty)
    rw [result.liveLog, result.block] at recounted
    exact recounted

private theorem basedStore_setPermissionType (params : NetworkParams) (based : BasedStore s)
    (grant : Grant) (type : Nat) : BasedStore (s.setPermissionType params grant type).1 := by
  have grown := grown_setPermissionType params s grant type
  rcases setPermissionType_cases params s grant type with unchanged | ⟨row, -, changed⟩
  · rw [unchanged]
    exact based
  · have same := sameStore_adjustCounts (s.saveClearedCounts.appendRow row) grant type
      (s.getPermission ⟨grant.entity, .account grant.address, type⟩ true)
    have adjusted : ∀ next : Permissions, ∀ lastAllowed,
        (next.adjustCounts grant type lastAllowed).clearedAdminCount = next.clearedAdminCount ∧
        (next.adjustCounts grant type lastAllowed).clearedMinerCount = next.clearedMinerCount := by
      intro next lastAllowed
      unfold adjustCounts
      split
      · dsimp only
        split <;> exact ⟨rfl, rfl⟩
      · exact ⟨rfl, rfl⟩
    have saved : RecountedIn s.liveLog s.block s.saveClearedCounts.clearedAdminCount
        s.saveClearedCounts.clearedMinerCount := by
      unfold saveClearedCounts
      split
      · rename_i empty
        exact based.counts empty.1
      · exact based.cleared
    have liveLog := grown.liveLog
    have block := grown.block
    rw [changed] at liveLog block ⊢
    constructor
    · rw [liveLog, block, (adjusted _ _).1, (adjusted _ _).2]
      exact saved
    · intro empty
      rw [same.memPool] at empty
      exact absurd empty (Nat.succ_ne_zero _)

theorem basedStore_setPermission (params : NetworkParams) (based : BasedStore s)
    (grant : Grant) : BasedStore (s.setPermission params grant).1 :=
  setPermission_induction (motive := BasedStore)
    (fun _ type _ based => basedStore_setPermissionType params based grant type) based

theorem basedStore_setApproval (params : NetworkParams) (based : BasedStore s)
    (approval : Approval) : BasedStore (s.setApproval params approval).1 :=
  setApproval_induction (motive := BasedStore)
    (fun _ grant type _ based => basedStore_setPermissionType params based grant type) based

/-- A store alike to a based one is based. -/
theorem BasedStore.of_alike {other : Permissions} (based : BasedStore s)
    (alike : AlikeStores s other blocks top) : BasedStore other where
  cleared := by
    rw [alike.liveLog, alike.block, alike.clearedAdminCount, alike.clearedMinerCount]
    exact based.cleared
  counts := by
    intro empty
    rw [alike.liveLog, alike.block, alike.adminCount, alike.minerCount]
    rw [alike.count] at empty
    exact based.counts empty

private theorem sameCheckPoint_clearMemPool (consistent : Consistent s blocks top) :
    SameCheckPoint s s.clearMemPool := by
  unfold clearMemPool
  by_cases some : s.memPool.count ≠ 0
  · rw [if_pos some, updateCounts_eq (by exact consistent.listHeader)]
    exact ⟨rfl, rfl, rfl, rfl⟩
  · rw [if_neg some]
    exact ⟨rfl, rfl, rfl, rfl⟩

theorem alike_setMemPoolAside (consistent : Consistent s blocks top) (based : BasedStore s) :
    AlikeStores s s.setMemPoolAside blocks top ∧ SameCheckPoint s s.setMemPoolAside := by
  have copied : Consistent s.copyMemPool blocks top :=
    consistent.of_sameStore ⟨rfl, rfl, rfl, rfl, rfl, rfl⟩
  have rows := rows_copyMemPool s
  have cleared := copied.clearMemPool
  have firstClear := copied.clearMemPool_result
  have secondClear := cleared.clearMemPool_result
  have noRows : s.copyMemPool.clearMemPool.memPool.count = 0 := firstClear.count
  have kept := secondClear.kept noRows
  have basedCopy : BasedStore s.copyMemPool := ⟨based.cleared, based.counts⟩
  have recounted := recountedIn_clearMemPool copied basedCopy
  have clearedCounts := recounted.eq based.cleared
  have restored : Copied s.copyMemPool.clearMemPool := by
    have original := consistent.copied_copyMemPool
    constructor
    · rw [firstClear.copiedMemPool, firstClear.liveLog]
      exact original.linked
    · rw [firstClear.copiedMemPool, firstClear.block]
      exact original.grantRows
  have restoredRows : s.setMemPoolAside.memPool.rows = s.memPool.rows := by
    rw [setMemPoolAside, cleared.rows_restoreMemPool, firstClear.copiedMemPool, rows]
  have checkPoint : SameCheckPoint s s.setMemPoolAside := by
    have first := sameCheckPoint_clearMemPool copied
    have second := sameCheckPoint_clearMemPool cleared
    exact ⟨second.row.trans first.row, second.memPoolSize.trans first.memPoolSize,
      second.adminCount.trans first.adminCount, second.minerCount.trans first.minerCount⟩
  refine ⟨⟨?_, consistent, cleared.restoreMemPool restored⟩, checkPoint⟩
  exact
    { ledger := by
        change s.copyMemPool.clearMemPool.clearMemPool.ledger = s.ledger
        rw [secondClear.files, firstClear.files]
        rfl
      readRow := by
        intro key
        change s.copyMemPool.clearMemPool.clearMemPool.readRow key = s.readRow key
        rw [secondClear.files, firstClear.files]
        rfl
      rows := restoredRows
      block := by
        change s.copyMemPool.clearMemPool.clearMemPool.block = s.block
        rw [secondClear.block, firstClear.block]
        rfl
      row := by
        have rowsPos := consistent.rows_pos
        have count := RowBuffer.count_congr restoredRows
        rw [setMemPoolAside] at count
        rw [setMemPoolAside, cleared.row_restoreMemPool, firstClear.countLedgerRows, count]
        change s.row - s.memPool.count + s.memPool.count = s.row
        omega
      adminCount := by
        change s.copyMemPool.clearMemPool.clearMemPool.copiedAdminCount = s.adminCount
        rw [secondClear.copiedAdminCount, firstClear.copiedAdminCount]
        rfl
      minerCount := by
        change s.copyMemPool.clearMemPool.clearMemPool.copiedMinerCount = s.minerCount
        rw [secondClear.copiedMinerCount, firstClear.copiedMinerCount]
        rfl
      clearedAdminCount := by
        change s.copyMemPool.clearMemPool.clearMemPool.adminCount = s.clearedAdminCount
        rw [kept.1]
        exact clearedCounts.1
      clearedMinerCount := by
        change s.copyMemPool.clearMemPool.clearMemPool.minerCount = s.clearedMinerCount
        rw [kept.2]
        exact clearedCounts.2 }

end Stores

end Permissions

namespace PermissionRun

open Permissions

section Calls

variable (params : NetworkParams)

/-- The run after a call or a miner verification, which loses a copy of the memory pool. -/
def nextStore (run : PermissionRun) : StoreCall → PermissionRun
  | .call call => run.next params call
  | .verifyMiners block calls =>
      { run with store := run.store.verifyMiners params block calls, copied := false }

/-- The run after a sequence of calls and verifications. -/
def afterStore (run : PermissionRun) (calls : List StoreCall) : PermissionRun :=
  calls.foldl (nextStore params) run

/-- What a caller sees to.  A verification starts at a height the store has, as
`RollBackBeforeMinerVerification` compares them. -/
def AllowsStore (run : PermissionRun) : StoreCall → Prop
  | .call call => run.Allows call
  | .verifyMiners block _ => toUInt32 block ≤ toUInt32 run.store.block

/-- Every call of a sequence is allowed where it is made. -/
def FollowsStore (run : PermissionRun) : List StoreCall → Prop
  | [] => True
  | call :: calls => run.AllowsStore call ∧ FollowsStore (run.nextStore params call) calls

end Calls

/-- A sound run whose counts without a memory pool are those of a recount, also the
counts it may go back to. -/
structure Based (run : PermissionRun) : Prop where
  sound : Sound run
  store : BasedStore run.store
  checkPoint : run.checkPointed = true → run.store.checkPointMemPoolSize = 0 →
    RecountedIn run.store.liveLog run.store.block run.store.checkPointAdminCount
      run.store.checkPointMinerCount
  copy : run.copied = true → run.store.copiedMemPool.count = 0 →
    RecountedIn run.store.liveLog run.store.block run.store.copiedAdminCount
      run.store.copiedMinerCount

theorem based_start : Based start where
  sound := sound_start
  store := by
    have nobody : ∀ type, holdersIn start.store.liveLog start.store.block type \ {0} = ∅ := by
      intro type
      rw [Set.eq_empty_iff_forall_notMem]
      rintro address ⟨holds, -⟩
      cases holds
    have counts : RecountedIn start.store.liveLog start.store.block 0 0 := by
      constructor
      · rw [nobody, Set.ncard_empty]
        rfl
      · rw [nobody, Set.ncard_empty]
        rfl
    exact ⟨counts, fun _ => counts⟩
  checkPoint := by
    intro absurdity
    cases absurdity
  copy := by
    intro absurdity
    cases absurdity

namespace Based

variable {params : NetworkParams} {run : PermissionRun}

private theorem of_grown (based : Based run) {store : Permissions}
    (sound : Sound { run with store := store }) (grown : Grown run.store store)
    (basedStore : BasedStore store) : Based { run with store := store } where
  sound := sound
  store := basedStore
  checkPoint := by
    intro taken empty
    change store.checkPointMemPoolSize = 0 at empty
    change RecountedIn store.liveLog store.block store.checkPointAdminCount
      store.checkPointMinerCount
    rw [grown.checkPointMemPoolSize] at empty
    rw [grown.liveLog, grown.block, grown.checkPointAdminCount, grown.checkPointMinerCount]
    exact based.checkPoint taken empty
  copy := by
    intro taken empty
    change store.copiedMemPool.count = 0 at empty
    change RecountedIn store.liveLog store.block store.copiedAdminCount store.copiedMinerCount
    rw [grown.copiedMemPool] at empty
    rw [grown.liveLog, grown.block, grown.copiedAdminCount, grown.copiedMinerCount]
    exact based.copy taken empty

private theorem next (based : Based run) {call : PermissionCall} (allowed : run.Allows call) :
    Based (run.next params call) := by
  have sound := based.sound
  have consistent := sound.consistent
  have nextSound : Sound (run.next params call) := sound.next allowed
  cases call with
  | setPermission grant =>
      exact based.of_grown nextSound (grown_setPermission params run.store grant)
        (basedStore_setPermission params based.store grant)
  | setApproval approval =>
      exact based.of_grown nextSound (grown_setApproval params run.store approval)
        (basedStore_setApproval params based.store approval)
  | setCheckPoint =>
      exact ⟨nextSound, ⟨based.store.cleared, based.store.counts⟩,
        fun _ empty => based.store.counts empty, based.copy⟩
  | rollBackToCheckPoint =>
      have liveEq := consistent.liveLog_rollBackToCheckPoint (sound.checkPointed allowed)
      have checkPoint := based.checkPoint allowed
      refine ⟨nextSound, ⟨?_, fun empty => ?_⟩, fun _ empty => ?_, fun taken empty => ?_⟩
      · change RecountedIn run.store.rollBackToCheckPoint.liveLog _ _ _
        rw [liveEq]
        exact based.store.cleared
      · change RecountedIn run.store.rollBackToCheckPoint.liveLog _ _ _
        rw [liveEq]
        refine checkPoint ?_
        have size : run.store.rollBackToCheckPoint.memPool.count =
            run.store.checkPointMemPoolSize := RowBuffer.count_setCount _ _
        rw [← size]
        exact empty
      · change RecountedIn run.store.rollBackToCheckPoint.liveLog _ _ _
        rw [liveEq]
        exact checkPoint empty
      · change RecountedIn run.store.rollBackToCheckPoint.liveLog _ _ _
        rw [liveEq]
        exact based.copy taken empty
  | copyMemPool =>
      refine ⟨nextSound, ⟨based.store.cleared, based.store.counts⟩, based.checkPoint,
        fun _ empty => based.store.counts ?_⟩
      have count : run.store.copyMemPool.copiedMemPool.count = run.store.memPool.count :=
        RowBuffer.count_congr (rows_copyMemPool run.store)
      rw [← count]
      exact empty
  | clearMemPool =>
      have result := consistent.clearMemPool_result
      have counts := recountedIn_clearMemPool consistent based.store
      rw [← result.liveLog, ← result.block] at counts
      refine ⟨nextSound, ⟨counts, fun _ => counts⟩, (by intro lost; cases lost), ?_⟩
      intro taken empty
      change RecountedIn run.store.clearMemPool.liveLog run.store.clearMemPool.block
        run.store.clearMemPool.copiedAdminCount run.store.clearMemPool.copiedMinerCount
      change run.store.clearMemPool.copiedMemPool.count = 0 at empty
      rw [result.copiedMemPool] at empty
      rw [result.liveLog, result.block, result.copiedAdminCount, result.copiedMinerCount]
      exact based.copy taken empty
  | restoreMemPool =>
      have result := consistent.clearMemPool_result
      have liveEq := consistent.liveLog_restoreMemPool
      have counts := recountedIn_clearMemPool consistent based.store
      have copy : run.store.copiedMemPool.count = 0 →
          RecountedIn run.store.liveLog run.store.clearMemPool.block
            run.store.clearMemPool.copiedAdminCount run.store.clearMemPool.copiedMinerCount := by
        intro empty
        rw [result.block, result.copiedAdminCount, result.copiedMinerCount]
        exact based.copy allowed empty
      refine ⟨nextSound, ⟨?_, fun empty => ?_⟩, (by intro lost; cases lost), fun _ empty => ?_⟩
      · change RecountedIn run.store.restoreMemPool.liveLog run.store.clearMemPool.block
          run.store.clearMemPool.adminCount run.store.clearMemPool.minerCount
        rw [liveEq, result.block]
        exact counts
      · change RecountedIn run.store.restoreMemPool.liveLog run.store.clearMemPool.block
          run.store.clearMemPool.copiedAdminCount run.store.clearMemPool.copiedMinerCount
        rw [liveEq]
        refine copy ?_
        rw [← RowBuffer.count_congr consistent.rows_restoreMemPool]
        exact empty
      · change RecountedIn run.store.restoreMemPool.liveLog run.store.clearMemPool.block
          run.store.clearMemPool.copiedAdminCount run.store.clearMemPool.copiedMinerCount
        rw [liveEq]
        refine copy ?_
        rw [← result.copiedMemPool]
        exact empty
  | commit miner hash =>
      have result := consistent.commitResult params miner hash
      refine ⟨nextSound, ?_, (by intro lost; cases lost), (by intro lost; cases lost)⟩
      exact basedStore_of_recounted nextSound.consistent (consistent.rows_commit params miner hash)
        (consistent.recounted_commit params miner hash) result.clearedAdminCount
        result.clearedMinerCount
  | rollBack block =>
      obtain ⟨segment, rest, log, -, undone, kept⟩ := consistent.splitAt allowed.1 allowed.2
      have result := consistent.rollBack_result log undone kept
      refine ⟨nextSound, ?_, (by intro lost; cases lost), (by intro lost; cases lost)⟩
      exact basedStore_of_recounted nextSound.consistent result.rows
        (consistent.recounted_rollBack allowed.1 allowed.2) result.clearedAdminCount
        result.clearedMinerCount

/-- A store that is alike can take the place of the store of a run; a copy is lost. -/
theorem of_alike (based : Based run) {store : Permissions}
    (alike : AlikeStores run.store store
      (activeChain run.commits (run.store.block + 1).toNat) (peak run.commits))
    (checkPoint : SameCheckPoint run.store store) :
    Based { run with store := store, copied := false } where
  sound :=
    { consistent := by
        change Consistent store (activeChain run.commits (store.block + 1).toNat) _
        rw [alike.block]
        exact alike.otherConsistent
      committed := based.sound.committed
      checkPointed := by
        intro taken
        have checkPointed := based.sound.checkPointed taken
        constructor
        · change store.checkPointMemPoolSize ≤ store.memPool.count
          rw [checkPoint.memPoolSize, alike.count]
          exact checkPointed.size_le
        · change store.checkPointRow + (store.memPool.count - store.checkPointMemPoolSize) =
            store.row
          rw [checkPoint.row, checkPoint.memPoolSize, alike.count, alike.row]
          exact checkPointed.row
      copied := by
        intro absurdity
        cases absurdity }
  store := based.store.of_alike alike
  checkPoint := by
    intro taken empty
    change store.checkPointMemPoolSize = 0 at empty
    change RecountedIn store.liveLog store.block store.checkPointAdminCount
      store.checkPointMinerCount
    rw [checkPoint.memPoolSize] at empty
    rw [alike.liveLog, alike.block, checkPoint.adminCount, checkPoint.minerCount]
    exact based.checkPoint taken empty
  copy := by
    intro absurdity
    cases absurdity

theorem nextStore (based : Based run) {call : StoreCall} (allowed : run.AllowsStore call) :
    Based (run.nextStore params call) := by
  cases call with
  | call call => exact based.next allowed
  | verifyMiners block calls =>
      obtain ⟨alike, checkPoint⟩ :=
        alike_verifyMiners params based.sound.consistent allowed calls
      exact based.of_alike alike checkPoint

/-- Every run its callers may make is based. -/
theorem afterStore (based : Based run) {calls : List StoreCall}
    (follows : run.FollowsStore params calls) : Based (run.afterStore params calls) := by
  induction calls generalizing run with
  | nil => exact based
  | cons call calls ih => exact ih (based.nextStore follows.1) follows.2

end Based

/-- Two runs that no caller tells apart.  The second may have lost its copy. -/
structure AlikeRuns (run other : PermissionRun) : Prop where
  commits : other.commits = run.commits
  based : Based run
  otherBased : Based other
  stores : Alike run.store other.store
  checkPointed : other.checkPointed = run.checkPointed
  checkPoint : run.checkPointed = true → SameCheckPoint run.store other.store
  copied : other.copied = true → run.copied = true ∧
    other.store.copiedMemPool.rows = run.store.copiedMemPool.rows ∧
    other.store.copiedAdminCount = run.store.copiedAdminCount ∧
    other.store.copiedMinerCount = run.store.copiedMinerCount

namespace AlikeRuns

variable {params : NetworkParams} {run other : PermissionRun}

theorem alikeStores (alike : AlikeRuns run other) :
    AlikeStores run.store other.store (activeChain run.commits (run.store.block + 1).toNat)
      (peak run.commits) := by
  have otherConsistent := alike.otherBased.sound.consistent
  rw [alike.commits, alike.stores.block] at otherConsistent
  exact ⟨alike.stores, alike.based.sound.consistent, otherConsistent⟩

private theorem of_grown (alike : AlikeRuns run other) {store otherStore : Permissions}
    (based : Based { run with store := store })
    (otherBased : Based { other with store := otherStore })
    (stores : Alike store otherStore) (grown : Grown run.store store)
    (otherGrown : Grown other.store otherStore) :
    AlikeRuns { run with store := store } { other with store := otherStore } where
  commits := alike.commits
  based := based
  otherBased := otherBased
  stores := stores
  checkPointed := alike.checkPointed
  checkPoint := by
    intro taken
    have same := alike.checkPoint taken
    constructor
    · change otherStore.checkPointRow = store.checkPointRow
      rw [otherGrown.checkPointRow, grown.checkPointRow, same.row]
    · change otherStore.checkPointMemPoolSize = store.checkPointMemPoolSize
      rw [otherGrown.checkPointMemPoolSize, grown.checkPointMemPoolSize, same.memPoolSize]
    · change otherStore.checkPointAdminCount = store.checkPointAdminCount
      rw [otherGrown.checkPointAdminCount, grown.checkPointAdminCount, same.adminCount]
    · change otherStore.checkPointMinerCount = store.checkPointMinerCount
      rw [otherGrown.checkPointMinerCount, grown.checkPointMinerCount, same.minerCount]
  copied := by
    intro taken
    obtain ⟨runCopied, rows, admins, miners⟩ := alike.copied taken
    refine ⟨runCopied, ?_, ?_, ?_⟩
    · change otherStore.copiedMemPool.rows = store.copiedMemPool.rows
      rw [otherGrown.copiedMemPool, grown.copiedMemPool, rows]
    · change otherStore.copiedAdminCount = store.copiedAdminCount
      rw [otherGrown.copiedAdminCount, grown.copiedAdminCount, admins]
    · change otherStore.copiedMinerCount = store.copiedMinerCount
      rw [otherGrown.copiedMinerCount, grown.copiedMinerCount, miners]

theorem copied_clearMemPool (alike : AlikeRuns run other) (taken : other.copied = true) :
    other.store.clearMemPool.copiedMemPool.rows = run.store.clearMemPool.copiedMemPool.rows ∧
      other.store.clearMemPool.copiedAdminCount = run.store.clearMemPool.copiedAdminCount ∧
      other.store.clearMemPool.copiedMinerCount = run.store.clearMemPool.copiedMinerCount := by
  have result := alike.based.sound.consistent.clearMemPool_result
  have otherResult := alike.otherBased.sound.consistent.clearMemPool_result
  obtain ⟨-, rows, admins, miners⟩ := alike.copied taken
  refine ⟨?_, ?_, ?_⟩
  · rw [otherResult.copiedMemPool, result.copiedMemPool, rows]
  · rw [otherResult.copiedAdminCount, result.copiedAdminCount, admins]
  · rw [otherResult.copiedMinerCount, result.copiedMinerCount, miners]

theorem allowsStore (alike : AlikeRuns run other) {call : StoreCall}
    (allowed : other.AllowsStore call) : run.AllowsStore call := by
  cases call with
  | call call =>
      cases call with
      | rollBackToCheckPoint => exact alike.checkPointed.symm.trans allowed
      | restoreMemPool => exact (alike.copied allowed).1
      | rollBack block =>
          refine ⟨allowed.1, ?_⟩
          rw [← alike.stores.block]
          exact allowed.2
      | _ => trivial
  | verifyMiners block calls =>
      change toUInt32 block ≤ toUInt32 run.store.block
      rw [← alike.stores.block]
      exact allowed

/-- Every call keeps two runs alike. -/
theorem nextStore (alike : AlikeRuns run other) {call : StoreCall}
    (allowed : other.AllowsStore call) :
    AlikeRuns (run.nextStore params call) (other.nextStore params call) := by
  have runAllowed := alike.allowsStore allowed
  have based : Based (run.nextStore params call) := alike.based.nextStore runAllowed
  have otherBased : Based (other.nextStore params call) := alike.otherBased.nextStore allowed
  have stores := alike.alikeStores
  cases call with
  | verifyMiners block calls =>
      obtain ⟨runSame, runCheckPoint⟩ :=
        alike_verifyMiners params alike.based.sound.consistent runAllowed calls
      obtain ⟨otherSame, otherCheckPoint⟩ :=
        alike_verifyMiners params alike.otherBased.sound.consistent allowed calls
      refine ⟨alike.commits, based, otherBased,
        runSame.symm.trans (alike.stores.trans otherSame.toAlike), alike.checkPointed, ?_, ?_⟩
      · intro taken
        have same := alike.checkPoint taken
        exact ⟨otherCheckPoint.row.trans (same.row.trans runCheckPoint.row.symm),
          otherCheckPoint.memPoolSize.trans (same.memPoolSize.trans runCheckPoint.memPoolSize.symm),
          otherCheckPoint.adminCount.trans (same.adminCount.trans runCheckPoint.adminCount.symm),
          otherCheckPoint.minerCount.trans (same.minerCount.trans runCheckPoint.minerCount.symm)⟩
      · intro absurdity
        cases absurdity
  | call call =>
      cases call with
      | setPermission grant =>
          exact alike.of_grown based otherBased (stores.setPermission params grant).toAlike
            (grown_setPermission params run.store grant)
            (grown_setPermission params other.store grant)
      | setApproval approval =>
          exact alike.of_grown based otherBased (stores.setApproval params approval).toAlike
            (grown_setApproval params run.store approval)
            (grown_setApproval params other.store approval)
      | setCheckPoint =>
          obtain ⟨same, -, -⟩ := stores
          refine ⟨alike.commits, based, otherBased, ?_, rfl, fun _ => ?_, alike.copied⟩
          · exact ⟨same.ledger, same.readRow, same.rows, same.block, same.row, same.adminCount,
              same.minerCount, same.clearedAdminCount, same.clearedMinerCount⟩
          · exact ⟨same.row, RowBuffer.count_congr same.rows, same.adminCount, same.minerCount⟩
      | rollBackToCheckPoint =>
          have checkPoint := alike.checkPoint runAllowed
          have back := stores.rollBackToCheckPoint (alike.based.sound.checkPointed runAllowed)
            (alike.otherBased.sound.checkPointed allowed) checkPoint.memPoolSize
            checkPoint.adminCount checkPoint.minerCount
          exact ⟨alike.commits, based, otherBased, back.toAlike, alike.checkPointed,
            fun _ => ⟨checkPoint.row, checkPoint.memPoolSize, checkPoint.adminCount,
              checkPoint.minerCount⟩, alike.copied⟩
      | copyMemPool =>
          obtain ⟨same, -, -⟩ := stores
          refine ⟨alike.commits, based, otherBased, ?_, alike.checkPointed, ?_, ?_⟩
          · exact ⟨same.ledger, same.readRow, same.rows, same.block, same.row, same.adminCount,
              same.minerCount, same.clearedAdminCount, same.clearedMinerCount⟩
          · intro taken
            have checkPoint := alike.checkPoint taken
            exact ⟨checkPoint.row, checkPoint.memPoolSize, checkPoint.adminCount,
              checkPoint.minerCount⟩
          · intro _
            refine ⟨rfl, ?_, same.adminCount, same.minerCount⟩
            change other.store.copyMemPool.copiedMemPool.rows =
              run.store.copyMemPool.copiedMemPool.rows
            rw [rows_copyMemPool, rows_copyMemPool, same.rows]
      | clearMemPool =>
          refine ⟨alike.commits, based, otherBased, stores.clearMemPool.toAlike, rfl,
            (by intro lost; cases lost), ?_⟩
          exact fun taken => ⟨(alike.copied taken).1, alike.copied_clearMemPool taken⟩
      | restoreMemPool =>
          obtain ⟨runCopied, rows, admins, miners⟩ := alike.copied allowed
          have restored := stores.restoreMemPool (alike.based.sound.copied runCopied)
            (alike.otherBased.sound.copied allowed) rows admins miners
          refine ⟨alike.commits, based, otherBased, restored.toAlike, rfl,
            (by intro lost; cases lost), fun _ => ⟨runCopied, alike.copied_clearMemPool allowed⟩⟩
      | commit miner hash =>
          refine ⟨?_, based, otherBased, (stores.commit params miner hash).toAlike, rfl,
            (by intro lost; cases lost), (by intro lost; cases lost)⟩
          change (⟨other.store.block + 1, miner, hash⟩ : CommittedBlock) :: other.commits =
            ⟨run.store.block + 1, miner, hash⟩ :: run.commits
          rw [alike.commits, alike.stores.block]
      | rollBack block =>
          exact ⟨alike.commits, based, otherBased,
            (stores.rollBack runAllowed.1 runAllowed.2).toAlike, rfl,
            (by intro lost; cases lost), (by intro lost; cases lost)⟩

/-- Runs that are alike stay alike. -/
theorem afterStore (alike : AlikeRuns run other) {calls : List StoreCall}
    (follows : other.FollowsStore params calls) :
    AlikeRuns (run.afterStore params calls) (other.afterStore params calls) := by
  induction calls generalizing run other with
  | nil => exact alike
  | cons call calls ih => exact ih (alike.nextStore follows.1) follows.2

end AlikeRuns

/-- Work that is meant to leave the store as it was: a miner verification, or queries with
the memory pool set aside. -/
inductive Bracket where
  | minerVerification (block : Int) (calls : List ForkCall)
  | memPoolAside

/-- The store after a bracket. -/
def bracketStore (params : NetworkParams) (s : Permissions) : Bracket → Permissions
  | .minerVerification block calls => s.verifyMiners params block calls
  | .memPoolAside => s.setMemPoolAside

/-- A miner verification starts at a height that the store has. -/
def Opens (s : Permissions) : Bracket → Prop
  | .minerVerification block _ => toUInt32 block ≤ toUInt32 s.block
  | .memPoolAside => True

/-- The run after a bracket, which overwrites a copy of the memory pool. -/
def afterBracket (params : NetworkParams) (run : PermissionRun) (bracket : Bracket) :
    PermissionRun :=
  { run with store := bracketStore params run.store bracket, copied := false }

/-- Two stores have the same height, rows and counts. -/
structure Restores (s after : Permissions) : Prop where
  block : after.block = s.block
  row : after.row = s.row
  memPool : after.memPool.rows = s.memPool.rows
  adminCount : after.adminCount = s.adminCount
  minerCount : after.minerCount = s.minerCount
  clearedAdminCount : after.clearedAdminCount = s.clearedAdminCount
  clearedMinerCount : after.clearedMinerCount = s.clearedMinerCount

/-- Two stores give the same answers to `GetPermission` and `CanMine`. -/
structure SameAnswers (params : NetworkParams) (s other : Permissions) : Prop where
  getPermission : ∀ key checkMempool,
    other.getPermission key checkMempool = s.getPermission key checkMempool
  getPermissionRow : ∀ key checkMempool,
    other.getPermissionRow key checkMempool = s.getPermissionRow key checkMempool
  canMine : ∀ entity address, other.canMine params entity address = s.canMine params entity address

private theorem alikeRuns_afterBracket (params : NetworkParams) {run : PermissionRun}
    (based : Based run) {bracket : Bracket} (opens : Opens run.store bracket) :
    AlikeRuns run (run.afterBracket params bracket) := by
  have alike : AlikeStores run.store (bracketStore params run.store bracket)
        (activeChain run.commits (run.store.block + 1).toNat) (peak run.commits) ∧
      SameCheckPoint run.store (bracketStore params run.store bracket) := by
    cases bracket with
    | minerVerification block calls =>
        exact alike_verifyMiners params based.sound.consistent opens calls
    | memPoolAside => exact alike_setMemPoolAside based.sound.consistent based.store
  obtain ⟨stores, checkPoint⟩ := alike
  exact
    { commits := rfl
      based := based
      otherBased := based.of_alike stores checkPoint
      stores := stores.toAlike
      checkPointed := rfl
      checkPoint := fun _ => checkPoint
      copied := by
        intro absurdity
        cases absurdity }

/-- In every reachable state a bracket puts the height, the rows and the counts back, and
whatever is done later gets the answers it would have got without the bracket. -/
theorem brackets_leave_no_trace (params : NetworkParams) {earlier : List StoreCall}
    (reached : start.FollowsStore params earlier) {bracket : Bracket}
    (opens : Opens (start.afterStore params earlier).store bracket) :
    Restores (start.afterStore params earlier).store
        ((start.afterStore params earlier).afterBracket params bracket).store ∧
      ∀ later, ((start.afterStore params earlier).afterBracket params bracket).FollowsStore
          params later →
        SameAnswers params ((start.afterStore params earlier).afterStore params later).store
          (((start.afterStore params earlier).afterBracket params bracket).afterStore params
            later).store := by
  have alike := alikeRuns_afterBracket params (based_start.afterStore reached) opens
  refine ⟨?_, fun later follows => ?_⟩
  · have same := alike.stores
    exact ⟨same.block, same.row, same.rows, same.adminCount, same.minerCount,
      same.clearedAdminCount, same.clearedMinerCount⟩
  · have stores := (alike.afterStore follows).alikeStores
    exact ⟨stores.getPermission, stores.getPermissionRow, stores.canMine params⟩

/-- The first admin grants itself the right to mine and mines a block. -/
def firstMiner : Grant where
  entity := .null
  address := 7
  type := mcPtpAdmin ||| mcPtpMine
  admin := 7
  blockFrom := 0
  blockTo := 1000
  timestamp := 1
  flags := 0
  updateMempool := true
  offset := 81

def firstBlock : List StoreCall := [.call (.setPermission firstMiner), .call (.commit 7 1)]

/-- A branch from the first block grants another miner in its second block. -/
def otherBranch : Bracket :=
  .minerVerification 0
    [.setPermission { firstMiner with address := 8 }, .incrementBlock 0, .canMineBlockOnFork 8 1 0]

theorem brackets_leave_no_trace_firstMiner :
    Restores (start.afterStore unanimous firstBlock).store
        ((start.afterStore unanimous firstBlock).afterBracket unanimous otherBranch).store ∧
      SameAnswers unanimous
        ((start.afterStore unanimous firstBlock).afterStore unanimous
          [.call (.commit 7 2)]).store
        (((start.afterStore unanimous firstBlock).afterBracket unanimous otherBranch).afterStore
          unanimous [.call (.commit 7 2)]).store := by
  have reached : start.FollowsStore unanimous firstBlock := ⟨trivial, trivial, trivial⟩
  have opens : Opens (start.afterStore unanimous firstBlock).store otherBranch := Nat.zero_le _
  obtain ⟨restores, answers⟩ := brackets_leave_no_trace unanimous reached opens
  exact ⟨restores, answers [.call (.commit 7 2)] ⟨trivial, trivial⟩⟩

end PermissionRun

end HdacNode
