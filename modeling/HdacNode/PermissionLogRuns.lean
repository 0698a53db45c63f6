import HdacNode.PermissionTraces

/-!
# Properties of logs over runs

A property of the log that holds of every older part of it, and that grants and the rows of a
block keep, holds in every run: of the ledger with the memory pool, and of the ledger with the
copy of the memory pool while there is one.
-/

namespace HdacNode

open LinkedRowLog

namespace Permissions

/-- A property of logs that calls keep where callers see to a condition. -/
structure LogInvariant (params : NetworkParams) (makes : Permissions → StoreCall → Prop)
    (Holds : List LedgerRow → Prop) : Prop where
  empty : Holds []
  older : ∀ {newer older : List LedgerRow}, Holds (newer ++ older) → Holds older
  blockRow : ∀ {log : List LedgerRow} {row : LedgerRow}, Holds log → row.key.entity = .null →
    row.key.type = mcPtpBlockMiner ∨ row.key.type = mcPtpBlockIndex → Holds (row :: log)
  setPermission : ∀ {s : Permissions} {blocks : List (Address × Hash)} {top : Int} {grant : Grant},
    Consistent s blocks top → makes s (.call (.setPermission grant)) → Holds s.fullLog →
      Holds (s.setPermission params grant).1.fullLog
  setApproval : ∀ {s : Permissions} {blocks : List (Address × Hash)} {top : Int}
    {approval : Approval}, Consistent s blocks top → Holds s.fullLog →
      Holds (s.setApproval params approval).1.fullLog

end Permissions

namespace PermissionRun

open Permissions

/-- Every call of a sequence meets a condition on the store before it. -/
def MakesCalls (params : NetworkParams) (makes : Permissions → StoreCall → Prop)
    (run : PermissionRun) : List StoreCall → Prop
  | [] => True
  | call :: calls =>
      makes run.store call ∧ MakesCalls params makes (run.nextStore params call) calls

theorem makesCalls_of_forall (params : NetworkParams) {makes : Permissions → StoreCall → Prop}
    {calls : List StoreCall} (all : ∀ call ∈ calls, ∀ s, makes s call) (run : PermissionRun) :
    run.MakesCalls params makes calls := by
  induction calls generalizing run with
  | nil => trivial
  | cons call calls ih =>
      obtain ⟨here, later⟩ := List.forall_mem_cons.mp all
      exact ⟨here run.store, ih later _⟩

/-- A property holds of the log, and of the log that would come back with the copy. -/
structure LogHolds (Holds : List LedgerRow → Prop) (run : PermissionRun) : Prop where
  log : Holds run.store.fullLog
  copy : run.copied = true → Holds (run.store.copiedMemPool.rows.reverse ++ run.store.liveLog)

namespace LogHolds

variable {params : NetworkParams} {makes : Permissions → StoreCall → Prop}
  {Holds : List LedgerRow → Prop} {run : PermissionRun}

theorem start (invariant : LogInvariant params makes Holds) : LogHolds Holds start where
  log := invariant.empty
  copy := by
    intro absurdity
    cases absurdity

private theorem of_grown (holds : LogHolds Holds run) {store : Permissions}
    (grown : Grown run.store store) (log : Holds store.fullLog) :
    LogHolds Holds { run with store := store } where
  log := log
  copy := by
    intro taken
    change Holds (store.copiedMemPool.rows.reverse ++ store.liveLog)
    rw [grown.copiedMemPool, grown.liveLog]
    exact holds.copy taken

theorem next (invariant : LogInvariant params makes Holds) (holds : LogHolds Holds run)
    (sound : Sound run) {call : PermissionCall} (allowed : run.Allows call)
    (made : makes run.store (.call call)) : LogHolds Holds (run.next params call) := by
  have consistent := sound.consistent
  have live : Holds run.store.liveLog := invariant.older holds.log
  cases call with
  | setPermission grant =>
      exact holds.of_grown (grown_setPermission params run.store grant)
        (invariant.setPermission consistent made holds.log)
  | setApproval approval =>
      exact holds.of_grown (grown_setApproval params run.store approval)
        (invariant.setApproval consistent holds.log)
  | setCheckPoint => exact ⟨holds.log, holds.copy⟩
  | rollBackToCheckPoint =>
      have checkPointed := sound.checkPointed allowed
      have liveEq := consistent.liveLog_rollBackToCheckPoint checkPointed
      constructor
      · change Holds run.store.rollBackToCheckPoint.fullLog
        have log := holds.log
        rw [fullLog, ← List.take_append_drop run.store.checkPointMemPoolSize run.store.memPool.rows,
          List.reverse_append, List.append_assoc] at log
        rw [fullLog, Consistent.rows_rollBackToCheckPoint checkPointed, liveEq]
        exact invariant.older log
      · intro taken
        change Holds (run.store.copiedMemPool.rows.reverse ++
          run.store.rollBackToCheckPoint.liveLog)
        rw [liveEq]
        exact holds.copy taken
  | copyMemPool =>
      refine ⟨holds.log, fun _ => ?_⟩
      change Holds (run.store.copyMemPool.copiedMemPool.rows.reverse ++ run.store.liveLog)
      rw [rows_copyMemPool]
      exact holds.log
  | clearMemPool =>
      have result := consistent.clearMemPool_result
      constructor
      · change Holds run.store.clearMemPool.fullLog
        rw [fullLog, result.rows, result.liveLog]
        exact live
      · intro taken
        change Holds (run.store.clearMemPool.copiedMemPool.rows.reverse ++
          run.store.clearMemPool.liveLog)
        rw [result.copiedMemPool, result.liveLog]
        exact holds.copy taken
  | restoreMemPool =>
      have result := consistent.clearMemPool_result
      have liveEq := consistent.liveLog_restoreMemPool
      constructor
      · change Holds run.store.restoreMemPool.fullLog
        rw [fullLog, consistent.rows_restoreMemPool, liveEq]
        exact holds.copy allowed
      · intro taken
        change Holds (run.store.clearMemPool.copiedMemPool.rows.reverse ++
          run.store.restoreMemPool.liveLog)
        rw [result.copiedMemPool, liveEq]
        exact holds.copy taken
  | commit miner hash =>
      constructor
      · change Holds (run.store.commit params miner hash).fullLog
        rw [consistent.fullLog_commit]
        apply invariant.blockRow
        · exact invariant.blockRow holds.log rfl (.inl rfl)
        · rfl
        · exact .inr rfl
      · intro taken
        cases taken
  | rollBack block =>
      obtain ⟨segment, rest, log, -, undone, kept⟩ := consistent.splitAt allowed.1 allowed.2
      have result := consistent.rollBack_result log undone kept
      have cleared := consistent.clearMemPool_result
      constructor
      · change Holds (run.store.rollBack block).fullLog
        rw [fullLog, result.rows, Consistent.liveLog_of_rollBackResult (cleared.liveLog.trans log)
          result]
        rw [log] at live
        exact invariant.older live
      · intro taken
        cases taken

theorem nextStore (invariant : LogInvariant params makes Holds) (holds : LogHolds Holds run)
    (based : Based run) {call : StoreCall} (allowed : run.AllowsStore call)
    (made : makes run.store call) :
    LogHolds Holds (run.nextStore params call) := by
  cases call with
  | call call => exact next invariant holds based.sound allowed made
  | verifyMiners block calls =>
      obtain ⟨alike, -⟩ := alike_verifyMiners params based.sound.consistent allowed calls
      constructor
      · change Holds (run.store.verifyMiners params block calls).fullLog
        rw [alike.fullLog]
        exact holds.log
      · intro taken
        cases taken

/-- What single calls keep holds over a whole run. -/
theorem afterStore (invariant : LogInvariant params makes Holds) (holds : LogHolds Holds run)
    (based : Based run) {calls : List StoreCall} (follows : run.FollowsStore params calls)
    (made : run.MakesCalls params makes calls) :
    LogHolds Holds (run.afterStore params calls) := by
  induction calls generalizing run with
  | nil => exact holds
  | cons call calls ih =>
      exact ih (nextStore invariant holds based follows.1 made.1) (based.nextStore follows.1)
        follows.2 made.2

end LogHolds

end PermissionRun

end HdacNode
