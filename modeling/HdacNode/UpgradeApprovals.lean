import HdacNode.PermissionKeyRows
import HdacNode.PermissionLogRuns

/-!
# Approvals of upgrades

The votes for an upgrade are rows of one key, and a vote that is enough gives the row a range
that is not empty.  `SetApproval` appends no vote for an upgrade that is approved, so the row of
the approval stays the last one of its key until its block is rolled back.
-/

namespace HdacNode

open LinkedRowLog

namespace Permissions

/-- The key of the votes for an upgrade. -/
def upgradeKey (upgrade : BitVec 128) : Key :=
  ⟨.upgrade, .account (upgradeAddress upgrade), mcPtpUpgrade⟩

/-- A row that approves an upgrade. -/
def Approves (row : LedgerRow) : Prop :=
  row.key.entity = .upgrade ∧ row.key.type = mcPtpUpgrade ∧ row.blockFrom < row.blockTo

/-- No row follows an approval under its key. -/
def ApprovalsAreLast (log : List LedgerRow) : Prop :=
  log.Pairwise fun newer older => Approves older → newer.key ≠ older.key

namespace ApprovalsAreLast

variable {log : List LedgerRow} {row : LedgerRow}

/-- An approval is the newest row of its key. -/
theorem newestOf (last : ApprovalsAreLast log) (member : row ∈ log) (approves : Approves row) :
    Permissions.newestOf log row.key = some row := by
  induction log with
  | nil => cases member
  | cons newest log ih =>
      obtain ⟨noneOlder, last⟩ := List.pairwise_cons.mp last
      rcases List.mem_cons.mp member with rfl | older
      · simp [Permissions.newestOf]
      · rw [newestOf_cons_of_ne (noneOlder row older approves)]
        exact ih last older

/-- A row may follow unless the newest one of its key is an approval. -/
theorem cons (last : ApprovalsAreLast log)
    (undecided : ∀ newest, Permissions.newestOf log row.key = some newest → ¬ Approves newest) :
    ApprovalsAreLast (row :: log) := by
  apply List.pairwise_cons.mpr
  constructor
  · intro older member approves sameKey
    apply undecided older
    · rw [sameKey]
      exact last.newestOf member approves
    · exact approves
  · exact last

theorem cons_of_ne (last : ApprovalsAreLast log)
    (noVote : row.key.entity ≠ .upgrade ∨ row.key.type ≠ mcPtpUpgrade) :
    ApprovalsAreLast (row :: log) := by
  apply last.cons
  rintro newest found ⟨entity, type, -⟩
  rw [key_of_newestOf found] at entity type
  exact noVote.elim (absurd entity) (absurd type)

theorem of_append {newer older : List LedgerRow} (last : ApprovalsAreLast (newer ++ older)) :
    ApprovalsAreLast older :=
  (List.pairwise_append.mp last).2.1

end ApprovalsAreLast

section Grants

variable {params : NetworkParams} {s : Permissions} {blocks : List (Address × Hash)} {top : Int}

theorem setPermissionTypes_of_none {grant : Grant} {types : List Nat}
    (noneIn : types.filter (fun type => type &&& grant.type ≠ 0) = []) (s : Permissions) :
    setPermissionTypes params grant types s = (s, none) := by
  induction types with
  | nil => rfl
  | cons type types ih =>
      rw [List.filter_eq_nil_iff] at noneIn
      have outside : type &&& grant.type = 0 := by
        simpa using noneIn type (List.mem_cons_self ..)
      rw [setPermissionTypes, if_pos outside]
      apply ih
      rw [List.filter_eq_nil_iff]
      exact fun other member => noneIn other (List.mem_cons_of_mem _ member)

/-- For a mask with one type, the loop over the types makes one grant. -/
theorem setPermissionTypes_of_one {grant : Grant} {types : List Nat} {single : Nat}
    (onlyOne : types.filter (fun type => type &&& grant.type ≠ 0) = [single])
    (s : Permissions) :
    setPermissionTypes params grant types s = s.setPermissionType params grant single := by
  induction types with
  | nil => cases onlyOne
  | cons type types ih =>
      unfold setPermissionTypes
      by_cases outside : type &&& grant.type = 0
      · rw [if_pos outside]
        apply ih
        simpa [outside] using onlyOne
      · rw [if_neg outside]
        obtain ⟨rfl, noneIn⟩ : type = single ∧
            types.filter (fun type => type &&& grant.type ≠ 0) = [] := by
          simpa [outside] using onlyOne
        cases result : s.setPermissionType params grant type with
        | mk next err =>
            cases err with
            | some err => rfl
            | none => exact setPermissionTypes_of_none noneIn next

/-- A grant appends a row of its key to the log, or none. -/
theorem fullLog_setPermissionType (params : NetworkParams) (s : Permissions) (grant : Grant)
    (type : Nat) :
    (s.setPermissionType params grant type).1.fullLog = s.fullLog ∨
      ∃ row : LedgerRow, row.key = ⟨grant.entity, .account grant.address, type⟩ ∧
        (s.setPermissionType params grant type).1.fullLog = row :: s.fullLog := by
  rcases setPermissionType_cases params s grant type with unchanged | ⟨row, decided, changed⟩
  · left
    rw [unchanged]
  · right
    refine ⟨row, decided.key, ?_⟩
    rw [changed, (sameStore_adjustCounts _ _ _ _).fullLog, fullLog_appendRow,
      (sameStore_saveClearedCounts s).fullLog]

theorem ApprovalsAreLast.setPermissionType (last : ApprovalsAreLast s.fullLog) (grant : Grant)
    (type : Nat)
    (undecided : ∀ newest,
      Permissions.newestOf s.fullLog ⟨grant.entity, .account grant.address, type⟩ = some newest →
        ¬ Approves newest) :
    ApprovalsAreLast (s.setPermissionType params grant type).1.fullLog := by
  rcases fullLog_setPermissionType params s grant type with same | ⟨row, rowKey, log⟩
  · rw [same]
    exact last
  · rw [log]
    apply last.cons
    rw [rowKey]
    exact undecided

/-- A grant that is no vote for an upgrade follows all approvals. -/
theorem ApprovalsAreLast.setPermissionType_of_ne (last : ApprovalsAreLast s.fullLog)
    (grant : Grant) (type : Nat) (noVote : grant.entity ≠ .upgrade ∨ type ≠ mcPtpUpgrade) :
    ApprovalsAreLast (s.setPermissionType params grant type).1.fullLog := by
  apply last.setPermissionType
  rintro newest found ⟨entity, isVote, -⟩
  rw [key_of_newestOf found] at entity isVote
  exact noVote.elim (absurd entity) (absurd isVote)

theorem ApprovalsAreLast.setPermission (last : ApprovalsAreLast s.fullLog) {grant : Grant}
    (elsewhere : grant.entity ≠ .upgrade) :
    ApprovalsAreLast (s.setPermission params grant).1.fullLog :=
  setPermission_induction (motive := fun s => ApprovalsAreLast s.fullLog)
    (fun _ type _ last => last.setPermissionType_of_ne grant type (.inl elsewhere)) last

theorem ApprovalsAreLast.setConnect (last : ApprovalsAreLast s.fullLog) {grant : Grant}
    (connect : grant.type = mcPtpConnect) :
    ApprovalsAreLast (s.setPermissionInternal params grant).1.fullLog := by
  have onlyOne : grantableTypes.filter (fun type => type &&& grant.type ≠ 0) = [mcPtpConnect] := by
    rw [connect]
    decide
  rw [setPermissionInternal, setPermissionTypes_of_one onlyOne]
  exact last.setPermissionType_of_ne grant mcPtpConnect (.inr (by decide))

theorem ApprovalsAreLast.setVote (last : ApprovalsAreLast s.fullLog) {grant : Grant}
    (isVote : grant.type = mcPtpUpgrade)
    (undecided : ∀ newest, Permissions.newestOf s.fullLog
      ⟨grant.entity, .account grant.address, mcPtpUpgrade⟩ = some newest → ¬ Approves newest) :
    ApprovalsAreLast (s.setPermissionInternal params grant).1.fullLog := by
  have onlyOne : grantableTypes.filter (fun type => type &&& grant.type ≠ 0) = [mcPtpUpgrade] := by
    rw [isVote]
    decide
  rw [setPermissionInternal, setPermissionTypes_of_one onlyOne]
  exact last.setPermissionType grant mcPtpUpgrade undecided

theorem upgradeKey_ne_zeroKey (upgrade : BitVec 128) : upgradeKey upgrade ≠ zeroKey := by
  simp [upgradeKey, zeroKey]

namespace Consistent

/-- What a query reports for the votes of an upgrade is the newest of them. -/
theorem getPermissionRow_upgrade (consistent : Consistent s blocks top) (upgrade : BitVec 128) :
    ReportsRow (s.getPermissionRow (upgradeKey upgrade) true)
      (newestOf s.fullLog (upgradeKey upgrade)) := by
  apply consistent.getPermissionRow_true (upgradeKey_ne_zeroKey upgrade)
  rintro ⟨height, -, isIndex⟩
  cases congrArg Key.entity isIndex

/-- An upgrade is approved if its newest vote approves it. -/
theorem isApproved_iff (consistent : Consistent s blocks top) (upgrade : BitVec 128) :
    s.isApproved (upgradeAddress upgrade) = true ↔
      ∃ row, newestOf s.fullLog (upgradeKey upgrade) = some row ∧ Approves row := by
  have reports := consistent.getPermissionRow_upgrade upgrade
  change decide ((s.getPermissionRow (upgradeKey upgrade) true).blockFrom <
    (s.getPermissionRow (upgradeKey upgrade) true).blockTo) = true ↔ _
  rw [decide_eq_true_iff]
  cases newest : newestOf s.fullLog (upgradeKey upgrade) with
  | none =>
      rw [newest] at reports
      rw [reports.1, reports.2.1]
      simp
  | some row =>
      rw [newest] at reports
      have rowKey := key_of_newestOf newest
      rw [reports.1, reports.2.1]
      simp [Approves, rowKey, upgradeKey]

theorem approvalsAreLast_setApproval (consistent : Consistent s blocks top)
    (last : ApprovalsAreLast s.fullLog) (approval : Approval) :
    ApprovalsAreLast (s.setApproval params approval).1.fullLog := by
  have listed : ApprovalsAreLast (s.createUpgradeList params approval).1.fullLog := by
    unfold createUpgradeList
    split
    · exact last.setConnect rfl
    · exact last
  have listConsistent : Consistent (s.createUpgradeList params approval).1 blocks top := by
    unfold createUpgradeList
    split
    · exact setPermissionInternal_induction (motive := fun s => Consistent s blocks top)
        (fun _ type typeMem consistent => consistent.setPermissionType params _ typeMem)
        consistent
    · exact consistent
  unfold Permissions.setApproval
  cases result : s.createUpgradeList params approval with
  | mk next err =>
      rw [result] at listed listConsistent
      cases err with
      | some err => exact listed
      | none =>
          cases approval.admin with
          | none => exact listed.setConnect rfl
          | some admin =>
              dsimp only
              by_cases approved : next.isApproved (upgradeAddress approval.upgrade) = true
              · rw [if_pos approved]
                exact listed
              · rw [if_neg approved]
                apply listed.setVote rfl
                intro newest found approves
                exact approved ((listConsistent.isApproved_iff approval.upgrade).mpr
                  ⟨newest, found, approves⟩)

end Consistent

end Grants

end Permissions

namespace PermissionRun

open Permissions

section Runs

/-- Other callers than `SetApproval` give permissions of the chain or of an entity with a
genesis transaction. -/
def GrantsElsewhere : StoreCall → Prop
  | .call (.setPermission grant) => grant.entity ≠ .upgrade
  | _ => True

/-- A call takes no block back from a height on. -/
def KeepsBlock (height : Int) (run : PermissionRun) : StoreCall → Prop
  | .call (.rollBack block) => height ≤ block
  | .call .clearMemPool | .call .rollBackToCheckPoint | .call .restoreMemPool =>
      height ≤ run.store.block
  | _ => True

/-- No call of a sequence takes back a block from a height on. -/
def KeepsBlocks (params : NetworkParams) (height : Int) (run : PermissionRun) :
    List StoreCall → Prop
  | [] => True
  | call :: calls =>
      run.KeepsBlock height call ∧ KeepsBlocks params height (run.nextStore params call) calls

theorem approvalsAreLast_invariant (params : NetworkParams) :
    LogInvariant params (fun _ => GrantsElsewhere) ApprovalsAreLast where
  empty := List.Pairwise.nil
  older := ApprovalsAreLast.of_append
  blockRow := by
    intro log row last _ isBlockRow
    apply last.cons_of_ne
    right
    rcases isBlockRow with isMiner | isIndex
    · rw [isMiner]
      decide
    · rw [isIndex]
      decide
  setPermission := fun _ elsewhere last => last.setPermission elsewhere
  setApproval := fun consistent last => consistent.approvalsAreLast_setApproval last _

section Kept

variable {params : NetworkParams} {run : PermissionRun} {row : LedgerRow}

theorem mem_liveLog_of_received (sound : Sound run) (inLog : row ∈ run.store.fullLog)
    (committed : row.blockReceived ≤ run.store.block) : row ∈ run.store.liveLog := by
  rcases List.mem_append.mp inLog with waiting | inLedger
  · have received := (sound.consistent.memRows row (List.mem_reverse.mp waiting)).received
    omega
  · exact inLedger

theorem mem_fullLog_next (sound : Sound run) {call : PermissionCall} (allowed : run.Allows call)
    (keeps : run.KeepsBlock row.blockReceived (.call call)) (inLog : row ∈ run.store.fullLog) :
    row ∈ (run.next params call).store.fullLog := by
  have consistent := sound.consistent
  have of_live : ∀ {store : Permissions}, store.liveLog = run.store.liveLog →
      row.blockReceived ≤ run.store.block → row ∈ store.fullLog := by
    intro store same committed
    rw [fullLog, same]
    exact List.mem_append_right _ (mem_liveLog_of_received sound inLog committed)
  have of_grown : ∀ {store : Permissions}, Grown run.store store → row ∈ store.fullLog := by
    intro store grown
    rw [fullLog, grown.liveLog]
    rcases List.mem_append.mp inLog with waiting | inLedger
    · apply List.mem_append_left
      rw [List.mem_reverse] at waiting ⊢
      exact grown.rows.subset waiting
    · exact List.mem_append_right _ inLedger
  cases call with
  | setPermission grant => exact of_grown (grown_setPermission params run.store grant)
  | setApproval approval => exact of_grown (grown_setApproval params run.store approval)
  | setCheckPoint => exact inLog
  | rollBackToCheckPoint =>
      exact of_live (consistent.liveLog_rollBackToCheckPoint (sound.checkPointed allowed)) keeps
  | copyMemPool => exact inLog
  | clearMemPool => exact of_live consistent.clearMemPool_result.liveLog keeps
  | restoreMemPool => exact of_live consistent.liveLog_restoreMemPool keeps
  | commit miner hash =>
      change row ∈ (run.store.commit params miner hash).fullLog
      rw [consistent.fullLog_commit]
      exact List.mem_cons_of_mem _ (List.mem_cons_of_mem _ inLog)
  | rollBack block =>
      obtain ⟨segment, rest, log, -, undone, kept⟩ := consistent.splitAt allowed.1 allowed.2
      have result := consistent.rollBack_result log undone kept
      have cleared := consistent.clearMemPool_result
      have inLedger := mem_liveLog_of_received sound inLog (keeps.trans allowed.2)
      change row ∈ (run.store.rollBack block).fullLog
      rw [fullLog, Consistent.liveLog_of_rollBackResult (cleared.liveLog.trans log) result]
      apply List.mem_append_right
      rw [log] at inLedger
      rcases List.mem_append.mp inLedger with inSegment | inRest
      · have above := undone row inSegment
        exact absurd keeps (not_le.mpr above)
      · exact inRest

theorem mem_fullLog_nextStore (based : Based run) {call : StoreCall}
    (allowed : run.AllowsStore call) (keeps : run.KeepsBlock row.blockReceived call)
    (inLog : row ∈ run.store.fullLog) : row ∈ (run.nextStore params call).store.fullLog := by
  cases call with
  | call call => exact mem_fullLog_next based.sound allowed keeps inLog
  | verifyMiners block calls =>
      obtain ⟨alike, -⟩ := alike_verifyMiners params based.sound.consistent allowed calls
      change row ∈ (run.store.verifyMiners params block calls).fullLog
      rw [alike.fullLog]
      exact inLog

theorem mem_fullLog_afterStore (based : Based run) {calls : List StoreCall}
    (follows : run.FollowsStore params calls)
    (keeps : run.KeepsBlocks params row.blockReceived calls) (inLog : row ∈ run.store.fullLog) :
    row ∈ (run.afterStore params calls).store.fullLog := by
  induction calls generalizing run with
  | nil => exact inLog
  | cons call calls ih =>
      exact ih (based.nextStore follows.1) follows.2 keeps.2
        (mem_fullLog_nextStore based follows.1 keeps.1 inLog)

end Kept

/-- Once an upgrade is approved, one row is the approval, and until its block is taken back the
upgrade stays approved from the same block on, whatever votes follow. -/
theorem approvals_are_irrevocable (params : NetworkParams) (upgrade : BitVec 128)
    (earlier : List StoreCall) (follows : start.FollowsStore params earlier)
    (elsewhere : ∀ call ∈ earlier, GrantsElsewhere call)
    (approved :
      (start.afterStore params earlier).store.isApproved (upgradeAddress upgrade) = true) :
    let run := start.afterStore params earlier
    ∃ approval, run.store.newestRow (upgradeKey upgrade) = some approval ∧
      (∀ rowID row, run.store.rowByNumber rowID = some row → row.key = upgradeKey upgrade →
        row.blockFrom < row.blockTo → row = approval) ∧
      ∀ later, run.FollowsStore params later → (∀ call ∈ later, GrantsElsewhere call) →
        run.KeepsBlocks params approval.blockReceived later →
        let s := (run.afterStore params later).store
        s.isApproved (upgradeAddress upgrade) = true ∧
          s.newestRow (upgradeKey upgrade) = some approval ∧
          (s.getPermissionRow (upgradeKey upgrade) true).blockFrom = approval.blockFrom ∧
          (s.getPermissionRow (upgradeKey upgrade) true).blockTo = approval.blockTo := by
  intro run
  have based := based_start.afterStore follows
  have invariant := approvalsAreLast_invariant params
  have last := (LogHolds.start invariant).afterStore invariant based_start follows
    (makesCalls_of_forall params (fun call member _ => elsewhere call member) start)
  have consistent := based.sound.consistent
  obtain ⟨approval, newest, approves⟩ := (consistent.isApproved_iff upgrade).mp approved
  have inLog : approval ∈ run.store.fullLog := List.mem_of_find?_eq_some newest
  have rowKey : approval.key = upgradeKey upgrade := key_of_newestOf newest
  refine ⟨approval, ?_, ?_, ?_⟩
  · rw [consistent.newestRow_eq]
    exact newest
  · intro rowID row found sameKey opens
    rw [consistent.rowByNumber_eq] at found
    have isVote : Approves row := by
      rw [Approves, sameKey]
      exact ⟨rfl, rfl, opens⟩
    have rowNewest := last.log.newestOf (LinkedRowLog.mem_of_rowAt found) isVote
    rw [sameKey, newest] at rowNewest
    exact (Option.some.inj rowNewest).symm
  · intro later laterFollows laterElsewhere keeps s
    have laterBased := based.afterStore laterFollows
    have laterLast := last.afterStore invariant based laterFollows
      (makesCalls_of_forall params (fun call member _ => laterElsewhere call member) _)
    have stays := mem_fullLog_afterStore based laterFollows keeps inLog
    have stillNewest : newestOf s.fullLog (upgradeKey upgrade) = some approval := by
      rw [← rowKey]
      exact laterLast.log.newestOf stays approves
    have reports := laterBased.sound.consistent.getPermissionRow_upgrade upgrade
    rw [show newestOf _ _ = some approval from stillNewest] at reports
    refine ⟨?_, ?_, reports.1, reports.2.1⟩
    · exact (laterBased.sound.consistent.isApproved_iff upgrade).mpr
        ⟨approval, stillNewest, approves⟩
    · rw [laterBased.sound.consistent.newestRow_eq]
      exact stillNewest

/-- A call of `SetApproval` for upgrade 5, with which address 7 votes or nobody does. -/
def approvalCall (approval : Bool) (admin : Option Address) (timestamp : Nat) : StoreCall :=
  .call (.setApproval
    { upgrade := 5
      approval := approval
      admin := admin
      blockFrom := 10
      timestamp := timestamp
      flags := 0
      updateMempool := true
      offset := 0 })

/-- Address 7 becomes the only admin, approves an upgrade and mines a block. -/
def approvedUpgrade : List StoreCall :=
  [.call (.setPermission
      { entity := .null
        address := 7
        type := mcPtpAdmin
        admin := 7
        blockFrom := 0
        blockTo := 1000
        timestamp := 1
        flags := 0
        updateMempool := true
        offset := 0 }),
    approvalCall true none 1, approvalCall true (some 7) 2, .call (.commit 7 1)]

/-- Address 7 changes its mind, and the block with the new vote is taken back. -/
def disapprovedUpgrade : List StoreCall :=
  [approvalCall false (some 7) 3, .call (.commit 7 2), .call (.rollBack 0)]

theorem approvals_are_irrevocable_approvedUpgrade :
    ∃ approval,
      (start.afterStore unanimous approvedUpgrade).store.newestRow (upgradeKey 5) = some approval ∧
      approval.blockFrom = 10 ∧
      let s := ((start.afterStore unanimous approvedUpgrade).afterStore unanimous
        disapprovedUpgrade).store
      s.isApproved (upgradeAddress 5) = true ∧
        (s.getPermissionRow (upgradeKey 5) true).blockFrom = approval.blockFrom := by
  obtain ⟨approval, newest, -, keeps⟩ := approvals_are_irrevocable unanimous 5 approvedUpgrade
    ⟨trivial, trivial, trivial, trivial, trivial⟩
    (by simp [approvedUpgrade, approvalCall, GrantsElsewhere]) (by decide +kernel)
  have placed : ((start.afterStore unanimous approvedUpgrade).store.newestRow (upgradeKey 5)).map
      (fun row => (row.blockReceived, row.blockFrom)) = some (0, 10) := by decide +kernel
  rw [newest] at placed
  obtain ⟨received, fromEq⟩ := Prod.mk.inj (Option.some.inj placed)
  obtain ⟨approved, -, sameFrom, -⟩ := keeps disapprovedUpgrade
    ⟨trivial, trivial, And.intro (by decide) (by decide +kernel), trivial⟩
    (by simp [disapprovedUpgrade, approvalCall, GrantsElsewhere])
    ⟨trivial, trivial, received.le, trivial⟩
  exact ⟨approval, newest, fromEq, approved, sameFrom⟩

end Runs

end PermissionRun

end HdacNode
