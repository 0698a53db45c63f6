import HdacNode.PermissionCounts

/-!
# The counts along a run

The counts are right as long as every recount happens while the zero address
holds neither an admin nor a mine permission.  Grants, checkpoints and copies
keep right counts right.
-/

namespace HdacNode

open LinkedRowLog

namespace Permissions

/-- The counts are the numbers of addresses with an effective row in a log. -/
structure CountedIn (log : List LedgerRow) (block adminCount minerCount : Int) : Prop where
  admins : adminCount = (holdersIn log block mcPtpAdmin).ncard
  miners : minerCount = (holdersIn log block mcPtpMine).ncard

section Grants

theorem ncard_eq_add_change {before after : Set Address} (address : Address)
    (others : ∀ other, other ≠ address → (other ∈ after ↔ other ∈ before))
    {lastAllowed thisAllowed type : Nat} (lastValue : lastAllowed = 0 ∨ lastAllowed = type)
    (thisValue : thisAllowed = 0 ∨ thisAllowed = type)
    (last : lastAllowed ≠ 0 ↔ address ∈ before) (this : thisAllowed ≠ 0 ↔ address ∈ after) :
    (after.ncard : Int) = before.ncard + countChange lastAllowed thisAllowed := by
  have rest : after \ {address} = before \ {address} := by
    ext other
    simp only [Set.mem_sdiff, Set.mem_singleton_iff]
    constructor
    · rintro ⟨member, different⟩
      exact ⟨(others other different).1 member, different⟩
    · rintro ⟨member, different⟩
      exact ⟨(others other different).2 member, different⟩
  have sizeWith : ∀ {addresses : Set Address}, address ∈ addresses →
      addresses.ncard = (addresses \ {address}).ncard + 1 := fun member =>
    (Set.ncard_sdiff_singleton_add_one member (finite_addresses _)).symm
  have sizeWithout : ∀ {addresses : Set Address}, address ∉ addresses →
      addresses.ncard = (addresses \ {address}).ncard := fun absent => by
    rw [Set.sdiff_singleton_eq_self absent]
  unfold countChange
  by_cases inBefore : address ∈ before
  · have lastEq : lastAllowed = type := lastValue.resolve_left (last.2 inBefore)
    rw [sizeWith inBefore]
    by_cases inAfter : address ∈ after
    · have thisEq : thisAllowed = type := thisValue.resolve_left (this.2 inAfter)
      rw [sizeWith inAfter, rest, if_pos (lastEq.trans thisEq.symm), add_zero]
    · have thisEq : thisAllowed = 0 := not_not.1 fun nonzero => inAfter (this.1 nonzero)
      have lastNe := last.2 inBefore
      rw [sizeWithout inAfter, rest, if_neg (by omega), if_pos lastNe]
      omega
  · have lastEq : lastAllowed = 0 := not_not.1 fun nonzero => inBefore (last.1 nonzero)
    rw [sizeWithout inBefore]
    by_cases inAfter : address ∈ after
    · have thisNe := this.2 inAfter
      rw [sizeWith inAfter, rest, if_neg (by omega), if_neg (not_not.2 lastEq)]
      omega
    · have thisEq : thisAllowed = 0 := not_not.1 fun nonzero => inAfter (this.1 nonzero)
      rw [sizeWithout inAfter, rest, if_pos (lastEq.trans thisEq.symm), add_zero]

theorem getPermission_value (s : Permissions) (key : Key) :
    s.getPermission key true = 0 ∨ s.getPermission key true = key.type := by
  unfold getPermission
  split
  · exact .inr rfl
  · exact .inl rfl

theorem holdersIn_cons_of_ne {row : LedgerRow} {type : Nat}
    (otherKey : ∀ address, row.key ≠ nullKey address type) (log : List LedgerRow)
    (block : Int) : holdersIn (row :: log) block type = holdersIn log block type := by
  ext address
  simp only [holdersIn, Set.mem_ofPred_eq, newestOf_cons_of_ne (otherKey address)]

theorem mem_holdersIn_cons_of_ne {row : LedgerRow} {type : Nat} {address : Address}
    (otherKey : row.key ≠ nullKey address type) (log : List LedgerRow) (block : Int) :
    address ∈ holdersIn (row :: log) block type ↔ address ∈ holdersIn log block type := by
  simp only [holdersIn, Set.mem_ofPred_eq, newestOf_cons_of_ne otherKey]

namespace Consistent

variable {s : Permissions} {blocks : List (Address × Hash)} {top : Int}

private theorem ncard_holders_appendRow (consistent : Consistent s blocks top)
    {row : LedgerRow} {address : Address} {type : Nat} (counted : IsCounted type)
    (appended : Consistent (s.appendRow row) blocks top)
    (rowKey : row.key = nullKey address type) :
    ((holdersIn (row :: s.fullLog) s.block type).ncard : Int) =
      (holdersIn s.fullLog s.block type).ncard +
        countChange (s.getPermission (nullKey address type) true)
          ((s.appendRow row).getPermission (nullKey address type) true) := by
  refine ncard_eq_add_change address ?_ (getPermission_value _ _)
    (getPermission_value _ _) ?_ ?_
  · intro other different
    refine mem_holdersIn_cons_of_ne ?_ _ _
    rw [rowKey]
    intro sameKey
    exact different (RowAddress.account.inj (congrArg Key.address sameKey)).symm
  · rw [← consistent.holders_eq counted]
    rfl
  · rw [← fullLog_appendRow]
    have := appended.holders_eq counted
    change _ ↔ address ∈ holdersIn (s.appendRow row).fullLog (s.appendRow row).block type
    rw [← this]
    rfl

theorem countedIn_setPermissionType (consistent : Consistent s blocks top)
    (params : NetworkParams) (grant : Grant) {type : Nat} (typeMem : type ∈ grantableTypes)
    (countedIn : CountedIn s.fullLog s.block s.adminCount s.minerCount) :
    CountedIn (s.setPermissionType params grant type).1.fullLog s.block
      (s.setPermissionType params grant type).1.adminCount
      (s.setPermissionType params grant type).1.minerCount := by
  have next := consistent.setPermissionType params grant typeMem
  rcases setPermissionType_cases params s grant type with unchanged | ⟨row, identity, changed⟩
  · rw [unchanged]
    exact countedIn
  · have rowKey : row.key = ⟨grant.entity, .account grant.address, type⟩ := identity.key
    have saved := sameStore_saveClearedCounts s
    have savedAdmins : s.saveClearedCounts.adminCount = s.adminCount := by
      unfold saveClearedCounts
      split <;> rfl
    have savedMiners : s.saveClearedCounts.minerCount = s.minerCount := by
      unfold saveClearedCounts
      split <;> rfl
    have sameAdjusted := sameStore_adjustCounts (s.saveClearedCounts.appendRow row) grant type
      (s.getPermission ⟨grant.entity, .account grant.address, type⟩ true)
    have sameAppended := saved.appendRow row
    rw [changed] at next ⊢
    have appended := (next.of_sameStore sameAdjusted.symm).of_sameStore sameAppended.symm
    have lookup := sameAppended.getPermission
    rw [sameAdjusted.fullLog, sameAppended.fullLog, fullLog_appendRow]
    unfold adjustCounts
    by_cases counts : (type = mcPtpAdmin ∨ type = mcPtpMine) ∧ grant.entity = .null
    · rw [if_pos counts]
      obtain ⟨isCounted, isNull⟩ := counts
      rw [isNull] at rowKey ⊢
      have change := consistent.ncard_holders_appendRow isCounted appended rowKey
      rw [← lookup] at change
      have others : ∀ other, IsCounted other → other ≠ type →
          holdersIn (row :: s.fullLog) s.block other = holdersIn s.fullLog s.block other := by
        intro other _ different
        refine holdersIn_cons_of_ne (fun address sameKey => ?_) _ _
        rw [rowKey] at sameKey
        exact different (congrArg Key.type sameKey).symm
      dsimp only
      split
      · rename_i isAdmin
        subst isAdmin
        constructor
        · rw [change, ← countedIn.admins, ← savedAdmins]
          rfl
        · rw [others _ (.inr rfl) (by decide), ← countedIn.miners, ← savedMiners]
          rfl
      · rename_i notAdmin
        have isMine : type = mcPtpMine := isCounted.resolve_left notAdmin
        subst isMine
        constructor
        · rw [others _ (.inl rfl) (by decide), ← countedIn.admins, ← savedAdmins]
          rfl
        · rw [change, ← countedIn.miners, ← savedMiners]
          rfl
    · rw [if_neg counts]
      have others : ∀ other, IsCounted other →
          holdersIn (row :: s.fullLog) s.block other = holdersIn s.fullLog s.block other := by
        intro other isCounted
        refine holdersIn_cons_of_ne (fun address sameKey => ?_) _ _
        rw [rowKey] at sameKey
        obtain rfl : type = other := congrArg Key.type sameKey
        exact counts ⟨isCounted, congrArg Key.entity sameKey⟩
      constructor
      · rw [others _ (.inl rfl), ← countedIn.admins, ← savedAdmins]
        rfl
      · rw [others _ (.inr rfl), ← countedIn.miners, ← savedMiners]
        rfl

end Consistent

/-- The counts of a store are right for its rows. -/
def CountedStore (s : Permissions) : Prop :=
  CountedIn s.fullLog s.block s.adminCount s.minerCount

/-- What a sequence of grants keeps. -/
private structure GrantsKeep (s : Permissions) (blocks : List (Address × Hash))
    (top : Int) : Prop where
  consistent : Consistent s blocks top
  countedStore : CountedStore s

private theorem GrantsKeep.setPermissionType {s : Permissions}
    {blocks : List (Address × Hash)} {top : Int} (keep : GrantsKeep s blocks top)
    (params : NetworkParams) (grant : Grant) {type : Nat} (typeMem : type ∈ grantableTypes) :
    GrantsKeep (s.setPermissionType params grant type).1 blocks top where
  consistent := keep.consistent.setPermissionType params grant typeMem
  countedStore := by
    unfold CountedStore
    rw [(grown_setPermissionType params s grant type).block]
    exact keep.consistent.countedIn_setPermissionType params grant typeMem keep.countedStore

namespace Consistent

variable {s : Permissions} {blocks : List (Address × Hash)} {top : Int}

theorem countedStore_setPermission (consistent : Consistent s blocks top)
    (params : NetworkParams) (grant : Grant) (countedStore : CountedStore s) :
    CountedStore (s.setPermission params grant).1 :=
  (setPermission_induction (motive := fun after => GrantsKeep after blocks top)
    (fun _ _ typeMem keep => keep.setPermissionType params grant typeMem)
    ⟨consistent, countedStore⟩).countedStore

theorem countedStore_setApproval (consistent : Consistent s blocks top)
    (params : NetworkParams) (approval : Approval) (countedStore : CountedStore s) :
    CountedStore (s.setApproval params approval).1 :=
  (setApproval_induction (motive := fun after => GrantsKeep after blocks top)
    (fun _ grant _ typeMem keep => keep.setPermissionType params grant typeMem)
    ⟨consistent, countedStore⟩).countedStore

end Consistent

end Grants

/-- The counts are the numbers of addresses that queries report. -/
def CountsHolders (s : Permissions) : Prop :=
  s.adminCount = (s.holders mcPtpAdmin).ncard ∧ s.minerCount = (s.holders mcPtpMine).ncard

theorem Consistent.countsHolders_iff {s : Permissions} {blocks : List (Address × Hash)}
    {top : Int} (consistent : Consistent s blocks top) : CountsHolders s ↔ CountedStore s := by
  rw [CountsHolders, consistent.holders_eq (.inl rfl), consistent.holders_eq (.inr rfl)]
  exact ⟨fun counts => ⟨counts.1, counts.2⟩, fun counts => ⟨counts.1, counts.2⟩⟩

/-- A recount is right exactly when the zero address holds nothing. -/
theorem Recounted.countsHolders_iff {s : Permissions} (recounted : Recounted s) :
    CountsHolders s ↔ ∀ type, IsCounted type → (0 : Address) ∉ s.holders type := by
  have missing : ∀ addresses : Set Address,
      (addresses \ {0}).ncard = addresses.ncard ↔ (0 : Address) ∉ addresses := by
    intro addresses
    constructor
    · intro same member
      have := Set.ncard_sdiff_singleton_add_one member (finite_addresses addresses)
      omega
    · intro absent
      rw [Set.sdiff_singleton_eq_self absent]
  obtain ⟨admins, miners⟩ := recounted
  rw [CountsHolders, admins, miners, Nat.cast_inj, Nat.cast_inj, missing, missing]
  constructor
  · rintro ⟨noAdmin, noMiner⟩ type (rfl | rfl)
    · exact noAdmin
    · exact noMiner
  · intro absent
    exact ⟨absent _ (.inl rfl), absent _ (.inr rfl)⟩

end Permissions

namespace PermissionRun

open Permissions

/-- Whether the zero address holds an admin or mine permission. -/
def ZeroHolds (log : List LedgerRow) (block : Int) : Prop :=
  ∃ type, IsCounted type ∧ (0 : Address) ∈ holdersIn log block type

/-- No call recounts while the zero address holds a permission: a commit
recounts all rows for the next height, a rollback the rows up to its height, and
clearing a memory pool with rows the committed ones. -/
def RecountsAll (run : PermissionRun) : PermissionCall → Prop
  | .commit _ _ => ¬ ZeroHolds run.store.fullLog (run.store.block + 1)
  | .rollBack block =>
      ¬ ZeroHolds (run.store.liveLog.filter fun row => row.blockReceived ≤ block) block
  | .clearMemPool =>
      run.store.memPool.count ≠ 0 → ¬ ZeroHolds run.store.liveLog run.store.block
  | _ => True

/-- A sound run whose counts are right, also those it may go back to. -/
structure Counted (run : PermissionRun) : Prop where
  sound : Sound run
  store : CountedStore run.store
  checkPoint : run.checkPointed = true →
    CountedIn
      ((run.store.memPool.rows.take run.store.checkPointMemPoolSize).reverse ++
        run.store.liveLog)
      run.store.block run.store.checkPointAdminCount run.store.checkPointMinerCount
  copy : run.copied = true →
    CountedIn (run.store.copiedMemPool.rows.reverse ++ run.store.liveLog) run.store.block
      run.store.copiedAdminCount run.store.copiedMinerCount

theorem counted_start : Counted start where
  sound := sound_start
  store := by
    have nobody : ∀ type, holdersIn start.store.fullLog start.store.block type = ∅ := by
      intro type
      rw [Set.eq_empty_iff_forall_notMem]
      intro address holds
      cases holds
    constructor
    · rw [nobody, Set.ncard_empty]
      rfl
    · rw [nobody, Set.ncard_empty]
      rfl
  checkPoint := by
    intro absurdity
    cases absurdity
  copy := by
    intro absurdity
    cases absurdity

namespace Counted

variable {params : NetworkParams} {run : PermissionRun}

private theorem of_grown (counted : Counted run) {store : Permissions}
    (sound : Sound { run with store := store }) (grown : Grown run.store store)
    (countedStore : CountedStore store) : Counted { run with store := store } where
  sound := sound
  store := countedStore
  checkPoint := by
    intro taken
    obtain ⟨rows, rowsEq⟩ := grown.rows
    have sizeLe := (counted.sound.checkPointed taken).size_le
    have takeEq : store.memPool.rows.take run.store.checkPointMemPoolSize =
        run.store.memPool.rows.take run.store.checkPointMemPoolSize := by
      rw [← rowsEq, List.take_append_of_le_length (by simpa using sizeLe)]
    change CountedIn ((store.memPool.rows.take store.checkPointMemPoolSize).reverse ++
      store.liveLog) store.block store.checkPointAdminCount store.checkPointMinerCount
    rw [grown.checkPointMemPoolSize, takeEq, grown.liveLog, grown.block,
      grown.checkPointAdminCount, grown.checkPointMinerCount]
    exact counted.checkPoint taken
  copy := by
    intro taken
    change CountedIn (store.copiedMemPool.rows.reverse ++ store.liveLog) store.block
      store.copiedAdminCount store.copiedMinerCount
    rw [grown.copiedMemPool, grown.liveLog, grown.block, grown.copiedAdminCount,
      grown.copiedMinerCount]
    exact counted.copy taken

private theorem of_recounted {next : PermissionRun} (sound : Sound next)
    (recounted : Recounted next.store)
    (nobody : ∀ type, IsCounted type → (0 : Address) ∉ next.store.holders type)
    (lost : next.checkPointed = false)
    (copy : next.copied = true →
      CountedIn (next.store.copiedMemPool.rows.reverse ++ next.store.liveLog) next.store.block
        next.store.copiedAdminCount next.store.copiedMinerCount) : Counted next where
  sound := sound
  store := sound.consistent.countsHolders_iff.1 (recounted.countsHolders_iff.2 nobody)
  checkPoint := by
    intro taken
    rw [lost] at taken
    cases taken
  copy := copy

private theorem not_mem_holders_iff {s : Permissions} {log : List LedgerRow} {block : Int}
    (holders : ∀ type, IsCounted type → s.holders type = holdersIn log block type) :
    (∀ type, IsCounted type → (0 : Address) ∉ s.holders type) ↔ ¬ ZeroHolds log block := by
  constructor
  · rintro nobody ⟨type, isCounted, holds⟩
    rw [← holders type isCounted] at holds
    exact nobody type isCounted holds
  · intro nobody type isCounted holds
    rw [holders type isCounted] at holds
    exact nobody ⟨type, isCounted, holds⟩

private theorem zeroHolds_commit (sound : Sound run) (miner : Address) (hash : Hash) :
    (∀ type, IsCounted type →
        (0 : Address) ∉ (run.store.commit params miner hash).holders type) ↔
      ¬ ZeroHolds run.store.fullLog (run.store.block + 1) := by
  have consistent := sound.consistent
  have committed := consistent.commit params miner hash
  have block := (consistent.commitResult params miner hash).block
  have holders : ∀ type, IsCounted type → (run.store.commit params miner hash).holders type =
      holdersIn run.store.fullLog (run.store.block + 1) type := by
    intro type isCounted
    rw [committed.holders_eq isCounted, consistent.fullLog_commit, block,
      holdersIn_blockRows rfl rfl _ _ isCounted]
  exact not_mem_holders_iff holders

private theorem zeroHolds_rollBack (sound : Sound run) {block : Int} (low : -1 ≤ block)
    (high : block ≤ run.store.block) :
    (∀ type, IsCounted type → (0 : Address) ∉ (run.store.rollBack block).holders type) ↔
      ¬ ZeroHolds (run.store.liveLog.filter fun row => row.blockReceived ≤ block) block := by
  have consistent := sound.consistent
  obtain ⟨segment, rest, log, -, undone, kept⟩ := consistent.splitAt low high
  have result := consistent.rollBack_result log undone kept
  have rolledBack := consistent.rollBack low high
  have cleared := consistent.clearMemPool_result
  have keptRows : (run.store.liveLog.filter fun row => row.blockReceived ≤ block) = rest := by
    have noneUndone : (segment.filter fun row => row.blockReceived ≤ block) = [] := by
      rw [List.filter_eq_nil_iff]
      intro row member
      have := undone row member
      simpa using this
    have allKept : (rest.filter fun row => row.blockReceived ≤ block) = rest := by
      rw [List.filter_eq_self]
      intro row member
      simpa using kept row member
    rw [log, List.filter_append, noneUndone, allKept, List.nil_append]
  have fullEq : (run.store.rollBack block).fullLog = rest := by
    rw [fullLog, result.rows,
      Consistent.liveLog_of_rollBackResult (cleared.liveLog.trans log) result]
    rfl
  rw [keptRows]
  have holders : ∀ type, IsCounted type →
      (run.store.rollBack block).holders type = holdersIn rest block type := by
    intro type isCounted
    rw [rolledBack.holders_eq isCounted, fullEq, result.block]
  exact not_mem_holders_iff holders

private theorem zeroHolds_clearMemPool (sound : Sound run) :
    (∀ type, IsCounted type → (0 : Address) ∉ run.store.clearMemPool.holders type) ↔
      ¬ ZeroHolds run.store.liveLog run.store.block := by
  have consistent := sound.consistent
  have cleared := consistent.clearMemPool_result
  have fullEq : run.store.clearMemPool.fullLog = run.store.liveLog := by
    rw [fullLog, cleared.rows, cleared.liveLog]
    rfl
  have holders : ∀ type, IsCounted type → run.store.clearMemPool.holders type =
      holdersIn run.store.liveLog run.store.block type := by
    intro type isCounted
    rw [consistent.clearMemPool.holders_eq isCounted, fullEq, cleared.block]
  exact not_mem_holders_iff holders

/-- A call that recounts all holders keeps the counts right. -/
theorem next (counted : Counted run) {call : PermissionCall} (allowed : run.Allows call)
    (recountsAll : RecountsAll run call) : Counted (run.next params call) := by
  have sound := counted.sound
  have consistent := sound.consistent
  have nextSound : Sound (run.next params call) := sound.next allowed
  cases call with
  | setPermission grant =>
      exact counted.of_grown nextSound (grown_setPermission params run.store grant)
        (consistent.countedStore_setPermission params grant counted.store)
  | setApproval approval =>
      exact counted.of_grown nextSound (grown_setApproval params run.store approval)
        (consistent.countedStore_setApproval params approval counted.store)
  | setCheckPoint =>
      refine ⟨nextSound, counted.store, fun _ => ?_, counted.copy⟩
      have all : run.store.memPool.rows.take run.store.memPool.count =
          run.store.memPool.rows := List.take_of_length_le (by simp)
      change CountedIn ((run.store.memPool.rows.take run.store.memPool.count).reverse ++
        run.store.liveLog) run.store.block run.store.adminCount run.store.minerCount
      rw [all]
      exact counted.store
  | rollBackToCheckPoint =>
      have checkPointed := sound.checkPointed allowed
      have rowsEq := Consistent.rows_rollBackToCheckPoint checkPointed
      have liveEq := consistent.liveLog_rollBackToCheckPoint checkPointed
      have checkPoint := counted.checkPoint allowed
      refine ⟨nextSound, ?_, fun _ => ?_, fun taken => ?_⟩
      · change CountedIn run.store.rollBackToCheckPoint.fullLog run.store.block
          run.store.checkPointAdminCount run.store.checkPointMinerCount
        rw [fullLog, rowsEq, liveEq]
        exact checkPoint
      · change CountedIn ((run.store.rollBackToCheckPoint.memPool.rows.take
          run.store.checkPointMemPoolSize).reverse ++ run.store.rollBackToCheckPoint.liveLog)
          run.store.block run.store.checkPointAdminCount run.store.checkPointMinerCount
        rw [rowsEq, liveEq, List.take_take, Nat.min_self]
        exact checkPoint
      · change CountedIn (run.store.copiedMemPool.rows.reverse ++
          run.store.rollBackToCheckPoint.liveLog) run.store.block run.store.copiedAdminCount
          run.store.copiedMinerCount
        rw [liveEq]
        exact counted.copy taken
  | copyMemPool =>
      refine ⟨nextSound, counted.store, counted.checkPoint, fun _ => ?_⟩
      have rowsEq : run.store.copyMemPool.copiedMemPool.rows = run.store.memPool.rows := by
        change (addRows _ _).rows = _
        rw [rows_addRows, RowBuffer.rows_clear, List.nil_append]
      change CountedIn (run.store.copyMemPool.copiedMemPool.rows.reverse ++ run.store.liveLog)
        run.store.block run.store.adminCount run.store.minerCount
      rw [rowsEq]
      exact counted.store
  | clearMemPool =>
      have cleared := consistent.clearMemPool_result
      have copy : run.copied = true →
          CountedIn (run.store.clearMemPool.copiedMemPool.rows.reverse ++
              run.store.clearMemPool.liveLog) run.store.clearMemPool.block
            run.store.clearMemPool.copiedAdminCount
            run.store.clearMemPool.copiedMinerCount := by
        intro taken
        rw [cleared.copiedMemPool, cleared.liveLog, cleared.block, cleared.copiedAdminCount,
          cleared.copiedMinerCount]
        exact counted.copy taken
      by_cases noRows : run.store.memPool.count = 0
      · refine ⟨nextSound, ?_, (by intro lost; cases lost), copy⟩
        obtain ⟨admins, miners⟩ := cleared.kept noRows
        have empty : run.store.memPool.rows = [] :=
          List.eq_nil_of_length_eq_zero (by simpa using noRows)
        have store := counted.store
        unfold CountedStore at store
        rw [fullLog, empty] at store
        change CountedIn run.store.clearMemPool.fullLog run.store.clearMemPool.block
          run.store.clearMemPool.adminCount run.store.clearMemPool.minerCount
        rw [fullLog, cleared.rows, cleared.liveLog, cleared.block, admins, miners]
        exact store
      · exact of_recounted nextSound (consistent.recounted_clearMemPool noRows)
          ((zeroHolds_clearMemPool sound).2 (recountsAll noRows)) rfl copy
  | restoreMemPool =>
      have cleared := consistent.clearMemPool_result
      have rowsEq := consistent.rows_restoreMemPool
      have liveEq := consistent.liveLog_restoreMemPool
      have copy := counted.copy allowed
      have restored : CountedIn (run.store.copiedMemPool.rows.reverse ++ run.store.liveLog)
          run.store.clearMemPool.block run.store.clearMemPool.copiedAdminCount
          run.store.clearMemPool.copiedMinerCount := by
        rw [cleared.block, cleared.copiedAdminCount, cleared.copiedMinerCount]
        exact copy
      refine ⟨nextSound, ?_, (by intro lost; cases lost), fun _ => ?_⟩
      · change CountedIn run.store.restoreMemPool.fullLog run.store.clearMemPool.block
          run.store.clearMemPool.copiedAdminCount run.store.clearMemPool.copiedMinerCount
        rw [fullLog, rowsEq, liveEq]
        exact restored
      · change CountedIn (run.store.clearMemPool.copiedMemPool.rows.reverse ++
          run.store.restoreMemPool.liveLog) run.store.clearMemPool.block
          run.store.clearMemPool.copiedAdminCount run.store.clearMemPool.copiedMinerCount
        rw [cleared.copiedMemPool, liveEq]
        exact restored
  | commit miner hash =>
      exact of_recounted nextSound (consistent.recounted_commit params miner hash)
        ((zeroHolds_commit sound miner hash).2 recountsAll) rfl
        (by intro lost; cases lost)
  | rollBack block =>
      exact of_recounted nextSound (consistent.recounted_rollBack allowed.1 allowed.2)
        ((zeroHolds_rollBack sound allowed.1 allowed.2).2 recountsAll) rfl
        (by intro lost; cases lost)

theorem recountsAll (counted : Counted run) {call : PermissionCall} (allowed : run.Allows call)
    (countsHolders : CountsHolders (run.next params call).store) : RecountsAll run call := by
  have sound := counted.sound
  have consistent := sound.consistent
  cases call with
  | commit miner hash =>
      exact (zeroHolds_commit sound miner hash).1
        ((consistent.recounted_commit params miner hash).countsHolders_iff.1 countsHolders)
  | rollBack block =>
      exact (zeroHolds_rollBack sound allowed.1 allowed.2).1
        ((consistent.recounted_rollBack allowed.1 allowed.2).countsHolders_iff.1 countsHolders)
  | clearMemPool =>
      intro someRows
      exact (zeroHolds_clearMemPool sound).1
        ((consistent.recounted_clearMemPool someRows).countsHolders_iff.1 countsHolders)
  | _ => trivial

theorem countsHolders (counted : Counted run) : CountsHolders run.store :=
  counted.sound.consistent.countsHolders_iff.2 counted.store

/-- Along a run the counts stay right exactly as long as every recount finds all
holders. -/
theorem countsHolders_after_iff (counted : Counted run) {calls : List PermissionCall}
    (follows : Follows params Allows run calls) :
    (∀ taken, CountsHolders (run.after params (calls.take taken)).store) ↔
      Follows params RecountsAll run calls := by
  induction calls generalizing run with
  | nil =>
      refine ⟨fun _ => trivial, fun _ taken => ?_⟩
      rw [List.take_nil]
      exact counted.countsHolders
  | cons call calls ih =>
      obtain ⟨allowed, follows⟩ := follows
      constructor
      · intro right
        have countsNext : CountsHolders (run.next params call).store := right 1
        have recountsAll := counted.recountsAll allowed countsNext
        exact ⟨recountsAll, (ih (counted.next allowed recountsAll) follows).1
          fun taken => right (taken + 1)⟩
      · rintro ⟨recountsAll, rest⟩ taken
        cases taken with
        | zero => exact counted.countsHolders
        | succ taken => exact (ih (counted.next allowed recountsAll) follows).2 rest taken

end Counted

/-- In every state of a run the counts are the numbers of holders exactly when no
recount of the run happens while the zero address holds a permission. -/
theorem countsHolders_iff_recountsAll (params : NetworkParams) (calls : List PermissionCall)
    (follows : Follows params Allows start calls) :
    (∀ taken, CountsHolders (start.after params (calls.take taken)).store) ↔
      Follows params RecountsAll start calls :=
  counted_start.countsHolders_after_iff follows

/-- The zero address becomes an admin in the first block. -/
def zeroAdmin : List PermissionCall :=
  [.setPermission
    { entity := .null
      address := 0
      type := mcPtpAdmin
      admin := 7
      blockFrom := 0
      blockTo := 1000
      timestamp := 1
      flags := 0
      updateMempool := true
      offset := 0 },
    .commit 7 1]

theorem follows_zeroAdmin : Follows unanimous Allows start zeroAdmin :=
  ⟨trivial, trivial, trivial⟩

/-- The commit recounts no admin although the zero address is one. -/
theorem zeroAdmin_not_countsHolders :
    ¬ ∀ taken, CountsHolders (start.after unanimous (zeroAdmin.take taken)).store := by
  intro right
  have counted : (start.after unanimous zeroAdmin).store.adminCount = 0 := by decide +kernel
  have holds : (0 : Address) ∈ (start.after unanimous zeroAdmin).store.holders mcPtpAdmin := by
    change (start.after unanimous zeroAdmin).store.getPermission (nullKey 0 mcPtpAdmin) true ≠ 0
    decide +kernel
  have someone := (Set.ncard_pos (finite_addresses _)).2 ⟨0, holds⟩
  have admins := (right 2).1
  change (start.after unanimous zeroAdmin).store.adminCount = _ at admins
  rw [counted] at admins
  change (0 : Int) = (((start.after unanimous zeroAdmin).store.holders mcPtpAdmin).ncard : Int)
    at admins
  omega

theorem countsHolders_iff_recountsAll_zeroAdmin :
    (∀ taken, CountsHolders (start.after unanimous (zeroAdmin.take taken)).store) ↔
      Follows unanimous RecountsAll start zeroAdmin :=
  countsHolders_iff_recountsAll unanimous zeroAdmin follows_zeroAdmin

end PermissionRun

end HdacNode
