import HdacNode.PermissionRuns

/-!
# A commit that is not flagged keeps the governance model

`CalculateBlockFlags` looks at the rows of the memory pool that are the last in
consensus of their keys and compares each with the row the database holds.  The
rows that follow without consensus carry the range on, so these are the ranges
the database holds after the commit.
-/

namespace HdacNode

open LinkedRowLog

namespace Permissions

/-- What `GetPermission` answers from the database alone when a height is next. -/
def answerAt (s : Permissions) (key : Key) (height : Int) : Nat :=
  if (s.getPermissionRow key false).inBlockRange (height - 1) then key.type else 0

/-- The range of the newest row of a key, empty when there is none. -/
def rangeOf : Option LedgerRow → Int × Int
  | none => (0, 0)
  | some row => (row.blockFrom, row.blockTo)

/-- A row without consensus has the range of the row of its key before it. -/
def Carried (base : List LedgerRow) : List LedgerRow → Prop
  | [] => True
  | row :: pool =>
      (row.consensus = 0 →
        rangeOf (some row) = rangeOf (newestOf (pool ++ base) row.key)) ∧ Carried base pool

/-- The newest row of a key in consensus. -/
def newestInConsensus (pool : List LedgerRow) (key : Key) : Option LedgerRow :=
  pool.find? fun row => row.key = key ∧ row.consensus ≠ 0

namespace Carried

variable {base pool : List LedgerRow}

theorem of_append {upper : List LedgerRow} (carried : Carried base (upper ++ pool)) :
    Carried base pool := by
  induction upper with
  | nil => exact carried
  | cons row upper ih => exact ih carried.2

theorem rangeOf_newestOf (carried : Carried base pool) (key : Key) :
    rangeOf (newestOf (pool ++ base) key) =
      rangeOf ((newestInConsensus pool key).or (newestOf base key)) := by
  induction pool with
  | nil => rfl
  | cons row pool ih =>
      have older := ih carried.2
      unfold newestOf newestInConsensus at *
      rw [List.cons_append, List.find?_cons, List.find?_cons]
      by_cases sameKey : row.key = key
      · subst sameKey
        by_cases noConsensus : row.consensus = 0
        · simpa [noConsensus] using (carried.1 noConsensus).trans older
        · simp [noConsensus]
      · simpa [sameKey] using older

end Carried

namespace Consistent

variable {s : Permissions} {blocks : List (Address × Hash)} {top : Int}

theorem answerAt_eq (consistent : Consistent s blocks top) {key : Key} (notZero : key ≠ zeroKey)
    (notAbove : ¬ s.AboveTip key) (height : Int) :
    s.answerAt key height =
      if (rangeOf (newestOf s.liveLog key)).1 ≤ height ∧
          height < (rangeOf (newestOf s.liveLog key)).2 then key.type
      else 0 := by
  unfold answerAt
  rw [inBlockRange_of_reports (consistent.getPermissionRow_false notZero notAbove)]
  cases newestOf s.liveLog key with
  | none =>
      have emptyRange : ¬ ((rangeOf none).1 ≤ height ∧ height < (rangeOf none).2) := by
        simp only [rangeOf]
        omega
      rw [if_neg emptyRange]
      rfl
  | some row =>
      simp only [Option.any_some, LedgerRow.inBlockRange, Int.sub_add_cancel, decide_eq_true_eq,
        rangeOf]
      exact if_congr Iff.rfl rfl rfl

/-- Behind the newest row of a key in consensus only rows without consensus
follow. -/
theorem nextInConsensus_newest (consistent : Consistent s blocks top) {key : Key}
    {row : LedgerRow} (found : newestInConsensus s.memPool.rows.reverse key = some row)
    (fuel : Nat) :
    (s.nextInConsensus key fuel row.thisRow row).consensus = 0 ∨
      (s.nextInConsensus key fuel row.thisRow row).thisRow = row.thisRow := by
  obtain ⟨-, upper, lower, pool, noneNewer⟩ := List.find?_eq_some_iff_append.1 found
  have linked : ledgerShape.Linked (upper ++ row :: (lower ++ s.liveLog)) := by
    have := consistent.linked
    rwa [fullLog, pool, List.append_assoc] at this
  have rowPlace : row.thisRow = (lower ++ s.liveLog).length + 1 := linked.of_append.1
  -- a row that links to this one or to a later one is itself later
  have later : ∀ next ∈ s.memPool.rows, next.key = key → row.thisRow ≤ next.prevRow →
      next.consensus = 0 ∧ row.thisRow ≤ next.thisRow := by
    intro next member sameKey behind
    have inLog : next ∈ upper ++ row :: (lower ++ s.liveLog) := by
      have : next ∈ s.memPool.rows.reverse := List.mem_reverse.2 member
      rw [pool] at this
      simp only [List.mem_append, List.mem_cons] at this ⊢
      tauto
    have forward := linked.prevRow_lt_thisRow inLog
    change next.prevRow < next.thisRow at forward
    rcases List.mem_append.1 inLog with inUpper | inLower
    · have := noneNewer next inUpper
      simp only [sameKey, true_and, ne_eq, decide_not, Bool.not_not, decide_eq_true_eq] at this
      exact ⟨this, by omega⟩
    · have bound := linked.of_append.thisRow_le_length inLower
      change next.thisRow ≤ _ at bound
      rw [List.length_cons] at bound
      omega
  have walk : ∀ fuel prevRow next, row.thisRow ≤ prevRow →
      (next.consensus = 0 ∨ next.thisRow = row.thisRow) →
      (s.nextInConsensus key fuel prevRow next).consensus = 0 ∨
        (s.nextInConsensus key fuel prevRow next).thisRow = row.thisRow := by
    intro fuel
    induction fuel with
    | zero => exact fun _ _ _ holds => holds
    | succ fuel ih =>
        intro prevRow next behind holds
        unfold nextInConsensus
        cases sought : s.memPool.seek memPoolKey ⟨key, prevRow⟩ with
        | none => exact holds
        | some mprow =>
            obtain ⟨inside, sameLink⟩ :=
              RowBuffer.keyOf_getRow_of_seek sought consistent.memCoherent
            have member : s.memPool.getRow mprow ∈ s.memPool.rows := by
              rw [RowBuffer.getRow_eq_rows_getElem _ (by simpa using inside)]
              exact List.getElem_mem _
            have sameKey : (s.memPool.getRow mprow).key = key := congrArg MemPoolKey.key sameLink
            have prevEq : (s.memPool.getRow mprow).prevRow = prevRow :=
              congrArg MemPoolKey.prevRow sameLink
            obtain ⟨noConsensus, after⟩ := later _ member sameKey (by omega)
            dsimp only
            rw [if_neg (by simpa using noConsensus)]
            exact ih _ _ after (.inl noConsensus)
  exact walk fuel row.thisRow row le_rfl (.inr rfl)

/-- A row that is the last in consensus of its key and is not found to change the
governance has the range of the database above the next height. -/
theorem inRange_of_unchanged (consistent : Consistent s blocks top) {address : Address}
    {type : Nat} (isCounted : type = mcPtpAdmin ∨ type = mcPtpMine) {row : LedgerRow}
    (found : newestInConsensus s.memPool.rows.reverse (nullKey address type) = some row)
    (unchanged : s.changesGovernance row = false) {height : Int} (above : s.block + 1 < height) :
    (row.blockFrom ≤ height ∧ height < row.blockTo) ↔
      (rangeOf (newestOf s.liveLog (nullKey address type))).1 ≤ height ∧
        height < (rangeOf (newestOf s.liveLog (nullKey address type))).2 := by
  have matched : row.key = nullKey address type ∧ row.consensus ≠ 0 := by
    simpa using List.find?_some found
  obtain ⟨rowKey, inConsensus⟩ := matched
  have typeMask : row.key.type &&& (mcPtpAdmin ||| mcPtpMine) ≠ 0 := by
    rw [rowKey]
    change type &&& (mcPtpAdmin ||| mcPtpMine) ≠ 0
    rcases isCounted with rfl | rfl <;> decide
  have nullEntity : row.key.entity = .null := by
    rw [rowKey]
    rfl
  have notZero : nullKey address type ≠ zeroKey := by
    rcases isCounted with rfl | rfl <;> simp [nullKey, zeroKey, mcPtpAdmin, mcPtpMine]
  have notAbove : ¬ s.AboveTip (nullKey address type) := by
    rintro ⟨other, -, sameKey⟩
    cases sameKey
  have last := consistent.nextInConsensus_newest found s.memPool.count
  have reports := consistent.getPermissionRow_false notZero notAbove
  unfold changesGovernance at unchanged
  rw [if_pos ⟨typeMask, nullEntity, Nat.pos_of_ne_zero inConsensus⟩, rowKey] at unchanged
  dsimp only at unchanged
  rw [if_pos last] at unchanged
  cases newest : newestOf s.liveLog (nullKey address type) with
  | none =>
      rw [newest] at reports
      rw [if_neg (not_not.2 reports.2.2)] at unchanged
      simp only [decide_eq_false_iff_not] at unchanged
      simp only [rangeOf]
      omega
  | some base =>
      rw [newest] at reports
      obtain ⟨fromEq, toEq, rowEq⟩ := reports
      have positive : base.thisRow ≠ 0 := by
        have := consistent.liveLinked.thisRow_pos (List.mem_of_find?_eq_some newest)
        change 0 < base.thisRow at this
        omega
      rw [if_pos (by rw [rowEq]; exact positive), fromEq, toEq] at unchanged
      simp only [decide_eq_false_iff_not] at unchanged
      simp only [rangeOf]
      omega

/-- Without the flag, the database answers above the committed height as
before. -/
theorem answerAt_commit (consistent : Consistent s blocks top)
    (carried : Carried s.liveLog s.memPool.rows.reverse) (params : NetworkParams)
    (miner : Address) (hash : Hash)
    (unflagged : s.calculateBlockFlags &&& mcPfbGovernanceChange = 0) (address : Address)
    {type : Nat} (isCounted : type = mcPtpAdmin ∨ type = mcPtpMine) {height : Int}
    (above : s.block + 1 < height) :
    (s.commit params miner hash).answerAt (nullKey address type) height =
      s.answerAt (nullKey address type) height := by
  have notZero : nullKey address type ≠ zeroKey := by
    rcases isCounted with rfl | rfl <;> simp [nullKey, zeroKey, mcPtpAdmin, mcPtpMine]
  have notAbove : ∀ s : Permissions, ¬ s.AboveTip (nullKey address type) := by
    rintro s ⟨other, -, sameKey⟩
    cases sameKey
  have committed := consistent.commit params miner hash
  have notMiner : ∀ other, blockMinerKey other ≠ nullKey address type := by
    intro other sameKey
    have sameType := congrArg Key.type sameKey
    rcases isCounted with rfl | rfl <;> cases sameType
  have newest : newestOf (s.commit params miner hash).liveLog (nullKey address type) =
      newestOf s.fullLog (nullKey address type) := by
    rw [consistent.liveLog_commit]
    have otherIndex : ¬ (s.countedIndexRow miner hash).key = nullKey address type := by
      intro sameKey
      cases sameKey
    have otherMiner : ¬ (s.countedMinerRow miner hash).key = nullKey address type :=
      notMiner miner
    simp only [newestOf, List.find?_cons, otherIndex, otherMiner, decide_false]
  have noChange : ∀ row ∈ s.memPool.rows, s.changesGovernance row = false := by
    intro row member
    by_contra changes
    have flagged : s.memPool.rows.any s.changesGovernance = true :=
      List.any_eq_true.2 ⟨row, member, by simpa using changes⟩
    rw [calculateBlockFlags, if_pos flagged] at unflagged
    cases unflagged
  rw [committed.answerAt_eq notZero (notAbove _), consistent.answerAt_eq notZero (notAbove _),
    newest, fullLog, carried.rangeOf_newestOf]
  cases found : newestInConsensus s.memPool.rows.reverse (nullKey address type) with
  | none => rfl
  | some row =>
      have member : row ∈ s.memPool.rows :=
        List.mem_reverse.1 (List.mem_of_find?_eq_some found)
      exact if_congr (consistent.inRange_of_unchanged isCounted found (noChange row member) above)
        rfl rfl

end Consistent

end Permissions

namespace PermissionRun

open Permissions

/-- In the memory pool and in its copy the rows without consensus carry ranges
on. -/
structure CarriesRanges (run : PermissionRun) : Prop where
  memPool : Carried run.store.liveLog run.store.memPool.rows.reverse
  copied : run.copied = true → Carried run.store.liveLog run.store.copiedMemPool.rows.reverse

namespace CarriesRanges

variable {params : NetworkParams} {run : PermissionRun}

theorem start : CarriesRanges start where
  memPool := trivial
  copied := by
    intro absurdity
    cases absurdity

private theorem setPermissionType {s : Permissions} {blocks : List (Address × Hash)} {top : Int}
    (consistent : Consistent s blocks top) (carried : Carried s.liveLog s.memPool.rows.reverse)
    (grant : Grant) {type : Nat} (typeMem : type ∈ grantableTypes) :
    Carried (s.setPermissionType params grant type).1.liveLog
      (s.setPermissionType params grant type).1.memPool.rows.reverse := by
  rw [(grown_setPermissionType params s grant type).liveLog]
  rcases setPermissionType_cases params s grant type with unchanged | ⟨row, decided, changed⟩
  · rw [unchanged]
    exact carried
  · have rowKey : row.key = ⟨grant.entity, .account grant.address, type⟩ := decided.key
    have rows : (s.setPermissionType params grant type).1.memPool.rows =
        s.memPool.rows ++ [row] := by
      rw [changed, (sameStore_adjustCounts _ _ _ _).memPool]
      have same := (sameStore_saveClearedCounts s).memPool
      simp [appendRow, same]
    have grantRow : GrantRow row (s.block + 1) :=
      ⟨decided.blockReceived, ⟨grant.address, by rw [rowKey]⟩, by rw [rowKey]; exact typeMem⟩
    have notAbove : ¬ s.AboveTip row.key := by
      rintro ⟨height, -, sameKey⟩
      exact grantRow.type_ne_blockIndex (congrArg Key.type sameKey)
    have reports := consistent.getPermissionRow_true grantRow.key_ne_zeroKey notAbove
    rw [rows, List.reverse_append]
    refine ⟨fun noConsensus => ?_, carried⟩
    obtain ⟨fromEq, toEq⟩ := decided.carried noConsensus
    rw [← rowKey] at fromEq toEq
    change (row.blockFrom, row.blockTo) = rangeOf (newestOf s.fullLog row.key)
    rw [fromEq, toEq]
    cases newest : newestOf s.fullLog row.key with
    | none =>
        rw [newest] at reports
        rw [reports.1, reports.2.1]
        rfl
    | some base =>
        rw [newest] at reports
        rw [reports.1, reports.2.1]
        rfl

private theorem of_grown (carries : CarriesRanges run) {store : Permissions}
    (grown : Grown run.store store) (carried : Carried store.liveLog store.memPool.rows.reverse) :
    CarriesRanges { run with store := store } where
  memPool := carried
  copied := fun taken => by
    change Carried store.liveLog store.copiedMemPool.rows.reverse
    rw [grown.liveLog, grown.copiedMemPool]
    exact carries.copied taken

theorem next (carries : CarriesRanges run) (sound : Sound run) {call : PermissionCall}
    (allowed : run.Allows call) : CarriesRanges (run.next params call) := by
  have consistent := sound.consistent
  have granted : ∀ grant s type, type ∈ grantableTypes →
      (∃ blocks top, Consistent s blocks top) ∧ Carried s.liveLog s.memPool.rows.reverse →
      (∃ blocks top, Consistent (s.setPermissionType params grant type).1 blocks top) ∧
        Carried (s.setPermissionType params grant type).1.liveLog
          (s.setPermissionType params grant type).1.memPool.rows.reverse := by
    rintro grant s type typeMem ⟨⟨blocks, top, consistent⟩, carried⟩
    exact ⟨⟨blocks, top, consistent.setPermissionType params grant typeMem⟩,
      setPermissionType consistent carried grant typeMem⟩
  cases call with
  | setPermission grant =>
      exact carries.of_grown (grown_setPermission params run.store grant)
        (setPermission_induction (fun s type => granted grant s type)
          ⟨⟨_, _, consistent⟩, carries.memPool⟩).2
  | setApproval approval =>
      exact carries.of_grown (grown_setApproval params run.store approval)
        (setApproval_induction (fun s grant type => granted grant s type)
          ⟨⟨_, _, consistent⟩, carries.memPool⟩).2
  | setCheckPoint => exact ⟨carries.memPool, carries.copied⟩
  | rollBackToCheckPoint =>
      have checkPointed := sound.checkPointed allowed
      have log := consistent.liveLog_rollBackToCheckPoint checkPointed
      constructor
      · change Carried run.store.rollBackToCheckPoint.liveLog
          run.store.rollBackToCheckPoint.memPool.rows.reverse
        have carried := carries.memPool
        rw [← List.take_append_drop run.store.checkPointMemPoolSize run.store.memPool.rows,
          List.reverse_append] at carried
        rw [log, Consistent.rows_rollBackToCheckPoint checkPointed]
        exact carried.of_append
      · intro taken
        change Carried run.store.rollBackToCheckPoint.liveLog _
        rw [log]
        exact carries.copied taken
  | copyMemPool =>
      refine ⟨carries.memPool, fun _ => ?_⟩
      change Carried run.store.liveLog run.store.copyMemPool.copiedMemPool.rows.reverse
      rw [rows_copyMemPool]
      exact carries.memPool
  | clearMemPool =>
      have result := consistent.clearMemPool_result
      constructor
      · change Carried _ run.store.clearMemPool.memPool.rows.reverse
        rw [result.rows]
        trivial
      · intro taken
        change Carried run.store.clearMemPool.liveLog
          run.store.clearMemPool.copiedMemPool.rows.reverse
        rw [result.liveLog, result.copiedMemPool]
        exact carries.copied taken
  | restoreMemPool =>
      have result := consistent.clearMemPool_result
      have copied := carries.copied allowed
      constructor
      · change Carried run.store.restoreMemPool.liveLog
          run.store.restoreMemPool.memPool.rows.reverse
        rw [consistent.liveLog_restoreMemPool, consistent.rows_restoreMemPool]
        exact copied
      · intro _
        change Carried run.store.restoreMemPool.liveLog
          run.store.clearMemPool.copiedMemPool.rows.reverse
        rw [consistent.liveLog_restoreMemPool, result.copiedMemPool]
        exact copied
  | commit miner hash =>
      refine ⟨?_, fun absurdity => by cases absurdity⟩
      change Carried _ (run.store.commit params miner hash).memPool.rows.reverse
      rw [consistent.rows_commit]
      trivial
  | rollBack block =>
      obtain ⟨segment, rest, log, -, undone, kept⟩ := consistent.splitAt allowed.1 allowed.2
      refine ⟨?_, fun absurdity => by cases absurdity⟩
      change Carried _ (run.store.rollBack block).memPool.rows.reverse
      rw [(consistent.rollBack_result log undone kept).rows]
      trivial

theorem after {calls : List PermissionCall} (carries : CarriesRanges run) (sound : Sound run)
    (follows : Follows params Allows run calls) : CarriesRanges (run.after params calls) :=
  (after_induction (motive := fun run => Sound run ∧ CarriesRanges run)
    (fun _ _ allowed holds => ⟨holds.1.next allowed, holds.2.next holds.1 allowed⟩)
    ⟨sound, carries⟩ follows).2

end CarriesRanges

end PermissionRun

end HdacNode
