import HdacNode.MiningThresholds
import HdacNode.UpgradeApprovals

/-!
# The votes that are still required

`RequiredForConsensus` asks `VerifyConsensus` about a row that has no admin yet, and returns the
votes that its loop still misses.  The pending votes of a key are its rows since the last one in
consensus.
-/

namespace HdacNode

open LinkedRowLog NewestVote

namespace Permissions

/-- The types `RequiredForConsensus` knows. -/
def requiredTypes : List Nat :=
  [mcPtpAdmin, mcPtpMine, mcPtpConnect, mcPtpReceive, mcPtpSend, mcPtpIssue, mcPtpCreate,
    mcPtpActivate, mcPtpWrite, mcPtpBanned]

/-- The row that `RequiredForConsensus` asks about. -/
def askedRow (s : Permissions) (key : Key) (range : Int × Int) (now : Nat) (last : LedgerRow) :
    LedgerRow :=
  { LedgerRow.zero with
    key := key
    prevRow := last.thisRow
    blockFrom := range.1
    blockTo := range.2
    grantFrom := range.1
    grantTo := range.2
    thisRow := s.row
    timestamp := now }

/-- `RequiredForConsensus`, at the time `now`. -/
def requiredForConsensus (params : NetworkParams) (s : Permissions) (entity : Entity)
    (address : Address) (type : Nat) (range : Int × Int) (now : Nat) : Int :=
  if entity ≠ .null then 1
  else
    let key : Key := ⟨entity, .account address, type⟩
    let last := s.getPermissionRow key true
    if type ∈ requiredTypes then
      if last.thisRow ≠ 0 then
        if last.blockFrom = range.1 ∧ last.blockTo = range.2 then 0
        else
          match verifyConsensus params s true (s.askedRow key range now last) last with
          | .error _ => -2
          | .ok (_, required) => required
      else adminConsensus params s entity type
    else -1

section Scan

variable {params : NetworkParams} {s : Permissions} {newRow lastRow : LedgerRow}

/-- Above the genesis block, the loop counts a row the same whether or not it was asked for the
missing votes. -/
theorem countVote_true {row : LedgerRow} (received : 0 < row.blockReceived) (scan : VoteScan) :
    countVote true newRow row scan = countVote false newRow row scan := by
  have same : ∀ required, missingAfter true newRow row required =
      missingAfter false newRow row required := by
    intro required
    simp [missingAfter, received]
  unfold countVote
  simp only [same]

theorem scanned_asked {row : LedgerRow} (asked : row.blockReceived = 0) (consensus : Nat) :
    Scanned row (consensus + 1) [row]
      (countVote true row row ⟨consensus, RowBuffer.initializeBuffer .zero true⟩) := by
  have noneYet : (RowBuffer.initializeBuffer LedgerRow.zero true).seek LedgerRow.key
      (asVote row).key = none := rfl
  have notCounted : missingAfter true row row consensus = consensus := by
    simp [missingAfter, asked]
  have counted : missingAfter false row row (consensus + 1) = consensus := by
    simp [missingAfter, sameGrant]
  have opened := (scanned_nil row (consensus + 1)).countVote rfl (Nat.succ_pos consensus)
  unfold countVote at opened ⊢
  rw [noneYet] at opened ⊢
  dsimp only at opened ⊢
  rw [counted] at opened
  rw [notCounted]
  exact opened

theorem scanVotes_remaining {consensus : Nat} (fuel : Nat) :
    ∀ (seen pending : List LedgerRow) (scan : VoteScan) (row : LedgerRow),
      Scanned newRow consensus seen scan → 0 < scan.required → row.key = newRow.key →
      0 < row.blockReceived → PendingChain s newRow.key row.prevRow pending →
      (∀ other ∈ pending, 0 < other.blockReceived) → pending.length < fuel →
      (ReachedBeyond newRow consensus seen (row :: pending) →
        ∃ after, scanVotes s true newRow lastRow fuel scan row = .ok (after, 0)) ∧
      (¬ ReachedBeyond newRow consensus seen (row :: pending) →
        ∃ after remaining, scanVotes s true newRow lastRow fuel scan row = .ok (after, remaining) ∧
          remaining + tally ((seen ++ row :: pending).map ballot) (grantRange newRow) =
            consensus) := by
  induction fuel with
  | zero =>
      intro seen pending scan row _ _ _ _ _ _ enough
      omega
  | succ fuel ih =>
      intro seen pending scan row scanned missing sameKey received chain aboveGenesis enough
      have counted := scanned.countVote sameKey missing
      have countEq := counted.count_eq
      unfold scanVotes
      rw [countVote_true received]
      by_cases reached : (countVote false newRow row scan).required = 0
      · simp only [reached, if_true]
        refine ⟨fun _ => ⟨_, rfl⟩, fun unreached => absurd ⟨0, ?_⟩ unreached⟩
        simp only [Nat.zero_add, List.take_succ_cons, List.take_zero]
        omega
      · simp only [reached, if_false]
        have short : tally ((seen ++ [row]).map ballot) (grantRange newRow) < consensus := by
          omega
        generalize positionEq : row.prevRow = position at chain
        cases chain with
        | first =>
            rw [reachedBeyond_singleton, if_pos rfl]
            exact ⟨fun reached => by omega, fun _ => ⟨_, _, rfl, countEq⟩⟩
        | decided behind stored rowKey rowConsensus =>
            rw [reachedBeyond_singleton, if_neg (by omega),
              readPrevRow_of_storedAt stored rowKey]
            simp only [rowConsensus, if_true]
            exact ⟨fun reached => by omega, fun _ => ⟨_, _, rfl, countEq⟩⟩
        | pending behind stored rowKey noConsensus older =>
            obtain ⟨nextReceived, restReceived⟩ := List.forall_mem_cons.mp aboveGenesis
            rw [reachedBeyond_cons short, if_neg (by omega),
              readPrevRow_of_storedAt stored rowKey]
            simp only [noConsensus, Nat.lt_irrefl, if_false]
            have rest := ih _ _ _ _ counted (by omega) rowKey nextReceived older restReceived
              (by simp only [List.length_cons] at enough; omega)
            rw [List.append_assoc, List.singleton_append] at rest
            exact rest

/-- The row that is asked about is no vote, but it takes the place of the zero address, and so
the loop misses one vote more than behind a vote of that address. -/
theorem scanVotes_asked {row : LedgerRow} {pending : List LedgerRow} {consensus : Nat}
    (chain : PendingChain s row.key row.prevRow pending) (behind : row.prevRow < s.row)
    (linked : row.prevRow ≠ 0) (asked : row.blockReceived = 0)
    (aboveGenesis : ∀ other ∈ pending, 0 < other.blockReceived) (several : 1 < consensus) :
    (ReachedByPrefix (votes row pending) (grantRange row) (consensus + 1) →
      ∃ after, scanVotes s true row lastRow (s.row + 1)
        ⟨consensus, RowBuffer.initializeBuffer .zero true⟩ row = .ok (after, 0)) ∧
    (¬ ReachedByPrefix (votes row pending) (grantRange row) (consensus + 1) →
      ∃ after remaining, scanVotes s true row lastRow (s.row + 1)
        ⟨consensus, RowBuffer.initializeBuffer .zero true⟩ row = .ok (after, remaining) ∧
          remaining + tally (votes row pending) (grantRange row) = consensus + 1) := by
  have opened := scanned_asked asked consensus
  have countEq := opened.count_eq
  have ownVote : tally ([row].map ballot) (grantRange row) ≤ 1 := tally_le_length _ _
  have missing : 0 < (countVote true row row
      ⟨consensus, RowBuffer.initializeBuffer .zero true⟩).required := by
    omega
  have short : tally (([] ++ [row]).map ballot) (grantRange row) < consensus + 1 := by
    rw [List.nil_append]
    omega
  have enough := chain.length_le
  rw [reachedByPrefix_iff (Nat.succ_pos consensus)]
  unfold scanVotes
  dsimp only
  rw [if_neg missing.ne', if_neg linked]
  generalize positionEq : row.prevRow = position at chain behind linked enough
  cases chain with
  | first => exact absurd rfl linked
  | decided behind stored rowKey rowConsensus =>
      rw [reachedBeyond_singleton, readPrevRow_of_storedAt stored rowKey]
      simp only [rowConsensus, if_true]
      exact ⟨fun reached => by omega, fun _ => ⟨_, _, rfl, countEq⟩⟩
  | pending behindIt stored rowKey noConsensus older =>
      obtain ⟨received, restReceived⟩ := List.forall_mem_cons.mp aboveGenesis
      rw [reachedBeyond_cons short, readPrevRow_of_storedAt stored rowKey]
      simp only [noConsensus, Nat.lt_irrefl, if_false]
      rw [List.length_cons] at enough
      exact scanVotes_remaining s.row _ _ _ _ opened missing rowKey received older restReceived
        (by omega)

end Scan

/-- The rows of a key since its last one in consensus, newest first. -/
def pendingVotes (s : Permissions) (key : Key) : List LedgerRow :=
  (s.keyRows key).takeWhile fun row => row.consensus = 0

section Pending

variable {s : Permissions} {blocks : List (Address × Hash)} {top : Int} {key : Key}

private theorem filter_dropWhile_key (notIndex : key.type ≠ mcPtpBlockIndex)
    (log : List LedgerRow) :
    (log.dropWhile fun row => row.key ≠ key).filter (fun row => linkKey row = key) =
      log.filter fun row => row.key = key := by
  have sameLink : ∀ row : LedgerRow, linkKey row = key ↔ row.key = key := by
    intro row
    unfold linkKey
    split
    · rename_i isIndex
      constructor
      · rintro rfl
        exact absurd rfl notIndex
      · rintro rfl
        exact absurd isIndex notIndex
    · rfl
  induction log with
  | nil => rfl
  | cons row log ih =>
      by_cases isKey : row.key = key
      · simp [isKey, sameLink]
      · simpa [isKey, List.dropWhile_cons] using ih

namespace Consistent

theorem pendingVotes_eq (consistent : Consistent s blocks top)
    (notIndex : key.type ≠ mcPtpBlockIndex) :
    s.pendingVotes key =
      (s.fullLog.filter fun row => row.key = key).takeWhile fun row => row.consensus = 0 := by
  rw [pendingVotes, consistent.keyRows_eq, if_neg notIndex, filter_dropWhile_key notIndex]

private theorem pendingChain_of_log (consistent : Consistent s blocks top)
    (notIndex : key.type ≠ mcPtpBlockIndex) {upper lower : List LedgerRow}
    (log : s.fullLog = upper ++ lower) :
    PendingChain s key ((newestOf lower key).elim 0 LedgerRow.thisRow)
      ((lower.filter fun row => row.key = key).takeWhile fun row => row.consensus = 0) := by
  induction lower generalizing upper with
  | nil => exact .first
  | cons row lower ih =>
      have older := @ih (upper ++ [row]) (by simp [log])
      by_cases isKey : row.key = key
      · have linked := consistent.linked
        have inLog : row ∈ s.fullLog := by
          rw [log]
          simp
        have stored := consistent.storedAt inLog
        rw [log] at linked
        obtain ⟨thisRow, prevRow, linked⟩ := linked.of_append
        have rowLink : row.prevRow = (newestOf lower key).elim 0 LedgerRow.thisRow := by
          rw [← newest_eq_thisRow linked notIndex, ← isKey,
            ← linkKey_of_ne (by rw [isKey]; exact notIndex)]
          exact prevRow
        have behind : row.prevRow < row.thisRow := by
          change ledgerShape.prevRow row < ledgerShape.thisRow row
          rw [prevRow, thisRow]
          exact Nat.lt_succ_of_le (newest_le_length lower _)
        have found : newestOf (row :: lower) key = some row := by
          rw [newestOf, List.find?_cons, decide_eq_true isKey]
        rw [found, List.filter_cons_of_pos (by simpa using isKey)]
        by_cases undecided : row.consensus = 0
        · rw [List.takeWhile_cons_of_pos (by simpa using undecided)]
          exact .pending behind stored isKey undecided (by rw [rowLink]; exact older)
        · rw [List.takeWhile_cons_of_neg (by simpa using undecided)]
          exact .decided (Nat.zero_lt_of_lt behind) stored isKey (Nat.pos_of_ne_zero undecided)
      · rw [newestOf_cons_of_ne isKey, List.filter_cons_of_neg (by simpa using isKey)]
        exact older

/-- The pending votes of a key are the rows that `VerifyConsensus` goes back to. -/
theorem pendingChain (consistent : Consistent s blocks top) (notZero : key ≠ zeroKey)
    (notIndex : key.type ≠ mcPtpBlockIndex) :
    PendingChain s key (s.getPermissionRow key true).thisRow (s.pendingVotes key) := by
  rw [consistent.thisRow_getPermissionRow notZero notIndex,
    newest_eq_thisRow consistent.linked notIndex, consistent.pendingVotes_eq notIndex]
  exact consistent.pendingChain_of_log notIndex (List.nil_append s.fullLog).symm

end Consistent

end Pending

/-- The range that a query reports for a key. -/
def reportedRange (s : Permissions) (key : Key) : Int × Int :=
  ((s.getPermissionRow key true).blockFrom, (s.getPermissionRow key true).blockTo)

/-- The vote of a grant. -/
def grantBallot (grant : Grant) : Ballot Address (Int × Int) :=
  ⟨grant.admin, grant.timestamp, (grant.blockFrom, grant.blockTo)⟩

theorem grantKey_ne_zeroKey {key : Key} (isType : key.type ∈ grantableTypes) : key ≠ zeroKey := by
  rintro rfl
  revert isType
  decide

theorem grantKey_notIndex {key : Key} (isType : key.type ∈ grantableTypes) :
    key.type ≠ mcPtpBlockIndex := by
  intro isIndex
  rw [isIndex] at isType
  revert isType
  decide

section Ranges

variable {s after : Permissions} {blocks : List (Address × Hash)} {top : Int}

namespace Consistent

/-- A query reports the range of the newest row of a key. -/
theorem reportedRange_eq (consistent : Consistent s blocks top) {key : Key}
    (isType : key.type ∈ grantableTypes) :
    s.reportedRange key =
      (newestOf s.fullLog key).elim (0, 0) fun row => (row.blockFrom, row.blockTo) := by
  have notAbove : ¬ s.AboveTip key := by
    rintro ⟨height, -, rfl⟩
    exact grantKey_notIndex isType rfl
  have reports := consistent.getPermissionRow_true (grantKey_ne_zeroKey isType) notAbove
  unfold reportedRange
  cases newest : newestOf s.fullLog key with
  | none =>
      rw [newest] at reports
      rw [reports.1, reports.2.1]
      rfl
  | some row =>
      rw [newest] at reports
      rw [reports.1, reports.2.1]
      rfl

theorem thisRow_lt_row (consistent : Consistent s blocks top) {key : Key}
    (isType : key.type ∈ grantableTypes) : (s.getPermissionRow key true).thisRow < s.row := by
  have newest := consistent.thisRow_getPermissionRow (grantKey_ne_zeroKey isType)
    (grantKey_notIndex isType)
  have bound : ledgerShape.newest s.fullLog key ≤ s.fullLog.length := newest_le_length _ _
  have length := fullLog_length consistent.rows_pos
  omega

theorem reportedRange_of_carried (consistent : Consistent s blocks top)
    (next : Consistent after blocks top) {row : LedgerRow} (log : after.fullLog = row :: s.fullLog)
    (carried : (row.blockFrom, row.blockTo) = s.reportedRange row.key) {key : Key}
    (isType : key.type ∈ grantableTypes) : after.reportedRange key = s.reportedRange key := by
  rw [next.reportedRange_eq isType, log]
  by_cases isKey : row.key = key
  · rw [newestOf, List.find?_cons, decide_eq_true isKey, ← isKey, ← carried]
    rfl
  · rw [newestOf_cons_of_ne isKey, consistent.reportedRange_eq isType]

end Consistent

theorem getPermission_congr {key : Key} (block : after.block = s.block)
    (range : after.reportedRange key = s.reportedRange key) :
    after.getPermission key true = s.getPermission key true := by
  obtain ⟨fromEq, toEq⟩ := Prod.mk.inj range
  unfold getPermission LedgerRow.inBlockRange
  rw [fromEq, toEq, block]

theorem adminConsensus_congr (params : NetworkParams) (block : after.block = s.block)
    (adminCount : after.adminCount = s.adminCount) (entity : Entity) (type : Nat) :
    adminConsensus params after entity type = adminConsensus params s entity type := by
  have count : getAdminCount params after = getAdminCount params s := by
    rw [getAdminCount, adminCount]
    rfl
  have share : consensusShare params after = consensusShare params s := by
    funext ratio
    rw [consensusShare, count]
    rfl
  have setup : isSetupPeriod params after = isSetupPeriod params s := by
    rw [isSetupPeriod, block]
    rfl
  unfold adminConsensus
  rw [count, share, setup]

theorem canAdmin_congr (params : NetworkParams) (block : after.block = s.block) {entity : Entity}
    {address : Address}
    (range : after.reportedRange ⟨entity, .account address, mcPtpAdmin⟩ =
      s.reportedRange ⟨entity, .account address, mcPtpAdmin⟩) :
    after.canAdmin params entity address = s.canAdmin params entity address := by
  simp only [canAdmin, block, getPermission_congr block range]

end Ranges

/-- The key of a grant. -/
def grantKey (grant : Grant) : Key := ⟨grant.entity, .account grant.address, grant.type⟩

/-- Whether leading votes for the range of a grant reach the consensus, with the grants behind
the pending votes of their key. -/
def Reaches (params : NetworkParams) (s : Permissions) (key : Key) (range : Int × Int)
    (grants : List Grant) : Prop :=
  ReachedByPrefix ((grants.map grantBallot).reverse ++ (s.pendingVotes key).map ballot) range
    (adminConsensus params s key.entity key.type)

section OneGrant

variable {params : NetworkParams} {s : Permissions} {blocks : List (Address × Hash)} {top : Int}
  {grant : Grant}

theorem reachedByPrefix_of_le_one {Voter Choice : Type} [DecidableEq Voter] [DecidableEq Choice]
    (vote : Ballot Voter Choice) (older : List (Ballot Voter Choice)) {threshold : Nat}
    (single : threshold ≤ 1) : ReachedByPrefix (vote :: older) vote.choice threshold := by
  refine ⟨1, ?_⟩
  have ownVote : tally [vote] vote.choice = 1 := by
    rw [tally_cons_of_fresh (by simp) (by simp [mem_supporters, newest]) rfl, tally_nil]
  simpa [ownVote] using single

theorem adminCount_ne_zero (ratios : RatiosInRange params) {entity : Entity} {type : Nat}
    (several : 1 < adminConsensus params s entity type) : s.adminCount ≠ 0 := by
  intro noAdmins
  rw [adminConsensus_eq, getAdminCount, noAdmins] at several
  by_cases anyone : params.anyoneCanAdmin = true
  · rw [if_pos anyone, if_neg (by decide)] at several
    cases found : consensusRatio params s entity type with
    | none =>
        rw [found] at several
        exact absurd several (lt_irrefl 1)
    | some ratio =>
        have ratioLe := ratios.consensusRatio found
        rw [found, Option.elim_some, consensusShare, getAdminCount, if_pos anyone] at several
        by_cases zero : ratio = 0
        · rw [if_pos zero] at several
          exact absurd several (lt_irrefl 1)
        · rw [if_neg zero, show toUInt32 1 = 1 from rfl, mcPrmDecimalGranularity] at several
          omega
  · rw [if_neg anyone, if_pos rfl] at several
    exact absurd several (lt_irrefl 1)

/-- An admin's grant of one type is one grant of `SetPermissionInternal`. -/
theorem setPermission_of_admin (isType : grant.type ∈ grantableTypes)
    (admin : s.canAdmin params grant.entity grant.admin = true) :
    (s.setPermission params grant).1 = (s.setPermissionType params grant grant.type).1 := by
  have onlyOne : ∀ single ∈ grantableTypes,
      grantableTypes.filter (fun type => type &&& single ≠ 0) = [single] := by
    decide
  rw [setPermission, if_neg (by simp [admin]), setPermissionInternal,
    setPermissionTypes_of_one (onlyOne grant.type isType)]

theorem setPermissionType_of_ok {row : LedgerRow} {remaining : Nat}
    (verified : verifyConsensus params s false
      (s.newLedgerRow grant grant.type (s.getPermissionRow (grantKey grant) true))
      (s.getPermissionRow (grantKey grant) true) = .ok (row, remaining))
    (update : grant.updateMempool = true) :
    (s.setPermissionType params grant grant.type).1 =
      (s.saveClearedCounts.appendRow row).adjustCounts grant grant.type
        (s.getPermission (grantKey grant) true) := by
  unfold grantKey at verified ⊢
  unfold setPermissionType
  dsimp only
  rw [verified, update]
  rfl

theorem adminCount_adjustCounts {lastAllowed : Nat}
    (same : s.getPermission (grantKey grant) true = lastAllowed) :
    (s.adjustCounts grant grant.type lastAllowed).adminCount = s.adminCount := by
  unfold grantKey at same
  unfold adjustCounts
  split
  · dsimp only
    split
    · rw [same]
      simp [countChange]
    · rfl
  · rfl

namespace Consistent

/-- A grant takes effect as soon as leading votes reach the consensus, and otherwise carries
the range of its key on. -/
theorem setPermissionType_eq (consistent : Consistent s blocks top) (ratios : RatiosInRange params)
    (isType : grant.type ∈ grantableTypes) (update : grant.updateMempool = true) :
    ∃ row, (s.setPermissionType params grant grant.type).1 =
        (s.saveClearedCounts.appendRow row).adjustCounts grant grant.type
          (s.getPermission (grantKey grant) true) ∧
      row.key = grantKey grant ∧ row.blockReceived = s.block + 1 ∧ row.thisRow = s.row ∧
      row.prevRow = ledgerShape.newest s.fullLog (grantKey grant) ∧
      (Reaches params s (grantKey grant) (grant.blockFrom, grant.blockTo) [grant] →
        0 < row.consensus ∧ (row.blockFrom, row.blockTo) = (grant.blockFrom, grant.blockTo)) ∧
      (¬ Reaches params s (grantKey grant) (grant.blockFrom, grant.blockTo) [grant] →
        row.consensus = 0 ∧ (row.blockFrom, row.blockTo) = s.reportedRange (grantKey grant) ∧
          ballot row = grantBallot grant) := by
  have isKeyType : (grantKey grant).type ∈ grantableTypes := isType
  have notZero := grantKey_ne_zeroKey isKeyType
  have notIndex := grantKey_notIndex isKeyType
  have chain := consistent.pendingChain notZero notIndex
  have newest := consistent.thisRow_getPermissionRow notZero notIndex
  have behind := consistent.thisRow_lt_row isKeyType
  let last := s.getPermissionRow (grantKey grant) true
  let newRow := s.newLedgerRow grant grant.type last
  obtain ⟨ofReached, ofUnreached⟩ :=
    @verifyConsensus_eq params s newRow last _ chain behind
  have sameReach : ReachedByPrefix (votes newRow (s.pendingVotes (grantKey grant)))
      (grantRange newRow) (adminConsensus params s newRow.key.entity newRow.key.type) ↔
      Reaches params s (grantKey grant) (grant.blockFrom, grant.blockTo) [grant] := by
    by_cases several : 1 < adminConsensus params s grant.entity grant.type
    · have admins := adminCount_ne_zero ratios several
      have ballotEq : ballot newRow = grantBallot grant := by
        simp [ballot, newRow, newLedgerRow, grantBallot, admins]
      rw [votes, List.map_cons, ballotEq]
      rfl
    · apply iff_of_true
      · exact reachedByPrefix_of_le_one _ _ (not_lt.mp several)
      · exact reachedByPrefix_of_le_one _ _ (not_lt.mp several)
  by_cases reaches : Reaches params s (grantKey grant) (grant.blockFrom, grant.blockTo) [grant]
  · refine ⟨inConsensus params s newRow, ?_, rfl, rfl, rfl, newest, fun _ => ⟨?_, rfl⟩,
      fun unreached => absurd reaches unreached⟩
    · exact setPermissionType_of_ok (ofReached (sameReach.mpr reaches)) update
    · exact adminConsensus_pos params s _ _
  · obtain ⟨remaining, verified⟩ := ofUnreached fun reached => reaches (sameReach.mp reached)
    refine ⟨outvoted newRow last, ?_, rfl, rfl, rfl, newest, fun reached => absurd reached reaches,
      fun _ => ⟨rfl, rfl, ?_⟩⟩
    · exact setPermissionType_of_ok verified update
    · have several : 1 < adminConsensus params s grant.entity grant.type := by
        by_contra single
        exact reaches (reachedByPrefix_of_le_one _ _ (not_lt.mp single))
      have admins := adminCount_ne_zero ratios several
      simp [ballot, outvoted, newRow, newLedgerRow, grantBallot, admins]

end Consistent

/-- The store after a grant stands for the same chain, with one row more of the grant's key. -/
theorem Consistent.setPermission_admin (consistent : Consistent s blocks top)
    (ratios : RatiosInRange params) (isType : grant.type ∈ grantableTypes)
    (update : grant.updateMempool = true)
    (admin : s.canAdmin params grant.entity grant.admin = true) :
    Consistent (s.setPermission params grant).1 blocks top ∧
    (Reaches params s (grantKey grant) (grant.blockFrom, grant.blockTo) [grant] →
      (s.setPermission params grant).1.reportedRange (grantKey grant) =
        (grant.blockFrom, grant.blockTo)) ∧
    (¬ Reaches params s (grantKey grant) (grant.blockFrom, grant.blockTo) [grant] →
      (s.setPermission params grant).1.block = s.block ∧
      (s.setPermission params grant).1.adminCount = s.adminCount ∧
      ((s.setPermission params grant).1.pendingVotes (grantKey grant)).map ballot =
        grantBallot grant :: (s.pendingVotes (grantKey grant)).map ballot ∧
      ∀ key : Key, key.type ∈ grantableTypes →
        (s.setPermission params grant).1.reportedRange key = s.reportedRange key) := by
  have after := consistent.setPermission params grant
  rw [setPermission_of_admin isType admin] at after ⊢
  obtain ⟨row, changed, rowKey, received, thisRow, prevRow, ofReached, ofUnreached⟩ :=
    consistent.setPermissionType_eq ratios isType update
  have appended : Consistent (s.saveClearedCounts.appendRow row) blocks top := by
    have grantRow : GrantRow row (s.block + 1) :=
      ⟨received, ⟨grant.address, by rw [rowKey]; rfl⟩, by rw [rowKey]; exact isType⟩
    exact (consistent.appendRow grantRow thisRow (by rw [rowKey]; exact prevRow)).of_sameStore
      ((sameStore_saveClearedCounts s).appendRow row)
  have appendedLog : (s.saveClearedCounts.appendRow row).fullLog = row :: s.fullLog := by
    rw [fullLog_appendRow, (sameStore_saveClearedCounts s).fullLog]
  have log : (s.setPermissionType params grant grant.type).1.fullLog = row :: s.fullLog := by
    rw [changed, (sameStore_adjustCounts _ _ _ _).fullLog, appendedLog]
  refine ⟨after, fun reached => ?_, fun unreached => ?_⟩
  · obtain ⟨-, range⟩ := ofReached reached
    rw [after.reportedRange_eq (by exact isType), log, newestOf, List.find?_cons,
      decide_eq_true rowKey]
    exact range
  · obtain ⟨noConsensus, carried, ballotEq⟩ := ofUnreached unreached
    rw [← rowKey] at carried
    have block : (s.setPermissionType params grant grant.type).1.block = s.block :=
      (grown_setPermissionType params s grant grant.type).block
    refine ⟨block, ?_, ?_, ?_⟩
    · have appendedBlock : (s.saveClearedCounts.appendRow row).block = s.block :=
        (sameStore_saveClearedCounts s).block
      have appendedCount : (s.saveClearedCounts.appendRow row).adminCount = s.adminCount := by
        unfold saveClearedCounts
        split <;> rfl
      have isKeyType : (grantKey grant).type ∈ grantableTypes := isType
      have range := consistent.reportedRange_of_carried appended appendedLog carried isKeyType
      rw [changed, adminCount_adjustCounts (getPermission_congr appendedBlock range),
        appendedCount]
    · rw [after.pendingVotes_eq (grantKey_notIndex (by exact isType)), log,
        consistent.pendingVotes_eq (grantKey_notIndex (by exact isType)),
        List.filter_cons_of_pos (by simpa using rowKey),
        List.takeWhile_cons_of_pos (by simpa using noConsensus), List.map_cons, ballotEq]
    · intro key keyType
      exact consistent.reportedRange_of_carried after log carried keyType

end OneGrant

/-- The store after a sequence of grants. -/
def afterGrants (params : NetworkParams) (s : Permissions) (grants : List Grant) : Permissions :=
  grants.foldl (fun s grant => (s.setPermission params grant).1) s

/-- Further votes of different admins for one range, each the latest of an admin who is not
counted for the range yet. -/
structure FurtherVotes (params : NetworkParams) (s : Permissions) (key : Key) (range : Int × Int)
    (grants : List Grant) : Prop where
  key_eq : ∀ grant ∈ grants, grantKey grant = key
  range_eq : ∀ grant ∈ grants, (grant.blockFrom, grant.blockTo) = range
  update : ∀ grant ∈ grants, grant.updateMempool = true
  admins : ∀ grant ∈ grants, s.canAdmin params grant.entity grant.admin = true
  distinct : (grants.map Grant.admin).Nodup
  fresh : ∀ grant ∈ grants, grant.admin ∉ supporters ((s.pendingVotes key).map ballot) range
  latest : ∀ grant ∈ grants, ∀ row ∈ s.pendingVotes key, row.admin = grant.admin →
    row.timestamp ≤ grant.timestamp

theorem FurtherVotes.of_append {params : NetworkParams} {s : Permissions} {key : Key}
    {range : Int × Int} {first rest : List Grant}
    (further : FurtherVotes params s key range (first ++ rest)) :
    FurtherVotes params s key range first where
  key_eq := fun grant member => further.key_eq grant (List.mem_append_left _ member)
  range_eq := fun grant member => further.range_eq grant (List.mem_append_left _ member)
  update := fun grant member => further.update grant (List.mem_append_left _ member)
  admins := fun grant member => further.admins grant (List.mem_append_left _ member)
  distinct := by
    have distinct := further.distinct
    rw [List.map_append] at distinct
    exact distinct.of_append_left
  fresh := fun grant member => further.fresh grant (List.mem_append_left _ member)
  latest := fun grant member => further.latest grant (List.mem_append_left _ member)

/-- A store after votes that did not decide. -/
structure Voted (s after : Permissions) (blocks : List (Address × Hash)) (top : Int) (key : Key)
    (grants : List Grant) : Prop where
  consistent : Consistent after blocks top
  block : after.block = s.block
  adminCount : after.adminCount = s.adminCount
  pending : (after.pendingVotes key).map ballot =
    (grants.map grantBallot).reverse ++ (s.pendingVotes key).map ballot
  ranges : ∀ other : Key, other.type ∈ grantableTypes →
    after.reportedRange other = s.reportedRange other

section ManyGrants

variable {params : NetworkParams} {s after : Permissions} {blocks : List (Address × Hash)}
  {top : Int} {key : Key} {range : Int × Int} {grants : List Grant}

/-- The next vote counts as the last one of all further votes. -/
theorem Voted.reaches_iff (voted : Voted s after blocks top key grants) (grant : Grant) :
    Reaches params after key range [grant] ↔ Reaches params s key range (grants ++ [grant]) := by
  unfold Reaches
  rw [voted.pending, adminConsensus_congr params voted.block voted.adminCount, List.map_append,
    List.reverse_append, List.append_assoc]

theorem Voted.canAdmin (voted : Voted s after blocks top key grants) {grant : Grant}
    (admin : s.canAdmin params grant.entity grant.admin = true) :
    after.canAdmin params grant.entity grant.admin = true := by
  have isType : mcPtpAdmin ∈ grantableTypes := by decide
  rw [canAdmin_congr params voted.block (voted.ranges _ isType)]
  exact admin

namespace FurtherVotes

theorem afterGrants_concat (grants : List Grant) (grant : Grant) :
    s.afterGrants params (grants ++ [grant]) =
      ((s.afterGrants params grants).setPermission params grant).1 := by
  rw [afterGrants, List.foldl_append]
  rfl

theorem voted (consistent : Consistent s blocks top) (ratios : RatiosInRange params)
    (isType : key.type ∈ grantableTypes) (further : FurtherVotes params s key range grants)
    (undecided : ∀ first rest, grants = first ++ rest → first ≠ [] →
      ¬ Reaches params s key range first) :
    Voted s (s.afterGrants params grants) blocks top key grants := by
  induction grants using List.reverseRecOn with
  | nil => exact ⟨consistent, rfl, rfl, rfl, fun _ _ => rfl⟩
  | append_singleton grants grant ih =>
      have before := ih further.of_append fun first rest split some =>
        undecided first (rest ++ [grant]) (by rw [split, List.append_assoc]) some
      have keyEq := further.key_eq grant (by simp)
      have rangeEq := further.range_eq grant (by simp)
      have admin := before.canAdmin (further.admins grant (by simp))
      have grantType : grant.type ∈ grantableTypes := by
        rw [← keyEq] at isType
        exact isType
      obtain ⟨next, -, kept⟩ := before.consistent.setPermission_admin ratios grantType
        (further.update grant (by simp)) admin
      rw [keyEq, rangeEq, before.reaches_iff] at kept
      obtain ⟨block, adminCount, pending, ranges⟩ :=
        kept (undecided _ [] (List.append_nil _).symm (by simp))
      rw [afterGrants_concat]
      refine ⟨next, block.trans before.block, adminCount.trans before.adminCount, ?_, ?_⟩
      · rw [pending, before.pending, List.map_append, List.reverse_append]
        rfl
      · intro other otherType
        rw [ranges other otherType, before.ranges other otherType]

theorem reportedRange_iff (consistent : Consistent s blocks top) (ratios : RatiosInRange params)
    (isType : key.type ∈ grantableTypes) {grant : Grant}
    (further : FurtherVotes params s key range (grants ++ [grant]))
    (undecided : ∀ first rest, grants = first ++ rest → first ≠ [] →
      ¬ Reaches params s key range first) :
    (s.afterGrants params (grants ++ [grant])).reportedRange key = range ↔
      s.reportedRange key = range ∨ Reaches params s key range (grants ++ [grant]) := by
  have before := further.of_append.voted consistent ratios isType undecided
  have keyEq := further.key_eq grant (by simp)
  have rangeEq := further.range_eq grant (by simp)
  have admin := before.canAdmin (further.admins grant (by simp))
  have grantType : grant.type ∈ grantableTypes := by
    rw [← keyEq] at isType
    exact isType
  obtain ⟨-, decided, kept⟩ := before.consistent.setPermission_admin ratios grantType
    (further.update grant (by simp)) admin
  rw [keyEq, rangeEq, before.reaches_iff] at decided kept
  rw [afterGrants_concat]
  by_cases reaches : Reaches params s key range (grants ++ [grant])
  · exact iff_of_true (decided reaches) (.inr reaches)
  · obtain ⟨-, -, -, ranges⟩ := kept reaches
    rw [ranges key isType, before.ranges key isType, or_iff_left reaches]

/-- Further votes add to the pending ones. -/
theorem tally_eq (further : FurtherVotes params s key range grants) :
    tally ((grants.map grantBallot).reverse ++ (s.pendingVotes key).map ballot) range =
      grants.length + tally ((s.pendingVotes key).map ballot) range := by
  have ofGrant : ∀ vote ∈ (grants.map grantBallot).reverse,
      ∃ grant ∈ grants, grantBallot grant = vote := by
    intro vote member
    rw [List.mem_reverse, List.mem_map] at member
    exact member
  rw [tally_append_of_fresh, List.length_reverse, List.length_map]
  · rw [List.map_reverse, List.nodup_reverse, List.map_map]
    exact further.distinct
  · intro vote member other inPending sameVoter
    obtain ⟨grant, inGrants, rfl⟩ := ofGrant vote member
    obtain ⟨row, inRows, rfl⟩ := List.mem_map.mp inPending
    exact further.latest grant inGrants row inRows sameVoter
  · intro vote member
    obtain ⟨grant, inGrants, rfl⟩ := ofGrant vote member
    exact further.fresh grant inGrants
  · intro vote member
    obtain ⟨grant, inGrants, rfl⟩ := ofGrant vote member
    exact further.range_eq grant inGrants

end FurtherVotes

/-- A number of further votes is the least one after which the range is in effect. -/
def LeastVotes (params : NetworkParams) (s : Permissions) (key : Key) (range : Int × Int)
    (votes : Nat) : Prop :=
  ∀ grants, FurtherVotes params s key range grants → grants.length ≤ votes →
    ((s.afterGrants params grants).reportedRange key = range ↔ grants.length = votes)

theorem furtherVotes_nil : FurtherVotes params s key range [] := by
  constructor <;> simp

theorem leastVotes_zero_iff : LeastVotes params s key range 0 ↔ s.reportedRange key = range := by
  constructor
  · intro least
    exact (least [] furtherVotes_nil le_rfl).mpr rfl
  · intro reported grants further none
    obtain rfl : grants = [] := List.length_eq_zero_iff.mp (Nat.le_zero.mp none)
    exact iff_of_true reported rfl

/-- A positive number of votes is the least one if the range is not in effect, and further votes
reach the consensus when there are as many. -/
theorem leastVotes_iff (consistent : Consistent s blocks top) (ratios : RatiosInRange params)
    (isType : key.type ∈ grantableTypes) {votes : Nat} (some : 0 < votes) :
    LeastVotes params s key range votes ↔
      s.reportedRange key ≠ range ∧
        ∀ grants, FurtherVotes params s key range grants → grants ≠ [] → grants.length ≤ votes →
          (Reaches params s key range grants ↔ grants.length = votes) := by
  constructor
  · intro least
    have unreported : s.reportedRange key ≠ range := by
      intro reported
      have none := (least [] furtherVotes_nil (Nat.zero_le _)).mp reported
      exact some.ne none
    refine ⟨unreported, ?_⟩
    intro grants
    induction length : grants.length using Nat.strong_induction_on generalizing grants with
    | _ count ih =>
        intro further nonempty few
        obtain ⟨init, last, rfl⟩ : ∃ init last, grants = init ++ [last] :=
          ⟨_, _, (List.dropLast_append_getLast nonempty).symm⟩
        have undecided : ∀ first rest, init = first ++ rest → first ≠ [] →
            ¬ Reaches params s key range first := by
          rintro first rest rfl someFirst reaches
          have shorter : first.length < count := by
            rw [← length]
            simp
          rw [List.append_assoc] at further
          have all := (ih first.length shorter first rfl further.of_append someFirst
            (by omega)).mp reaches
          omega
        have decided := further.reportedRange_iff consistent ratios isType undecided
        rw [or_iff_right unreported] at decided
        rw [← decided, ← length]
        exact least _ further (by omega)
  · rintro ⟨unreported, exactly⟩ grants further few
    rcases List.eq_nil_or_concat' grants with rfl | ⟨init, last, rfl⟩
    · exact iff_of_false unreported some.ne
    · have undecided : ∀ first rest, init = first ++ rest → first ≠ [] →
          ¬ Reaches params s key range first := by
        rintro first rest rfl someFirst reaches
        rw [List.length_append, List.length_append] at few
        rw [List.append_assoc] at further
        have all := (exactly first further.of_append someFirst (by omega)).mp reaches
        simp only [List.length_singleton] at few
        omega
      rw [further.reportedRange_iff consistent ratios isType undecided, or_iff_right unreported]
      exact exactly _ further (by simp) few

end ManyGrants

/-- Votes without consensus were received above the genesis block. -/
def VotesAboveGenesis (log : List LedgerRow) : Prop :=
  ∀ row ∈ log, row.key.type ∈ grantableTypes → row.consensus = 0 → 0 < row.blockReceived

section AboveGenesis

variable {params : NetworkParams} {s : Permissions}

theorem setup_le_of_several {entity : Entity} {type : Nat}
    (several : 1 < adminConsensus params s entity type) :
    params.setupFirstBlocks ≤ s.block + 1 := by
  by_contra during
  have setup : isSetupPeriod params s = true := decide_eq_true (not_le.mp during)
  unfold adminConsensus at several
  simp only [setup, if_true] at several
  cases entity <;> simp at several

theorem several_of_noConsensus {newRow lastRow row : LedgerRow} {remaining : Nat}
    (verified : verifyConsensus params s false newRow lastRow = .ok (row, remaining))
    (noConsensus : row.consensus = 0) :
    1 < adminConsensus params s newRow.key.entity newRow.key.type := by
  by_contra single
  unfold verifyConsensus at verified
  dsimp only at verified
  rw [if_pos (not_lt.mp single)] at verified
  cases verified
  exact (adminConsensus_pos params s _ _).ne' noConsensus

theorem votesAboveGenesis_setPermissionType (setup : 1 ≤ params.setupFirstBlocks) (grant : Grant)
    (type : Nat) (above : VotesAboveGenesis s.fullLog) :
    VotesAboveGenesis (s.setPermissionType params grant type).1.fullLog := by
  unfold setPermissionType
  dsimp only
  cases verified : verifyConsensus params s false (s.newLedgerRow grant type
      (s.getPermissionRow ⟨grant.entity, .account grant.address, type⟩ true))
      (s.getPermissionRow ⟨grant.entity, .account grant.address, type⟩ true) with
  | error err => exact above
  | ok outcome =>
      obtain ⟨row, remaining⟩ := outcome
      cases grant.updateMempool with
      | false => exact above
      | true =>
          dsimp only
          rw [if_pos rfl, (sameStore_adjustCounts _ _ _ _).fullLog, fullLog_appendRow,
            (sameStore_saveClearedCounts s).fullLog]
          intro other member isType noConsensus
          rcases List.mem_cons.mp member with rfl | older
          · have received := (verifyConsensus_decided verified).blockReceived
            have several := several_of_noConsensus verified noConsensus
            have behindSetup := setup_le_of_several several
            change _ = s.block + 1 at received
            omega
          · exact above other older isType noConsensus

theorem votesAboveGenesis_invariant (setup : 1 ≤ params.setupFirstBlocks) :
    LogInvariant params (fun _ _ => True) VotesAboveGenesis where
  empty := by
    intro row member
    cases member
  older := fun above row member => above row (List.mem_append_right _ member)
  blockRow := by
    intro log row above _ isBlockRow other member isType noConsensus
    rcases List.mem_cons.mp member with rfl | older
    · rcases isBlockRow with isMiner | isIndex
      · rw [isMiner] at isType
        exact absurd isType (by decide)
      · rw [isIndex] at isType
        exact absurd isType (by decide)
    · exact above other older isType noConsensus
  setPermission := fun _ _ above =>
    setPermission_induction (motive := fun s => VotesAboveGenesis s.fullLog)
      (fun _ type _ above => votesAboveGenesis_setPermissionType setup _ type above) above
  setApproval := fun _ above =>
    setApproval_induction (motive := fun s => VotesAboveGenesis s.fullLog)
      (fun _ grant type _ above => votesAboveGenesis_setPermissionType setup grant type above) above

end AboveGenesis

/-- The vote that stands in for the row that is asked about, of the zero address. -/
def askedBallot (range : Int × Int) (now : Nat) : Ballot Address (Int × Int) := ⟨0, now, range⟩

/-- When the number of votes that `RequiredForConsensus` returns is the least one. -/
def CountsEveryVote (params : NetworkParams) (s : Permissions) (entity : Entity)
    (address : Address) (type : Nat) (range : Int × Int) (now : Nat) : Prop :=
  let key : Key := ⟨entity, .account address, type⟩
  let consensus := adminConsensus params s entity type
  let counted := askedBallot range now :: (s.pendingVotes key).map ballot
  if entity ≠ .null then
    s.reportedRange key ≠ range ∧
      ∀ grant, FurtherVotes params s key range [grant] → Reaches params s key range [grant]
  else if type = mcPtpUpgrade then True
  else if s.newestRow key = none then range ≠ (0, 0)
  else
    s.reportedRange key = range ∨
      1 < consensus ∧ ¬ ReachedByPrefix counted range (consensus + 1) ∧
        ∀ grants, FurtherVotes params s key range grants → grants ≠ [] →
          Reaches params s key range grants →
            consensus + 1 ≤ grants.length + tally counted range

section Required

variable {params : NetworkParams} {s : Permissions} {blocks : List (Address × Hash)} {top : Int}
  {address : Address} {type : Nat} {range : Int × Int} {now : Nat}

theorem mem_requiredTypes (isType : type ∈ grantableTypes) (notUpgrade : type ≠ mcPtpUpgrade) :
    type ∈ requiredTypes := by
  have all : ∀ type ∈ grantableTypes, type ≠ mcPtpUpgrade → type ∈ requiredTypes := by decide
  exact all type isType notUpgrade

namespace Consistent

/-- A query reports no row exactly where a key has none. -/
theorem thisRow_eq_zero_iff (consistent : Consistent s blocks top) {key : Key}
    (isType : key.type ∈ grantableTypes) :
    (s.getPermissionRow key true).thisRow = 0 ↔ s.newestRow key = none := by
  rw [consistent.thisRow_getPermissionRow (grantKey_ne_zeroKey isType) (grantKey_notIndex isType),
    newest_eq_thisRow consistent.linked (grantKey_notIndex isType), consistent.newestRow_eq]
  cases newest : newestOf s.fullLog key with
  | none => exact iff_of_true rfl rfl
  | some row =>
      have positive : 0 < row.thisRow :=
        consistent.linked.thisRow_pos (List.mem_of_find?_eq_some newest)
      exact iff_of_false positive.ne' (Option.some_ne_none row)

theorem required_of_none (consistent : Consistent s blocks top)
    (isType : type ∈ grantableTypes) (notUpgrade : type ≠ mcPtpUpgrade)
    (noRow : s.newestRow ⟨.null, .account address, type⟩ = none) :
    requiredForConsensus params s .null address type range now =
      adminConsensus params s .null type := by
  have isKeyType : (Key.mk .null (.account address) type).type ∈ grantableTypes := isType
  have none := (consistent.thisRow_eq_zero_iff isKeyType).mpr noRow
  unfold requiredForConsensus
  rw [if_neg (not_not.mpr rfl)]
  dsimp only
  rw [if_pos (mem_requiredTypes isType notUpgrade), if_neg (not_not.mpr none)]

theorem required_of_reported (consistent : Consistent s blocks top)
    (isType : type ∈ grantableTypes) (notUpgrade : type ≠ mcPtpUpgrade)
    (found : s.newestRow ⟨.null, .account address, type⟩ ≠ none)
    (reported : s.reportedRange ⟨.null, .account address, type⟩ = range) :
    requiredForConsensus params s .null address type range now = 0 := by
  have isKeyType : (Key.mk .null (.account address) type).type ∈ grantableTypes := isType
  have some := (consistent.thisRow_eq_zero_iff isKeyType).not.mpr found
  unfold requiredForConsensus
  rw [if_neg (not_not.mpr rfl)]
  dsimp only
  rw [if_pos (mem_requiredTypes isType notUpgrade), if_pos some,
    if_pos (Prod.mk.inj reported)]

theorem required_of_unreported (consistent : Consistent s blocks top)
    (above : VotesAboveGenesis s.fullLog)
    (isType : type ∈ grantableTypes) (notUpgrade : type ≠ mcPtpUpgrade)
    (found : s.newestRow ⟨.null, .account address, type⟩ ≠ none)
    (unreported : s.reportedRange ⟨.null, .account address, type⟩ ≠ range) :
    let counted := askedBallot range now ::
      (s.pendingVotes ⟨.null, .account address, type⟩).map ballot
    (adminConsensus params s .null type ≤ 1 →
      requiredForConsensus params s .null address type range now = 0) ∧
    (1 < adminConsensus params s .null type →
      (ReachedByPrefix counted range (adminConsensus params s .null type + 1) →
        requiredForConsensus params s .null address type range now = 0) ∧
      (¬ ReachedByPrefix counted range (adminConsensus params s .null type + 1) →
        ∃ remaining : Nat,
          requiredForConsensus params s .null address type range now = remaining ∧
          remaining + tally counted range = adminConsensus params s .null type + 1)) := by
  intro counted
  have isKeyType : (Key.mk .null (.account address) type).type ∈ grantableTypes := isType
  have some := (consistent.thisRow_eq_zero_iff isKeyType).not.mpr found
  have differs : ¬ ((s.getPermissionRow ⟨.null, .account address, type⟩ true).blockFrom = range.1 ∧
      (s.getPermissionRow ⟨.null, .account address, type⟩ true).blockTo = range.2) := by
    rintro ⟨fromEq, toEq⟩
    exact unreported (Prod.ext fromEq toEq)
  let last := s.getPermissionRow ⟨.null, .account address, type⟩ true
  let row := s.askedRow ⟨.null, .account address, type⟩ range now last
  have value : ∀ after remaining, verifyConsensus params s true row last = .ok (after, remaining) →
      requiredForConsensus params s .null address type range now = remaining := by
    intro after remaining verified
    unfold requiredForConsensus
    rw [if_neg (not_not.mpr rfl)]
    dsimp only
    rw [if_pos (mem_requiredTypes isType notUpgrade), if_pos some, if_neg differs,
      show verifyConsensus params s true (s.askedRow _ _ _ _) _ = _ from verified]
  have notZero := grantKey_ne_zeroKey isKeyType
  have notIndex := grantKey_notIndex isKeyType
  have chain := consistent.pendingChain notZero notIndex
  have aboveGenesis : ∀ other ∈ s.pendingVotes ⟨.null, .account address, type⟩,
      0 < other.blockReceived := by
    intro other member
    rw [consistent.pendingVotes_eq notIndex] at member
    have noConsensus := List.mem_takeWhile_imp member
    have ofKey := List.mem_filter.mp ((List.takeWhile_sublist _).subset member)
    have otherKey : other.key = ⟨.null, .account address, type⟩ := by simpa using ofKey.2
    exact above other ofKey.1 (by rw [otherKey]; exact isType) (by simpa using noConsensus)
  constructor
  · intro single
    have verified : verifyConsensus params s true row last =
        .ok ({ row with consensus := adminConsensus params s .null type }, 0) := by
      unfold verifyConsensus
      exact if_pos single
    exact value _ _ verified
  · intro several
    have scanned : verifyConsensus params s true row last =
        scanVotes s true { row with consensus := adminConsensus params s .null type } last
          (s.row + 1) ⟨adminConsensus params s .null type, RowBuffer.initializeBuffer .zero true⟩
          { row with consensus := adminConsensus params s .null type } := by
      unfold verifyConsensus
      exact if_neg (not_le.mpr several)
    obtain ⟨ofReached, ofUnreached⟩ := @scanVotes_asked s last
      { row with consensus := adminConsensus params s .null type } _ _ chain
      (consistent.thisRow_lt_row isKeyType) some rfl aboveGenesis several
    constructor
    · intro reached
      obtain ⟨after, verified⟩ := ofReached reached
      exact value after 0 (scanned.trans verified)
    · intro unreached
      obtain ⟨after, remaining, verified, missing⟩ := ofUnreached unreached
      exact ⟨remaining, value after remaining (scanned.trans verified), missing⟩

/-- Where a key has no row, the number of votes for a range other than the empty one is the
consensus. -/
theorem leastVotes_of_none (consistent : Consistent s blocks top) (ratios : RatiosInRange params)
    {key : Key} (isType : key.type ∈ grantableTypes) (noRow : s.newestRow key = none) :
    LeastVotes params s key range (adminConsensus params s key.entity key.type) ↔
      range ≠ (0, 0) := by
  rw [consistent.newestRow_eq] at noRow
  have noVotes : s.pendingVotes key = [] := by
    have noneOfKey : s.fullLog.filter (fun row => row.key = key) = [] := by
      rw [List.filter_eq_nil_iff]
      intro row member
      simpa using newestOf_eq_none.mp noRow row member
    rw [consistent.pendingVotes_eq (grantKey_notIndex isType), noneOfKey]
    rfl
  have empty : s.reportedRange key = (0, 0) := by
    rw [consistent.reportedRange_eq isType, noRow]
    rfl
  rw [leastVotes_iff consistent ratios isType (adminConsensus_pos ..), empty, ne_comm,
    and_iff_left_iff_imp]
  intro _ grants further _ few
  have tallyEq := further.tally_eq
  unfold Reaches
  rw [noVotes, List.map_nil, tally_nil, Nat.add_zero] at tallyEq
  rw [noVotes, List.map_nil]
  constructor
  · rintro ⟨length, reached⟩
    have bound := tally_le_length
      (((grants.map grantBallot).reverse ++ []).take length) range
    rw [List.length_take, List.append_nil, List.length_reverse, List.length_map] at bound
    rw [List.append_nil] at reached
    omega
  · intro all
    exact reachedByPrefix_of_le_tally (tallyEq.trans all).ge

/-- The votes that the loop misses are the least number exactly when no leading votes reach the
consensus with fewer. -/
theorem leastVotes_of_missing (consistent : Consistent s blocks top)
    (ratios : RatiosInRange params) {key : Key} (isType : key.type ∈ grantableTypes)
    {counted : List (Ballot Address (Int × Int))} {remaining : Nat}
    (isCounted : counted = askedBallot range now :: (s.pendingVotes key).map ballot)
    (unreached : ¬ ReachedByPrefix counted range
      (adminConsensus params s key.entity key.type + 1))
    (missing : remaining + tally counted range =
      adminConsensus params s key.entity key.type + 1)
    (unreported : s.reportedRange key ≠ range) :
    LeastVotes params s key range remaining ↔
      ∀ grants, FurtherVotes params s key range grants → grants ≠ [] →
        Reaches params s key range grants →
          adminConsensus params s key.entity key.type + 1 ≤
            grants.length + tally counted range := by
  have short : ¬ adminConsensus params s key.entity key.type + 1 ≤ tally counted range :=
    fun enough => unreached (reachedByPrefix_of_le_tally enough)
  have asked : tally counted range ≤ tally ((s.pendingVotes key).map ballot) range + 1 := by
    rw [isCounted]
    exact tally_cons_le _ _ _
  rw [leastVotes_iff consistent ratios isType (by omega), and_iff_right unreported]
  constructor
  · intro exactly grants further some reaches
    by_cases few : grants.length ≤ remaining
    · have all := (exactly grants further some few).mp reaches
      omega
    · omega
  · intro noneEarly grants further some few
    constructor
    · intro reaches
      have enough := noneEarly grants further some reaches
      omega
    · intro all
      apply reachedByPrefix_of_le_tally
      rw [further.tally_eq]
      omega

end Consistent

end Required

end Permissions

namespace PermissionRun

open Permissions

/-- In every run, the number of votes that `RequiredForConsensus` returns is the least number of
further votes after which the range is in effect, exactly when it counts every vote. -/
theorem requiredForConsensus_least_iff (params : NetworkParams) (ratios : RatiosInRange params)
    (setup : 1 ≤ params.setupFirstBlocks) (calls : List StoreCall)
    (follows : start.FollowsStore params calls) (entity : Entity) (address : Address) {type : Nat}
    (isType : type ∈ grantableTypes) (range : Int × Int) (now : Nat) :
    let s := (start.afterStore params calls).store
    (∀ votes : Nat, requiredForConsensus params s entity address type range now = votes →
      LeastVotes params s ⟨entity, .account address, type⟩ range votes) ↔
      CountsEveryVote params s entity address type range now := by
  intro s
  have based := based_start.afterStore follows
  have consistent := based.sound.consistent
  have invariant := votesAboveGenesis_invariant setup
  have above : VotesAboveGenesis s.fullLog :=
    ((LogHolds.start invariant).afterStore invariant based_start follows
      (makesCalls_of_forall params (fun _ _ _ => trivial) start)).log
  have leastOf : ∀ {votes : Nat},
      requiredForConsensus params s entity address type range now = votes →
      ((∀ other : Nat, requiredForConsensus params s entity address type range now = other →
        LeastVotes params s ⟨entity, .account address, type⟩ range other) ↔
        LeastVotes params s ⟨entity, .account address, type⟩ range votes) := by
    intro votes value
    rw [value]
    exact ⟨fun least => least votes rfl, fun least other same => by
      rw [← Int.ofNat_inj.mp same]
      exact least⟩
  unfold CountsEveryVote
  dsimp only
  by_cases isNull : entity = .null
  · subst isNull
    rw [if_neg (not_not.mpr rfl)]
    by_cases isUpgrade : type = mcPtpUpgrade
    · rw [if_pos isUpgrade]
      apply iff_of_true _ trivial
      intro votes value
      rw [requiredForConsensus, if_neg (not_not.mpr rfl)] at value
      dsimp only at value
      rw [if_neg (by rw [isUpgrade]; decide)] at value
      omega
    · rw [if_neg isUpgrade]
      by_cases noRow : s.newestRow ⟨.null, .account address, type⟩ = none
      · rw [if_pos noRow, leastOf (consistent.required_of_none isType isUpgrade noRow)]
        exact consistent.leastVotes_of_none ratios isType noRow
      · rw [if_neg noRow]
        by_cases reported : s.reportedRange ⟨.null, .account address, type⟩ = range
        · have value : requiredForConsensus params s .null address type range now = (0 : Nat) :=
            consistent.required_of_reported isType isUpgrade noRow reported
          rw [leastOf value, leastVotes_zero_iff]
          exact iff_of_true reported (.inl reported)
        · obtain ⟨ofSingle, ofSeveral⟩ := @Consistent.required_of_unreported params s _ _ address
            type range now consistent above isType isUpgrade noRow reported
          have zero : requiredForConsensus params s .null address type range now = 0 →
              ¬ ∀ votes : Nat, requiredForConsensus params s .null address type range now = votes →
                LeastVotes params s ⟨.null, .account address, type⟩ range votes := by
            intro value least
            exact reported (leastVotes_zero_iff.mp (least 0 value))
          rw [or_iff_right reported]
          by_cases several : 1 < adminConsensus params s .null type
          · obtain ⟨ofReached, ofUnreached⟩ := ofSeveral several
            by_cases reached : ReachedByPrefix (askedBallot range now ::
                (s.pendingVotes ⟨.null, .account address, type⟩).map ballot) range
                (adminConsensus params s .null type + 1)
            · exact iff_of_false (zero (ofReached reached)) fun counts => counts.2.1 reached
            · obtain ⟨remaining, value, missing⟩ := ofUnreached reached
              rw [leastOf value, and_iff_right several, and_iff_right reached]
              exact consistent.leastVotes_of_missing ratios isType rfl reached missing reported
          · exact iff_of_false (zero (ofSingle (not_lt.mp several))) fun counts =>
              several counts.1
  · have value : requiredForConsensus params s entity address type range now = (1 : Nat) :=
      if_pos isNull
    have isKeyType : (Key.mk entity (.account address) type).type ∈ grantableTypes := isType
    rw [if_pos isNull, leastOf value, leastVotes_iff consistent ratios isKeyType Nat.one_pos]
    apply and_congr_right
    intro _
    constructor
    · intro exactly grant further
      exact (exactly [grant] further (List.cons_ne_nil _ _) le_rfl).mpr rfl
    · intro oneIsEnough grants further some few
      obtain ⟨grant, rfl⟩ : ∃ grant, grants = [grant] := by
        apply List.length_eq_one_iff.mp
        have := List.length_pos_of_ne_nil some
        omega
      exact iff_of_true (oneIsEnough grant further) rfl

/-- The parameters of a chain with one setup block, where all admins have to agree. -/
def oneSetupBlock : NetworkParams := { allAdmins with setupFirstBlocks := 1 }

/-- Address 7 becomes the only admin, and lets address 9 connect. -/
def connectedOnce : List StoreCall :=
  [.call (.setPermission
      { entity := .null
        address := 7
        type := mcPtpAdmin
        admin := 7
        blockFrom := 0
        blockTo := 1000
        timestamp := 1
        flags := 0
        updateMempool := true
        offset := 0 }),
    .call (.commit 7 1),
    .call (.setPermission
      { entity := .null
        address := 9
        type := mcPtpConnect
        admin := 7
        blockFrom := 0
        blockTo := 1000
        timestamp := 2
        flags := 0
        updateMempool := true
        offset := 0 })]

theorem requiredForConsensus_least_iff_connectedOnce :
    let s := (start.afterStore oneSetupBlock connectedOnce).store
    (∀ votes : Nat,
      requiredForConsensus oneSetupBlock s .null 9 mcPtpConnect (0, 1000) 3 = votes →
      LeastVotes oneSetupBlock s ⟨.null, .account 9, mcPtpConnect⟩ (0, 1000) votes) ↔
      CountsEveryVote oneSetupBlock s .null 9 mcPtpConnect (0, 1000) 3 :=
  requiredForConsensus_least_iff oneSetupBlock (by constructor <;> decide) (by decide)
    connectedOnce ⟨trivial, trivial, trivial, trivial⟩ .null 9 (by decide) (0, 1000) 3

/-- To take the permission away again, no vote is required, although it is in effect. -/
theorem requiredForConsensus_not_least :
    let s := (start.afterStore oneSetupBlock connectedOnce).store
    requiredForConsensus oneSetupBlock s .null 9 mcPtpConnect (0, 0) 3 = 0 ∧
      ¬ LeastVotes oneSetupBlock s ⟨.null, .account 9, mcPtpConnect⟩ (0, 0) 0 := by
  intro s
  refine ⟨by decide +kernel, ?_⟩
  rw [leastVotes_zero_iff]
  decide +kernel

end PermissionRun

end HdacNode
