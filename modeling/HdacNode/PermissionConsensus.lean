import HdacNode.NewestVoteTally
import HdacNode.PermissionQueries

/-!
# The consensus of admins on a permission row

A new row of a key takes effect once enough admins have voted for the same
range.  `VerifyConsensus` walks the pending rows of the key from the new row
back, keeps the newest vote of every admin in a buffer, and stops as soon as
the required number of votes is found.  The rows it has not read by then may
still hold newer votes of the admins it has counted.
-/

namespace HdacNode

open NewestVote

namespace Permissions

section Threshold

variable (params : NetworkParams)

/-- The share of the admins a parameter asks for, in 32-bit arithmetic. -/
def consensusShare (s : Permissions) (consensus : Nat) : Nat :=
  if consensus = 0 then 1
  else
    (toUInt32 (getAdminCount params s) * consensus + (2 ^ 32 - 1)) % 2 ^ 32 /
      mcPrmDecimalGranularity + 1

/-- `AdminConsensus`. -/
def adminConsensus (s : Permissions) (entity : Entity) (type : Nat) : Nat :=
  if getAdminCount params s = 0 then 1
  else
    match entity with
    | .null =>
        if type = mcPtpAdmin ∨ type = mcPtpMine ∨ type = mcPtpActivate ∨
            type = mcPtpIssue ∨ type = mcPtpCreate then
          if isSetupPeriod params s then 1
          else consensusShare params s
            (if type = mcPtpAdmin then params.adminConsensusAdmin
            else if type = mcPtpMine then params.adminConsensusMine
            else if type = mcPtpActivate then params.adminConsensusActivate
            else if type = mcPtpIssue then params.adminConsensusIssue
            else params.adminConsensusCreate)
        else 1
    | .upgrade =>
        if type = mcPtpUpgrade then
          if isSetupPeriod params s then 1
          else consensusShare params s params.adminConsensusUpgrade
        else 1
    | .genesis _ => 1

end Threshold

/-- Whether a row votes for the range of the new row. -/
def sameGrant (row newRow : LedgerRow) : Bool :=
  row.grantFrom = newRow.grantFrom ∧ row.grantTo = newRow.grantTo

/-- What the loop of `VerifyConsensus` keeps between its rounds. -/
structure VoteScan where
  required : Nat
  tmpPool : RowBuffer Key LedgerRow

/-- The copy of a row that the buffer keeps: its address field holds the admin,
so that the buffer is keyed by admin. -/
def asVote (row : LedgerRow) : LedgerRow :=
  { row with key.address := .account row.admin }

/-- The votes still missing after a row that counts as its admin's newest. -/
def missingAfter (withRemaining : Bool) (newRow row : LedgerRow) (required : Nat) : Nat :=
  if sameGrant row newRow ∧ (¬ withRemaining ∨ 0 < row.blockReceived) then required - 1
  else required

/-- The counting part of one round of the loop. -/
def countVote (withRemaining : Bool) (newRow pldRow : LedgerRow) (scan : VoteScan) :
    VoteScan :=
  match scan.tmpPool.seek LedgerRow.key (asVote pldRow).key with
  | some found =>
      let old := scan.tmpPool.getRow found
      if old.timestamp < pldRow.timestamp then
        -- the vote that is replaced was counted, so it is given back first
        { required := missingAfter withRemaining newRow pldRow
            (if sameGrant old newRow then scan.required + 1 else scan.required)
          tmpPool := scan.tmpPool.putRow LedgerRow.key found (asVote pldRow) }
      else scan
  | none =>
      { required := missingAfter withRemaining newRow pldRow scan.required
        tmpPool := scan.tmpPool.add LedgerRow.key (asVote pldRow) }

/-- The reading part of one round: a memory pool row is taken as it is, a
ledger row is checked. -/
def readPrevRow (s : Permissions) (newRow : LedgerRow) (prevRow : Nat) :
    Except McError LedgerRow :=
  let countLedgerRows := s.row - s.memPool.count
  if countLedgerRows ≤ prevRow then .ok (s.memPool.getRow (prevRow - countLedgerRows))
  else
    match s.ledger.getRow prevRow with
    | none => .error .dbOpenError
    | some row =>
        if row.key ≠ newRow.key then .error .dbOpenError
        else if prevRow ≠ row.thisRow then .error .dbOpenError
        else .ok row

/-- The new row without consensus: the last range stays in effect. -/
def outvoted (newRow lastRow : LedgerRow) : LedgerRow :=
  { newRow with
    consensus := 0
    blockFrom := lastRow.blockFrom
    blockTo := lastRow.blockTo }

/-- The loop of `VerifyConsensus`. -/
def scanVotes (s : Permissions) (withRemaining : Bool) (newRow lastRow : LedgerRow) :
    Nat → VoteScan → LedgerRow → Except McError (LedgerRow × Nat)
  | 0, _, _ => .error .noReturn
  | fuel + 1, scan, pldRow =>
      let scan := countVote withRemaining newRow pldRow scan
      if scan.required = 0 then .ok (newRow, 0)
      else if pldRow.prevRow = 0 then .ok (outvoted newRow lastRow, scan.required)
      else
        match s.readPrevRow newRow pldRow.prevRow with
        | .error err => .error err
        | .ok prevRow =>
            if 0 < prevRow.consensus then .ok (outvoted newRow lastRow, scan.required)
            else scanVotes s withRemaining newRow lastRow fuel scan prevRow

/-- `VerifyConsensus`: the new row as it is stored, and the number of votes
that are still missing. -/
def verifyConsensus (params : NetworkParams) (s : Permissions) (withRemaining : Bool)
    (newRow lastRow : LedgerRow) : Except McError (LedgerRow × Nat) :=
  let consensus := adminConsensus params s newRow.key.entity newRow.key.type
  let newRow := { newRow with consensus := consensus }
  if consensus ≤ 1 then .ok (newRow, 0)
  else
    scanVotes s withRemaining newRow lastRow (s.row + 1)
      ⟨consensus, RowBuffer.initializeBuffer .zero true⟩ newRow

private theorem consensusShare_pos (params : NetworkParams) (s : Permissions)
    (consensus : Nat) : 0 < consensusShare params s consensus := by
  unfold consensusShare
  split
  · exact Nat.one_pos
  · exact Nat.succ_pos _

theorem adminConsensus_pos (params : NetworkParams) (s : Permissions) (entity : Entity)
    (type : Nat) : 0 < adminConsensus params s entity type := by
  unfold adminConsensus
  split
  · exact Nat.one_pos
  · cases entity with
    | null =>
        dsimp only
        split
        · split
          · exact Nat.one_pos
          · exact consensusShare_pos ..
        · exact Nat.one_pos
    | upgrade =>
        dsimp only
        split
        · split
          · exact Nat.one_pos
          · exact consensusShare_pos ..
        · exact Nat.one_pos
    | genesis txid => exact Nat.one_pos

/-- The vote a row casts. -/
def ballot (row : LedgerRow) : Ballot Address (Int × Int) :=
  ⟨row.admin, row.timestamp, (row.grantFrom, row.grantTo)⟩

/-- A row is stored at a position, in the memory pool or in the ledger. -/
def StoredAt (s : Permissions) (position : Nat) (row : LedgerRow) : Prop :=
  row.thisRow = position ∧
    if s.row - s.memPool.count ≤ position then
      s.memPool.rows[position - (s.row - s.memPool.count)]? = some row
    else s.ledger.getRow position = some row

/-- The pending rows of a key from a position back, newest first, up to the
last row that had consensus. -/
inductive PendingChain (s : Permissions) (key : Key) : Nat → List LedgerRow → Prop
  | first : PendingChain s key 0 []
  | decided {position : Nat} {row : LedgerRow} (behind : 0 < position)
      (stored : StoredAt s position row) (sameKey : row.key = key)
      (consensus : 0 < row.consensus) : PendingChain s key position []
  | pending {position : Nat} {row : LedgerRow} {rows : List LedgerRow}
      (behind : row.prevRow < position) (stored : StoredAt s position row)
      (sameKey : row.key = key) (noConsensus : row.consensus = 0)
      (older : PendingChain s key row.prevRow rows) :
      PendingChain s key position (row :: rows)

theorem PendingChain.length_le {s : Permissions} {key : Key} {position : Nat}
    {rows : List LedgerRow} (chain : PendingChain s key position rows) :
    rows.length ≤ position := by
  induction chain with
  | first => simp
  | decided => simp
  | pending behind _ _ _ _ ih =>
      simp only [List.length_cons]
      omega

theorem readPrevRow_of_storedAt {s : Permissions} {newRow row : LedgerRow}
    {position : Nat} (stored : StoredAt s position row) (sameKey : row.key = newRow.key) :
    s.readPrevRow newRow position = .ok row := by
  obtain ⟨thisRow, place⟩ := stored
  unfold readPrevRow
  dsimp only
  split at place
  · rename_i inMemPool
    have live : position - (s.row - s.memPool.count) < s.memPool.rows.length :=
      (List.getElem?_eq_some_iff.1 place).1
    rw [if_pos inMemPool, RowBuffer.getRow_eq_rows_getElem _ live,
      (List.getElem?_eq_some_iff.1 place).2]
  · rename_i inLedger
    rw [if_neg inLedger, place]
    simp [sameKey, thisRow]

/-- The grant range a row votes for. -/
def grantRange (row : LedgerRow) : Int × Int := (row.grantFrom, row.grantTo)

theorem sameGrant_iff (row newRow : LedgerRow) :
    sameGrant row newRow = true ↔ (ballot row).choice = grantRange newRow := by
  simp [sameGrant, ballot, grantRange]

/-- The key of an admin in the buffer of the scan. -/
def adminKey (newRow : LedgerRow) (admin : Address) : Key :=
  ⟨newRow.key.entity, .account admin, newRow.key.type⟩

/-- The scan has counted the rows seen so far: the buffer holds the newest vote
of every admin, and the missing votes make up the consensus. -/
structure Scanned (newRow : LedgerRow) (consensus : Nat) (seen : List LedgerRow)
    (scan : VoteScan) : Prop where
  coherent : RowBuffer.Coherent LedgerRow.key scan.tmpPool
  newest_eq : ∀ admin,
    (scan.tmpPool.lookup LedgerRow.key (adminKey newRow admin)).map ballot =
      newest (seen.map ballot) admin
  count_eq : scan.required + tally (seen.map ballot) (grantRange newRow) = consensus

private theorem asVote_key {newRow row : LedgerRow} (sameKey : row.key = newRow.key) :
    (asVote row).key = adminKey newRow row.admin := by
  simp [asVote, adminKey, sameKey]

private theorem missingAfter_add (newRow row : LedgerRow) {required : Nat}
    (missing : 0 < required) :
    missingAfter false newRow row required +
        (if (ballot row).choice = grantRange newRow then 1 else 0) = required := by
  by_cases voted : sameGrant row newRow = true
  · rw [if_pos ((sameGrant_iff row newRow).1 voted), missingAfter,
      if_pos ⟨voted, by simp⟩]
    omega
  · rw [if_neg fun h => voted ((sameGrant_iff row newRow).2 h), missingAfter,
      if_neg fun h => voted h.1, Nat.add_zero]

private theorem newest_eq_of_counted {newRow row : LedgerRow} {seen : List LedgerRow}
    {before after : RowBuffer Key LedgerRow} (sameKey : row.key = newRow.key)
    (newestEq : ∀ admin,
      (before.lookup LedgerRow.key (adminKey newRow admin)).map ballot =
        newest (seen.map ballot) admin)
    (lookupEq : ∀ key, after.lookup LedgerRow.key key =
      if (asVote row).key = key then some (asVote row)
      else before.lookup LedgerRow.key key)
    (counted : newer (newest (seen.map ballot) row.admin) (ballot row) =
      some (ballot row)) (admin : Address) :
    (after.lookup LedgerRow.key (adminKey newRow admin)).map ballot =
      newest ((seen ++ [row]).map ballot) admin := by
  rw [lookupEq, asVote_key sameKey, List.map_append, List.map_singleton, newest_concat]
  change _ = if row.admin = admin then _ else _
  by_cases sameAdmin : row.admin = admin
  · subst sameAdmin
    rw [if_pos rfl, if_pos rfl]
    exact counted.symm
  · have otherKey : adminKey newRow row.admin ≠ adminKey newRow admin := by
      simpa [adminKey] using sameAdmin
    rw [if_neg otherKey, if_neg sameAdmin]
    exact newestEq admin

private theorem mem_supporters_iff {newRow row : LedgerRow} {seen : List LedgerRow} :
    row.admin ∈ supporters (seen.map ballot) (grantRange newRow) ↔
      ∃ old, newest (seen.map ballot) row.admin = some old ∧
        old.choice = grantRange newRow :=
  mem_supporters

/-- One round of the loop counts one more row. -/
theorem Scanned.countVote {newRow row : LedgerRow} {consensus : Nat}
    {seen : List LedgerRow} {scan : VoteScan}
    (scanned : Scanned newRow consensus seen scan) (sameKey : row.key = newRow.key)
    (missing : 0 < scan.required) :
    Scanned newRow consensus (seen ++ [row]) (countVote false newRow row scan) := by
  obtain ⟨coherent, newestEq, countEq⟩ := scanned
  have current := newestEq row.admin
  rw [← asVote_key sameKey] at current
  unfold Permissions.countVote
  cases found : scan.tmpPool.seek LedgerRow.key (asVote row).key with
  | none =>
      have absent : scan.tmpPool.lookup LedgerRow.key (asVote row).key = none := by
        simp [RowBuffer.lookup, found]
      have noBallot : newest (seen.map ballot) row.admin = none := by
        simpa [absent] using current.symm
      have counted : newer (newest (seen.map ballot) row.admin) (ballot row) =
          some (ballot row) := by
        simp [noBallot, newer]
      refine ⟨RowBuffer.coherent_add _ coherent,
        newest_eq_of_counted sameKey newestEq (RowBuffer.lookup_add coherent absent) counted,
        ?_⟩
      have tallyEq := tally_concat_of_counted (grantRange newRow) (show
        newer (newest (seen.map ballot) (ballot row).voter) (ballot row) = _ from counted)
      have noSupport : (ballot row).voter ∉ supporters (seen.map ballot) (grantRange newRow) := by
        intro supports
        obtain ⟨old, oldFound, -⟩ := mem_supporters_iff.1 supports
        simp [noBallot] at oldFound
      have missingEq := missingAfter_add newRow row missing
      rw [if_neg noSupport] at tallyEq
      rw [List.map_append, List.map_singleton]
      dsimp only
      omega
  | some rowID =>
      have oldFound : newest (seen.map ballot) row.admin =
          some (ballot (scan.tmpPool.getRow rowID)) := by
        simpa [RowBuffer.lookup, found] using current.symm
      dsimp only
      split
      · rename_i replaced
        have counted : newer (newest (seen.map ballot) row.admin) (ballot row) =
            some (ballot row) := by
          rw [oldFound]
          exact if_pos replaced
        refine ⟨RowBuffer.coherent_putRow coherent found,
          newest_eq_of_counted sameKey newestEq (RowBuffer.lookup_putRow coherent found) counted,
          ?_⟩
        have tallyEq := tally_concat_of_counted (grantRange newRow) (show
          newer (newest (seen.map ballot) (ballot row).voter) (ballot row) = _ from counted)
        have supports : (ballot row).voter ∈ supporters (seen.map ballot) (grantRange newRow) ↔
            sameGrant (scan.tmpPool.getRow rowID) newRow = true := by
          change row.admin ∈ _ ↔ _
          rw [mem_supporters_iff, oldFound, sameGrant_iff]
          simp
        simp only [supports] at tallyEq
        rw [List.map_append, List.map_singleton]
        dsimp only
        split at tallyEq
        · rename_i oldVoted
          have missingEq := missingAfter_add newRow row
            (show 0 < scan.required + 1 by omega)
          rw [if_pos oldVoted]
          omega
        · rename_i oldVoted
          have missingEq := missingAfter_add newRow row missing
          rw [if_neg oldVoted]
          omega
      · rename_i kept
        refine ⟨coherent, ?_, ?_⟩
        · intro admin
          rw [List.map_append, List.map_singleton, newest_concat, newestEq admin]
          change _ = if row.admin = admin then _ else _
          split
          · rename_i sameAdmin
            subst sameAdmin
            simp only [oldFound, newer]
            exact (if_neg kept).symm
          · rfl
        · rw [List.map_append, List.map_singleton,
            tally_concat_of_kept (grantRange newRow) oldFound kept]
          exact countEq

/-- The votes of the rows seen, with some of the rows not seen yet but at least
the first of them, meet the consensus. -/
def ReachedBeyond (newRow : LedgerRow) (consensus : Nat) (seen rest : List LedgerRow) :
    Prop :=
  ∃ length, consensus ≤
    tally ((seen ++ rest.take (length + 1)).map ballot) (grantRange newRow)

theorem reachedBeyond_singleton {newRow row : LedgerRow} {consensus : Nat}
    {seen : List LedgerRow} :
    ReachedBeyond newRow consensus seen [row] ↔
      consensus ≤ tally ((seen ++ [row]).map ballot) (grantRange newRow) := by
  simp [ReachedBeyond]

theorem reachedBeyond_cons {newRow row next : LedgerRow} {consensus : Nat}
    {seen rest : List LedgerRow}
    (short : tally ((seen ++ [row]).map ballot) (grantRange newRow) < consensus) :
    ReachedBeyond newRow consensus seen (row :: next :: rest) ↔
      ReachedBeyond newRow consensus (seen ++ [row]) (next :: rest) := by
  constructor
  · rintro ⟨length, reached⟩
    cases length with
    | zero =>
        simp only [Nat.zero_add, List.take_succ_cons, List.take_zero] at reached
        omega
    | succ length =>
        refine ⟨length, ?_⟩
        simpa [List.take_succ_cons] using reached
  · rintro ⟨length, reached⟩
    refine ⟨length + 1, ?_⟩
    simpa [List.take_succ_cons] using reached

private theorem scanVotes_eq {s : Permissions} {newRow lastRow : LedgerRow} {consensus : Nat}
    (fuel : Nat) : ∀ (seen pending : List LedgerRow) (scan : VoteScan) (row : LedgerRow),
      Scanned newRow consensus seen scan → 0 < scan.required → row.key = newRow.key →
      PendingChain s newRow.key row.prevRow pending → pending.length < fuel →
      (ReachedBeyond newRow consensus seen (row :: pending) →
        scanVotes s false newRow lastRow fuel scan row = .ok (newRow, 0)) ∧
      (¬ ReachedBeyond newRow consensus seen (row :: pending) →
        ∃ remaining, scanVotes s false newRow lastRow fuel scan row =
          .ok (outvoted newRow lastRow, remaining)) := by
  induction fuel with
  | zero =>
      intro seen pending scan row _ _ _ _ enough
      omega
  | succ fuel ih =>
      intro seen pending scan row scanned missing sameKey chain enough
      have counted := scanned.countVote sameKey missing
      have countEq := counted.count_eq
      unfold scanVotes
      by_cases reached : (countVote false newRow row scan).required = 0
      · simp only [reached, if_true]
        refine ⟨fun _ => trivial, fun unreached => absurd ⟨0, ?_⟩ unreached⟩
        simp only [Nat.zero_add, List.take_succ_cons, List.take_zero]
        omega
      · simp only [reached, if_false]
        have short : tally ((seen ++ [row]).map ballot) (grantRange newRow) < consensus := by
          omega
        generalize positionEq : row.prevRow = position at chain
        cases chain with
        | first =>
            rw [reachedBeyond_singleton, if_pos rfl]
            exact ⟨fun reached => by omega, fun _ => ⟨_, rfl⟩⟩
        | decided behind stored rowKey rowConsensus =>
            rw [reachedBeyond_singleton, if_neg (by omega),
              readPrevRow_of_storedAt stored rowKey]
            simp only [rowConsensus, if_true]
            exact ⟨fun reached => by omega, fun _ => ⟨_, rfl⟩⟩
        | pending behind stored rowKey noConsensus older =>
            rw [reachedBeyond_cons short, if_neg (by omega),
              readPrevRow_of_storedAt stored rowKey]
            simp only [noConsensus, Nat.lt_irrefl, if_false]
            exact ih _ _ _ _ counted (by omega) rowKey older
              (by simp only [List.length_cons] at enough; omega)

/-- The row that is in consensus. -/
def inConsensus (params : NetworkParams) (s : Permissions) (newRow : LedgerRow) :
    LedgerRow :=
  { newRow with
    consensus := adminConsensus params s newRow.key.entity newRow.key.type }

/-- The votes for a new row: its own and those of the pending rows. -/
def votes (newRow : LedgerRow) (pending : List LedgerRow) :
    List (Ballot Address (Int × Int)) :=
  (newRow :: pending).map ballot

theorem reachedByPrefix_iff {newRow : LedgerRow} {pending : List LedgerRow}
    {consensus : Nat} (positive : 0 < consensus) :
    ReachedByPrefix (votes newRow pending) (grantRange newRow) consensus ↔
      ReachedBeyond newRow consensus [] (newRow :: pending) := by
  constructor
  · rintro ⟨length, reached⟩
    cases length with
    | zero => simp [votes] at reached; omega
    | succ length => exact ⟨length, by simpa [votes, List.map_take] using reached⟩
  · rintro ⟨length, reached⟩
    exact ⟨length + 1, by simpa [votes, List.map_take] using reached⟩

theorem scanned_nil (newRow : LedgerRow) (consensus : Nat) :
    Scanned newRow consensus [] ⟨consensus, RowBuffer.initializeBuffer .zero true⟩ where
  coherent := RowBuffer.coherent_initializeBuffer _ _
  newest_eq := fun admin => by
    rw [RowBuffer.lookup_of_coherent (RowBuffer.coherent_initializeBuffer _ _)]
    simp [newest]
  count_eq := by simp

/-- `VerifyConsensus` decides by the first leading part of the votes that meets
the consensus. -/
theorem verifyConsensus_eq {params : NetworkParams} {s : Permissions}
    {newRow lastRow : LedgerRow} {pending : List LedgerRow}
    (chain : PendingChain s newRow.key newRow.prevRow pending)
    (behind : newRow.prevRow < s.row) :
    (ReachedByPrefix (votes newRow pending) (grantRange newRow)
        (adminConsensus params s newRow.key.entity newRow.key.type) →
      verifyConsensus params s false newRow lastRow =
        .ok (inConsensus params s newRow, 0)) ∧
    (¬ ReachedByPrefix (votes newRow pending) (grantRange newRow)
        (adminConsensus params s newRow.key.entity newRow.key.type) →
      ∃ remaining, verifyConsensus params s false newRow lastRow =
        .ok (outvoted newRow lastRow, remaining)) := by
  have positive := adminConsensus_pos params s newRow.key.entity newRow.key.type
  rw [reachedByPrefix_iff positive]
  unfold verifyConsensus
  dsimp only
  split
  · rename_i single
    have reached : ReachedBeyond newRow
        (adminConsensus params s newRow.key.entity newRow.key.type) []
        (newRow :: pending) := by
      refine ⟨0, single.trans ?_⟩
      have : newer (newest [] (ballot newRow).voter) (ballot newRow) = some (ballot newRow) :=
        rfl
      have ownVote := tally_concat_of_counted (grantRange newRow) this
      simp only [tally_nil, supporters] at ownVote
      simpa [grantRange, ballot] using ownVote.ge
    exact ⟨fun _ => rfl, fun unreached => absurd reached unreached⟩
  · exact scanVotes_eq (s.row + 1) [] pending _ (inConsensus params s newRow)
      (scanned_nil _ _) positive rfl chain (by have := chain.length_le; omega)

/-- The outcome the tally of all votes asks for: the new row is in consensus
exactly when enough admins have their newest vote on its range. -/
def DecidedByTally (params : NetworkParams) (s : Permissions) (newRow lastRow : LedgerRow)
    (pending : List LedgerRow) : Prop :=
  ∃ remaining, verifyConsensus params s false newRow lastRow =
    .ok (if adminConsensus params s newRow.key.entity newRow.key.type ≤
          tally (votes newRow pending) (grantRange newRow) then
        inConsensus params s newRow
      else outvoted newRow lastRow, remaining)

private theorem inConsensus_ne_outvoted (params : NetworkParams) (s : Permissions)
    (newRow lastRow : LedgerRow) :
    inConsensus params s newRow ≠ outvoted newRow lastRow := by
  intro equal
  have positive := adminConsensus_pos params s newRow.key.entity newRow.key.type
  have : adminConsensus params s newRow.key.entity newRow.key.type = 0 :=
    congrArg LedgerRow.consensus equal
  omega

/-- `VerifyConsensus` follows the tally of all votes exactly when no leading
part of the votes meets a consensus that all of them together miss. -/
theorem decidedByTally_iff {params : NetworkParams} {s : Permissions}
    {newRow lastRow : LedgerRow} {pending : List LedgerRow}
    (chain : PendingChain s newRow.key newRow.prevRow pending)
    (behind : newRow.prevRow < s.row) :
    DecidedByTally params s newRow lastRow pending ↔
      (ReachedByPrefix (votes newRow pending) (grantRange newRow)
          (adminConsensus params s newRow.key.entity newRow.key.type) →
        adminConsensus params s newRow.key.entity newRow.key.type ≤
          tally (votes newRow pending) (grantRange newRow)) := by
  obtain ⟨ofReached, ofUnreached⟩ :=
    verifyConsensus_eq chain behind
  unfold DecidedByTally
  constructor
  · rintro ⟨remaining, decided⟩ reached
    by_contra missed
    rw [ofReached reached, if_neg missed] at decided
    have rowsEq := congrArg Prod.fst (Except.ok.inj decided)
    exact inConsensus_ne_outvoted params s newRow lastRow rowsEq
  · intro noEarlyExit
    by_cases reached : ReachedByPrefix (votes newRow pending) (grantRange newRow)
        (adminConsensus params s newRow.key.entity newRow.key.type)
    · exact ⟨0, by rw [ofReached reached, if_pos (noEarlyExit reached)]⟩
    · obtain ⟨remaining, decided⟩ := ofUnreached reached
      have missed : ¬ adminConsensus params s newRow.key.entity newRow.key.type ≤
          tally (votes newRow pending) (grantRange newRow) :=
        fun enough => reached (reachedByPrefix_of_le_tally enough)
      exact ⟨remaining, by rw [decided, if_neg missed]⟩

section EarlyExit

/-- Two of two admins have to agree on a miner. -/
def unanimous : NetworkParams where
  anyoneCanAdmin := false
  anyoneCanActivate := false
  anyoneCanMine := false
  setupFirstBlocks := 0
  adminConsensusAdmin := mcPrmDecimalGranularity
  adminConsensusMine := mcPrmDecimalGranularity
  adminConsensusActivate := mcPrmDecimalGranularity
  adminConsensusIssue := mcPrmDecimalGranularity
  adminConsensusCreate := mcPrmDecimalGranularity
  adminConsensusUpgrade := mcPrmDecimalGranularity
  supportMinerPrecheck := false

def mineVote (admin : Address) (grantTo : Int) (timestamp prevRow thisRow : Nat) :
    LedgerRow :=
  { LedgerRow.zero with
    key := nullKey 7 mcPtpMine
    admin := admin
    blockTo := grantTo
    grantTo := grantTo
    timestamp := timestamp
    prevRow := prevRow
    thisRow := thisRow
    blockReceived := 5 }

/-- The second admin voted for the range up to block 100 first, but with the
newer timestamp, and for the range up to block 50 last. -/
def contradictoryVotes : Permissions :=
  { Permissions.zero with
    memPool := (Permissions.zero.memPool.add memPoolKey (mineVote 2 100 9 0 3)).add memPoolKey
      (mineVote 2 50 5 3 4)
    block := 4
    row := 5
    adminCount := 2 }

theorem contradictoryVotes_chain :
    PendingChain contradictoryVotes (nullKey 7 mcPtpMine) 4
      [mineVote 2 50 5 3 4, mineVote 2 100 9 0 3] :=
  .pending (by decide) ⟨rfl, by decide⟩ rfl rfl
    (.pending (by decide) ⟨rfl, by decide⟩ rfl rfl .first)

/-- The row of the first admin takes effect on the older vote of the second. -/
theorem contradictoryVotes_not_decidedByTally :
    ¬ DecidedByTally unanimous contradictoryVotes (mineVote 1 50 10 4 5) LedgerRow.zero
      [mineVote 2 50 5 3 4, mineVote 2 100 9 0 3] := by
  rintro ⟨remaining, decided⟩
  have early : verifyConsensus unanimous contradictoryVotes false (mineVote 1 50 10 4 5)
      LedgerRow.zero =
        .ok (inConsensus unanimous contradictoryVotes (mineVote 1 50 10 4 5), 0) := by
    rfl
  have missed : ¬ adminConsensus unanimous contradictoryVotes
      (mineVote 1 50 10 4 5).key.entity (mineVote 1 50 10 4 5).key.type ≤
      tally (votes (mineVote 1 50 10 4 5) [mineVote 2 50 5 3 4, mineVote 2 100 9 0 3])
        (grantRange (mineVote 1 50 10 4 5)) := by
    decide
  rw [early, if_neg missed] at decided
  exact inConsensus_ne_outvoted _ _ _ _ (congrArg Prod.fst (Except.ok.inj decided))

theorem decidedByTally_iff_contradictoryVotes :
    DecidedByTally unanimous contradictoryVotes (mineVote 1 50 10 4 5) LedgerRow.zero
        [mineVote 2 50 5 3 4, mineVote 2 100 9 0 3] ↔
      (ReachedByPrefix (votes (mineVote 1 50 10 4 5)
          [mineVote 2 50 5 3 4, mineVote 2 100 9 0 3]) (grantRange (mineVote 1 50 10 4 5))
          (adminConsensus unanimous contradictoryVotes .null mcPtpMine) →
        adminConsensus unanimous contradictoryVotes .null mcPtpMine ≤
          tally (votes (mineVote 1 50 10 4 5)
            [mineVote 2 50 5 3 4, mineVote 2 100 9 0 3])
            (grantRange (mineVote 1 50 10 4 5))) :=
  decidedByTally_iff contradictoryVotes_chain (by decide)

end EarlyExit

end Permissions

end HdacNode
