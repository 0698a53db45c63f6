import HdacNode.MiningThresholds
import HdacNode.PermissionListAnswers

/-!
# Lists of permissions agree with queries

In every run in which the callers set the first row of an entity first, a list of an entity has
every key that has a row once, with the range and the row that a query of the key reports, and
marks the keys whose newest row still misses votes.
-/

namespace HdacNode

open LinkedRowLog

namespace Permissions

section Rows

variable {params : NetworkParams} {s : Permissions} {blocks : List (Address × Hash)} {top : Int}
  {entity : Entity} {mask : Nat} {unset : Int} {key : Key}

namespace Consistent

theorem listedBehind_nil (consistent : Consistent s blocks top) (opened : ListsOpened s.fullLog) :
    ListedBehind s entity mask unset []
      (if (s.readRow (firstListKey entity)).isSome then
        (s.keysBehind entity).foldl (addDatabaseRow s mask)
          ⟨RowBuffer.initializeBuffer .zero true, false, unset⟩
      else ⟨RowBuffer.initializeBuffer .zero true, true, unset⟩) := by
  cases first : s.readRow (firstListKey entity) with
  | none =>
      rw [if_neg (by simp)]
      obtain ⟨notNull, noneLive⟩ := consistent.entity_ne_of_unopened opened first
      constructor
      · apply Listed.initializeBuffer.congr
        intro key isKey inMask
        have noRow : s.readRow key = none := by
          rw [consistent.readRow_eq_none_iff (ListKey.ne_zeroKey inMask) isKey.not_aboveTip,
            newestOf_eq_none]
          rintro row member rfl
          exact noneLive row member isKey.ofEntity
        simp [expectedBehind, valueBehind, newestOf, noRow]
      · intro _
        exact ⟨RowBuffer.rows_initializeBuffer _ _, notNull, noneLive, by simp⟩
  | some pdbRow =>
      rw [if_pos (by simp)]
      have start : ListedAmong s entity mask unset []
          ⟨RowBuffer.initializeBuffer .zero true, false, unset⟩ := by
        constructor
        · exact Listed.initializeBuffer
        · simp
        · rfl
        · exact fun _ => rfl
      have ofEntity : ∀ key ∈ s.keysBehind entity, key.entity = entity := fun key member =>
        (mem_keysBehind_iff.mp member).2.1
      have among := start.foldl ofEntity (nodup_keysBehind s entity)
      rw [List.nil_append] at among
      constructor
      · apply among.listed.congr
        intro key isKey inMask
        by_cases found : s.readRow key = none
        · simp [expectedAmong, expectedBehind, valueBehind, newestOf, found]
        · have member := consistent.mem_keysBehind isKey inMask found
          simp [expectedAmong, expectedBehind, valueBehind, newestOf, member]
      · intro unopened
        exact absurd (among.behindFirst.symm.trans unopened) Bool.false_ne_true

private theorem listedBehind_foldl (consistent : Consistent s blocks top)
    (opened : ListsOpened s.fullLog) {seen rest : List LedgerRow} {scan : ListScan}
    (rows : s.memPool.rows = seen ++ rest) (behind : ListedBehind s entity mask unset seen scan) :
    ListedBehind s entity mask unset s.memPool.rows
      (rest.foldl (addWaitingRow entity mask) scan) := by
  induction rest generalizing seen scan with
  | nil =>
      rw [rows, List.append_nil]
      exact behind
  | cons row rest ih =>
      have received : row.blockReceived = s.block + 1 := by
        apply (consistent.memRows row _).received
        rw [rows]
        exact List.mem_append_right _ (List.mem_cons_self ..)
      have log : s.fullLog = rest.reverse ++ row :: (seen.reverse ++ s.liveLog) := by
        simp [fullLog, rows]
      apply ih
      · rw [rows, List.append_cons]
      · exact behind.addWaitingRow (opened _ _ _ log) received

theorem listed_getPermissionList (consistent : Consistent s blocks top)
    (opened : ListsOpened s.fullLog) :
    ∃ result, Listed entity mask (s.expectedBehind unset s.memPool.rows) result ∧
      getPermissionList params s entity mask unset =
        result.rows.map (fillPermissionDetails params s) :=
  ⟨_, (consistent.listedBehind_foldl opened (List.nil_append _).symm
    (consistent.listedBehind_nil opened)).listed, rfl⟩

end Consistent

/-- The details that stay as they are. -/
theorem fillPermissionDetails_kept (params : NetworkParams) (s : Permissions)
    (details : PermissionDetails) :
    let filled := fillPermissionDetails params s details
    filled.key = details.key ∧ filled.blockFrom = details.blockFrom ∧
      filled.blockTo = details.blockTo ∧ filled.lastRow = details.lastRow := by
  unfold fillPermissionDetails
  dsimp only
  generalize adminConsensus params s details.key.entity _ = consensus
  split
  · exact ⟨rfl, rfl, rfl, rfl⟩
  · split
    · exact ⟨rfl, rfl, rfl, rfl⟩
    · split
      · split
        · exact ⟨rfl, rfl, rfl, rfl⟩
        · exact ⟨rfl, rfl, rfl, rfl⟩
      · exact ⟨rfl, rfl, rfl, rfl⟩

/-- The admins that have to agree about a key that is listed. -/
def listedConsensus (params : NetworkParams) (s : Permissions) (key : Key) : Nat :=
  adminConsensus params s key.entity (if key.entity = .upgrade then mcPtpUpgrade else key.type)

theorem fillPermissionDetails_filled {details : PermissionDetails} {row : LedgerRow}
    (stored : StoredAt s details.lastRow row) (sameKey : row.key = details.key)
    (positive : details.lastRow ≠ 0) :
    let filled := fillPermissionDetails params s details
    filled.flags =
        (if 0 < row.consensus then details.flags else details.flags ||| mcPflHavePending) ∧
      filled.blockReceived =
        if 0 < row.consensus ∧ listedConsensus params s details.key ≤ 1 then details.blockReceived
        else row.blockReceived := by
  have read : s.readPrevRow { LedgerRow.zero with key := details.key } details.lastRow = .ok row :=
    readPrevRow_of_storedAt stored sameKey
  unfold fillPermissionDetails listedConsensus
  dsimp only
  generalize adminConsensus params s details.key.entity _ = consensus
  rw [if_neg positive, read]
  dsimp only
  by_cases decided : 0 < row.consensus
  · by_cases single : consensus ≤ 1
    · simp [decided, single]
    · simp [decided, single]
  · simp [decided]

/-- All rows of a key are waiting, or it belongs to an upgrade for which no row is waiting. -/
def OneSource (s : Permissions) (key : Key) : Prop :=
  (∀ row ∈ s.liveLog, row.key ≠ key) ∨
    key.entity = .upgrade ∧ ∀ row ∈ s.memPool.rows, row.key ≠ key

namespace Consistent

theorem getPermissionRow_eq (consistent : Consistent s blocks top) (isKey : ListKey entity key)
    (notZero : key ≠ zeroKey) :
    s.getPermissionRow key true =
      (newestOf s.memPool.rows.reverse key).getD (s.databaseRow key).1 := by
  obtain ⟨-, sought⟩ := databaseRow_reports consistent.fork
    (consistent.database key notZero isKey.not_aboveTip) consistent.stored
  unfold getPermissionRow
  simp only [if_true, sought]
  rw [← newest_eq_thisRow consistent.liveLinked isKey.notIndex]
  exact seekMemPool_newest consistent.memCoherent consistent.linked isKey.notIndex _

theorem query_of_valueBehind (consistent : Consistent s blocks top) (isKey : ListKey entity key)
    (notZero : key ≠ zeroKey) {value : DBRow}
    (found : s.valueBehind s.memPool.rows key = some value) :
    ∃ newest, newestOf s.fullLog key = some newest ∧ newest.thisRow = value.ledgerRow ∧
      (s.getPermissionRow key true).blockFrom = value.blockFrom ∧
      (s.getPermissionRow key true).blockTo = value.blockTo ∧
      (s.getPermissionRow key true).thisRow = value.ledgerRow ∧
      (s.getPermissionRow key true).flags = value.flags ∧
      (s.getPermissionRow key true).blockReceived =
        if newestOf s.memPool.rows.reverse key ≠ none ∨ key.entity = .upgrade then
          newest.blockReceived
        else 0 := by
  rw [consistent.getPermissionRow_eq isKey notZero, fullLog, newestOf_append]
  cases waiting : newestOf s.memPool.rows.reverse key with
  | some row =>
      rw [valueBehind, waiting] at found
      obtain rfl := Option.some.inj found
      refine ⟨row, rfl, rfl, rfl, rfl, rfl, rfl, ?_⟩
      rw [if_pos (.inl (Option.some_ne_none row))]
      rfl
  | none =>
      rw [valueBehind, waiting, Option.map_none, Option.none_or] at found
      have matched := consistent.database key notZero isKey.not_aboveTip
      rw [found] at matched
      rw [Option.none_or, Option.getD_none]
      cases newest : newestOf s.liveLog key with
      | none =>
          rw [newest] at matched
          exact matched.elim
      | some row =>
          rw [newest] at matched
          obtain ⟨fromEq, toEq, rowEq, flagsEq⟩ := matched
          have inLog := List.mem_of_find?_eq_some newest
          have rowKey := key_of_newestOf newest
          refine ⟨row, rfl, rowEq.symm, ?_⟩
          by_cases isUpgrade : key.entity = .upgrade
          · have granted : row.key.type ∈ grantableTypes := by
              rcases consistent.blockLog.key_cases row inLog with
                granted | ⟨miner, isMiner⟩ | isIndex
              · exact granted
              · rw [rowKey] at isMiner
                rw [isMiner] at isUpgrade
                cases isUpgrade
              · rw [rowKey] at isIndex
                exact absurd isIndex isKey.notIndex
            have noFork : s.forkChecked key.type = false := by
              simp [forkChecked, consistent.fork]
            have stored := consistent.stored row inLog
            rw [← rowEq] at stored
            have query : (s.databaseRow key).1 =
                { LedgerRow.zero with
                  key := key
                  blockFrom := row.blockFrom
                  blockTo := row.blockTo
                  thisRow := row.thisRow
                  flags := row.flags
                  blockReceived := row.blockReceived } := by
              simp [databaseRow, found, loadRow, noFork, isUpgrade, stored]
            rw [query, fromEq, toEq, rowEq, flagsEq granted]
            exact ⟨rfl, rfl, rfl, rfl, (if_pos (.inr isUpgrade)).symm⟩
          · rw [databaseRow_of_present consistent.fork found isUpgrade]
            refine ⟨rfl, rfl, rfl, rfl, ?_⟩
            rw [if_neg (not_or.mpr ⟨not_not.mpr rfl, isUpgrade⟩)]
            rfl

/-- Before the details are filled, a key whose rows come from one place is listed with the block of
its newest row. -/
theorem listedBlock_eq (consistent : Consistent s blocks top) (isKey : ListKey entity key)
    (notZero : key ≠ zeroKey) {newest : LedgerRow} (found : newestOf s.fullLog key = some newest)
    (oneSource : OneSource s key) : s.listedBlock unset key = newest.blockReceived := by
  rw [fullLog, newestOf_append] at found
  rw [listedBlock]
  rcases oneSource with allWaiting | ⟨isUpgrade, noneWaiting⟩
  · rw [← newestOf_eq_none] at allWaiting
    rw [(consistent.readRow_eq_none_iff notZero isKey.not_aboveTip).mpr allWaiting]
    rw [allWaiting, Option.or_none] at found
    have member := List.mem_reverse.mp (List.mem_of_find?_eq_some found)
    exact (consistent.memRows newest member).received.symm
  · have noneNewer : newestOf s.memPool.rows.reverse key = none := by
      rw [newestOf_eq_none]
      exact fun row member => noneWaiting row (List.mem_reverse.mp member)
    rw [noneNewer, Option.none_or] at found
    have matched := consistent.database key notZero isKey.not_aboveTip
    rw [found] at matched
    cases readEq : s.readRow key with
    | none =>
        rw [readEq] at matched
        exact matched.elim
    | some pdbRow =>
        rw [readEq] at matched
        dsimp only
        rw [if_pos isUpgrade, matched.2.2.1,
          consistent.stored newest (List.mem_of_find?_eq_some found)]

theorem exists_rowByNumber_iff (consistent : Consistent s blocks top) :
    (∃ rowID row, s.rowByNumber rowID = some row ∧ row.key = key) ↔
      newestOf s.fullLog key ≠ none := by
  rw [Option.ne_none_iff_exists']
  constructor
  · rintro ⟨rowID, row, found, rowKey⟩
    rw [consistent.rowByNumber_eq] at found
    have inLog := LinkedRowLog.mem_of_rowAt found
    rw [← Option.ne_none_iff_exists', ne_eq, newestOf_eq_none]
    exact fun absent => absent row inLog rowKey
  · rintro ⟨row, found⟩
    refine ⟨row.thisRow, row, ?_, key_of_newestOf found⟩
    rw [consistent.rowByNumber_eq]
    exact consistent.linked.rowAt_thisRow (List.mem_of_find?_eq_some found)

theorem valueBehind_ne_none_iff (consistent : Consistent s blocks top)
    (isKey : ListKey entity key) (notZero : key ≠ zeroKey) :
    s.valueBehind s.memPool.rows key ≠ none ↔ newestOf s.fullLog key ≠ none := by
  rw [valueBehind, fullLog, newestOf_append, ne_eq, ne_eq, Option.or_eq_none_iff,
    Option.or_eq_none_iff, Option.map_eq_none_iff,
    consistent.readRow_eq_none_iff notZero isKey.not_aboveTip]

end Consistent

/-- What the list and the query of a key report agrees.  The list marks a key whose newest row
misses votes.  It has the block of the newest row if the rows come from one place, or if the newest
one misses votes or needed several; the query has that block for waiting rows and upgrades. -/
structure DetailsAgree (params : NetworkParams) (s : Permissions) (details : PermissionDetails)
    (newest query : LedgerRow) : Prop where
  blockFrom : details.blockFrom = query.blockFrom
  blockTo : details.blockTo = query.blockTo
  lastRow : details.lastRow = query.thisRow
  flags : details.flags =
    if 0 < newest.consensus then query.flags else query.flags ||| mcPflHavePending
  block : OneSource s details.key ∨ newest.consensus = 0 ∨
      1 < listedConsensus params s details.key → details.blockReceived = newest.blockReceived
  queriedBlock : query.blockReceived =
    if newest ∈ s.memPool.rows ∨ details.key.entity = .upgrade then newest.blockReceived else 0

/-- A list of the permissions of an entity agrees with the queries of its keys. -/
structure ListAgrees (params : NetworkParams) (s : Permissions) (entity : Entity) (mask : Nat)
    (unset : Int) : Prop where
  once : ((getPermissionList params s entity mask unset).map PermissionDetails.key).Nodup
  ofMask : ∀ details ∈ getPermissionList params s entity mask unset,
    details.key.entity = entity ∧ mask &&& details.key.type ≠ 0
  listed_iff : ∀ key, ListKey entity key → mask &&& key.type ≠ 0 →
    ((∃ details ∈ getPermissionList params s entity mask unset, details.key = key) ↔
      ∃ rowID row, s.rowByNumber rowID = some row ∧ row.key = key)
  answers : ∀ details ∈ getPermissionList params s entity mask unset,
    ListKey entity details.key → ∃ newest, s.newestRow details.key = some newest ∧
      DetailsAgree params s details newest (s.getPermissionRow details.key true)

theorem newest_mem_memPool_iff {newest : LedgerRow}
    (found : newestOf s.fullLog key = some newest) :
    newest ∈ s.memPool.rows ↔ newestOf s.memPool.rows.reverse key ≠ none := by
  constructor
  · intro member
    rw [ne_eq, newestOf_eq_none]
    exact fun absent => absent newest (List.mem_reverse.mpr member) (key_of_newestOf found)
  · intro waiting
    obtain ⟨row, isWaiting⟩ := Option.ne_none_iff_exists'.mp waiting
    rw [fullLog, newestOf_append, isWaiting, Option.some_or] at found
    obtain rfl := Option.some.inj found
    exact List.mem_reverse.mp (List.mem_of_find?_eq_some isWaiting)

namespace Consistent

theorem detailsAgree (consistent : Consistent s blocks top) (isKey : ListKey entity key)
    (notZero : key ≠ zeroKey) {value : DBRow}
    (found : s.valueBehind s.memPool.rows key = some value) :
    ∃ newest, s.newestRow key = some newest ∧
      DetailsAgree params s
        (fillPermissionDetails params s (.ofValue key (s.listedBlock unset key) value)) newest
        (s.getPermissionRow key true) := by
  obtain ⟨newest, isNewest, place, fromEq, toEq, rowEq, flagsEq, blockEq⟩ :=
    consistent.query_of_valueBehind isKey notZero found
  refine ⟨newest, ?_, ?_⟩
  · rw [consistent.newestRow_eq]
    exact isNewest
  have inLog := List.mem_of_find?_eq_some isNewest
  have stored := consistent.storedAt inLog
  have positive : newest.thisRow ≠ 0 := (consistent.linked.thisRow_pos inLog).ne'
  rw [place] at stored positive
  obtain ⟨filledKey, filledFrom, filledTo, filledRow⟩ := fillPermissionDetails_kept params s
    (.ofValue key (s.listedBlock unset key) value)
  obtain ⟨filledFlags, filledBlock⟩ := @fillPermissionDetails_filled params s
    (.ofValue key (s.listedBlock unset key) value) newest stored (key_of_newestOf isNewest) positive
  constructor
  · exact filledFrom.trans fromEq.symm
  · exact filledTo.trans toEq.symm
  · exact filledRow.trans rowEq.symm
  · rw [filledFlags, flagsEq]
    rfl
  · rw [filledKey, filledBlock]
    intro comparable
    split
    · rename_i unfilled
      apply consistent.listedBlock_eq isKey notZero isNewest
      rcases comparable with oneSource | pending | several
      · exact oneSource
      · exact absurd unfilled.1 (by omega)
      · exact absurd unfilled.2 (not_le.mpr several)
    · rfl
  · rw [blockEq, filledKey]
    exact if_congr (or_congr_left (newest_mem_memPool_iff isNewest).symm) rfl rfl

theorem listAgrees (consistent : Consistent s blocks top) (opened : ListsOpened s.fullLog) :
    ListAgrees params s entity mask unset := by
  obtain ⟨result, listed, list⟩ := @listed_getPermissionList params s _ _ entity mask unset
    consistent opened
  have sameKeys : ∀ details : PermissionDetails,
      (fillPermissionDetails params s details).key = details.key := fun details =>
    (fillPermissionDetails_kept params s details).1
  have rows : ∀ {details}, details ∈ result.rows → ListKey entity details.key →
      s.expectedBehind unset s.memPool.rows details.key = some details := by
    intro details member isKey
    rw [← listed.found details.key isKey (listed.ofMask details member).2]
    exact (RowBuffer.mem_rows_iff listed.coherent listed.nodup).mp member
  constructor
  · rw [list, List.map_map, show PermissionDetails.key ∘ fillPermissionDetails params s =
      PermissionDetails.key from funext sameKeys]
    exact listed.nodup
  · rw [list, List.forall_mem_map]
    intro details member
    rw [sameKeys]
    exact listed.ofMask details member
  · intro key isKey inMask
    rw [consistent.exists_rowByNumber_iff, ← consistent.valueBehind_ne_none_iff isKey
      (ListKey.ne_zeroKey inMask), list]
    have lookup := listed.found key isKey inMask
    constructor
    · rintro ⟨_, member, rfl⟩ noValue
      obtain ⟨details, inRows, rfl⟩ := List.mem_map.mp member
      rw [sameKeys] at isKey noValue
      have found := rows inRows isKey
      rw [expectedBehind, noValue] at found
      cases found
    · intro hasValue
      obtain ⟨value, found⟩ := Option.ne_none_iff_exists'.mp hasValue
      rw [expectedBehind, found, Option.map_some] at lookup
      have member :
          PermissionDetails.ofValue key (s.listedBlock unset key) value ∈ result.rows := by
        rw [RowBuffer.mem_rows_iff listed.coherent listed.nodup]
        exact lookup
      exact ⟨_, List.mem_map_of_mem member, sameKeys _⟩
  · rw [list, List.forall_mem_map]
    intro details member isKey
    rw [sameKeys] at isKey ⊢
    have found := rows member isKey
    obtain ⟨value, hasValue, isDetails⟩ := Option.map_eq_some_iff.mp found
    have notZero := ListKey.ne_zeroKey (listed.ofMask details member).2
    have agrees := @detailsAgree params s _ _ entity unset _ consistent isKey notZero _ hasValue
    rw [isDetails] at agrees
    exact agrees

end Consistent

end Rows

end Permissions

namespace PermissionRun

open Permissions

/-- The first row of an entity comes first in every run. -/
theorem listsOpened_invariant (params : NetworkParams) :
    LogInvariant params OpensList ListsOpened where
  empty := by
    intro newer row older absurdity
    simp at absurdity
  older := ListsOpened.of_append
  blockRow := fun opened isNull _ => opened.cons (.inl isNull)
  setPermission := fun consistent made opened => opened.setPermission consistent made
  setApproval := fun consistent opened => consistent.listsOpened_setApproval opened _

/-- In every run, a list of the permissions of an entity has the keys with a row once each, and
agrees with the queries of the keys. -/
theorem permissionList_agrees (params : NetworkParams) (calls : List StoreCall)
    (follows : start.FollowsStore params calls) (opens : start.MakesCalls params OpensList calls)
    (entity : Entity) (mask : Nat) (unset : Int) :
    ListAgrees params (start.afterStore params calls).store entity mask unset := by
  have based := based_start.afterStore follows
  have invariant := listsOpened_invariant params
  have opened := (LogHolds.start invariant).afterStore invariant based_start follows opens
  exact based.sound.consistent.listAgrees opened.log

/-- A permission that an admin gives, for the first thousand blocks. -/
def listedGrant (entity : Entity) (address : Address) (type : Nat) (admin : Address)
    (flags timestamp : Nat) : StoreCall :=
  .call (.setPermission
    { entity := entity
      address := address
      type := type
      admin := admin
      blockFrom := 0
      blockTo := 1000
      timestamp := timestamp
      flags := flags
      updateMempool := true
      offset := 0 })

/-- Of two admins, both let address 9 mine, and one lets address 10 mine.  Then an entity is
created. -/
def listedGrants : List StoreCall :=
  [listedGrant .null 7 mcPtpAdmin 7 0 1, listedGrant .null 8 mcPtpAdmin 7 0 1,
    .call (.commit 7 1),
    listedGrant .null 9 mcPtpMine 7 0 1, listedGrant .null 9 mcPtpMine 8 0 2,
    .call (.commit 7 2),
    listedGrant .null 10 mcPtpMine 7 0 3,
    listedGrant (.genesis 5) 0 mcPtpConnect 7 mcPflEntityGenesis 4,
    listedGrant (.genesis 5) 9 mcPtpConnect 7 mcPflEntityGenesis 4]

theorem follows_listedGrants : start.FollowsStore allAdmins listedGrants :=
  ⟨trivial, trivial, trivial, trivial, trivial, trivial, trivial, trivial, trivial, trivial⟩

theorem opens_listedGrants : start.MakesCalls allAdmins OpensList listedGrants :=
  ⟨fun _ => .inl rfl, fun _ => .inl rfl, trivial, fun _ => .inl rfl, fun _ => .inl rfl, trivial,
    fun _ => .inl rfl, fun _ => .inr (.inl ⟨rfl, rfl⟩), fun _ => .inr (.inr (by decide +kernel)),
    trivial⟩

theorem permissionList_agrees_listedGrants :
    ListAgrees allAdmins (start.afterStore allAdmins listedGrants).store (.genesis 5)
      mcPtpConnect 0 :=
  permissionList_agrees allAdmins listedGrants follows_listedGrants opens_listedGrants _ _ _

private theorem listAgrees_listedGrants (entity : Entity) (mask : Nat) :
    ListAgrees allAdmins (start.afterStore allAdmins listedGrants).store entity mask 0 := by
  have based := based_start.afterStore follows_listedGrants
  have invariant := listsOpened_invariant allAdmins
  have opened := (LogHolds.start invariant).afterStore invariant based_start follows_listedGrants
    opens_listedGrants
  exact based.sound.consistent.listAgrees opened.log

/-- The first key of the entity is not listed, the list marks the mining permission of address
10, and only the list has the block of the one of address 9. -/
theorem permissionList_disagrees :
    let s := (start.afterStore allAdmins listedGrants).store
    (∃ rowID row, s.rowByNumber rowID = some row ∧
      row.key = ⟨.genesis 5, .account 0, mcPtpConnect⟩ ∧
      ∀ details ∈ getPermissionList allAdmins s (.genesis 5) mcPtpConnect 0,
        details.key ≠ row.key) ∧
    (∃ details ∈ getPermissionList allAdmins s .null mcPtpMine 0,
      details.key = nullKey 10 mcPtpMine ∧
        details.flags ≠ (s.getPermissionRow details.key true).flags) ∧
    ∃ details ∈ getPermissionList allAdmins s .null mcPtpMine 0,
      details.key = nullKey 9 mcPtpMine ∧
        details.blockReceived ≠ (s.getPermissionRow details.key true).blockReceived := by
  intro s
  have agrees := listAgrees_listedGrants .null mcPtpMine
  have notIndex : mcPtpMine ≠ mcPtpBlockIndex := by decide
  have inMask : mcPtpMine &&& mcPtpMine ≠ 0 := by decide
  have isKey : ∀ address, ListKey .null (nullKey address mcPtpMine) := fun address =>
    ⟨rfl, ⟨address, rfl, .inl rfl⟩, notIndex⟩
  have listed : ∀ address rowID,
      (s.rowByNumber rowID).map LedgerRow.key = some (nullKey address mcPtpMine) →
      ∃ details ∈ getPermissionList allAdmins s .null mcPtpMine 0,
        details.key = nullKey address mcPtpMine := by
    intro address rowID found
    obtain ⟨row, place, rowKey⟩ := Option.map_eq_some_iff.mp found
    exact (agrees.listed_iff _ (isKey address) inMask).mpr ⟨rowID, row, place, rowKey⟩
  refine ⟨?_, ?_, ?_⟩
  · have found : (s.rowByNumber 10).map LedgerRow.key =
        some ⟨.genesis 5, .account 0, mcPtpConnect⟩ := by decide +kernel
    obtain ⟨row, place, rowKey⟩ := Option.map_eq_some_iff.mp found
    refine ⟨10, row, place, rowKey, ?_⟩
    rw [rowKey]
    decide +kernel
  · obtain ⟨details, member, detailsKey⟩ := listed 10 9 (by decide +kernel)
    obtain ⟨newest, isNewest, same⟩ := agrees.answers details member (by
      rw [detailsKey]
      exact isKey 10)
    have newestConsensus : (s.newestRow (nullKey 10 mcPtpMine)).map LedgerRow.consensus = some 0 :=
      by decide +kernel
    have queryFlags : (s.getPermissionRow (nullKey 10 mcPtpMine) true).flags = 0 := by
      decide +kernel
    rw [← detailsKey, isNewest] at newestConsensus
    refine ⟨details, member, detailsKey, ?_⟩
    rw [same.flags, Option.some.inj newestConsensus, detailsKey, queryFlags]
    decide
  · obtain ⟨details, member, detailsKey⟩ := listed 9 6 (by decide +kernel)
    obtain ⟨newest, isNewest, same⟩ := agrees.answers details member (by
      rw [detailsKey]
      exact isKey 9)
    have newestBlock : (s.newestRow (nullKey 9 mcPtpMine)).map LedgerRow.blockReceived = some 1 :=
      by decide +kernel
    have queryBlock : (s.getPermissionRow (nullKey 9 mcPtpMine) true).blockReceived = 0 := by
      decide +kernel
    have several : 1 < listedConsensus allAdmins s (nullKey 9 mcPtpMine) := by decide +kernel
    rw [← detailsKey, isNewest] at newestBlock
    refine ⟨details, member, detailsKey, ?_⟩
    rw [same.block (.inr (.inr (by rw [detailsKey]; exact several))),
      Option.some.inj newestBlock, detailsKey, queryBlock]
    decide

end PermissionRun

end HdacNode
