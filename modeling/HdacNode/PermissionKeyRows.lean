import Mathlib.Data.List.TakeWhile
import HdacNode.PermissionBlockIndex

/-!
# The newest row of a key and the rows behind it

Row numbers run through the ledger file and on into the memory pool.  The
newest row of a key is the one with the greatest number, and its previous row
numbers lead back through the older ones.  Next to a run stands what was set in
it: the rows appended so far, less those that were rolled back, given up or
cleared.
-/

namespace HdacNode

open LinkedRowLog

namespace Permissions

/-- The row with a number: of the ledger file, or of the memory pool behind it. -/
def rowByNumber (s : Permissions) (rowID : Nat) : Option LedgerRow :=
  if rowID = 0 then none
  else if rowID < s.row - s.memPool.count then s.ledger.getRow rowID
  else s.memPool.rows[rowID - (s.row - s.memPool.count)]?

/-- The newest row of a key among the rows up to a number. -/
def newestRowUpTo (s : Permissions) (key : Key) : Nat → Option LedgerRow
  | 0 => none
  | below + 1 =>
      match s.rowByNumber (below + 1) with
      | none => newestRowUpTo s key below
      | some row => if row.key = key then some row else newestRowUpTo s key below

/-- The newest row of a key. -/
def newestRow (s : Permissions) (key : Key) : Option LedgerRow :=
  s.newestRowUpTo key (s.row - 1)

/-- The rows reached from a row number by going from every row to its previous
row. -/
def rowsFrom (s : Permissions) : Nat → Nat → List LedgerRow
  | 0, _ => []
  | fuel + 1, rowID =>
      match s.rowByNumber rowID with
      | none => []
      | some row => row :: rowsFrom s fuel row.prevRow

/-- The newest row of a key and the rows reached from it. -/
def keyRows (s : Permissions) (key : Key) : List LedgerRow :=
  match s.newestRow key with
  | none => []
  | some row => s.rowsFrom s.row row.thisRow

namespace Consistent

variable {s : Permissions} {blocks : List (Address × Hash)} {top : Int}

/-- Row numbers are the positions in the log. -/
theorem rowByNumber_eq (consistent : Consistent s blocks top) (rowID : Nat) :
    s.rowByNumber rowID = Shape.rowAt s.fullLog rowID := by
  have rowsPos := consistent.countLedgerRows_pos
  have liveLength := liveLog_length s
  unfold rowByNumber
  by_cases isZero : rowID = 0
  · rw [rowAt_eq_getElem?, if_pos isZero, if_pos isZero]
  · rw [if_neg isZero]
    change (if rowID < s.countLedgerRows then _ else s.memPool.rows[rowID - s.countLedgerRows]?) = _
    by_cases inLedger : rowID < s.countLedgerRows
    · have inside : rowID < s.ledger.size := lt_of_lt_of_le inLedger consistent.rows_le
      obtain ⟨row, found⟩ : ∃ row, s.ledger.getRow rowID = some row := by
        unfold RowFile.getRow
        rw [if_pos inside]
        exact ⟨_, rfl⟩
      rw [if_pos inLedger, fullLog, rowAt_append_of_le _ (by omega), liveLog,
        rowAt_ledgerLog _ (by omega) (by omega), found]
      rfl
    · rw [if_neg inLedger, rowAt_eq_getElem?, if_neg isZero, fullLog, List.reverse_append,
        List.reverse_reverse, List.getElem?_append_right (by rw [List.length_reverse]; omega),
        List.length_reverse, liveLength]
      congr 1
      omega

/-- A row of the log is stored at its number. -/
theorem storedAt (consistent : Consistent s blocks top) {row : LedgerRow}
    (inLog : row ∈ s.fullLog) : StoredAt s row.thisRow row := by
  have positive : 0 < row.thisRow := consistent.linked.thisRow_pos inLog
  have place : s.rowByNumber row.thisRow = some row := by
    rw [consistent.rowByNumber_eq]
    exact consistent.linked.rowAt_thisRow inLog
  rw [rowByNumber, if_neg positive.ne'] at place
  refine ⟨rfl, ?_⟩
  by_cases inPool : s.row - s.memPool.count ≤ row.thisRow
  · rw [if_pos inPool]
    rwa [if_neg (not_lt.mpr inPool)] at place
  · rw [if_neg inPool]
    rwa [if_pos (not_le.mp inPool)] at place

theorem newestRowUpTo_eq (consistent : Consistent s blocks top) (key : Key)
    {upper lower : List LedgerRow} (log : s.fullLog = upper ++ lower) :
    s.newestRowUpTo key lower.length = newestOf lower key := by
  induction lower generalizing upper with
  | nil => rfl
  | cons row lower ih =>
      have atTop : s.rowByNumber (lower.length + 1) = some row := by
        rw [consistent.rowByNumber_eq, log, rowAt_append_of_le _ (by simp)]
        exact if_pos rfl
      have older := @ih (upper ++ [row]) (by simp [log])
      rw [List.length_cons, newestRowUpTo, atTop, newestOf, List.find?_cons]
      dsimp only
      by_cases sameKey : row.key = key
      · simp [sameKey]
      · rw [if_neg sameKey, decide_eq_false sameKey]
        exact older

/-- The newest row by number is the newest of the log. -/
theorem newestRow_eq (consistent : Consistent s blocks top) (key : Key) :
    s.newestRow key = newestOf s.fullLog key := by
  have length := fullLog_length consistent.rows_pos
  have place : s.row - 1 = s.fullLog.length := by omega
  rw [newestRow, place]
  exact @newestRowUpTo_eq _ _ _ consistent key [] _ rfl

theorem rowsFrom_eq (consistent : Consistent s blocks top) (fuel : Nat) :
    ∀ rowID, s.rowsFrom fuel rowID = linkedRows ledgerShape s.fullLog fuel rowID := by
  induction fuel with
  | zero => exact fun _ => rfl
  | succ fuel ih =>
      intro rowID
      unfold rowsFrom linkedRows
      rw [consistent.rowByNumber_eq]
      cases Shape.rowAt s.fullLog rowID with
      | none => rfl
      | some row => exact congrArg (row :: ·) (ih row.prevRow)

/-- The rows behind the newest row of a key are those linked under the same
key, from that row on. -/
theorem keyRows_eq (consistent : Consistent s blocks top) (key : Key) :
    s.keyRows key = (s.fullLog.dropWhile fun row => row.key ≠ key).filter fun row =>
      linkKey row = if key.type = mcPtpBlockIndex then blockIndexKey 0 else key := by
  have length := fullLog_length consistent.rows_pos
  unfold keyRows
  rw [consistent.newestRow_eq]
  cases found : newestOf s.fullLog key with
  | none =>
      have allOther : s.fullLog.dropWhile (fun row => row.key ≠ key) = [] := by
        rw [List.dropWhile_eq_nil_iff]
        intro row member
        simpa using newestOf_eq_none.1 found row member
      rw [allOther]
      rfl
  | some row =>
      have sameKey := key_of_newestOf found
      obtain ⟨-, upper, lower, log, noneNewer⟩ := List.find?_eq_some_iff_append.1 found
      have dropped : s.fullLog.dropWhile (fun row => row.key ≠ key) = row :: lower := by
        rw [log, List.dropWhile_append_of_pos fun other member => by
          simpa using noneNewer other member]
        simp [sameKey]
      have linked := consistent.linked
      rw [log] at linked
      have enough : lower.length < s.row := by
        rw [log, List.length_append, List.length_cons] at length
        omega
      dsimp only
      rw [consistent.rowsFrom_eq, dropped, log]
      refine (linkedRows_thisRow linked enough).trans ?_
      congr 1
      funext other
      change decide (linkKey other = linkKey row) = _
      rw [← sameKey]
      rfl

theorem keyRows_of_ne (consistent : Consistent s blocks top) {key : Key}
    (notIndex : key.type ≠ mcPtpBlockIndex) :
    s.keyRows key = s.fullLog.filter fun row => row.key = key := by
  rw [consistent.keyRows_eq, if_neg notIndex]
  generalize s.fullLog = log
  simp only [linkKey_eq_iff notIndex]
  induction log with
  | nil => rfl
  | cons row log ih =>
      by_cases sameKey : row.key = key
      · rw [List.dropWhile_cons_of_neg (by simpa using sameKey)]
      · rw [List.dropWhile_cons_of_pos (by simpa using sameKey), ih,
          List.filter_cons_of_neg (by simpa using sameKey)]

theorem keyRows_of_index (consistent : Consistent s blocks top) {key : Key}
    (isIndex : key.type = mcPtpBlockIndex) :
    s.keyRows key = (s.fullLog.dropWhile fun row => row.key ≠ key).filter fun row =>
      row.key.type = mcPtpBlockIndex := by
  rw [consistent.keyRows_eq, if_pos isIndex]
  congr 1
  funext row
  rw [decide_eq_decide]
  unfold linkKey
  split
  · rename_i rowIndex
    exact ⟨fun _ => rowIndex, fun _ => rfl⟩
  · rename_i notIndex
    refine ⟨?_, fun rowIndex => absurd rowIndex notIndex⟩
    intro sameKey
    exact absurd (congrArg Key.type sameKey) notIndex

end Consistent

end Permissions

/-- The rows set in a run, newest first: those in the ledger file, those that wait
for a commit, and the waiting rows at the last checkpoint and at the last
copy. -/
structure SetRows where
  committed : List LedgerRow
  waiting : List LedgerRow
  marked : List LedgerRow
  copied : List LedgerRow

namespace SetRows

/-- Nothing was set yet. -/
def none : SetRows := ⟨[], [], [], []⟩

/-- All rows set and not undone. -/
def rows (set : SetRows) : List LedgerRow := set.waiting ++ set.committed

/-- What a call changes.  Grants put the rows they append in front, a commit
adds the two rows of its block, and a rollback takes away the rows received
above its height. -/
def next (params : NetworkParams) (s : Permissions) (set : SetRows) :
    PermissionCall → SetRows
  | .setPermission grant =>
      { set with
        waiting := ((s.setPermission params grant).1.memPool.rows.drop s.memPool.count).reverse ++
          set.waiting }
  | .setApproval approval =>
      { set with
        waiting := ((s.setApproval params approval).1.memPool.rows.drop s.memPool.count).reverse ++
          set.waiting }
  | .setCheckPoint => { set with marked := set.waiting }
  | .rollBackToCheckPoint => { set with waiting := set.marked }
  | .copyMemPool => { set with copied := set.waiting }
  | .clearMemPool => { set with waiting := [] }
  | .restoreMemPool => { set with waiting := set.copied }
  | .commit miner hash =>
      { set with
        committed := s.countedIndexRow miner hash :: s.countedMinerRow miner hash :: set.rows
        waiting := [] }
  | .rollBack block =>
      { set with
        committed := set.committed.filter fun row => row.blockReceived ≤ block
        waiting := [] }

end SetRows

namespace PermissionRun

/-- The rows set after a sequence of calls. -/
def setRows (params : NetworkParams) : PermissionRun → SetRows → List PermissionCall → SetRows
  | _, set, [] => set
  | run, set, call :: calls =>
      setRows params (run.next params call) (set.next params run.store call) calls

/-- The store holds the rows that were set. -/
structure Holds (run : PermissionRun) (set : SetRows) : Prop where
  committed : run.store.liveLog = set.committed
  waiting : run.store.memPool.rows.reverse = set.waiting
  marked : run.checkPointed = true →
    (run.store.memPool.rows.take run.store.checkPointMemPoolSize).reverse = set.marked
  copied : run.copied = true → run.store.copiedMemPool.rows.reverse = set.copied

namespace Holds

variable {params : NetworkParams} {run : PermissionRun} {set : SetRows}

theorem fullLog (holds : Holds run set) : run.store.fullLog = set.rows := by
  rw [Permissions.fullLog, holds.waiting, holds.committed]
  rfl

theorem start : Holds start SetRows.none where
  committed := rfl
  waiting := rfl
  marked := by
    intro absurdity
    cases absurdity
  copied := by
    intro absurdity
    cases absurdity

private theorem of_grown (holds : Holds run set) (sound : Sound run) {store : Permissions}
    (grown : Permissions.Grown run.store store) :
    Holds { run with store := store }
      { set with
        waiting := (store.memPool.rows.drop run.store.memPool.count).reverse ++ set.waiting } where
  committed := grown.liveLog.trans holds.committed
  waiting := by
    obtain ⟨added, rows⟩ := grown.rows
    have count : run.store.memPool.count = run.store.memPool.rows.length := by simp
    change store.memPool.rows.reverse = _
    rw [← rows, count, List.drop_left, List.reverse_append, holds.waiting]
  marked := fun taken => by
    obtain ⟨added, rows⟩ := grown.rows
    have sizeLe := (sound.checkPointed taken).size_le
    change (store.memPool.rows.take store.checkPointMemPoolSize).reverse = set.marked
    rw [grown.checkPointMemPoolSize, ← rows, List.take_append_of_le_length (by simpa using sizeLe)]
    exact holds.marked taken
  copied := fun taken => by
    change store.copiedMemPool.rows.reverse = set.copied
    rw [grown.copiedMemPool]
    exact holds.copied taken

/-- Every call changes the rows of the store as it changes those that were
set. -/
theorem next (holds : Holds run set) (sound : Sound run) {call : PermissionCall}
    (allowed : run.Allows call) :
    Holds (run.next params call) (set.next params run.store call) := by
  have consistent := sound.consistent
  cases call with
  | setPermission grant =>
      exact holds.of_grown sound (Permissions.grown_setPermission params run.store grant)
  | setApproval approval =>
      exact holds.of_grown sound (Permissions.grown_setApproval params run.store approval)
  | setCheckPoint =>
      exact
        { committed := holds.committed
          waiting := holds.waiting
          marked := fun _ => by
            change (run.store.memPool.rows.take run.store.memPool.count).reverse = set.waiting
            rw [← RowBuffer.rows_length, List.take_length]
            exact holds.waiting
          copied := holds.copied }
  | rollBackToCheckPoint =>
      have checkPointed := sound.checkPointed allowed
      have rows := Permissions.Consistent.rows_rollBackToCheckPoint checkPointed
      exact
        { committed := (consistent.liveLog_rollBackToCheckPoint checkPointed).trans holds.committed
          waiting := by
            change run.store.rollBackToCheckPoint.memPool.rows.reverse = set.marked
            rw [rows]
            exact holds.marked allowed
          marked := fun _ => by
            change (run.store.rollBackToCheckPoint.memPool.rows.take
              run.store.checkPointMemPoolSize).reverse = set.marked
            rw [rows, List.take_take, min_self]
            exact holds.marked allowed
          copied := holds.copied }
  | copyMemPool =>
      exact
        { committed := holds.committed
          waiting := holds.waiting
          marked := holds.marked
          copied := fun _ => by
            change run.store.copyMemPool.copiedMemPool.rows.reverse = set.waiting
            rw [Permissions.rows_copyMemPool]
            exact holds.waiting }
  | clearMemPool =>
      have result := consistent.clearMemPool_result
      exact
        { committed := result.liveLog.trans holds.committed
          waiting := congrArg List.reverse result.rows
          marked := by
            intro absurdity
            cases absurdity
          copied := fun taken => by
            change run.store.clearMemPool.copiedMemPool.rows.reverse = set.copied
            rw [result.copiedMemPool]
            exact holds.copied taken }
  | restoreMemPool =>
      have result := consistent.clearMemPool_result
      exact
        { committed := consistent.liveLog_restoreMemPool.trans holds.committed
          waiting := by
            change run.store.restoreMemPool.memPool.rows.reverse = set.copied
            rw [consistent.rows_restoreMemPool]
            exact holds.copied allowed
          marked := by
            intro absurdity
            cases absurdity
          copied := fun _ => by
            change run.store.clearMemPool.copiedMemPool.rows.reverse = set.copied
            rw [result.copiedMemPool]
            exact holds.copied allowed }
  | commit miner hash =>
      exact
        { committed := by
            change (run.store.commit params miner hash).liveLog = _ :: _ :: set.rows
            rw [consistent.liveLog_commit, holds.fullLog]
          waiting := congrArg List.reverse (consistent.rows_commit params miner hash)
          marked := by
            intro absurdity
            cases absurdity
          copied := by
            intro absurdity
            cases absurdity }
  | rollBack block =>
      obtain ⟨segment, rest, log, -, undone, kept⟩ := consistent.splitAt allowed.1 allowed.2
      have result := consistent.rollBack_result log undone kept
      have cleared := consistent.clearMemPool_result
      exact
        { committed := by
            change (run.store.rollBack block).liveLog =
              set.committed.filter fun row => row.blockReceived ≤ block
            rw [Permissions.Consistent.liveLog_of_rollBackResult (cleared.liveLog.trans log) result,
              ← holds.committed, log, List.filter_append, List.filter_eq_nil_iff.2,
              List.filter_eq_self.2, List.nil_append]
            · intro row member
              simpa using kept row member
            · intro row member
              simpa using undone row member
          waiting := congrArg List.reverse result.rows
          marked := by
            intro absurdity
            cases absurdity
          copied := by
            intro absurdity
            cases absurdity }

/-- In every run the store holds exactly what was set and not undone. -/
theorem after {calls : List PermissionCall} (holds : Holds run set) (sound : Sound run)
    (follows : Follows params Allows run calls) :
    Holds (run.after params calls) (run.setRows params set calls) := by
  induction calls generalizing run set with
  | nil => exact holds
  | cons call calls ih =>
      exact ih (holds.next sound follows.1) (sound.next follows.1) follows.2

end Holds

/-- Height rows have empty ranges, also those that a rollback left in the
database. -/
structure EmptyHeights (s : Permissions) : Prop where
  log : ∀ row ∈ s.liveLog, row.key.type = mcPtpBlockIndex → row.blockFrom = row.blockTo
  database : ∀ height pdbRow, s.readRow (blockIndexKey height) = some pdbRow →
    pdbRow.blockFrom = pdbRow.blockTo

namespace EmptyHeights

variable {params : NetworkParams} {run : PermissionRun}

theorem start : EmptyHeights start.store where
  log := by
    intro row member
    cases member
  database := by
    intro height pdbRow found
    have notZero : blockIndexKey height ≠ zeroKey := by simp [blockIndexKey, zeroKey]
    have absent := (Permissions.readRow_initial (blockIndexKey height)).trans (if_neg notZero)
    exact absurd (found.symm.trans absent) (Option.some_ne_none _)

private theorem of_sameFiles {s other : Permissions} (empty : EmptyHeights s)
    (files : other.toPermissionFiles = s.toPermissionFiles) (log : other.liveLog = s.liveLog) :
    EmptyHeights other where
  log := by
    rw [log]
    exact empty.log
  database := by
    rw [files]
    exact empty.database

private theorem commit (empty : EmptyHeights run.store) (sound : Sound run) (miner : Address)
    (hash : Hash) : EmptyHeights (run.store.commit params miner hash) := by
  have consistent := sound.consistent
  have log : ∀ row ∈ (run.store.commit params miner hash).liveLog,
      row.key.type = mcPtpBlockIndex → row.blockFrom = row.blockTo := by
    rw [consistent.liveLog_commit]
    intro row member isIndex
    simp only [Permissions.fullLog, List.mem_cons, List.mem_append, List.mem_reverse] at member
    rcases member with rfl | rfl | inPool | inLog
    · rfl
    · rfl
    · exact absurd isIndex (consistent.memPool_not_index row inPool)
    · exact empty.log row inLog isIndex
  refine ⟨log, ?_⟩
  intro height pdbRow found
  by_cases above : run.store.block + 1 < height
  · rw [consistent.readRow_commit_above params miner hash above] at found
    exact empty.database height pdbRow found
  · have notZero : blockIndexKey height ≠ zeroKey := by simp [blockIndexKey, zeroKey]
    have matched := consistent.database_commit params miner hash notZero fun other higher sameKey => by
      have : height = other := RowAddress.blockRow.inj (congrArg Key.address sameKey)
      omega
    rw [← consistent.liveLog_commit params, found] at matched
    cases newest : Permissions.newestOf (run.store.commit params miner hash).liveLog
        (blockIndexKey height) with
    | none =>
        rw [newest] at matched
        exact matched.elim
    | some row =>
        rw [newest] at matched
        have isIndex : row.key.type = mcPtpBlockIndex := by
          rw [Permissions.key_of_newestOf newest]
          rfl
        rw [matched.1, matched.2.1]
        exact log row (List.mem_of_find?_eq_some newest) isIndex

private theorem rollBack (empty : EmptyHeights run.store) (sound : Sound run) {block : Int}
    (low : -1 ≤ block) (high : block ≤ run.store.block) :
    EmptyHeights (run.store.rollBack block) := by
  have consistent := sound.consistent
  obtain ⟨segment, rest, log, -, undone, kept⟩ := consistent.splitAt low high
  have result := consistent.rollBack_result log undone kept
  have cleared := consistent.clearMemPool_result
  constructor
  · rw [Permissions.Consistent.liveLog_of_rollBackResult (cleared.liveLog.trans log) result]
    intro row member
    exact empty.log row (by rw [log]; exact List.mem_append_right _ member)
  · intro height pdbRow found
    have notZero : blockIndexKey height ≠ zeroKey := by simp [blockIndexKey, zeroKey]
    rw [result.readRow _ notZero, cleared.files] at found
    cases oldest : Permissions.newestOf segment.reverse (blockIndexKey height) with
    | none =>
        rw [oldest] at found
        exact empty.database height pdbRow found
    | some row =>
        rw [oldest] at found
        have isIndex : row.key.type = mcPtpBlockIndex := by
          rw [Permissions.key_of_newestOf oldest]
          rfl
        have member : row ∈ run.store.liveLog := by
          rw [log]
          exact List.mem_append_left _ (List.mem_reverse.1 (List.mem_of_find?_eq_some oldest))
        dsimp only at found
        unfold Permissions.undoneRow at found
        by_cases isFirst : row.prevRow = 0
        · rw [if_pos isFirst] at found
          cases found
        · obtain ⟨prev, prevMem, place, sameLink⟩ :=
            consistent.liveLinked.exists_prev member isFirst
          have prevIndex : prev.key.type = mcPtpBlockIndex := by
            by_contra notIndex
            have sameKey : linkKey prev = linkKey row := sameLink
            rw [linkKey_of_ne notIndex, linkKey, if_pos isIndex] at sameKey
            exact notIndex (congrArg Key.type sameKey)
          have stored := consistent.stored prev prevMem
          rw [show prev.thisRow = row.prevRow from place] at stored
          rw [if_neg isFirst, stored] at found
          cases found
          exact empty.log prev prevMem prevIndex

theorem next (empty : EmptyHeights run.store) (sound : Sound run) {call : PermissionCall}
    (allowed : run.Allows call) : EmptyHeights (run.next params call).store := by
  have consistent := sound.consistent
  cases call with
  | setPermission grant =>
      have grown := Permissions.grown_setPermission params run.store grant
      exact empty.of_sameFiles grown.files grown.liveLog
  | setApproval approval =>
      have grown := Permissions.grown_setApproval params run.store approval
      exact empty.of_sameFiles grown.files grown.liveLog
  | setCheckPoint => exact empty.of_sameFiles rfl rfl
  | rollBackToCheckPoint =>
      exact empty.of_sameFiles rfl
        (consistent.liveLog_rollBackToCheckPoint (sound.checkPointed allowed))
  | copyMemPool => exact empty.of_sameFiles rfl rfl
  | clearMemPool =>
      have result := consistent.clearMemPool_result
      exact empty.of_sameFiles result.files result.liveLog
  | restoreMemPool =>
      exact empty.of_sameFiles consistent.clearMemPool_result.files
        consistent.liveLog_restoreMemPool
  | commit miner hash => exact empty.commit sound miner hash
  | rollBack block => exact empty.rollBack sound allowed.1 allowed.2

end EmptyHeights

private theorem Sound.type_ne_zero {run : PermissionRun} (sound : Sound run) :
    ∀ row ∈ run.store.fullLog, row.key.type ≠ 0 := by
  have consistent := sound.consistent
  have positive : ∀ type ∈ grantableTypes, type ≠ 0 := by decide
  intro row member
  rcases List.mem_append.1 member with inPool | inLog
  · exact positive _ (consistent.memRows row (List.mem_reverse.1 inPool)).type_mem
  · rcases consistent.blockLog.key_cases row inLog with granted | ⟨miner, minerKey⟩ | isIndex
    · exact positive _ granted
    · rw [minerKey]
      simp [blockMinerKey, nullKey, mcPtpBlockMiner]
    · rw [isIndex]
      decide

/-- A key is allowed exactly when its newest row covers the next height. -/
theorem Sound.getPermission_ne_zero_iff {run : PermissionRun} (sound : Sound run)
    (empty : EmptyHeights run.store) (key : Key) :
    run.store.getPermission key true ≠ 0 ↔
      ∃ row, run.store.newestRow key = some row ∧ row.blockFrom ≤ run.store.block + 1 ∧
        run.store.block + 1 < row.blockTo := by
  have consistent := sound.consistent
  rw [consistent.newestRow_eq]
  have typed : ∀ row, Permissions.newestOf run.store.fullLog key = some row → key.type ≠ 0 := by
    intro row found
    rw [← Permissions.key_of_newestOf found]
    exact sound.type_ne_zero row (List.mem_of_find?_eq_some found)
  by_cases noType : key.type = 0
  · have answer : run.store.getPermission key true = 0 := by
      unfold Permissions.getPermission
      rw [noType, ite_self]
    rw [answer]
    constructor
    · intro absurdity
      exact absurd rfl absurdity
    · rintro ⟨row, found, -⟩
      exact absurd noType (typed row found)
  have answer : run.store.getPermission key true ≠ 0 ↔
      (run.store.getPermissionRow key true).inBlockRange run.store.block = true := by
    unfold Permissions.getPermission
    split
    · rename_i inRange
      exact ⟨fun _ => inRange, fun _ => noType⟩
    · rename_i outside
      exact ⟨fun absurdity => absurd rfl absurdity, fun inRange => absurd inRange outside⟩
  rw [answer]
  by_cases above : run.store.AboveTip key
  · obtain ⟨height, higher, rfl⟩ := above
    have noRow : Permissions.newestOf run.store.fullLog (blockIndexKey height) = none := by
      rw [Permissions.newestOf_eq_none]
      intro row member sameKey
      have isIndex : row.key.type = mcPtpBlockIndex := congrArg Key.type sameKey
      rcases List.mem_append.1 member with inPool | inLog
      · exact consistent.memPool_not_index row (List.mem_reverse.1 inPool) isIndex
      · have own := (consistent.blockLog.index_row consistent.liveLinked row inLog isIndex).1
        have received : row.blockReceived = height :=
          RowAddress.blockRow.inj (congrArg Key.address (own.symm.trans sameKey))
        have below := consistent.blockLog.received_lt row inLog
        have heightEq := consistent.height
        omega
    rw [noRow, consistent.getPermissionRow_blockIndex]
    have emptyRange : (run.store.getPermissionRow (blockIndexKey height) false).blockFrom =
        (run.store.getPermissionRow (blockIndexKey height) false).blockTo := by
      cases found : run.store.readRow (blockIndexKey height) with
      | none =>
          rw [Permissions.getPermissionRow, Permissions.databaseRow_of_absent found]
          rfl
      | some pdbRow =>
          rw [Permissions.getPermissionRow, Permissions.databaseRow_of_present consistent.fork
            found (by simp [blockIndexKey])]
          exact empty.database height pdbRow found
    simp only [LedgerRow.inBlockRange, decide_eq_true_eq, emptyRange]
    constructor
    · rintro ⟨from_le, lt_to⟩
      omega
    · rintro ⟨row, absurdity, -⟩
      cases absurdity
  · have notZero : key ≠ zeroKey := by
      rintro rfl
      exact noType rfl
    rw [Permissions.inBlockRange_of_reports (consistent.getPermissionRow_true notZero above)]
    cases Permissions.newestOf run.store.fullLog key with
    | none => simp
    | some row => simp [LedgerRow.inBlockRange]

/-- Answers and links agree with the rows that were set: the newest row of a key
decides, and behind it come the rows of the key.  Behind a height row come the
rows of the heights below. -/
structure NewestRowRules (run : PermissionRun) (set : SetRows) : Prop where
  answers : ∀ key, run.store.getPermission key true ≠ 0 ↔
    ∃ row, run.store.newestRow key = some row ∧ row.blockFrom ≤ run.store.block + 1 ∧
      run.store.block + 1 < row.blockTo
  keyRows : ∀ key, key.type ≠ mcPtpBlockIndex →
    run.store.keyRows key = set.rows.filter fun row => row.key = key
  heightRows : ∀ key, key.type = mcPtpBlockIndex →
    run.store.keyRows key = (set.rows.dropWhile fun row => row.key ≠ key).filter fun row =>
      row.key.type = mcPtpBlockIndex

theorem EmptyHeights.after {params : NetworkParams} {run : PermissionRun}
    {calls : List PermissionCall} (empty : EmptyHeights run.store) (sound : Sound run)
    (follows : Follows params Allows run calls) :
    EmptyHeights (run.after params calls).store :=
  (after_induction (motive := fun run => Sound run ∧ EmptyHeights run.store)
    (fun _ _ allowed holds => ⟨holds.1.next allowed, holds.2.next holds.1 allowed⟩)
    ⟨sound, empty⟩ follows).2

/-- In every run the newest row of a key decides, and it leads back through the
rows that were set for the key. -/
theorem newestRow_decides (params : NetworkParams) (calls : List PermissionCall)
    (follows : Follows params Allows start calls) :
    NewestRowRules (start.after params calls) (start.setRows params SetRows.none calls) := by
  have sound := sound_start.after follows
  have consistent := sound.consistent
  have holds := Holds.start.after sound_start follows
  have empty := EmptyHeights.start.after sound_start follows
  refine ⟨fun key => sound.getPermission_ne_zero_iff empty key, ?_, ?_⟩
  · intro key notIndex
    rw [consistent.keyRows_of_ne notIndex, holds.fullLog]
  · intro key isIndex
    rw [consistent.keyRows_of_index isIndex, holds.fullLog]

/-- A grant in the first of two blocks, of which the second is rolled back. -/
def grantBelowRollBack : List PermissionCall :=
  [.setPermission
      { entity := .null
        address := 9
        type := mcPtpSend
        admin := 7
        blockFrom := 0
        blockTo := 100
        timestamp := 5
        flags := 0
        updateMempool := true
        offset := 0 },
    .commit 7 1, .commit 8 2, .rollBack 0]

theorem newestRow_decides_grantBelowRollBack :
    NewestRowRules (start.after Permissions.unanimous grantBelowRollBack)
      (start.setRows Permissions.unanimous SetRows.none grantBelowRollBack) :=
  newestRow_decides Permissions.unanimous grantBelowRollBack
    ⟨trivial, trivial, trivial, ⟨by decide +kernel, by decide +kernel⟩, trivial⟩

/-- The row of the second height leads back to the row of the first, which has
another key. -/
theorem heightRow_leads_to_otherKey :
    ¬ ∀ (params : NetworkParams) (calls : List PermissionCall),
      Follows params Allows start calls → ∀ key : Key,
        (start.after params calls).store.keyRows key =
          (start.setRows params SetRows.none calls).rows.filter fun row => row.key = key := by
  intro everyKey
  have lengths := congrArg List.length (everyKey Permissions.unanimous [.commit 7 1, .commit 8 2]
    ⟨trivial, trivial, trivial⟩ (blockIndexKey 1))
  have reached : ((start.after Permissions.unanimous [.commit 7 1, .commit 8 2]).store.keyRows
      (blockIndexKey 1)).length = 2 := rfl
  have ownRows : ((start.setRows Permissions.unanimous SetRows.none
      [.commit 7 1, .commit 8 2]).rows.filter fun row => row.key = blockIndexKey 1).length = 1 :=
    rfl
  rw [reached, ownRows] at lengths
  cases lengths

end PermissionRun

end HdacNode
