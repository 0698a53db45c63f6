import HdacNode.GovernanceFlags
import HdacNode.PermissionBlockIndex

/-!
# The search for a change of the governance model

`FindGovernanceModelChange` goes down the height rows of the ledger, from the
upper end of its range to the first flagged one.  It clamps the upper end to
the current height with a signed comparison, so an end beyond the positive
integers is not clamped, and without any block the clamped end is the largest
unsigned number.
-/

namespace HdacNode

open LinkedRowLog

namespace Permissions

/-- The check of `m_BlockFlags` in `FindGovernanceModelChange`. -/
def isGovernanceChange (row : LedgerRow) : Bool :=
  toUInt32 row.blockFlags &&& mcPfbGovernanceChange ≠ 0

/-- The loop of `FindGovernanceModelChange`: the heights left to look at, the
current height and its row. -/
def governanceWalk (s : Permissions) : Nat → Nat → Nat → Nat
  | 0, _, _ => 0
  | rounds + 1, block, lastBlockRow =>
      let row := s.ledgerRowAt lastBlockRow
      if isGovernanceChange row then block
      else governanceWalk s rounds (block - 1) row.prevRow

/-- `FindGovernanceModelChange`. -/
def findGovernanceModelChange (s : Permissions) (fromBlock toBlock : Nat) : Nat :=
  let start := if fromBlock = 0 then 1 else fromBlock
  let block := if s.block < wrapInt32 toBlock then toUInt32 s.block else toBlock
  if block < fromBlock then 0
  else
    s.governanceWalk (block + 1 - start) block
      (s.getPermissionRow (blockIndexKey block) true).thisRow

end Permissions

namespace BlockLog

theorem index_prev {log : List LedgerRow} {blocks : List (Address × Hash)}
    (blockLog : BlockLog log blocks) (linked : ledgerShape.Linked log) :
    ∀ row ∈ log, row.key.type = mcPtpBlockIndex → row.blockReceived ≠ 0 →
      ∃ prev ∈ log, prev.thisRow = row.prevRow ∧ prev.key.type = mcPtpBlockIndex ∧
        prev.blockReceived = row.blockReceived - 1 := by
  induction blockLog with
  | genesis => simp
  | @block log grants blocks minerRow indexRow miner hash older grantRows minerKey
      minerReceived indexKey indexReceived indexHash ih =>
      intro row member isIndex notFirst
      simp only [List.mem_cons, List.mem_append] at member
      have olderLinked : ledgerShape.Linked log := by
        have : indexRow :: minerRow :: (grants ++ log) =
            (indexRow :: minerRow :: grants) ++ log := rfl
        rw [this] at linked
        exact linked.of_append
      rcases member with rfl | rfl | inGrants | inOlder
      · have below := prevRow_indexRow older grantRows minerKey isIndex linked
        cases older with
        | genesis => exact absurd indexReceived notFirst
        | @block log grants blocks minerRow prev miner hash _ _ _ _ prevKey prevReceived =>
            have place : prev.thisRow = (minerRow :: (grants ++ log)).length + 1 := olderLinked.1
            refine ⟨prev, by simp, place.trans below.symm, congrArg Key.type prevKey, ?_⟩
            rw [prevReceived, indexReceived, List.length_cons]
            omega
      · rw [minerKey] at isIndex
        exact absurd isIndex (blockMinerKey_type_ne miner)
      · exact absurd isIndex (grantRows row inGrants).type_ne_blockIndex
      · obtain ⟨prev, prevMem, place, prevIndex, received⟩ :=
          ih olderLinked row inOlder isIndex notFirst
        exact ⟨prev, by simp [prevMem], place, prevIndex, received⟩

end BlockLog

namespace PermissionRun

open Permissions

/-- What a call does to the flagged heights of the chain. -/
def nextFlagged (s : Permissions) (heights : List Int) : PermissionCall → List Int
  | .commit _ _ =>
      if s.calculateBlockFlags &&& mcPfbGovernanceChange ≠ 0 then (s.block + 1) :: heights
      else heights
  | .rollBack block => heights.filter fun height => height ≤ block
  | _ => heights

theorem nextFlagged_commit (s : Permissions) (heights : List Int) (miner : Address)
    (hash : Hash) :
    nextFlagged s heights (.commit miner hash) =
      if s.calculateBlockFlags &&& mcPfbGovernanceChange ≠ 0 then (s.block + 1) :: heights
      else heights :=
  rfl

/-- The flagged heights of the chain after a sequence of calls. -/
def flaggedHeights (params : NetworkParams) : PermissionRun → List Int → List PermissionCall →
    List Int
  | _, heights, [] => heights
  | run, heights, call :: calls =>
      flaggedHeights params (run.next params call) (nextFlagged run.store heights call) calls

/-- The height rows carry the flags of the commits. -/
structure Flags (s : Permissions) (heights : List Int) : Prop where
  rows : ∀ row ∈ s.liveLog, row.key.type = mcPtpBlockIndex →
    (isGovernanceChange row = true ↔ row.blockReceived ∈ heights)
  bounds : ∀ height ∈ heights, 0 ≤ height ∧ height ≤ s.block

namespace Flags

variable {params : NetworkParams} {run : PermissionRun} {heights : List Int}

theorem start : Flags start.store [] where
  rows := by
    intro row member
    cases member
  bounds := by
    intro height member
    cases member

private theorem of_sameLog {s other : Permissions} (flags : Flags s heights)
    (log : other.liveLog = s.liveLog) (block : other.block = s.block) : Flags other heights where
  rows := by
    rw [log]
    exact flags.rows
  bounds := by
    rw [block]
    exact flags.bounds

private theorem isGovernanceChange_countedIndexRow (s : Permissions) (miner : Address)
    (hash : Hash) :
    isGovernanceChange (s.countedIndexRow miner hash) = true ↔
      s.calculateBlockFlags &&& mcPfbGovernanceChange ≠ 0 := by
  have offset : (s.countedIndexRow miner hash).blockFlags = (s.newBlockFlags miner : Nat) := rfl
  unfold isGovernanceChange
  rw [offset, decide_eq_true_iff, newBlockFlags]
  have mined : ∀ flags : Nat, flags &&& mcPfbMinedBefore = 0 ∨ flags &&& mcPfbMinedBefore = 1 := by
    intro flags
    rw [show mcPfbMinedBefore = 1 from rfl, Nat.and_one_is_mod]
    omega
  have calculated : s.calculateBlockFlags = mcPfbGovernanceChange ∨
      s.calculateBlockFlags = mcPfbNone := by
    unfold calculateBlockFlags
    split
    · exact .inl rfl
    · exact .inr rfl
  rcases mined (s.getPermissionRow (blockMinerKey miner) true).blockFlags.toNat with old | old <;>
    rcases calculated with new | new <;> rw [old, new] <;> decide

private theorem commit (flags : Flags run.store heights) (sound : Sound run) (miner : Address)
    (hash : Hash) :
    Flags (run.store.commit params miner hash)
      (nextFlagged run.store heights (.commit miner hash)) := by
  have consistent := sound.consistent
  have low := consistent.block_ge
  have heightEq := consistent.height
  have block := (consistent.commitResult params miner hash).block
  rw [nextFlagged_commit]
  constructor
  · rw [consistent.liveLog_commit]
    intro row member isIndex
    simp only [Permissions.fullLog, List.mem_cons, List.mem_append, List.mem_reverse] at member
    rcases member with rfl | rfl | inPool | inLog
    · rw [isGovernanceChange_countedIndexRow]
      have received : (run.store.countedIndexRow miner hash).blockReceived =
          run.store.block + 1 := rfl
      rw [received]
      have unlisted : run.store.block + 1 ∉ heights := by
        intro listed
        have := (flags.bounds _ listed).2
        omega
      split
      · rename_i flagged
        exact ⟨fun _ => List.mem_cons_self .., fun _ => flagged⟩
      · rename_i unflagged
        exact ⟨fun flagged => absurd flagged unflagged, fun listed => absurd listed unlisted⟩
    · exact absurd isIndex (blockMinerKey_type_ne miner)
    · exact absurd isIndex (consistent.memPool_not_index row inPool)
    · have below := consistent.blockLog.received_lt row inLog
      rw [flags.rows row inLog isIndex]
      split
      · have other : row.blockReceived ≠ run.store.block + 1 := by omega
        rw [List.mem_cons, or_iff_right other]
      · rfl
  · intro height member
    rw [block]
    have inside : height = run.store.block + 1 ∨ height ∈ heights := by
      split at member
      · exact List.mem_cons.1 member
      · exact .inr member
    rcases inside with rfl | listed
    · omega
    · have := flags.bounds height listed
      omega

private theorem rollBack (flags : Flags run.store heights) (sound : Sound run) {block : Int}
    (low : -1 ≤ block) (high : block ≤ run.store.block) :
    Flags (run.store.rollBack block) (nextFlagged run.store heights (.rollBack block)) := by
  have consistent := sound.consistent
  obtain ⟨segment, rest, log, -, undone, kept⟩ := consistent.splitAt low high
  have result := consistent.rollBack_result log undone kept
  have cleared := consistent.clearMemPool_result
  constructor
  · rw [Consistent.liveLog_of_rollBackResult (cleared.liveLog.trans log) result]
    intro row member isIndex
    have received := kept row member
    rw [flags.rows row (by rw [log]; exact List.mem_append_right _ member) isIndex]
    simp [nextFlagged, received]
  · intro height member
    rw [result.block]
    obtain ⟨listed, below⟩ := List.mem_filter.1 member
    exact ⟨(flags.bounds height listed).1, by simpa using below⟩

theorem next (flags : Flags run.store heights) (sound : Sound run) {call : PermissionCall}
    (allowed : run.Allows call) :
    Flags (run.next params call).store (nextFlagged run.store heights call) := by
  have consistent := sound.consistent
  cases call with
  | setPermission grant =>
      have grown := grown_setPermission params run.store grant
      exact flags.of_sameLog grown.liveLog grown.block
  | setApproval approval =>
      have grown := grown_setApproval params run.store approval
      exact flags.of_sameLog grown.liveLog grown.block
  | setCheckPoint => exact flags.of_sameLog rfl rfl
  | rollBackToCheckPoint =>
      exact flags.of_sameLog
        (consistent.liveLog_rollBackToCheckPoint (sound.checkPointed allowed)) rfl
  | copyMemPool => exact flags.of_sameLog rfl rfl
  | clearMemPool =>
      have result := consistent.clearMemPool_result
      exact flags.of_sameLog result.liveLog result.block
  | restoreMemPool =>
      exact flags.of_sameLog consistent.liveLog_restoreMemPool
        consistent.clearMemPool_result.block
  | commit miner hash => exact flags.commit sound miner hash
  | rollBack block => exact flags.rollBack sound allowed.1 allowed.2

theorem after {calls : List PermissionCall} (flags : Flags run.store heights) (sound : Sound run)
    (follows : Follows params Allows run calls) :
    Flags (run.after params calls).store (run.flaggedHeights params heights calls) := by
  induction calls generalizing run heights with
  | nil => exact flags
  | cons call calls ih =>
      exact ih (flags.next sound follows.1) (sound.next follows.1) follows.2

end Flags

/-- The answer of a search: the largest flagged height of a range, or zero when
there is none. -/
def LastFlagged (heights : List Int) (low high : Int) (found : Nat) : Prop :=
  IsGreatest {height | height ∈ heights ∧ low ≤ height ∧ height ≤ high} (found : Int) ∨
    (found = 0 ∧ ∀ height ∈ heights, ¬ (low ≤ height ∧ height ≤ high))

theorem Flags.governanceWalk_lastFlagged {run : PermissionRun} {heights : List Int}
    (flags : Flags run.store heights) (sound : Sound run) (rounds : Nat) :
    ∀ (block : Nat) (row : LedgerRow), row ∈ run.store.liveLog →
      row.key.type = mcPtpBlockIndex → row.blockReceived = block → rounds ≤ block →
      LastFlagged heights (block + 1 - rounds) block
        (run.store.governanceWalk rounds block row.thisRow) := by
  have consistent := sound.consistent
  induction rounds with
  | zero =>
      intro block row _ _ _ _
      exact .inr ⟨rfl, fun height _ between => by omega⟩
  | succ rounds ih =>
      intro block row member isIndex received enough
      have stored := consistent.stored row member
      have flag := flags.rows row member isIndex
      rw [received] at flag
      unfold governanceWalk
      rw [stored]
      dsimp only
      split
      · rename_i flagged
        refine .inl ⟨⟨flag.1 flagged, by omega, le_rfl⟩, ?_⟩
        rintro height ⟨-, -, below⟩
        exact below
      · rename_i unflagged
        have unlisted : (block : Int) ∉ heights := fun listed => unflagged (flag.2 listed)
        obtain ⟨prev, prevMem, place, prevIndex, prevReceived⟩ :=
          consistent.blockLog.index_prev consistent.liveLinked row member isIndex (by omega)
        have cast : ((block - 1 : Nat) : Int) = (block : Int) - 1 := by omega
        have found := ih (block - 1) prev prevMem prevIndex (by rw [prevReceived]; omega)
          (by omega)
        rw [place, cast] at found
        have narrowed : ∀ height ∈ heights,
            ((block : Int) - 1 + 1 - rounds ≤ height ∧ height ≤ (block : Int) - 1) ↔
              ((block : Int) + 1 - (rounds + 1 : Nat) ≤ height ∧ height ≤ block) := by
          intro height listed
          have : height ≠ block := fun isBlock => unlisted (isBlock ▸ listed)
          omega
        rcases found with ⟨inside, greatest⟩ | ⟨none, outside⟩
        · refine .inl ⟨⟨inside.1, (narrowed _ inside.1).1 inside.2⟩, ?_⟩
          rintro height ⟨listed, between⟩
          exact greatest ⟨listed, (narrowed height listed).2 between⟩
        · exact .inr ⟨none, fun height listed between =>
            outside height listed ((narrowed height listed).2 between)⟩

/-- The ranges that the search clamps to the chain: the upper end is a positive
`int` and there is a block, or the range is empty anyway. -/
def Searchable (block : Int) (fromBlock toBlock : Nat) : Prop :=
  (0 ≤ block ∧ toBlock < 2 ^ 31) ∨ (2 ^ 31 ≤ toBlock ∧ toBlock < 2 ^ 32 ∧ toBlock < fromBlock)

private theorem wrapInt32_of_lt {value : Nat} (below : value < 2 ^ 31) :
    wrapInt32 value = value := by
  unfold wrapInt32
  rw [Int.bmod_eq_of_le] <;> omega

theorem Flags.findGovernanceModelChange_lastFlagged {run : PermissionRun} {heights : List Int}
    (flags : Flags run.store heights) (sound : Sound run) {fromBlock toBlock : Nat}
    (searchable : Searchable run.store.block fromBlock toBlock) :
    LastFlagged heights (max fromBlock 1) (min toBlock run.store.block)
      (run.store.findGovernanceModelChange fromBlock toBlock) := by
  have consistent := sound.consistent
  have low := consistent.block_ge
  have heightEq := consistent.height
  unfold findGovernanceModelChange
  dsimp only
  rcases searchable with ⟨nonneg, small⟩ | ⟨large, inWord, emptyRange⟩
  · have clamped : ((if run.store.block < wrapInt32 toBlock then toUInt32 run.store.block
        else toBlock : Nat) : Int) = min (toBlock : Int) run.store.block := by
      rw [wrapInt32_of_lt small]
      split
      · unfold toUInt32
        omega
      · omega
    generalize (if run.store.block < wrapInt32 toBlock then toUInt32 run.store.block
      else toBlock) = block at clamped ⊢
    rw [← clamped]
    split
    · exact .inr ⟨rfl, fun height _ between => by omega⟩
    · obtain ⟨row, newest⟩ : ∃ row, newestOf run.store.liveLog (blockIndexKey block) = some row := by
        obtain ⟨other, member, otherKey⟩ :=
          @BlockLog.exists_index_row _ _ consistent.blockLog block (by omega)
        refine Option.ne_none_iff_exists'.1 fun absent => ?_
        exact newestOf_eq_none.1 absent other member otherKey
      have member := List.mem_of_find?_eq_some newest
      have rowKey := key_of_newestOf newest
      have isIndex : row.key.type = mcPtpBlockIndex := congrArg Key.type rowKey
      have received : row.blockReceived = block :=
        RowAddress.blockRow.inj (congrArg Key.address
          ((consistent.blockLog.index_row consistent.liveLinked row member isIndex).1.symm.trans
            rowKey))
      have notZero : blockIndexKey block ≠ zeroKey := by simp [blockIndexKey, zeroKey]
      have notAbove : ¬ run.store.AboveTip (blockIndexKey block) := by
        rintro ⟨above, higher, sameKey⟩
        have : (block : Int) = above := RowAddress.blockRow.inj (congrArg Key.address sameKey)
        omega
      have reports := consistent.getPermissionRow_false notZero notAbove
      rw [newest, ← consistent.getPermissionRow_blockIndex] at reports
      rw [reports.2.2]
      have start : (if fromBlock = 0 then 1 else fromBlock) = max fromBlock 1 := by
        split <;> omega
      rw [start]
      have found := flags.governanceWalk_lastFlagged sound (block + 1 - max fromBlock 1) block row
        member isIndex received (by omega)
      have lowEnd : (block : Int) + 1 - (block + 1 - max fromBlock 1 : Nat) =
          max (fromBlock : Int) 1 := by omega
      rwa [lowEnd] at found
  · have unclamped : ¬ run.store.block < wrapInt32 toBlock := by
      have wrapped : wrapInt32 toBlock = (toBlock : Int) - 2 ^ 32 := by
        unfold wrapInt32
        rw [Int.bmod_def]
        omega
      omega
    rw [if_neg unclamped, if_pos emptyRange]
    exact .inr ⟨rfl, fun height _ between => by omega⟩

/-- What the flags of a store tell: a commit without the flag keeps the
answers above its height, and searches find the flagged heights. -/
structure SoundFlags (params : NetworkParams) (s : Permissions) (heights : List Int) : Prop where
  kept : ∀ miner hash, s.calculateBlockFlags &&& mcPfbGovernanceChange = 0 →
    ∀ address type, type = mcPtpAdmin ∨ type = mcPtpMine → ∀ height, s.block + 1 < height →
      (s.commit params miner hash).answerAt (nullKey address type) height =
        s.answerAt (nullKey address type) height
  found : ∀ fromBlock toBlock, Searchable s.block fromBlock toBlock →
    LastFlagged heights (max fromBlock 1) (min toBlock s.block)
      (s.findGovernanceModelChange fromBlock toBlock)

/-- In every run the flags are sound. -/
theorem governanceFlags_sound (params : NetworkParams) (calls : List PermissionCall)
    (follows : Follows params Allows start calls) :
    SoundFlags params (start.after params calls).store (start.flaggedHeights params [] calls) := by
  have sound := sound_start.after follows
  have carries := CarriesRanges.start.after sound_start follows
  have flags := Flags.start.after sound_start follows
  constructor
  · intro miner hash unflagged address type isCounted height above
    exact sound.consistent.answerAt_commit carries.memPool params miner hash unflagged address
      isCounted above
  · intro fromBlock toBlock searchable
    exact flags.findGovernanceModelChange_lastFlagged sound searchable

/-- A chain permission of an address without end. -/
def openGrant (address : Address) (type : Nat) : Grant where
  entity := .null
  address := address
  type := type
  admin := 7
  blockFrom := 0
  blockTo := openRange
  timestamp := 5
  flags := 0
  updateMempool := true
  offset := 0

/-- The second block makes another address a miner. -/
def secondMiner : List PermissionCall :=
  [.setPermission (openGrant 7 mcPtpAdmin), .commit 7 1, .setPermission (openGrant 8 mcPtpMine),
    .commit 7 2]

theorem follows_secondMiner : Follows Permissions.unanimous Allows start secondMiner :=
  ⟨trivial, trivial, trivial, trivial, trivial⟩

theorem governanceFlags_sound_secondMiner :
    SoundFlags Permissions.unanimous (start.after Permissions.unanimous secondMiner).store
      (start.flaggedHeights Permissions.unanimous [] secondMiner) :=
  governanceFlags_sound Permissions.unanimous secondMiner follows_secondMiner

/-- A walk that reaches the header row does not leave it and the empty row behind
the file. -/
theorem governanceWalk_header {s : Permissions}
    (header : isGovernanceChange (s.ledgerRowAt 0) = false)
    (behind : s.ledgerRowAt (s.ledgerRowAt 0).prevRow = LedgerRow.zero) (rounds block : Nat) :
    s.governanceWalk rounds block 0 = 0 ∧
      s.governanceWalk rounds block (s.ledgerRowAt 0).prevRow = 0 := by
  induction rounds generalizing block with
  | zero => exact ⟨rfl, rfl⟩
  | succ rounds ih =>
      have zeroUnflagged : isGovernanceChange LedgerRow.zero = false := by decide
      constructor
      · rw [governanceWalk]
        simp only [header]
        exact (ih (block - 1)).2
      · rw [governanceWalk]
        simp only [behind, zeroUnflagged]
        exact (ih (block - 1)).1

/-- A search up to a height beyond the positive integers misses the flagged
block. -/
theorem unclamped_search_misses :
    ¬ ∀ (params : NetworkParams) (calls : List PermissionCall),
      Follows params Allows start calls → ∀ fromBlock toBlock : Nat,
        fromBlock < 2 ^ 32 → toBlock < 2 ^ 32 →
        LastFlagged (start.flaggedHeights params [] calls) (max fromBlock 1)
          (min toBlock (start.after params calls).store.block)
          ((start.after params calls).store.findGovernanceModelChange fromBlock toBlock) := by
  intro everyRange
  have found := everyRange Permissions.unanimous secondMiner follows_secondMiner 1 (2 ^ 31)
    (by decide) (by decide)
  have missed : (start.after Permissions.unanimous secondMiner).store.findGovernanceModelChange 1
      (2 ^ 31) = 0 := by
    have unclamped : ¬ (start.after Permissions.unanimous secondMiner).store.block <
        wrapInt32 (2 ^ 31 : Nat) := by decide +kernel
    have noRow : ((start.after Permissions.unanimous secondMiner).store.getPermissionRow
        (blockIndexKey (2 ^ 31 : Nat)) true).thisRow = 0 := by decide +kernel
    have nonempty : ¬ 2 ^ 31 < 1 := by decide
    rw [findGovernanceModelChange, if_neg unclamped, if_neg nonempty, noRow]
    exact (governanceWalk_header (by decide +kernel) (by decide +kernel) _ _).1
  have heights : start.flaggedHeights Permissions.unanimous [] secondMiner = [1, 0] := by
    decide +kernel
  have block : (start.after Permissions.unanimous secondMiner).store.block = 1 := by
    decide +kernel
  rw [missed, heights, block] at found
  rcases found with ⟨⟨-, positive, -⟩, -⟩ | ⟨-, outside⟩
  · cases positive
  · exact outside 1 (List.mem_cons_self ..) ⟨by decide, by decide⟩

end PermissionRun

end HdacNode
