import HdacNode.MiningThresholds
import HdacNode.PermissionTraces

/-!
# Miners who have to wait

A miner who mined one of the newest blocks is barred from the next one.  The window of blocks
that bar their miners is shorter than the number of miners, so some miner can always go on,
whatever the counts were when the blocks were mined.
-/

namespace HdacNode

open LinkedRowLog WriteBatch

namespace Permissions

/-- The height of the newest block of a miner in a chain, newest block first. -/
def lastMined : List (Address × Hash) → Address → Option Nat
  | [], _ => none
  | block :: older, address =>
      if block.1 = address then some older.length else lastMined older address

/-- The rows of miners hold the heights of their blocks. -/
def MinersDated (log : List LedgerRow) : Prop :=
  ∀ row ∈ log, row.key.type = mcPtpBlockMiner → row.blockFrom = row.blockReceived

/-- The addresses that may mine as of the last block. -/
def permitted (s : Permissions) : Set Address :=
  {address | s.getPermission (nullKey address mcPtpMine) false ≠ 0}

/-- The permitted addresses that have to wait. -/
def barred (params : NetworkParams) (s : Permissions) : Set Address :=
  {address | address ∈ s.permitted ∧ canMine params s .null address = 0}

/-- The window that the miners as of the last block share; the zero address is not counted. -/
noncomputable def window (params : NetworkParams) (s : Permissions) : Int :=
  diversityOf params (s.permitted \ {0}).ncard

section Chain

theorem lastMined_lt {blocks : List (Address × Hash)} {address : Address} {height : Nat}
    (mined : lastMined blocks address = some height) : height < blocks.length := by
  induction blocks with
  | nil => cases mined
  | cons block older ih =>
      rw [lastMined] at mined
      split at mined
      · cases mined
        exact Nat.lt_succ_self _
      · exact Nat.lt_succ_of_lt (ih mined)

/-- The miners of the newest blocks. -/
theorem mem_miners_iff {blocks : List (Address × Hash)} {count : Nat} {address : Address}
    (inside : count ≤ blocks.length) :
    address ∈ (blocks.take count).map Prod.fst ↔
      ∃ height, lastMined blocks address = some height ∧ blocks.length ≤ height + count := by
  induction blocks generalizing count with
  | nil =>
      obtain rfl : count = 0 := Nat.le_zero.mp inside
      simp [lastMined]
  | cons block older ih =>
      cases count with
      | zero =>
          constructor
          · intro absurdity
            cases absurdity
          · rintro ⟨height, mined, low⟩
            have := lastMined_lt mined
            omega
      | succ count =>
          rw [List.take_succ_cons, List.map_cons, List.mem_cons,
            ih (Nat.succ_le_succ_iff.mp inside)]
          rw [List.length_cons] at inside ⊢
          by_cases isNewest : block.1 = address
          · refine iff_of_true (.inl isNewest.symm) ⟨older.length, ?_, by omega⟩
            rw [lastMined, if_pos isNewest]
          · rw [or_iff_right (Ne.symm isNewest)]
            constructor
            · rintro ⟨height, mined, low⟩
              refine ⟨height, ?_, by omega⟩
              rw [lastMined, if_neg isNewest]
              exact mined
            · rintro ⟨height, mined, low⟩
              rw [lastMined, if_neg isNewest] at mined
              exact ⟨height, mined, by omega⟩

theorem ncard_miners_le (blocks : List (Address × Hash)) (count : Nat) :
    {address | address ∈ (blocks.take count).map Prod.fst}.ncard ≤ count := by
  have asFinset : {address | address ∈ (blocks.take count).map Prod.fst} =
      (((blocks.take count).map Prod.fst).toFinset : Set Address) := by
    ext address
    simp
  rw [asFinset, Set.ncard_coe_finset]
  have bound := List.toFinset_card_le ((blocks.take count).map Prod.fst)
  rw [List.length_map, List.length_take] at bound
  omega

theorem ncard_miners_of_nodup {blocks : List (Address × Hash)} {count : Nat}
    (inside : count ≤ blocks.length) (distinct : ((blocks.take count).map Prod.fst).Nodup) :
    {address | address ∈ (blocks.take count).map Prod.fst}.ncard = count := by
  have asFinset : {address | address ∈ (blocks.take count).map Prod.fst} =
      (((blocks.take count).map Prod.fst).toFinset : Set Address) := by
    ext address
    simp
  rw [asFinset, Set.ncard_coe_finset, List.toFinset_card_of_nodup distinct, List.length_map,
    List.length_take, Nat.min_eq_left inside]

theorem blockFrom_newest_miner {log : List LedgerRow} {blocks : List (Address × Hash)}
    (blockLog : BlockLog log blocks) (dated : MinersDated log) (address : Address) :
    (newestOf log (blockMinerKey address)).map LedgerRow.blockFrom =
      (lastMined blocks address).map Int.ofNat := by
  induction blockLog with
  | genesis => rfl
  | @block log grants blocks minerRow indexRow miner hash older grantRows minerKey
      minerReceived indexKey indexReceived indexHash ih =>
      have olderDated : MinersDated log := by
        intro row member
        exact dated row (by simp [member])
      have notIndex : indexRow.key ≠ blockMinerKey address := by
        rw [indexKey]
        exact fun same => blockMinerKey_type_ne address (congrArg Key.type same).symm
      rw [newestOf_cons_of_ne notIndex]
      by_cases isMiner : miner = address
      · have found : newestOf (minerRow :: (grants ++ log)) (blockMinerKey address) =
            some minerRow := by
          rw [newestOf, List.find?_cons_of_pos]
          rw [minerKey, isMiner]
          exact decide_eq_true rfl
        have date := dated minerRow (by simp) (congrArg Key.type minerKey)
        rw [found, lastMined, if_pos isMiner, Option.map_some, Option.map_some, date,
          minerReceived]
        rfl
      · have notMiner : minerRow.key ≠ blockMinerKey address := by
          rw [minerKey]
          intro same
          exact isMiner (RowAddress.account.inj (congrArg Key.address same))
        have noGrant : newestOf grants (blockMinerKey address) = none := by
          rw [newestOf_eq_none]
          intro row member same
          exact (grantRows row member).type_ne_blockMiner (congrArg Key.type same)
        rw [newestOf_cons_of_ne notMiner, newestOf_append, noGrant, Option.none_or, lastMined,
          if_neg isMiner]
        exact ih olderDated

end Chain

section Stores

variable {params : NetworkParams} {s : Permissions} {blocks : List (Address × Hash)} {top : Int}

theorem Consistent.permitted_eq (consistent : Consistent s blocks top) :
    s.permitted = holdersIn s.liveLog s.block mcPtpMine := by
  ext address
  have counted : IsCounted mcPtpMine := .inr rfl
  have notAbove : ¬ s.AboveTip (nullKey address mcPtpMine) := by
    rintro ⟨height, -, same⟩
    exact counted.ne_blockIndex (congrArg Key.type same)
  have inRange := @inBlockRange_of_reports _ _ s.block
    (consistent.getPermissionRow_false (counted.nullKey_ne_zeroKey address) notAbove)
  change s.getPermission (nullKey address mcPtpMine) false ≠ 0 ↔ _
  unfold getPermission
  rw [inRange]
  change _ ↔ (Option.any _ _) = true
  split
  · rename_i holds
    exact iff_of_true counted.ne_zero holds
  · rename_i holdsNot
    exact iff_of_false (by simp) holdsNot

/-- The height that `CanMine` finds for an address. -/
theorem Consistent.blockFrom_miner (consistent : Consistent s blocks top)
    (dated : MinersDated s.liveLog) (address : Address) :
    (s.getPermissionRow (blockMinerKey address) false).blockFrom =
      ((lastMined blocks address).getD 0 : Nat) := by
  have notZero : blockMinerKey address ≠ zeroKey := by
    simp [blockMinerKey, nullKey, zeroKey, mcPtpBlockMiner]
  have notAbove : ¬ s.AboveTip (blockMinerKey address) := by
    rintro ⟨height, -, same⟩
    exact blockMinerKey_type_ne address (congrArg Key.type same)
  have reports := consistent.getPermissionRow_false notZero notAbove
  have newest := blockFrom_newest_miner consistent.blockLog dated address
  cases found : newestOf s.liveLog (blockMinerKey address) with
  | none =>
      rw [found] at reports newest
      have neverMined : lastMined blocks address = none := Option.map_eq_none_iff.mp newest.symm
      rw [neverMined]
      exact reports.1
  | some row =>
      rw [found] at reports newest
      obtain ⟨height, mined, same⟩ := Option.map_eq_some_iff.mp newest.symm
      rw [mined, reports.1, ← same]
      rfl

/-- Who is barred: a miner of a block in the window, above the genesis block. -/
theorem Consistent.mem_barred_iff (consistent : Consistent s blocks top)
    (dated : MinersDated s.liveLog) (restricted : params.anyoneCanMine = false)
    (short : s.block + 1 < 2 ^ 31) (address : Address) :
    address ∈ s.barred params ↔
      address ∈ s.permitted ∧ s.clearedMinerCount ≠ 0 ∧
        params.setupFirstBlocks ≤ s.block + 1 ∧
        ∃ height, lastMined blocks address = some height ∧ height ≠ 0 ∧
          s.block + 1 - height ≤ diversityOf params s.clearedMinerCount - 1 := by
  have last := consistent.blockFrom_miner dated address
  have length := consistent.height
  constructor
  · rintro ⟨isPermitted, cannot⟩
    have result : s.getPermission ⟨.null, .account address, mcPtpMine⟩ false ≠ 0 := isPermitted
    rw [canMine, if_neg (by simp [restricted])] at cannot
    simp only [last, result, ne_eq, not_false_eq_true, and_self, if_true] at cannot
    split at cannot
    · rename_i isBarred
      obtain ⟨someHeight, isBarred⟩ := isBarred
      rw [isBarredByDiversity, decide_eq_true_eq] at isBarred
      obtain ⟨some, set, close⟩ := isBarred
      cases mined : lastMined blocks address with
      | none =>
          rw [mined] at someHeight
          exact absurd rfl someHeight
      | some height =>
          rw [mined] at someHeight close
          simp only [Option.getD_some, Int.natCast_eq_zero] at someHeight close
          have below := lastMined_lt mined
          have whole : wrapInt32 (s.block + 1 - height) = s.block + 1 - height := by
            rw [wrapInt32, Int.bmod_eq_of_le] <;> omega
          rw [whole] at close
          exact ⟨isPermitted, some, set, height, rfl, someHeight, close⟩
    · exact absurd cannot result
  · rintro ⟨isPermitted, some, set, height, mined, notGenesis, close⟩
    refine ⟨isPermitted, ?_⟩
    have result : s.getPermission ⟨.null, .account address, mcPtpMine⟩ false ≠ 0 := isPermitted
    have below := lastMined_lt mined
    have whole : wrapInt32 (s.block + 1 - height) = s.block + 1 - height := by
      rw [wrapInt32, Int.bmod_eq_of_le] <;> omega
    have isBarred : isBarredByDiversity params (s.block + 1) height s.clearedMinerCount = true := by
      rw [isBarredByDiversity, decide_eq_true_eq, whole]
      exact ⟨some, set, close⟩
    rw [canMine, if_neg (by simp [restricted])]
    simp only [last, result, ne_eq, not_false_eq_true, and_self, if_true, mined,
      Option.getD_some, Int.natCast_eq_zero, notGenesis, isBarred]

/-- At most as many miners are barred as the window has blocks behind the next one. -/
theorem Consistent.ncard_barred_le (consistent : Consistent s blocks top)
    (dated : MinersDated s.liveLog) (restricted : params.anyoneCanMine = false)
    (short : s.block + 1 < 2 ^ 31)
    (cleared : s.clearedMinerCount = (s.permitted \ {0}).ncard) :
    (s.barred params).ncard ≤ (s.window params - 1).toNat := by
  have length := consistent.height
  have windowEq : s.window params = diversityOf params s.clearedMinerCount := by
    rw [window, cleared]
  have within : s.barred params ⊆
      {address | address ∈ (blocks.take (s.window params - 1).toNat).map Prod.fst} := by
    intro address isBarred
    obtain ⟨-, -, -, height, mined, -, close⟩ :=
      (consistent.mem_barred_iff dated restricted short address).mp isBarred
    have below := lastMined_lt mined
    by_cases long : (s.window params - 1).toNat ≤ blocks.length
    · refine (mem_miners_iff long).mpr ⟨height, mined, ?_⟩
      omega
    · have whole : blocks.take (s.window params - 1).toNat = blocks.take blocks.length := by
        rw [List.take_of_length_le (Nat.le_of_not_le long), List.take_length]
      rw [whole]
      exact (mem_miners_iff (le_refl _)).mpr ⟨height, mined, by omega⟩
  exact (Set.ncard_le_ncard within (finite_addresses _)).trans (ncard_miners_le _ _)

theorem Consistent.exists_canMine (consistent : Consistent s blocks top)
    (dated : MinersDated s.liveLog) (restricted : params.anyoneCanMine = false)
    (short : s.block + 1 < 2 ^ 31)
    (cleared : s.clearedMinerCount = (s.permitted \ {0}).ncard)
    (someone : s.permitted.Nonempty) :
    ∃ address ∈ s.permitted, canMine params s .null address ≠ 0 := by
  by_contra allBarred
  have everyone : s.permitted ⊆ s.barred params := by
    intro address isPermitted
    refine ⟨isPermitted, ?_⟩
    by_contra can
    exact allBarred ⟨address, isPermitted, can⟩
  have counted := Set.ncard_le_ncard everyone (finite_addresses _)
  have bound := consistent.ncard_barred_le dated restricted short cleared
  have fewer : (s.permitted \ {0}).ncard ≤ s.permitted.ncard :=
    Set.ncard_le_ncard Set.sdiff_subset (finite_addresses _)
  have windowLe : s.window params ≤ (s.permitted \ {0}).ncard := by
    rw [window, diversityOf_eq]
    exact min_le_right _ _
  have some := (Set.ncard_pos (finite_addresses _)).mpr someone
  by_cases none : (s.permitted \ {0}).ncard = 0
  · obtain ⟨address, isPermitted⟩ := someone
    obtain ⟨-, counts, -⟩ :=
      (consistent.mem_barred_iff dated restricted short address).mp (everyone isPermitted)
    rw [cleared, none] at counts
    exact counts rfl
  · omega

theorem Consistent.barred_eq (consistent : Consistent s blocks top)
    (dated : MinersDated s.liveLog) (restricted : params.anyoneCanMine = false)
    (short : s.block + 1 < 2 ^ 31)
    (cleared : s.clearedMinerCount = (s.permitted \ {0}).ncard) (some : 0 < s.window params)
    (set : params.setupFirstBlocks ≤ s.block + 1) (aboveGenesis : s.window params - 1 ≤ s.block)
    (ofPermitted : ∀ address ∈ (blocks.take (s.window params - 1).toNat).map Prod.fst,
      address ∈ s.permitted) :
    s.barred params =
      {address | address ∈ (blocks.take (s.window params - 1).toNat).map Prod.fst} := by
  have length := consistent.height
  have windowEq : s.window params = diversityOf params s.clearedMinerCount := by
    rw [window, cleared]
  have inside : (s.window params - 1).toNat ≤ blocks.length := by omega
  have counts : s.clearedMinerCount ≠ 0 := by
    intro none
    rw [windowEq, none, diversityOf_eq] at some
    have := min_le_right (max (rawDiversity params 0 + 1) 1) 0
    omega
  ext address
  rw [consistent.mem_barred_iff dated restricted short]
  constructor
  · rintro ⟨-, -, -, height, mined, -, close⟩
    exact (mem_miners_iff inside).mpr ⟨height, mined, by omega⟩
  · intro isIn
    obtain ⟨height, mined, close⟩ := (mem_miners_iff inside).mp isIn
    exact ⟨ofPermitted address isIn, counts, set, height, mined, by omega, by omega⟩

theorem getActiveMinerCount_eq (ratios : RatiosInRange params) (positive : 0 < s.minerCount)
    (few : s.minerCount < 2 ^ 31 - 2148) :
    getActiveMinerCount params s =
      if isSetupPeriod params s then s.minerCount
      else s.minerCount - (diversityOf params s.minerCount - 1) := by
  obtain ⟨-, -, -, -, -, -, nonneg, bound⟩ := ratios
  have ratio : wrapInt32 params.miningDiversity = params.miningDiversity := by
    rw [wrapInt32, Int.bmod_eq_of_le] <;> omega
  have bounds : -2148 ≤ rawDiversity params s.minerCount ∧
      rawDiversity params s.minerCount ≤ 2148 := by
    unfold rawDiversity
    rw [ratio]
    dsimp only
    split
    · have low : -2 ^ 31 ≤ wrapInt32 (s.minerCount * params.miningDiversity - 1) :=
        Int.le_bmod (by decide)
      have high : wrapInt32 (s.minerCount * params.miningDiversity - 1) < 2 ^ 31 :=
        Int.bmod_lt (by decide)
      generalize wrapInt32 (s.minerCount * params.miningDiversity - 1) = word at low high ⊢
      have quotient : (word.tdiv 1000000).natAbs = word.natAbs / 1000000 :=
        Int.natAbs_tdiv word 1000000
      unfold mcPrmDecimalGranularity
      push_cast
      generalize word.tdiv 1000000 = diversity at quotient ⊢
      omega
    · omega
  have whole : wrapInt32 (s.minerCount - (rawDiversity params s.minerCount + 1 - 1)) =
      s.minerCount - rawDiversity params s.minerCount := by
    rw [wrapInt32, Int.bmod_eq_of_le] <;> omega
  rw [diversityOf_eq]
  unfold getActiveMinerCount
  simp only [whole]
  split_ifs <;> omega

theorem Consistent.activeMinerCount_eq (consistent : Consistent s blocks top)
    (dated : MinersDated s.liveLog) (restricted : params.anyoneCanMine = false)
    (ratios : RatiosInRange params) (short : s.block + 1 < 2 ^ 31)
    (cleared : s.clearedMinerCount = (s.permitted \ {0}).ncard)
    (someone : s.permitted.Nonempty) (noZero : 0 ∉ s.permitted)
    (few : s.permitted.ncard < 2 ^ 31 - 2148) (settled : s.minerCount = s.clearedMinerCount)
    (aboveGenesis : s.window params - 1 ≤ s.block)
    (distinct : ((blocks.take (s.window params - 1).toNat).map Prod.fst).Nodup)
    (ofPermitted : ∀ address ∈ (blocks.take (s.window params - 1).toNat).map Prod.fst,
      address ∈ s.permitted) :
    getActiveMinerCount params s = (s.permitted \ s.barred params).ncard := by
  have length := consistent.height
  have counted : s.permitted \ {0} = s.permitted := Set.sdiff_singleton_eq_self noZero
  have positive := (Set.ncard_pos (finite_addresses _)).mpr someone
  have minerCount : s.minerCount = s.permitted.ncard := by
    rw [settled, cleared, counted]
  have windowEq : s.window params = diversityOf params s.minerCount := by
    rw [window, counted, minerCount]
  have bounds : 1 ≤ s.window params ∧ s.window params ≤ s.permitted.ncard := by
    rw [windowEq, diversityOf_eq, minerCount]
    constructor
    · exact le_min (le_max_right _ _) (by omega)
    · exact min_le_right _ _
  rw [getActiveMinerCount_eq ratios (by omega) (by omega)]
  by_cases set : params.setupFirstBlocks ≤ s.block + 1
  · have mining : isSetupPeriod params s = false := decide_eq_false (not_lt.mpr set)
    have barredEq := consistent.barred_eq dated restricted short cleared (by omega) set aboveGenesis
      ofPermitted
    have barredCount : (s.barred params).ncard = (s.window params - 1).toNat := by
      rw [barredEq]
      exact ncard_miners_of_nodup (by omega) distinct
    have inside : s.barred params ⊆ s.permitted := fun address isBarred => isBarred.1
    have rest := Set.ncard_sdiff inside (finite_addresses _)
    rw [mining, if_neg Bool.false_ne_true, ← windowEq]
    omega
  · have mining : isSetupPeriod params s = true := decide_eq_true (not_le.mp set)
    have noneBarred : s.barred params = ∅ := by
      rw [Set.eq_empty_iff_forall_notMem]
      intro address isBarred
      exact set ((consistent.mem_barred_iff dated restricted short address).mp isBarred).2.2.1
    rw [mining, if_pos rfl, noneBarred, Set.sdiff_empty, minerCount]

end Stores

end Permissions

namespace PermissionRun

open Permissions

variable {params : NetworkParams} {run : PermissionRun}

/-- The rows of miners hold their heights after every call. -/
theorem MinersDated.next (dated : MinersDated run.store.liveLog) (sound : Sound run)
    {call : PermissionCall} (allowed : run.Allows call) :
    MinersDated (run.next params call).store.liveLog := by
  have consistent := sound.consistent
  have kept {store : Permissions} (same : store.liveLog = run.store.liveLog) :
      MinersDated store.liveLog := by
    rw [same]
    exact dated
  cases call with
  | setPermission grant =>
      exact kept (Permissions.grown_setPermission params run.store grant).liveLog
  | setApproval approval =>
      exact kept (Permissions.grown_setApproval params run.store approval).liveLog
  | setCheckPoint => exact dated
  | rollBackToCheckPoint =>
      exact kept (consistent.liveLog_rollBackToCheckPoint (sound.checkPointed allowed))
  | copyMemPool => exact dated
  | clearMemPool => exact kept consistent.clearMemPool_result.liveLog
  | restoreMemPool => exact kept consistent.liveLog_restoreMemPool
  | commit miner hash =>
      change MinersDated (run.store.commit params miner hash).liveLog
      rw [consistent.liveLog_commit]
      intro row member isMiner
      rcases List.mem_cons.mp member with rfl | member
      · rfl
      rcases List.mem_cons.mp member with rfl | member
      · rfl
      rcases List.mem_append.mp member with inPool | inLog
      · have grant := consistent.memRows row (List.mem_reverse.mp inPool)
        exact absurd isMiner grant.type_ne_blockMiner
      · exact dated row inLog isMiner
  | rollBack block =>
      obtain ⟨segment, rest, log, -, undone, below⟩ := consistent.splitAt allowed.1 allowed.2
      have result := consistent.rollBack_result log undone below
      have cleared := consistent.clearMemPool_result
      change MinersDated (run.store.rollBack block).liveLog
      rw [Consistent.liveLog_of_rollBackResult (cleared.liveLog.trans log) result]
      intro row member
      refine dated row ?_
      rw [log]
      exact List.mem_append_right _ member

theorem MinersDated.nextStore (dated : MinersDated run.store.liveLog) (based : Based run)
    {call : StoreCall} (allowed : run.AllowsStore call) :
    MinersDated (run.nextStore params call).store.liveLog := by
  cases call with
  | call call => exact MinersDated.next dated based.sound allowed
  | verifyMiners block calls =>
      obtain ⟨alike, -⟩ := alike_verifyMiners params based.sound.consistent allowed calls
      change MinersDated (run.store.verifyMiners params block calls).liveLog
      rw [alike.liveLog]
      exact dated

theorem MinersDated.afterStore (dated : MinersDated run.store.liveLog) (based : Based run)
    {calls : List StoreCall} (follows : run.FollowsStore params calls) :
    MinersDated (run.afterStore params calls).store.liveLog := by
  induction calls generalizing run with
  | nil => exact dated
  | cons call calls ih =>
      exact ih (MinersDated.nextStore dated based follows.1) (based.nextStore follows.1) follows.2

/-- The blocks of the active chain, newest first. -/
def activeBlocks (run : PermissionRun) : List (Address × Hash) :=
  activeChain run.commits (run.store.block + 1).toNat

/-- In every run, the miners who have to wait are fewer than the window, someone can mine if
anyone is permitted, and the active miners are the ones who do not have to wait: as long as the
open block leaves the number of miners as it is, the zero address is not one of them, and the
blocks of the window are above the genesis block and have different permitted miners. -/
theorem diversity_leaves_miners (params : NetworkParams) (restricted : params.anyoneCanMine = false)
    (calls : List StoreCall) (follows : start.FollowsStore params calls)
    (short : (start.afterStore params calls).store.block + 1 < 2 ^ 31) :
    let run := start.afterStore params calls
    let s := run.store
    (s.barred params).ncard ≤ (s.window params - 1).toNat ∧
      (s.permitted.Nonempty →
        (∃ address ∈ s.permitted, canMine params s .null address ≠ 0) ∧
        (RatiosInRange params → 0 ∉ s.permitted → s.permitted.ncard < 2 ^ 31 - 2148 →
          s.minerCount = s.clearedMinerCount → s.window params - 1 ≤ s.block →
          ((run.activeBlocks.take (s.window params - 1).toNat).map Prod.fst).Nodup →
          (∀ address ∈ (run.activeBlocks.take (s.window params - 1).toNat).map Prod.fst,
            address ∈ s.permitted) →
          getActiveMinerCount params s = (s.permitted \ s.barred params).ncard)) := by
  intro run s
  have based := based_start.afterStore follows
  have consistent : Consistent s run.activeBlocks (peak run.commits) := based.sound.consistent
  have noRows : MinersDated start.store.liveLog := by
    intro row member
    cases member
  have dated : MinersDated s.liveLog := MinersDated.afterStore noRows based_start follows
  have cleared : s.clearedMinerCount = (s.permitted \ {0}).ncard := by
    rw [consistent.permitted_eq]
    exact based.store.cleared.miners
  refine ⟨consistent.ncard_barred_le dated restricted short cleared, fun someone => ⟨?_, ?_⟩⟩
  · exact consistent.exists_canMine dated restricted short cleared someone
  · intro ratios noZero few settled aboveGenesis distinct ofPermitted
    exact consistent.activeMinerCount_eq dated restricted ratios short cleared someone noZero few
      settled aboveGenesis distinct ofPermitted

/-- A grant of a permission by address 7. -/
def grantCall (address : Address) (type : Nat) : StoreCall :=
  .call (.setPermission
    { entity := .null
      address := address
      type := type
      admin := 7
      blockFrom := 0
      blockTo := 1000
      timestamp := 1
      flags := 0
      updateMempool := true
      offset := 0 })

/-- Address 7 becomes an admin and a miner and mines a block. -/
def minedOnce : List StoreCall :=
  [grantCall 7 (mcPtpAdmin ||| mcPtpMine), .call (.commit 7 1)]

/-- Then address 8 becomes a miner. -/
def minerWaiting : List StoreCall := minedOnce ++ [grantCall 8 mcPtpMine]

/-- Address 7 becomes a miner. -/
def onlyWaiting : List StoreCall := [grantCall 7 mcPtpMine]

theorem follows_minerWaiting : start.FollowsStore unanimous minerWaiting :=
  ⟨trivial, trivial, trivial, trivial⟩

theorem follows_onlyWaiting : start.FollowsStore unanimous onlyWaiting := ⟨trivial, trivial⟩

/-- An address is permitted only if a committed row grants it. -/
theorem granted_of_permitted {params : NetworkParams} {calls : List StoreCall}
    (follows : start.FollowsStore params calls) {address : Address}
    (isPermitted : address ∈ (start.afterStore params calls).store.permitted) :
    ∃ row ∈ (start.afterStore params calls).store.liveLog,
      row.key.type = mcPtpMine ∧ row.key.address = .account address := by
  have consistent := (based_start.afterStore follows).sound.consistent
  rw [consistent.permitted_eq] at isPermitted
  change (newestOf _ _).any _ = true at isPermitted
  obtain ⟨row, found, -⟩ := (Option.any_eq_true _ _).mp isPermitted
  have rowKey := key_of_newestOf found
  exact ⟨row, List.mem_of_find?_eq_some found, congrArg Key.type rowKey,
    congrArg Key.address rowKey⟩

/-- The addresses named by the rows are the permitted ones, if they are allowed. -/
theorem permitted_eq {params : NetworkParams} {calls : List StoreCall}
    (follows : start.FollowsStore params calls) (addresses : List Address)
    (rows : ∀ row ∈ (start.afterStore params calls).store.liveLog, row.key.type = mcPtpMine →
      row.key.address ∈ addresses.map .account)
    (allowed : ∀ address ∈ addresses, (start.afterStore params calls).store.getPermission
      (nullKey address mcPtpMine) false ≠ 0) :
    (start.afterStore params calls).store.permitted = {address | address ∈ addresses} := by
  ext address
  constructor
  · intro isPermitted
    obtain ⟨row, member, isMine, isAddress⟩ := granted_of_permitted follows isPermitted
    obtain ⟨named, among, isNamed⟩ := List.mem_map.mp (rows row member isMine)
    rw [RowAddress.account.inj (isAddress.symm.trans isNamed.symm)]
    exact among
  · exact allowed address

/-- A network in which two miners take turns. -/
def sharing : NetworkParams := { unanimous with miningDiversity := mcPrmDecimalGranularity }

/-- Address 7 mines the block that permits address 8. -/
def minedTwice : List StoreCall := minerWaiting ++ [.call (.commit 7 2)]

theorem follows_minedTwice : start.FollowsStore sharing minedTwice :=
  ⟨trivial, trivial, trivial, trivial, trivial⟩

/-- Address 7 has to wait, and address 8 can mine. -/
theorem diversity_leaves_miners_minedTwice :
    let s := (start.afterStore sharing minedTwice).store
    7 ∈ s.barred sharing ∧ (∃ address ∈ s.permitted, canMine sharing s .null address ≠ 0) ∧
      getActiveMinerCount sharing s = (s.permitted \ s.barred sharing).ncard := by
  intro s
  have both : s.permitted = {7, 8} :=
    (permitted_eq follows_minedTwice [7, 8] (by decide +kernel) (List.forall_mem_cons.mpr
      ⟨by decide +kernel, List.forall_mem_singleton.mpr (by decide +kernel)⟩)).trans
      (by ext address; simp)
  have noZero : (0 : Address) ∉ ({7, 8} : Set Address) := by simp
  have two : ({7, 8} : Set Address).ncard = 2 := Set.ncard_pair (by decide)
  have windowEq : s.window sharing = 2 := by
    rw [window, both, Set.sdiff_singleton_eq_self noZero, two]
    decide +kernel
  have newest : ((start.afterStore sharing minedTwice).activeBlocks.take (2 - 1 : Int).toNat).map
      Prod.fst = [7] := by
    decide +kernel
  have shares := (diversity_leaves_miners sharing rfl minedTwice follows_minedTwice
    (by decide +kernel)).2 (by rw [both]; exact Set.insert_nonempty 7 {8})
  refine ⟨⟨?_, by decide +kernel⟩, shares.1, shares.2 ?_ ?_ ?_ ?_ ?_ ?_ ?_⟩
  · rw [both]
    exact Set.mem_insert 7 {8}
  · constructor <;> decide
  · rw [both]
    exact noZero
  · rw [both, two]
    decide
  · decide +kernel
  · rw [windowEq]
    decide +kernel
  · rw [windowEq, newest]
    exact List.nodup_singleton 7
  · rw [windowEq, newest, both]
    exact List.forall_mem_singleton.mpr (Set.mem_insert 7 {8})

/-- While a grant waits for the next block, `GetActiveMinerCount` counts its address although
`CanMine` does not let it mine; if all grants wait, nobody can mine. -/
theorem waitingGrants_not_shared :
    ((start.afterStore unanimous minerWaiting).store.window unanimous - 1 = 0 ∧
      (start.afterStore unanimous minerWaiting).store.permitted.Nonempty ∧
      getActiveMinerCount unanimous (start.afterStore unanimous minerWaiting).store ≠
        ((start.afterStore unanimous minerWaiting).store.permitted \
          (start.afterStore unanimous minerWaiting).store.barred unanimous).ncard) ∧
    ((start.afterStore unanimous onlyWaiting).store.getPermission (nullKey 7 mcPtpMine) true ≠ 0 ∧
      ∀ address,
        canMine unanimous (start.afterStore unanimous onlyWaiting).store .null address = 0) := by
  have seven : (start.afterStore unanimous minerWaiting).store.permitted = {7} :=
    (permitted_eq follows_minerWaiting [7] (by decide +kernel)
      (List.forall_mem_singleton.mpr (by decide +kernel))).trans (by ext address; simp)
  have active :
      getActiveMinerCount unanimous (start.afterStore unanimous minerWaiting).store = 2 := by
    decide +kernel
  refine ⟨⟨?_, ?_, ?_⟩, by decide +kernel, ?_⟩
  · rw [window, seven, Set.sdiff_singleton_eq_self (by simp), Set.ncard_singleton]
    decide +kernel
  · rw [seven]
    exact Set.singleton_nonempty 7
  · have fewer := Set.ncard_le_ncard
      (Set.sdiff_subset : (start.afterStore unanimous minerWaiting).store.permitted \
        (start.afterStore unanimous minerWaiting).store.barred unanimous ⊆ _) (finite_addresses _)
    rw [show (start.afterStore unanimous minerWaiting).store.permitted.ncard = 1 by
      rw [seven, Set.ncard_singleton]] at fewer
    rw [active]
    omega
  · intro address
    have result : (start.afterStore unanimous onlyWaiting).store.getPermission
        ⟨.null, .account address, mcPtpMine⟩ false = 0 := by
      by_contra isPermitted
      obtain ⟨row, member, -⟩ := granted_of_permitted follows_onlyWaiting isPermitted
      cases member
    rw [canMine, if_neg (by simp [unanimous])]
    simp only [result, ne_eq, not_true_eq_false, false_and, if_false]

end PermissionRun

end HdacNode
