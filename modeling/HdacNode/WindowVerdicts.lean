import HdacNode.OpenWindows
import HdacNode.WindowRuns

/-!
# The verdict of two nodes on a block

`VerifyBlockWindow` reads the tip, the times, the recent miners and the window from the active
chain, not from the ancestors of the block.  All nodes agree on a block only if it is judged
before any of these is read: it is late and comes from a peer, or no version of the window
identifies its miner.  For any other block there are two branches on which the verdicts differ.
-/

namespace HdacNode

open FailingActions

/-- The clock is more than twenty target times ahead of the block. -/
def WindowParams.IsLate (params : WindowParams) (now : Int) (block : BlockFacts) : Prop :=
  params.targetBlockTime * hdacTargetBlockTimeMultiple < now - block.blockTime

instance (params : WindowParams) (now : Int) (block : BlockFacts) :
    Decidable (params.IsLate now block) :=
  inferInstanceAs (Decidable (_ < _))

/-- The address that stands for the miner is too short in each version of the window that can be
in force. -/
def WindowParams.Unidentifiable (params : WindowParams) (block : BlockFacts) : Prop :=
  block.signerAddress.length < properAddressLength ∧
    (block.coinbaseAddress.length < properAddressLength ∨ params.startHeightEpowV2 ≤ 0)

namespace WindowChain

variable {chain : WindowChain} {tip : ActiveBlock} {block : BlockFacts} {now : Int}

section Verdicts

/-- A block without identifiable miner is accepted as a late block of a peer, or refused. -/
theorem verifyBlockWindow_unidentifiable (chain : WindowChain) (fromPeer : Bool) (now : Int)
    (unidentifiable : chain.params.Unidentifiable block) :
    chain.verifyBlockWindow fromPeer now block =
      pure (fromPeer && decide (chain.params.IsLate now block)) := by
  obtain ⟨shortSigner, shortCoinbase⟩ := unidentifiable
  have short : (chain.blockMinerAddress block).length < properAddressLength := by
    unfold blockMinerAddress
    cases chain.tip with
    | none => exact shortSigner
    | some tip =>
        dsimp only
        split
        · rename_i firstVersion
          refine shortCoinbase.resolve_right fun started => ?_
          simp only [isEnabledEpowV2, Bool.not_eq_true', decide_eq_false_iff_not] at firstVersion
          omega
        · exact shortSigner
  unfold verifyBlockWindow
  dsimp only
  rw [if_pos short]
  change (if (fromPeer && decide (chain.params.IsLate now block)) = true then _ else _) = _
  split
  · rename_i late
    rw [late]
  · rename_i notLate
    rw [Bool.eq_false_iff.mpr notLate]

theorem verifyBlockWindow_late (chain : WindowChain) (late : chain.params.IsLate now block) :
    chain.verifyBlockWindow true now block = pure true := by
  unfold verifyBlockWindow
  dsimp only
  exact if_pos (decide_eq_true late)

theorem blockMinerAddress_second (hasTip : chain.tip = some tip)
    (secondVersion : chain.isEnabledEpowV2 tip.nHeight = true) (block : BlockFacts) :
    chain.blockMinerAddress block = block.signerAddress := by
  unfold blockMinerAddress
  rw [hasTip]
  dsimp only
  rw [secondVersion]
  rfl

theorem verifyBlockWindow_second (hasTip : chain.tip = some tip)
    (secondVersion : chain.isEnabledEpowV2 tip.nHeight = true) {ref : ActiveBlock}
    (isRef : chain.getAncestor (tip.nHeight - miningMarginRate) = some ref) {fromPeer : Bool}
    (early : ¬(fromPeer = true ∧ chain.params.IsLate now block)) :
    chain.verifyBlockWindow fromPeer now block =
      if block.signerAddress.length < properAddressLength then pure false
      else chain.verifyWindowWithEpow now (block.blockTime - tip.blockTime)
        (tip.blockTime - ref.blockTime) block.signerAddress (chain.getNodeFactor miningNf)
        (chain.miningTime (miningNf * blockTimeMultiple) block.signerAddress)
        (chain.getMiningCount (miningNf * blockTimeMultiple) block.signerAddress) := by
  have notLate : ¬(fromPeer && decide (chain.params.IsLate now block)) = true := by
    rw [Bool.and_eq_true, decide_eq_true_eq]
    exact early
  unfold verifyBlockWindow
  rw [blockMinerAddress_second hasTip secondVersion, hasTip]
  dsimp only
  rw [if_pos secondVersion, isRef]
  exact if_neg notLate

/-- A miner that signed no block of the chain behind the genesis block may mine at the time of
the tip. -/
theorem verifyBlockWindow_of_notMined (isActive : chain.IsActive) (hasTip : chain.tip = some tip)
    (secondVersion : chain.isEnabledEpowV2 tip.nHeight = true)
    (deep : defaultWindowDepth ≤ tip.nHeight)
    (high : chain.params.interval.tdiv 4 ≤ tip.nHeight)
    (positive : 0 < chain.params.targetBlockTime) (sameTime : block.blockTime = tip.blockTime)
    (proper : properAddressLength ≤ block.signerAddress.length)
    (notMined : ∀ mined ∈ chain.blocks.dropLast, mined.signerAddress ≠ block.signerAddress)
    {fromPeer : Bool} (early : ¬(fromPeer = true ∧ chain.params.IsLate now block))
    {cache : WindowCache} (touched : cache.touched = true) :
    answer (chain.verifyBlockWindow fromPeer now block cache) = some true := by
  have address := blockMinerAddress_second hasTip secondVersion
  have noneMined : ∀ depth, ∀ mined ∈ chain.lastBlocks depth,
      chain.isMinedBy block.signerAddress mined = false := by
    intro depth mined member
    have other := notMined mined (List.mem_of_mem_take member)
    unfold isMinedBy
    rw [address]
    simp [Ne.symm other]
  have noCount : ∀ depth, chain.getMiningCount depth block.signerAddress = 0 := by
    intro depth
    have noBlocks : chain.minedBlocks depth block.signerAddress = [] :=
      List.filter_eq_nil_iff.mpr fun mined member => by simp [noneMined depth mined member]
    rw [getMiningCount, noBlocks]
    rfl
  have noDepth : chain.getMiningDepth block.signerAddress = -1 := by
    have notFound : (chain.lastBlocks maxMiningDepthOfBlockWindow).findIdx?
        (chain.isMinedBy block.signerAddress) = none :=
      List.findIdx?_eq_none_iff.mpr (noneMined _)
    rw [getMiningDepth, notFound]
  have passes : ∀ nf : Int, getEpowWindow nf 0 (-1) = true := by
    intro nf
    unfold getEpowWindow
    rw [if_pos (by decide)]
    split
    · decide
    · split
      · decide
      · rfl
  obtain ⟨ref, isRef⟩ := exists_getAncestor isActive hasTip
    (show miningMarginRate ≤ tip.nHeight from le_trans (by decide) deep)
  obtain ⟨wz, after, computed⟩ :=
    (exists_calculateWindowSize_iff isActive hasTip deep touched).mpr high
  have checked : chain.checkBlockWindow block.signerAddress cache = .ok true after := by
    have called : chain.calledWindowSize = chain.calculateWindowSize defaultWindowDepth := by
      unfold calledWindowSize
      rw [hasTip]
      exact if_pos secondVersion
    unfold checkBlockWindow
    rw [bind_apply, called, computed, noDepth]
    rfl
  have inTime : block.blockTime - tip.blockTime < chain.params.targetBlockTime := by omega
  rw [verifyBlockWindow_second hasTip secondVersion isRef early, if_neg (not_lt.mpr proper),
    verifyWindowWithEpow, hasTip]
  dsimp only
  rw [noCount, noCount, if_pos inTime, if_neg (fun both => absurd both.2 (by decide)),
    if_neg (fun both => absurd both.2.1 (by decide)), if_pos (passes _), checked]
  rfl

/-- A miner that signed the tip may not mine at its time, if the last blocks came at once. -/
theorem verifyBlockWindow_of_mined (isActive : chain.IsActive) (hasTip : chain.tip = some tip)
    (secondVersion : chain.isEnabledEpowV2 tip.nHeight = true)
    (deep : miningMarginRate ≤ tip.nHeight)
    (positive : 0 < chain.params.targetBlockTime) (sameTime : block.blockTime = tip.blockTime)
    (atOnce : ∀ ref, chain.getAncestor (tip.nHeight - miningMarginRate) = some ref →
      ref.blockTime = tip.blockTime)
    (mined : tip.signerAddress = block.signerAddress)
    {fromPeer : Bool} (early : ¬(fromPeer = true ∧ chain.params.IsLate now block))
    (cache : WindowCache) :
    answer (chain.verifyBlockWindow fromPeer now block cache) = some false := by
  have address := blockMinerAddress_second hasTip secondVersion
  obtain ⟨ref, isRef⟩ := exists_getAncestor isActive hasTip deep
  have term := atOnce ref isRef
  have three : 3 ≤ tip.nHeight := deep
  rw [verifyBlockWindow_second hasTip secondVersion isRef early]
  by_cases short : block.signerAddress.length < properAddressLength
  · rw [if_pos short]
    rfl
  have inLast : tip ∈ chain.lastBlocks miningMarginRate := by
    have height := isActive 0 tip (by rw [← List.head?_eq_getElem?]; exact hasTip)
    have stored : chain.blocks[0]? = some tip := by rw [← List.head?_eq_getElem?]; exact hasTip
    have inFront : chain.lastBlocks miningMarginRate = chain.blocks.dropLast.take 3 := rfl
    rw [inFront, List.mem_take_iff_getElem]
    refine ⟨0, ?_, ?_⟩
    · rw [List.length_dropLast]
      omega
    · rw [List.getElem_dropLast]
      exact Option.some.inj ((List.getElem?_eq_getElem _).symm.trans stored)
  have counted : 0 < chain.getMiningCount miningMarginRate block.signerAddress := by
    have isMined : chain.isMinedBy block.signerAddress tip = true := by
      unfold isMinedBy
      rw [address, mined]
      simpa using short
    have member : tip ∈ chain.minedBlocks miningMarginRate block.signerAddress :=
      List.mem_filter.mpr ⟨inLast, isMined⟩
    rw [getMiningCount]
    exact Int.natCast_pos.mpr (List.length_pos_of_mem member)
  rw [if_neg short, verifyWindowWithEpow, hasTip]
  dsimp only
  rw [if_pos (show block.blockTime - tip.blockTime < chain.params.targetBlockTime by omega),
    if_pos ⟨by omega, counted⟩]
  rfl

/-- In the first version, every identifiable miner may mine the first block. -/
theorem verifyBlockWindow_of_genesis (alone : chain.blocks = [tip])
    (firstVersion : chain.isEnabledEpowV2 tip.nHeight = false)
    (proper : properAddressLength ≤ block.coinbaseAddress.length)
    {fromPeer : Bool} (early : ¬(fromPeer = true ∧ chain.params.IsLate now block))
    (cache : WindowCache) :
    answer (chain.verifyBlockWindow fromPeer now block cache) = some true := by
  have hasTip : chain.tip = some tip := by rw [WindowChain.tip, alone, List.head?_cons]
  have address : chain.blockMinerAddress block = block.coinbaseAddress := by
    unfold blockMinerAddress
    rw [hasTip]
    dsimp only
    rw [firstVersion]
    rfl
  have noLast : ∀ depth, chain.lastBlocks depth = [] := by
    intro depth
    rw [lastBlocks, alone]
    exact List.take_nil
  have noDepth : chain.getMiningDepth block.coinbaseAddress = -1 := by
    rw [getMiningDepth, noLast]
    rfl
  have noMiners : chain.getNodeFactor nodeFactorDefaultDepth = 0 := by
    rw [getNodeFactor, lastMiners, noLast]
    rfl
  have asks := getBlockWindowSize_asksCache hasTip
  have sized : ∀ cache, ∃ wz after, chain.getBlockWindowSize cache = .ok wz after := by
    intro cache
    rw [asks]
    split
    · exact ⟨_, _, rfl⟩
    · exact ⟨_, _, rfl⟩
  have checked : ∀ cache, ∃ after,
      chain.checkBlockWindow block.coinbaseAddress cache = .ok true after := by
    intro cache
    obtain ⟨wz, after, computed⟩ := sized cache
    refine ⟨after, ?_⟩
    unfold checkBlockWindow calledWindowSize
    rw [hasTip, noDepth]
    dsimp only
    rw [firstVersion, bind_apply, if_neg (by decide), computed]
    rfl
  have blackout : ∃ allowed after, chain.isMiningBlackout now cache = .ok allowed after := by
    unfold isMiningBlackout
    rw [hasTip]
    dsimp only
    split
    · obtain ⟨wz, after, computed⟩ := sized cache
      rw [bind_apply, computed]
      exact ⟨_, _, rfl⟩
    · exact ⟨_, _, rfl⟩
  have notLate : ¬(fromPeer && decide (chain.params.IsLate now block)) = true := by
    rw [Bool.and_eq_true, decide_eq_true_eq]
    exact early
  obtain ⟨allowed, after, isBlackout⟩ := blackout
  obtain ⟨last, isChecked⟩ := checked after
  unfold verifyBlockWindow
  rw [address, hasTip, noMiners]
  dsimp only
  rw [firstVersion, if_neg (not_lt.mpr proper)]
  refine (congrArg answer (congrFun (if_neg notLate) cache)).trans ?_
  rw [if_neg (by decide), bind_apply, isBlackout]
  dsimp only
  cases allowed with
  | true => rfl
  | false =>
      rw [Bool.false_and, if_neg (by decide), isChecked]
      rfl

end Verdicts

end WindowChain

namespace WindowHooks

variable {World : Type}

/-- The verdict of a node on a block, by `VerifyBlockWindow`. -/
def verdict (hooks : WindowHooks World) (node : WindowNode World) (fromPeer : Bool) (now : Int)
    (block : BlockFacts) : Option Bool :=
  answer (hooks.onWindow (fun chain => chain.verifyBlockWindow fromPeer now block) node)

theorem verdict_eq (hooks : WindowHooks World) (node : WindowNode World) (fromPeer : Bool)
    (now : Int) (block : BlockFacts) :
    hooks.verdict node fromPeer now block = answer
      ((hooks.windowChain node.chain).verifyBlockWindow fromPeer now block node.cache) := by
  unfold verdict onWindow
  dsimp only
  cases (hooks.windowChain node.chain).verifyBlockWindow fromPeer now block node.cache with
  | ok a after => rfl
  | error stop after => rfl

/-- A node holds its active chain and the ancestors of a block. -/
structure HoldsAncestors (node : WindowNode World) (id : BlockID) : Prop where
  active : ∀ member ∈ node.chain.activeChain, member ∈ node.chain.tree.blocks
  ancestors : ∀ ancestor ∈ (node.chain.tree.path id).tail, ancestor ∈ node.chain.tree.blocks

/-- Any two nodes that hold the ancestors of the block give it the same verdict, when it reaches
them from such senders. -/
def Unanimous (params : WindowParams) (now : Int) (fromPeer fromPeer' : Bool)
    (block : BlockFacts) : Prop :=
  ∀ (World : Type) (hooks : WindowHooks World) (first second : WindowNode World) (id : BlockID),
    hooks.params = params → hooks.blockFacts id = block →
      first.chain.tree.toForest = second.chain.tree.toForest →
        HoldsAncestors first id → HoldsAncestors second id →
          hooks.verdict first fromPeer now block = hooks.verdict second fromPeer' now block

section TwoBranches

/-- The even blocks and the odd ones are two branches over the genesis block, beside block 1. -/
def twoBranchParent (id : Nat) : Option Nat :=
  if id = 0 then none else if id ≤ 3 then some 0 else some (id - 2)

def twoBranchHeight (id : Nat) : Nat := if id = 1 then 1 else id / 2

theorem twoBranchHeight_parent {id above : Nat} (found : twoBranchParent id = some above) :
    twoBranchHeight id = twoBranchHeight above + 1 := by
  unfold twoBranchParent at found
  by_cases first : id = 0
  · rw [if_pos first] at found
    cases found
  rw [if_neg first] at found
  by_cases low : id ≤ 3
  · rw [if_pos low] at found
    obtain rfl := Option.some.inj found
    have genesis : twoBranchHeight 0 = 0 := rfl
    rw [genesis, twoBranchHeight]
    split <;> omega
  · rw [if_neg low] at found
    obtain rfl := Option.some.inj found
    rw [twoBranchHeight, twoBranchHeight, if_neg (by omega), if_neg (by omega)]
    omega

/-- The block of a branch at a height. -/
def branchBlock (side height : Nat) : Nat := if height = 0 then 0 else 2 * height + side

theorem branchBlock_parent {side : Nat} (isSide : side < 2) (height : Nat) :
    twoBranchParent (branchBlock side (height + 1)) = some (branchBlock side height) := by
  have behind : branchBlock side (height + 1) = 2 * (height + 1) + side := if_neg (by omega)
  rw [behind, twoBranchParent, if_neg (by omega), branchBlock]
  by_cases first : height = 0
  · rw [if_pos (by omega), if_pos first]
  · rw [if_neg (by omega), if_neg first]
    congr 1
    omega

theorem branchBlock_height {side : Nat} (isSide : side < 2) (height : Nat) :
    twoBranchHeight (branchBlock side height) = height := by
  by_cases first : height = 0
  · simp [branchBlock, twoBranchHeight, first]
  · rw [branchBlock, if_neg first, twoBranchHeight, if_neg (by omega)]
    omega

/-- The two branches. -/
def twoBranches : Forest BlockID where
  parent := twoBranchParent
  height := twoBranchHeight
  height_parent := twoBranchHeight_parent

theorem path_branchBlock {side : Nat} (isSide : side < 2) (height : Nat) :
    twoBranches.path (branchBlock side height) =
      (List.range (height + 1)).map fun place => branchBlock side (height - place) := by
  induction height with
  | zero => rfl
  | succ height ih =>
      have onward : (List.range (height + 2)).map
          (fun place => branchBlock side (height + 1 - place)) = branchBlock side (height + 1) ::
            (List.range (height + 1)).map fun place => branchBlock side (height - place) := by
        rw [List.range_succ_eq_map, List.map_cons, List.map_map]
        refine congrArg _ (List.map_congr_left fun place _ => ?_)
        simp
      rw [Forest.path_of_parent _ (branchBlock_parent isSide height), ih, onward]

variable (params : WindowParams) (block : BlockFacts) (height : Nat)

/-- The blocks of the even branch have another signer than the block that is judged, those of the
odd one the same; a second passes with every fifth block. -/
def twoBranchHooks : WindowHooks Unit where
  toNodeHooks := NodeHooks.plainHooks fun _ => false
  params := params
  blockFacts id :=
    if id = 1 then block
    else
      { nTime := UInt32.ofNat (block.nTime.toNat - (height - twoBranchHeight id) / 5)
        coinbaseAddress := []
        signerAddress :=
          if id = 0 then []
          else if id % 2 = 0 then 'x' :: block.signerAddress
          else block.signerAddress }

/-- A node that has been started on a branch. -/
def branchNode (tip : Nat) : WindowNode Unit where
  chain := { NodeHooks.forkedChain tip [tip] with
    tree := ⟨twoBranches, twoBranches.path tip, fun id => twoBranchHeight id + 1⟩ }
  world := ()
  cache := .initial
  blacklist := []

theorem holdsAncestors_branchNode {side : Nat} (isSide : side < 2) (height : Nat) :
    HoldsAncestors (branchNode (branchBlock side height)) 1 where
  active _ member := member
  ancestors ancestor member := by
    have genesis : ancestor = 0 := by
      have tail : (twoBranches.path 1).tail = [0] := rfl
      exact List.mem_singleton.mp (tail ▸ member)
    change ancestor ∈ twoBranches.path (branchBlock side height)
    rw [path_branchBlock isSide, genesis]
    exact List.mem_map.mpr
      ⟨height, List.mem_range.mpr (Nat.lt_succ_self height), by simp [branchBlock]⟩

/-- The active chain of the node, as far as the window functions see it. -/
theorem blocks_branchNode {side : Nat} (isSide : side < 2) (tipHeight : Nat) :
    ((twoBranchHooks params block height).windowChain
      (branchNode (branchBlock side tipHeight)).chain).blocks =
        (List.range (tipHeight + 1)).map fun place =>
          { (twoBranchHooks params block height).blockFacts (branchBlock side (tipHeight - place))
            with nHeight := tipHeight - place } := by
  have active : (branchNode (branchBlock side tipHeight)).chain.activeChain =
      twoBranches.path (branchBlock side tipHeight) := rfl
  rw [windowChain, active, path_branchBlock isSide, List.map_map]
  refine List.map_congr_left fun place _ => ?_
  change ActiveBlock.mk _ (twoBranchHeight (branchBlock side (tipHeight - place))) = _
  rw [branchBlock_height isSide]

theorem isActive_branchNode {side : Nat} (isSide : side < 2) (tipHeight : Nat) :
    ((twoBranchHooks params block height).windowChain
      (branchNode (branchBlock side tipHeight)).chain).IsActive := by
  intro place stored found
  rw [blocks_branchNode params block height isSide] at found ⊢
  rw [List.getElem?_map, Option.map_eq_some_iff] at found
  obtain ⟨other, isPlace, rfl⟩ := found
  obtain ⟨inside, rfl⟩ := List.getElem?_eq_some_iff.mp isPlace
  simp only [List.length_range, List.getElem_range, List.length_map] at inside ⊢
  omega

theorem tip_branchNode {side : Nat} (isSide : side < 2) (tipHeight : Nat) :
    ((twoBranchHooks params block height).windowChain
      (branchNode (branchBlock side tipHeight)).chain).tip =
        some { (twoBranchHooks params block height).blockFacts (branchBlock side tipHeight)
          with nHeight := tipHeight } := by
  rw [WindowChain.tip, blocks_branchNode params block height isSide, List.range_succ_eq_map]
  rfl

theorem branchBlock_ne_one (side height : Nat) : branchBlock side height ≠ 1 := by
  unfold branchBlock
  split <;> omega

/-- The last five blocks have the time of the block that is judged. -/
theorem blockTime_branchBlock {side place : Nat} (isSide : side < 2)
    (near : height < place + 5) :
    ((twoBranchHooks params block height).blockFacts (branchBlock side place)).blockTime =
      block.blockTime := by
  have noStep : (height - place) / 5 = 0 := Nat.div_eq_of_lt (by omega)
  rw [twoBranchHooks]
  dsimp only
  rw [if_neg (branchBlock_ne_one side place), branchBlock_height isSide, noStep, Nat.sub_zero,
    UInt32.ofNat_toNat]
  rfl

variable {params block height} {fromPeer fromPeer' : Bool} {now : Int}

/-- On the even branch the block passes. -/
theorem verdict_even (positive : 0 < params.targetBlockTime)
    (started : params.startHeightEpowV2 ≤ height) (high : params.interval.tdiv 4 ≤ height)
    (deep : WindowChain.defaultWindowDepth ≤ height)
    (proper : properAddressLength ≤ block.signerAddress.length)
    (early : ¬(fromPeer = true ∧ params.IsLate now block)) :
    (twoBranchHooks params block height).verdict (branchNode (branchBlock 0 height)) fromPeer now
      block = some true := by
  have even : 0 < 2 := by decide
  rw [verdict_eq]
  refine WindowChain.verifyBlockWindow_of_notMined (isActive_branchNode params block height even _)
    (tip_branchNode params block height even _) (decide_eq_true started) deep high positive
    (blockTime_branchBlock params block height even (by omega)).symm proper ?_ early rfl
  intro mined member
  rw [blocks_branchNode params block height even, List.range_succ, List.map_append,
    List.map_singleton, List.dropLast_concat] at member
  obtain ⟨place, inside, rfl⟩ := List.mem_map.mp member
  have below := List.mem_range.mp inside
  have notGenesis : branchBlock 0 (height - place) ≠ 0 := by
    rw [branchBlock, if_neg (by omega)]
    omega
  have isEven : branchBlock 0 (height - place) % 2 = 0 := by
    rw [branchBlock, if_neg (by omega)]
    omega
  rw [twoBranchHooks]
  dsimp only
  rw [if_neg (branchBlock_ne_one 0 (height - place)), if_neg notGenesis, if_pos isEven]
  intro same
  have longer := congrArg List.length same
  rw [List.length_cons] at longer
  omega

/-- On the odd branch the block does not pass. -/
theorem verdict_odd (positive : 0 < params.targetBlockTime)
    (started : params.startHeightEpowV2 ≤ height) (deep : miningMarginRate ≤ height)
    (early : ¬(fromPeer = true ∧ params.IsLate now block)) :
    (twoBranchHooks params block height).verdict (branchNode (branchBlock 1 height)) fromPeer now
      block = some false := by
  have odd : 1 < 2 := by decide
  have three : 3 ≤ height := deep
  rw [verdict_eq]
  refine WindowChain.verifyBlockWindow_of_mined (isActive_branchNode params block height odd _)
    (tip_branchNode params block height odd _) (decide_eq_true started) deep positive
    (blockTime_branchBlock params block height odd (by omega)).symm ?_ ?_ early _
  · intro ref isRef
    rw [WindowChain.getAncestor] at isRef
    have isHeight : (ref.nHeight : Int) = (height : Nat) - (miningMarginRate : Nat) :=
      of_decide_eq_true (List.find?_some (p := fun other : ActiveBlock =>
        decide ((other.nHeight : Int) = (height : Nat) - (miningMarginRate : Nat))) isRef)
    have member := List.mem_of_find?_eq_some isRef
    rw [blocks_branchNode params block height odd] at member
    obtain ⟨place, inside, rfl⟩ := List.mem_map.mp member
    have rate : miningMarginRate = 3 := rfl
    dsimp only at isHeight
    exact (blockTime_branchBlock params block height odd (by omega)).trans
      (blockTime_branchBlock params block height odd (by omega)).symm
  · have notGenesis : branchBlock 1 height ≠ 0 := by
      rw [branchBlock, if_neg (by omega)]
      omega
    have isOdd : ¬branchBlock 1 height % 2 = 0 := by
      rw [branchBlock, if_neg (by omega)]
      omega
    rw [twoBranchHooks]
    dsimp only
    rw [if_neg (branchBlock_ne_one 1 height), if_neg notGenesis, if_neg isOdd]

/-- Over the genesis block alone the block passes in the first version. -/
theorem verdict_genesis (notStarted : 0 < params.startHeightEpowV2)
    (proper : properAddressLength ≤ block.coinbaseAddress.length)
    (early : ¬(fromPeer = true ∧ params.IsLate now block)) :
    (twoBranchHooks params block height).verdict (branchNode (branchBlock 0 0)) fromPeer now block =
      some true := by
  have even : 0 < 2 := by decide
  rw [verdict_eq]
  refine WindowChain.verifyBlockWindow_of_genesis (blocks_branchNode params block height even 0)
    (decide_eq_false ?_) proper early _
  exact not_le.mpr notStarted

/-- A unanimous block is judged alike on the two branches, and by nodes at two heights. -/
theorem Unanimous.branches (unanimous : Unanimous params now fromPeer fromPeer' block)
    (height : Nat) {side side' : Nat} (isSide : side < 2) (isSide' : side' < 2)
    (place place' : Nat) :
    (twoBranchHooks params block height).verdict (branchNode (branchBlock side place)) fromPeer
        now block =
      (twoBranchHooks params block height).verdict (branchNode (branchBlock side' place'))
        fromPeer' now block :=
  unanimous Unit (twoBranchHooks params block height) _ _ 1 rfl rfl rfl
    (holdsAncestors_branchNode isSide place) (holdsAncestors_branchNode isSide' place')

/-- A late block is judged alike only between nodes that have it from such senders: the node
that made the block judges it by its chain. -/
theorem Unanimous.sameSender (unanimous : Unanimous params now fromPeer fromPeer' block)
    (positive : 0 < params.targetBlockTime) (started : params.startHeightEpowV2 ≤ height)
    (three : miningMarginRate ≤ height) (late : params.IsLate now block) :
    fromPeer = fromPeer' := by
  have odd : 1 < 2 := by decide
  have same := unanimous.branches height odd odd height height
  have peer : (twoBranchHooks params block height).verdict
      (branchNode (branchBlock 1 height)) true now block = some true := by
    rw [verdict_eq, WindowChain.verifyBlockWindow_late _ late]
    rfl
  have own : (twoBranchHooks params block height).verdict
      (branchNode (branchBlock 1 height)) false now block = some false :=
    verdict_odd positive started three (by simp)
  by_contra other
  cases fromPeer with
  | true =>
      obtain rfl : fromPeer' = false := Bool.eq_false_iff.mpr (Ne.symm other)
      rw [peer, own] at same
      cases same
  | false =>
      obtain rfl : fromPeer' = true := Bool.eq_true_of_not_eq_false (Ne.symm other)
      rw [peer, own] at same
      cases same

/-- A block is judged alike by all nodes if and only if it is judged before the tip, the times
and the window are read. -/
theorem unanimous_iff (positive : 0 < params.targetBlockTime) (fromPeer' : Bool) :
    Unanimous params now fromPeer fromPeer' block ↔
      (params.IsLate now block ∧ fromPeer = true ∧ fromPeer' = true) ∨
        ((params.IsLate now block → fromPeer = fromPeer') ∧ params.Unidentifiable block) := by
  constructor
  · intro unanimous
    -- a height at which the second version holds and the window can be computed
    obtain ⟨height, started, high, deep⟩ : ∃ height : Nat,
        params.startHeightEpowV2 ≤ height ∧ params.interval.tdiv 4 ≤ height ∧
          WindowChain.defaultWindowDepth ≤ height :=
      ⟨max (max params.startHeightEpowV2.toNat (params.interval.tdiv 4).toNat)
        WindowChain.defaultWindowDepth, by omega, by omega, by omega⟩
    have three : miningMarginRate ≤ height := le_trans (by decide) deep
    by_contra outside
    rw [not_or] at outside
    obtain ⟨notLate, notUnseen⟩ := outside
    have odd : 1 < 2 := by decide
    have even : 0 < 2 := by decide
    have sameWay : params.IsLate now block → fromPeer = fromPeer' :=
      unanimous.sameSender positive started three
    have early : ¬(fromPeer = true ∧ params.IsLate now block) := fun ⟨isPeer, late⟩ =>
      notLate ⟨late, isPeer, (sameWay late).symm.trans isPeer⟩
    have early' : ¬(fromPeer' = true ∧ params.IsLate now block) := fun ⟨isPeer, late⟩ =>
      notLate ⟨late, (sameWay late).trans isPeer, isPeer⟩
    have refused := verdict_odd positive started three early'
    by_cases proper : properAddressLength ≤ block.signerAddress.length
    · have same := unanimous.branches height even odd height height
      rw [verdict_even positive started high deep proper early, refused] at same
      cases same
    · -- only the first version identifies the miner
      have coinbase : properAddressLength ≤ block.coinbaseAddress.length ∧
          0 < params.startHeightEpowV2 := by
        by_contra unidentified
        refine notUnseen ⟨sameWay, not_le.mp proper, ?_⟩
        by_cases short : block.coinbaseAddress.length < properAddressLength
        · exact .inl short
        · exact .inr (not_lt.mp fun begins => unidentified ⟨not_lt.mp short, begins⟩)
      have same := unanimous.branches height even odd 0 height
      rw [verdict_genesis coinbase.2 coinbase.1 early, refused] at same
      cases same
  · rintro (⟨late, isPeer, isPeer'⟩ | ⟨sameWay, unidentifiable⟩) World hooks first second id
      sameParams - - - -
    · subst isPeer isPeer' sameParams
      rw [verdict_eq, verdict_eq, WindowChain.verifyBlockWindow_late _ late,
        WindowChain.verifyBlockWindow_late _ late]
      rfl
    · subst sameParams
      rw [verdict_eq, verdict_eq,
        WindowChain.verifyBlockWindow_unidentifiable _ fromPeer now unidentifiable,
        WindowChain.verifyBlockWindow_unidentifiable _ fromPeer' now unidentifiable]
      change some (fromPeer && decide (hooks.params.IsLate now block)) =
        some (fromPeer' && decide (hooks.params.IsLate now block))
      by_cases late : hooks.params.IsLate now block
      · rw [sameWay late]
      · rw [decide_eq_false late, Bool.and_false, Bool.and_false]

/-- A block without addresses is judged alike, an early block of a miner is not. -/
theorem unanimous_iff_addresses :
    Unanimous ⟨112400, 180, 80⟩ 31000 true false ⟨30000, [], []⟩ ∧
      ¬Unanimous ⟨112400, 180, 80⟩ 31000 true true ⟨30000, oneMiner, oneMiner⟩ := by
  refine ⟨(unanimous_iff (by decide) false).mpr (.inr ⟨fun late => absurd late (by decide),
    by decide, .inl (by decide)⟩), fun unanimous => ?_⟩
  rcases (unanimous_iff (by decide) true).mp unanimous with ⟨late, -⟩ | ⟨-, short, -⟩
  · exact absurd late (by decide)
  · exact absurd short (by decide)

/-- The block passes at a node with the even branch, and fails at one with the odd branch. -/
theorem verdict_branched :
    let hooks := twoBranchHooks ⟨112400, 180, 80⟩ ⟨30000, oneMiner, oneMiner⟩ 112400
    let even := branchNode (branchBlock 0 112400)
    let odd := branchNode (branchBlock 1 112400)
    HoldsAncestors even 1 ∧ HoldsAncestors odd 1 ∧
      hooks.verdict even true 31000 (hooks.blockFacts 1) = some true ∧
      hooks.verdict odd true 31000 (hooks.blockFacts 1) = some false :=
  ⟨holdsAncestors_branchNode (by decide) _, holdsAncestors_branchNode (by decide) _,
    verdict_even (by decide) (by decide) (by decide) (by decide) (by decide) (by decide),
    verdict_odd (by decide) (by decide) (by decide) (by decide)⟩

end TwoBranches

end WindowHooks

end HdacNode
