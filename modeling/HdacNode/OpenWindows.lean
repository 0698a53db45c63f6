import Mathlib.Combinatorics.Pigeonhole
import HdacNode.WindowCache

/-!
# Fresh windows

The depths of the last blocks of different miners are different, so among as many miners as the
node factor counts, one has a depth that no smaller window covers.  A computed window is smaller
than the node factor, or it is empty.
-/

namespace HdacNode

open FailingActions

namespace WindowChain

variable {chain : WindowChain}

section Depths

theorem eq_of_isMinedBy {first second : List Char} {block : ActiveBlock}
    (minedByFirst : chain.isMinedBy first block = true)
    (minedBySecond : chain.isMinedBy second block = true) : first = second := by
  simp only [isMinedBy, Bool.and_eq_true, decide_eq_true_eq] at minedByFirst minedBySecond
  exact minedByFirst.2.trans minedBySecond.2.symm

/-- A miner of the last blocks has a depth, and the block there is its own. -/
theorem exists_depth {depth : Nat} (within : depth ≤ maxMiningDepthOfBlockWindow)
    {miner : List Char} (member : miner ∈ chain.lastMiners depth) :
    ∃ place : Nat, chain.getMiningDepth miner = place ∧
      ∃ block, (chain.lastBlocks maxMiningDepthOfBlockWindow)[place]? = some block ∧
        chain.isMinedBy miner block = true := by
  obtain ⟨isMiner, proper⟩ := List.mem_filter.mp member
  obtain ⟨block, inBlocks, isOwn⟩ := List.mem_map.mp isMiner
  have mined : chain.isMinedBy miner block = true := by
    simp only [isMinedBy, isOwn, decide_true, Bool.and_true]
    exact proper
  have inLast : block ∈ chain.lastBlocks maxMiningDepthOfBlockWindow :=
    List.take_subset_take_left _ within inBlocks
  unfold getMiningDepth
  cases found : (chain.lastBlocks maxMiningDepthOfBlockWindow).findIdx?
      (chain.isMinedBy miner) with
  | none =>
      have notMined := List.findIdx?_eq_none_iff.mp found block inLast
      rw [mined] at notMined
      cases notMined
  | some place =>
      obtain ⟨inside, minedThere, -⟩ := List.findIdx?_eq_some_iff_getElem.mp found
      exact ⟨place, rfl, _, List.getElem?_eq_getElem inside, minedThere⟩

theorem exists_deep_miner {depth : Nat} (within : depth ≤ maxMiningDepthOfBlockWindow)
    (identified : chain.lastMiners depth ≠ []) :
    ∃ miner ∈ chain.lastMiners depth,
      chain.getNodeFactor depth - 1 ≤ chain.getMiningDepth miner := by
  by_contra noneDeep
  push Not at noneDeep
  have counted : 0 < (chain.lastMiners depth).dedup.length := by
    rw [List.length_pos_iff, ne_eq, List.dedup_eq_nil]
    exact identified
  have card : (chain.lastMiners depth).toFinset.card = (chain.lastMiners depth).dedup.length :=
    List.card_toFinset _
  have factor : chain.getNodeFactor depth = (chain.lastMiners depth).dedup.length := rfl
  have few : (Finset.range ((chain.lastMiners depth).dedup.length - 1)).card <
      (chain.lastMiners depth).toFinset.card := by
    rw [Finset.card_range, card]
    omega
  have maps : ∀ miner ∈ (chain.lastMiners depth).toFinset,
      (chain.getMiningDepth miner).toNat ∈
        Finset.range ((chain.lastMiners depth).dedup.length - 1) := by
    intro miner member
    have isMiner := List.mem_toFinset.mp member
    obtain ⟨place, depthEq, -⟩ := exists_depth within isMiner
    have shallow := noneDeep miner isMiner
    rw [Finset.mem_range]
    omega
  obtain ⟨first, isFirst, second, isSecond, differ, same⟩ :=
    Finset.exists_ne_map_eq_of_card_lt_of_maps_to few maps
  obtain ⟨place, firstDepth, block, stored, minedByFirst⟩ :=
    exists_depth within (List.mem_toFinset.mp isFirst)
  obtain ⟨other, secondDepth, block', stored', minedBySecond⟩ :=
    exists_depth within (List.mem_toFinset.mp isSecond)
  obtain rfl : place = other := by omega
  rw [stored] at stored'
  obtain rfl := Option.some.inj stored'
  exact differ (eq_of_isMinedBy minedByFirst minedBySecond)

/-- A window below the node factor lets one of the counted miners mine. -/
theorem exists_outsideWindow {depth : Nat} (within : depth ≤ maxMiningDepthOfBlockWindow)
    (identified : chain.lastMiners depth ≠ []) {wz : Int}
    (small : wz < chain.getNodeFactor depth ∨ wz ≤ 0) :
    ∃ miner ∈ chain.lastMiners depth, outsideWindow (chain.getMiningDepth miner) wz = true := by
  obtain ⟨miner, member, deep⟩ := exists_deep_miner within identified
  obtain ⟨place, depthEq, -⟩ := exists_depth within member
  refine ⟨miner, member, ?_⟩
  simp only [outsideWindow, Bool.or_eq_true, decide_eq_true_eq, Bool.not_eq_true',
    decide_eq_false_iff_not]
  omega

end Depths

section Sizes

variable (chain)

/-- The size of `GetBlockWindowSize` for any value of the floor. -/
def flooredBlockWindowSize (tip : ActiveBlock) (floored : Int) : Int :=
  let nf := chain.getNodeFactor nodeFactorDefaultDepth
  let blockWz : Int :=
    if chain.isEnabledEpowV2 tip.nHeight then if 1 < floored then 1 else 0 else floored
  if nf ≤ blockWz then nf - 1 else blockWz

/-- The size of `CalculateWindowSize` for any value of the floor. -/
def flooredCalculatedSize (nDepth : Nat) (slow : Option Bool) (floored : Int) : Int :=
  let counted := chain.getNodeFactor nDepth
  let half : Int := nDepth / 2
  let nf := if counted < nDepth / 16 ∨ half < counted then half else counted
  let blockWz : Int := floored / 2
  if nf = half then min blockWz 0
  else match slow with
    | some true => min blockWz 1
    | some false => min (max blockWz 1) 1
    | none => if nf < nDepth / 8 then min (max blockWz 1) 2 else min (max blockWz 1) 1

theorem exists_flooredBlockWindowSize (tip : ActiveBlock) :
    ∃ floored, chain.blockWindowSize tip = chain.flooredBlockWindowSize tip floored := by
  unfold blockWindowSize flooredBlockWindowSize
  dsimp only
  by_cases secondVersion : chain.isEnabledEpowV2 tip.nHeight
  · use (nodeFactorRate.mulNat (chain.getNodeFactor nodeFactorDefaultDepth).toNat).floor
    simp only [secondVersion, if_true, Nat.one_lt_cast]
  · simp only [secondVersion]
    exact ⟨_, rfl⟩

theorem exists_flooredCalculatedSize (nDepth : Nat) (slow : Option Bool) :
    ∃ floored, chain.calculatedSize nDepth slow =
      chain.flooredCalculatedSize nDepth slow floored :=
  ⟨_, rfl⟩

variable {chain}

/-- `GetBlockWindowSize` stays below the node factor. -/
theorem flooredBlockWindowSize_lt (tip : ActiveBlock) (floored : Int) :
    chain.flooredBlockWindowSize tip floored < chain.getNodeFactor nodeFactorDefaultDepth := by
  unfold flooredBlockWindowSize
  dsimp only
  split
  · split <;> omega
  · split <;> omega

/-- `CalculateWindowSize` stays below the node factor, or it gives an empty window. -/
theorem flooredCalculatedSize_lt (slow : Option Bool) (floored : Int) :
    chain.flooredCalculatedSize defaultWindowDepth slow floored <
        chain.getNodeFactor defaultWindowDepth ∨
      chain.flooredCalculatedSize defaultWindowDepth slow floored ≤ 0 := by
  unfold flooredCalculatedSize defaultWindowDepth
  dsimp only
  generalize chain.getNodeFactor 120 = counted
  by_cases outside : counted < ((120 : Nat) : Int) / 16 ∨ ((120 : Nat) : Int) / 2 < counted
  · rw [if_pos outside, if_pos rfl]
    exact .inr (min_le_right _ _)
  · rw [if_neg outside]
    push Not at outside
    left
    have atMost : ∀ blockWz : Int, min blockWz 2 < counted := by
      intro blockWz
      have := min_le_right blockWz 2
      omega
    have atMostOne : ∀ blockWz : Int, min blockWz 1 < counted := by
      intro blockWz
      have := min_le_right blockWz 1
      omega
    split
    · have := min_le_right (floored / 2) 0
      omega
    · cases slow with
      | none =>
          dsimp only
          split
          · exact atMost _
          · exact atMostOne _
      | some slow =>
          cases slow with
          | true => exact atMostOne _
          | false => exact atMostOne _

end Sizes

section Checks

/-- One of the miners of the last blocks may mine. -/
def LetsSomebodyMine (chain : WindowChain) (depth : Nat) (cache : WindowCache) : Prop :=
  ∃ miner ∈ chain.lastMiners depth, answer (chain.checkBlockWindow miner cache) = some true

theorem letsSomebodyMine {depth : Nat} (within : depth ≤ maxMiningDepthOfBlockWindow)
    (identified : chain.lastMiners depth ≠ []) {cache : WindowCache} {wz : Int}
    (asked : answer (chain.calledWindowSize cache) = some wz)
    (small : wz < chain.getNodeFactor depth ∨ wz ≤ 0) : chain.LetsSomebodyMine depth cache := by
  obtain ⟨miner, member, outside⟩ := exists_outsideWindow within identified small
  refine ⟨miner, member, ?_⟩
  unfold checkBlockWindow
  rw [bind_apply]
  cases called : chain.calledWindowSize cache with
  | ok size after =>
      rw [called] at asked
      obtain rfl : size = wz := Option.some.inj asked
      exact congrArg some outside
  | error stop after =>
      rw [called] at asked
      cases asked

theorem answer_calledWindowSize_clean {tip : ActiveBlock} (hasTip : chain.tip = some tip)
    (wz : Int) : answer (chain.calledWindowSize ⟨false, wz, wz⟩) = some wz := by
  obtain ⟨computed, asks⟩ := calledWindowSize_asksCache hasTip
  rw [asks]
  rfl

/-- The size that `CalculateWindowSize` computes. -/
theorem computeWindowSize_small (chain : WindowChain) :
    ∃ computed : ComputedSize,
      chain.computeWindowSize defaultWindowDepth = computed.run ∧
      ∀ wz, computed.size = some wz →
        wz < chain.getNodeFactor defaultWindowDepth ∨ wz ≤ 0 := by
  have kept : ∀ slow wz,
      (ComputedSize.kept (chain.calculatedSize defaultWindowDepth slow)).size = some wz →
      wz < chain.getNodeFactor defaultWindowDepth ∨ wz ≤ 0 := by
    intro slow wz isSize
    obtain rfl := Option.some.inj isSize
    obtain ⟨floored, sizeEq⟩ := exists_flooredCalculatedSize chain defaultWindowDepth slow
    rw [sizeEq]
    exact flooredCalculatedSize_lt slow floored
  have stopped : ∀ wz, ComputedSize.stopped.size = some wz →
      wz < chain.getNodeFactor defaultWindowDepth ∨ wz ≤ 0 := by
    intro wz absurdity
    cases absurdity
  unfold computeWindowSize
  cases chain.tip with
  | none => exact ⟨.stopped, rfl, stopped⟩
  | some tip =>
      dsimp only
      split
      · exact ⟨.stopped, rfl, stopped⟩
      · cases chain.getAncestor (tip.nHeight - defaultWindowDepth) with
        | none => exact ⟨.stopped, rfl, stopped⟩
        | some ref =>
            dsimp only
            split
            · refine ⟨.passedOn (-1), rfl, ?_⟩
              intro wz isSize
              obtain rfl := Option.some.inj isSize
              exact .inr (by decide)
            · split
              · cases chain.getAncestor (tip.nHeight - (defaultWindowDepth / 2 : Nat)) with
                | none => exact ⟨.stopped, rfl, stopped⟩
                | some refNext =>
                    dsimp only
                    exact ⟨.kept (chain.calculatedSize defaultWindowDepth (some _)), rfl, kept _⟩
              · exact ⟨.kept (chain.calculatedSize defaultWindowDepth none), rfl, kept none⟩

theorem tip_of_lastMiners {depth : Nat} (identified : chain.lastMiners depth ≠ []) :
    ∃ tip, chain.tip = some tip := by
  cases hasTip : chain.tip with
  | some tip => exact ⟨tip, rfl⟩
  | none =>
      have noBlocks : chain.blocks = [] := List.head?_eq_none_iff.mp hasTip
      apply absurd _ identified
      simp [lastMiners, lastBlocks, noBlocks]

/-- The heights of an active chain go down to the genesis block. -/
def IsActive (chain : WindowChain) : Prop :=
  ∀ place block, chain.blocks[place]? = some block →
    block.nHeight + place + 1 = chain.blocks.length

/-- A size that was just computed, by `GetBlockWindowSize` or by `CalculateWindowSize` in the
second version, lets one of the miners of the blocks that were read mine, whatever the floors
in the two functions are. -/
structure OpensFreshWindows (chain : WindowChain) (cache : WindowCache) : Prop where
  floored : chain.lastMiners nodeFactorDefaultDepth ≠ [] → ∀ tip floored,
    ∃ miner ∈ chain.lastMiners nodeFactorDefaultDepth,
      outsideWindow (chain.getMiningDepth miner) (chain.flooredBlockWindowSize tip floored) = true
  computed : chain.lastMiners nodeFactorDefaultDepth ≠ [] →
    ∃ wz after, chain.getBlockWindowSize cache = .ok wz after ∧
      chain.LetsSomebodyMine nodeFactorDefaultDepth after
  flooredSecond : chain.lastMiners defaultWindowDepth ≠ [] → ∀ slow floored,
    ∃ miner ∈ chain.lastMiners defaultWindowDepth,
      outsideWindow (chain.getMiningDepth miner)
        (chain.flooredCalculatedSize defaultWindowDepth slow floored) = true
  computedSecond : chain.lastMiners defaultWindowDepth ≠ [] → ∀ tip, chain.tip = some tip →
    chain.isEnabledEpowV2 tip.nHeight = true →
      ∃ wz after, chain.calculateWindowSize defaultWindowDepth cache = .ok wz after ∧
        chain.LetsSomebodyMine defaultWindowDepth after

theorem getBlockWindowSize_opens {cache : WindowCache} (touched : cache.touched = true)
    (identified : chain.lastMiners nodeFactorDefaultDepth ≠ []) :
    ∃ wz after, chain.getBlockWindowSize cache = .ok wz after ∧
      chain.LetsSomebodyMine nodeFactorDefaultDepth after := by
  obtain ⟨tip, hasTip⟩ := tip_of_lastMiners identified
  obtain ⟨floored, sizeEq⟩ := exists_flooredBlockWindowSize chain tip
  have small : chain.flooredBlockWindowSize tip floored <
      chain.getNodeFactor nodeFactorDefaultDepth := flooredBlockWindowSize_lt tip floored
  rw [← sizeEq] at small
  refine ⟨chain.blockWindowSize tip, _, ?_, letsSomebodyMine (by decide) identified
    (answer_calledWindowSize_clean hasTip _) (.inl small)⟩
  rw [getBlockWindowSize_asksCache hasTip, if_pos touched]
  rfl

theorem calculateWindowSize_opens {cache : WindowCache} {tip : ActiveBlock} {wz : Int}
    {after : WindowCache} (touched : cache.touched = true)
    (identified : chain.lastMiners defaultWindowDepth ≠ []) (hasTip : chain.tip = some tip)
    (secondVersion : chain.isEnabledEpowV2 tip.nHeight = true)
    (isComputed : chain.calculateWindowSize defaultWindowDepth cache = .ok wz after) :
    chain.LetsSomebodyMine defaultWindowDepth after := by
  have within : defaultWindowDepth ≤ maxMiningDepthOfBlockWindow := by decide
  obtain ⟨computed, computes, small⟩ := computeWindowSize_small chain
  have asks := asksCache_of_computes computes
  have called : chain.calledWindowSize = chain.calculateWindowSize defaultWindowDepth := by
    unfold calledWindowSize
    rw [hasTip]
    exact if_pos secondVersion
  rw [asks, if_pos touched] at isComputed
  cases computed with
  | kept size =>
      obtain ⟨rfl, rfl⟩ := EStateM.Result.ok.inj isComputed
      exact letsSomebodyMine within identified (answer_calledWindowSize_clean hasTip _)
        (small _ rfl)
  | passedOn size =>
      obtain ⟨rfl, rfl⟩ := EStateM.Result.ok.inj isComputed
      have asked : answer (chain.calledWindowSize cache) = some size := by
        rw [called, asks, if_pos touched]
        rfl
      exact letsSomebodyMine within identified asked (small size rfl)
  | stopped => cases isComputed

theorem exists_getAncestor (isActive : chain.IsActive) {tip : ActiveBlock}
    (hasTip : chain.tip = some tip) {depth : Nat} (deep : depth ≤ tip.nHeight) :
    ∃ ancestor, chain.getAncestor (tip.nHeight - depth) = some ancestor := by
  have height := isActive 0 tip (by rw [← List.head?_eq_getElem?]; exact hasTip)
  have inside : depth < chain.blocks.length := by omega
  have stored := isActive depth _ (List.getElem?_eq_getElem inside)
  apply Option.isSome_iff_exists.1
  rw [getAncestor, List.find?_isSome]
  exact ⟨_, List.getElem_mem inside, decide_eq_true (by omega)⟩

/-- `CalculateWindowSize` computes a size just where its assertion holds. -/
theorem exists_calculateWindowSize_iff (isActive : chain.IsActive) {tip : ActiveBlock}
    (hasTip : chain.tip = some tip) (deep : defaultWindowDepth ≤ tip.nHeight)
    {cache : WindowCache} (touched : cache.touched = true) :
    (∃ wz after, chain.calculateWindowSize defaultWindowDepth cache = .ok wz after) ↔
      chain.params.interval.tdiv 4 ≤ tip.nHeight := by
  obtain ⟨ref, isRef⟩ := exists_getAncestor isActive hasTip deep
  obtain ⟨refNext, isRefNext⟩ := exists_getAncestor isActive hasTip
    (show defaultWindowDepth / 2 ≤ tip.nHeight by omega)
  have computes : chain.calculateWindowSize defaultWindowDepth cache =
      chain.computeWindowSize defaultWindowDepth cache := by
    unfold calculateWindowSize
    rw [bind_apply]
    change (if (!cache.touched) = true then pure cache.lastSize else _ : WindowM Int) cache = _
    rw [touched]
    rfl
  rw [computes, computeWindowSize, hasTip]
  dsimp only
  rw [isRef, isRefNext]
  dsimp only
  by_cases low : (tip.nHeight : Int) < chain.params.interval.tdiv 4
  · rw [if_pos low]
    refine ⟨?_, fun high => absurd low (not_lt.mpr high)⟩
    rintro ⟨wz, after, stopped⟩
    cases stopped
  · rw [if_neg low]
    refine ⟨fun _ => not_lt.mp low, fun _ => ?_⟩
    split
    · exact ⟨_, _, rfl⟩
    · split
      · exact ⟨_, _, rfl⟩
      · exact ⟨_, _, rfl⟩

/-- Fresh windows let somebody mine just where the assertion of `CalculateWindowSize` holds at the
tip, if it is asked about identified miners. -/
theorem opensFreshWindows_iff (isActive : chain.IsActive)
    (starts : (defaultWindowDepth : Int) ≤ chain.params.startHeightEpowV2) {cache : WindowCache}
    (touched : cache.touched = true) :
    chain.OpensFreshWindows cache ↔
      (chain.lastMiners defaultWindowDepth ≠ [] → ∀ tip, chain.tip = some tip →
        chain.isEnabledEpowV2 tip.nHeight = true →
          chain.params.interval.tdiv 4 ≤ tip.nHeight) := by
  have deep : ∀ tip : ActiveBlock, chain.isEnabledEpowV2 tip.nHeight = true →
      defaultWindowDepth ≤ tip.nHeight := by
    intro tip secondVersion
    have started := of_decide_eq_true secondVersion
    omega
  constructor
  · intro opens identified tip hasTip secondVersion
    obtain ⟨wz, after, computed, -⟩ := opens.computedSecond identified tip hasTip secondVersion
    exact (exists_calculateWindowSize_iff isActive hasTip (deep tip secondVersion) touched).mp
      ⟨wz, after, computed⟩
  · intro high
    refine ⟨fun identified tip floored => ?_, getBlockWindowSize_opens touched,
      fun identified slow floored => ?_, fun identified tip hasTip secondVersion => ?_⟩
    · exact exists_outsideWindow (by decide) identified (.inl (flooredBlockWindowSize_lt tip floored))
    · exact exists_outsideWindow (by decide) identified (flooredCalculatedSize_lt slow floored)
    · obtain ⟨wz, after, computed⟩ := (exists_calculateWindowSize_iff isActive hasTip
        (deep tip secondVersion) touched).mpr (high identified tip hasTip secondVersion)
      exact ⟨wz, after, computed,
        calculateWindowSize_opens touched identified hasTip secondVersion computed⟩

/-- A chain of blocks that one miner signs every two seconds. -/
def signedChain (height : Nat) (interval : Int) : WindowChain where
  params := ⟨112400, 2, interval⟩
  blocks := (List.range (height + 1)).map fun place =>
    ⟨⟨UInt32.ofNat (2 * (height - place)), [], List.replicate 34 '1'⟩, height - place⟩

theorem signedChain_isActive (height : Nat) (interval : Int) :
    (signedChain height interval).IsActive := by
  intro place block stored
  simp only [signedChain, List.getElem?_map, Option.map_eq_some_iff, List.length_map,
    List.length_range] at stored ⊢
  obtain ⟨other, isPlace, rfl⟩ := stored
  obtain ⟨inside, rfl⟩ := List.getElem?_eq_some_iff.mp isPlace
  simp only [List.length_range, List.getElem_range] at inside ⊢
  omega

theorem signedChain_tip (height : Nat) (interval : Int) :
    ∃ facts, (signedChain height interval).tip = some ⟨facts, height⟩ :=
  ⟨⟨UInt32.ofNat (2 * height), [], List.replicate 34 '1'⟩, by
    simp [signedChain, tip, List.range_succ_eq_map]⟩

theorem signedChain_secondVersion {height : Nat} (started : 112400 ≤ height) (interval : Int) :
    (signedChain height interval).isEnabledEpowV2 height = true :=
  decide_eq_true (show (112400 : Int) ≤ height by omega)

theorem signedChain_identified {height : Nat} (started : 112400 ≤ height) (interval : Int) :
    (signedChain height interval).lastMiners defaultWindowDepth ≠ [] := by
  obtain ⟨facts, hasTip⟩ := signedChain_tip height interval
  have last : (signedChain height interval).lastBlocks defaultWindowDepth =
      (List.range (min defaultWindowDepth height)).map fun place =>
        ⟨⟨UInt32.ofNat (2 * (height - place)), [], List.replicate 34 '1'⟩, height - place⟩ := by
    rw [lastBlocks, signedChain, List.range_succ, List.map_append, List.map_singleton,
      List.dropLast_concat, ← List.map_take, List.take_range]
  have first : 0 ∈ List.range (min defaultWindowDepth height) :=
    List.mem_range.mpr (lt_min (by decide) (by omega))
  refine @List.ne_nil_of_mem _ (List.replicate 34 '1') _ (List.mem_filter.mpr ⟨?_, by decide⟩)
  rw [last, List.map_map]
  refine List.mem_map.mpr ⟨0, first, ?_⟩
  simp [blockMinerAddress, hasTip, signedChain_secondVersion started interval]

/-- At target times of two seconds and adjustments every two weeks the first block of the second
version is not high enough for the assertion: nobody may mine. -/
theorem signedChain_locksOut : ¬ (signedChain 112400 604800).OpensFreshWindows .initial := by
  intro opens
  obtain ⟨facts, hasTip⟩ := signedChain_tip 112400 604800
  obtain ⟨wz, after, computed, -⟩ := opens.computedSecond (signedChain_identified le_rfl _) _ hasTip
    (signedChain_secondVersion le_rfl _)
  have high := (exists_calculateWindowSize_iff (signedChain_isActive _ _) hasTip
    (show 120 ≤ 112400 by decide) rfl).mp ⟨wz, after, computed⟩
  exact absurd high (show ¬ (604800 : Int).tdiv 4 ≤ 112400 by decide)

/-- At target times of fifteen seconds it is. -/
theorem opensFreshWindows_iff_signedChain :
    (signedChain 112400 80640).OpensFreshWindows .initial := by
  obtain ⟨facts, hasTip⟩ := signedChain_tip 112400 80640
  refine (opensFreshWindows_iff (signedChain_isActive _ _)
    (show (120 : Int) ≤ 112400 by decide) rfl).mpr fun _ tip isTip _ => ?_
  rw [hasTip] at isTip
  obtain rfl := Option.some.inj isTip
  exact (show (80640 : Int).tdiv 4 ≤ 112400 by decide)

end Checks

end WindowChain

end HdacNode
