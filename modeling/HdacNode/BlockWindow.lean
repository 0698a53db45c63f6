import Mathlib.Tactic.Ring
import HdacNode.ChainActivation
import Mathlib.Data.List.Dedup

/-!
# The block window

`epow.cpp`: a miner may not mine again within a window behind its last block.  The window
functions read the active chain, and the size of the window is kept in
`BLOCKWINDOW_LAST_SZ` until `BLOCKWINDOW_TOUCHED` is set.
-/

namespace HdacNode

open FailingActions

section SinglePrecision

/-- A `float`, of which the significand has 24 bits or is `2 ^ 24`. -/
structure Single where
  significand : Nat
  exponent : Int
  deriving DecidableEq, Repr

namespace Single

/-- A quotient rounded to the nearest natural number, and to an even one if two are as
near. -/
def nearestEven (num den : Nat) : Nat :=
  let low := num / den
  let rest := num % den
  if den < 2 * rest ∨ (2 * rest = den ∧ low % 2 = 1) then low + 1 else low

/-- A quotient rounded to single precision. -/
def ofRatio (num den : Nat) : Single :=
  if num = 0 then ⟨0, 0⟩
  else
    let scale : Int := (num.log2 : Int) - den.log2 - 23
    let scaled (exponent : Int) : Nat × Nat :=
      (num * 2 ^ (-exponent).toNat, den * 2 ^ exponent.toNat)
    let exponent :=
      if (scaled scale).1 < 2 ^ 23 * (scaled scale).2 then scale - 1 else scale
    ⟨nearestEven (scaled exponent).1 (scaled exponent).2, exponent⟩

/-- The product with an integer that single precision represents. -/
def mulNat (x : Single) (n : Nat) : Single :=
  ofRatio (x.significand * n * 2 ^ x.exponent.toNat) (2 ^ (-x.exponent).toNat)

/-- The quotient by an integer that single precision represents. -/
def divNat (x : Single) (n : Nat) : Single :=
  ofRatio (x.significand * 2 ^ x.exponent.toNat) (n * 2 ^ (-x.exponent).toNat)

/-- `std::floor`. -/
def floor (x : Single) : Nat :=
  x.significand * 2 ^ x.exponent.toNat / 2 ^ (-x.exponent).toNat

end Single

/-- The conversion to a 32-bit `int`. -/
def asInt (n : Int) : Int := n.bmod (2 ^ 32)

end SinglePrecision

/-- What the window functions read of a block. -/
structure BlockFacts where
  nTime : UInt32
  coinbaseAddress : List Char
  signerAddress : List Char
  deriving DecidableEq, Repr

/-- A block of the active chain. -/
structure ActiveBlock extends BlockFacts where
  nHeight : Nat
  deriving DecidableEq, Repr

/-- `GetBlockTime`. -/
def BlockFacts.blockTime (block : BlockFacts) : Int := block.nTime.toNat

/-- `MCP_TARGET_BLOCK_TIME`, and of `Params()` the start height of the second version and
`Interval()`. -/
structure WindowParams where
  startHeightEpowV2 : Int
  targetBlockTime : Int
  interval : Int
  deriving DecidableEq, Repr

/-- `BLOCKWINDOW_TOUCHED`, `BLOCKWINDOW_LAST_SZ` and `BW_CUR_WZ`. -/
structure WindowCache where
  touched : Bool
  lastSize : Int
  currentSize : Int
  deriving DecidableEq, Repr

/-- The values at the start of the node. -/
def WindowCache.initial : WindowCache := ⟨true, 0, 0⟩

/-- Actions on the cached size; a null pointer that is followed counts as a failed
assertion. -/
abbrev WindowM := EStateM ChainStop WindowCache

def nodeFactorRate : Single := .ofRatio 7 10
def blockNumOfMaxBlockWindow : Nat := 1752000
def maxMiningDepthOfBlockWindow : Nat := 700
def nodeFactorDefaultDepth : Nat := 480
def hdacTargetBlockTimeMultiple : Int := 20
def miningMarginRate : Nat := 3
def miningNf : Nat := 10
def blockTimeMultiple : Nat := 2
def miningFactor : Nat := miningMarginRate * blockTimeMultiple
def blockTimeMaxLimit : Int := 4

/-- The addresses from this length on count as those of miners. -/
def properAddressLength : Nat := 0x20

/-- The parameters and the active chain from its tip down to the genesis block. -/
structure WindowChain where
  params : WindowParams
  blocks : List ActiveBlock
  deriving DecidableEq, Repr

namespace WindowChain

variable (chain : WindowChain)

section Scans

/-- `IsEnabledEpowV2`. -/
def isEnabledEpowV2 (nHeight : Nat) : Bool :=
  decide (chain.params.startHeightEpowV2 ≤ nHeight)

/-- `chainActive.Tip()`. -/
def tip : Option ActiveBlock := chain.blocks.head?

/-- `GetAncestor` of the tip. -/
def getAncestor (height : Int) : Option ActiveBlock :=
  chain.blocks.find? fun block => decide ((block.nHeight : Int) = height)

/-- `GetBlockMinerAddress`. -/
def blockMinerAddress (block : BlockFacts) : List Char :=
  match chain.tip with
  | some tip =>
      if !chain.isEnabledEpowV2 tip.nHeight then block.coinbaseAddress else block.signerAddress
  | none => block.signerAddress

/-- The loop over the last blocks that have a parent. -/
def lastBlocks (depth : Nat) : List ActiveBlock := chain.blocks.dropLast.take depth

/-- The proper addresses of the miners of the last blocks. -/
def lastMiners (depth : Nat) : List (List Char) :=
  ((chain.lastBlocks depth).map fun block => chain.blockMinerAddress block.toBlockFacts).filter
    fun miner => decide (properAddressLength ≤ miner.length)

/-- The block was mined by a miner with a proper address. -/
def isMinedBy (strAddr : List Char) (block : ActiveBlock) : Bool :=
  let miner := chain.blockMinerAddress block.toBlockFacts
  decide (properAddressLength ≤ miner.length) && decide (strAddr = miner)

/-- `GetNodeFactor`; `GetNodeFactor(depth, 0)` gives the same for a tip. -/
def getNodeFactor (depth : Nat) : Int := (chain.lastMiners depth).dedup.length

/-- `GetMiningDepth`. -/
def getMiningDepth (strAddr : List Char) : Int :=
  match (chain.lastBlocks maxMiningDepthOfBlockWindow).findIdx? (chain.isMinedBy strAddr) with
  | some depth => depth
  | none => -1

/-- `GetMiningContinuity`. -/
def getMiningContinuity (strAddr : List Char) (depth : Nat) : Int :=
  ((chain.lastMiners depth).takeWhile fun miner => decide (strAddr = miner)).length

/-- The blocks of a miner that `GetMiningCount` counts. -/
def minedBlocks (depth : Nat) (strAddr : List Char) : List ActiveBlock :=
  (chain.lastBlocks depth).filter (chain.isMinedBy strAddr)

/-- `GetMiningCount`. -/
def getMiningCount (depth : Nat) (strAddr : List Char) : Int :=
  (chain.minedBlocks depth strAddr).length

/-- The time that `GetMiningCount` gives back. -/
def miningTime (depth : Nat) (strAddr : List Char) : Int :=
  let mined := chain.minedBlocks depth strAddr
  match mined.head?, mined.getLast? with
  | some front, some back =>
      asInt ((front.blockTime - back.blockTime).tdiv mined.length)
  | _, _ => 0

end Scans

section Sizes

/-- The size that `GetBlockWindowSize` computes at a tip. -/
def blockWindowSize (tip : ActiveBlock) : Int :=
  let nf := chain.getNodeFactor nodeFactorDefaultDepth
  let x := tip.nHeight
  let blockWz : Int :=
    if chain.isEnabledEpowV2 x then
      if 1 < (nodeFactorRate.mulNat nf.toNat).floor then 1 else 0
    else if blockNumOfMaxBlockWindow < x then (nodeFactorRate.mulNat nf.toNat).floor
    else (((nodeFactorRate.mulNat x).mulNat nf.toNat).divNat blockNumOfMaxBlockWindow).floor
  if nf ≤ blockWz then nf - 1 else blockWz

/-- The size that `CalculateWindowSize` computes.  If the blocks since the reference block
took more than twice the time of the window, `slow` tells whether those of the last half
took more than that time. -/
def calculatedSize (nDepth : Nat) (slow : Option Bool) : Int :=
  let counted := chain.getNodeFactor nDepth
  let half : Int := nDepth / 2
  let nf := if counted < nDepth / 16 ∨ half < counted then half else counted
  let blockWz : Int := ((nodeFactorRate.mulNat (nDepth / nf.toNat)).floor : Nat) / 2
  if nf = half then min blockWz 0
  else match slow with
    | some true => min blockWz 1
    | some false => min (max blockWz 1) 1
    | none => if nf < nDepth / 8 then min (max blockWz 1) 2 else min (max blockWz 1) 1

/-- The size is kept until the next touch. -/
def storeSize (blockWz : Int) : WindowM Int :=
  update fun _ => (blockWz, ⟨false, blockWz, blockWz⟩)

/-- `GetBlockWindowSize`. -/
def getBlockWindowSize : WindowM Int := do
  let cache ← query id
  if !cache.touched then pure cache.lastSize
  else match chain.tip with
    | some tip => storeSize (chain.blockWindowSize tip)
    | none => pure cache.lastSize

/-- `CalculateWindowSize` behind its question for the kept size. -/
def computeWindowSize (nDepth : Nat) : WindowM Int :=
  match chain.tip with
  | none => throw .assertion
  | some tip =>
      if (tip.nHeight : Int) < chain.params.interval.tdiv 4 then throw .assertion
      else match chain.getAncestor (tip.nHeight - nDepth) with
        | none => throw .assertion
        | some ref =>
            let nRefBlkTime := asInt (tip.blockTime - ref.blockTime)
            let nWindowTime := asInt (nDepth * chain.params.interval)
            if nDepth = 0 ∨ nWindowTime = 0 then pure (-1)
            else if nWindowTime * 2 < nRefBlkTime then
              match chain.getAncestor (tip.nHeight - (nDepth / 2 : Nat)) with
              | none => throw .assertion
              | some refNext =>
                  let nRefBlkTimenext := asInt (tip.blockTime - refNext.blockTime)
                  storeSize (chain.calculatedSize nDepth
                    (some (decide (nWindowTime < nRefBlkTimenext))))
            else storeSize (chain.calculatedSize nDepth none)

/-- `CalculateWindowSize`. -/
def calculateWindowSize (nDepth : Nat) : WindowM Int := do
  let cache ← query id
  if !cache.touched then pure cache.lastSize else chain.computeWindowSize nDepth

/-- The default depth of `CalculateWindowSize`. -/
def defaultWindowDepth : Nat := 120

end Sizes

section Verdicts

/-- The size that `CheckBlockWindow` asks for. -/
def calledWindowSize : WindowM Int :=
  match chain.tip with
  | none => throw .assertion
  | some tip =>
      if chain.isEnabledEpowV2 tip.nHeight then chain.calculateWindowSize defaultWindowDepth
      else chain.getBlockWindowSize

/-- A miner whose last block has this depth may mine with a window of this size. -/
def outsideWindow (miningDepth wz : Int) : Bool :=
  decide (miningDepth < 0) || !decide (miningDepth < wz)

/-- `CheckBlockWindow`. -/
def checkBlockWindow (strMiner : List Char) : WindowM Bool := do
  let wz ← chain.calledWindowSize
  pure (outsideWindow (chain.getMiningDepth strMiner) wz)

/-- `IsMiningBlackout`. -/
def isMiningBlackout (now : Int) : WindowM Bool := do
  match chain.tip with
  | none => pure false
  | some tip =>
      if chain.params.targetBlockTime * hdacTargetBlockTimeMultiple < now - tip.blockTime then
        let wz ← chain.getBlockWindowSize
        pure (decide (wz < chain.getNodeFactor nodeFactorDefaultDepth))
      else pure false

/-- `GetEpowWindow`. -/
def getEpowWindow (nf number factor : Int) : Bool :=
  if factor < 0 then
    if nf ≤ miningMarginRate then !decide (miningMarginRate + 1 < number)
    else if nf < miningFactor then !decide (miningMarginRate < number)
    else true
  else decide (miningMarginRate ≤ nf) || decide (number < miningFactor)

/-- `VerifyWindowWithEpow`. -/
def verifyWindowWithEpow (now blkDifftime termTime : Int) (strAddr : List Char) (nfNew : Int)
    (myTime miningCountThisMiner : Int) : WindowM Bool := do
  match chain.tip with
  | none => pure false
  | some tip =>
      let target := chain.params.targetBlockTime
      if blkDifftime < target then
        if termTime < target ∧ 0 < chain.getMiningCount miningMarginRate strAddr then pure false
        else if termTime < target ∧ 1 < miningCountThisMiner ∧ myTime < target - 30 then pure false
        else if getEpowWindow nfNew miningCountThisMiner (-1) then chain.checkBlockWindow strAddr
        else pure false
      else if target * blockTimeMaxLimit * blockTimeMaxLimit < now - tip.blockTime then pure true
      else if target * blockTimeMaxLimit < blkDifftime then
        if getEpowWindow nfNew (chain.getMiningContinuity strAddr miningNf) miningCountThisMiner
        then pure true
        else chain.checkBlockWindow strAddr
      else chain.checkBlockWindow strAddr

/-- The continuity that a mining blackout allows. -/
def blackoutAllows (nf miningContinuity : Int) : Bool :=
  if nf < 3 then true
  else if nf < 20 then decide (miningContinuity < 2)
  else if nf < 40 then decide (miningContinuity < 3)
  else if nf < 80 then decide (miningContinuity < 4)
  else decide (miningContinuity < 5)

/-- `VerifyBlockWindow`, for a block of a peer or an own one. -/
def verifyBlockWindow (fromPeer : Bool) (now : Int) (block : BlockFacts) : WindowM Bool := do
  let late := decide (chain.params.targetBlockTime * hdacTargetBlockTimeMultiple <
    now - block.blockTime)
  let strMiner := chain.blockMinerAddress block
  if fromPeer && late then pure true
  else if strMiner.length < properAddressLength then pure false
  else match chain.tip with
    | none => pure false
    | some tip =>
        if chain.isEnabledEpowV2 tip.nHeight then
          match chain.getAncestor (tip.nHeight - miningMarginRate) with
          | none => throw .assertion
          | some ref =>
              chain.verifyWindowWithEpow now (block.blockTime - tip.blockTime)
                (tip.blockTime - ref.blockTime) strMiner (chain.getNodeFactor miningNf)
                (chain.miningTime (miningNf * blockTimeMultiple) strMiner)
                (chain.getMiningCount (miningNf * blockTimeMultiple) strMiner)
        else do
          let blackout ← chain.isMiningBlackout now
          if blackout && blackoutAllows (chain.getNodeFactor nodeFactorDefaultDepth)
              (chain.getMiningContinuity strMiner maxMiningDepthOfBlockWindow) then pure true
          else chain.checkBlockWindow strMiner

/-- `CheckePoWRule`, during the download of the first blocks or later. -/
def checkePoWRule (initialDownload : Bool) (now : Int) (strMiner : List Char) :
    WindowM Bool := do
  let currentSize ← query WindowCache.currentSize
  if initialDownload then pure true
  else if currentSize < chain.getMiningContinuity strMiner maxMiningDepthOfBlockWindow then
    let blackout ← chain.isMiningBlackout now
    pure !blackout
  else pure true

end Verdicts

end WindowChain

end HdacNode
