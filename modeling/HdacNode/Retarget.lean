import HdacNode.CompactTarget

/-!
# The required work of a block

`pow.cpp`: which compact target the next block must have.  A chain is retargeted once in each
interval, and from a fixed height on after every block, by the work of the last blocks.
-/

namespace HdacNode

/-- The parameters of the proof of work, in the ranges of the parameter list. -/
structure PowParams where
  targetBlockTime : Nat
  powMinimumBits : Nat
  targetAdjustFreq : Int
  allowMinDifficultyBlocks : Bool
  two_le_targetBlockTime : 2 ≤ targetBlockTime
  targetBlockTime_le : targetBlockTime ≤ 86400
  one_le_powMinimumBits : 1 ≤ powMinimumBits
  powMinimumBits_le : powMinimumBits ≤ 32
  neg_one_le_targetAdjustFreq : -1 ≤ targetAdjustFreq
  targetAdjustFreq_le : targetAdjustFreq ≤ 4294967295

namespace PowParams

variable (params : PowParams)

/-- `ProofOfWorkLimit`. -/
def proofOfWorkLimit : Uint256 := ~~~(0 : Uint256) >>> params.powMinimumBits

/-- `TargetTimespan`, which an `int` was assigned to. -/
def targetTimespan : Int := asInt params.targetAdjustFreq

/-- `TargetSpacing`. -/
def targetSpacing : Int := asInt params.targetBlockTime

/-- `Interval`. -/
def interval : Int := params.targetTimespan.tdiv params.targetSpacing

/-- `LDA_TARGET_INTERVAL`. -/
def ldaTargetInterval (x : Int) : Int := params.interval.tdiv x

def startHeightDiffAlg : Int := 112400
def startHeightNewHashAlog : Int := 151880
def startHeightBlockRewardAdj2nd : Int := 183400

end PowParams

def sdaBlockSize : Int := 6
def sdaMaxTimeSpan : Int := 10 * 60
def timeXfactor : Int := 8
def timeFactor : Int := 4

/-- What a retarget reads of a block header. -/
structure PowHeader where
  nTime : UInt32
  nBits : UInt32
  deriving DecidableEq, Repr

/-- `GetBlockProof`. -/
def PowHeader.blockProof (header : PowHeader) : Uint256 :=
  let compact := setCompact header.nBits
  if compact.fNegative || compact.fOverflow || compact.target == 0 then 0
  else ~~~compact.target / (compact.target + 1) + 1

/-- A block index with the chain behind it. -/
inductive PowIndex where
  | genesis (header : PowHeader)
  | next (pprev : PowIndex) (header : PowHeader)
  deriving DecidableEq, Repr

namespace PowIndex

def header : PowIndex → PowHeader
  | genesis header => header
  | next _ header => header

/-- `nBits`. -/
def nBits (index : PowIndex) : UInt32 := index.header.nBits

/-- `GetBlockTime`. -/
def blockTime (index : PowIndex) : Int := index.header.nTime.toNat

/-- `pprev`. -/
def pprev : PowIndex → Option PowIndex
  | genesis _ => none
  | next pprev _ => some pprev

/-- `nHeight`. -/
def nHeight : PowIndex → Nat
  | genesis _ => 0
  | next pprev _ => pprev.nHeight + 1

/-- `nChainWork`. -/
def nChainWork : PowIndex → Uint256
  | genesis header => header.blockProof
  | next pprev header => pprev.nChainWork + header.blockProof

/-- The block so many steps behind. -/
def stepsBack : PowIndex → Nat → Option PowIndex
  | index, 0 => some index
  | genesis _, _ + 1 => none
  | next pprev _, steps + 1 => pprev.stepsBack steps

/-- `GetAncestor`. -/
def getAncestor (index : PowIndex) (height : Int) : Option PowIndex :=
  if index.nHeight < height ∨ height < 0 then none
  else index.stepsBack (index.nHeight - height).toNat

end PowIndex

/-- A pointer that is followed. -/
def follow (pindex : Option PowIndex) : Except PowStop PowIndex :=
  pindex.elim (.error .nullPointer) .ok

/-- `assert`. -/
def assertPow (condition : Prop) [Decidable condition] : Except PowStop Unit :=
  if condition then .ok () else .error .assertion

/-- An integer quotient. -/
def quotient (a b : Int) : Except PowStop Int :=
  if b = 0 then .error .divisionByZero else .ok (a.tdiv b)

namespace PowParams

variable (params : PowParams)

/-- The part of a long timespan that a slow average adds to it. -/
def adjustedTime (nAvgTime ldaActTime : Int) : Int :=
  if sdaMaxTimeSpan * 6 < nAvgTime then ldaActTime >>> (1 : Nat)
  else if sdaMaxTimeSpan * 3 < nAvgTime then ldaActTime >>> (2 : Nat)
  else ldaActTime >>> (3 : Nat)

/-- `GetSDAadjustedTime`. -/
def getSDAadjustedTime (pindexPrev : PowIndex) (ldaActTime xfactor : Int) :
    Except PowStop Int := do
  let range := asInt (params.ldaTargetInterval xfactor)
  if pindexPrev.nHeight < sdaBlockSize * 4 then .ok 0
  else
    let pindexFirst ← follow (pindexPrev.getAncestor (pindexPrev.nHeight - sdaBlockSize))
    let nActualTimespan := pindexPrev.blockTime - pindexFirst.blockTime
    let nAvgTime := nActualTimespan.tdiv sdaBlockSize
    if nAvgTime < sdaMaxTimeSpan then .ok 0
    else
      let average ← quotient ldaActTime range
      if nAvgTime ≤ average then .ok 0
      else .ok (adjustedTime nAvgTime ldaActTime)

/-- The bounds that `GetTargetPow` sets on a timespan. -/
def boundTimespan (interval factor sdaFactor nActualTimespan : Int) : Int :=
  if interval * factor * sdaFactor * params.targetSpacing < nActualTimespan then
    let lfactor := asInt (interval * factor * params.targetSpacing)
    if sdaFactor = 1 then
      if lfactor + lfactor >>> (1 : Nat) < nActualTimespan then lfactor + lfactor >>> (1 : Nat)
      else if lfactor + lfactor >>> (2 : Nat) < nActualTimespan then lfactor + lfactor >>> (2 : Nat)
      else lfactor
    else interval * factor * sdaFactor * params.targetSpacing
  else if nActualTimespan < interval.tdiv factor * params.targetSpacing then
    interval.tdiv factor * params.targetSpacing
  else nActualTimespan

/-- `GetTargetPow`. -/
def getTargetPow (pindexFirst pindexPrev : PowIndex) (xfactor factor : Int) :
    Except PowStop Uint256 := do
  assertPow (pindexFirst.nHeight < pindexPrev.nHeight)
  let work :=
    (pindexPrev.nChainWork - pindexFirst.nChainWork) * Uint256.factor params.targetSpacing
  let interval := params.ldaTargetInterval xfactor
  let nActualTimespan := pindexPrev.blockTime - pindexFirst.blockTime
  let adjusttime ← params.getSDAadjustedTime pindexPrev nActualTimespan xfactor
  let sdaFactor := if 0 < adjusttime then 2 else 1
  let bounded := params.boundTimespan interval factor sdaFactor (nActualTimespan + adjusttime)
  let work ← work.divide (.ofInt64 bounded)
  (-work).divide work

/-- A target that is not above the limit. -/
def limitTarget (target : Uint256) : Uint256 :=
  if params.proofOfWorkLimit < target then params.proofOfWorkLimit else target

/-- `ReduceWorkTarget`. -/
def reduceWorkTarget (pindexPrev : PowIndex) (scale : Int) : Except PowStop UInt32 :=
  getCompact (params.limitTarget ((setCompact pindexPrev.nBits).target * Uint256.factor scale))

/-- `GetLDAWorkRequired`. -/
def getLDAWorkRequired (pindexPrev : PowIndex) : Except PowStop UInt32 := do
  assertPow (params.ldaTargetInterval timeXfactor ≤ pindexPrev.nHeight)
  let nHeightFirst := pindexPrev.nHeight - params.ldaTargetInterval timeXfactor
  let found := pindexPrev.getAncestor nHeightFirst
  assertPow (found ≠ none)
  let pindexFirst ← follow found
  let target ← params.getTargetPow pindexFirst pindexPrev timeXfactor timeFactor
  let nextTarget := params.limitTarget target
  if pindexPrev.nHeight < startHeightNewHashAlog - 1 then getCompact nextTarget
  else if pindexPrev.nHeight = startHeightNewHashAlog - 1 then
    params.reduceWorkTarget pindexPrev 100
  else if pindexPrev.nHeight < startHeightNewHashAlog + params.ldaTargetInterval timeXfactor then
    .ok pindexPrev.nBits
  else if pindexPrev.nHeight < startHeightBlockRewardAdj2nd - 1 then getCompact nextTarget
  else if pindexPrev.nHeight = startHeightBlockRewardAdj2nd - 1 then
    params.reduceWorkTarget pindexPrev 10
  else if pindexPrev.nHeight <
      startHeightBlockRewardAdj2nd + params.ldaTargetInterval timeXfactor then
    .ok pindexPrev.nBits
  else getCompact nextTarget

/-- Whether a block may have the minimal difficulty, for its long time after the one before. -/
def minDifficultyAllowed (pindexLast : PowIndex) (blockTime : UInt32) : Prop :=
  params.allowMinDifficultyBlocks = true ∧
    pindexLast.blockTime + 2 * params.targetSpacing < blockTime.toNat

instance (pindexLast : PowIndex) (blockTime : UInt32) :
    Decidable (params.minDifficultyAllowed pindexLast blockTime) :=
  inferInstanceAs (Decidable (_ ∧ _))

/-- `GetTargetWorkRequired`. -/
def getTargetWorkRequired (pindexPrev : PowIndex) (blockTime : UInt32) :
    Except PowStop UInt32 := do
  let nProofOfWorkLimit ← getCompact params.proofOfWorkLimit
  if params.interval ≤ 0 then .ok nProofOfWorkLimit
  else if params.minDifficultyAllowed pindexPrev blockTime then
    getCompact params.proofOfWorkLimit
  else params.getLDAWorkRequired pindexPrev

/-- The loop to the last block that was not let in at the minimal difficulty. -/
def lastNormalBlock (nProofOfWorkLimit : UInt32) : PowIndex → PowIndex
  | .genesis header => .genesis header
  | .next pprev header =>
    if ((PowIndex.next pprev header).nHeight : Int).tmod params.interval ≠ 0 ∧
        header.nBits = nProofOfWorkLimit then
      lastNormalBlock nProofOfWorkLimit pprev
    else .next pprev header

/-- The bounds that `GetBTCWorkRequired` sets on a timespan. -/
def limitTimespan (nActualTimespan : Int) : Int :=
  let raised := if nActualTimespan < params.targetTimespan.tdiv 4 then
    params.targetTimespan.tdiv 4 else nActualTimespan
  if params.targetTimespan * 4 < raised then params.targetTimespan * 4 else raised

/-- The loop over `pprev`, which ends early at a null pointer. -/
def walkBack : Nat → Option PowIndex → Option PowIndex
  | 0, pindexFirst => pindexFirst
  | steps + 1, pindexFirst => walkBack steps (pindexFirst.bind PowIndex.pprev)

/-- `GetBTCWorkRequired`. -/
def getBTCWorkRequired (pindexLast : PowIndex) (blockTime : UInt32) :
    Except PowStop UInt32 := do
  let nProofOfWorkLimit ← getCompact params.proofOfWorkLimit
  if params.interval ≤ 0 then .ok nProofOfWorkLimit
  else if ((pindexLast.nHeight : Int) + 1).tmod params.interval ≠ 0 then
    if params.allowMinDifficultyBlocks then
      if params.minDifficultyAllowed pindexLast blockTime then .ok nProofOfWorkLimit
      else .ok (params.lastNormalBlock nProofOfWorkLimit pindexLast).nBits
    else .ok pindexLast.nBits
  else
    let found := walkBack (params.interval - 1).toNat (some pindexLast)
    assertPow (found ≠ none)
    let pindexFirst ← follow found
    let nActualTimespan := params.limitTimespan (pindexLast.blockTime - pindexFirst.blockTime)
    let bnNew := (setCompact pindexLast.nBits).target * Uint256.factor nActualTimespan
    let bnNew ← bnNew.divide (.ofInt64 params.targetTimespan)
    getCompact (params.limitTarget bnNew)

/-- `GetNextWorkRequired`. -/
def getNextWorkRequired (pindexLast : PowIndex) (blockTime : UInt32) :
    Except PowStop UInt32 :=
  let nHeight : Int := pindexLast.nHeight + 1
  let isEnabledNewAlg := params.interval ≤ nHeight ∧ startHeightDiffAlg ≤ nHeight
  if isEnabledNewAlg then params.getTargetWorkRequired pindexLast blockTime
  else params.getBTCWorkRequired pindexLast blockTime

end PowParams

end HdacNode
