import HdacNode.ChainSteps
import HdacNode.PermissionRows

/-!
# Arrival, invalidation and reconsideration of blocks

The other functions of `main.cpp` that write `setBlockIndexCandidates`: a block is received
and linked to its descendants, an operator invalidates or reconsiders a block, and the list
of banned transactions is set anew.
-/

namespace HdacNode

open FailingActions ChainM

namespace ChainState

variable (c : ChainState)

/-- `AddToBlockIndex`. -/
def addToBlockIndex (id : BlockID) : ChainState :=
  if id ∈ c.tree.blocks then c
  else { c with
    tree := { c.tree with blocks := id :: c.tree.blocks }
    index := Function.update c.index id { IndexEntry.null with
      nStatus := IndexEntry.null.nStatus.raiseValidity blockValidTree } }

/-- The `nCanMine` and `nHeightMinedByMe` that `UpdateChainMiningStatus` gives a block. -/
def miningStatus (hasWallet : Bool) (status : MinerStatus) (id : BlockID) : Nat × Int :=
  let mined := (c.index id).nHeightMinedByMe
  if !hasWallet then (status.canMine, mined)
  else if status.isMine then
    let canMine := match c.tree.parent id with
      | some prev => (c.index prev).nCanMine
      | none => mcPtpMine
    (if status.activeMinerCount < status.minerCount then 0 else canMine, c.tree.height id)
  else match c.tree.parent id with
    | none => (0, mined)
    | some prev =>
        let mined := (c.index prev).nHeightMinedByMe
        (if mined + status.minerCount - status.activeMinerCount > c.tree.height id then 0
          else (c.index prev).nCanMine, mined)

/-- `UpdateChainMiningStatus`. -/
def updateChainMiningStatus (hasWallet : Bool) (status : MinerStatus) (id : BlockID) :
    ChainState :=
  c.modifyIndex id fun entry => { entry with
    nCanMine := (c.miningStatus hasWallet status id).1
    nHeightMinedByMe := (c.miningStatus hasWallet status id).2 }

/-- The part of `ReceivedBlockTransactions` about the block itself. -/
def receiveData (nTx : Nat) (id : BlockID) : ChainState :=
  c.modifyIndex id fun entry => { entry with
    nTx := nTx
    nChainTx := 0
    nStatus := { entry.nStatus with haveData := true }.raiseValidity blockValidTransactions }

/-- The `nChainTx` and `nSequenceId` of a block whose ancestors have their data. -/
def sequenceBlock (id : BlockID) : ChainState :=
  let prevTx := match c.tree.parent id with
    | some prev => (c.index prev).nChainTx
    | none => 0
  { c.modifyIndex id fun entry => { entry with
      nChainTx := prevTx + entry.nTx
      nSequenceId := c.nextSequenceId } with
    nextSequenceId := c.nextSequenceId + 1 }

/-- The loop of `ReceivedBlockTransactions` over a block and the descendants that waited
for it; they come from `mapBlocksUnlinked`, so that its size bounds the rounds. -/
def linkBlocks : Nat → List BlockID → ChainState → ChainState
  | 0, _, c => c
  | _, [], c => c
  | fuel + 1, id :: queue, c =>
      let linked := (c.sequenceBlock id).insertCandidate id
      linkBlocks fuel (queue ++ (c.unlinked.filter (·.1 = id)).map Prod.snd)
        { linked with unlinked := c.unlinked.filter (·.1 ≠ id) }

/-- `ReceivedBlockTransactions`. -/
def receivedBlockTransactions (hasWallet : Bool) (status : MinerStatus) (nTx : Nat)
    (id : BlockID) : ChainState :=
  let received := (c.receiveData nTx id).updateChainMiningStatus hasWallet status id
  match received.tree.parent id with
  | none => linkBlocks (received.unlinked.length + 1) [id] received
  | some prev =>
      if (received.index prev).nChainTx ≠ 0 then
        linkBlocks (received.unlinked.length + 1) [id] received
      else if (received.index prev).nStatus.isValid blockValidTree then
        { received with unlinked := received.unlinked ++ [(prev, id)] }
      else received

/-- `SetBannedTxs`: the blocks with a banned transaction are candidates again. -/
def setBannedTxs : ChainState :=
  { (c.bannedBlocks.filter (· ∈ c.tree.blocks)).foldl insertCandidate c with bannedBlocks := [] }

end ChainState

/-- The checks of a block that `AcceptBlock` makes elsewhere: those of the header, the
signature, and `ContextualCheckBlock` with whether the data may be corrupt. -/
structure BlockChecks where
  headerPasses : Bool
  signaturePasses : Bool
  contextPasses : Bool
  corruptionPossible : Bool
  deriving DecidableEq, Repr

namespace NodeHooks

variable {World : Type} (hooks : NodeHooks World)

/-- `AcceptBlockHeader`. -/
def acceptBlockHeader (checks : BlockChecks) (id : BlockID) : ChainM World Bool := do
  let known ← askChain fun c => decide (id ∈ c.tree.blocks)
  let cleanBranch ← askChain fun c => (c.tree.parent id).all fun prev =>
    (c.branch prev).all fun member => !(c.index member).nStatus.failed
  if known then
    let failed ← askChain fun c => (c.index id).nStatus.failed
    pure (!failed && cleanBranch)
  else
    let prevPasses ← askChain fun c => (c.tree.parent id).all fun prev =>
      decide (prev ∈ c.tree.blocks) && !(c.index prev).nStatus.failed
    if checks.headerPasses ∧ prevPasses ∧ cleanBranch then
      setChain fun c => c.addToBlockIndex id
      pure true
    else pure false

/-- `AcceptBlock`. -/
def acceptBlock (checks : BlockChecks) (nTx : Nat) (id : BlockID) : ChainM World Bool := do
  if !(← acceptBlockHeader checks id) then pure false
  else if ← askChain fun c => (c.index id).nStatus.haveData then pure true
  else if !checks.signaturePasses then pure false
  else if !checks.contextPasses then
    runWhen (!checks.corruptionPossible) (setChain fun c => c.markFailed id)
    pure false
  else
    let status ← askWorld fun world => hooks.minerStatus world id
    setChain fun c => c.receivedBlockTransactions hooks.hasWallet status nTx id
    if ← hooks.verifyBlockMiner true id then pure true
    else
      setChain fun c => c.markFailed id
      pure false

/-- The loop of `InvalidateBlock`: an active block that contains the invalid one is marked
and disconnected. -/
def invalidateTip (tip : BlockID) : ChainM World Unit := do
  setChain fun c => (c.markFailedChild tip).eraseCandidate tip
  hooks.disconnectTip tip

/-- `InvalidateBlock`. -/
def invalidateBlock (id : BlockID) : ChainM World Unit := do
  setChain fun c => (c.markFailed id).eraseCandidate id
  let containing ← askChain fun c => c.activeChain.takeWhile fun active => id ∈ c.tree.path active
  containing.forM hooks.invalidateTip
  let valid ← askChain fun c => c.tree.blocks.filter c.hasTransactions
  let noTip ← askChain fun c => decide (c.tip = none)
  assertThat (valid.isEmpty || !noTip)
  setChain fun c => if valid.any c.beatsTip then c.insertCandidate id else c

/-- A block in the first loop of `ReconsiderBlock`. -/
def reconsiderDescendant (id other : BlockID) : ChainM World Unit := do
  let affected ← askChain fun c =>
    !(c.index other).nStatus.isValid blockValidTransactions && decide (id ∈ c.tree.path other)
  runWhen affected do
    setChain fun c => c.clearFailed other
    let complete ← askChain fun c => c.hasTransactions other
    let noTip ← askChain fun c => decide (c.tip = none)
    assertThat (!complete || !noTip)
    setChain fun c => if complete && c.beatsTip other then c.insertCandidate other else c

/-- `ReconsiderBlock`. -/
def reconsiderBlock (id : BlockID) : ChainM World Unit := do
  let blocks ← askChain fun c => c.tree.blocks
  blocks.forM (reconsiderDescendant id)
  setChain fun c => (c.tree.path id).foldl
    (fun c ancestor => if (c.index ancestor).nStatus.failed then c.clearFailed ancestor else c) c

end NodeHooks

end HdacNode
