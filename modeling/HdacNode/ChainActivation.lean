import HdacNode.BlockTree
import HdacNode.FailingActions

/-!
# Choosing and activating a chain

The functions of `main.cpp` that write the tree of blocks.  What they leave to the rest of
the node, such as connecting a block to the coins and the stores, is a hook on the state
of that rest.
-/

namespace HdacNode

open FailingActions

/-- How `ConnectTip` ends: a block may break a rule, and it may be the wrong data for
its header. -/
inductive ConnectVerdict where
  | connected
  | invalid (corruptionPossible : Bool)
  | error
  deriving DecidableEq, Repr

/-- What the loop of `VerifyBlockMiner` finds about a block of the branch. -/
inductive MinerJudgement where
  | passed
  | skipped
  | rejected
  deriving DecidableEq, Repr

/-- What `UpdateChainMiningStatus` asks about the miner of a block. -/
structure MinerStatus where
  canMine : Nat
  isMine : Bool
  minerCount : Int
  activeMinerCount : Int
  deriving DecidableEq, Repr

/-- The rest of the node: `disconnectBlock` and `connectBlock` undo and apply a block,
`updateMemPool` is the clean-up and replay behind an activation step, `readsBlock` tells
whether a block can be read from disk, `judgeMiner` is the verification of a block of a
branch for the miner of its last block, `tipCanMine` is the `nCanMine` that the wallet
gives the tip, and `flushState` writes the state to disk. -/
structure NodeHooks (World : Type) where
  disconnectBlock : World → BlockID → Bool × World
  connectBlock : World → BlockID → ConnectVerdict × World
  updateMemPool : World → World
  readsBlock : World → BlockID → Bool
  prechecksMiners : Bool
  judgeMiner : World → BlockID → BlockID → MinerJudgement × World
  hasWallet : Bool
  tipCanMine : World → Nat
  minerStatus : World → BlockID → MinerStatus
  flushState : World → Bool × World

/-- The tree of blocks and the rest of the node. -/
structure NodeChain (World : Type) where
  chain : ChainState
  world : World

/-- Why a function does not go on: it returns false for a system error, an assertion
fails, or a loop is still running. -/
inductive ChainStop where
  | systemError
  | assertion
  | running
  deriving DecidableEq, Repr

/-- The actions on the tree of blocks. -/
abbrev ChainM (World : Type) := EStateM ChainStop (NodeChain World)

namespace ChainM

variable {World : Type}

/-- Read the tree of blocks. -/
def askChain {α : Type} (read : ChainState → α) : ChainM World α :=
  query fun node => read node.chain

/-- Change the tree of blocks. -/
def setChain (change : ChainState → ChainState) : ChainM World Unit :=
  update fun node => ((), { node with chain := change node.chain })

/-- Leave something to the rest of the node. -/
def callWorld {α : Type} (hook : World → α × World) : ChainM World α :=
  update fun node => ((hook node.world).1, { node with world := (hook node.world).2 })

/-- Read the rest of the node. -/
def askWorld {α : Type} (read : World → α) : ChainM World α :=
  query fun node => read node.world

/-- `assert`. -/
def assertThat (condition : Bool) : ChainM World Unit :=
  if condition then pure () else throw .assertion

/-- Act under a condition. -/
def runWhen (condition : Bool) (act : ChainM World Unit) : ChainM World Unit :=
  if condition then act else pure ()

end ChainM

open ChainM

namespace ChainState

variable (c : ChainState)

/-- `LastCommonAncestor`. -/
def lastCommonAncestor (pa pb : BlockID) : Option BlockID :=
  c.tree.fork (c.tree.path pb) pa

/-- The block that stands in for a candidate: its last common ancestor with the locked
block, if it does not contain that block. -/
def standIn (id : BlockID) : Option BlockID :=
  match c.lockedBlock with
  | none => some id
  | some locked => (c.lastCommonAncestor id locked).map fun ancestor =>
      if ancestor ≠ locked then ancestor else id

/-- A block failed or has a banned transaction. -/
def isBad (id : BlockID) : Bool :=
  (c.index id).nStatus.failed || decide (id ∈ c.bannedBlocks)

/-- `InvalidBlockFound` and the other places that mark a block as failed. -/
def markFailed (id : BlockID) : ChainState :=
  c.modifyStatus id fun status => { status with failedValid := true }

/-- Mark a block as the descendant of a failed one. -/
def markFailedChild (id : BlockID) : ChainState :=
  c.modifyStatus id fun status => { status with failedChild := true }

/-- Remove `BLOCK_FAILED_MASK`. -/
def clearFailed (id : BlockID) : ChainState :=
  c.modifyStatus id fun status => { status with failedValid := false, failedChild := false }

/-- `fPassedMinerPrecheck` is set. -/
def passPrecheck (id : BlockID) : ChainState :=
  c.modifyIndex id fun entry => { entry with fPassedMinerPrecheck := true }

/-- A block with its data and that of all its ancestors. -/
def hasTransactions (id : BlockID) : Bool :=
  (c.index id).nStatus.isValid blockValidTransactions && decide ((c.index id).nChainTx ≠ 0)

/-- The tip is ordered before a block. -/
def beatsTip (id : BlockID) : Bool :=
  match c.tip with
  | none => true
  | some tip => c.worksLess tip id

end ChainState

namespace NodeHooks

variable {World : Type} (hooks : NodeHooks World)

section Prechecks

/-- The loop of `VerifyBlockMiner` over the branch. -/
def judgeBranch (new : BlockID) : List BlockID → ChainM World Bool
  | [] => pure true
  | member :: rest => do
      match ← callWorld fun world => hooks.judgeMiner world new member with
      | .passed => do
          setChain fun c => c.passPrecheck member
          judgeBranch new rest
      | .skipped => pure true
      | .rejected => pure false

/-- `VerifyBlockMiner`, for a block that is given or read from disk. -/
def verifyBlockMiner (given : Bool) (new : BlockID) : ChainM World Bool := do
  let branch ← askChain fun c => c.branch new
  let root ← askChain fun c => decide (c.tree.parent new = none)
  if !hooks.prechecksMiners ∨ root ∨ branch = [] then
    setChain fun c => c.passPrecheck new
    pure true
  else
    let haveData ← askChain fun c => (c.index new).nStatus.haveData
    let reads ← askWorld fun world => hooks.readsBlock world new
    if !given ∧ (!haveData ∨ !reads) then pure true
    else
      let failed ← askChain fun c => branch.any fun member => (c.index member).nStatus.failed
      if failed then pure false else hooks.judgeBranch new branch.reverse

end Prechecks

section MostWork

/-- A candidate in the loop of `FindMostWorkChain` that collects the blocks to choose
from. -/
def collectCandidate (chosen : List BlockID) (candidate : BlockID) :
    ChainM World (List BlockID) := do
  match ← askChain fun c => c.standIn candidate with
  | none => throw .assertion
  | some standIn => do
      let passed ← askChain fun c => (c.index standIn).fPassedMinerPrecheck
      let rejected ←
        (if passed then pure false
          else do return !(← hooks.verifyBlockMiner false standIn) : ChainM World Bool)
      runWhen rejected (setChain fun c => c.markFailed standIn)
      askChain fun c =>
        if (c.index standIn).fPassedMinerPrecheck then c.insertInOrder standIn chosen else chosen

/-- The way from a chosen block to the active chain: the asserts hold up to the first
block that is failed or banned, which is the answer. -/
def testBranch : List BlockID → ChainM World (Option BlockID)
  | [] => pure none
  | member :: rest => do
      let hasData ← askChain fun c => (c.index member).nStatus.haveData &&
        (decide ((c.index member).nChainTx ≠ 0) || decide (c.tree.height member = 0))
      assertThat hasData
      if ← askChain fun c => c.isBad member then pure (some member) else testBranch rest

/-- Remove the blocks from a chosen block to its failed ancestor from the candidates. -/
def removeBranch (branch : List BlockID) (failed : BlockID) : ChainM World Unit := do
  (branch.takeWhile (· ≠ failed)).forM fun member => do
    setChain fun c => (c.markFailedChild member).eraseCandidate member
  setChain fun c => c.eraseCandidate failed

/-- A round of `FindMostWorkChain`: the answer, or none if another round follows. -/
def findMostWorkRound : ChainM World (Option (Option BlockID)) := do
  let candidates ← askChain ChainState.candidates
  let chosen ← candidates.foldlM hooks.collectCandidate []
  match chosen.getLast? with
  | none => pure (some none)
  | some new => do
      let branch ← askChain fun c => c.branch new
      match ← testBranch branch with
      | none => pure (some (some new))
      | some failed => do
          removeBranch branch failed
          pure none

/-- `FindMostWorkChain`, for a number of rounds. -/
def findMostWorkChain : Nat → ChainM World (Option BlockID)
  | 0 => throw .running
  | rounds + 1 => do
      match ← hooks.findMostWorkRound with
      | some answer => pure answer
      | none => findMostWorkChain rounds

end MostWork

section Steps

/-- `PruneBlockIndexCandidates`. -/
def pruneBlockIndexCandidates : ChainM World Unit := do
  setChain fun c => match c.tip with
    | none => c
    | some tip => { c with candidates := c.candidates.dropWhile fun id => c.worksLess id tip }
  assertThat (!(← askChain fun c => c.candidates.isEmpty))

/-- `DisconnectTip`. -/
def disconnectTip (tip : BlockID) : ChainM World Unit := do
  if ← callWorld fun world => hooks.disconnectBlock world tip then
    setChain fun c => { c with tip := c.tree.parent tip }
  else throw .systemError

/-- `ConnectTip`, with `InvalidBlockFound`: whether the block was connected or breaks a
rule. -/
def connectTip (id : BlockID) : ChainM World Bool := do
  assertThat (← askChain fun c => decide (c.tree.parent id = c.tip))
  match ← callWorld fun world => hooks.connectBlock world id with
  | .connected => do
      setChain fun c =>
        { c.modifyStatus id (fun status => status.raiseValidity blockValidScripts) with
          tip := some id }
      pure true
  | .invalid corruptionPossible => do
      runWhen (!corruptionPossible) (setChain fun c => (c.markFailed id).eraseCandidate id)
      pure false
  | .error => throw .systemError

/-- The loop of `ActivateBestChainStep` that connects blocks: whether one of them breaks
a rule. -/
def connectBlocks (oldTip : Option BlockID) : List BlockID → ChainM World Bool
  | [] => pure false
  | id :: rest => do
      if ← hooks.connectTip id then
        pruneBlockIndexCandidates
        let better ← askChain fun c => match oldTip with
          | none => true
          | some old => match c.tip with
            | none => false
            | some tip => decide (c.tree.nChainWork old < c.tree.nChainWork tip)
        if better then pure false else connectBlocks oldTip rest
      else pure true

/-- `ActivateBestChainStep`. -/
def activateBestChainStep (mostWork : BlockID) : ChainM World Unit := do
  let oldTip ← askChain ChainState.tip
  let fork ← askChain fun c => c.findFork mostWork
  let disconnected ← askChain fun c => c.activeChain.takeWhile fun id => some id ≠ fork
  let connected ← askChain fun c => c.branch mostWork
  disconnected.forM hooks.disconnectTip
  let invalidFound ← hooks.connectBlocks oldTip connected.reverse
  runWhen (!invalidFound) (callWorld fun world => ((), hooks.updateMemPool world))
  if invalidFound ∧ (← askChain ChainState.activeHeight) < 0 then throw .systemError

end Steps

section Activation

/-- The `nCanMine` that the wallet gives the tip. -/
def writeTipCanMine : ChainM World Unit := do
  let canMine ← askWorld hooks.tipCanMine
  setChain fun c => match c.tip with
    | none => c
    | some tip => c.modifyIndex tip fun entry => { entry with nCanMine := canMine }

/-- A tip that came in front of its parent takes over `nHeightMinedByMe`. -/
def writeTipMinedByMe : ChainM World Unit :=
  setChain fun c => match c.tip with
    | none => c
    | some tip =>
        match c.tree.parent tip with
        | none => c
        | some prev =>
            if (c.index tip).nHeightMinedByMe = 0 then
              c.modifyIndex tip fun entry =>
                { entry with nHeightMinedByMe := (c.index prev).nHeightMinedByMe }
            else c

/-- How a round of the loop of `ActivateBestChain` goes on. -/
inductive RoundEnd where
  | nothingToDo
  | reached
  | again
  deriving DecidableEq, Repr

/-- A round of the loop of `ActivateBestChain`. -/
def activationRound (rounds : Nat) : ChainM World RoundEnd := do
  runWhen hooks.hasWallet do
    hooks.writeTipCanMine
    writeTipMinedByMe
  match ← hooks.findMostWorkChain rounds with
  | none => pure .nothingToDo
  | some mostWork => do
      if (← askChain ChainState.tip) = some mostWork then pure .nothingToDo
      else
        let canMine ← askChain fun c => (c.index mostWork).nCanMine
        hooks.activateBestChainStep mostWork
        let reached ← askChain fun c => decide (c.tip = some mostWork)
        runWhen (reached && hooks.hasWallet) hooks.writeTipCanMine
        let canMineNow ← askChain fun c => (c.index mostWork).nCanMine
        pure (if reached && (!hooks.hasWallet || decide (canMine = canMineNow)) then .reached
          else .again)

/-- `ActivateBestChain`, for a number of rounds of each of its loops. -/
def activateBestChain (rounds : Nat) : Nat → ChainM World Unit
  | 0 => throw .running
  | more + 1 => do
      match ← hooks.activationRound rounds with
      | .nothingToDo => pure ()
      | .reached => if ← callWorld hooks.flushState then pure () else throw .systemError
      | .again => activateBestChain rounds more

end Activation

end NodeHooks

end HdacNode
