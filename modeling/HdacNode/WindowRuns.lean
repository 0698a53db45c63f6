import HdacNode.ChainRuns
import HdacNode.WindowCache

/-!
# Runs of the node with its window cache

`ProcessNewBlock` touches the cache between the acceptance and the activation of a block;
the other functions that move the tip do not.  Along a run whose steps move the active
chain only while the cache is touched, the kept size stays the one of the active chain.
-/

namespace HdacNode

open FailingActions ChainM

/-- The rest of the node, the parameters of the window, and what it reads of the blocks. -/
structure WindowHooks (World : Type) extends NodeHooks World where
  params : WindowParams
  blockFacts : BlockID → BlockFacts

/-- The tree of blocks with the cached size and `setBlacklistBlocks`. -/
structure WindowNode (World : Type) extends NodeChain World where
  cache : WindowCache
  blacklist : List (List Char)

/-- The actions on such a node. -/
abbrev WindowNodeM (World : Type) := EStateM ChainStop (WindowNode World)

/-- A step of the node: one on the tree of blocks, `DisconnectTip`, the touch of the cache,
a call of a window function, a new entry of the blacklist, or a new locked block. -/
inductive WindowOp (World : Type) where
  | tree (op : ChainOp World)
  | disconnect
  | touch
  | checkWindow (strMiner : List Char)
  | verifyWindow (fromPeer : Bool) (now : Int) (block : BlockFacts)
  | checkRule (initialDownload : Bool) (now : Int) (strMiner : List Char)
  | banMiner (strMiner : List Char)
  | lockBlock (id : BlockID)

/-- What reaches the node with a new block: the checks in front of the window, those of the
acceptance, the sender and the time, and whether the block is the one to be locked. -/
structure NewBlock where
  id : BlockID
  nTx : Nat
  passesChecks : Bool
  checks : BlockChecks
  fromPeer : Bool
  initialDownload : Bool
  now : Int
  locks : Bool
  deriving DecidableEq, Repr

/-- `BLOCKWINDOW_TOUCHED` is set. -/
def WindowNode.touch {World : Type} (node : WindowNode World) : WindowNode World :=
  { node with cache := { node.cache with touched := true } }

/-- `setBlacklistBlocks.insert`. -/
def WindowNode.banMiner {World : Type} (strMiner : List Char) (node : WindowNode World) :
    WindowNode World :=
  { node with blacklist := strMiner :: node.blacklist }

/-- `pindexLockedBlock` is set when the block to be locked arrives. -/
def WindowNode.lockBlock {World : Type} (id : BlockID) (node : WindowNode World) :
    WindowNode World :=
  { node with chain := { node.chain with lockedBlock := node.chain.lockedBlock.or (some id) } }

namespace WindowHooks

variable {World : Type} (hooks : WindowHooks World)

/-- The active chain as the window functions see it. -/
def windowChain (c : ChainState) : WindowChain where
  params := hooks.params
  blocks := c.activeChain.map fun id =>
    { hooks.blockFacts id with nHeight := c.tree.height id }

/-- An action on the tree of blocks. -/
def onTree {α : Type} (act : ChainM World α) : WindowNodeM World α := fun node =>
  match act node.toNodeChain with
  | .ok a after => .ok a { node with toNodeChain := after }
  | .error stop after => .error stop { node with toNodeChain := after }

/-- A call of a window function. -/
def onWindow {α : Type} (act : WindowChain → WindowM α) : WindowNodeM World α := fun node =>
  match act (hooks.windowChain node.chain) node.cache with
  | .ok a after => .ok a { node with cache := after }
  | .error stop after => .error stop { node with cache := after }

/-- `DisconnectTip`. -/
def disconnectActiveTip : ChainM World Unit := do
  match ← askChain ChainState.tip with
  | none => throw .assertion
  | some tip => hooks.disconnectTip tip

/-- Run a step. -/
def runWindowOp : WindowOp World → WindowNodeM World Unit
  | .tree op => onTree (hooks.runOp op)
  | .disconnect => onTree hooks.disconnectActiveTip
  | .touch => update fun node => ((), node.touch)
  | .checkWindow strMiner => do
      let _ ← hooks.onWindow fun chain => chain.checkBlockWindow strMiner
  | .verifyWindow fromPeer now block => do
      let _ ← hooks.onWindow fun chain => chain.verifyBlockWindow fromPeer now block
  | .checkRule initialDownload now strMiner => do
      let _ ← hooks.onWindow fun chain => chain.checkePoWRule initialDownload now strMiner
  | .banMiner strMiner => update fun node => ((), node.banMiner strMiner)
  | .lockBlock id => update fun node => ((), node.lockBlock id)

/-- The node behind a step, whether it returned true or not. -/
def afterWindowOp (op : WindowOp World) (node : WindowNode World) : WindowNode World :=
  stateAfter (hooks.runWindowOp op node)

/-- The nodes that are reached from a node by steps that meet a condition. -/
def Reached (allowed : WindowOp World → WindowNode World → Prop) :
    WindowNode World → WindowNode World → Prop :=
  Relation.ReflTransGen fun before after =>
    ∃ op, allowed op before ∧ hooks.afterWindowOp op before = after

instance (allowed : WindowOp World → WindowNode World → Prop) :
    IsPreorder (WindowNode World) (hooks.Reached allowed) where
  refl _ := .refl
  trans _ _ _ first second := first.trans second

/-- `ProcessNewBlock`.  A block is locked when it has an entry behind `AcceptBlock`, as
`pindex` is then set; reads and writes of the disk do not fail. -/
def processNewBlock (rounds more : Nat) (block : NewBlock) : WindowNodeM World Bool := do
  if !block.passesChecks then pure false
  else
    let facts := hooks.blockFacts block.id
    let fcheckBlockWz ← hooks.onWindow fun chain =>
      chain.verifyBlockWindow block.fromPeer block.now facts
    if !fcheckBlockWz then
      let addrMiner ← query fun node => (hooks.windowChain node.chain).blockMinerAddress facts
      let listed ← query fun node => decide (addrMiner ∈ node.blacklist)
      if listed then pure false
      else
        let rule ← hooks.onWindow fun chain =>
          chain.checkePoWRule block.initialDownload block.now addrMiner
        if rule then pure false
        else
          update fun node => ((), node.banMiner addrMiner)
          pure false
    else
      let ret ← onTree (hooks.acceptBlock block.checks block.nTx block.id)
      let indexed ← query fun node => decide (block.id ∈ node.chain.tree.blocks)
      (if block.locks ∧ indexed then update fun node => ((), node.lockBlock block.id)
        else pure () : WindowNodeM World Unit)
      if !ret then pure false
      else
        update fun node => ((), node.touch)
        onTree (hooks.activateBestChain rounds more)
        pure true

section Runs

variable {hooks}

theorem stateAfter_onTree {α : Type} (act : ChainM World α) (node : WindowNode World) :
    stateAfter (onTree act node) =
      { node with toNodeChain := stateAfter (act node.toNodeChain) } := by
  unfold onTree
  cases act node.toNodeChain with
  | ok a after => rfl
  | error stop after => rfl

theorem stateAfter_onWindow {α : Type} (act : WindowChain → WindowM α)
    (node : WindowNode World) :
    stateAfter (hooks.onWindow act node) =
      { node with cache := stateAfter (act (hooks.windowChain node.chain) node.cache) } := by
  unfold onWindow
  cases act (hooks.windowChain node.chain) node.cache with
  | ok a after => rfl
  | error stop after => rfl

theorem stateAfter_andThen {α : Type} (act : WindowNodeM World α) (node : WindowNode World) :
    stateAfter ((act >>= fun _ => pure ()) node) = stateAfter (act node) := by
  rw [bind_apply]
  cases act node with
  | ok a after => rfl
  | error stop after => rfl

/-- A single step is a run. -/
theorem reached_step {allowed : WindowOp World → WindowNode World → Prop}
    {op : WindowOp World} {node : WindowNode World} (isAllowed : allowed op node) :
    hooks.Reached allowed node (hooks.afterWindowOp op node) :=
  .single ⟨op, isAllowed, rfl⟩

theorem reached_onWindow {α : Type} {act : WindowChain → WindowM α} (op : WindowOp World)
    (isOp : hooks.runWindowOp op = hooks.onWindow act >>= fun _ => pure ()) :
    Moves (hooks.Reached fun _ _ => True) (hooks.onWindow act) := by
  intro node
  have step : hooks.Reached (fun _ _ => True) node (hooks.afterWindowOp op node) :=
    reached_step trivial
  unfold afterWindowOp at step
  rw [isOp, stateAfter_andThen] at step
  exact step

theorem reached_onTree {act : ChainM World Unit}
    (runs : Moves (hooks.Reaches fun _ _ => True) act) :
    Moves (hooks.Reached fun _ _ => True) (onTree act) := by
  intro node
  rw [stateAfter_onTree]
  have run := runs node.toNodeChain
  generalize stateAfter (act node.toNodeChain) = after at run ⊢
  induction run with
  | start => exact .refl
  | step run op isAllowed ih =>
      refine ih.tail ⟨.tree op, trivial, ?_⟩
      exact stateAfter_onTree _ _

theorem reached_update (op : WindowOp World) {change : WindowNode World → WindowNode World}
    (isOp : hooks.runWindowOp op = update fun node => ((), change node)) :
    Moves (hooks.Reached fun _ _ => True)
      (update fun node => ((), change node) : WindowNodeM World Unit) := by
  intro node
  rw [← isOp]
  exact reached_step trivial

/-- `ProcessNewBlock` is a run of steps. -/
theorem processNewBlock_reached (hooks : WindowHooks World) (rounds more : Nat)
    (block : NewBlock) :
    Moves (hooks.Reached fun _ _ => True) (hooks.processNewBlock rounds more block) := by
  unfold processNewBlock
  refine .ite (moves_pure _) (.bind (reached_onWindow
    (.verifyWindow block.fromPeer block.now (hooks.blockFacts block.id)) rfl) fun verdict => ?_)
  refine .ite ?_ ?_
  · refine .bind (moves_query _) fun addrMiner => .bind (moves_query _) fun listed =>
      .ite (moves_pure _) ?_
    refine .bind (reached_onWindow
      (.checkRule block.initialDownload block.now addrMiner) rfl) fun rule => ?_
    exact .ite (moves_pure _)
      (.bind (reached_update (.banMiner addrMiner) rfl) fun _ => moves_pure _)
  · refine .bind ?_ fun ret => .bind (moves_query _) fun indexed => .bind ?_ fun _ => ?_
    · intro node
      rw [stateAfter_onTree]
      have step : hooks.Reached (fun _ _ => True) node
          (hooks.afterWindowOp (.tree (.accept block.checks block.nTx block.id)) node) :=
        reached_step trivial
      unfold afterWindowOp runWindowOp at step
      rw [stateAfter_onTree] at step
      rw [← NodeHooks.stateAfter_discard]
      exact step
    · exact .ite (reached_update (.lockBlock block.id) rfl) (moves_pure _)
    · refine .ite (moves_pure _) (.bind (reached_update (.touch) rfl) fun _ =>
        .bind (reached_onTree ?_) fun _ => moves_pure _)
      exact hooks.activateBestChain_reaches rounds more

end Runs

section Coherence

/-- The kept size of a node is the one of its active chain. -/
def Coherent (node : WindowNode World) : Prop :=
  (hooks.windowChain node.chain).Coherent node.cache

/-- A step moves the active chain only while the cache is touched, and `CheckePoWRule` does
not ask for the size of the first version in place of the second. -/
def TouchedBefore : WindowOp World → WindowNode World → Prop
  | .checkRule initialDownload now strMiner, node =>
      ¬ (hooks.windowChain node.chain).MixesSizes initialDownload now strMiner node.cache
  | op, node => node.cache.touched = true ∨
      hooks.windowChain (hooks.afterWindowOp op node).chain = hooks.windowChain node.chain

variable {hooks}

theorem coherent_onTree {α : Type} {act : ChainM World α} {node : WindowNode World}
    (touched : node.cache.touched = true ∨
      hooks.windowChain (stateAfter (onTree act node)).chain = hooks.windowChain node.chain)
    (coherent : hooks.Coherent node) : hooks.Coherent (stateAfter (onTree act node)) := by
  have sameCache : (stateAfter (onTree act node)).cache = node.cache := by
    rw [stateAfter_onTree]
  unfold Coherent
  rw [sameCache]
  rcases touched with isTouched | sameChain
  · intro clean
    rw [isTouched] at clean
    cases clean
  · rw [sameChain]
    exact coherent

theorem coherent_onWindow {α : Type} {act : WindowChain → WindowM α} {node : WindowNode World}
    (keeps : Moves (hooks.windowChain node.chain).KeepsCoherent
      (act (hooks.windowChain node.chain)))
    (coherent : hooks.Coherent node) :
    hooks.Coherent (stateAfter (hooks.onWindow act node)) := by
  rw [stateAfter_onWindow]
  exact keeps node.cache coherent

theorem coherent_afterWindowOp {op : WindowOp World} {node : WindowNode World}
    (touched : hooks.TouchedBefore op node) (coherent : hooks.Coherent node) :
    hooks.Coherent (hooks.afterWindowOp op node) := by
  cases op with
  | tree op => exact coherent_onTree touched coherent
  | disconnect => exact coherent_onTree touched coherent
  | touch =>
      intro clean
      cases clean
  | checkWindow strMiner =>
      unfold afterWindowOp runWindowOp
      rw [stateAfter_andThen]
      exact coherent_onWindow (WindowChain.checkBlockWindow_keepsCoherent _ _) coherent
  | verifyWindow fromPeer now block =>
      unfold afterWindowOp runWindowOp
      rw [stateAfter_andThen]
      exact coherent_onWindow (WindowChain.verifyBlockWindow_keepsCoherent _ _ _ _) coherent
  | checkRule initialDownload now strMiner =>
      unfold afterWindowOp runWindowOp
      rw [stateAfter_andThen, stateAfter_onWindow]
      exact WindowChain.checkePoWRule_keepsCoherent touched coherent
  | banMiner strMiner => exact coherent
  | lockBlock id => exact coherent

end Coherence

section Sample

/-- Every block has the miner with the address of 32 letters. -/
def oneMiner : List Char := List.replicate 32 'm'

/-- A node with the heights and times of the main network on which one miner mines. -/
def oneMinerHooks : WindowHooks Unit where
  toNodeHooks := NodeHooks.plainHooks fun _ => false
  params := ⟨112400, 180, 80⟩
  blockFacts := fun _ => ⟨0, oneMiner, oneMiner⟩

/-- Block 1 over the genesis block is the tip of a node that has just been started. -/
def startedNode : WindowNode Unit where
  chain := NodeHooks.forkedChain 1 [1]
  world := ()
  cache := .initial
  blacklist := []

end Sample

end WindowHooks

end HdacNode
