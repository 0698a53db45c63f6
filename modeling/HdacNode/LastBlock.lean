import HdacNode.AdvancingLoop
import HdacNode.ChainSteps

/-!
# Making a given block the tip

`SetLastBlock` repeats an activation step until its block is the tip.  A step that finds
an invalid block returns true, so the loop goes on as long as the block that follows the
tip is rejected at every try.
-/

namespace HdacNode

open FailingActions ChainM

/-- How `SetLastBlock` ends: with a message from its checks, which may report that the block
was not found, with its block as the tip, or with the reject reason of a step. -/
inductive LastBlockAnswer where
  | refused (message : String) (notFound : Bool)
  | done
  | stepFailed
  deriving DecidableEq, Repr

namespace NodeHooks

variable {World : Type} (hooks : NodeHooks World)

/-- The loop of checks in `SetLastBlock`; all of them are about the target. -/
def lastBlockChecks (node : NodeChain World) (target : BlockID) :
    List BlockID → Option LastBlockAnswer
  | [] => none
  | pindex :: rest =>
      if (node.chain.index target).nStatus.failed then some (.refused "Block is invalid" false)
      else if !(node.chain.index target).nStatus.haveData then
        some (.refused "Block is invalid, probably we have only header" true)
      else if pindex = target ∧ !hooks.readsBlock node.world target then
        some (.refused "Block not found" true)
      else lastBlockChecks node target rest

/-- A round of the loop of `SetLastBlock`. -/
def lastBlockRound (target : BlockID) (node : NodeChain World) :
    LoopStep (NodeChain World) (EStateM.Result ChainStop (NodeChain World) Unit) :=
  if node.chain.tip = some target then .stop (.ok () node)
  else match hooks.activateBestChainStep target node with
    | .ok () after => .next after
    | .error stop after => .stop (.error stop after)

/-- The loop of `SetLastBlock` and the insertion behind it. -/
def reachLastBlock (rounds : Nat) (target : BlockID) : ChainM World Unit := fun node =>
  match AdvancingLoop.iterate (hooks.lastBlockRound target) rounds node with
  | none => .error .running node
  | some (.ok () after) => .ok () { after with chain := after.chain.insertCandidate target }
  | some (.error stop after) => .error stop after

/-- Call a function and go on when it returns false. -/
def ignoreSystemError (act : ChainM World Unit) : ChainM World Unit := fun node =>
  match act node with
  | .ok () after => .ok () after
  | .error .systemError after => .ok () after
  | .error stop after => .error stop after

/-- `SetLastBlock`, for a number of rounds of each loop; no block stands for the hash 0. -/
def setLastBlock (rounds : Nat) (hash : Option BlockID) : ChainM World LastBlockAnswer :=
  match hash with
  | none => do
      ignoreSystemError (hooks.activateBestChain rounds rounds)
      pure .done
  | some target => fun node =>
      if target ∉ node.chain.tree.blocks then .ok (.refused "Block not found" true) node
      else match hooks.lastBlockChecks node target (node.chain.branch target) with
        | some answer => .ok answer node
        | none => match hooks.reachLastBlock rounds target node with
          | .ok () after => .ok .done after
          | .error .systemError after =>
              (do
                ignoreSystemError (hooks.activateBestChain rounds rounds)
                pure LastBlockAnswer.stepFailed) after
          | .error stop after => .error stop after

/-- The loop of `SetLastBlock` ends, or the checks keep it from starting. -/
def EndsLastBlock (target : BlockID) (node : NodeChain World) : Prop :=
  hooks.lastBlockChecks node target (node.chain.branch target) ≠ none ∨
    AdvancingLoop.Ends (hooks.lastBlockRound target) node

/-- The rest of the node after a number of tries to connect a block. -/
def worldAfterTries (id : BlockID) (tries : Nat) (world : World) : World :=
  (fun world => (hooks.connectBlock world id).2)^[tries] world

/-- The block breaks a rule at this and at every further try to connect it. -/
def AlwaysInvalid (id : BlockID) (world : World) : Prop :=
  ∀ tries, ∃ corruptionPossible,
    (hooks.connectBlock (hooks.worldAfterTries id tries world) id).1 = .invalid corruptionPossible

/-- A block on the way to the target comes next and is always invalid. -/
def FacesInvalid (target : BlockID) (node : NodeChain World) : Prop :=
  ∃ next ∈ node.chain.tree.path target, node.chain.tree.parent next = node.chain.tip ∧
    node.chain.tip ≠ none ∧ hooks.AlwaysInvalid next node.world

/-- On its way to the target the node comes to stand in front of a block that is always
invalid. -/
def MeetsInvalid (target : BlockID) (node : NodeChain World) : Prop :=
  ∃ reached, AdvancingLoop.Reached (hooks.lastBlockRound target) node reached ∧
    hooks.FacesInvalid target reached

variable {hooks} {target : BlockID} {node : NodeChain World}

theorem lastBlockRound_next {after : NodeChain World}
    (stepped : hooks.lastBlockRound target node = .next after) :
    node.chain.tip ≠ some target ∧ hooks.activateBestChainStep target node = .ok () after := by
  unfold lastBlockRound at stepped
  split at stepped
  · cases stepped
  · rename_i notThere
    refine ⟨notThere, ?_⟩
    cases done : hooks.activateBestChainStep target node with
    | ok _ reached =>
        rw [done] at stepped
        cases stepped
        rfl
    | error stop reached =>
        rw [done] at stepped
        cases stepped

/-- The tip is on the way to the target. -/
def OnWay (target : BlockID) (node : NodeChain World) : Prop :=
  ∃ tip ∈ node.chain.tree.path target, node.chain.tip = some tip

/-- After a step that returns true the tip is on the way to the target. -/
theorem onWay_of_step {after : NodeChain World}
    (done : hooks.activateBestChainStep target node = .ok () after) :
    OnWay target after ∧ after.chain.tree = node.chain.tree := by
  obtain ⟨sameTree, between, -, isFork, -, tips⟩ := activateBestChainStep_ok rfl done
  refine ⟨?_, sameTree⟩
  unfold OnWay
  rw [sameTree]
  rcases tips with ⟨id, member, isTip⟩ | ⟨isTip, verdict⟩
  · exact ⟨id, node.chain.tree.mem_path_of_mem_branch member, isTip⟩
  · rw [isFork] at isTip
    cases found : node.chain.tree.fork node.chain.activeChain target with
    | some meeting => exact ⟨meeting, node.chain.tree.fork_mem_path found, isTip.trans found⟩
    | none =>
        obtain ⟨-, last⟩ := node.chain.tree.climbs_branch node.chain.activeChain target
        rw [found, Option.or_none] at last
        cases isList : (node.chain.tree.branch node.chain.activeChain target).reverse with
        | nil =>
            rw [isList] at last
            cases last
        | cons first rest =>
            obtain ⟨high, -⟩ := verdict first rest isList
            unfold ChainState.activeHeight at high
            rw [isTip, found] at high
            change (0 : Int) ≤ -1 at high
            omega

/-- A step from the way to the target moves the tip up, or the next block on the way was
rejected. -/
theorem step_onWay {tip : BlockID} {after : NodeChain World}
    (onWay : tip ∈ node.chain.tree.path target) (isTip : node.chain.tip = some tip)
    (done : hooks.activateBestChainStep target node = .ok () after) :
    (∃ id, node.chain.tree.height tip < node.chain.tree.height id ∧ after.chain.tip = some id) ∨
      after.chain.tip = some tip ∧ ∀ next ∈ node.chain.tree.path target,
        node.chain.tree.parent next = some tip → ∃ corruptionPossible,
          hooks.connectBlock node.world next = (.invalid corruptionPossible, after.world) := by
  have isChain : node.chain.activeChain = node.chain.tree.path tip := by
    unfold ChainState.activeChain
    rw [isTip]
  obtain ⟨-, between, -, isFork, stays, tips⟩ := activateBestChainStep_ok rfl done
  rw [isChain] at isFork tips
  rw [node.chain.tree.fork_path_of_mem onWay] at isFork
  rw [stays (isTip.trans isFork.symm), isTip] at tips
  rcases tips with ⟨id, member, isNew⟩ | ⟨sameTip, verdict⟩
  · exact .inl ⟨id, node.chain.tree.height_lt_of_mem_branch onWay member, isNew⟩
  · refine .inr ⟨sameTip, ?_⟩
    intro next isNext isChild
    obtain ⟨rest, isBranch⟩ := node.chain.tree.branch_reverse_of_mem isNext isChild
    exact (verdict next rest isBranch).2

theorem step_rejects {tip next : BlockID} {corruptionPossible : Bool} {world : World}
    (isTip : node.chain.tip = some tip) (isNext : next ∈ node.chain.tree.path target)
    (isChild : node.chain.tree.parent next = some tip)
    (rejects : hooks.connectBlock node.world next = (.invalid corruptionPossible, world)) :
    ∃ after, hooks.activateBestChainStep target node = .ok () after ∧
      after.chain.tree = node.chain.tree ∧ after.chain.tip = some tip ∧ after.world = world := by
  have isChain : node.chain.activeChain = node.chain.tree.path tip := by
    unfold ChainState.activeChain
    rw [isTip]
  have isAncestor := node.chain.tree.parent_mem_path isNext isChild
  have isFork : node.chain.findFork target = some tip := by
    unfold ChainState.findFork
    rw [isChain, node.chain.tree.fork_path_of_mem isAncestor]
  obtain ⟨rest, isBranch⟩ := node.chain.tree.branch_reverse_of_mem isNext isChild
  rw [← isChain] at isBranch
  have noneLeft : node.chain.activeChain.takeWhile
      (fun id => some id ≠ node.chain.findFork target) = [] := by
    rw [isFork, isChain, node.chain.tree.path_eq, List.takeWhile_cons, if_neg (by simp)]
  let after : NodeChain World :=
    ⟨if corruptionPossible then node.chain
      else (node.chain.markFailed next).eraseCandidate next, world⟩
  have asked : (askChain fun c => decide (c.tree.parent next = c.tip) : ChainM World Bool) node =
      .ok true node := by
    change EStateM.Result.ok (decide (node.chain.tree.parent next = node.chain.tip)) node = _
    rw [isChild, isTip, decide_eq_true rfl]
  have called : (callWorld fun world => hooks.connectBlock world next : ChainM World _) node =
      .ok (.invalid corruptionPossible) { node with world := world } := by
    change EStateM.Result.ok (hooks.connectBlock node.world next).1
      { node with world := (hooks.connectBlock node.world next).2 } = _
    rw [rejects]
  have connect : hooks.connectTip next node = .ok false after := by
    refine bind_eq_ok.mpr ⟨true, node, asked, bind_eq_ok.mpr ⟨(), node, rfl, ?_⟩⟩
    refine bind_eq_ok.mpr ⟨_, _, called, ?_⟩
    cases corruptionPossible with
    | true => rfl
    | false => rfl
  have sameTip : after.chain.tip = some tip := by
    cases corruptionPossible with
    | true => exact isTip
    | false => exact isTip
  have connects : hooks.connectBlocks node.chain.tip (next :: rest) node = .ok true after :=
    bind_eq_ok.mpr ⟨false, after, connect, rfl⟩
  refine ⟨after, ?_, ?_, sameTip, rfl⟩
  · refine bind_eq_ok.mpr ⟨node.chain.tip, node, rfl, ?_⟩
    refine bind_eq_ok.mpr ⟨node.chain.findFork target, node, rfl, ?_⟩
    refine bind_eq_ok.mpr ⟨[], node, ?_, ?_⟩
    · change EStateM.Result.ok (node.chain.activeChain.takeWhile
        (fun id => some id ≠ node.chain.findFork target)) node = _
      rw [noneLeft]
    refine bind_eq_ok.mpr ⟨node.chain.branch target, node, rfl, ?_⟩
    refine bind_eq_ok.mpr ⟨(), node, rfl, ?_⟩
    refine bind_eq_ok.mpr ⟨true, after, ?_, ?_⟩
    · unfold ChainState.branch
      rw [isBranch]
      exact connects
    refine bind_eq_ok.mpr ⟨(), after, rfl, bind_eq_ok.mpr ⟨_, after, rfl, ?_⟩⟩
    have high : ¬ after.chain.activeHeight < 0 := by
      unfold ChainState.activeHeight
      rw [sameTip]
      change ¬ ((after.chain.tree.height tip : Int) < 0)
      omega
    rw [if_neg fun below => high below.2]
    rfl
  · cases corruptionPossible with
    | true => rfl
    | false => rfl

theorem AlwaysInvalid.next {id : BlockID} {world : World}
    (invalid : hooks.AlwaysInvalid id world) :
    hooks.AlwaysInvalid id (hooks.connectBlock world id).2 :=
  fun tries => invalid (tries + 1)

/-- In front of a block that is always invalid the loop does not end. -/
theorem not_ends_of_facesInvalid (faces : hooks.FacesInvalid target node) :
    ¬ AdvancingLoop.Ends (hooks.lastBlockRound target) node := by
  apply AdvancingLoop.not_ends_of_keeps _ faces
  rintro state ⟨next, isNext, isChild, isSome, invalid⟩
  obtain ⟨tip, isTip⟩ := Option.ne_none_iff_exists'.mp isSome
  rw [isTip] at isChild
  obtain ⟨corruptionPossible, verdict⟩ := invalid 0
  obtain ⟨after, done, sameTree, sameTip, isWorld⟩ :=
    step_rejects isTip isNext isChild (Prod.ext verdict rfl)
  have notThere : state.chain.tip ≠ some target := by
    intro there
    have low := state.chain.tree.height_le_of_mem_path isNext
    have higher := state.chain.tree.height_parent isChild
    have isTarget : tip = target := Option.some.inj (isTip.symm.trans there)
    rw [isTarget] at higher
    omega
  refine ⟨after, ?_, next, ?_, ?_, ?_, ?_⟩
  · unfold lastBlockRound
    rw [if_neg notThere, done]
  · rw [sameTree]
    exact isNext
  · rw [sameTree, sameTip]
    exact isChild
  · rw [sameTip]
    exact Option.some_ne_none tip
  · rw [isWorld]
    exact invalid.next

/-- On the way to the target the height of the tip is a position. -/
def tipHeight (node : NodeChain World) : Nat :=
  match node.chain.tip with
  | none => 0
  | some tip => node.chain.tree.height tip

theorem tipHeight_of_tip {tip : BlockID} (isTip : node.chain.tip = some tip) :
    tipHeight node = node.chain.tree.height tip := by
  unfold tipHeight
  rw [isTip]

/-- The loop keeps to the way. -/
theorem onWay_of_reached {tree : BlockTree} {state : NodeChain World}
    (reached : AdvancingLoop.Reached (hooks.lastBlockRound target) node state)
    (isTree : node.chain.tree = tree) (onWay : OnWay target node) :
    OnWay target state ∧ state.chain.tree = tree := by
  apply reached.induction ⟨onWay, isTree⟩
  intro state after _ kept stepped
  obtain ⟨onWay, sameTree⟩ := onWay_of_step (lastBlockRound_next stepped).2
  exact ⟨onWay, sameTree.trans kept.2⟩

theorem tipHeight_le_of_round {after : NodeChain World} (onWay : OnWay target node)
    (stepped : hooks.lastBlockRound target node = .next after) :
    tipHeight node ≤ tipHeight after := by
  obtain ⟨tip, onPath, isTip⟩ := onWay
  have done := (lastBlockRound_next stepped).2
  have sameTree := (onWay_of_step done).2
  rw [tipHeight_of_tip isTip]
  rcases step_onWay onPath isTip done with ⟨id, higher, isNew⟩ | ⟨sameTip, -⟩
  · rw [tipHeight_of_tip isNew, sameTree]
    omega
  · rw [tipHeight_of_tip sameTip, sameTree]

theorem facesInvalid_of_settled (onWay : OnWay target node)
    (runs : ¬ AdvancingLoop.Ends (hooks.lastBlockRound target) node)
    (settled : ∀ state, AdvancingLoop.Reached (hooks.lastBlockRound target) node state →
      tipHeight state = tipHeight node) :
    hooks.FacesInvalid target node := by
  obtain ⟨tip, onPath, isTip⟩ := onWay
  have notThere : tip ≠ target := by
    intro isTarget
    apply runs
    apply AdvancingLoop.ends_of_stop
    unfold lastBlockRound
    rw [isTip, if_pos (congrArg some isTarget)]
  obtain ⟨next, isNext, isChild⟩ := node.chain.tree.exists_child_of_mem_path onPath notThere
  have rejected : ∀ state : NodeChain World,
      AdvancingLoop.Reached (hooks.lastBlockRound target) node state →
      state.chain.tip = some tip → ∃ after,
        AdvancingLoop.Reached (hooks.lastBlockRound target) node after ∧
        after.chain.tip = some tip ∧ ∃ corruptionPossible,
          hooks.connectBlock state.world next = (.invalid corruptionPossible, after.world) := by
    intro state reached atTip
    obtain ⟨after, stepped, -⟩ := AdvancingLoop.exists_next_of_not_ends
      (fun ends => runs (reached.ends_iff.mpr ends))
    have sameTree := (onWay_of_reached reached rfl ⟨tip, onPath, isTip⟩).2
    have done := (lastBlockRound_next stepped).2
    have goesOn := reached.tail stepped
    rw [← sameTree] at onPath isNext isChild
    rcases step_onWay onPath atTip done with ⟨id, higher, isNew⟩ | ⟨sameTip, verdict⟩
    · have stays := settled after goesOn
      rw [tipHeight_of_tip isNew, tipHeight_of_tip isTip, (onWay_of_step done).2,
        ← sameTree] at stays
      omega
    · exact ⟨after, goesOn, sameTip, verdict next isNext isChild⟩
  have tried : ∀ tries, ∃ state,
      AdvancingLoop.Reached (hooks.lastBlockRound target) node state ∧
        state.chain.tip = some tip ∧
        state.world = hooks.worldAfterTries next tries node.world := by
    intro tries
    induction tries with
    | zero => exact ⟨node, .refl, isTip, rfl⟩
    | succ tries ih =>
        obtain ⟨state, reached, atTip, isWorld⟩ := ih
        obtain ⟨after, goesOn, sameTip, corruptionPossible, verdict⟩ :=
          rejected state reached atTip
        refine ⟨after, goesOn, sameTip, ?_⟩
        unfold worldAfterTries at isWorld ⊢
        rw [Function.iterate_succ_apply', ← isWorld, verdict]
  refine ⟨next, isNext, isChild.trans isTip.symm, by rw [isTip]; exact Option.some_ne_none tip, ?_⟩
  intro tries
  obtain ⟨state, reached, atTip, isWorld⟩ := tried tries
  obtain ⟨after, -, -, corruptionPossible, verdict⟩ := rejected state reached atTip
  exact ⟨corruptionPossible, by rw [← isWorld, verdict]⟩

theorem meetsInvalid_of_not_ends
    (runs : ¬ AdvancingLoop.Ends (hooks.lastBlockRound target) node) :
    hooks.MeetsInvalid target node := by
  obtain ⟨second, stepped, runs⟩ := AdvancingLoop.exists_next_of_not_ends runs
  have onWay := (onWay_of_step (lastBlockRound_next stepped).2).1
  have keeps : ∀ state, AdvancingLoop.Reached (hooks.lastBlockRound target) second state →
      OnWay target state ∧ state.chain.tree = second.chain.tree :=
    fun state reached => onWay_of_reached reached rfl onWay
  obtain ⟨settled, reached, stays⟩ := AdvancingLoop.exists_settled tipHeight
    (second.chain.tree.height target)
    (fun state next reached stepped => tipHeight_le_of_round (keeps state reached).1 stepped)
    (fun state reached => by
      obtain ⟨⟨tip, onPath, isTip⟩, sameTree⟩ := keeps state reached
      rw [tipHeight_of_tip isTip, ← sameTree]
      exact state.chain.tree.height_le_of_mem_path onPath)
  refine ⟨settled, .head stepped reached, ?_⟩
  exact facesInvalid_of_settled (keeps settled reached).1
    (fun ends => runs (reached.ends_iff.mpr ends)) stays

/-- `SetLastBlock` runs its loop only finitely often exactly when its checks keep it from
starting, or it never stands in front of a block that is always invalid. -/
theorem setLastBlock_ends_iff (hooks : NodeHooks World) (target : BlockID)
    (node : NodeChain World) :
    hooks.EndsLastBlock target node ↔
      hooks.lastBlockChecks node target (node.chain.branch target) ≠ none ∨
        ¬ hooks.MeetsInvalid target node := by
  apply or_congr_right
  constructor
  · rintro ends ⟨reached, isReached, faces⟩
    exact not_ends_of_facesInvalid faces (isReached.ends_iff.mp ends)
  · intro clear
    by_contra runs
    exact clear (meetsInvalid_of_not_ends runs)

/-- `SetLastBlock` itself gives no answer in any number of rounds when its loop does not end. -/
theorem setLastBlock_running (known : target ∈ node.chain.tree.blocks)
    (runs : ¬ hooks.EndsLastBlock target node) (rounds : Nat) :
    hooks.setLastBlock rounds (some target) node = .error .running node := by
  obtain ⟨unrefused, loops⟩ := not_or.mp runs
  have unfinished : AdvancingLoop.iterate (hooks.lastBlockRound target) rounds node = none := by
    cases found : AdvancingLoop.iterate (hooks.lastBlockRound target) rounds node with
    | none => rfl
    | some result => exact absurd ⟨rounds, result, found⟩ loops
  have stuck : hooks.reachLastBlock rounds target node = .error .running node := by
    rw [reachLastBlock, unfinished]
  simp only [setLastBlock]
  rw [if_neg (not_not_intro known), not_not.mp unrefused, stuck]

section Sample

/-- Branches over the genesis block 0: one over the blocks 1, 2 and 3, one of block 4 only, and
one that leaves the first over the blocks 5 and 6 behind block 2. -/
def forkedTree : BlockTree where
  parent
    | 1 => some 0
    | 2 => some 1
    | 3 => some 2
    | 4 => some 0
    | 5 => some 2
    | 6 => some 5
    | _ => none
  height
    | 1 => 1
    | 2 => 2
    | 3 => 3
    | 4 => 1
    | 5 => 3
    | 6 => 4
    | _ => 0
  height_parent := by
    intro node above found
    split at found <;> cases found <;> rfl
  blocks := [0, 1, 2, 3, 4, 5, 6]
  nChainWork
    | 1 => 2
    | 2 => 3
    | 3 => 4
    | 4 => 2
    | 5 => 4
    | 6 => 5
    | _ => 1

/-- The entry of a block of the tree that was received with one transaction. -/
def receivedEntry (id : BlockID) : IndexEntry :=
  { IndexEntry.null with
    nStatus := ⟨blockValidTransactions, true, false, false⟩
    nTx := 1
    nChainTx := forkedTree.height id + 1
    nSequenceId := id }

/-- A node that has received the whole tree in the order of its numbers. -/
def forkedChain (tip : BlockID) (candidates : List BlockID) : ChainState where
  tree := forkedTree
  index := receivedEntry
  tip := some tip
  candidates := candidates
  unlinked := []
  lockedBlock := none
  bannedBlocks := []
  nextSequenceId := 7

/-- A node without miner checks and without wallet to which some blocks break a rule. -/
def plainHooks (rejects : BlockID → Bool) : NodeHooks Unit where
  disconnectBlock := fun _ _ => (true, ())
  connectBlock := fun _ id => (if rejects id then .invalid false else .connected, ())
  updateMemPool := id
  readsBlock := fun _ _ => true
  prechecksMiners := false
  judgeMiner := fun _ _ _ => (.passed, ())
  hasWallet := false
  tipCanMine := fun _ => 0
  minerStatus := fun _ _ => ⟨0, false, 0, 0⟩
  flushState := fun _ => (true, ())

/-- The block 4 of the shorter branch, which breaks a rule, is to be the last block. -/
theorem setLastBlock_forked_runs :
    4 ∈ forkedTree.blocks ∧
      ¬ (plainHooks (· = 4)).EndsLastBlock 4 ⟨forkedChain 3 [3], ()⟩ := by
  refine ⟨by decide, ?_⟩
  rintro (refused | ends)
  · exact refused rfl
  · have stepped : (plainHooks (· = 4)).lastBlockRound 4 ⟨forkedChain 3 [3], ()⟩ =
        .next ⟨((forkedChain 0 [3]).markFailed 4).eraseCandidate 4, ()⟩ := rfl
    have faces : (plainHooks (· = 4)).FacesInvalid 4
        ⟨((forkedChain 0 [3]).markFailed 4).eraseCandidate 4, ()⟩ :=
      ⟨4, by decide, rfl, by decide, fun tries => ⟨false, rfl⟩⟩
    exact not_ends_of_facesInvalid faces ((AdvancingLoop.ends_iff_of_next stepped).mp ends)

end Sample

end NodeHooks

end HdacNode
