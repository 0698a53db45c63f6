import HdacNode.ChainRuns
import HdacNode.MostWorkRounds

/-!
# Steps that leave the keys of the comparator alone

Most actions on the tree of blocks write neither the keys of `CBlockIndexWorkComparator` nor
what `ReceivedBlockTransactions` has written, and they only remove candidates.
-/

namespace HdacNode

open FailingActions ChainM

/-- What of an entry is only written with the data of a block or with its mining status. -/
def IndexEntry.received (entry : IndexEntry) : Bool × Nat × Nat × Nat × Nat × Int :=
  (entry.nStatus.haveData, entry.nTx, entry.nChainTx, entry.nSequenceId, entry.nCanMine,
    entry.nHeightMinedByMe)

namespace ChainState

/-- The keys of the comparator, the data of the blocks and the blocks that wait for it stay, and
no candidate comes. -/
structure Undisturbed (c c' : ChainState) : Prop where
  tree : c'.tree = c.tree
  received : ∀ id, (c'.index id).received = (c.index id).received
  unlinked : c'.unlinked = c.unlinked
  fewer : c'.candidates.Sublist c.candidates

namespace Undisturbed

variable {c c' c'' : ChainState}

theorem refl (c : ChainState) : Undisturbed c c :=
  ⟨rfl, fun _ => rfl, rfl, .refl _⟩

theorem trans (first : Undisturbed c c') (second : Undisturbed c' c'') : Undisturbed c c'' where
  tree := second.tree.trans first.tree
  received id := (second.received id).trans (first.received id)
  unlinked := second.unlinked.trans first.unlinked
  fewer := second.fewer.trans first.fewer

theorem haveData (calm : Undisturbed c c') (id : BlockID) :
    (c'.index id).nStatus.haveData = (c.index id).nStatus.haveData :=
  congrArg Prod.fst (calm.received id)

theorem nTx (calm : Undisturbed c c') (id : BlockID) : (c'.index id).nTx = (c.index id).nTx :=
  congrArg (fun parts => parts.2.1) (calm.received id)

theorem nChainTx (calm : Undisturbed c c') (id : BlockID) :
    (c'.index id).nChainTx = (c.index id).nChainTx :=
  congrArg (fun parts => parts.2.2.1) (calm.received id)

theorem worksLess (calm : Undisturbed c c') (pa pb : BlockID) :
    c'.worksLess pa pb = c.worksLess pa pb := by
  have keys : ∀ id, (c'.index id).nSequenceId = (c.index id).nSequenceId ∧
      (c'.index id).nCanMine = (c.index id).nCanMine ∧
      (c'.index id).nHeightMinedByMe = (c.index id).nHeightMinedByMe := by
    intro id
    have same := congrArg (fun parts => parts.2.2.2) (calm.received id)
    exact ⟨congrArg Prod.fst same, congrArg (fun parts => parts.2.1) same,
      congrArg (fun parts => parts.2.2) same⟩
  unfold ChainState.worksLess
  simp only [calm.tree, (keys _).1, (keys _).2.1, (keys _).2.2]

theorem sorted (calm : Undisturbed c c') (sorted : c.CandidatesSorted) : c'.CandidatesSorted := by
  unfold CandidatesSorted InOrder at sorted ⊢
  simp only [calm.worksLess]
  exact sorted.sublist calm.fewer

/-- Other marks of an entry. -/
theorem of_modifyIndex (c : ChainState) (id : BlockID) {change : IndexEntry → IndexEntry}
    (same : (change (c.index id)).received = (c.index id).received) :
    Undisturbed c (c.modifyIndex id change) := by
  refine ⟨rfl, ?_, rfl, .refl _⟩
  intro other
  rw [c.index_modifyIndex]
  split
  · rename_i isId
    rw [isId, same]
  · rfl

theorem eraseCandidate (c : ChainState) (id : BlockID) : Undisturbed c (c.eraseCandidate id) :=
  ⟨rfl, fun _ => rfl, rfl, List.filter_sublist⟩

theorem markFailed (c : ChainState) (id : BlockID) : Undisturbed c (c.markFailed id) := by
  unfold ChainState.markFailed modifyStatus
  exact of_modifyIndex c id rfl

theorem markFailedChild (c : ChainState) (id : BlockID) :
    Undisturbed c (c.markFailedChild id) := by
  unfold ChainState.markFailedChild modifyStatus
  exact of_modifyIndex c id rfl

theorem clearFailed (c : ChainState) (id : BlockID) : Undisturbed c (c.clearFailed id) := by
  unfold ChainState.clearFailed modifyStatus
  exact of_modifyIndex c id rfl

theorem passPrecheck (c : ChainState) (id : BlockID) : Undisturbed c (c.passPrecheck id) := by
  unfold ChainState.passPrecheck
  exact of_modifyIndex c id rfl

end Undisturbed

end ChainState

open ChainState

namespace NodeHooks

variable {World : Type} {hooks : NodeHooks World}

/-- An action leaves the keys and the data alone. -/
def Calm (node after : NodeChain World) : Prop := node.chain.Undisturbed after.chain

instance : IsPreorder (NodeChain World) Calm where
  refl node := .refl node.chain
  trans _ _ _ := Undisturbed.trans

theorem calm_setChain {change : ChainState → ChainState}
    (calm : ∀ c : ChainState, c.Undisturbed (change c)) :
    Moves Calm (setChain change : ChainM World Unit) :=
  moves_update fun node => calm node.chain

theorem calm_callWorld {α : Type} (hook : World → α × World) :
    Moves Calm (callWorld hook : ChainM World α) :=
  moves_update fun node => .refl node.chain

theorem calm_assertThat (condition : Bool) :
    Moves Calm (assertThat condition : ChainM World Unit) :=
  .ite (moves_pure _) (moves_throw _)

section Choosing

/-- What the choice of a chain changes: marks of blocks, and fewer candidates. -/
structure Choosing (node after : NodeChain World) : Prop where
  same : SameChoice node.chain after.chain
  calm : node.chain.Undisturbed after.chain
  passed : ∀ id, (node.chain.index id).fPassedMinerPrecheck = true →
    (after.chain.index id).fPassedMinerPrecheck = true

instance : IsPreorder (NodeChain World) Choosing where
  refl _ := ⟨.refl _, .refl _, fun _ passed => passed⟩
  trans _ _ _ first second := ⟨first.same.trans second.same, first.calm.trans second.calm,
    fun id passed => second.passed id (first.passed id passed)⟩

theorem Choosing.taken {node after : NodeChain World} (choosing : Choosing node after)
    {id : BlockID} (taken : hooks.Taken node.chain id) : hooks.Taken after.chain id := by
  rcases taken with passed | exempt
  · exact .inl (choosing.passed id passed)
  · right
    unfold Exempt
    rw [choosing.same.tree, choosing.same.branch]
    exact exempt

theorem choosing_callWorld {α : Type} (hook : World → α × World) :
    Moves Choosing (callWorld hook : ChainM World α) :=
  moves_update fun _ => ⟨.refl _, .refl _, fun _ passed => passed⟩

theorem choosing_passPrecheck (id : BlockID) :
    Moves Choosing (setChain fun c => c.passPrecheck id : ChainM World Unit) := by
  apply moves_update
  intro node
  refine ⟨.passPrecheck _ id, .passPrecheck _ id, ?_⟩
  intro other passed
  change ((node.chain.passPrecheck id).index other).fPassedMinerPrecheck = true
  unfold ChainState.passPrecheck
  rw [node.chain.index_modifyIndex]
  split
  · rfl
  · exact passed

/-- A new status keeps the mark of the precheck. -/
theorem fPassed_modifyStatus (c : ChainState) (id other : BlockID)
    (change : BlockStatus → BlockStatus) :
    ((c.modifyStatus id change).index other).fPassedMinerPrecheck =
      (c.index other).fPassedMinerPrecheck := by
  unfold modifyStatus
  rw [c.index_modifyIndex]
  split
  · rename_i isId
    rw [isId]
  · rfl

theorem choosing_markFailed (id : BlockID) :
    Moves Choosing (setChain fun c => c.markFailed id : ChainM World Unit) := by
  apply moves_update
  intro node
  refine ⟨.markFailed _ id, .markFailed _ id, ?_⟩
  intro other passed
  change ((node.chain.markFailed id).index other).fPassedMinerPrecheck = true
  rw [ChainState.markFailed, fPassed_modifyStatus]
  exact passed

theorem choosing_judgeBranch (new : BlockID) (branch : List BlockID) :
    Moves Choosing (hooks.judgeBranch new branch) := by
  induction branch with
  | nil => exact moves_pure _
  | cons member rest ih =>
      apply (choosing_callWorld _).bind
      intro judgement
      cases judgement with
      | passed => exact (choosing_passPrecheck member).bind fun _ => ih
      | skipped => exact moves_pure _
      | rejected => exact moves_pure _

theorem choosing_verifyBlockMiner (given : Bool) (new : BlockID) :
    Moves Choosing (hooks.verifyBlockMiner given new) := by
  unfold verifyBlockMiner
  refine .bind (moves_query _) fun branch => .bind (moves_query _) fun root => .ite ?_ ?_
  · exact (choosing_passPrecheck new).bind fun _ => moves_pure _
  · refine .bind (moves_query _) fun haveData => .bind (moves_query _) fun reads => ?_
    refine .ite (moves_pure _) (.bind (moves_query _) fun failed => ?_)
    exact .ite (moves_pure _) (choosing_judgeBranch new _)

theorem choosing_collectCandidate (chosen : List BlockID) (candidate : BlockID) :
    Moves Choosing (hooks.collectCandidate chosen candidate) := by
  unfold collectCandidate
  refine .bind (moves_query _) fun found => ?_
  cases found with
  | none => exact moves_throw _
  | some standIn =>
      refine .bind (moves_query _) fun passed => .bind ?_ fun rejected => .bind ?_ fun _ => ?_
      · exact .ite (moves_pure _) ((choosing_verifyBlockMiner false standIn).bind
          fun _ => moves_pure _)
      · exact .ite (choosing_markFailed standIn) (moves_pure _)
      · exact moves_query _

theorem choosing_testBranch (branch : List BlockID) :
    Moves Choosing (testBranch branch : ChainM World (Option BlockID)) := by
  induction branch with
  | nil => exact moves_pure _
  | cons member rest ih =>
      unfold testBranch
      refine .bind (moves_query _) fun hasData => .bind ?_ fun _ => ?_
      · exact .ite (moves_pure _) (moves_throw _)
      · exact .bind (moves_query _) fun bad => .ite (moves_pure _) ih

theorem choosing_removeBranch (branch : List BlockID) (failed : BlockID) :
    Moves Choosing (removeBranch branch failed : ChainM World Unit) := by
  refine .bind (.forM fun member _ => moves_update fun node => ?_) fun _ =>
    moves_update fun _ => ⟨.eraseCandidate _ failed, .eraseCandidate _ failed,
      fun _ passed => passed⟩
  refine ⟨(SameChoice.markFailedChild _ member).trans (.eraseCandidate _ member),
    (Undisturbed.markFailedChild _ member).trans (.eraseCandidate _ member), ?_⟩
  intro other passed
  change ((node.chain.markFailedChild member).index other).fPassedMinerPrecheck = true
  rw [ChainState.markFailedChild, fPassed_modifyStatus]
  exact passed

theorem choosing_findMostWorkRound : Moves Choosing hooks.findMostWorkRound := by
  refine .bind (moves_query _) fun candidates => .bind ?_ fun chosen => ?_
  · exact Moves.foldlM (fun chosen candidate _ => choosing_collectCandidate chosen candidate) []
  · cases chosen.getLast? with
    | none => exact moves_pure _
    | some new =>
        refine .bind (moves_query _) fun branch => ?_
        refine .bind (choosing_testBranch branch) fun tested => ?_
        cases tested with
        | none => exact moves_pure _
        | some failed =>
            exact (choosing_removeBranch branch failed).bind fun _ => moves_pure _

theorem choosing_findMostWorkChain (rounds : Nat) :
    Moves Choosing (hooks.findMostWorkChain rounds) := by
  induction rounds with
  | zero => exact moves_throw _
  | succ rounds ih =>
      refine .bind choosing_findMostWorkRound fun answer => ?_
      cases answer with
      | none => exact ih
      | some answer => exact moves_pure _

end Choosing

section Activating

theorem calm_pruneBlockIndexCandidates :
    Moves Calm (pruneBlockIndexCandidates : ChainM World Unit) := by
  refine .bind (calm_setChain fun c => ?_) fun _ => .bind (moves_query _) fun _ =>
    calm_assertThat _
  cases c.tip with
  | none => exact .refl c
  | some tip => exact ⟨rfl, fun _ => rfl, rfl, List.dropWhile_sublist _⟩

theorem calm_disconnectTip (tip : BlockID) : Moves Calm (hooks.disconnectTip tip) := by
  refine .bind (calm_callWorld _) fun disconnected => .ite ?_ (moves_throw _)
  exact calm_setChain fun c => ⟨rfl, fun _ => rfl, rfl, .refl _⟩

theorem haveData_raiseValidity (status : BlockStatus) (upTo : Nat) :
    (status.raiseValidity upTo).haveData = status.haveData := by
  unfold BlockStatus.raiseValidity
  split
  · rfl
  · split <;> rfl

theorem calm_connectTip (id : BlockID) : Moves Calm (hooks.connectTip id) := by
  refine .bind (moves_query _) fun isChild => .bind (calm_assertThat _) fun _ => ?_
  refine .bind (calm_callWorld _) fun verdict => ?_
  cases verdict with
  | connected =>
      refine .bind (calm_setChain fun c => ?_) fun _ => moves_pure _
      have same : c.Undisturbed (c.modifyStatus id fun status =>
          status.raiseValidity blockValidScripts) := by
        apply Undisturbed.of_modifyIndex
        unfold IndexEntry.received
        rw [haveData_raiseValidity]
      exact ⟨same.tree, same.received, same.unlinked, same.fewer⟩
  | invalid corruptionPossible =>
      refine .bind (.ite (calm_setChain fun c => ?_) (moves_pure _)) fun _ => moves_pure _
      exact (Undisturbed.markFailed c id).trans (.eraseCandidate _ id)
  | error => exact moves_throw _

theorem calm_connectBlocks (oldTip : Option BlockID) (blocks : List BlockID) :
    Moves Calm (hooks.connectBlocks oldTip blocks) := by
  induction blocks with
  | nil => exact moves_pure _
  | cons id rest ih =>
      refine .bind (calm_connectTip id) fun connected => .ite ?_ (moves_pure _)
      refine .bind calm_pruneBlockIndexCandidates fun _ => ?_
      exact .bind (moves_query _) fun better => .ite (moves_pure _) ih

theorem calm_activateBestChainStep (mostWork : BlockID) :
    Moves Calm (hooks.activateBestChainStep mostWork) := by
  refine .bind (moves_query _) fun oldTip => .bind (moves_query _) fun fork => ?_
  refine .bind (moves_query _) fun disconnected => .bind (moves_query _) fun connected => ?_
  refine .bind (.forM fun tip _ => calm_disconnectTip tip) fun _ => ?_
  refine .bind (calm_connectBlocks oldTip _) fun invalidFound => ?_
  refine .bind (.ite (calm_callWorld _) (moves_pure _)) fun _ => ?_
  exact .bind (moves_query _) fun height => .ite (moves_throw _) (moves_pure _)

end Activating

section Pruning

variable {node after : NodeChain World}

/-- No candidate is ordered in front of the tip. -/
def Pruned (c : ChainState) : Prop :=
  ∀ id ∈ c.candidates, ∀ tip, c.tip = some tip → c.worksLess id tip = false

theorem Pruned.calm {c c' : ChainState} (pruned : Pruned c) (calm : c.Undisturbed c')
    (sameTip : c'.tip = c.tip) : Pruned c' := by
  intro id member tip isTip
  rw [calm.worksLess]
  exact pruned id (calm.fewer.subset member) tip (sameTip ▸ isTip)

/-- What is left of a sorted set when the first members below a bound are dropped. -/
theorem not_worksLess_of_mem_dropWhile {c : ChainState} {blocks : List BlockID}
    (sorted : c.InOrder blocks) {bound id : BlockID}
    (member : id ∈ blocks.dropWhile fun other => c.worksLess other bound) :
    c.worksLess id bound = false := by
  induction blocks with
  | nil => cases member
  | cons first rest ih =>
      obtain ⟨above, sortedRest⟩ := List.pairwise_cons.mp sorted
      rw [List.dropWhile_cons] at member
      split at member
      · exact ih sortedRest member
      · rename_i notBelow
        rw [Bool.not_eq_true] at notBelow
        rcases List.mem_cons.mp member with isFirst | inRest
        · rw [isFirst]
          exact notBelow
        · rw [Bool.eq_false_iff]
          intro below
          rw [c.worksLess_trans (above id inRest) below] at notBelow
          cases notBelow

theorem pruned_of_prune (sorted : node.chain.CandidatesSorted)
    (done : pruneBlockIndexCandidates node = .ok () after) : Pruned after.chain := by
  obtain ⟨_, between, prunes, rest⟩ := bind_eq_ok.mp done
  cases prunes
  obtain ⟨empty, _, asked, rest⟩ := bind_eq_ok.mp rest
  cases asked
  unfold assertThat at rest
  split at rest
  · cases rest
    intro id member tip isTip
    dsimp only at member isTip ⊢
    cases isOld : node.chain.tip with
    | none =>
        rw [isOld] at isTip
        dsimp only at isTip
        rw [isOld] at isTip
        cases isTip
    | some old =>
        rw [isOld] at member isTip
        dsimp only at member isTip
        cases isTip
        exact not_worksLess_of_mem_dropWhile sorted member
  · cases rest

/-- The loop that connects blocks prunes behind each of them. -/
theorem pruned_of_connectBlocks {oldTip : Option BlockID} {blocks : List BlockID}
    {invalidFound : Bool} (sorted : node.chain.CandidatesSorted)
    (done : hooks.connectBlocks oldTip blocks node = .ok invalidFound after) :
    after.chain.tip = node.chain.tip ∨ Pruned after.chain := by
  induction blocks generalizing node with
  | nil =>
      cases done
      exact .inl rfl
  | cons id rest ih =>
      obtain ⟨connected, between, first, done⟩ := bind_eq_ok.mp done
      have calm := Moves.of_ok (calm_connectTip id) first
      rcases (connectTip_ok first).2 with ⟨isConnected, -⟩ | ⟨isInvalid, sameTip, -⟩
      · rw [if_pos isConnected] at done
        obtain ⟨_, pruned, prune, done⟩ := bind_eq_ok.mp done
        have isPruned := pruned_of_prune (calm.sorted sorted) prune
        have calm' := calm.trans (Moves.of_ok calm_pruneBlockIndexCandidates prune)
        obtain ⟨better, _, asked, done⟩ := bind_eq_ok.mp done
        injection asked with _ unchanged
        subst unchanged
        cases better with
        | true =>
            cases done
            exact .inr isPruned
        | false =>
            rw [if_neg Bool.false_ne_true] at done
            right
            rcases ih (calm'.sorted sorted) done with sameTip | isPruned'
            · exact isPruned.calm (Moves.of_ok (calm_connectBlocks oldTip rest) done) sameTip
            · exact isPruned'
      · rw [if_neg (by simp [isInvalid])] at done
        cases done
        exact .inl sameTip

/-- A step that reaches its block from outside the active chain has pruned the candidates. -/
theorem pruned_of_activateBestChainStep {mostWork : BlockID}
    (sorted : node.chain.CandidatesSorted) (off : mostWork ∉ node.chain.activeChain)
    (done : hooks.activateBestChainStep mostWork node = .ok () after)
    (reached : after.chain.tip = some mostWork) : Pruned after.chain := by
  obtain ⟨between, climbed, invalidFound, wentDown, connects, isAfter, -⟩ :=
    activateBestChainStep_parts done
  have wentCalm : node.chain.Undisturbed between.chain :=
    Moves.of_ok (.forM fun tip _ => calm_disconnectTip tip) wentDown
  rw [isAfter] at reached ⊢
  refine (pruned_of_connectBlocks (wentCalm.sorted sorted) connects).resolve_left ?_
  intro sameTip
  rw [sameTip, (disconnectToFork_ok wentDown).1] at reached
  exact off (node.chain.tree.fork_mem_active reached)

end Pruning

end NodeHooks

end HdacNode
