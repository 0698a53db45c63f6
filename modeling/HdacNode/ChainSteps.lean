import HdacNode.ChainActivation

/-!
# What an activation step does to the tip

A step that returns true has disconnected the active chain down to the fork, and has then
climbed the branch of the block with most work.  It stays on the way only at a block that
breaks a rule, or in front of the end of the branch with more work than before.
-/

namespace HdacNode

open FailingActions ChainM

namespace NodeHooks

variable {World : Type} {hooks : NodeHooks World} {node after : NodeChain World}

theorem disconnectTip_ok {tip : BlockID}
    (done : hooks.disconnectTip tip node = .ok () after) :
    after.chain = { node.chain with tip := node.chain.tree.parent tip } := by
  obtain ⟨disconnected, between, called, rest⟩ := bind_eq_ok.mp done
  cases called
  cases succeeds : (hooks.disconnectBlock node.world tip).1 with
  | false =>
      rw [if_neg (by simp [succeeds])] at rest
      cases rest
  | true =>
      rw [if_pos succeeds] at rest
      cases rest
      rfl

theorem disconnectTips_ok {tree : BlockTree} {goes : BlockID → Bool} {top : BlockID}
    (isTree : node.chain.tree = tree) (isTip : node.chain.tip = some top)
    (done : ((tree.path top).takeWhile goes).forM hooks.disconnectTip node = .ok () after) :
    after.chain = { node.chain with tip := ((tree.path top).dropWhile goes).head? } := by
  induction top using tree.path_induction generalizing node with
  | step top ih =>
      rw [tree.path_eq] at done ⊢
      rw [List.dropWhile_cons]
      rw [List.takeWhile_cons] at done
      split at done
      · rename_i leaves
        rw [if_pos leaves]
        obtain ⟨_, between, first, rest⟩ := bind_eq_ok.mp done
        have moved := disconnectTip_ok first
        rw [isTree] at moved
        cases found : tree.parent top with
        | none =>
            rw [found] at rest moved
            cases rest
            exact moved
        | some above =>
            rw [found] at rest moved
            have goesOn := @ih above found between (by rw [moved, isTree])
              (by rw [moved]) rest
            rw [goesOn, moved]
      · rename_i stays
        cases done
        rw [if_neg stays, List.head?_cons, ← isTip]

theorem connectTip_ok {id : BlockID} {connected : Bool}
    (done : hooks.connectTip id node = .ok connected after) :
    after.chain.tree = node.chain.tree ∧
      (connected = true ∧ after.chain.tip = some id ∨
        connected = false ∧ after.chain.tip = node.chain.tip ∧
          ∃ corruptionPossible,
            hooks.connectBlock node.world id = (.invalid corruptionPossible, after.world)) := by
  obtain ⟨isChild, _, asked, rest⟩ := bind_eq_ok.mp done
  cases asked
  obtain ⟨_, _, asserted, rest⟩ := bind_eq_ok.mp rest
  unfold assertThat at asserted
  split at asserted
  · cases asserted
    obtain ⟨verdict, between, called, rest⟩ := bind_eq_ok.mp rest
    cases called
    cases isVerdict : (hooks.connectBlock node.world id).1 with
    | connected =>
        rw [isVerdict] at rest
        cases rest
        exact ⟨rfl, .inl ⟨rfl, rfl⟩⟩
    | invalid corruptionPossible =>
        rw [isVerdict] at rest
        cases corruptionPossible with
        | true =>
            cases rest
            exact ⟨rfl, .inr ⟨rfl, rfl, true, Prod.ext isVerdict rfl⟩⟩
        | false =>
            cases rest
            exact ⟨rfl, .inr ⟨rfl, rfl, false, Prod.ext isVerdict rfl⟩⟩
    | error =>
        rw [isVerdict] at rest
        cases rest
  · cases asserted

theorem pruneBlockIndexCandidates_ok (done : pruneBlockIndexCandidates node = .ok () after) :
    after.chain.tree = node.chain.tree ∧ after.chain.tip = node.chain.tip := by
  obtain ⟨_, between, pruned, rest⟩ := bind_eq_ok.mp done
  cases pruned
  obtain ⟨empty, _, asked, rest⟩ := bind_eq_ok.mp rest
  cases asked
  unfold assertThat at rest
  split at rest
  · cases rest
    dsimp only
    split <;> exact ⟨rfl, rfl⟩
  · cases rest

/-- The loop that connects moves the tip to one of the blocks, or the first of them breaks
a rule. -/
theorem connectBlocks_ok {oldTip : Option BlockID} {blocks : List BlockID} {invalidFound : Bool}
    (done : hooks.connectBlocks oldTip blocks node = .ok invalidFound after) :
    after.chain.tree = node.chain.tree ∧
      ((∃ id ∈ blocks, after.chain.tip = some id) ∨
        after.chain.tip = node.chain.tip ∧
          ∀ first rest, blocks = first :: rest → invalidFound = true ∧ ∃ corruptionPossible,
            hooks.connectBlock node.world first =
              (.invalid corruptionPossible, after.world)) := by
  induction blocks generalizing node with
  | nil =>
      cases done
      exact ⟨rfl, .inr ⟨rfl, fun _ _ isCons => nomatch isCons⟩⟩
  | cons id rest ih =>
      obtain ⟨connected, between, first, done⟩ := bind_eq_ok.mp done
      obtain ⟨sameTree, moved⟩ := connectTip_ok first
      rcases moved with ⟨isConnected, isTip⟩ | ⟨isInvalid, sameTip, verdict⟩
      · rw [if_pos isConnected] at done
        obtain ⟨_, pruned, prune, done⟩ := bind_eq_ok.mp done
        obtain ⟨prunedTree, prunedTip⟩ := pruneBlockIndexCandidates_ok prune
        obtain ⟨better, _, asked, done⟩ := bind_eq_ok.mp done
        injection asked with _ unchanged
        subst unchanged
        cases better with
        | true =>
            cases done
            refine ⟨prunedTree.trans sameTree, .inl ⟨id, List.mem_cons_self .., ?_⟩⟩
            exact prunedTip.trans isTip
        | false =>
            rw [if_neg Bool.false_ne_true] at done
            obtain ⟨tree, tips⟩ := ih done
            refine ⟨tree.trans (prunedTree.trans sameTree), .inl ?_⟩
            rcases tips with ⟨last, member, isLast⟩ | ⟨isLast, -⟩
            · exact ⟨last, List.mem_cons_of_mem _ member, isLast⟩
            · exact ⟨id, List.mem_cons_self .., isLast.trans (prunedTip.trans isTip)⟩
      · rw [if_neg (by simp [isInvalid])] at done
        cases done
        refine ⟨sameTree, .inr ⟨sameTip, ?_⟩⟩
        intro head tail isCons
        cases isCons
        exact ⟨rfl, verdict⟩

theorem disconnectToFork_ok {mostWork : BlockID}
    (done : (node.chain.activeChain.takeWhile fun id =>
      some id ≠ node.chain.findFork mostWork).forM hooks.disconnectTip node = .ok () after) :
    after.chain = { node.chain with tip := node.chain.findFork mostWork } ∧
      (node.chain.findFork mostWork = node.chain.tip → after = node) := by
  cases isTip : node.chain.tip with
  | none =>
      have noChain : node.chain.activeChain = [] := by
        unfold ChainState.activeChain
        rw [isTip]
      have noFork : node.chain.findFork mostWork = none := by
        unfold ChainState.findFork Forest.fork
        rw [noChain]
        simp
      rw [noChain] at done
      cases done
      refine ⟨?_, fun _ => rfl⟩
      rw [noFork, ← isTip]
  | some tip =>
      have isChain : node.chain.activeChain = node.chain.tree.path tip := by
        unfold ChainState.activeChain
        rw [isTip]
      constructor
      · rw [isChain] at done
        rw [disconnectTips_ok rfl isTip done]
        cases isFork : node.chain.findFork mostWork with
        | none =>
            rw [List.dropWhile_eq_nil_iff.mpr (by simp)]
            rfl
        | some meeting =>
            have onChain := node.chain.tree.fork_mem_active isFork
            rw [isChain] at onChain
            have kept := List.head?_dropWhile_not (fun id => decide (some id ≠ some meeting))
              (node.chain.tree.path tip)
            cases isFirst : ((node.chain.tree.path tip).dropWhile
                fun id => decide (some id ≠ some meeting)).head? with
            | none =>
                have all := List.dropWhile_eq_nil_iff.mp (List.head?_eq_none_iff.mp isFirst)
                exact absurd (all meeting onChain) (by simp)
            | some first =>
                rw [isFirst] at kept
                have isMeeting : some first = some meeting :=
                  not_not.mp (of_decide_eq_false kept)
                rw [isMeeting]
      · intro isFork
        rw [isFork, isChain, node.chain.tree.path_eq, List.takeWhile_cons,
          if_neg (by simp)] at done
        cases done
        rfl

/-- The parts of a step that returns true: the tip goes down to the fork and up the branch, and
stays above the genesis block if a block breaks a rule. -/
theorem activateBestChainStep_parts {mostWork : BlockID}
    (done : hooks.activateBestChainStep mostWork node = .ok () after) :
    ∃ between climbed invalidFound,
      (node.chain.activeChain.takeWhile fun id => some id ≠ node.chain.findFork mostWork).forM
        hooks.disconnectTip node = .ok () between ∧
      hooks.connectBlocks node.chain.tip (node.chain.branch mostWork).reverse between =
        .ok invalidFound climbed ∧
      after.chain = climbed.chain ∧ (invalidFound = true →
        after.world = climbed.world ∧ 0 ≤ climbed.chain.activeHeight) := by
  obtain ⟨oldTip, _, asked, rest⟩ := bind_eq_ok.mp done
  cases asked
  obtain ⟨fork, _, asked, rest⟩ := bind_eq_ok.mp rest
  cases asked
  obtain ⟨disconnected, _, asked, rest⟩ := bind_eq_ok.mp rest
  cases asked
  obtain ⟨connected, _, asked, rest⟩ := bind_eq_ok.mp rest
  cases asked
  obtain ⟨_, between, wentDown, rest⟩ := bind_eq_ok.mp rest
  obtain ⟨invalidFound, climbed, connects, rest⟩ := bind_eq_ok.mp rest
  obtain ⟨_, updated, update, rest⟩ := bind_eq_ok.mp rest
  obtain ⟨height, _, asked, rest⟩ := bind_eq_ok.mp rest
  cases asked
  refine ⟨between, climbed, invalidFound, wentDown, connects, ?_⟩
  cases invalidFound with
  | true =>
      cases update
      split at rest
      · cases rest
      · rename_i above
        cases rest
        exact ⟨rfl, fun _ => ⟨rfl, by simpa using above⟩⟩
  | false =>
      cases update
      rw [if_neg (by simp)] at rest
      cases rest
      exact ⟨rfl, fun isTrue => nomatch isTrue⟩

/-- The run of a step that returns true: the tip went down to the fork, and from there it
moved up the branch, or the first block of the branch breaks a rule. -/
theorem activateBestChainStep_ok {mostWork : BlockID} {tree : BlockTree}
    (isTree : node.chain.tree = tree)
    (done : hooks.activateBestChainStep mostWork node = .ok () after) :
    after.chain.tree = tree ∧ ∃ between : NodeChain World,
      between.chain.tree = tree ∧
        between.chain.tip = tree.fork node.chain.activeChain mostWork ∧
        (node.chain.tip = between.chain.tip → between = node) ∧
        ((∃ id ∈ tree.branch node.chain.activeChain mostWork, after.chain.tip = some id) ∨
          after.chain.tip = between.chain.tip ∧ ∀ first rest,
            (tree.branch node.chain.activeChain mostWork).reverse = first :: rest →
            0 ≤ after.chain.activeHeight ∧ ∃ corruptionPossible,
              hooks.connectBlock between.world first =
                (.invalid corruptionPossible, after.world)) := by
  obtain ⟨between, climbed, invalidFound, wentDown, connects, isAfter, above⟩ :=
    activateBestChainStep_parts done
  obtain ⟨atFork, stays⟩ := disconnectToFork_ok wentDown
  obtain ⟨sameTree, tips⟩ := connectBlocks_ok connects
  have betweenTree : between.chain.tree = tree := by rw [atFork, ← isTree]
  refine ⟨by rw [isAfter, sameTree, betweenTree], between, betweenTree, ?_, ?_, ?_⟩
  · rw [atFork, ← isTree]
    rfl
  · intro sameTip
    apply stays
    rw [sameTip, atFork]
  · rw [isAfter]
    rw [← isTree]
    rcases tips with ⟨id, member, isTip⟩ | ⟨isTip, verdict⟩
    · exact .inl ⟨id, List.mem_reverse.mp member, isTip⟩
    · refine .inr ⟨isTip, ?_⟩
      intro first others isBranch
      obtain ⟨isInvalid, broken⟩ := verdict first others isBranch
      rw [(above isInvalid).1]
      exact ⟨(above isInvalid).2, broken⟩

end NodeHooks

end HdacNode
