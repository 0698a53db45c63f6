import HdacNode.CandidateKeys

/-!
# The order of the candidates

The keys of the comparator are written when a block arrives and by the rounds of
`ActivateBestChain`, which give the tip the mining status of the wallet.  A block that arrives is
no candidate as long as only blocks with the data of all their ancestors become candidates, and
the status of the tip does no harm unless another candidate has as much work.
-/

namespace HdacNode

open FailingActions ChainM

namespace ChainState

/-- The candidates are in order and have the data of all their ancestors; the blocks of a queue
and those of `mapBlocksUnlinked` still wait for it. -/
structure OrderlyWith (queue : List BlockID) (c : ChainState) : Prop where
  sorted : c.CandidatesSorted
  known : ∀ id, (c.index id).nStatus.haveData = true → id ∈ c.tree.blocks
  received : ∀ id, (c.index id).nChainTx ≠ 0 → (c.index id).nStatus.haveData = true
  linked : ∀ id ∈ c.candidates, (c.index id).nChainTx ≠ 0
  waiting : ∀ id ∈ queue ++ c.unlinked.map Prod.snd, (c.index id).nStatus.haveData = true ∧
    (c.index id).nTx ≠ 0 ∧ (c.index id).nChainTx = 0
  once : (queue ++ c.unlinked.map Prod.snd).Nodup

/-- The tree of blocks is in order. -/
abbrev Orderly (c : ChainState) : Prop := OrderlyWith [] c

namespace OrderlyWith

variable {c c' : ChainState} {queue : List BlockID} {id : BlockID}

theorem undisturbed (orderly : OrderlyWith queue c) (calm : c.Undisturbed c') :
    OrderlyWith queue c' where
  sorted := calm.sorted orderly.sorted
  known id := by
    rw [calm.haveData, calm.tree]
    exact orderly.known id
  received id := by
    rw [calm.nChainTx, calm.haveData]
    exact orderly.received id
  linked id member := by
    rw [calm.nChainTx]
    exact orderly.linked id (calm.fewer.subset member)
  waiting id member := by
    rw [calm.unlinked] at member
    rw [calm.haveData, calm.nTx, calm.nChainTx]
    exact orderly.waiting id member
  once := by
    rw [calm.unlinked]
    exact orderly.once

theorem insertCandidate (orderly : OrderlyWith queue c) (complete : (c.index id).nChainTx ≠ 0) :
    OrderlyWith queue (c.insertCandidate id) := by
  refine ⟨InOrder.insert orderly.sorted id, orderly.known, orderly.received, ?_, orderly.waiting,
    orderly.once⟩
  intro other member
  rcases (mem_insertCandidate c).mp member with isId | inSet
  · rw [isId]
    exact complete
  · exact orderly.linked other inSet

/-- Blocks that leave the queue do not matter. -/
theorem drop (orderly : OrderlyWith queue c) : Orderly c := by
  refine ⟨orderly.sorted, orderly.known, orderly.received, orderly.linked, ?_,
    (List.nodup_append.mp orderly.once).2.1⟩
  intro id member
  exact orderly.waiting id (List.mem_append_right _ member)

/-- A change of a block that is no candidate and does not wait. -/
theorem modifyIndex (orderly : OrderlyWith queue c) (change : IndexEntry → IndexEntry)
    (outside : id ∉ c.candidates) (free : id ∉ queue ++ c.unlinked.map Prod.snd)
    (known : (change (c.index id)).nStatus.haveData = true → id ∈ c.tree.blocks)
    (received : (change (c.index id)).nChainTx ≠ 0 →
      (change (c.index id)).nStatus.haveData = true) :
    OrderlyWith queue (c.modifyIndex id change) := by
  have other : ∀ member, member ≠ id → (c.modifyIndex id change).index member = c.index member :=
    fun member notId => by rw [c.index_modifyIndex, if_neg notId]
  have itself : (c.modifyIndex id change).index id = change (c.index id) := by
    rw [c.index_modifyIndex, if_pos rfl]
  have sameOrder : ∀ pa ∈ c.candidates, ∀ pb ∈ c.candidates,
      (c.modifyIndex id change).worksLess pa pb = c.worksLess pa pb := by
    intro pa first pb second
    unfold worksLess
    rw [other pa fun isId => outside (isId ▸ first), other pb fun isId => outside (isId ▸ second)]
    rfl
  refine ⟨?_, ?_, ?_, ?_, ?_, orderly.once⟩
  · refine List.Pairwise.imp_of_mem ?_ orderly.sorted
    intro pa pb first second less
    rw [sameOrder pa first pb second]
    exact less
  · intro member
    by_cases isId : member = id
    · rw [isId, itself]
      exact known
    · rw [other member isId]
      exact orderly.known member
  · intro member
    by_cases isId : member = id
    · rw [isId, itself]
      exact received
    · rw [other member isId]
      exact orderly.received member
  · intro member inSet
    rw [other member fun isId => outside (isId ▸ inSet)]
    exact orderly.linked member inSet
  · intro member waits
    rw [other member fun isId => free (isId ▸ waits)]
    exact orderly.waiting member waits

/-- A block without its data is no candidate and does not wait. -/
theorem free_of_noData (orderly : OrderlyWith queue c)
    (noData : (c.index id).nStatus.haveData = false) :
    id ∉ c.candidates ∧ id ∉ queue ++ c.unlinked.map Prod.snd := by
  constructor
  · intro member
    rw [orderly.received id (orderly.linked id member)] at noData
    cases noData
  · intro waits
    rw [(orderly.waiting id waits).1] at noData
    cases noData

section Arrival

theorem addToBlockIndex (orderly : Orderly c) (id : BlockID) : Orderly (c.addToBlockIndex id) := by
  unfold ChainState.addToBlockIndex
  split
  · exact orderly
  · rename_i unknown
    have noData : (c.index id).nStatus.haveData = false := by
      rw [Bool.eq_false_iff]
      exact fun haveData => unknown (orderly.known id haveData)
    obtain ⟨outside, free⟩ := orderly.free_of_noData noData
    have modified := orderly.modifyIndex (fun _ => { IndexEntry.null with
      nStatus := IndexEntry.null.nStatus.raiseValidity blockValidTree }) outside free
      (fun haveData => nomatch haveData) (fun some_ => absurd rfl some_)
    refine ⟨modified.sorted, ?_, modified.received, modified.linked, modified.waiting,
      modified.once⟩
    exact fun other haveData => List.mem_cons_of_mem _ (modified.known other haveData)

/-- The block in front of the queue is linked, and the blocks that waited for it join the
queue. -/
theorem linkFirst (orderly : OrderlyWith (id :: queue) c) :
    OrderlyWith (queue ++ (c.unlinked.filter (·.1 = id)).map Prod.snd)
      { (c.sequenceBlock id).insertCandidate id with
        unlinked := c.unlinked.filter (·.1 ≠ id) } := by
  obtain ⟨haveData, hasTx, noChainTx⟩ := orderly.waiting id (List.mem_cons_self ..)
  have outside : id ∉ c.candidates := fun member => orderly.linked id member noChainTx
  obtain ⟨notLater, onceLater⟩ := List.nodup_cons.mp orderly.once
  have rest : OrderlyWith queue c := ⟨orderly.sorted, orderly.known, orderly.received,
    orderly.linked, fun other waits => orderly.waiting other (List.mem_cons_of_mem _ waits),
    onceLater⟩
  have sequenced : OrderlyWith queue (c.sequenceBlock id) :=
    have modified := fun prevTx => rest.modifyIndex (fun entry => { entry with
      nChainTx := prevTx + entry.nTx, nSequenceId := c.nextSequenceId }) outside notLater
      (fun _ => orderly.known id haveData) (fun _ => haveData)
    ⟨(modified _).sorted, (modified _).known, (modified _).received, (modified _).linked,
      (modified _).waiting, rest.once⟩
  have complete : ((c.sequenceBlock id).index id).nChainTx ≠ 0 := by
    unfold sequenceBlock
    dsimp only
    rw [c.index_modifyIndex, if_pos rfl]
    dsimp only
    omega
  have inserted := sequenced.insertCandidate complete
  have split : ((c.unlinked.filter (·.1 = id)).map Prod.snd ++
      (c.unlinked.filter (·.1 ≠ id)).map Prod.snd).Perm (c.unlinked.map Prod.snd) := by
    rw [← List.map_append]
    apply List.Perm.map
    have partition := List.filter_append_perm (fun pair : BlockID × BlockID => decide (pair.1 = id))
      c.unlinked
    simpa using partition
  have sameWaiting : ((queue ++ (c.unlinked.filter (·.1 = id)).map Prod.snd) ++
      (c.unlinked.filter (·.1 ≠ id)).map Prod.snd).Perm (queue ++ c.unlinked.map Prod.snd) := by
    rw [List.append_assoc]
    exact split.append_left queue
  refine ⟨inserted.sorted, inserted.known, inserted.received, inserted.linked, ?_, ?_⟩
  · intro other waits
    exact inserted.waiting other (sameWaiting.mem_iff.mp waits)
  · exact sameWaiting.nodup_iff.mpr onceLater

theorem linkBlocks (fuel : Nat) (orderly : OrderlyWith queue c) :
    Orderly (ChainState.linkBlocks fuel queue c) := by
  induction fuel generalizing queue c with
  | zero => exact orderly.drop
  | succ fuel ih =>
      cases queue with
      | nil => exact orderly
      | cons id queue => exact ih orderly.linkFirst

theorem receivedBlockTransactions (orderly : Orderly c) (hasWallet : Bool) (status : MinerStatus)
    {nTx : Nat} (known : id ∈ c.tree.blocks) (noData : (c.index id).nStatus.haveData = false)
    (hasTx : nTx ≠ 0) :
    Orderly (c.receivedBlockTransactions hasWallet status nTx id) := by
  obtain ⟨outside, free⟩ := orderly.free_of_noData noData
  have haveData : ({ (c.index id).nStatus with haveData := true }.raiseValidity
      blockValidTransactions).haveData = true := NodeHooks.haveData_raiseValidity _ _
  have first : Orderly (c.receiveData nTx id) :=
    orderly.modifyIndex _ outside free (fun _ => known) fun _ => haveData
  have second : Orderly ((c.receiveData nTx id).updateChainMiningStatus hasWallet status id) := by
    refine first.modifyIndex _ outside free (fun _ => known) ?_
    intro _
    rw [receiveData, c.index_modifyIndex, if_pos rfl]
    exact haveData
  have entry : (((c.receiveData nTx id).updateChainMiningStatus hasWallet status id).index
      id).nStatus.haveData = true ∧
      (((c.receiveData nTx id).updateChainMiningStatus hasWallet status id).index id).nTx = nTx ∧
      (((c.receiveData nTx id).updateChainMiningStatus hasWallet status id).index
        id).nChainTx = 0 := by
    rw [updateChainMiningStatus, index_modifyIndex, if_pos rfl, receiveData, c.index_modifyIndex,
      if_pos rfl]
    exact ⟨haveData, rfl, rfl⟩
  have queued : OrderlyWith [id]
      ((c.receiveData nTx id).updateChainMiningStatus hasWallet status id) := by
    refine ⟨second.sorted, second.known, second.received, second.linked, ?_,
      List.nodup_cons.mpr ⟨free, second.once⟩⟩
    intro other waits
    rcases List.mem_cons.mp waits with isId | later
    · rw [isId]
      exact ⟨entry.1, by rw [entry.2.1]; exact hasTx, entry.2.2⟩
    · exact second.waiting other later
  unfold ChainState.receivedBlockTransactions
  dsimp only
  split
  · exact queued.linkBlocks _
  · rename_i prev isPrev
    split
    · exact queued.linkBlocks _
    · split
      · have waits : ∀ pairs : List (BlockID × BlockID),
            ([] ++ (pairs ++ [(prev, id)]).map Prod.snd).Perm ([id] ++ pairs.map Prod.snd) := by
          intro pairs
          rw [List.nil_append, List.map_append]
          exact List.perm_append_comm
        exact ⟨second.sorted, second.known, second.received, second.linked,
          fun other later => queued.waiting other ((waits _).mem_iff.mp later),
          (waits _).nodup_iff.mpr queued.once⟩
      · exact second

end Arrival

end OrderlyWith

end ChainState

open ChainState

namespace NodeHooks

variable {World : Type} {hooks : NodeHooks World}

/-- A step leaves the tree in order, and a block with the data of its ancestors such a block. -/
def KeepsOrderly (id : BlockID) (node after : NodeChain World) : Prop :=
  node.chain.Orderly → (node.chain.index id).nChainTx ≠ 0 →
    after.chain.Orderly ∧ (after.chain.index id).nChainTx ≠ 0

instance (id : BlockID) : IsPreorder (NodeChain World) (KeepsOrderly id) where
  refl _ orderly complete := ⟨orderly, complete⟩
  trans _ _ _ first second orderly complete :=
    have between := first orderly complete
    second between.1 between.2

theorem Calm.keepsOrderly {node after : NodeChain World} (calm : Calm node after) (id : BlockID) :
    KeepsOrderly id node after := by
  intro orderly complete
  refine ⟨orderly.undisturbed calm, ?_⟩
  rw [calm.nChainTx]
  exact complete

theorem keepsOrderly_insertCandidate (id : BlockID) :
    Moves (KeepsOrderly id) (setChain fun c => c.insertCandidate id : ChainM World Unit) :=
  moves_update fun _ orderly complete => ⟨orderly.insertCandidate complete, complete⟩

section Insertions

theorem keepsOrderly_invalidateBlock (id : BlockID) :
    Moves (KeepsOrderly id) (hooks.invalidateBlock id) := by
  have calmly : ∀ {α : Type} {act : ChainM World α}, Moves Calm act →
      Moves (KeepsOrderly id) act := fun calm => calm.mono fun _ _ step => step.keepsOrderly id
  refine .bind (calmly ?_) fun _ => .bind (moves_query _) fun containing =>
    .bind (calmly ?_) fun _ => ?_
  · exact calm_setChain fun c => (Undisturbed.markFailed c id).trans (.eraseCandidate _ id)
  · refine .forM fun tip _ => .bind (calm_setChain fun c => ?_) fun _ => calm_disconnectTip tip
    exact (Undisturbed.markFailedChild c tip).trans (.eraseCandidate _ tip)
  · refine .bind (moves_query _) fun valid => .bind (moves_query _) fun noTip => ?_
    refine .bind (calmly (calm_assertThat _)) fun _ => moves_update fun node => ?_
    dsimp only
    split
    · exact keepsOrderly_insertCandidate id node
    · exact fun orderly complete => ⟨orderly, complete⟩

theorem orderly_reconsiderDescendant (id other : BlockID) {node : NodeChain World}
    (orderly : node.chain.Orderly) :
    (stateAfter (reconsiderDescendant id other node)).chain.Orderly := by
  have inserts : ∀ node : NodeChain World, node.chain.Orderly →
      (stateAfter ((do
        let complete ← askChain fun c => c.hasTransactions other
        let noTip ← askChain fun c => decide (c.tip = none)
        assertThat (!complete || !noTip)
        setChain fun c => if complete && c.beatsTip other then c.insertCandidate other else c :
          ChainM World Unit) node)).chain.Orderly := by
    intro node orderly
    change (stateAfter ((assertThat (!node.chain.hasTransactions other ||
      !decide (node.chain.tip = none)) >>= fun _ => setChain fun c =>
        if node.chain.hasTransactions other && c.beatsTip other then c.insertCandidate other
        else c) node)).chain.Orderly
    unfold assertThat
    split
    · change (if node.chain.hasTransactions other && node.chain.beatsTip other then
        node.chain.insertCandidate other else node.chain).Orderly
      split
      · rename_i both
        refine orderly.insertCandidate ?_
        simp only [hasTransactions, Bool.and_eq_true, decide_eq_true_eq] at both
        exact both.1.2
      · exact orderly
    · exact orderly
  unfold reconsiderDescendant
  rw [bind_apply]
  change (stateAfter ((if _ then _ else _ : ChainM World Unit) node)).chain.Orderly
  split
  · exact inserts _ (orderly.undisturbed (.clearFailed node.chain other))
  · exact orderly

theorem orderly_reconsiderBlock (id : BlockID) {node : NodeChain World}
    (orderly : node.chain.Orderly) :
    (stateAfter (reconsiderBlock id node)).chain.Orderly := by
  let Keeps : NodeChain World → NodeChain World → Prop :=
    fun node after => node.chain.Orderly → after.chain.Orderly
  have : IsPreorder (NodeChain World) Keeps :=
    { refl := fun _ orderly => orderly
      trans := fun _ _ _ first second orderly => second (first orderly) }
  have moves : Moves Keeps (reconsiderBlock id : ChainM World Unit) := by
    refine .bind (moves_query _) fun blocks => .bind (.forM fun other _ => ?_) fun _ => ?_
    · exact fun node orderly => orderly_reconsiderDescendant id other orderly
    · refine moves_update fun node orderly => ?_
      dsimp only
      generalize node.chain.tree.path id = ancestors
      generalize node.chain = c at orderly
      induction ancestors generalizing c with
      | nil => exact orderly
      | cons ancestor rest ih =>
          apply ih
          dsimp only
          split
          · exact orderly.undisturbed (.clearFailed c ancestor)
          · exact orderly
  exact moves node orderly

theorem orderly_setBannedTxs {c : ChainState} (orderly : c.Orderly)
    (complete : ∀ id ∈ c.bannedBlocks, id ∈ c.tree.blocks → (c.index id).nChainTx ≠ 0) :
    c.setBannedTxs.Orderly := by
  have inserted : ∀ (banned : List BlockID) (c : ChainState), c.Orderly →
      (∀ id ∈ banned, (c.index id).nChainTx ≠ 0) →
        (banned.foldl ChainState.insertCandidate c).Orderly := by
    intro banned
    induction banned with
    | nil => exact fun _ orderly _ => orderly
    | cons id rest ih =>
        intro c orderly complete
        apply ih _ (orderly.insertCandidate (complete id (List.mem_cons_self ..)))
        exact fun other member => complete other (List.mem_cons_of_mem _ member)
  have known : ∀ id ∈ c.bannedBlocks.filter (· ∈ c.tree.blocks), (c.index id).nChainTx ≠ 0 := by
    intro id member
    obtain ⟨banned, inTree⟩ := List.mem_filter.mp member
    exact complete id banned (of_decide_eq_true inTree)
  have result := inserted _ c orderly known
  exact ⟨result.sorted, result.known, result.received, result.linked, result.waiting, result.once⟩

theorem keepsOrderly_reachLastBlock (rounds : Nat) (target : BlockID) :
    Moves (KeepsOrderly target) (hooks.reachLastBlock rounds target) := by
  intro node orderly complete
  unfold reachLastBlock
  cases found : AdvancingLoop.iterate (hooks.lastBlockRound target) rounds node with
  | none => exact ⟨orderly, complete⟩
  | some result =>
      obtain ⟨last, reached, stops⟩ := AdvancingLoop.exists_stop_of_iterate found
      have kept : last.chain.Orderly ∧ (last.chain.index target).nChainTx ≠ 0 := by
        refine AdvancingLoop.Reached.induction
          (motive := fun (state : NodeChain World) => state.chain.Orderly ∧
            (state.chain.index target).nChainTx ≠ 0) reached ⟨orderly, complete⟩ ?_
        intro state next _ kept stepped
        have calm := Moves.of_ok (calm_activateBestChainStep target) (lastBlockRound_next stepped).2
        exact calm.keepsOrderly target kept.1 kept.2
      unfold lastBlockRound at stops
      split at stops
      · cases stops
        exact ⟨kept.1.insertCandidate kept.2, kept.2⟩
      · have calm := @calm_activateBestChainStep _ hooks target last
        cases done : hooks.activateBestChainStep target last with
        | ok _ after =>
            rw [done] at stops
            cases stops
        | error stop after =>
            rw [done] at stops calm
            cases stops
            exact calm.keepsOrderly target kept.1 kept.2

end Insertions


section Arrival

theorem acceptBlockHeader_ok (checks : BlockChecks) (id : BlockID) (node : NodeChain World) :
    ∃ passes headed, acceptBlockHeader checks id node = .ok passes headed ∧
      (headed = node ∧ (passes = true → id ∈ node.chain.tree.blocks) ∨
        id ∉ node.chain.tree.blocks ∧
          headed = { node with chain := node.chain.addToBlockIndex id }) := by
  have asks {α : Type} (read : ChainState → α) : (askChain read : ChainM World α) node =
      .ok (read node.chain) node := rfl
  simp only [acceptBlockHeader, bind_apply, asks]
  by_cases known : id ∈ node.chain.tree.blocks
  · rw [if_pos (decide_eq_true known)]
    exact ⟨_, node, rfl, .inl ⟨rfl, fun _ => known⟩⟩
  · rw [if_neg (by rw [decide_eq_false known]; exact Bool.false_ne_true), bind_apply, asks]
    dsimp only
    split
    · exact ⟨true, _, rfl, .inr ⟨known, rfl⟩⟩
    · exact ⟨false, node, rfl, .inl ⟨rfl, nofun⟩⟩

theorem orderly_acceptBlock {checks : BlockChecks} {nTx : Nat} {id : BlockID}
    {node : NodeChain World} (orderly : node.chain.Orderly) (hasTx : nTx ≠ 0) :
    (stateAfter (hooks.acceptBlock checks nTx id node)).chain.Orderly := by
  obtain ⟨passes, headed, isHeaded, header⟩ := acceptBlockHeader_ok checks id node
  have orderlyHeaded : headed.chain.Orderly := by
    rcases header with ⟨isNode, -⟩ | ⟨-, isNew⟩
    · rw [isNode]
      exact orderly
    · rw [isNew]
      exact orderly.addToBlockIndex id
  have known : passes = true → id ∈ headed.chain.tree.blocks := by
    rcases header with ⟨isNode, known⟩ | ⟨unknown, isNew⟩
    · rw [isNode]
      exact known
    · intro _
      rw [isNew, addToBlockIndex, if_neg unknown]
      exact List.mem_cons_self ..
  have rest : Moves Calm (hooks.verifyBlockMiner true id >>= fun passes => if passes then pure true
      else do
        setChain fun c => c.markFailed id
        pure false : ChainM World Bool) := by
    refine .bind ((choosing_verifyBlockMiner true id).mono fun _ _ step => step.calm)
      fun passes => .ite (moves_pure _) (.bind ?_ fun _ => moves_pure _)
    exact calm_setChain fun c => .markFailed c id
  unfold acceptBlock
  rw [bind_apply, isHeaded]
  dsimp only
  cases passes with
  | false => exact orderlyHeaded
  | true =>
      rw [if_neg (by decide)]
      change (stateAfter ((if (headed.chain.index id).nStatus.haveData = true then _ else _ :
        ChainM World Bool) headed)).chain.Orderly
      cases haveData : (headed.chain.index id).nStatus.haveData with
      | true => exact orderlyHeaded
      | false =>
          rw [if_neg Bool.false_ne_true]
          split
          · exact orderlyHeaded
          · split
            · have failing : Moves Calm (do
                  runWhen (!checks.corruptionPossible) (setChain fun c => c.markFailed id)
                  pure false : ChainM World Bool) :=
                .bind (.ite (calm_setChain fun c => .markFailed c id) (moves_pure _))
                  fun _ => moves_pure _
              exact orderlyHeaded.undisturbed (failing headed)
            · have received := orderlyHeaded.receivedBlockTransactions hooks.hasWallet
                (hooks.minerStatus headed.world id) (known rfl) haveData hasTx
              exact received.undisturbed (rest ⟨_, headed.world⟩)

end Arrival

section Rounds

/-- A block is a candidate, and another candidate has as much work. -/
def Rivalled (c : ChainState) (id : BlockID) : Prop :=
  id ∈ c.candidates ∧ ∃ rival ∈ c.candidates, rival ≠ id ∧
    c.tree.nChainWork rival = c.tree.nChainWork id

/-- What a round of `ActivateBestChain` needs when there is a wallet: if another candidate has as
much work as the tip, the tip keeps its mining status; of two candidates with the same work, each
stands for itself, was taken by the verification of miners and is not below the tip. -/
structure RoundInOrder (hooks : NodeHooks World) (node : NodeChain World) : Prop where
  canMine : ∀ tip, node.chain.tip = some tip → Rivalled node.chain tip →
    hooks.tipCanMine node.world = (node.chain.index tip).nCanMine
  minedByMe : ∀ tip, node.chain.tip = some tip → Rivalled node.chain tip →
    (node.chain.index tip).nHeightMinedByMe = 0 → ∀ prev, node.chain.tree.parent tip = some prev →
      (node.chain.index prev).nHeightMinedByMe = 0
  rivals : ∀ id, Rivalled node.chain id → node.chain.standIn id = some id ∧
    hooks.Taken node.chain id ∧ (id ∈ node.chain.activeChain → node.chain.tip = some id)

/-- Between blocks of different work the other keys do not matter. -/
theorem worksLess_of_work_ne {c c' : ChainState} {pa pb : BlockID} (sameTree : c'.tree = c.tree)
    (differ : c.tree.nChainWork pa ≠ c.tree.nChainWork pb) :
    c'.worksLess pa pb = c.worksLess pa pb := by
  unfold worksLess
  rw [sameTree]
  rcases Nat.lt_or_gt_of_ne differ with less | more
  · rw [if_neg (by omega), if_pos less, if_neg (by omega), if_pos less]
  · rw [if_pos more, if_pos more]

/-- A new mining status of a block that has no rival, or the one that it has already. -/
theorem orderly_writeStatus {c : ChainState} (orderly : c.Orderly) (id : BlockID)
    {change : IndexEntry → IndexEntry}
    (data : (change (c.index id)).nStatus = (c.index id).nStatus ∧
      (change (c.index id)).nTx = (c.index id).nTx ∧
      (change (c.index id)).nChainTx = (c.index id).nChainTx)
    (kept : Rivalled c id → change (c.index id) = c.index id) :
    (c.modifyIndex id change).Orderly := by
  by_cases rivalled : Rivalled c id
  · exact orderly.undisturbed (.of_modifyIndex c id (by rw [kept rivalled]))
  have entry : ∀ member, ((c.modifyIndex id change).index member).nStatus =
      (c.index member).nStatus ∧
      ((c.modifyIndex id change).index member).nTx = (c.index member).nTx ∧
      ((c.modifyIndex id change).index member).nChainTx = (c.index member).nChainTx := by
    intro member
    rw [c.index_modifyIndex]
    split
    · rename_i isId
      rw [isId]
      exact data
    · exact ⟨rfl, rfl, rfl⟩
  have alone : ∀ pa ∈ c.candidates, ∀ pb ∈ c.candidates, pa ≠ pb → pa = id ∨ pb = id →
      c.tree.nChainWork pa ≠ c.tree.nChainWork pb := by
    rintro pa first pb second differ (rfl | rfl) sameWork
    · exact rivalled ⟨first, pb, second, differ.symm, sameWork.symm⟩
    · exact rivalled ⟨second, pa, first, differ, sameWork⟩
  refine ⟨?_, ?_, ?_, ?_, ?_, orderly.once⟩
  · refine List.Pairwise.imp_of_mem ?_ orderly.sorted
    intro pa pb first second less
    have differ : pa ≠ pb := by
      rintro rfl
      rw [c.worksLess_irrefl] at less
      cases less
    by_cases written : pa = id ∨ pb = id
    · have same := @worksLess_of_work_ne c (c.modifyIndex id change) pa pb rfl
        (alone pa first pb second differ written)
      rw [same]
      exact less
    · rw [not_or] at written
      unfold worksLess at less ⊢
      rw [c.index_modifyIndex, c.index_modifyIndex, if_neg written.1, if_neg written.2]
      exact less
  · intro member
    rw [(entry member).1]
    exact orderly.known member
  · intro member
    rw [(entry member).1, (entry member).2.2]
    exact orderly.received member
  · intro member inSet
    rw [(entry member).2.2]
    exact orderly.linked member inSet
  · intro member waits
    rw [(entry member).1, (entry member).2.1, (entry member).2.2]
    exact orderly.waiting member waits

/-- What the writes of a mining status leave as it was. -/
def Restatused (c c' : ChainState) : Prop :=
  ∃ index, c' = { c with index } ∧
    ∀ id, (index id).fPassedMinerPrecheck = (c.index id).fPassedMinerPrecheck

theorem writeTipCanMine_ok (hooks : NodeHooks World) (node : NodeChain World)
    (orderly : node.chain.Orderly)
    (kept : ∀ tip, node.chain.tip = some tip → Rivalled node.chain tip →
      hooks.tipCanMine node.world = (node.chain.index tip).nCanMine) :
    ∃ after, hooks.writeTipCanMine node = .ok () after ∧ after.chain.Orderly ∧
      Restatused node.chain after.chain ∧ after.world = node.world ∧
      ∀ id, (after.chain.index id).nHeightMinedByMe = (node.chain.index id).nHeightMinedByMe := by
  refine ⟨_, rfl, ?_⟩
  dsimp only
  cases isTip : node.chain.tip with
  | none => exact ⟨orderly, ⟨_, rfl, fun _ => rfl⟩, rfl, fun _ => rfl⟩
  | some tip =>
      have pointwise : ∀ {Value : Type} (read : IndexEntry → Value),
          (∀ entry : IndexEntry, read { entry with nCanMine := hooks.tipCanMine node.world } =
            read entry) → ∀ id, read ((node.chain.modifyIndex tip fun entry =>
              { entry with nCanMine := hooks.tipCanMine node.world }).index id) =
            read (node.chain.index id) := by
        intro Value read same id
        rw [node.chain.index_modifyIndex]
        split
        · rename_i isId
          rw [same, isId]
        · rfl
      refine ⟨orderly_writeStatus orderly tip ⟨rfl, rfl, rfl⟩ fun rivalled => ?_,
        ⟨_, rfl, pointwise IndexEntry.fPassedMinerPrecheck fun _ => rfl⟩, rfl,
        pointwise IndexEntry.nHeightMinedByMe fun _ => rfl⟩
      rw [kept tip isTip rivalled]

theorem writeTipMinedByMe_ok (node : NodeChain World) (orderly : node.chain.Orderly)
    (kept : ∀ tip, node.chain.tip = some tip → Rivalled node.chain tip →
      (node.chain.index tip).nHeightMinedByMe = 0 → ∀ prev, node.chain.tree.parent tip = some prev →
        (node.chain.index prev).nHeightMinedByMe = 0) :
    ∃ after, (writeTipMinedByMe : ChainM World Unit) node = .ok () after ∧ after.chain.Orderly ∧
      Restatused node.chain after.chain := by
  refine ⟨_, rfl, ?_⟩
  dsimp only
  cases isTip : node.chain.tip with
  | none => exact ⟨orderly, _, rfl, fun _ => rfl⟩
  | some tip =>
      dsimp only
      cases isPrev : node.chain.tree.parent tip with
      | none => exact ⟨orderly, _, rfl, fun _ => rfl⟩
      | some prev =>
          dsimp only
          split
          · rename_i isZero
            refine ⟨orderly_writeStatus orderly tip ⟨rfl, rfl, rfl⟩ fun rivalled => ?_,
              _, rfl, fun id => ?_⟩
            · rw [kept tip isTip rivalled isZero prev isPrev, ← isZero]
            · rw [Function.update_apply]
              split
              · rename_i isId
                rw [isId]
              · rfl
          · exact ⟨orderly, _, rfl, fun _ => rfl⟩

theorem tipStatus_ok {node : NodeChain World} (orderly : node.chain.Orderly)
    (inOrder : hooks.hasWallet = true → hooks.RoundInOrder node) :
    ∃ after, (runWhen hooks.hasWallet do
        hooks.writeTipCanMine
        writeTipMinedByMe) node = .ok () after ∧ after.chain.Orderly ∧
      Restatused node.chain after.chain := by
  unfold runWhen
  cases wallet : hooks.hasWallet with
  | false => exact ⟨node, rfl, orderly, _, rfl, fun _ => rfl⟩
  | true =>
      have kept := inOrder wallet
      obtain ⟨between, first, orderlyBetween, ⟨index, isBetween, passed⟩, -, mined⟩ :=
        writeTipCanMine_ok hooks node orderly kept.canMine
      obtain ⟨after, second, orderlyAfter, index', isAfter, passed'⟩ :=
        writeTipMinedByMe_ok between orderlyBetween (by
          intro tip isTip rivalled isZero prev isPrev
          rw [mined] at isZero ⊢
          rw [isBetween] at isTip rivalled isPrev
          exact kept.minedByMe tip isTip rivalled isZero prev isPrev)
      refine ⟨after, bind_eq_ok.mpr ⟨(), between, first, second⟩, orderlyAfter, index', ?_, ?_⟩
      · rw [isAfter, isBetween]
      · intro id
        rw [passed', isBetween]
        exact passed id

section Chosen

variable {node after : NodeChain World}

/-- A candidate in the loop of `FindMostWorkChain`: it joins the blocks to choose from if it stands
for itself and was taken. -/
theorem collectCandidate_takes {start chosen : List BlockID} {candidate : BlockID}
    (sorted : node.chain.InOrder start)
    (done : hooks.collectCandidate start candidate node = .ok chosen after) :
    after.chain.InOrder chosen ∧ (∀ id ∈ start, id ∈ chosen) ∧
      (node.chain.standIn candidate = some candidate → hooks.Taken node.chain candidate →
        candidate ∈ chosen) := by
  have choosing : Choosing node after :=
    Moves.of_ok (choosing_collectCandidate start candidate) done
  have sorted' := (choosing.same.inOrder start).mpr sorted
  have joined : after.chain.InOrder chosen ∧ ∀ id ∈ start, id ∈ chosen := by
    obtain ⟨found, _, asked, rest⟩ := bind_eq_ok.mp done
    cases found with
    | none => cases rest
    | some standIn =>
        obtain ⟨passed, _, asked, rest⟩ := bind_eq_ok.mp rest
        obtain ⟨rejected, verified, verify, rest⟩ := bind_eq_ok.mp rest
        obtain ⟨_, marked, mark, rest⟩ := bind_eq_ok.mp rest
        injection rest with isChosen unchanged
        subst unchanged
        dsimp only at isChosen
        rw [← isChosen]
        split
        · exact ⟨sorted'.insert standIn, fun id member =>
            (mem_insertInOrder _).mpr (.inr member)⟩
        · exact ⟨sorted', fun _ member => member⟩
  refine ⟨joined.1, joined.2, ?_⟩
  intro itself taken
  obtain ⟨chosen', after', isDone, collected⟩ :=
    @collectCandidate_settled _ _ _ start _ _ itself (.inl taken)
  rw [isDone] at done
  cases done
  exact (collected.members candidate).mpr
    (.inr ⟨candidate, List.mem_singleton_self _, itself, taken⟩)

theorem foldlM_collectCandidate_takes {candidates start chosen : List BlockID}
    (sorted : node.chain.InOrder start)
    (done : candidates.foldlM hooks.collectCandidate start node = .ok chosen after) :
    after.chain.InOrder chosen ∧ (∀ id ∈ start, id ∈ chosen) ∧
      ∀ id ∈ candidates, node.chain.standIn id = some id → hooks.Taken node.chain id →
        id ∈ chosen := by
  induction candidates generalizing node start with
  | nil =>
      cases done
      exact ⟨sorted, fun _ member => member, fun _ member => nomatch member⟩
  | cons candidate rest ih =>
      rw [List.foldlM_cons] at done
      obtain ⟨next, between, collected, done⟩ := bind_eq_ok.mp done
      have choosing : Choosing node between :=
        Moves.of_ok (choosing_collectCandidate start candidate) collected
      obtain ⟨sortedNext, kept, joins⟩ := collectCandidate_takes sorted collected
      obtain ⟨sortedChosen, keptNext, joinsRest⟩ := ih sortedNext done
      refine ⟨sortedChosen, fun id member => keptNext id (kept id member), ?_⟩
      intro id member itself taken
      rcases List.mem_cons.mp member with isIt | inRest
      · rw [isIt] at itself taken ⊢
        exact keptNext candidate (joins itself taken)
      · refine joinsRest id inRest ?_ (choosing.taken taken)
        rw [choosing.same.standIn]
        exact itself

/-- The choice is not beaten by a candidate that stands for itself and was taken. -/
theorem not_worksLess_of_findMostWorkChain {rounds : Nat} {best rival : BlockID}
    (done : hooks.findMostWorkChain rounds node = .ok (some best) after)
    (stays : rival ∈ after.chain.candidates) (itself : node.chain.standIn rival = some rival)
    (taken : hooks.Taken node.chain rival) : after.chain.worksLess best rival = false := by
  induction rounds generalizing node with
  | zero => cases done
  | succ rounds ih =>
      obtain ⟨answer, between, round, rest⟩ := bind_eq_ok.mp done
      have choosing : Choosing node between := Moves.of_ok choosing_findMostWorkRound round
      cases answer with
      | none =>
          refine ih rest ?_ (choosing.taken taken)
          rw [choosing.same.standIn]
          exact itself
      | some answer =>
          cases rest
          obtain ⟨candidates, _, asked, rest⟩ := bind_eq_ok.mp round
          cases asked
          obtain ⟨chosen, collected, pass, rest⟩ := bind_eq_ok.mp rest
          obtain ⟨sorted, -, joins⟩ := foldlM_collectCandidate_takes List.Pairwise.nil pass
          have inChosen := joins rival (choosing.calm.fewer.subset stays) itself taken
          cases isLast : chosen.getLast? with
          | none =>
              rw [isLast] at rest
              cases rest
          | some new =>
              rw [isLast] at rest
              obtain ⟨branch, _, asked, rest⟩ := bind_eq_ok.mp rest
              cases asked
              obtain ⟨tested, behind, test, rest⟩ := bind_eq_ok.mp rest
              have testing : Choosing collected behind := Moves.of_ok (choosing_testBranch _) test
              cases tested with
              | none =>
                  cases rest
                  rw [testing.calm.worksLess]
                  exact sorted.not_worksLess_last isLast inChosen
              | some failed =>
                  obtain ⟨_, _, _, rest⟩ := bind_eq_ok.mp rest
                  cases rest

/-- A round that has made its choice the tip has left no other candidate with as much work. -/
theorem not_rivalled_reached {rounds : Nat} {mostWork : BlockID} {chosen reached : NodeChain World}
    (orderly : node.chain.Orderly)
    (rivals : ∀ id, Rivalled node.chain id → node.chain.standIn id = some id ∧
      hooks.Taken node.chain id ∧ (id ∈ node.chain.activeChain → node.chain.tip = some id))
    (isChosen : hooks.findMostWorkChain rounds node = .ok (some mostWork) chosen)
    (notTip : chosen.chain.tip ≠ some mostWork)
    (isStep : hooks.activateBestChainStep mostWork chosen = .ok () reached)
    (isTip : reached.chain.tip = some mostWork) : ¬ Rivalled reached.chain mostWork := by
  rintro ⟨member, rival, isRival, differ, sameWork⟩
  have choosing : Choosing node chosen := Moves.of_ok (choosing_findMostWorkChain rounds) isChosen
  have calm : Calm chosen reached := Moves.of_ok (calm_activateBestChainStep mostWork) isStep
  have inChosen := calm.fewer.subset isRival
  have first := choosing.calm.fewer.subset (calm.fewer.subset member)
  have second := choosing.calm.fewer.subset inChosen
  rw [calm.tree, choosing.same.tree] at sameWork
  obtain ⟨itself, taken, -⟩ := rivals rival ⟨second, mostWork, first, differ.symm, sameWork.symm⟩
  obtain ⟨-, -, onTop⟩ := rivals mostWork ⟨first, rival, second, differ, sameWork⟩
  have off : mostWork ∉ chosen.chain.activeChain := by
    rw [choosing.same.activeChain]
    intro active
    rw [choosing.same.tip] at notTip
    exact notTip (onTop active)
  have notBeaten := not_worksLess_of_findMostWorkChain isChosen inChosen itself taken
  have pruned := pruned_of_activateBestChainStep (choosing.calm.sorted orderly.sorted) off isStep
    isTip rival isRival mostWork isTip
  rw [calm.worksLess] at pruned
  exact differ (chosen.chain.eq_of_not_worksLess pruned notBeaten)

end Chosen

theorem orderly_activationRound {rounds : Nat} {node : NodeChain World}
    (inOrder : hooks.hasWallet = true → hooks.RoundInOrder node) (orderly : node.chain.Orderly) :
    (stateAfter (hooks.activationRound rounds node)).chain.Orderly := by
  obtain ⟨start, written, orderlyStart, index, isStart, passed⟩ := tipStatus_ok orderly inOrder
  unfold activationRound
  rw [bind_apply, written]
  dsimp only
  have chose := @choosing_findMostWorkChain _ hooks rounds start
  rw [bind_apply]
  cases isChosen : hooks.findMostWorkChain rounds start with
  | error stop chosen =>
      rw [isChosen] at chose
      exact orderlyStart.undisturbed chose.calm
  | ok answer chosen =>
      rw [isChosen] at chose
      have orderlyChosen : chosen.chain.Orderly := orderlyStart.undisturbed chose.calm
      cases answer with
      | none => exact orderlyChosen
      | some mostWork =>
          dsimp only
          rw [bind_apply]
          change (stateAfter ((if chosen.chain.tip = some mostWork then
            (pure .nothingToDo : ChainM World RoundEnd) else _) chosen)).chain.Orderly
          by_cases isTip : chosen.chain.tip = some mostWork
          · rw [if_pos isTip]
            exact orderlyChosen
          · rw [if_neg isTip]
            change (stateAfter ((hooks.activateBestChainStep mostWork >>= fun _ => _)
              chosen)).chain.Orderly
            have stepped := @calm_activateBestChainStep _ hooks mostWork chosen
            rw [bind_apply]
            cases isStep : hooks.activateBestChainStep mostWork chosen with
            | error stop reached =>
                rw [isStep] at stepped
                exact orderlyChosen.undisturbed stepped
            | ok _ reached =>
                rw [isStep] at stepped
                have orderlyReached : reached.chain.Orderly := orderlyChosen.undisturbed stepped
                change (stateAfter ((runWhen (decide (reached.chain.tip = some mostWork) &&
                  hooks.hasWallet) hooks.writeTipCanMine >>= fun _ => _) reached)).chain.Orderly
                by_cases arrived : reached.chain.tip = some mostWork ∧ hooks.hasWallet = true
                · have rivals : ∀ id, Rivalled start.chain id →
                      start.chain.standIn id = some id ∧ hooks.Taken start.chain id ∧
                        (id ∈ start.chain.activeChain → start.chain.tip = some id) := by
                    rw [isStart]
                    intro id rivalled
                    obtain ⟨itself, taken, onTop⟩ := (inOrder arrived.2).rivals id rivalled
                    refine ⟨itself, ?_, onTop⟩
                    unfold Taken
                    rw [passed]
                    exact taken
                  have alone := not_rivalled_reached orderlyStart rivals isChosen isTip isStep
                    arrived.1
                  obtain ⟨after, isWritten, orderlyAfter, -⟩ := writeTipCanMine_ok hooks reached
                    orderlyReached (by
                      intro tip isNow rivalled
                      rw [arrived.1, Option.some_inj] at isNow
                      exact absurd (isNow ▸ rivalled) alone)
                  rw [bind_apply, runWhen, if_pos (by simp [arrived]), isWritten]
                  exact orderlyAfter
                · rw [bind_apply, runWhen, if_neg (by simpa using arrived)]
                  exact orderlyReached

end Rounds

/-- What the steps of a run need: a block that arrives has a transaction, the blocks that become
candidates by hand have the data of their ancestors, and the rounds of a node with a wallet are in
order. -/
def StepInOrder (hooks : NodeHooks World) : ChainOp World → NodeChain World → Prop
  | .accept _ nTx _, _ => nTx ≠ 0
  | .activate _, node => hooks.hasWallet = true → hooks.RoundInOrder node
  | .invalidate id, node => (node.chain.index id).nChainTx ≠ 0
  | .setLast _ target, node => (node.chain.index target).nChainTx ≠ 0
  | .setBanned, node => ∀ id ∈ node.chain.bannedBlocks, id ∈ node.chain.tree.blocks →
      (node.chain.index id).nChainTx ≠ 0
  | _, _ => True

section Sample

/-- A node whose wallet knows whether it may mine, and which does not verify miners. -/
def walletHooks : NodeHooks Nat where
  disconnectBlock := fun world _ => (true, world)
  connectBlock := fun world _ => (.connected, world)
  updateMemPool := id
  readsBlock := fun _ _ => true
  prechecksMiners := false
  judgeMiner := fun world _ _ => (.passed, world)
  hasWallet := true
  tipCanMine := id
  minerStatus := fun _ _ => ⟨mcPtpMine, false, 1, 1⟩
  flushState := fun world => (true, world)

/-- Block 3 is the tip of a chain whose miner the wallet may be; of the blocks 5 and 6 only the
headers are known. -/
def headersChain (lockedBlock : Option BlockID) : NodeChain Nat where
  chain := { forkedChain 3 [3] with
    lockedBlock
    index := fun id =>
      if id ≤ 4 then { receivedEntry id with nCanMine := mcPtpMine }
      else { IndexEntry.null with nStatus := ⟨blockValidTree, false, false, false⟩ } }
  world := mcPtpMine

theorem headersChain_orderly (lockedBlock : Option BlockID) :
    (headersChain lockedBlock).chain.Orderly := by
  refine ⟨List.pairwise_singleton _ _, ?_, ?_, ?_, ?_, List.nodup_nil⟩
  · intro id haveData
    by_cases low : id ≤ 4
    · change id ∈ List.range 7
      exact List.mem_range.mpr (Nat.lt_of_le_of_lt low (by decide))
    · simp [headersChain, low, IndexEntry.null] at haveData
  · intro id hasTx
    by_cases low : id ≤ 4
    · simp [headersChain, low, receivedEntry]
    · simp [headersChain, low, IndexEntry.null] at hasTx
  · intro id member
    rw [List.mem_singleton.mp member]
    exact Nat.succ_ne_zero 3
  · intro id waits
    cases waits

/-- A block arrives, and it passes all checks. -/
def arrival (id : BlockID) : ChainOp Nat := .accept ⟨true, true, true, false⟩ 1 id

/-- A round is in order when no block is locked and the wallet still may mine on block 3. -/
theorem roundInOrder_unlocked {node : NodeChain Nat} (unlocked : node.chain.lockedBlock = none)
    (isTip : node.chain.tip = some 3) (isPrev : node.chain.tree.parent 3 = some 2)
    (status : node.world = (node.chain.index 3).nCanMine)
    (notMined : (node.chain.index 2).nHeightMinedByMe = 0)
    (off : ∀ id ∈ node.chain.candidates, id ∈ node.chain.activeChain → id = 3) :
    walletHooks.RoundInOrder node := by
  refine ⟨?_, ?_, ?_⟩
  · intro tip isIt _
    rw [isTip, Option.some_inj] at isIt
    rw [← isIt]
    exact status
  · intro tip isIt _ _ prev isParent
    rw [isTip, Option.some_inj] at isIt
    rw [← isIt, isPrev, Option.some_inj] at isParent
    rw [← isParent]
    exact notMined
  · intro id rivalled
    refine ⟨?_, .inr (.inl rfl), fun active => ?_⟩
    · unfold standIn
      rw [unlocked]
    · rw [off id rivalled.1 active]
      exact isTip

end Sample

end NodeHooks

end HdacNode
