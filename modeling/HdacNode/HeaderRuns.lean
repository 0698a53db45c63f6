import HdacNode.HeaderFlood

/-!
# Runs of a node that receives headers

A node receives headers, sees blocks become invalid and loads its index anew.  In the runs whose
counted headers all extend a listed block and keep the links of the rows, no peer has more headers
accepted on the blocks of a height than the limit.
-/

namespace HdacNode

/-- A node that receives headers, with the headers its index accepted from peers since it was
loaded: the peer and the block that is extended. -/
structure ReceivingNode (Hash : Type) where
  store : HeaderStore Hash
  accepted : List (Int × Hash)

/-- What happens to the index of a node. -/
inductive HeaderEvent (Hash : Type) where
  /-- `InitBlockIndex` adds the genesis block. -/
  | initBlockIndex (hash hashPrevBlock : Hash)
  | header (header : ArrivingHeader Hash)
  | setFailed (failed : Hash → Bool)
  | restart (written : Hash → Bool)

namespace ReceivingNode

variable {Hash : Type} [DecidableEq Hash]

/-- A new node. -/
def new : ReceivingNode Hash := ⟨.empty, []⟩

/-- The header of a peer that is in the index after it arrived and was not before. -/
def newlyAccepted (hashGenesisBlock : Hash) (before after : HeaderStore Hash)
    (header : ArrivingHeader Hash) : List (Int × Hash) :=
  if 0 < header.nodeId ∧ header.hash ≠ hashGenesisBlock ∧ header.hash ∉ before.mapBlockIndex ∧
      header.hash ∈ after.mapBlockIndex then
    ((after.index header.hash).pprev.map fun pprev => (header.nodeId, pprev)).toList
  else []

/-- One event. -/
def receive (hashGenesisBlock : Hash) (maxHeadersFromPeer : Int) (node : ReceivingNode Hash) :
    HeaderEvent Hash → ReceivingNode Hash
  | .initBlockIndex hash hashPrevBlock =>
    { node with store := node.store.addToBlockIndex hash hashPrevBlock }
  | .header header =>
    let store := (node.store.acceptBlockHeader hashGenesisBlock maxHeadersFromPeer header).2
    { store
      accepted := node.accepted ++ newlyAccepted hashGenesisBlock node.store store header }
  | .setFailed failed => { node with store := node.store.setFailed failed }
  | .restart written => ⟨node.store.reload written, []⟩

/-- A header that is counted extends a block in the list of its height, or that list is empty,
and its row is the first one of that block or is added without new memory. -/
def CarefulHeader (hashGenesisBlock : Hash) (store : HeaderStore Hash)
    (header : ArrivingHeader Hash) : Prop :=
  0 < header.nodeId → header.hash ∉ store.mapBlockIndex → header.hash ≠ hashGenesisBlock →
    header.hashPrevBlock ∈ store.mapBlockIndex →
    (header.hashPrevBlock ∈
        store.blocksOnThisHeight (store.index header.hashPrevBlock).nHeight ∨
      store.firstOnThisHeight (store.index header.hashPrevBlock).nHeight = none) ∧
    (store.blockHeaderSuccessors.length < store.allocated ∨
      store.successorsOf header.hashPrevBlock = [])

def CarefulEvent (hashGenesisBlock : Hash) (node : ReceivingNode Hash) :
    HeaderEvent Hash → Prop
  | .header header => CarefulHeader hashGenesisBlock node.store header
  | _ => True

/-- The states of the runs all of whose steps are careful. -/
inductive CarefulRun (hashGenesisBlock : Hash) (maxHeadersFromPeer : Int) :
    ReceivingNode Hash → Prop
  | new : CarefulRun hashGenesisBlock maxHeadersFromPeer new
  | step {node : ReceivingNode Hash} (run : CarefulRun hashGenesisBlock maxHeadersFromPeer node)
      (event : HeaderEvent Hash) (careful : CarefulEvent hashGenesisBlock node event) :
      CarefulRun hashGenesisBlock maxHeadersFromPeer
        (node.receive hashGenesisBlock maxHeadersFromPeer event)

/-- The walk along a height visits distinct known blocks of that height, among them those that
the accepted headers extend. -/
def ListsCover (node : ReceivingNode Hash) : Prop :=
  ∀ nHeight, (node.store.blocksOnThisHeight nHeight).Nodup ∧
    (∀ hash ∈ node.store.blocksOnThisHeight nHeight,
      hash ∈ node.store.mapBlockIndex ∧ (node.store.index hash).nHeight = nHeight) ∧
    ∀ header ∈ node.accepted, (node.store.index header.2).nHeight = nHeight →
      header.2 ∈ node.store.blocksOnThisHeight nHeight

/-- No peer had more headers accepted on the blocks of a height than the limit. -/
def FloodBounded (maxHeadersFromPeer : Int) (node : ReceivingNode Hash) : Prop :=
  ∀ (nodeId : Int) (nHeight : Nat),
    (node.accepted.countP fun header =>
      header.1 == nodeId && (node.store.index header.2).nHeight == nHeight) ≤
        maxHeadersFromPeer.toNat

section Steps

variable {store : HeaderStore Hash} {listed : List Hash} {accepted : List (Int × Hash)}
  {maxHeadersFromPeer : Int}

/-- What holds in careful runs: the lists, the rows, and the bound. -/
structure Flood (maxHeadersFromPeer : Int) (node : ReceivingNode Hash) (listed : List Hash) :
    Prop where
  threaded : node.store.Threaded listed
  chained : node.store.Chained node.accepted
  parents : ∀ header ∈ node.accepted, header.2 ∈ listed
  bounded : FloodBounded maxHeadersFromPeer node

omit [DecidableEq Hash] in
theorem flood_unloaded {store : HeaderStore Hash} (nodup : store.mapBlockIndex.Nodup)
    (firsts : store.vFirstOnThisHeight = []) (rows : store.blockHeaderSuccessors = [⟨0, 0⟩])
    (unlinked : ∀ hash, (store.index hash).pNextOnThisHeight = none ∧
      (store.index hash).nFirstSuccessor = 0)
    (unknown : ∀ hash ∉ store.mapBlockIndex, store.index hash = .blank) :
    Flood maxHeadersFromPeer ⟨store, []⟩ [] := by
  refine ⟨⟨?_, by simp, nodup, fun hash _ => (unlinked hash).1, unknown⟩, ⟨?_, ?_⟩, by simp, ?_⟩
  · intro nHeight
    refine ⟨[], ?_, List.nodup_nil, by simp⟩
    rw [HeaderStore.firstOnThisHeight, firsts]
    exact .stop
  · rw [rows]
    rfl
  · intro hash
    refine ⟨[], ?_, List.nodup_nil, by simp⟩
    simp only [(unlinked hash).2]
    exact .stop
  · intro nodeId nHeight
    simp

omit [DecidableEq Hash] in
theorem flood_new : Flood maxHeadersFromPeer (.new : ReceivingNode Hash) [] :=
  flood_unloaded List.nodup_nil rfl rfl (fun _ => ⟨rfl, rfl⟩) fun _ _ => rfl

/-- The lists start anew after a restart. -/
theorem Flood.restart {node : ReceivingNode Hash}
    (flood : Flood maxHeadersFromPeer node listed) (written : Hash → Bool) :
    Flood maxHeadersFromPeer ⟨node.store.reload written, []⟩ [] := by
  apply flood_unloaded (flood.threaded.nodup.filter _) rfl rfl
  · intro hash
    simp only [HeaderStore.reload]
    split <;> exact ⟨rfl, rfl⟩
  · intro hash absent
    exact if_neg absent

omit [DecidableEq Hash] in
/-- The heights of the blocks that accepted headers extend do not change. -/
theorem Flood.of_store {node : ReceivingNode Hash}
    (flood : Flood maxHeadersFromPeer node listed) {others : List Hash}
    (threaded : store.Threaded (listed ++ others)) (chained : store.Chained node.accepted)
    (heights : ∀ hash ∈ node.store.mapBlockIndex,
      (store.index hash).nHeight = (node.store.index hash).nHeight) :
    Flood maxHeadersFromPeer ⟨store, node.accepted⟩ (listed ++ others) := by
  refine ⟨threaded, chained, ?_, ?_⟩
  · intro header member
    exact List.mem_append_left _ (flood.parents header member)
  · intro nodeId nHeight
    apply Nat.le_trans _ (flood.bounded nodeId nHeight)
    apply List.countP_mono_left
    intro header member
    rw [heights _ (flood.threaded.known (flood.parents header member))]
    exact id

theorem Flood.setFailed {node : ReceivingNode Hash}
    (flood : Flood maxHeadersFromPeer node listed) (failed : Hash → Bool) :
    Flood maxHeadersFromPeer { node with store := node.store.setFailed failed }
      (listed ++ []) := by
  have kept (hash : Hash) : ∃ flag, (node.store.setFailed failed).index hash =
      { node.store.index hash with failed := flag } := by
    simp only [HeaderStore.setFailed]
    split
    · exact ⟨_, rfl⟩
    · exact ⟨_, rfl⟩
  apply flood.of_store
  · rw [List.append_nil]
    refine flood.threaded.of_sameLinks rfl rfl ?_ ?_ ?_
    · intro hash
      obtain ⟨_, same⟩ := kept hash
      rw [same]
    · intro hash
      obtain ⟨_, same⟩ := kept hash
      rw [same]
    · intro hash absent
      exact if_neg absent
  · refine flood.chained.of_sameRows rfl ?_
    intro hash
    obtain ⟨_, same⟩ := kept hash
    rw [same]
  · intro hash _
    obtain ⟨_, same⟩ := kept hash
    rw [same]

theorem Flood.add {node : ReceivingNode Hash} (flood : Flood maxHeadersFromPeer node listed)
    (hash hashPrevBlock : Hash) :
    ∃ others, Flood maxHeadersFromPeer
      { node with store := node.store.addToBlockIndex hash hashPrevBlock } others := by
  by_cases known : hash ∈ node.store.mapBlockIndex
  · rw [HeaderStore.addToBlockIndex, if_pos known]
    exact ⟨listed, flood⟩
  · obtain ⟨_, _, _, sameIndex, _⟩ := HeaderStore.addToBlockIndex_keeps known hashPrevBlock
    refine ⟨_, flood.of_store (flood.threaded.add known hashPrevBlock)
      (flood.chained.add flood.threaded known hashPrevBlock) ?_⟩
    intro other isKnown
    obtain ⟨_, same⟩ := sameIndex other (by rintro rfl; exact known isKnown)
    rw [same]

variable {hashGenesisBlock : Hash}

theorem newlyAccepted_eq_nil {before after : HeaderStore Hash} {header : ArrivingHeader Hash}
    (uncounted : header.nodeId ≤ 0 ∨ header.hash = hashGenesisBlock ∨
      after.mapBlockIndex = before.mapBlockIndex) :
    newlyAccepted hashGenesisBlock before after header = [] := by
  rw [newlyAccepted, if_neg]
  rintro ⟨peer, extends', fresh, found⟩
  rcases uncounted with low | genesis | same
  · omega
  · exact extends' genesis
  · rw [same] at found
    exact fresh found

/-- A header that is accepted below the limit. -/
theorem Flood.accept {node : ReceivingNode Hash} (flood : Flood maxHeadersFromPeer node listed)
    {header : ArrivingHeader Hash} (fresh : header.hash ∉ node.store.mapBlockIndex)
    (peer : 0 < header.nodeId) (notGenesis : header.hash ≠ hashGenesisBlock)
    (known : header.hashPrevBlock ∈ node.store.mapBlockIndex)
    (careful : CarefulHeader hashGenesisBlock node.store header)
    (room : (node.store.listedForPrev header.hashPrevBlock).successorsFromThisNode header.nodeId
      ((node.store.listedForPrev header.hashPrevBlock).index header.hashPrevBlock).nHeight <
        maxHeadersFromPeer) :
    ∃ others, Flood maxHeadersFromPeer
      ⟨((node.store.listedForPrev header.hashPrevBlock).addSuccessor header.hashPrevBlock
          header.nodeId).addToBlockIndex header.hash header.hashPrevBlock,
        node.accepted ++ [(header.nodeId, header.hashPrevBlock)]⟩ others := by
  obtain ⟨onList, kept⟩ := careful peer fresh notGenesis known
  obtain ⟨started, threaded, isStarted⟩ := flood.threaded.listedForPrev known
  have chained := flood.chained.listedForPrev header.hashPrevBlock
  obtain ⟨sameMap, sameRows, sameSize, sameIndex⟩ :=
    node.store.listedForPrev_keeps header.hashPrevBlock
  have sameHeight (hash : Hash) :
      ((node.store.listedForPrev header.hashPrevBlock).index hash).nHeight =
        (node.store.index hash).nHeight := by
    obtain ⟨_, same⟩ := sameIndex hash
    rw [same]
  have isListed : header.hashPrevBlock ∈ listed ++ started := by
    rcases onList with onHeight | empty
    · exact List.mem_append_left _ (flood.threaded.mem_blocksOnThisHeight.1 onHeight).1
    · exact List.mem_append_right _ (isStarted empty)
  have sameSuccessors : (node.store.listedForPrev header.hashPrevBlock).successorsOf
      header.hashPrevBlock = node.store.successorsOf header.hashPrevBlock := by
    obtain ⟨_, same⟩ := sameIndex header.hashPrevBlock
    have nexts : (node.store.listedForPrev header.hashPrevBlock).nextSuccessor =
        node.store.nextSuccessor := by
      funext successor
      rw [HeaderStore.nextSuccessor, HeaderStore.nextSuccessor, sameRows]
    rw [HeaderStore.successorsOf, HeaderStore.successorsOf, sameRows, nexts, same]
  rw [← sameRows, ← sameSize, ← sameSuccessors] at kept
  rw [← sameMap] at fresh known
  have parents : ∀ other ∈ node.accepted, other.2 ∈ listed ++ started :=
    fun other member => List.mem_append_left _ (flood.parents other member)
  have bounded (nodeId : Int) (nHeight : Nat) :
      (node.accepted.countP fun other => other.1 == nodeId &&
        ((node.store.listedForPrev header.hashPrevBlock).index other.2).nHeight == nHeight) ≤
          maxHeadersFromPeer.toNat := by
    simp only [sameHeight]
    exact flood.bounded nodeId nHeight
  generalize node.store.listedForPrev header.hashPrevBlock = store at *
  have counted := chained.successorsFromThisNode_eq threaded parents
  have linked := chained.addSuccessor (threaded.mem_blocksOnThisHeight.2 ⟨isListed, rfl⟩)
    header.nodeId kept
  have listedStill := threaded.addSuccessor known header.nodeId
  obtain ⟨addedMap, _, addedIndex⟩ :=
    store.addSuccessor_keeps header.hashPrevBlock header.nodeId
  rw [← addedMap] at fresh
  obtain ⟨_, _, _, newIndex, _⟩ := HeaderStore.addToBlockIndex_keeps fresh header.hashPrevBlock
  have newHeight (hash : Hash) (isKnown : hash ∈ store.mapBlockIndex) :
      (((store.addSuccessor header.hashPrevBlock header.nodeId).addToBlockIndex header.hash
        header.hashPrevBlock).index hash).nHeight = (store.index hash).nHeight := by
    have different : hash ≠ header.hash := by
      rintro rfl
      exact fresh (addedMap ▸ isKnown)
    obtain ⟨_, same⟩ := newIndex hash different
    obtain ⟨_, before, _⟩ := addedIndex hash
    rw [same, before]
  refine ⟨_, listedStill.add fresh header.hashPrevBlock,
    linked.add listedStill fresh header.hashPrevBlock, ?_, ?_⟩
  · intro other member
    rcases List.mem_append.1 member with before | isNew
    · exact List.mem_append_left _ (parents other before)
    · rw [List.mem_singleton.1 isNew]
      exact List.mem_append_left _ isListed
  · intro nodeId nHeight
    have before := bounded nodeId nHeight
    have sameCount : (node.accepted.countP fun other => other.1 == nodeId &&
        (((store.addSuccessor header.hashPrevBlock header.nodeId).addToBlockIndex header.hash
          header.hashPrevBlock).index other.2).nHeight == nHeight) =
        node.accepted.countP fun other => other.1 == nodeId &&
          (store.index other.2).nHeight == nHeight := by
      apply List.countP_congr
      intro other member
      rw [newHeight _ (threaded.known (parents other member))]
    dsimp only
    rw [List.countP_append, sameCount, List.countP_singleton, newHeight _ known]
    split
    · rename_i here
      simp only [Bool.and_eq_true, beq_iff_eq] at here
      rw [here.1, here.2, counted] at room
      omega
    · omega

/-- A careful header keeps what holds. -/
theorem Flood.header {node : ReceivingNode Hash} (flood : Flood maxHeadersFromPeer node listed)
    {header : ArrivingHeader Hash}
    (careful : CarefulHeader hashGenesisBlock node.store header) :
    ∃ others, Flood maxHeadersFromPeer
      (node.receive hashGenesisBlock maxHeadersFromPeer (.header header)) others := by
  rw [receive]
  rcases node.store.acceptBlockHeader_cases hashGenesisBlock maxHeadersFromPeer header with
    same | ⟨fresh, ⟨uncounted, same⟩ | ⟨notGenesis, peer, known, same | ⟨room, same⟩⟩⟩
  · rw [same, newlyAccepted_eq_nil (Or.inr (Or.inr rfl)), List.append_nil]
    exact ⟨listed, flood⟩
  · rw [same, newlyAccepted_eq_nil (by tauto), List.append_nil]
    exact flood.add header.hash header.hashPrevBlock
  · obtain ⟨sameMap, _, _, sameIndex⟩ := node.store.listedForPrev_keeps header.hashPrevBlock
    rw [same, newlyAccepted_eq_nil (Or.inr (Or.inr sameMap)), List.append_nil]
    obtain ⟨started, threaded, _⟩ := flood.threaded.listedForPrev known
    refine ⟨_, flood.of_store threaded (flood.chained.listedForPrev _) ?_⟩
    intro hash _
    obtain ⟨_, kept⟩ := sameIndex hash
    rw [kept]
  · obtain ⟨sameMap, _, _, _⟩ := node.store.listedForPrev_keeps header.hashPrevBlock
    have added := HeaderStore.addSuccessor_keeps
      (node.store.listedForPrev header.hashPrevBlock) header.hashPrevBlock header.nodeId
    have fresh' : header.hash ∉ ((node.store.listedForPrev header.hashPrevBlock).addSuccessor
        header.hashPrevBlock header.nodeId).mapBlockIndex := by
      rw [added.1, sameMap]
      exact fresh
    obtain ⟨newMap, _, _, _, parent, _⟩ :=
      HeaderStore.addToBlockIndex_keeps fresh' header.hashPrevBlock
    have isNew : newlyAccepted hashGenesisBlock node.store
        (((node.store.listedForPrev header.hashPrevBlock).addSuccessor header.hashPrevBlock
          header.nodeId).addToBlockIndex header.hash header.hashPrevBlock) header =
        [(header.nodeId, header.hashPrevBlock)] := by
      rw [newlyAccepted, if_pos ⟨peer, notGenesis, fresh, by simp [newMap]⟩, parent,
        if_pos (by rw [added.1, sameMap]; exact known)]
      rfl
    rw [same, isNew]
    exact flood.accept fresh peer notGenesis known careful room

theorem Flood.step {node : ReceivingNode Hash} (flood : Flood maxHeadersFromPeer node listed)
    (event : HeaderEvent Hash) (careful : CarefulEvent hashGenesisBlock node event) :
    ∃ others, Flood maxHeadersFromPeer
      (node.receive hashGenesisBlock maxHeadersFromPeer event) others := by
  cases event with
  | initBlockIndex hash hashPrevBlock => exact flood.add hash hashPrevBlock
  | header header => exact flood.header careful
  | setFailed failed => exact ⟨_, flood.setFailed failed⟩
  | restart written => exact ⟨_, flood.restart written⟩

theorem flood_of_run {node : ReceivingNode Hash}
    (run : CarefulRun hashGenesisBlock maxHeadersFromPeer node) :
    ∃ listed, Flood maxHeadersFromPeer node listed := by
  induction run with
  | new => exact ⟨[], flood_new⟩
  | step run event careful ih =>
    obtain ⟨listed, flood⟩ := ih
    exact flood.step event careful

/-- In the careful runs, restarts included, no peer has more headers accepted on the blocks of a
height than the limit, and the lists hold every block that such a header extends. -/
theorem headers_bounded_of_careful {node : ReceivingNode Hash}
    (run : CarefulRun hashGenesisBlock maxHeadersFromPeer node) :
    FloodBounded maxHeadersFromPeer node ∧ ListsCover node := by
  obtain ⟨listed, flood⟩ := flood_of_run run
  refine ⟨flood.bounded, fun nHeight => ?_⟩
  obtain ⟨_, nodup, members⟩ := flood.threaded.blocksOnThisHeight_spec nHeight
  refine ⟨nodup, ?_, ?_⟩
  · intro hash member
    obtain ⟨isListed, height⟩ := (members hash).1 member
    exact ⟨flood.threaded.known isListed, height⟩
  · intro header member height
    exact (members _).2 ⟨flood.parents header member, height⟩

end Steps

section Examples

/-- A header that passes the checks. -/
def passing (hash hashPrevBlock : Nat) (nodeId : Int) : HeaderEvent Nat :=
  .header ⟨hash, hashPrevBlock, nodeId, none, true, true, true⟩

/-- The state after a list of events, with the default limit and genesis block zero. -/
def after (events : List (HeaderEvent Nat)) : ReceivingNode Nat :=
  events.foldl (receive 0 10) new

/-- Two blocks on the genesis block with a block on each, a restart, and two more blocks on the
first branch. -/
def forkAndRestart : List (HeaderEvent Nat) :=
  [.initBlockIndex 0 1000, passing 1 0 7, passing 2 0 7, passing 3 1 7, passing 4 2 8,
    .restart fun _ => true, passing 5 3 7, passing 6 5 8]

theorem careful_forkAndRestart : CarefulRun 0 10 (after forkAndRestart) := by
  have onGenesis : CarefulRun 0 10 (after (forkAndRestart.take 3)) :=
    ((CarefulRun.new.step (.initBlockIndex 0 1000) trivial).step (passing 1 0 7)
      fun _ _ _ _ => ⟨Or.inl (by decide +kernel), Or.inl (by decide +kernel)⟩).step
      (passing 2 0 7) fun _ _ _ _ => ⟨Or.inl (by decide +kernel), Or.inl (by decide +kernel)⟩
  have onFork : CarefulRun 0 10 (after (forkAndRestart.take 5)) :=
    (onGenesis.step (passing 3 1 7)
      fun _ _ _ _ => ⟨Or.inl (by decide +kernel), Or.inl (by decide +kernel)⟩).step
      (passing 4 2 8) fun _ _ _ _ => ⟨Or.inl (by decide +kernel), Or.inl (by decide +kernel)⟩
  -- the lists are empty behind the restart, so block 3 starts that of its height
  have restarted : CarefulRun 0 10 (after (forkAndRestart.take 7)) :=
    (onFork.step (.restart fun _ => true) trivial).step (passing 5 3 7)
      fun _ _ _ _ => ⟨Or.inr (by decide +kernel), Or.inl (by decide +kernel)⟩
  exact restarted.step (passing 6 5 8)
    fun _ _ _ _ => ⟨Or.inl (by decide +kernel), Or.inl (by decide +kernel)⟩

/-- The headers of the fork and those behind the restart are counted. -/
theorem headers_bounded_of_careful_forkAndRestart :
    FloodBounded 10 (after forkAndRestart) ∧ ListsCover (after forkAndRestart) :=
  headers_bounded_of_careful careful_forkAndRestart

/-- Two blocks of height one are loaded by a restart.  A header on the first starts the list of
their height, and the headers on the second are not counted. -/
theorem flood_after_restart :
    ¬ FloodBounded 10 (after
      ([.initBlockIndex 0 1000, passing 1 0 7, passing 2 0 8, .restart fun _ => true,
        passing 3 1 7] ++ (List.range 11).map fun n => passing (n + 10) 2 7)) :=
  fun bounded => absurd (bounded 7 1) (by decide +kernel)

end Examples

end ReceivingNode

end HdacNode
