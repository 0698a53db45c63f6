import HdacNode.MostWorkChoice

/-!
# The rounds of the choice

Once the verification of every candidate is settled, a round chooses the greatest stand-in that
was taken.  The rounds end when every stand-in whose way is bad is a candidate itself, or when one
with a good way is greater.
-/

namespace HdacNode

open FailingActions ChainM

namespace NodeHooks

variable {World : Type} (hooks : NodeHooks World)

/-- The pass of `FindMostWorkChain` over the candidates. -/
def collectCandidates (node : NodeChain World) :
    EStateM.Result ChainStop (NodeChain World) (List BlockID) :=
  node.chain.candidates.foldlM hooks.collectCandidate [] node

/-- `VerifyBlockMiner` takes a block without a look at its branch. -/
def Exempt (c : ChainState) (id : BlockID) : Prop :=
  hooks.prechecksMiners = false ∨ c.tree.parent id = none ∨ c.branch id = []

/-- The verification of miners took a block, or takes it at once. -/
def Taken (c : ChainState) (id : BlockID) : Prop :=
  (c.index id).fPassedMinerPrecheck = true ∨ hooks.Exempt c id

/-- The verification of a block is settled: it is taken, or failed before. -/
def Settled (c : ChainState) (id : BlockID) : Prop :=
  hooks.Taken c id ∨ (c.index id).nStatus.failedValid = true

/-- Every candidate has a stand-in whose verification is settled. -/
def StandInsSettled (c : ChainState) : Prop :=
  ∀ candidate ∈ c.candidates, ∃ standIn, c.standIn candidate = some standIn ∧
    hooks.Settled c standIn

variable {hooks} {node : NodeChain World}

theorem markFailed_of_failed {c : ChainState} {id : BlockID}
    (failed : (c.index id).nStatus.failedValid = true) : c.markFailed id = c := by
  have same : Function.update c.index id { c.index id with
      nStatus := { (c.index id).nStatus with failedValid := true } } = c.index := by
    rw [Function.update_eq_self_iff, ← failed]
  change { c with index := Function.update c.index id { c.index id with
      nStatus := { (c.index id).nStatus with failedValid := true } } } = c
  rw [same]

theorem verifyBlockMiner_passes (given : Bool) {new : BlockID}
    (exempt : hooks.Exempt node.chain new) :
    hooks.verifyBlockMiner given new node =
      .ok true { node with chain := node.chain.passPrecheck new } := by
  refine bind_eq_ok.mpr ⟨_, node, rfl, bind_eq_ok.mpr ⟨_, node, rfl, ?_⟩⟩
  rw [if_pos (by simpa [Exempt] using exempt)]
  rfl

theorem verifyBlockMiner_failed {id : BlockID} (goesOn : ¬ hooks.Exempt node.chain id)
    (failed : (node.chain.index id).nStatus.failedValid = true) :
    ∃ verified, hooks.verifyBlockMiner false id node = .ok verified node := by
  have marked : ((node.chain.branch id).any fun member =>
      (node.chain.index member).nStatus.failed) = true := by
    refine List.any_eq_true.mpr ⟨id, ?_, by simp [BlockStatus.failed, failed]⟩
    obtain ⟨rest, isBranch⟩ := node.chain.tree.exists_branch_eq_cons
      fun empty => goesOn (.inr (.inr empty))
    unfold ChainState.branch
    rw [isBranch]
    exact List.mem_cons_self ..
  have notExempt : ¬ ((!hooks.prechecksMiners) = true ∨
      decide (node.chain.tree.parent id = none) = true ∨ node.chain.branch id = []) := by
    simpa [Exempt] using goesOn
  simp only [verifyBlockMiner, askChain, askWorld, bind_apply, query, if_neg notExempt]
  split
  · exact ⟨true, rfl⟩
  · refine ⟨false, bind_eq_ok.mpr ⟨_, node, rfl, ?_⟩⟩
    rw [if_pos marked]
    rfl

section Rounds

theorem testBranch_eq (branch : List BlockID) :
    testBranch branch node = if node.chain.assertsHold branch then
      .ok (branch.find? node.chain.isBad) node else .error .assertion node := by
  induction branch with
  | nil => rfl
  | cons member rest ih =>
      change (assertThat (node.chain.hasData member) >>= fun _ => _) node = _
      rw [ChainState.assertsHold, bind_apply]
      cases hasData : node.chain.hasData member with
      | false => rfl
      | true =>
          change ((askChain fun c => c.isBad member) >>= fun _ => _) node = _
          rw [bind_apply]
          change (if node.chain.isBad member = true then
            (pure (some member) : ChainM World _) else testBranch rest) node = _
          cases bad : node.chain.isBad member with
          | true =>
              rw [if_pos rfl, List.find?_cons_of_pos bad]
              rfl
          | false =>
              rw [if_neg Bool.false_ne_true, List.find?_cons_of_neg (by simp [bad]), ih]
              rfl

theorem removeBranch_eq (new failed : BlockID) :
    removeBranch (node.chain.branch new) failed node =
      .ok () { node with chain := node.chain.removeWay new failed } := by
  have removes : ∀ members : List BlockID, ∀ node : NodeChain World,
      members.forM (fun member => (setChain fun c =>
        (c.markFailedChild member).eraseCandidate member : ChainM World Unit)) node =
        .ok () { node with chain := node.chain.removeMembers members } := by
    intro members
    induction members with
    | nil => exact fun _ => rfl
    | cons member rest ih => exact fun node => ih _
  exact bind_eq_ok.mpr ⟨(), _, removes _ node, rfl⟩

/-- A round, when the pass over the candidates is known. -/
theorem findMostWorkRound_eq {chosen : List BlockID} {collected : NodeChain World}
    (done : hooks.collectCandidates node = .ok chosen collected) :
    hooks.findMostWorkRound node = match chosen.getLast? with
      | none => .ok (some none) collected
      | some new =>
          if collected.chain.wholeWay new then
            match (collected.chain.branch new).find? collected.chain.isBad with
            | none => .ok (some (some new)) collected
            | some failed =>
                .ok none { collected with chain := collected.chain.removeWay new failed }
          else .error .assertion collected := by
  unfold collectCandidates at done
  unfold findMostWorkRound
  rw [bind_apply]
  change (node.chain.candidates.foldlM hooks.collectCandidate [] >>= fun chosen => _) node = _
  rw [bind_apply, done]
  dsimp only
  cases isLast : chosen.getLast? with
  | none => rfl
  | some new =>
      dsimp only
      rw [bind_apply]
      change (testBranch (collected.chain.branch new) >>= fun tested => _) collected = _
      rw [bind_apply, testBranch_eq]
      change _ = if collected.chain.assertsHold (collected.chain.branch new) = true then _ else _
      cases collected.chain.assertsHold (collected.chain.branch new) with
      | false => rfl
      | true =>
          rw [if_pos rfl, if_pos rfl]
          dsimp only
          cases (collected.chain.branch new).find? collected.chain.isBad with
          | none => rfl
          | some failed =>
              dsimp only
              rw [bind_apply, removeBranch_eq]
              rfl

/-- Where the rounds have taken blocks and erased candidates: each of them stood for itself,
and its way is bad. -/
structure Shrunk (hooks : NodeHooks World) (c c' : ChainState) : Prop where
  same : ChainState.SameChoice c c'
  taken : ∀ id, hooks.Taken c' id ↔ hooks.Taken c id
  failedValid : ∀ id, (c'.index id).nStatus.failedValid = (c.index id).nStatus.failedValid
  ways : ∀ id, c'.wholeWay id = c.wholeWay id ∧ c'.badWay id = c.badWay id
  subset : ∀ id ∈ c'.candidates, id ∈ c.candidates
  removed : ∀ id ∈ c.candidates, id ∉ c'.candidates →
    c.standIn id = some id ∧ c.wholeWay id = true ∧ c.badWay id = true

theorem Shrunk.refl (c : ChainState) : hooks.Shrunk c c :=
  ⟨.refl c, fun _ => .rfl, fun _ => rfl, fun _ => ⟨rfl, rfl⟩, fun _ member => member,
    fun _ member gone => absurd member gone⟩

variable {c c' c'' : ChainState} {new failed : BlockID}

theorem Shrunk.trans (first : hooks.Shrunk c c') (second : hooks.Shrunk c' c'') :
    hooks.Shrunk c c'' where
  same := first.same.trans second.same
  taken id := (second.taken id).trans (first.taken id)
  failedValid id := (second.failedValid id).trans (first.failedValid id)
  ways id := ⟨(second.ways id).1.trans (first.ways id).1,
    (second.ways id).2.trans (first.ways id).2⟩
  subset id member := first.subset id (second.subset id member)
  removed id member gone := by
    by_cases stays : id ∈ c'.candidates
    · obtain ⟨itself, whole, bad⟩ := second.removed id stays gone
      rw [first.same.standIn, (first.ways id).1, (first.ways id).2] at *
      exact ⟨itself, whole, bad⟩
    · exact first.removed id member stays

theorem taken_of_same (same : ChainState.SameChoice c c')
    (samePassed : ∀ id, (c'.index id).fPassedMinerPrecheck = (c.index id).fPassedMinerPrecheck)
    (id : BlockID) : hooks.Taken c' id ↔ hooks.Taken c id := by
  unfold Taken Exempt
  rw [samePassed, same.tree, same.branch]

theorem shrunk_passPrecheck {id : BlockID} (exempt : hooks.Exempt c id) :
    hooks.Shrunk c (c.passPrecheck id) := by
  have same := ChainState.SameChoice.passPrecheck c id
  have sameStatus : ∀ other, ((c.passPrecheck id).index other).nStatus =
      (c.index other).nStatus := by
    intro other
    unfold ChainState.passPrecheck
    rw [c.index_modifyIndex]
    split
    · rename_i isId
      rw [isId]
    · rfl
  refine ⟨same, ?_, fun other => by rw [sameStatus],
    ChainState.ways_of_same same fun other => by rw [sameStatus],
    fun _ member => member, fun _ member gone => absurd member gone⟩
  intro other
  by_cases isId : other = id
  · have exempt' : hooks.Exempt (c.passPrecheck id) id := by
      unfold Exempt
      rw [same.tree, same.branch]
      exact exempt
    rw [isId]
    exact iff_of_true (.inr exempt') (.inr exempt)
  · have samePassed : ((c.passPrecheck id).index other).fPassedMinerPrecheck =
        (c.index other).fPassedMinerPrecheck := by
      unfold ChainState.passPrecheck
      rw [c.index_modifyIndex, if_neg isId]
    unfold Taken Exempt
    rw [samePassed, same.tree, same.branch]

/-- Another round erases only candidates that stood for themselves. -/
theorem Shrunk.removeWay (shrunk : hooks.Shrunk c c') {source : BlockID}
    (isStandIn : c'.standIn source = some new) (whole : c'.wholeWay new = true)
    (found : (c'.branch new).find? c'.isBad = some failed) :
    hooks.Shrunk c (c'.removeWay new failed) := by
  have marks := fun id => @ChainState.fPassed_removeMembers
    c' ((c'.branch new).takeWhile (· ≠ failed)) id
  have bad := fun member inFront =>
    @ChainState.ways_of_mem_takeWhile c' new failed member whole found (.inl inFront)
  have ways := fun id => ChainState.ways_removeMembers bad id
  refine ⟨shrunk.same.trans (ChainState.removeWay_same new failed),
    fun id => (taken_of_same (ChainState.removeWay_same new failed) (fun id => (marks id).1)
      id).trans (shrunk.taken id),
    fun id => (marks id).2.trans (shrunk.failedValid id),
    fun id => ?_,
    fun id member => shrunk.subset id (ChainState.mem_removeWay.mp member).1, ?_⟩
  · have erased := @ChainState.ways_eraseCandidate
      (c'.removeMembers ((c'.branch new).takeWhile (· ≠ failed))) failed id
    exact ⟨(erased.1.trans (ways id).1).trans (shrunk.ways id).1,
      (erased.2.trans (ways id).2).trans (shrunk.ways id).2⟩
  intro id member gone
  by_cases stays : id ∈ c'.candidates
  · have inWay : id ∈ (c'.branch new).takeWhile (· ≠ failed) ∨ id = failed := by
      by_contra outside
      rw [not_or] at outside
      exact gone (ChainState.mem_removeWay.mpr ⟨stays, outside⟩)
    have onPath : id ∈ c'.tree.path new := by
      apply c'.tree.mem_path_of_mem_branch
      rcases inWay with inFront | isFailed
      · exact List.IsPrefix.subset ( List.takeWhile_prefix _) inFront
      · rw [isFailed]
        exact List.mem_of_find?_eq_some found
    obtain ⟨wholeId, badId⟩ := ChainState.ways_of_mem_takeWhile whole found inWay
    refine ⟨?_, (shrunk.ways id).1.symm.trans wholeId, (shrunk.ways id).2.symm.trans badId⟩
    rw [← shrunk.same.standIn]
    exact c'.standIn_of_mem_path isStandIn onPath
  · exact shrunk.removed id member stays

theorem StandInsSettled.shrunk (settled : hooks.StandInsSettled c) (shrunk : hooks.Shrunk c c') :
    hooks.StandInsSettled c' := by
  intro candidate member
  obtain ⟨standIn, found, isSettled⟩ := settled candidate (shrunk.subset candidate member)
  refine ⟨standIn, by rw [shrunk.same.standIn]; exact found, ?_⟩
  unfold Settled
  rw [shrunk.taken, shrunk.failedValid]
  exact isSettled

theorem length_removeWay (member : new ∈ c.candidates)
    (found : (c.branch new).find? c.isBad = some failed) :
    (c.removeWay new failed).candidates.length < c.candidates.length := by
  have sublist : (c.removeWay new failed).candidates.Sublist c.candidates :=
    ChainState.removeWay_sublist new failed
  refine Nat.lt_of_le_of_ne sublist.length_le ?_
  intro same
  have unchanged := sublist.eq_of_length same
  rw [← unchanged, ChainState.mem_removeWay] at member
  obtain ⟨-, notAbove, notFailed⟩ := member
  apply notAbove
  obtain ⟨rest, isBranch⟩ := c.tree.exists_branch_eq_cons
    (List.ne_nil_of_mem (List.mem_of_find?_eq_some found))
  unfold ChainState.branch
  rw [isBranch, List.takeWhile_cons, if_pos (by simpa using notFailed)]
  exact List.mem_cons_self ..

end Rounds

section Pass

variable {c c' c'' : ChainState}

/-- What the pass over some candidates leaves: their stand-ins that were taken have joined the
blocks to choose from. -/
structure Collected (hooks : NodeHooks World) (c c' : ChainState)
    (candidates start chosen : List BlockID) : Prop where
  shrunk : hooks.Shrunk c c'
  sameCandidates : c'.candidates = c.candidates
  sorted : c.InOrder start → c'.InOrder chosen
  members : ∀ standIn, standIn ∈ chosen ↔ standIn ∈ start ∨ ∃ candidate ∈ candidates,
    c.standIn candidate = some standIn ∧ hooks.Taken c standIn

theorem Collected.trans {candidates others start between chosen : List BlockID}
    (first : hooks.Collected c c' candidates start between)
    (second : hooks.Collected c' c'' others between chosen) :
    hooks.Collected c c'' (candidates ++ others) start chosen where
  shrunk := first.shrunk.trans second.shrunk
  sameCandidates := second.sameCandidates.trans first.sameCandidates
  sorted isSorted := second.sorted (first.sorted isSorted)
  members standIn := by
    rw [second.members, first.members, first.shrunk.taken]
    simp only [first.shrunk.same.standIn, List.mem_append, or_and_right, exists_or, or_assoc]

theorem collected_inserted {candidate standIn : BlockID} {start : List BlockID}
    (found : c.standIn candidate = some standIn) (taken : hooks.Taken c standIn)
    (shrunk : hooks.Shrunk c c') (sameCandidates : c'.candidates = c.candidates) :
    hooks.Collected c c' [candidate] start (c'.insertInOrder standIn start) := by
  refine ⟨shrunk, sameCandidates,
    fun sorted => ((shrunk.same.inOrder start).mpr sorted).insert standIn, ?_⟩
  intro other
  rw [ChainState.mem_insertInOrder, or_comm]
  apply or_congr_right
  constructor
  · rintro rfl
    exact ⟨candidate, List.mem_singleton_self _, found, taken⟩
  · rintro ⟨source, isIt, isStandIn, -⟩
    rw [List.mem_singleton.mp isIt, found, Option.some_inj] at isStandIn
    exact isStandIn.symm

/-- A candidate with a settled stand-in in the loop of `FindMostWorkChain`. -/
theorem collectCandidate_settled {start : List BlockID} {candidate standIn : BlockID}
    (found : node.chain.standIn candidate = some standIn)
    (settled : hooks.Settled node.chain standIn) :
    ∃ chosen after, hooks.collectCandidate start candidate node = .ok chosen after ∧
      hooks.Collected node.chain after.chain [candidate] start chosen := by
  have asked : (askChain fun c => c.standIn candidate : ChainM World _) node =
      .ok (some standIn) node := by
    change EStateM.Result.ok (node.chain.standIn candidate) node = _
    rw [found]
  cases passed : (node.chain.index standIn).fPassedMinerPrecheck with
  | true =>
      refine ⟨node.chain.insertInOrder standIn start, node, ?_,
        collected_inserted found (.inl passed) (.refl _) rfl⟩
      refine bind_eq_ok.mpr ⟨_, node, asked, bind_eq_ok.mpr ⟨_, node, rfl, ?_⟩⟩
      refine bind_eq_ok.mpr ⟨false, node, ?_, bind_eq_ok.mpr ⟨(), node, rfl, ?_⟩⟩
      · rw [if_pos passed]
        rfl
      change EStateM.Result.ok (if (node.chain.index standIn).fPassedMinerPrecheck then
        node.chain.insertInOrder standIn start else start) node = _
      rw [if_pos passed]
  | false =>
      have notPassed : ¬ (node.chain.index standIn).fPassedMinerPrecheck = true := by
        rw [passed]
        exact Bool.false_ne_true
      by_cases exempt : hooks.Exempt node.chain standIn
      · let taking : NodeChain World := { node with chain := node.chain.passPrecheck standIn }
        have nowPassed : (taking.chain.index standIn).fPassedMinerPrecheck = true := by
          change ((node.chain.passPrecheck standIn).index standIn).fPassedMinerPrecheck = true
          unfold ChainState.passPrecheck
          rw [node.chain.index_modifyIndex, if_pos rfl]
        refine ⟨taking.chain.insertInOrder standIn start, taking, ?_,
          collected_inserted found (.inr exempt) (shrunk_passPrecheck exempt) rfl⟩
        refine bind_eq_ok.mpr ⟨_, node, asked, bind_eq_ok.mpr ⟨_, node, rfl, ?_⟩⟩
        refine bind_eq_ok.mpr ⟨false, taking, ?_, bind_eq_ok.mpr ⟨(), taking, rfl, ?_⟩⟩
        · rw [if_neg notPassed]
          exact bind_eq_ok.mpr ⟨true, _, verifyBlockMiner_passes false exempt, rfl⟩
        change EStateM.Result.ok (if (taking.chain.index standIn).fPassedMinerPrecheck then
          taking.chain.insertInOrder standIn start else start) taking = _
        rw [if_pos nowPassed]
      · have notTaken : ¬ hooks.Taken node.chain standIn := not_or.mpr ⟨notPassed, exempt⟩
        have failed := settled.resolve_left notTaken
        obtain ⟨verified, isVerified⟩ := verifyBlockMiner_failed exempt failed
        refine ⟨start, node, ?_, .refl _, rfl, id, ?_⟩
        · refine bind_eq_ok.mpr ⟨_, node, asked, bind_eq_ok.mpr ⟨_, node, rfl, ?_⟩⟩
          refine bind_eq_ok.mpr ⟨!verified, node, ?_, bind_eq_ok.mpr ⟨(), node, ?_, ?_⟩⟩
          · rw [if_neg notPassed]
            exact bind_eq_ok.mpr ⟨verified, node, isVerified, rfl⟩
          · cases verified with
            | true => rfl
            | false =>
                change EStateM.Result.ok () { node with chain := node.chain.markFailed standIn } = _
                rw [markFailed_of_failed failed]
          · change EStateM.Result.ok (if (node.chain.index standIn).fPassedMinerPrecheck then
              node.chain.insertInOrder standIn start else start) node = _
            rw [if_neg notPassed]
        · intro other
          refine (or_iff_left ?_).symm
          rintro ⟨source, isIt, isStandIn, taken⟩
          rw [List.mem_singleton.mp isIt, found, Option.some_inj] at isStandIn
          exact notTaken (isStandIn ▸ taken)

theorem foldlM_collectCandidate_settled {candidates start : List BlockID}
    (settled : ∀ candidate ∈ candidates, ∃ standIn,
      node.chain.standIn candidate = some standIn ∧ hooks.Settled node.chain standIn) :
    ∃ chosen after, candidates.foldlM hooks.collectCandidate start node = .ok chosen after ∧
      hooks.Collected node.chain after.chain candidates start chosen := by
  induction candidates generalizing node start with
  | nil => exact ⟨start, node, rfl, .refl _, rfl, id, fun _ => by simp⟩
  | cons candidate rest ih =>
      obtain ⟨standIn, found, isSettled⟩ := settled candidate (List.mem_cons_self ..)
      obtain ⟨next, between, collects, first⟩ :=
        @collectCandidate_settled _ _ _ start _ _ found isSettled
      have settledRest : ∀ other ∈ rest, ∃ standIn,
          between.chain.standIn other = some standIn ∧ hooks.Settled between.chain standIn := by
        intro other member
        obtain ⟨standIn, found, isSettled⟩ := settled other (List.mem_cons_of_mem candidate member)
        refine ⟨standIn, by rw [first.shrunk.same.standIn]; exact found, ?_⟩
        unfold Settled
        rw [first.shrunk.taken, first.shrunk.failedValid]
        exact isSettled
      obtain ⟨chosen, after, done, second⟩ := @ih between next settledRest
      rw [List.foldlM_cons]
      exact ⟨chosen, after, bind_eq_ok.mpr ⟨next, between, collects, done⟩, first.trans second⟩

/-- The pass of a round chooses among the stand-ins that were taken in front of all rounds. -/
theorem collectCandidates_settled {base : ChainState} (settled : hooks.StandInsSettled base)
    (shrunk : hooks.Shrunk base node.chain) :
    ∃ chosen collected, hooks.collectCandidates node = .ok chosen collected ∧
      hooks.Shrunk base collected.chain ∧
      collected.chain.candidates = node.chain.candidates ∧ collected.chain.InOrder chosen ∧
      ∀ standIn, standIn ∈ chosen ↔ ∃ candidate ∈ collected.chain.candidates,
        base.standIn candidate = some standIn ∧ hooks.Taken base standIn := by
  obtain ⟨chosen, collected, done, pass⟩ :=
    @foldlM_collectCandidate_settled _ _ node _ [] (settled.shrunk shrunk)
  refine ⟨chosen, collected, done, shrunk.trans pass.shrunk, pass.sameCandidates,
    pass.sorted List.Pairwise.nil, ?_⟩
  intro standIn
  rw [pass.members, pass.sameCandidates, shrunk.taken]
  simp only [List.not_mem_nil, false_or, shrunk.same.standIn]

end Pass

section Choice

/-- The candidates are in the order of their keys, as a set needs it that is to erase one of
them, and the verification of their stand-ins is settled. -/
structure ReadyToChoose (hooks : NodeHooks World) (c : ChainState) : Prop where
  sorted : c.CandidatesSorted
  settled : hooks.StandInsSettled c

/-- A stand-in that is taken is beaten by one with a good way, or its way is whole, and it is
bad only if the block is the candidate itself. -/
def StandInsFit (hooks : NodeHooks World) (c : ChainState) : Prop :=
  ∀ candidate ∈ c.candidates, ∀ standIn, c.standIn candidate = some standIn →
    hooks.Taken c standIn →
      (∃ other ∈ c.candidates, ∃ better, c.standIn other = some better ∧
        hooks.Taken c better ∧ c.badWay better = false ∧ c.worksLess standIn better = true) ∨
      c.wholeWay standIn = true ∧ (c.badWay standIn = true → standIn = candidate)

/-- `FindMostWorkChain` returns, and if it returns a block, there is no failed or banned
block on its way to the active chain, and no stand-in with such a way beats it. -/
def FindsMostWork (hooks : NodeHooks World) (node : NodeChain World) : Prop :=
  ∃ rounds answer after, hooks.findMostWorkChain rounds node = .ok answer after ∧
    ∀ best, answer = some best → after.chain.badWay best = false ∧
      ∀ candidate ∈ node.chain.candidates, ∀ standIn,
        after.chain.standIn candidate = some standIn → after.chain.badWay standIn = false →
          after.chain.worksLess best standIn = false

/-- A stand-in that is not bad was taken. -/
theorem Settled.taken {c : ChainState} {id : BlockID} (settled : hooks.Settled c id)
    (good : c.badWay id = false) : hooks.Taken c id := by
  by_contra notTaken
  have failed := settled.resolve_left notTaken
  obtain ⟨rest, isBranch⟩ := c.tree.exists_branch_eq_cons
    fun empty => notTaken (.inr (.inr (.inr empty)))
  unfold ChainState.badWay ChainState.branch at good
  rw [isBranch, List.any_cons] at good
  simp [ChainState.isBad, BlockStatus.failed, failed] at good

theorem findMostWorkChain_next {rounds : Nat} {after : NodeChain World}
    (next : hooks.findMostWorkRound node = .ok none after) :
    hooks.findMostWorkChain (rounds + 1) node = hooks.findMostWorkChain rounds after := by
  rw [findMostWorkChain, bind_apply, next]

theorem findMostWorkChain_answer {rounds : Nat} {answer : Option BlockID} {after : NodeChain World}
    (next : hooks.findMostWorkRound node = .ok (some answer) after) :
    hooks.findMostWorkChain (rounds + 1) node = .ok answer after := by
  rw [findMostWorkChain, bind_apply, next]
  rfl

variable {base : ChainState}

/-- A candidate whose stand-in is not bad is never erased. -/
theorem Shrunk.stays {c c' : ChainState} (shrunk : hooks.Shrunk c c') {candidate standIn : BlockID}
    (member : candidate ∈ c.candidates) (found : c.standIn candidate = some standIn)
    (good : c.badWay standIn = false) : candidate ∈ c'.candidates := by
  by_contra gone
  obtain ⟨itself, -, bad⟩ := shrunk.removed candidate member gone
  rw [itself, Option.some_inj] at found
  rw [← found, bad] at good
  cases good

theorem badWay_of_find?_eq_none {c : ChainState} {id : BlockID}
    (found : (c.branch id).find? c.isBad = none) : c.badWay id = false := by
  unfold ChainState.badWay
  rw [← Bool.not_eq_true, List.any_eq_true]
  rintro ⟨member, onWay, bad⟩
  exact List.find?_eq_none.mp found member onWay bad

theorem exists_choice (settled : hooks.StandInsSettled base) (fit : hooks.StandInsFit base)
    (size : Nat) (shrunk : hooks.Shrunk base node.chain)
    (small : node.chain.candidates.length < size) :
    ∃ rounds answer after, hooks.findMostWorkChain rounds node = .ok answer after ∧
      ∀ best, answer = some best → after.chain.badWay best = false ∧
        ∀ candidate ∈ base.candidates, ∀ standIn,
          after.chain.standIn candidate = some standIn → after.chain.badWay standIn = false →
            after.chain.worksLess best standIn = false := by
  induction size generalizing node with
  | zero => exact absurd small (Nat.not_lt_zero _)
  | succ size ih =>
      obtain ⟨chosen, collected, done, shrunk, sameCandidates, sorted, members⟩ :=
        collectCandidates_settled settled shrunk
      have round := findMostWorkRound_eq done
      cases isLast : chosen.getLast? with
      | none =>
          rw [isLast] at round
          exact ⟨1, none, collected, findMostWorkChain_answer round, fun _ isSome => nomatch isSome⟩
      | some new =>
          rw [isLast] at round
          dsimp only at round
          obtain ⟨source, isCandidate, isStandIn, taken⟩ :=
            (members new).mp (List.mem_of_getLast? isLast)
          have greatest : ∀ standIn ∈ chosen, collected.chain.worksLess new standIn = false :=
            fun _ member => sorted.not_worksLess_last isLast member
          have fits : collected.chain.wholeWay new = true ∧
              (collected.chain.badWay new = true → new = source) := by
            rw [(shrunk.ways new).1, (shrunk.ways new).2]
            refine (fit source (shrunk.subset source isCandidate) new isStandIn
              taken).resolve_left ?_
            rintro ⟨other, inBase, better, isBetter, betterTaken, good, less⟩
            have stays := shrunk.stays inBase isBetter good
            have inChosen := (members better).mpr ⟨other, stays, isBetter, betterTaken⟩
            rw [← shrunk.same.worksLess, greatest better inChosen] at less
            cases less
          rw [if_pos fits.1] at round
          cases found : (collected.chain.branch new).find? collected.chain.isBad with
          | none =>
              rw [found] at round
              refine ⟨1, some new, collected, findMostWorkChain_answer round, ?_⟩
              intro best isBest
              cases isBest
              refine ⟨badWay_of_find?_eq_none found, ?_⟩
              intro candidate inBase standIn isIt good
              rw [shrunk.same.standIn] at isIt
              rw [(shrunk.ways standIn).2] at good
              obtain ⟨other, isOther, isSettled⟩ := settled candidate inBase
              rw [isIt, Option.some_inj] at isOther
              apply greatest
              exact (members standIn).mpr ⟨candidate, shrunk.stays inBase isIt good, isIt,
                (isOther ▸ isSettled).taken good⟩
          | some failed =>
              rw [found] at round
              have isBadWay : collected.chain.badWay new = true := by
                unfold ChainState.badWay
                exact List.any_eq_true.mpr
                  ⟨failed, List.mem_of_find?_eq_some found, List.find?_some found⟩
              have isSource := fits.2 isBadWay
              rw [← shrunk.same.standIn] at isStandIn
              have step := shrunk.removeWay isStandIn fits.1 found
              have shorter := length_removeWay (isSource ▸ isCandidate) found
              rw [sameCandidates] at shorter
              obtain ⟨rounds, answer, after, finds, isBest⟩ :=
                @ih { collected with chain := collected.chain.removeWay new failed } step
                  (Nat.lt_of_lt_of_le shorter (Nat.le_of_lt_succ small))
              exact ⟨rounds + 1, answer, after, (findMostWorkChain_next round).trans finds, isBest⟩

/-- A stand-in that does not fit is never passed by the rounds. -/
theorem not_answers (settled : hooks.StandInsSettled base) {candidate standIn : BlockID}
    (found : base.standIn candidate = some standIn) (taken : hooks.Taken base standIn)
    (unbeaten : ∀ other ∈ base.candidates, ∀ better, base.standIn other = some better →
      hooks.Taken base better → base.badWay better = false →
        base.worksLess standIn better = false)
    (misfit : ¬ (base.wholeWay standIn = true ∧
      (base.badWay standIn = true → standIn = candidate)))
    {rounds : Nat} (shrunk : hooks.Shrunk base node.chain)
    (stays : candidate ∈ node.chain.candidates) {answer : Option BlockID}
    {after : NodeChain World} : hooks.findMostWorkChain rounds node ≠ .ok answer after := by
  induction rounds generalizing node with
  | zero => exact fun done => nomatch done
  | succ rounds ih =>
      obtain ⟨chosen, collected, done, shrunk, sameCandidates, sorted, members⟩ :=
        collectCandidates_settled settled shrunk
      rw [← sameCandidates] at stays
      have round := findMostWorkRound_eq done
      have inChosen : standIn ∈ chosen := (members standIn).mpr ⟨candidate, stays, found, taken⟩
      cases isLast : chosen.getLast? with
      | none =>
          rw [List.getLast?_eq_none_iff.mp isLast] at inChosen
          cases inChosen
      | some new =>
          rw [isLast] at round
          dsimp only at round
          cases whole : collected.chain.wholeWay new with
          | false =>
              rw [whole, if_neg Bool.false_ne_true] at round
              rw [findMostWorkChain, bind_apply, round]
              exact fun done => nomatch done
          | true =>
              rw [if_pos whole] at round
              obtain ⟨source, isCandidate, isStandIn, newTaken⟩ :=
                (members new).mp (List.mem_of_getLast? isLast)
              cases bad : (collected.chain.branch new).find? collected.chain.isBad with
              | some failed =>
                  rw [bad] at round
                  rw [findMostWorkChain_next round]
                  have step := shrunk.removeWay (by rw [shrunk.same.standIn]; exact isStandIn)
                    whole bad
                  apply @ih { collected with chain := collected.chain.removeWay new failed } step
                  by_contra gone
                  obtain ⟨itself, isWhole, -⟩ :=
                    step.removed candidate (shrunk.subset candidate stays) gone
                  rw [itself, Option.some_inj] at found
                  rw [found] at isWhole
                  exact misfit ⟨isWhole, fun _ => found.symm⟩
              | none =>
                  have good := badWay_of_find?_eq_none bad
                  have isNew : standIn = new := by
                    apply base.eq_of_not_worksLess
                    · rw [(shrunk.ways new).2] at good
                      exact unbeaten source (shrunk.subset source isCandidate) new isStandIn
                        newTaken good
                    · rw [← shrunk.same.worksLess]
                      exact sorted.not_worksLess_last isLast inChosen
                  rw [(shrunk.ways new).2, ← isNew] at good
                  rw [(shrunk.ways new).1, ← isNew] at whole
                  refine absurd ⟨whole, fun isBad => ?_⟩ misfit
                  rw [good] at isBad
                  cases isBad

end Choice

section Sample

/-- Block 3 is the tip and the locked block; the branch over block 6 has more work. -/
def lockedChain : NodeChain Unit := ⟨{ forkedChain 3 [3, 6] with lockedBlock := some 3 }, ()⟩

end Sample

end NodeHooks

end HdacNode
