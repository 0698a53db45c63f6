import HdacNode.BlockArrival
import HdacNode.LastBlock

/-!
# The choice of the chain with most work

`FindMostWorkChain` maps every candidate to a block that stands in for it and takes the
greatest of them.  When a failed or banned block is in its way, the way is erased from the
candidates and the choice is made anew.  A block that only stands in for a candidate above
it is not erased in this way, since the candidate stays.
-/

namespace HdacNode

open FailingActions ChainM

namespace ChainState

/-- Two states agree on what a choice depends on, up to marks and candidates. -/
structure SameChoice (c c' : ChainState) : Prop where
  tree : c'.tree = c.tree
  tip : c'.tip = c.tip
  lockedBlock : c'.lockedBlock = c.lockedBlock
  bannedBlocks : c'.bannedBlocks = c.bannedBlocks
  nCanMine : ∀ id, (c'.index id).nCanMine = (c.index id).nCanMine
  nHeightMinedByMe : ∀ id, (c'.index id).nHeightMinedByMe = (c.index id).nHeightMinedByMe
  nSequenceId : ∀ id, (c'.index id).nSequenceId = (c.index id).nSequenceId
  haveData : ∀ id, (c'.index id).nStatus.haveData = (c.index id).nStatus.haveData
  nChainTx : ∀ id, (c'.index id).nChainTx = (c.index id).nChainTx

namespace SameChoice

variable {c c' c'' : ChainState}

theorem refl (c : ChainState) : SameChoice c c :=
  ⟨rfl, rfl, rfl, rfl, fun _ => rfl, fun _ => rfl, fun _ => rfl, fun _ => rfl, fun _ => rfl⟩

theorem trans (first : SameChoice c c') (second : SameChoice c' c'') : SameChoice c c'' where
  tree := second.tree.trans first.tree
  tip := second.tip.trans first.tip
  lockedBlock := second.lockedBlock.trans first.lockedBlock
  bannedBlocks := second.bannedBlocks.trans first.bannedBlocks
  nCanMine id := (second.nCanMine id).trans (first.nCanMine id)
  nHeightMinedByMe id := (second.nHeightMinedByMe id).trans (first.nHeightMinedByMe id)
  nSequenceId id := (second.nSequenceId id).trans (first.nSequenceId id)
  haveData id := (second.haveData id).trans (first.haveData id)
  nChainTx id := (second.nChainTx id).trans (first.nChainTx id)

/-- A change of an entry that keeps what a choice depends on. -/
theorem of_modifyIndex (c : ChainState) (id : BlockID) {change : IndexEntry → IndexEntry}
    (nCanMine : (change (c.index id)).nCanMine = (c.index id).nCanMine)
    (nHeightMinedByMe : (change (c.index id)).nHeightMinedByMe = (c.index id).nHeightMinedByMe)
    (nSequenceId : (change (c.index id)).nSequenceId = (c.index id).nSequenceId)
    (haveData : (change (c.index id)).nStatus.haveData = (c.index id).nStatus.haveData)
    (nChainTx : (change (c.index id)).nChainTx = (c.index id).nChainTx) :
    SameChoice c (c.modifyIndex id change) := by
  have pointwise : ∀ {Value : Type} (read : IndexEntry → Value),
      read (change (c.index id)) = read (c.index id) → ∀ other,
        read ((c.modifyIndex id change).index other) = read (c.index other) := by
    intro Value read same other
    rw [c.index_modifyIndex]
    split
    · rename_i isId
      rw [isId, same]
    · rfl
  exact ⟨rfl, rfl, rfl, rfl, pointwise _ nCanMine, pointwise _ nHeightMinedByMe,
    pointwise _ nSequenceId, pointwise (fun entry => entry.nStatus.haveData) haveData,
    pointwise _ nChainTx⟩

theorem passPrecheck (c : ChainState) (id : BlockID) : SameChoice c (c.passPrecheck id) := by
  unfold ChainState.passPrecheck
  exact of_modifyIndex c id rfl rfl rfl rfl rfl

theorem markFailed (c : ChainState) (id : BlockID) : SameChoice c (c.markFailed id) := by
  unfold ChainState.markFailed modifyStatus
  exact of_modifyIndex c id rfl rfl rfl rfl rfl

theorem markFailedChild (c : ChainState) (id : BlockID) :
    SameChoice c (c.markFailedChild id) := by
  unfold ChainState.markFailedChild modifyStatus
  exact of_modifyIndex c id rfl rfl rfl rfl rfl

theorem eraseCandidate (c : ChainState) (id : BlockID) : SameChoice c (c.eraseCandidate id) :=
  ⟨rfl, rfl, rfl, rfl, fun _ => rfl, fun _ => rfl, fun _ => rfl, fun _ => rfl, fun _ => rfl⟩

theorem activeChain (same : SameChoice c c') : c'.activeChain = c.activeChain := by
  unfold ChainState.activeChain
  rw [same.tip, same.tree]

theorem branch (same : SameChoice c c') (id : BlockID) : c'.branch id = c.branch id := by
  unfold ChainState.branch
  rw [same.activeChain, same.tree]

theorem standIn (same : SameChoice c c') (id : BlockID) : c'.standIn id = c.standIn id := by
  unfold ChainState.standIn lastCommonAncestor
  rw [same.lockedBlock, same.tree]

theorem worksLess (same : SameChoice c c') (pa pb : BlockID) :
    c'.worksLess pa pb = c.worksLess pa pb := by
  unfold ChainState.worksLess
  simp only [same.tree, same.nCanMine, same.nHeightMinedByMe, same.nSequenceId]

theorem inOrder (same : SameChoice c c') (blocks : List BlockID) :
    c'.InOrder blocks ↔ c.InOrder blocks := by
  unfold InOrder
  simp only [same.worksLess]

end SameChoice

variable (c : ChainState)

/-- What `FindMostWorkChain` asserts of a block. -/
def hasData (id : BlockID) : Bool :=
  (c.index id).nStatus.haveData &&
    (decide ((c.index id).nChainTx ≠ 0) || decide (c.tree.height id = 0))

/-- The asserts hold on a way up to its first block that is failed or banned. -/
def assertsHold : List BlockID → Bool
  | [] => true
  | member :: rest => c.hasData member && (c.isBad member || assertsHold rest)

/-- The asserts hold on the way from a block to the active chain. -/
def wholeWay (id : BlockID) : Bool := c.assertsHold (c.branch id)

/-- A block on the way to the active chain is failed or banned. -/
def badWay (id : BlockID) : Bool := (c.branch id).any c.isBad

/-- The blocks of a list are marked and erased. -/
def removeMembers (members : List BlockID) : ChainState :=
  members.foldl (fun c member => (c.markFailedChild member).eraseCandidate member) c

/-- A block in the way of a chosen block and the blocks above it are erased. -/
def removeWay (new failed : BlockID) : ChainState :=
  (c.removeMembers ((c.branch new).takeWhile (· ≠ failed))).eraseCandidate failed

section Removal

theorem isBad_markFailedChild (id other : BlockID) :
    (c.markFailedChild id).isBad other = (c.isBad other || decide (other = id)) := by
  unfold isBad markFailedChild modifyStatus
  rw [c.index_modifyIndex]
  split
  · rename_i isId
    rw [isId]
    simp [BlockStatus.failed]
  · rename_i notId
    simp only [notId, decide_false, Bool.or_false]
    rfl

variable {c}

theorem removeMembers_same (members : List BlockID) : SameChoice c (c.removeMembers members) := by
  induction members generalizing c with
  | nil => exact .refl c
  | cons member rest ih =>
      exact ((SameChoice.markFailedChild c member).trans (.eraseCandidate _ member)).trans ih

theorem removeWay_same (new failed : BlockID) : SameChoice c (c.removeWay new failed) :=
  (removeMembers_same _).trans (.eraseCandidate _ failed)

theorem isBad_removeMembers (members : List BlockID) (other : BlockID) :
    (c.removeMembers members).isBad other = (c.isBad other || decide (other ∈ members)) := by
  induction members generalizing c with
  | nil => simp [removeMembers]
  | cons member rest ih =>
      have first : ((c.markFailedChild member).eraseCandidate member).isBad other =
          (c.isBad other || decide (other = member)) := c.isBad_markFailedChild member other
      change (((c.markFailedChild member).eraseCandidate member).removeMembers rest).isBad other = _
      rw [ih, first, Bool.or_assoc]
      simp

theorem mem_removeMembers {members : List BlockID} {other : BlockID} :
    other ∈ (c.removeMembers members).candidates ↔ other ∈ c.candidates ∧ other ∉ members := by
  induction members generalizing c with
  | nil => simp [removeMembers]
  | cons member rest ih =>
      change other ∈ (((c.markFailedChild member).eraseCandidate member).removeMembers
        rest).candidates ↔ _
      rw [ih, mem_eraseCandidate, List.mem_cons, not_or, and_assoc]
      rfl

theorem fPassed_removeMembers (members : List BlockID) (other : BlockID) :
    ((c.removeMembers members).index other).fPassedMinerPrecheck =
        (c.index other).fPassedMinerPrecheck ∧
      ((c.removeMembers members).index other).nStatus.failedValid =
        (c.index other).nStatus.failedValid := by
  induction members generalizing c with
  | nil => exact ⟨rfl, rfl⟩
  | cons member rest ih =>
      obtain ⟨passed, failed⟩ := @ih ((c.markFailedChild member).eraseCandidate member)
      have first : ((c.markFailedChild member).index other).fPassedMinerPrecheck =
            (c.index other).fPassedMinerPrecheck ∧
          ((c.markFailedChild member).index other).nStatus.failedValid =
            (c.index other).nStatus.failedValid := by
        unfold markFailedChild modifyStatus
        rw [c.index_modifyIndex]
        split
        · rename_i isMember
          rw [isMember]
          exact ⟨rfl, rfl⟩
        · exact ⟨rfl, rfl⟩
      exact ⟨passed.trans first.1, failed.trans first.2⟩

theorem mem_removeWay {new failed other : BlockID} :
    other ∈ (c.removeWay new failed).candidates ↔ other ∈ c.candidates ∧
      other ∉ (c.branch new).takeWhile (· ≠ failed) ∧ other ≠ failed := by
  unfold removeWay
  rw [mem_eraseCandidate, mem_removeMembers, and_assoc]

theorem removeWay_sublist (new failed : BlockID) :
    (c.removeWay new failed).candidates.Sublist c.candidates := by
  have members : ∀ (members : List BlockID) (c : ChainState),
      (c.removeMembers members).candidates.Sublist c.candidates := by
    intro members
    induction members with
    | nil => exact fun c => .refl _
    | cons member rest ih => exact fun c => (ih _).trans List.filter_sublist
  exact List.filter_sublist.trans (members _ c)

end Removal

section Ways

variable {c}

theorem wholeWay_of_mem {id : BlockID} (member : id ∈ c.activeChain) : c.wholeWay id = true := by
  unfold wholeWay branch
  rw [c.tree.branch_of_mem member]
  rfl

theorem badWay_of_mem {id : BlockID} (member : id ∈ c.activeChain) : c.badWay id = false := by
  unfold badWay branch
  rw [c.tree.branch_of_mem member]
  rfl

/-- The way of a block off the active chain goes on with that of the parent. -/
theorem wholeWay_eq {id : BlockID} (off : id ∉ c.activeChain) :
    c.wholeWay id = (c.hasData id && (c.isBad id || (c.tree.parent id).all c.wholeWay)) := by
  unfold wholeWay branch
  cases found : c.tree.parent id with
  | none =>
      rw [c.tree.branch_of_root off found]
      rfl
  | some above =>
      rw [c.tree.branch_of_parent off found]
      rfl

theorem badWay_eq {id : BlockID} (off : id ∉ c.activeChain) :
    c.badWay id = (c.isBad id || (c.tree.parent id).any c.badWay) := by
  unfold badWay branch
  cases found : c.tree.parent id with
  | none =>
      rw [c.tree.branch_of_root off found]
      rfl
  | some above =>
      rw [c.tree.branch_of_parent off found]
      rfl

theorem ways_removeMembers {members : List BlockID}
    (bad : ∀ member ∈ members, c.wholeWay member = true ∧ c.badWay member = true) (id : BlockID) :
    (c.removeMembers members).wholeWay id = c.wholeWay id ∧
      (c.removeMembers members).badWay id = c.badWay id := by
  have same := @removeMembers_same c members
  induction id using c.tree.path_induction with
  | step id ih =>
      by_cases active : id ∈ c.activeChain
      · have active' : id ∈ (c.removeMembers members).activeChain := by
          rw [same.activeChain]
          exact active
        rw [wholeWay_of_mem active, wholeWay_of_mem active', badWay_of_mem active,
          badWay_of_mem active']
        exact ⟨rfl, rfl⟩
      · have off : id ∉ (c.removeMembers members).activeChain := by
          rw [same.activeChain]
          exact active
        have sameData : (c.removeMembers members).hasData id = c.hasData id := by
          unfold hasData
          rw [same.haveData, same.nChainTx, same.tree]
        by_cases marked : id ∈ members
        · obtain ⟨whole, isBad⟩ := bad id marked
          have complete : c.hasData id = true := by
            rw [wholeWay_eq active] at whole
            exact (Bool.and_eq_true_iff.mp whole).1
          rw [whole, isBad, wholeWay_eq off, badWay_eq off, isBad_removeMembers, sameData, complete]
          simp [marked]
        · rw [wholeWay_eq off, badWay_eq off, wholeWay_eq active, badWay_eq active, sameData,
            isBad_removeMembers, same.tree]
          simp only [marked, decide_false, Bool.or_false]
          cases found : c.tree.parent id with
          | none => exact ⟨rfl, rfl⟩
          | some above =>
              obtain ⟨whole, isBad⟩ := ih above found
              simp only [Option.all_some, Option.any_some, whole, isBad]
              exact ⟨trivial, trivial⟩

/-- Ways depend on data and failures alone. -/
theorem ways_of_same {c' : ChainState} (same : SameChoice c c')
    (sameFailed : ∀ id, (c'.index id).nStatus.failed = (c.index id).nStatus.failed)
    (id : BlockID) : c'.wholeWay id = c.wholeWay id ∧ c'.badWay id = c.badWay id := by
  have sameData : ∀ member, c'.hasData member = c.hasData member := by
    intro member
    unfold hasData
    rw [same.haveData, same.nChainTx, same.tree]
  have sameBad : c'.isBad = c.isBad := by
    funext member
    unfold isBad
    rw [sameFailed, same.bannedBlocks]
  have asserts : ∀ members, c'.assertsHold members = c.assertsHold members := by
    intro members
    induction members with
    | nil => rfl
    | cons member rest ih =>
        unfold assertsHold
        rw [ih, sameData, sameBad]
  unfold wholeWay badWay
  rw [same.branch, asserts, sameBad]
  exact ⟨rfl, rfl⟩

theorem ways_eraseCandidate (id other : BlockID) :
    (c.eraseCandidate id).wholeWay other = c.wholeWay other ∧
      (c.eraseCandidate id).badWay other = c.badWay other :=
  ways_of_same (.eraseCandidate c id) (fun _ => rfl) other

theorem ways_of_mem_takeWhile {new failed member : BlockID} (whole : c.wholeWay new = true)
    (found : (c.branch new).find? c.isBad = some failed)
    (isMember : member ∈ (c.branch new).takeWhile (· ≠ failed) ∨ member = failed) :
    c.wholeWay member = true ∧ c.badWay member = true := by
  have isBadWay : c.badWay new = true := by
    unfold badWay
    rw [List.any_eq_true]
    exact ⟨failed, List.mem_of_find?_eq_some found, List.find?_some found⟩
  induction new using c.tree.path_induction with
  | step new ih =>
      by_cases active : new ∈ c.activeChain
      · rw [badWay_of_mem active] at isBadWay
        cases isBadWay
      · rw [wholeWay_eq active] at whole
        by_cases bad : c.isBad new = true
        · have isFailed : new = failed := by
            unfold branch at found
            cases parent : c.tree.parent new with
            | none =>
                rw [c.tree.branch_of_root active parent, List.find?_cons_of_pos bad] at found
                exact Option.some.inj found
            | some above =>
                rw [c.tree.branch_of_parent active parent, List.find?_cons_of_pos bad] at found
                exact Option.some.inj found
          have isNew : member = new := by
            rcases isMember with above | isIt
            · unfold branch at above
              cases parent : c.tree.parent new with
              | none =>
                  rw [c.tree.branch_of_root active parent, List.takeWhile_cons,
                    if_neg (by simp [isFailed])] at above
                  cases above
              | some prev =>
                  rw [c.tree.branch_of_parent active parent, List.takeWhile_cons,
                    if_neg (by simp [isFailed])] at above
                  cases above
            · rw [isIt, isFailed]
          rw [isNew, wholeWay_eq active]
          exact ⟨whole, isBadWay⟩
        · by_cases isNew : member = new
          · rw [isNew, wholeWay_eq active]
            exact ⟨whole, isBadWay⟩
          · cases parent : c.tree.parent new with
            | none =>
                unfold branch at found
                rw [c.tree.branch_of_root active parent, List.find?_cons_of_neg bad] at found
                cases found
            | some above =>
                have isBranch : c.branch new = new :: c.branch above :=
                  c.tree.branch_of_parent active parent
                rw [isBranch, List.find?_cons_of_neg bad] at found
                have wholeAbove : c.wholeWay above = true := by
                  rw [parent] at whole
                  simpa [bad] using (Bool.and_eq_true_iff.mp whole).2
                have badAbove : c.badWay above = true := by
                  rw [badWay_eq active, parent] at isBadWay
                  simpa [bad] using isBadWay
                apply ih above parent wholeAbove found _ badAbove
                rcases isMember with inFront | isIt
                · rw [isBranch] at inFront
                  rw [List.takeWhile_cons] at inFront
                  split at inFront
                  · exact .inl ((List.mem_cons.mp inFront).resolve_left isNew)
                  · cases inFront
                · exact .inr isIt

end Ways

theorem standIn_of_mem_path {candidate other new : BlockID}
    (isStandIn : c.standIn other = some new) (member : candidate ∈ c.tree.path new) :
    c.standIn candidate = some candidate := by
  unfold standIn at isStandIn ⊢
  cases isLocked : c.lockedBlock with
  | none => rfl
  | some locked =>
      rw [isLocked] at isStandIn
      have onLockedPath : candidate ∈ c.tree.path locked ∨ locked ∈ c.tree.path candidate := by
        obtain ⟨ancestor, isAncestor, isNew⟩ := Option.map_eq_some_iff.mp isStandIn
        by_cases isIt : ancestor = locked
        · rw [if_neg (not_not.mpr isIt)] at isNew
          have above := c.tree.fork_mem_path isAncestor
          rw [isIt, isNew] at above
          exact c.tree.mem_path_or member above
        · rw [if_pos isIt] at isNew
          have onPath := c.tree.fork_mem_active isAncestor
          rw [isNew] at onPath
          exact .inl (c.tree.mem_path_trans onPath member)
      dsimp only
      rcases onLockedPath with onPath | above
      · have isAncestor : c.lastCommonAncestor candidate locked = some candidate :=
          c.tree.fork_of_mem onPath
        rw [isAncestor, Option.map_some, ite_self]
      · have isAncestor : c.lastCommonAncestor candidate locked = some locked :=
          c.tree.fork_path_of_mem above
        rw [isAncestor, Option.map_some, if_neg (not_not.mpr rfl)]

end ChainState

end HdacNode
