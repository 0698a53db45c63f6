import HdacNode.ForestPaths
import Mathlib.Algebra.Order.Group.Int
import Mathlib.Data.List.Sort
import Mathlib.Data.Prod.Lex

/-!
# The tree of known blocks

`mapBlockIndex` with its `CBlockIndex` entries, the active chain, and the set of candidates
for the best tip, which `CBlockIndexWorkComparator` keeps in order.
-/

namespace HdacNode

/-- The address of a `CBlockIndex`; it also stands for the hash of the block. -/
abbrev BlockID := Nat

def blockValidTree : Nat := 2
def blockValidTransactions : Nat := 3
def blockValidScripts : Nat := 5

/-- `nStatus`: the bits of `BLOCK_VALID_MASK` as a number, and the flags. -/
structure BlockStatus where
  validity : Nat
  haveData : Bool
  failedValid : Bool
  failedChild : Bool
  deriving DecidableEq, Repr

namespace BlockStatus

/-- `nStatus & BLOCK_FAILED_MASK`. -/
def failed (status : BlockStatus) : Bool := status.failedValid || status.failedChild

/-- `IsValid`. -/
def isValid (status : BlockStatus) (upTo : Nat) : Bool :=
  !status.failed && decide (upTo ≤ status.validity)

/-- `RaiseValidity`. -/
def raiseValidity (status : BlockStatus) (upTo : Nat) : BlockStatus :=
  if status.failed then status
  else if status.validity < upTo then { status with validity := upTo } else status

end BlockStatus

/-- The fields of a `CBlockIndex` that change after it was created. -/
structure IndexEntry where
  nStatus : BlockStatus
  nTx : Nat
  nChainTx : Nat
  nSequenceId : Nat
  nHeightMinedByMe : Int
  nCanMine : Nat
  fPassedMinerPrecheck : Bool
  deriving DecidableEq, Repr

/-- `CBlockIndex::SetNull`. -/
def IndexEntry.null : IndexEntry where
  nStatus := ⟨0, false, false, false⟩
  nTx := 0
  nChainTx := 0
  nSequenceId := 0
  nHeightMinedByMe := 0
  nCanMine := 0
  fPassedMinerPrecheck := false

/-- The blocks of `mapBlockIndex` with the fields that `AddToBlockIndex` sets for good. -/
structure BlockTree extends Forest BlockID where
  blocks : List BlockID
  nChainWork : BlockID → Nat

/-- The variables of `main.cpp` about the tree of blocks: `mapBlockIndex`, `chainActive`,
`setBlockIndexCandidates` in its order, `mapBlocksUnlinked`, `pindexLockedBlock`,
`setBannedTxBlocks` and `nBlockSequenceId`. -/
structure ChainState where
  tree : BlockTree
  index : BlockID → IndexEntry
  tip : Option BlockID
  candidates : List BlockID
  unlinked : List (BlockID × BlockID)
  lockedBlock : Option BlockID
  bannedBlocks : List BlockID
  nextSequenceId : Nat

namespace ChainState

variable (c : ChainState)

/-- `chainActive`, from the tip down to the genesis block. -/
def activeChain : List BlockID :=
  match c.tip with
  | none => []
  | some tip => c.tree.path tip

/-- `chainActive.Height()`. -/
def activeHeight : Int :=
  match c.tip with
  | none => -1
  | some tip => c.tree.height tip

/-- `chainActive.FindFork`. -/
def findFork (id : BlockID) : Option BlockID := c.tree.fork c.activeChain id

/-- The blocks from a block down to the active chain, without the fork. -/
def branch (id : BlockID) : List BlockID := c.tree.branch c.activeChain id

/-- Change an entry. -/
def modifyIndex (id : BlockID) (change : IndexEntry → IndexEntry) : ChainState :=
  { c with index := Function.update c.index id (change (c.index id)) }

theorem index_modifyIndex (id other : BlockID) (change : IndexEntry → IndexEntry) :
    (c.modifyIndex id change).index other =
      if other = id then change (c.index id) else c.index other :=
  Function.update_apply ..

/-- Change `nStatus` of an entry. -/
def modifyStatus (id : BlockID) (change : BlockStatus → BlockStatus) : ChainState :=
  c.modifyIndex id fun entry => { entry with nStatus := change entry.nStatus }

section Comparator

/-- `CBlockIndexWorkComparator`. -/
def worksLess (pa pb : BlockID) : Bool :=
  if c.tree.nChainWork pb < c.tree.nChainWork pa then false
  else if c.tree.nChainWork pa < c.tree.nChainWork pb then true
  else if 0 < (c.index pa).nCanMine ∧ (c.index pb).nCanMine = 0 then false
  else if (c.index pa).nCanMine = 0 ∧ 0 < (c.index pb).nCanMine then true
  else if (c.index pa).nCanMine = 0 ∧ (c.index pb).nCanMine = 0 ∧
      (c.index pa).nHeightMinedByMe < (c.index pb).nHeightMinedByMe then false
  else if (c.index pa).nCanMine = 0 ∧ (c.index pb).nCanMine = 0 ∧
      (c.index pb).nHeightMinedByMe < (c.index pa).nHeightMinedByMe then true
  else if (c.index pa).nSequenceId < (c.index pb).nSequenceId then false
  else if (c.index pb).nSequenceId < (c.index pa).nSequenceId then true
  else if pa < pb then false
  else if pb < pa then true
  else false

/-- What the comparator reads of a block, in the order of its weight. -/
abbrev WorkKey := Nat ×ₗ Nat ×ₗ Int ×ₗ Int ×ₗ Int

/-- The place of a block in the order of the comparator. -/
def workKey (id : BlockID) : WorkKey :=
  let entry := c.index id
  toLex (c.tree.nChainWork id,
    toLex (if 0 < entry.nCanMine then 1 else 0,
      toLex (if 0 < entry.nCanMine then 0 else -entry.nHeightMinedByMe,
        toLex (-(entry.nSequenceId : Int), -(id : Int)))))

section Lexicographic

variable {First Rest : Type} [LinearOrder First] [LinearOrder Rest]
  {first first' : First} {rest rest' : Rest}

theorem toLex_lt_iff_of_eq (same : first = first') :
    toLex (first, rest) < toLex (first', rest') ↔ rest < rest' := by
  rw [Prod.Lex.toLex_lt_toLex]
  simp [same]

theorem toLex_lt_of_lt (less : first < first') : toLex (first, rest) < toLex (first', rest') :=
  Prod.Lex.toLex_lt_toLex.mpr (.inl less)

theorem not_toLex_lt_of_gt (more : first' < first) :
    ¬ toLex (first, rest) < toLex (first', rest') :=
  not_lt.mpr (toLex_lt_of_lt more).le

end Lexicographic

/-- The comparator orders blocks by their keys. -/
theorem worksLess_iff (pa pb : BlockID) :
    c.worksLess pa pb = true ↔ c.workKey pa < c.workKey pb := by
  unfold worksLess workKey
  dsimp only
  by_cases more : c.tree.nChainWork pb < c.tree.nChainWork pa
  · rw [if_pos more]
    exact iff_of_false Bool.false_ne_true (not_toLex_lt_of_gt more)
  by_cases less : c.tree.nChainWork pa < c.tree.nChainWork pb
  · rw [if_neg more, if_pos less]
    exact iff_of_true rfl (toLex_lt_of_lt less)
  rw [if_neg more, if_neg less, toLex_lt_iff_of_eq (by omega)]
  generalize (c.index pa).nCanMine = canMine, (c.index pb).nCanMine = canMine'
  generalize (c.index pa).nHeightMinedByMe = mined, (c.index pb).nHeightMinedByMe = mined'
  generalize (c.index pa).nSequenceId = sequence, (c.index pb).nSequenceId = sequence'
  have bySequence : ((if sequence < sequence' then false
      else if sequence' < sequence then true
      else if pa < pb then false else if pb < pa then true else false) = true) ↔
      toLex (-(sequence : Int), -(pa : Int)) < toLex (-(sequence' : Int), -(pb : Int)) := by
    by_cases earlier : sequence < sequence'
    · rw [if_pos earlier]
      exact iff_of_false Bool.false_ne_true (not_toLex_lt_of_gt (by omega))
    by_cases later : sequence' < sequence
    · rw [if_neg earlier, if_pos later]
      exact iff_of_true rfl (toLex_lt_of_lt (by omega))
    rw [if_neg earlier, if_neg later, toLex_lt_iff_of_eq (by omega)]
    have negated : -(pa : Int) < -(pb : Int) ↔ pb < pa :=
      Int.neg_lt_neg_iff.trans Int.ofNat_lt
    rw [negated]
    by_cases below : pa < pb
    · rw [if_pos below]
      exact iff_of_false Bool.false_ne_true (Nat.lt_asymm below)
    · rw [if_neg below]
      simp
  by_cases mine : 0 < canMine
  · by_cases mine' : 0 < canMine'
    · rw [if_neg (by omega), if_neg (by omega), if_neg (by omega), if_neg (by omega), bySequence,
        if_pos mine, if_pos mine', toLex_lt_iff_of_eq rfl, if_pos mine, if_pos mine',
        toLex_lt_iff_of_eq rfl]
    · rw [if_pos ⟨mine, by omega⟩]
      refine iff_of_false Bool.false_ne_true (not_toLex_lt_of_gt ?_)
      rw [if_pos mine, if_neg mine']
      exact Nat.zero_lt_one
  · by_cases mine' : 0 < canMine'
    · rw [if_neg (by omega), if_pos ⟨by omega, mine'⟩]
      refine iff_of_true rfl (toLex_lt_of_lt ?_)
      rw [if_neg mine, if_pos mine']
      exact Nat.zero_lt_one
    · rw [if_neg (by omega), if_neg (by omega), if_neg mine, if_neg mine',
        toLex_lt_iff_of_eq rfl, if_neg mine, if_neg mine']
      by_cases older : mined < mined'
      · rw [if_pos ⟨by omega, by omega, older⟩]
        exact iff_of_false Bool.false_ne_true (not_toLex_lt_of_gt (by omega))
      · by_cases younger : mined' < mined
        · rw [if_neg (by omega), if_pos ⟨by omega, by omega, younger⟩]
          exact iff_of_true rfl (toLex_lt_of_lt (by omega))
        · rw [if_neg (by omega), if_neg (by omega),
            toLex_lt_iff_of_eq (show -mined = -mined' by omega), bySequence]

theorem workKey_injective : Function.Injective c.workKey := by
  intro pa pb same
  have parts := congrArg (fun key : WorkKey => (ofLex (ofLex (ofLex (ofLex key).2).2).2).2) same
  change -(pa : Int) = -(pb : Int) at parts
  exact Int.ofNat_inj.mp (neg_injective parts)

theorem worksLess_irrefl (id : BlockID) : c.worksLess id id = false := by
  rw [Bool.eq_false_iff]
  intro less
  exact lt_irrefl _ ((c.worksLess_iff id id).mp less)

theorem worksLess_trans {first second third : BlockID} (less : c.worksLess first second = true)
    (less' : c.worksLess second third = true) : c.worksLess first third = true :=
  (c.worksLess_iff _ _).mpr
    (((c.worksLess_iff _ _).mp less).trans ((c.worksLess_iff _ _).mp less'))

theorem worksLess_asymm {pa pb : BlockID} (less : c.worksLess pa pb = true) :
    c.worksLess pb pa = false := by
  rw [Bool.eq_false_iff]
  intro more
  have both := c.worksLess_trans less more
  rw [c.worksLess_irrefl] at both
  cases both

/-- Two blocks that are not ordered are the same. -/
theorem eq_of_not_worksLess {pa pb : BlockID} (notLess : c.worksLess pa pb = false)
    (notMore : c.worksLess pb pa = false) : pa = pb := by
  rw [Bool.eq_false_iff, Ne, c.worksLess_iff] at notLess notMore
  exact c.workKey_injective (le_antisymm (not_lt.mp notMore) (not_lt.mp notLess))

end Comparator

section Candidates

/-- `insert` of a set of blocks that the comparator keeps in order.  A set finds the place, and
the block if it is there, by the comparator: this is meant for blocks that are `InOrder`. -/
def insertInOrder (id : BlockID) (blocks : List BlockID) : List BlockID :=
  if id ∈ blocks then blocks
  else blocks.orderedInsert (fun pa pb => c.worksLess pa pb = true) id

/-- A set of blocks is strictly sorted by the comparator with the present keys. -/
def InOrder (blocks : List BlockID) : Prop :=
  blocks.Pairwise fun pa pb => c.worksLess pa pb = true

/-- `setBlockIndexCandidates.insert`. -/
def insertCandidate (id : BlockID) : ChainState :=
  { c with candidates := c.insertInOrder id c.candidates }

/-- `setBlockIndexCandidates.erase`.  The set looks for the block by the comparator and may miss
it when the keys of its members have changed; the block goes if the set is in order. -/
def eraseCandidate (id : BlockID) : ChainState :=
  { c with candidates := c.candidates.filter (· ≠ id) }

/-- `setBlockIndexCandidates` is strictly sorted by the comparator. -/
def CandidatesSorted : Prop := c.InOrder c.candidates

@[simp]
theorem mem_insertInOrder {id other : BlockID} {blocks : List BlockID} :
    other ∈ c.insertInOrder id blocks ↔ other = id ∨ other ∈ blocks := by
  unfold insertInOrder
  split
  · rename_i member
    constructor
    · exact .inr
    · rintro (isId | isMember)
      · rw [isId]
        exact member
      · exact isMember
  · exact List.mem_orderedInsert _

theorem mem_insertCandidate {id other : BlockID} :
    other ∈ (c.insertCandidate id).candidates ↔ other = id ∨ other ∈ c.candidates :=
  c.mem_insertInOrder

theorem mem_eraseCandidate {id other : BlockID} :
    other ∈ (c.eraseCandidate id).candidates ↔ other ∈ c.candidates ∧ other ≠ id := by
  simp [eraseCandidate]

variable {c}

theorem InOrder.orderedInsert {id : BlockID} {blocks : List BlockID} (sorted : c.InOrder blocks)
    (new : id ∉ blocks) :
    c.InOrder (blocks.orderedInsert (fun pa pb => c.worksLess pa pb = true) id) := by
  induction blocks with
  | nil => exact List.pairwise_singleton _ _
  | cons first rest ih =>
      obtain ⟨below, sortedRest⟩ := List.pairwise_cons.mp sorted
      rw [List.orderedInsert_cons]
      split
      · rename_i less
        refine List.pairwise_cons.mpr ⟨?_, sorted⟩
        intro other member
        rcases List.mem_cons.mp member with isFirst | inRest
        · rw [isFirst]
          exact less
        · exact c.worksLess_trans less (below other inRest)
      · rename_i notLess
        have more : c.worksLess first id = true := by
          by_contra notMore
          have same := c.eq_of_not_worksLess (Bool.eq_false_iff.mpr notLess)
            (Bool.eq_false_iff.mpr notMore)
          exact new (same ▸ List.mem_cons_self ..)
        refine List.pairwise_cons.mpr
          ⟨?_, ih sortedRest fun member => new (List.mem_cons_of_mem _ member)⟩
        intro other member
        rcases (List.mem_orderedInsert _).mp member with isId | inRest
        · rw [isId]
          exact more
        · exact below other inRest

theorem InOrder.insert {blocks : List BlockID} (sorted : c.InOrder blocks) (id : BlockID) :
    c.InOrder (c.insertInOrder id blocks) := by
  unfold insertInOrder
  split
  · exact sorted
  · rename_i new
    exact sorted.orderedInsert new

theorem InOrder.last_greatest {blocks : List BlockID} (sorted : c.InOrder blocks)
    {last : BlockID} (isLast : blocks.getLast? = some last) {other : BlockID}
    (member : other ∈ blocks) : other = last ∨ c.worksLess other last = true := by
  obtain ⟨front, split⟩ := List.getLast?_eq_some_iff.mp isLast
  unfold InOrder at sorted
  rw [split] at sorted member
  rcases List.mem_append.mp member with inFront | isIt
  · exact .inr ((List.pairwise_append.mp sorted).2.2 other inFront last (List.mem_singleton_self _))
  · exact .inl (List.mem_singleton.mp isIt)

/-- The last member is not beaten by one. -/
theorem InOrder.not_worksLess_last {blocks : List BlockID} (sorted : c.InOrder blocks)
    {last other : BlockID} (isLast : blocks.getLast? = some last) (member : other ∈ blocks) :
    c.worksLess last other = false := by
  rcases sorted.last_greatest isLast member with isIt | less
  · rw [isIt, c.worksLess_irrefl]
  · exact c.worksLess_asymm less

end Candidates

end ChainState

end HdacNode
