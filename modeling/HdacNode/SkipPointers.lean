import Mathlib.Data.Nat.Bitwise

/-!
# Skip pointers of the block index

Every block of the index points to its parent and, past several blocks, to an
ancestor further back, whose height is computed from its own by clearing bits.
`GetAncestor` goes back along these pointers where they do not lead past the
height asked for.  The pointer of a block is set when the block is inserted, by
asking its parent for the ancestor; so the pointers are right as long as those
of the blocks before are.
-/

namespace HdacNode

/-- `InvertLowestOne`. -/
def invertLowestOne (n : Nat) : Nat := n &&& (n - 1)

/-- `GetSkipHeight`. -/
def getSkipHeight (height : Nat) : Nat :=
  if height < 2 then 0
  else if height % 2 = 1 then invertLowestOne (invertLowestOne (height - 1)) + 1
  else invertLowestOne height

theorem invertLowestOne_lt {n : Nat} (some : 0 < n) : invertLowestOne n < n := by
  have atMost : invertLowestOne n ≤ n - 1 := Nat.and_le_right
  omega

theorem invertLowestOne_le (n : Nat) : invertLowestOne n ≤ n := Nat.and_le_left

/-- A skip goes back. -/
theorem getSkipHeight_lt {height : Nat} (some : 0 < height) : getSkipHeight height < height := by
  unfold getSkipHeight
  split
  · exact some
  · split
    · have first := invertLowestOne_lt (n := height - 1) (by omega)
      have second := invertLowestOne_le (invertLowestOne (height - 1))
      omega
    · exact invertLowestOne_lt some

/-- The block index: the blocks in it and the fields of each that `GetAncestor` reads. -/
structure SkipIndex (Block : Type) where
  blocks : List Block
  pprev : Block → Option Block
  pskip : Block → Option Block
  nHeight : Block → Nat

namespace SkipIndex

variable {Block : Type}

/-- The index without blocks. -/
def empty : SkipIndex Block where
  blocks := []
  pprev := fun _ => none
  pskip := fun _ => none
  nHeight := fun _ => 0

/-- The loop of `GetAncestor`, for a number of rounds at most; nothing where it reads through a
null pointer. -/
def walkBack (index : SkipIndex Block) (height : Nat) :
    Nat → Option Block → Nat → Option (Option Block)
  | 0, pindexWalk, heightWalk => if heightWalk ≤ height then some pindexWalk else none
  | fuel + 1, pindexWalk, heightWalk =>
      if heightWalk ≤ height then some pindexWalk
      else
        match pindexWalk with
        | none => none
        | some walked =>
            let heightSkip := getSkipHeight heightWalk
            let heightSkipPrev := getSkipHeight (heightWalk - 1)
            if heightSkip = height ∨ height < heightSkip ∧
                ¬ ((heightSkipPrev : Int) < (heightSkip : Int) - 2 ∧ height ≤ heightSkipPrev) then
              index.walkBack height fuel (index.pskip walked) heightSkip
            else index.walkBack height fuel (index.pprev walked) (heightWalk - 1)

/-- `CBlockIndex::GetAncestor`. -/
def getAncestor (index : SkipIndex Block) (block : Block) (height : Int) : Option (Option Block) :=
  if index.nHeight block < height ∨ height < 0 then some none
  else index.walkBack height.toNat (index.nHeight block) (some block) (index.nHeight block)

/-- `AddToBlockIndex`, with `BuildSkip`: a block that is known stays as it is, and one without a
known parent is a root. -/
def addToBlockIndex [DecidableEq Block] (index : SkipIndex Block) (block hashPrevBlock : Block) :
    SkipIndex Block :=
  if block ∈ index.blocks then index
  else if hashPrevBlock ∈ index.blocks then
    let nHeight := index.nHeight hashPrevBlock + 1
    { blocks := index.blocks ++ [block]
      pprev := Function.update index.pprev block (some hashPrevBlock)
      pskip := Function.update index.pskip block
        ((index.getAncestor hashPrevBlock (getSkipHeight nHeight)).getD none)
      nHeight := Function.update index.nHeight block nHeight }
  else
    { blocks := index.blocks ++ [block]
      pprev := Function.update index.pprev block none
      pskip := Function.update index.pskip block none
      nHeight := Function.update index.nHeight block 0 }

/-- The loop of `LastCommonAncestor`, for a number of rounds at most. -/
def walkTogether [DecidableEq Block] (index : SkipIndex Block) :
    Nat → Option Block → Option Block → Option Block × Option Block
  | 0, pa, pb => (pa, pb)
  | fuel + 1, pa, pb =>
      match pa, pb with
      | some first, some second =>
          if first = second then (pa, pb)
          else index.walkTogether fuel (index.pprev first) (index.pprev second)
      | _, _ => (pa, pb)

/-- The start of `LastCommonAncestor` for one of the blocks: its ancestor at the height of the
other, when that is lower. -/
def loweredTo (index : SkipIndex Block) (height : Nat) (block : Block) : Option (Option Block) :=
  if height < index.nHeight block then index.getAncestor block height else some (some block)

/-- `LastCommonAncestor`, with nothing for a failing assertion. -/
def lastCommonAncestor [DecidableEq Block] (index : SkipIndex Block) (pa pb : Block) :
    Option (Option Block) := do
  let first ← index.loweredTo (index.nHeight pb) pa
  let second ← index.loweredTo (index.nHeight pa) pb
  let met := index.walkTogether (index.nHeight pa + 1) first second
  if met.1 = met.2 then some met.1 else none

/-! ## Following the parents -/

/-- The block reached over some parents. -/
def followPrev (index : SkipIndex Block) : Nat → Block → Option Block
  | 0, block => some block
  | steps + 1, block => (index.pprev block).bind (index.followPrev steps)

theorem followPrev_add {index : SkipIndex Block} (first second : Nat) (block : Block) :
    index.followPrev (first + second) block =
      (index.followPrev first block).bind (index.followPrev second) := by
  induction first generalizing block with
  | zero => rw [Nat.zero_add, followPrev, Option.bind_some]
  | succ first ih =>
      rw [Nat.succ_add, followPrev, followPrev]
      cases index.pprev block with
      | none => rfl
      | some parent => exact ih parent

/-- A block leads back to an ancestor. -/
def IsAncestor (index : SkipIndex Block) (ancestor block : Block) : Prop :=
  ∃ steps, index.followPrev steps block = some ancestor

/-- Parents are known and one lower, roots are at height zero, and the skip pointer of a block is
its ancestor at the skip height. -/
structure Linked (index : SkipIndex Block) : Prop where
  prev_mem : ∀ block ∈ index.blocks, ∀ parent, index.pprev block = some parent →
    parent ∈ index.blocks ∧ index.nHeight block = index.nHeight parent + 1
  root : ∀ block ∈ index.blocks, index.pprev block = none → index.nHeight block = 0
  skip : ∀ block ∈ index.blocks, 0 < index.nHeight block →
    index.pskip block = index.followPrev
      (index.nHeight block - getSkipHeight (index.nHeight block)) block

section Linked

variable {index : SkipIndex Block}

/-- Over as many parents as its height a block leads to a known one, that much lower. -/
theorem Linked.followPrev_spec (linked : index.Linked) {steps : Nat} {block : Block}
    (known : block ∈ index.blocks) (within : steps ≤ index.nHeight block) :
    ∃ ancestor, index.followPrev steps block = some ancestor ∧ ancestor ∈ index.blocks ∧
      index.nHeight ancestor + steps = index.nHeight block := by
  induction steps generalizing block with
  | zero => exact ⟨block, rfl, known, rfl⟩
  | succ steps ih =>
      cases isPrev : index.pprev block with
      | none =>
          have isRoot := linked.root block known isPrev
          omega
      | some parent =>
          obtain ⟨parentKnown, higher⟩ := linked.prev_mem block known parent isPrev
          obtain ⟨ancestor, follows, ancestorKnown, height⟩ := ih parentKnown (by omega)
          refine ⟨ancestor, ?_, ancestorKnown, by omega⟩
          rw [followPrev, isPrev, Option.bind_some]
          exact follows

theorem Linked.followPrev_eq_none (linked : index.Linked) {steps : Nat} {block : Block}
    (known : block ∈ index.blocks) (beyond : index.nHeight block < steps) :
    index.followPrev steps block = none := by
  induction steps generalizing block with
  | zero => omega
  | succ steps ih =>
      rw [followPrev]
      cases isPrev : index.pprev block with
      | none => rfl
      | some parent =>
          obtain ⟨parentKnown, higher⟩ := linked.prev_mem block known parent isPrev
          exact ih parentKnown (by omega)

/-- The walk of `GetAncestor` is the walk over the parents. -/
theorem Linked.walkBack_eq (linked : index.Linked) {height fuel : Nat} {block : Block}
    (known : block ∈ index.blocks) (within : height ≤ index.nHeight block)
    (enough : index.nHeight block ≤ height + fuel) :
    index.walkBack height fuel (some block) (index.nHeight block) =
      some (index.followPrev (index.nHeight block - height) block) := by
  induction fuel generalizing block with
  | zero =>
      have reached : index.nHeight block ≤ height := by omega
      rw [walkBack, if_pos reached, Nat.sub_eq_zero_of_le reached]
      rfl
  | succ fuel ih =>
      rw [walkBack]
      by_cases reached : index.nHeight block ≤ height
      · rw [if_pos reached, Nat.sub_eq_zero_of_le reached]
        rfl
      · rw [if_neg reached]
        have positive : 0 < index.nHeight block := by omega
        have back := getSkipHeight_lt positive
        dsimp only
        split
        · rename_i skips
          have notPast : height ≤ getSkipHeight (index.nHeight block) := by omega
          obtain ⟨skipped, follows, skippedKnown, skippedHeight⟩ :=
            @Linked.followPrev_spec _ _ linked
              (index.nHeight block - getSkipHeight (index.nHeight block)) _ known (by omega)
          have sameHeight : index.nHeight skipped = getSkipHeight (index.nHeight block) := by
            omega
          have rest := ih skippedKnown (by omega) (by omega)
          have split : index.nHeight block - height =
              (index.nHeight block - getSkipHeight (index.nHeight block)) +
                (getSkipHeight (index.nHeight block) - height) := by omega
          rw [sameHeight] at rest
          rw [linked.skip block known positive, follows, rest, split, followPrev_add, follows,
            Option.bind_some]
        · obtain ⟨parent, follows, parentKnown, parentHeight⟩ :=
            @Linked.followPrev_spec _ _ linked 1 _ known positive
          have isPrev : index.pprev block = some parent := by
            rw [followPrev] at follows
            cases isPrev : index.pprev block with
            | none =>
                rw [isPrev] at follows
                cases follows
            | some other =>
                rw [isPrev] at follows
                exact follows
          have sameHeight : index.nHeight parent = index.nHeight block - 1 := by omega
          have rest := ih parentKnown (by omega) (by omega)
          have split : index.nHeight block - height =
              1 + (index.nHeight block - 1 - height) := by omega
          rw [sameHeight] at rest
          rw [isPrev, rest, split, followPrev_add, follows, Option.bind_some]

theorem Linked.getAncestor_eq (linked : index.Linked) {height : Nat} {block : Block}
    (known : block ∈ index.blocks) (within : height ≤ index.nHeight block) :
    index.getAncestor block height =
      some (index.followPrev (index.nHeight block - height) block) := by
  have inRange : ¬ ((index.nHeight block : Int) < height ∨ (height : Int) < 0) := by omega
  rw [getAncestor, if_neg inRange, Int.toNat_natCast]
  exact linked.walkBack_eq known within (by omega)

end Linked

/-! ## Insertions -/

section Insertion

variable {index : SkipIndex Block}

/-- The walk over known blocks does not depend on a new one. -/
theorem Linked.followPrev_congr (linked : index.Linked) {other : SkipIndex Block}
    (same : ∀ block ∈ index.blocks, other.pprev block = index.pprev block) (steps : Nat)
    {block : Block} (known : block ∈ index.blocks) :
    other.followPrev steps block = index.followPrev steps block := by
  induction steps generalizing block with
  | zero => rfl
  | succ steps ih =>
      rw [followPrev, followPrev, same block known]
      cases isPrev : index.pprev block with
      | none => rfl
      | some parent => exact ih (linked.prev_mem block known parent isPrev).1

theorem linked_empty : (empty : SkipIndex Block).Linked where
  prev_mem := by simp [empty]
  root := by simp [empty]
  skip := by simp [empty]

/-- A new block with right fields of its own keeps all the pointers right. -/
theorem Linked.extend (linked : index.Linked) {other : SkipIndex Block} {block : Block}
    (new : block ∉ index.blocks) (blocks : other.blocks = index.blocks ++ [block])
    (samePrev : ∀ old, old ≠ block → other.pprev old = index.pprev old)
    (sameSkip : ∀ old, old ≠ block → other.pskip old = index.pskip old)
    (sameHeight : ∀ old, old ≠ block → other.nHeight old = index.nHeight old)
    (prev_mem : ∀ parent, other.pprev block = some parent →
      parent ∈ index.blocks ∧ other.nHeight block = index.nHeight parent + 1)
    (root : other.pprev block = none → other.nHeight block = 0)
    (skip : 0 < other.nHeight block → other.pskip block = other.followPrev
      (other.nHeight block - getSkipHeight (other.nHeight block)) block) : other.Linked := by
  have apart : ∀ old ∈ index.blocks, old ≠ block := by
    rintro old known rfl
    exact new known
  have knownOr : ∀ old ∈ other.blocks, old ∈ index.blocks ∨ old = block := by
    intro old known
    rw [blocks] at known
    simpa using known
  refine ⟨?_, ?_, ?_⟩
  · intro old known parent isPrev
    have stays : ∀ member ∈ index.blocks, member ∈ other.blocks := by
      intro member memberKnown
      rw [blocks]
      simp [memberKnown]
    rcases knownOr old known with oldKnown | rfl
    · rw [samePrev old (apart old oldKnown)] at isPrev
      obtain ⟨parentKnown, higher⟩ := linked.prev_mem old oldKnown parent isPrev
      rw [sameHeight old (apart old oldKnown), sameHeight parent (apart parent parentKnown)]
      exact ⟨stays parent parentKnown, higher⟩
    · obtain ⟨parentKnown, higher⟩ := prev_mem parent isPrev
      rw [sameHeight parent (apart parent parentKnown)]
      exact ⟨stays parent parentKnown, higher⟩
  · intro old known isPrev
    rcases knownOr old known with oldKnown | rfl
    · rw [samePrev old (apart old oldKnown)] at isPrev
      rw [sameHeight old (apart old oldKnown)]
      exact linked.root old oldKnown isPrev
    · exact root isPrev
  · intro old known positive
    rcases knownOr old known with oldKnown | rfl
    · have follows := linked.followPrev_congr
        (fun member memberKnown => samePrev member (apart member memberKnown))
      rw [sameHeight old (apart old oldKnown)] at positive ⊢
      rw [sameSkip old (apart old oldKnown), follows _ oldKnown]
      exact linked.skip old oldKnown positive
    · exact skip positive

variable [DecidableEq Block]

/-- `AddToBlockIndex` keeps the pointers right. -/
theorem Linked.addToBlockIndex (linked : index.Linked) (block hashPrevBlock : Block) :
    (index.addToBlockIndex block hashPrevBlock).Linked := by
  unfold SkipIndex.addToBlockIndex
  split
  · exact linked
  · rename_i new
    have apart : ∀ old ∈ index.blocks, old ≠ block := by
      rintro old known rfl
      exact new known
    split
    · rename_i prevKnown
      apply linked.extend new rfl
      · intro old different
        exact Function.update_of_ne different _ _
      · intro old different
        exact Function.update_of_ne different _ _
      · intro old different
        exact Function.update_of_ne different _ _
      · intro parent isPrev
        simp only [Function.update_self, Option.some.injEq] at isPrev
        rw [← isPrev]
        exact ⟨prevKnown, Function.update_self _ _ _⟩
      · intro isRoot
        simp at isRoot
      · intro _
        dsimp only
        rw [Function.update_self, Function.update_self]
        have back : getSkipHeight (index.nHeight hashPrevBlock + 1) <
            index.nHeight hashPrevBlock + 1 := getSkipHeight_lt (Nat.succ_pos _)
        have asked := linked.getAncestor_eq prevKnown (Nat.le_of_lt_succ back)
        have steps : index.nHeight hashPrevBlock + 1 -
            getSkipHeight (index.nHeight hashPrevBlock + 1) =
            (index.nHeight hashPrevBlock - getSkipHeight (index.nHeight hashPrevBlock + 1)) +
              1 := by
          omega
        rw [asked, Option.getD_some, steps, followPrev]
        dsimp only
        rw [Function.update_self, Option.bind_some]
        symm
        apply linked.followPrev_congr _ _ prevKnown
        intro old known
        exact Function.update_of_ne (apart old known) _ _
    · apply linked.extend new rfl
      · intro old different
        exact Function.update_of_ne different _ _
      · intro old different
        exact Function.update_of_ne different _ _
      · intro old different
        exact Function.update_of_ne different _ _
      · intro parent isPrev
        simp at isPrev
      · intro _
        exact Function.update_self _ _ _
      · intro positive
        simp at positive

/-- The index after blocks with their parents have come in. -/
def insertAll (arrivals : List (Block × Block)) : SkipIndex Block :=
  arrivals.foldl (fun index arrival => index.addToBlockIndex arrival.1 arrival.2) empty

theorem linked_insertAll (arrivals : List (Block × Block)) :
    (insertAll arrivals).Linked := by
  have kept : ∀ index : SkipIndex Block, index.Linked →
      (arrivals.foldl (fun index arrival => index.addToBlockIndex arrival.1 arrival.2)
        index).Linked := by
    induction arrivals with
    | nil => exact fun _ linked => linked
    | cons arrival arrivals ih =>
        exact fun index linked => ih _ (linked.addToBlockIndex arrival.1 arrival.2)
  exact kept empty linked_empty

end Insertion

/-! ## Common ancestors -/

section Common

variable {index : SkipIndex Block}

theorem IsAncestor.parent {ancestor block parent : Block} (isPrev : index.pprev block = some parent)
    (above : index.IsAncestor ancestor parent) : index.IsAncestor ancestor block := by
  obtain ⟨steps, follows⟩ := above
  exact ⟨steps + 1, by rw [followPrev, isPrev]; exact follows⟩

theorem IsAncestor.cases {ancestor block : Block} (above : index.IsAncestor ancestor block) :
    ancestor = block ∨ ∃ parent, index.pprev block = some parent ∧
      index.IsAncestor ancestor parent := by
  obtain ⟨steps, follows⟩ := above
  cases steps with
  | zero => exact Or.inl (Option.some.inj follows).symm
  | succ steps =>
      rw [followPrev] at follows
      obtain ⟨parent, isPrev, rest⟩ := Option.bind_eq_some_iff.1 follows
      exact Or.inr ⟨parent, isPrev, steps, rest⟩

theorem Linked.height_le_of_isAncestor (linked : index.Linked) {ancestor block : Block}
    (known : block ∈ index.blocks) (above : index.IsAncestor ancestor block) :
    index.nHeight ancestor ≤ index.nHeight block := by
  obtain ⟨steps, follows⟩ := above
  have within : steps ≤ index.nHeight block := by
    by_contra beyond
    rw [linked.followPrev_eq_none known (by omega)] at follows
    cases follows
  obtain ⟨other, otherFollows, -, height⟩ := linked.followPrev_spec known within
  rw [follows] at otherFollows
  rw [Option.some.inj otherFollows]
  omega

theorem Linked.isAncestor_of_followPrev (linked : index.Linked) {steps : Nat}
    {ancestor block reached : Block} (known : block ∈ index.blocks)
    (above : index.IsAncestor ancestor block) (follows : index.followPrev steps block = some reached)
    (notPast : index.nHeight ancestor + steps ≤ index.nHeight block) :
    index.IsAncestor ancestor reached := by
  induction steps generalizing block with
  | zero =>
      rw [← Option.some.inj follows]
      exact above
  | succ steps ih =>
      rw [followPrev] at follows
      obtain ⟨parent, isPrev, rest⟩ := Option.bind_eq_some_iff.1 follows
      obtain ⟨parentKnown, higher⟩ := linked.prev_mem block known parent isPrev
      rcases above.cases with rfl | ⟨other, otherPrev, otherAbove⟩
      · omega
      · rw [isPrev] at otherPrev
        rw [← Option.some.inj otherPrev] at otherAbove
        exact ih parentKnown otherAbove rest (by omega)

/-- The block is the deepest common ancestor of two blocks. -/
def DeepestCommon (index : SkipIndex Block) (first second deepest : Block) : Prop :=
  index.IsAncestor deepest first ∧ index.IsAncestor deepest second ∧
    ∀ common, index.IsAncestor common first → index.IsAncestor common second →
      index.IsAncestor common deepest ∧ index.nHeight common ≤ index.nHeight deepest

theorem Linked.loweredTo_spec (linked : index.Linked) {block : Block}
    (known : block ∈ index.blocks) (height : Nat) :
    ∃ level steps, index.loweredTo height block = some (some level) ∧ level ∈ index.blocks ∧
      index.nHeight level = min (index.nHeight block) height ∧
      index.nHeight level + steps = index.nHeight block ∧
      index.followPrev steps block = some level := by
  obtain ⟨level, follows, levelKnown, levelHeight⟩ :=
    @Linked.followPrev_spec _ _ linked (index.nHeight block - height) _ known (by omega)
  refine ⟨level, index.nHeight block - height, ?_, levelKnown, by omega, levelHeight, follows⟩
  rw [loweredTo]
  split
  · rw [linked.getAncestor_eq known (by omega), follows]
  · rename_i notHigher
    have stays : index.nHeight block - height = 0 := by omega
    rw [stays] at follows
    exact congrArg some follows

variable [DecidableEq Block]

theorem Linked.walkTogether_spec (linked : index.Linked) {fuel : Nat} {first second : Block}
    (firstKnown : first ∈ index.blocks) (secondKnown : second ∈ index.blocks)
    (sameHeight : index.nHeight first = index.nHeight second)
    (enough : index.nHeight first < fuel)
    (oneTree : ∃ shared, index.IsAncestor shared first ∧ index.IsAncestor shared second) :
    ∃ deepest, index.walkTogether fuel (some first) (some second) =
      (some deepest, some deepest) ∧ index.DeepestCommon first second deepest := by
  induction fuel generalizing first second with
  | zero => omega
  | succ fuel ih =>
      rw [walkTogether]
      by_cases met : first = second
      · subst met
        refine ⟨first, by simp, ⟨0, rfl⟩, ⟨0, rfl⟩, ?_⟩
        intro common isCommon _
        exact ⟨isCommon, linked.height_le_of_isAncestor firstKnown isCommon⟩
      · obtain ⟨shared, sharedFirst, sharedSecond⟩ := oneTree
        have goesOn : ∀ common, index.IsAncestor common first → index.IsAncestor common second →
            ∃ above below, index.pprev first = some above ∧ index.pprev second = some below ∧
              index.IsAncestor common above ∧ index.IsAncestor common below := by
          intro common isFirst isSecond
          rcases isFirst.cases with rfl | ⟨above, firstPrev, fromAbove⟩
          · rcases isSecond.cases with same | ⟨below, secondPrev, fromBelow⟩
            · exact absurd same met
            · obtain ⟨belowKnown, higher⟩ :=
                linked.prev_mem second secondKnown below secondPrev
              have low := linked.height_le_of_isAncestor belowKnown fromBelow
              omega
          · rcases isSecond.cases with rfl | ⟨below, secondPrev, fromBelow⟩
            · obtain ⟨aboveKnown, higher⟩ :=
                linked.prev_mem first firstKnown above firstPrev
              have low := linked.height_le_of_isAncestor aboveKnown fromAbove
              omega
            · exact ⟨above, below, firstPrev, secondPrev, fromAbove, fromBelow⟩
        obtain ⟨above, below, firstPrev, secondPrev, fromAbove, fromBelow⟩ :=
          goesOn shared sharedFirst sharedSecond
        obtain ⟨aboveKnown, aboveHeight⟩ := linked.prev_mem first firstKnown above firstPrev
        obtain ⟨belowKnown, belowHeight⟩ := linked.prev_mem second secondKnown below secondPrev
        obtain ⟨deepest, walked, deepestAbove, deepestBelow, isDeepest⟩ :=
          ih aboveKnown belowKnown (by omega) (by omega) ⟨shared, fromAbove, fromBelow⟩
        refine ⟨deepest, ?_, deepestAbove.parent firstPrev, deepestBelow.parent secondPrev, ?_⟩
        · rw [if_neg met, firstPrev, secondPrev]
          exact walked
        · intro common isFirst isSecond
          obtain ⟨_, _, firstPrev', secondPrev', commonAbove, commonBelow⟩ :=
            goesOn common isFirst isSecond
          rw [firstPrev, Option.some.injEq] at firstPrev'
          rw [secondPrev, Option.some.injEq] at secondPrev'
          subst firstPrev' secondPrev'
          exact isDeepest common commonAbove commonBelow

/-- `LastCommonAncestor` of two blocks of one tree. -/
theorem Linked.lastCommonAncestor_spec (linked : index.Linked) {first second : Block}
    (firstKnown : first ∈ index.blocks) (secondKnown : second ∈ index.blocks)
    (oneTree : ∃ shared, index.IsAncestor shared first ∧ index.IsAncestor shared second) :
    ∃ deepest, index.lastCommonAncestor first second = some (some deepest) ∧
      index.DeepestCommon first second deepest := by
  obtain ⟨shared, sharedFirst, sharedSecond⟩ := oneTree
  have lowFirst : ∀ common, index.IsAncestor common first →
      index.nHeight common ≤ index.nHeight first :=
    fun _ => linked.height_le_of_isAncestor firstKnown
  have lowSecond : ∀ common, index.IsAncestor common second →
      index.nHeight common ≤ index.nHeight second :=
    fun _ => linked.height_le_of_isAncestor secondKnown
  obtain ⟨level, steps, reached, levelKnown, levelHeight, total, follows⟩ :=
    linked.loweredTo_spec firstKnown (index.nHeight second)
  obtain ⟨level', steps', reached', levelKnown', levelHeight', total', follows'⟩ :=
    linked.loweredTo_spec secondKnown (index.nHeight first)
  have stillCommon : ∀ common, index.IsAncestor common first → index.IsAncestor common second →
      index.IsAncestor common level ∧ index.IsAncestor common level' := by
    intro common isFirst isSecond
    have low := lowFirst common isFirst
    have low' := lowSecond common isSecond
    exact ⟨linked.isAncestor_of_followPrev firstKnown isFirst follows (by omega),
      linked.isAncestor_of_followPrev secondKnown isSecond follows' (by omega)⟩
  have enough : index.nHeight level < index.nHeight first + 1 := by omega
  obtain ⟨deepest, walked, deepestLevel, deepestLevel', isDeepest⟩ :=
    linked.walkTogether_spec levelKnown levelKnown' (by omega) enough
      ⟨shared, stillCommon shared sharedFirst sharedSecond⟩
  have back : ∀ {block level : Block} {steps : Nat},
      index.followPrev steps block = some level → index.IsAncestor deepest level →
      index.IsAncestor deepest block := by
    intro block level steps leads above
    obtain ⟨more, moreFollows⟩ := above
    exact ⟨steps + more, by rw [followPrev_add, leads]; exact moreFollows⟩
  refine ⟨deepest, ?_, back follows deepestLevel, back follows' deepestLevel', ?_⟩
  · rw [lastCommonAncestor, reached, reached']
    simp [walked]
  · intro common isFirst isSecond
    obtain ⟨commonLevel, commonLevel'⟩ := stillCommon common isFirst isSecond
    exact isDeepest common commonLevel commonLevel'

/-- In every index built by insertions `GetAncestor` returns the block that the parents lead to,
and `LastCommonAncestor` of two blocks of one tree their deepest common ancestor. -/
theorem skipPointers_agree (arrivals : List (Block × Block)) :
    (∀ block ∈ (insertAll arrivals).blocks,
      ∀ height ≤ (insertAll arrivals).nHeight block,
        ∃ ancestor, (insertAll arrivals).getAncestor block height = some (some ancestor) ∧
          (insertAll arrivals).followPrev ((insertAll arrivals).nHeight block - height) block =
            some ancestor ∧
          (insertAll arrivals).nHeight ancestor = height) ∧
    (∀ first ∈ (insertAll arrivals).blocks, ∀ second ∈ (insertAll arrivals).blocks,
      (∃ shared, (insertAll arrivals).IsAncestor shared first ∧
        (insertAll arrivals).IsAncestor shared second) →
      ∃ deepest, (insertAll arrivals).lastCommonAncestor first second = some (some deepest) ∧
        (insertAll arrivals).DeepestCommon first second deepest) := by
  have linked := linked_insertAll arrivals
  constructor
  · intro block known height within
    obtain ⟨ancestor, follows, -, ancestorHeight⟩ :=
      @Linked.followPrev_spec _ _ linked ((insertAll arrivals).nHeight block - height) _ known
        (by omega)
    refine ⟨ancestor, ?_, follows, by omega⟩
    rw [linked.getAncestor_eq known within, follows]
  · intro first firstKnown second secondKnown oneTree
    exact linked.lastCommonAncestor_spec firstKnown secondKnown oneTree

/-- A block of a fork and the block at which the fork leaves the other chain. -/
theorem skipPointers_agree_fork :
    (∃ ancestor, (insertAll [(0, 9), (1, 0), (2, 1), (3, 2), (4, 2), (5, 4)]).getAncestor 5
        ((1 : Nat) : Int) = some (some ancestor) ∧
      (insertAll [(0, 9), (1, 0), (2, 1), (3, 2), (4, 2), (5, 4)]).followPrev
        ((insertAll [(0, 9), (1, 0), (2, 1), (3, 2), (4, 2), (5, 4)]).nHeight 5 - 1) 5 =
          some ancestor ∧
      (insertAll [(0, 9), (1, 0), (2, 1), (3, 2), (4, 2), (5, 4)]).nHeight ancestor = 1) ∧
    ∃ deepest, (insertAll [(0, 9), (1, 0), (2, 1), (3, 2), (4, 2), (5, 4)]).lastCommonAncestor
        3 5 = some (some deepest) ∧
      (insertAll [(0, 9), (1, 0), (2, 1), (3, 2), (4, 2), (5, 4)]).DeepestCommon 3 5 deepest :=
  ⟨(skipPointers_agree [(0, 9), (1, 0), (2, 1), (3, 2), (4, 2), (5, 4)]).1 5 (by decide) 1
      (by decide),
    (skipPointers_agree [(0, 9), (1, 0), (2, 1), (3, 2), (4, 2), (5, 4)]).2 3 (by decide) 5
      (by decide) ⟨2, ⟨1, by decide⟩, ⟨2, by decide⟩⟩⟩

end Common

end SkipIndex

end HdacNode
