import HdacNode.AssetGroupRows

/-!
# The invariant of the asset groups

Between two calls every asset is in one group and every group that is not full
is in the list of its size.  Inside a call the two parts move apart: assets are
stored before they have a group, and a group is put into the list of the size
it is about to have.  So the lists are stated for an assumed size of each
group and the assets up to a first one without a group.
-/

namespace HdacNode

namespace AssetGroupTree

/-- A group is in the list of a size when it is not full at the size assumed for it. -/
def InList (tree : AssetGroupTree) (assumed : Nat → Nat) (size groupID : Nat) : Prop :=
  size < tree.assetsPerGroup ∧ groupID ≠ 0 ∧ groupID < tree.groups.length ∧
    assumed groupID = size

/-- The lists hold the groups by the sizes assumed, and a full group has no link. -/
structure Listed (tree : AssetGroupTree) (assumed : Nat → Nat) : Prop where
  bucketed : Bucketed tree.nextOf 0 tree.headOf (tree.InList assumed)
  assumed_le : ∀ groupID < tree.groups.length, assumed groupID ≤ tree.assetsPerGroup
  full_unlinked : ∀ groupID < tree.groups.length,
    assumed groupID = tree.assetsPerGroup → tree.nextOf groupID = 0

/-- The first `placed` assets are in one group each, once, and the groups list no others. -/
structure Placed (tree : AssetGroupTree) (placed : Nat) : Prop where
  coherent : RowBuffer.Coherent AssetRow.ref tree.assets
  refs_nodup : (tree.assets.rows.map AssetRow.ref).Nodup
  placed_le : placed ≤ tree.assets.count
  inGroup : ∀ assetID < placed, ∃ groupID, groupID ≠ 0 ∧ groupID < tree.groups.length ∧
    (tree.assets.getRow assetID).group = groupID ∧ assetID ∈ tree.members groupID
  listed : ∀ groupID, groupID ≠ 0 → ∀ assetID ∈ tree.members groupID,
    assetID < placed ∧ (tree.assets.getRow assetID).group = groupID
  members_nodup : ∀ groupID, groupID ≠ 0 → (tree.members groupID).Nodup

/-- What holds between two calls of a tree that groups. -/
structure Settled (tree : AssetGroupTree) : Prop where
  shaped : tree.Shaped
  listed : tree.Listed tree.sizeOf
  placed : tree.Placed tree.assets.count

/-- The groups and their members are still there; only links, heads and room have changed. -/
structure Relinked (tree other : AssetGroupTree) : Prop where
  assets : other.assets = tree.assets
  perGroup_le : tree.assetsPerGroup ≤ other.assetsPerGroup
  length_le : tree.groups.length ≤ other.groups.length
  sizeOf : other.sizeOf = tree.sizeOf
  members : ∀ groupID, groupID ≠ 0 → other.members groupID = tree.members groupID

variable {tree : AssetGroupTree}

theorem Relinked.refl (tree : AssetGroupTree) : tree.Relinked tree where
  assets := rfl
  perGroup_le := le_rfl
  length_le := le_rfl
  sizeOf := rfl
  members := fun _ _ => rfl

theorem Relinked.trans {other third : AssetGroupTree} (first : tree.Relinked other)
    (second : other.Relinked third) : tree.Relinked third where
  assets := second.assets.trans first.assets
  perGroup_le := first.perGroup_le.trans second.perGroup_le
  length_le := first.length_le.trans second.length_le
  sizeOf := second.sizeOf.trans first.sizeOf
  members := fun groupID isGroup =>
    (second.members groupID isGroup).trans (first.members groupID isGroup)

theorem Placed.relinked {other : AssetGroupTree} {placed : Nat} (held : tree.Placed placed)
    (relinked : tree.Relinked other) : other.Placed placed where
  coherent := by
    rw [relinked.assets]
    exact held.coherent
  refs_nodup := by
    rw [relinked.assets]
    exact held.refs_nodup
  placed_le := by
    rw [relinked.assets]
    exact held.placed_le
  inGroup := by
    intro assetID before
    obtain ⟨groupID, isGroup, live, stored, member⟩ := held.inGroup assetID before
    refine ⟨groupID, isGroup, live.trans_le relinked.length_le, ?_, ?_⟩
    · rw [relinked.assets]
      exact stored
    · rw [relinked.members groupID isGroup]
      exact member
  listed := by
    intro groupID isGroup assetID member
    rw [relinked.members groupID isGroup] at member
    rw [relinked.assets]
    exact held.listed groupID isGroup assetID member
  members_nodup := by
    intro groupID isGroup
    rw [relinked.members groupID isGroup]
    exact held.members_nodup groupID isGroup

/-! ## Links -/

theorem Relinked.withNext (tree : AssetGroupTree) (groupID next : Nat) :
    tree.Relinked (tree.withNext groupID next) where
  assets := rfl
  perGroup_le := le_rfl
  length_le := by simp [AssetGroupTree.withNext]
  sizeOf := sizeOf_withNext groupID next
  members := fun _ _ => members_withRow fun _ _ => rfl

theorem Relinked.withHead (tree : AssetGroupTree) (size number : Nat) :
    tree.Relinked (tree.withSlot 0 size number) where
  assets := rfl
  perGroup_le := le_rfl
  length_le := by simp [AssetGroupTree.withSlot]
  sizeOf := sizeOf_withSlot 0 size number
  members := by
    intro groupID isGroup
    apply members_withRow
    intro isZero
    exact absurd isZero.symm isGroup

/-- The tree after `shiftGroup`. -/
def shifted (tree : AssetGroupTree) (groupID size assets : Nat) : AssetGroupTree :=
  if size + assets < tree.assetsPerGroup then
    ((tree.withSlot 0 size (tree.nextOf groupID)).withNext groupID
      (tree.headOf (size + assets))).withSlot 0 (size + assets) groupID
  else (tree.withSlot 0 size (tree.nextOf groupID)).withNext groupID 0

theorem shiftGroup_eq {groupID size assets : Nat} (shaped : tree.Shaped)
    (isGroup : groupID ≠ 0) (live : groupID < tree.groups.length)
    (inside : size < tree.assetsPerGroup) (some : 0 < assets) :
    tree.shiftGroup groupID size assets = .ok (tree.shifted groupID size assets) := by
  obtain ⟨row, -, read, number, -, next, -⟩ := shaped.row_of_lt live
  have popped := setSlot_eq shaped shaped.groups_pos inside row.nextGroup
  have poppedShaped := shaped.withSlot 0 size row.nextGroup
  have poppedLive : groupID < (tree.withSlot 0 size row.nextGroup).groups.length := by
    rw [withSlot, length_withRow]
    exact live
  rw [shiftGroup, read]
  simp only [bind, Except.bind, popped]
  by_cases room : size + assets < tree.assetsPerGroup
  · have stillRoom : size + assets < (tree.withSlot 0 size row.nextGroup).assetsPerGroup := room
    have head := poppedShaped.getSlot_zero stillRoom
    have linkedShaped := poppedShaped.withNext isGroup
      ((tree.withSlot 0 size row.nextGroup).headOf (size + assets))
    have pushed := @setSlot_eq _ 0 (size + assets) linkedShaped linkedShaped.groups_pos
      room row.thisGroup
    have apart : size + assets ≠ size := by omega
    have sameHead : (tree.withSlot 0 size row.nextGroup).headOf (size + assets) =
        tree.headOf (size + assets) := by
      rw [headOf_withSlot shaped inside, Function.update_of_ne apart]
    rw [if_pos stillRoom, shifted, if_pos room, head]
    simp only [editGroupRow_eq poppedLive]
    rw [sameHead] at pushed ⊢
    rw [number, next] at pushed
    rw [number, next]
    exact pushed
  · have full : ¬ size + assets < (tree.withSlot 0 size row.nextGroup).assetsPerGroup := room
    rw [if_neg full, shifted, if_neg room, editGroupRow_eq poppedLive, next]
    rfl

theorem Relinked.shifted (tree : AssetGroupTree) (groupID size assets : Nat) :
    tree.Relinked (tree.shifted groupID size assets) := by
  have popped := Relinked.withHead tree size (tree.nextOf groupID)
  unfold AssetGroupTree.shifted
  split
  · exact (popped.trans (.withNext _ _ _)).trans (.withHead _ _ _)
  · exact popped.trans (.withNext _ _ _)

theorem Shaped.shifted {groupID : Nat} (shaped : tree.Shaped) (isGroup : groupID ≠ 0)
    (size assets : Nat) : (tree.shifted groupID size assets).Shaped := by
  have linked := fun next =>
    (shaped.withSlot 0 size (tree.nextOf groupID)).withNext isGroup next
  unfold AssetGroupTree.shifted
  split
  · exact (linked _).withSlot _ _ _
  · exact linked _

@[simp]
theorem length_shifted (groupID size assets : Nat) :
    (tree.shifted groupID size assets).groups.length = tree.groups.length := by
  unfold shifted
  split <;> simp [withSlot, withNext]

@[simp]
theorem assetsPerGroup_shifted (groupID size assets : Nat) :
    (tree.shifted groupID size assets).assetsPerGroup = tree.assetsPerGroup := by
  unfold shifted
  split <;> rfl

theorem nextOf_shifted {groupID size assets : Nat} (live : groupID < tree.groups.length) :
    (tree.shifted groupID size assets).nextOf = Function.update tree.nextOf groupID
      (if size + assets < tree.assetsPerGroup then tree.headOf (size + assets) else 0) := by
  have poppedLive : groupID <
      (tree.withSlot 0 size (tree.nextOf groupID)).groups.length := by
    rw [withSlot, length_withRow]
    exact live
  unfold shifted
  split
  · rw [nextOf_withSlot, nextOf_withNext poppedLive, nextOf_withSlot]
  · rw [nextOf_withNext poppedLive, nextOf_withSlot]

theorem headOf_shifted {groupID size assets : Nat} (shaped : tree.Shaped)
    (isGroup : groupID ≠ 0) (inside : size < tree.assetsPerGroup) :
    (tree.shifted groupID size assets).headOf =
      if size + assets < tree.assetsPerGroup then
        Function.update (Function.update tree.headOf size (tree.nextOf groupID))
          (size + assets) groupID
      else Function.update tree.headOf size (tree.nextOf groupID) := by
  have linkedHead : ∀ next, ((tree.withSlot 0 size (tree.nextOf groupID)).withNext groupID
      next).headOf = Function.update tree.headOf size (tree.nextOf groupID) := by
    intro next
    rw [headOf_withNext, headOf_withSlot shaped inside]
  unfold shifted
  split
  · rename_i room
    rw [headOf_withSlot ((shaped.withSlot _ _ _).withNext isGroup _) room, linkedHead]
  · rw [linkedHead]

/-- Taking the first group of a list and putting it into the list of more assets keeps the lists,
with the larger size assumed for the group. -/
theorem Listed.shifted {groupID assets : Nat} {assumed : Nat → Nat} (listed : tree.Listed assumed)
    (shaped : tree.Shaped) (isGroup : groupID ≠ 0) (live : groupID < tree.groups.length)
    (isHead : tree.headOf (assumed groupID) = groupID) (some : 0 < assets)
    (fits : assumed groupID + assets ≤ tree.assetsPerGroup) :
    (tree.shifted groupID (assumed groupID) assets).Listed
      (Function.update assumed groupID (assumed groupID + assets)) := by
  have inside : assumed groupID < tree.assetsPerGroup := by omega
  have notStop : tree.headOf (assumed groupID) ≠ 0 := by
    rw [isHead]
    exact isGroup
  have alone : ∀ other, tree.InList assumed other (tree.headOf (assumed groupID)) →
      other = assumed groupID := by
    intro other inList
    rw [isHead] at inList
    exact inList.2.2.2.symm
  have nextEq := @nextOf_shifted _ _ (assumed groupID) assets live
  have headEq := @headOf_shifted _ _ _ assets shaped isGroup inside
  refine ⟨?_, ?_, ?_⟩
  · by_cases room : assumed groupID + assets < tree.assetsPerGroup
    · have apart : assumed groupID + assets ≠ assumed groupID := by omega
      have moved := listed.bucketed.move notStop alone apart
      rw [isHead] at moved
      rw [nextEq, headEq, if_pos room, if_pos room]
      apply moved.congr
      intro size other
      rw [InList, InList, assetsPerGroup_shifted, length_shifted, Function.update_apply]
      split
      · rename_i same
        subst same
        constructor
        · rintro (⟨-, different⟩ | ⟨rfl, -⟩)
          · exact absurd rfl different
          · exact ⟨room, isGroup, live, rfl⟩
        · rintro ⟨-, -, -, rfl⟩
          exact Or.inr ⟨rfl, rfl⟩
      · rename_i different
        simp [different]
    · have popped := listed.bucketed.pop notStop alone 0
      rw [isHead] at popped
      rw [nextEq, headEq, if_neg room, if_neg room]
      apply popped.congr
      intro size other
      rw [InList, InList, assetsPerGroup_shifted, length_shifted, Function.update_apply]
      split
      · rename_i same
        subst same
        constructor
        · rintro ⟨-, different⟩
          exact absurd rfl different
        · rintro ⟨sizeInside, -, -, rfl⟩
          exact absurd sizeInside room
      · rename_i different
        simp [different]
  · intro other otherLive
    rw [length_shifted] at otherLive
    rw [assetsPerGroup_shifted, Function.update_apply]
    split
    · exact fits
    · exact listed.assumed_le other otherLive
  · intro other otherLive isFull
    rw [length_shifted] at otherLive
    rw [assetsPerGroup_shifted, Function.update_apply] at isFull
    rw [nextEq, Function.update_apply]
    split
    · rename_i same
      rw [if_pos same] at isFull
      rw [if_neg (by omega)]
    · rename_i different
      rw [if_neg different] at isFull
      exact listed.full_unlinked other otherLive isFull

end AssetGroupTree

end HdacNode
