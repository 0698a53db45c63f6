import HdacNode.AssetGroupInvariant

/-!
# Steps on the asset groups

Choosing a group for new assets keeps the lists, with the size that the group is
about to have assumed for it, as long as no group row has to be added when the
memory of the buffer is used up.  Writing the assets into the chosen group makes
the assumption true.
-/

namespace HdacNode

namespace AssetGroupTree

variable {tree : AssetGroupTree}

/-! ## A new group -/

/-- The tree with an empty group behind the others. -/
def withGroup (tree : AssetGroupTree) : AssetGroupTree :=
  { tree with
    groups := tree.groups ++
      [⟨tree.groups.length, 0, 0, List.replicate tree.assetsPerGroup 0⟩] }

theorem getElem?_withGroup (groupID : Nat) :
    tree.withGroup.groups[groupID]? =
      if groupID = tree.groups.length then
        some ⟨tree.groups.length, 0, 0, List.replicate tree.assetsPerGroup 0⟩
      else tree.groups[groupID]? := by
  rw [withGroup, List.getElem?_append]
  by_cases live : groupID < tree.groups.length
  · rw [if_pos live, if_neg (by omega)]
  · rw [if_neg live]
    split
    · rename_i isLast
      simp [isLast]
    · have behind : tree.groups.length ≤ groupID := by omega
      rw [List.getElem?_eq_none behind]
      apply List.getElem?_eq_none
      simp
      omega

@[simp]
theorem length_withGroup : tree.withGroup.groups.length = tree.groups.length + 1 := by
  simp [withGroup]

@[simp]
theorem nextOf_withGroup : tree.withGroup.nextOf = tree.nextOf := by
  funext groupID
  rw [nextOf, getElem?_withGroup, nextOf]
  split
  · rename_i isLast
    simp [isLast]
  · rfl

@[simp]
theorem sizeOf_withGroup : tree.withGroup.sizeOf = tree.sizeOf := by
  funext groupID
  rw [sizeOf, getElem?_withGroup, sizeOf]
  split
  · rename_i isLast
    simp [isLast]
  · rfl

@[simp]
theorem members_withGroup (groupID : Nat) :
    tree.withGroup.members groupID = tree.members groupID := by
  rw [members, getElem?_withGroup, members]
  split
  · rename_i isLast
    simp [isLast]
  · rfl

theorem headOf_withGroup (some : 0 < tree.groups.length) :
    tree.withGroup.headOf = tree.headOf := by
  funext size
  rw [headOf, getElem?_withGroup, headOf, if_neg (by omega)]

theorem Shaped.withGroup (shaped : tree.Shaped) : tree.withGroup.Shaped where
  perGroup_pos := shaped.perGroup_pos
  perGroup_le := shaped.perGroup_le
  optimal_pos := shaped.optimal_pos
  groups_pos := by simp
  slots_length := by
    intro row member
    rcases List.mem_append.1 member with old | new
    · exact shaped.slots_length row old
    · rw [List.mem_singleton.1 new]
      exact List.length_replicate
  numbered := by
    intro groupID row stored
    rw [getElem?_withGroup] at stored
    split at stored
    · rename_i isLast
      rw [← Option.some.inj stored, isLast]
    · exact shaped.numbered groupID row stored
  sizeOf_zero := by
    rw [sizeOf_withGroup]
    exact shaped.sizeOf_zero
  nextOf_zero := by
    rw [nextOf_withGroup]
    exact shaped.nextOf_zero

/-- The tree after `addGroup`. -/
def opened (tree : AssetGroupTree) : AssetGroupTree :=
  (tree.withSlot 0 0 tree.groups.length).withGroup

theorem addGroup_eq (shaped : tree.Shaped)
    (room : tree.groups.length < allocatedRows tree.groups.length) :
    tree.addGroup = .ok tree.opened := by
  have written := setSlot_eq shaped shaped.groups_pos shaped.perGroup_pos tree.groups.length
  have sameLength : (tree.withSlot 0 0 tree.groups.length).groups.length =
      tree.groups.length := by
    rw [withSlot, length_withRow]
  have zeros : ¬ tree.maxAssetsPerGroup < tree.assetsPerGroup := by
    have := shaped.perGroup_le
    omega
  have inPlace : ¬ allocatedRows tree.groups.length < tree.groups.length + 1 := by omega
  simp only [addGroup, zeros, written, bind, Except.bind, pure, Except.pure, sameLength, inPlace,
    if_false, opened, withGroup]

theorem Relinked.opened (tree : AssetGroupTree) : tree.Relinked tree.opened where
  assets := rfl
  perGroup_le := le_rfl
  length_le := by simp [AssetGroupTree.opened, withSlot]
  sizeOf := by rw [AssetGroupTree.opened, sizeOf_withGroup, sizeOf_withSlot]
  members := by
    intro groupID isGroup
    rw [AssetGroupTree.opened, members_withGroup]
    exact (Relinked.withHead tree 0 tree.groups.length).members groupID isGroup

theorem length_opened : tree.opened.groups.length = tree.groups.length + 1 := by
  simp [opened, withSlot]

theorem sizeOf_of_length_le {groupID : Nat} (behind : tree.groups.length ≤ groupID) :
    tree.sizeOf groupID = 0 := by
  simp [sizeOf, List.getElem?_eq_none behind]

theorem nextOf_of_length_le {groupID : Nat} (behind : tree.groups.length ≤ groupID) :
    tree.nextOf groupID = 0 := by
  simp [nextOf, List.getElem?_eq_none behind]

theorem headOf_opened (shaped : tree.Shaped) :
    tree.opened.headOf = Function.update tree.headOf 0 tree.groups.length := by
  have stillSome : 0 < (tree.withSlot 0 0 tree.groups.length).groups.length := by
    rw [withSlot, length_withRow]
    exact shaped.groups_pos
  rw [opened, headOf_withGroup stillSome, headOf_withSlot shaped shaped.perGroup_pos]

/-- A new group is the only empty one when no other is in the list of empty groups. -/
theorem Listed.opened (listed : tree.Listed tree.sizeOf) (shaped : tree.Shaped)
    (noEmpty : tree.headOf 0 = 0) : tree.opened.Listed tree.opened.sizeOf := by
  have sizes : tree.opened.sizeOf = tree.sizeOf := (Relinked.opened tree).sizeOf
  have links : tree.opened.nextOf = tree.nextOf := by
    rw [AssetGroupTree.opened, nextOf_withGroup, nextOf_withSlot]
  have newEmpty := sizeOf_of_length_le (le_refl tree.groups.length)
  have newUnlinked := nextOf_of_length_le (le_refl tree.groups.length)
  refine ⟨?_, ?_, ?_⟩
  · have notStop : tree.groups.length ≠ 0 := by
      have := shaped.groups_pos
      omega
    have pushed := listed.bucketed.push 0 notStop
      (fun size inList => Nat.lt_irrefl _ inList.2.2.1)
    have sameLinks : Function.update tree.nextOf tree.groups.length 0 = tree.nextOf := by
      rw [← newUnlinked, Function.update_eq_self]
    rw [noEmpty, sameLinks] at pushed
    rw [links, headOf_opened shaped, sizes]
    apply pushed.congr
    intro size groupID
    rw [InList, InList, length_opened]
    constructor
    · rintro (⟨inside, isGroup, live, sized⟩ | ⟨rfl, rfl⟩)
      · exact ⟨inside, isGroup, by omega, sized⟩
      · exact ⟨shaped.perGroup_pos, notStop, by omega, newEmpty⟩
    · rintro ⟨inside, isGroup, live, rfl⟩
      by_cases isLast : groupID = tree.groups.length
      · subst isLast
        exact Or.inr ⟨newEmpty, rfl⟩
      · exact Or.inl ⟨inside, isGroup, by omega, rfl⟩
  · intro groupID live
    rw [sizes]
    by_cases isLast : groupID = tree.groups.length
    · rw [isLast, newEmpty]
      exact Nat.zero_le _
    · rw [length_opened] at live
      exact listed.assumed_le groupID (by omega)
  · intro groupID live isFull
    rw [sizes] at isFull
    rw [links]
    by_cases isLast : groupID = tree.groups.length
    · rw [isLast, newUnlinked]
    · rw [length_opened] at live
      exact listed.full_unlinked groupID (by omega) isFull

/-! ## The best group -/

theorem findUnderfilled_spec (shaped : tree.Shaped) {size : Nat}
    (inside : size < tree.assetsPerGroup) :
    (∃ found, tree.findUnderfilled size = .ok (some found) ∧ found ≤ size ∧
      tree.headOf found ≠ 0) ∨
    (tree.findUnderfilled size = .ok none ∧ ∀ smaller ≤ size, tree.headOf smaller = 0) := by
  induction size with
  | zero =>
      have read := shaped.getSlot_zero inside
      by_cases listed : tree.headOf 0 ≠ 0
      · refine Or.inl ⟨0, ?_, le_rfl, listed⟩
        simp [findUnderfilled, read, listed, bind, Except.bind, pure, Except.pure]
      · refine Or.inr ⟨?_, ?_⟩
        · simp [findUnderfilled, read, listed, bind, Except.bind, pure, Except.pure]
        · intro smaller atMost
          obtain rfl := Nat.le_zero.1 atMost
          simpa using listed
  | succ size ih =>
      have read := shaped.getSlot_zero inside
      by_cases listed : tree.headOf (size + 1) ≠ 0
      · refine Or.inl ⟨size + 1, ?_, le_rfl, listed⟩
        simp [findUnderfilled, read, listed, bind, Except.bind, pure, Except.pure]
      · have goesOn : tree.findUnderfilled (size + 1) = tree.findUnderfilled size := by
          simp [findUnderfilled, read, listed, bind, Except.bind]
        rcases ih (by omega) with ⟨found, searched, atMost, isListed⟩ | ⟨searched, none⟩
        · exact Or.inl ⟨found, goesOn.trans searched, by omega, isListed⟩
        · refine Or.inr ⟨goesOn.trans searched, ?_⟩
          intro smaller atMost
          rcases Nat.lt_or_eq_of_le atMost with before | rfl
          · exact none smaller (by omega)
          · simpa using listed

/-- A group with the room for some assets was taken, and is in the list of the size it will have
with them. -/
structure Chosen (tree other : AssetGroupTree) (groupID assets : Nat) : Prop where
  isGroup : groupID ≠ 0
  live : groupID < other.groups.length
  room : other.sizeOf groupID + assets ≤ other.assetsPerGroup
  perGroup : other.assetsPerGroup = tree.assetsPerGroup
  relinked : tree.Relinked other
  shaped : other.Shaped
  listed : other.Listed
    (Function.update other.sizeOf groupID (other.sizeOf groupID + assets))

/-- Shifting the first group of a list chooses it. -/
theorem Listed.chosen_shifted {groupID assets : Nat} (listed : tree.Listed tree.sizeOf)
    (shaped : tree.Shaped) (isGroup : groupID ≠ 0) (live : groupID < tree.groups.length)
    (isHead : tree.headOf (tree.sizeOf groupID) = groupID) (some : 0 < assets)
    (fits : tree.sizeOf groupID + assets ≤ tree.assetsPerGroup) :
    tree.Chosen (tree.shifted groupID (tree.sizeOf groupID) assets) groupID assets := by
  have relinked := Relinked.shifted tree groupID (tree.sizeOf groupID) assets
  refine ⟨isGroup, ?_, ?_, ?_, relinked, shaped.shifted isGroup _ _, ?_⟩
  · rw [length_shifted]
    exact live
  · rw [relinked.sizeOf, assetsPerGroup_shifted]
    exact fits
  · rw [assetsPerGroup_shifted]
  · rw [relinked.sizeOf]
    exact listed.shifted shaped isGroup live isHead some fits

/-- No group has the room for some assets. -/
def NeedsGroup (tree : AssetGroupTree) (perGroup assets : Nat) : Prop :=
  ∀ groupID < tree.groups.length, groupID ≠ 0 → perGroup < tree.sizeOf groupID + assets

/-- A row for a new group fits into the memory of the buffer, where one is needed. -/
def OpensCarefully (tree : AssetGroupTree) (perGroup assets : Nat) : Prop :=
  assets ≤ perGroup → tree.NeedsGroup perGroup assets →
    tree.groups.length < allocatedRows tree.groups.length

/-- `FindAndShiftBestGroup` chooses a group when one can hold the assets. -/
theorem findAndShiftBestGroup_spec {assets : Nat} (listed : tree.Listed tree.sizeOf)
    (shaped : tree.Shaped) (some : 0 < assets) (fits : assets ≤ tree.assetsPerGroup)
    (careful : tree.OpensCarefully tree.assetsPerGroup assets) :
    ∃ groupID other, tree.findAndShiftBestGroup assets = .ok (Option.some groupID, other) ∧
      tree.Chosen other groupID assets := by
  have notTooMany : ¬ tree.assetsPerGroup < assets := by omega
  have inside : tree.assetsPerGroup - assets < tree.assetsPerGroup := by omega
  rcases findUnderfilled_spec shaped inside with
    ⟨size, searched, atMost, isListed⟩ | ⟨searched, allEmpty⟩
  · obtain ⟨sizeInside, isGroup, live, sized⟩ := listed.bucketed.holds_first isListed
    have isHead : tree.headOf (tree.sizeOf (tree.headOf size)) = tree.headOf size := by
      rw [sized]
    have chosen := listed.chosen_shifted shaped isGroup live isHead some (by omega)
    rw [sized] at chosen
    refine ⟨tree.headOf size, _, ?_, chosen⟩
    simp [findAndShiftBestGroup, notTooMany, searched, shaped.getSlot_zero sizeInside,
      shiftGroup_eq shaped isGroup live sizeInside some, bind, Except.bind, pure, Except.pure]
  · have needed : tree.NeedsGroup tree.assetsPerGroup assets := by
      intro groupID live isGroup
      by_contra fitsToo
      have empty := (listed.bucketed.first_eq_stop_iff (tree.sizeOf groupID)).1
        (allEmpty _ (by omega))
      exact empty groupID ⟨by omega, isGroup, live, rfl⟩
    have added := addGroup_eq shaped (careful fits needed)
    have openedShaped : tree.opened.Shaped := (shaped.withSlot 0 0 _).withGroup
    have openedListed := listed.opened shaped (allEmpty 0 (Nat.zero_le _))
    have relinked := Relinked.opened tree
    have newEmpty : tree.opened.sizeOf tree.groups.length = 0 := by
      rw [relinked.sizeOf, sizeOf_of_length_le le_rfl]
    have isGroup : tree.groups.length ≠ 0 := by
      have := shaped.groups_pos
      omega
    have live : tree.groups.length < tree.opened.groups.length := by
      rw [length_opened]
      omega
    have newHead : tree.opened.headOf 0 = tree.groups.length := by
      rw [headOf_opened shaped, Function.update_self]
    have isHead : tree.opened.headOf (tree.opened.sizeOf tree.groups.length) =
        tree.groups.length := by
      rw [newEmpty, newHead]
    have roomToo : tree.opened.sizeOf tree.groups.length + assets ≤
        tree.opened.assetsPerGroup := by
      rw [newEmpty, Nat.zero_add]
      exact fits
    have chosen := openedListed.chosen_shifted openedShaped isGroup live isHead some roomToo
    rw [newEmpty] at chosen
    have first := openedShaped.getSlot_zero openedShaped.perGroup_pos
    rw [newHead] at first
    have shift := shiftGroup_eq openedShaped isGroup live openedShaped.perGroup_pos some
    refine ⟨tree.groups.length, _, ?_, chosen.isGroup, chosen.live, chosen.room,
      chosen.perGroup, relinked.trans chosen.relinked, chosen.shaped, chosen.listed⟩
    simp [findAndShiftBestGroup, notTooMany, searched, added, first, shift, bind, Except.bind,
      pure, Except.pure]

/-! ## Writing the assets -/

/-- The tree after `listAsset`. -/
def withAsset (tree : AssetGroupTree) (groupID assetID : Nat) : AssetGroupTree :=
  ({ tree with
      assets := tree.assets.overwrite assetID
        { tree.assets.getRow assetID with group := groupID } }.withSlot groupID
    (tree.sizeOf groupID) assetID).withGrown groupID

theorem Shaped.withAssets (shaped : tree.Shaped) (assets : RowBuffer Bytes AssetRow) :
    { tree with assets := assets }.Shaped :=
  ⟨shaped.perGroup_pos, shaped.perGroup_le, shaped.optimal_pos, shaped.groups_pos,
    shaped.slots_length, shaped.numbered, shaped.sizeOf_zero, shaped.nextOf_zero⟩

theorem listAsset_eq {groupID assetID : Nat} (shaped : tree.Shaped)
    (live : groupID < tree.groups.length) (room : tree.sizeOf groupID < tree.assetsPerGroup) :
    tree.listAsset groupID assetID = .ok (tree.withAsset groupID assetID) := by
  obtain ⟨row, -, read, number, sized, -, -⟩ := shaped.row_of_lt live
  have written := setSlot_eq (shaped.withAssets (tree.assets.overwrite assetID
    { tree.assets.getRow assetID with group := groupID })) live room assetID
  have stillLive : groupID < ({ tree with
      assets := tree.assets.overwrite assetID
        { tree.assets.getRow assetID with group := groupID } }.withSlot groupID
      (tree.sizeOf groupID) assetID).groups.length := by
    rw [withSlot, length_withRow]
    exact live
  simp only [listAsset, read, number, sized, written, bind, Except.bind,
    editGroupRow_eq stillLive]
  rfl

theorem Shaped.withAsset {groupID : Nat} (shaped : tree.Shaped) (isGroup : groupID ≠ 0)
    (assetID : Nat) : (tree.withAsset groupID assetID).Shaped :=
  ((shaped.withAssets _).withSlot _ _ _).withGrown isGroup

@[simp]
theorem length_withAsset (groupID assetID : Nat) :
    (tree.withAsset groupID assetID).groups.length = tree.groups.length := by
  simp [withAsset, withGrown, withSlot]

theorem sizeOf_withAsset {groupID : Nat} (live : groupID < tree.groups.length) (assetID : Nat) :
    (tree.withAsset groupID assetID).sizeOf =
      Function.update tree.sizeOf groupID (tree.sizeOf groupID + 1) := by
  rw [withAsset, sizeOf_withGrown (by simpa [withSlot] using live), sizeOf_withSlot]
  rfl

/-- The lists do not depend on the members of the groups. -/
theorem Listed.withAsset {assumed : Nat → Nat} {groupID : Nat} (listed : tree.Listed assumed)
    (isGroup : groupID ≠ 0) (assetID : Nat) : (tree.withAsset groupID assetID).Listed assumed := by
  have links : (tree.withAsset groupID assetID).nextOf = tree.nextOf := by
    rw [AssetGroupTree.withAsset, nextOf_withGrown, nextOf_withSlot]
    rfl
  have heads : (tree.withAsset groupID assetID).headOf = tree.headOf := by
    rw [AssetGroupTree.withAsset, headOf_withGrown, AssetGroupTree.withSlot,
      headOf_withRow fun isZero => absurd isZero isGroup]
    rfl
  refine ⟨?_, ?_, ?_⟩
  · rw [links, heads]
    apply listed.bucketed.congr
    intro size other
    rw [InList, InList, length_withAsset]
    rfl
  · intro other live
    rw [length_withAsset] at live
    exact listed.assumed_le other live
  · intro other live isFull
    rw [length_withAsset] at live
    rw [links]
    exact listed.full_unlinked other live isFull

theorem members_withAsset {groupID : Nat} (shaped : tree.Shaped)
    (live : groupID < tree.groups.length) (room : tree.sizeOf groupID < tree.assetsPerGroup)
    (assetID other : Nat) :
    (tree.withAsset groupID assetID).members other =
      if other = groupID then tree.members groupID ++ [assetID] else tree.members other := by
  obtain ⟨row, stored, -, -, sized, -, length⟩ := shaped.row_of_lt live
  have slotInside : row.size < row.slots.length := by omega
  rw [members, withAsset, withGrown, getElem?_withRow, withSlot, getElem?_withRow]
  by_cases same : groupID = other
  · subst same
    have taken : (row.slots.set row.size assetID).take (row.size + 1) =
        row.slots.take row.size ++ [assetID] := by
      rw [List.take_add_one, List.take_set_of_le le_rfl, List.getElem?_set_self slotInside]
      rfl
    rw [← sized]
    simp [stored, members, taken]
  · have apart : other ≠ groupID := fun h => same h.symm
    simp [same, apart, members]

/-- Writing the first asset that has no group into a group places it. -/
theorem Placed.withAsset {groupID placed : Nat} (held : tree.Placed placed) (shaped : tree.Shaped)
    (isGroup : groupID ≠ 0) (live : groupID < tree.groups.length)
    (room : tree.sizeOf groupID < tree.assetsPerGroup) (stored : placed < tree.assets.count) :
    (tree.withAsset groupID placed).Placed (placed + 1) := by
  have sameRef : AssetRow.ref { tree.assets.getRow placed with group := groupID } =
      AssetRow.ref (tree.assets.getRow placed) := rfl
  have rowOf : ∀ assetID, (tree.withAsset groupID placed).assets.getRow assetID =
      if assetID = placed then { tree.assets.getRow placed with group := groupID }
      else tree.assets.getRow assetID :=
    fun assetID => RowBuffer.getRow_overwrite _ _ _ _
  have membersOf := members_withAsset shaped live room placed
  refine ⟨RowBuffer.coherent_overwrite held.coherent sameRef, ?_, stored, ?_, ?_, ?_⟩
  · have keys := RowBuffer.keys_overwrite sameRef
    have nodup := held.refs_nodup
    rw [← keys] at nodup
    exact nodup
  · intro assetID before
    rw [rowOf, length_withAsset]
    by_cases isNew : assetID = placed
    · rw [if_pos isNew, isNew]
      refine ⟨groupID, isGroup, live, rfl, ?_⟩
      rw [membersOf, if_pos rfl]
      simp
    · rw [if_neg isNew]
      obtain ⟨old, oldGroup, oldLive, oldStored, member⟩ :=
        held.inGroup assetID (by omega)
      refine ⟨old, oldGroup, oldLive, oldStored, ?_⟩
      rw [membersOf]
      split
      · rename_i same
        rw [← same]
        simp [member]
      · exact member
  · intro other otherGroup assetID member
    rw [membersOf] at member
    rw [rowOf]
    split at member
    · rename_i same
      subst same
      rcases List.mem_append.1 member with old | new
      · obtain ⟨before, oldStored⟩ := held.listed other otherGroup assetID old
        rw [if_neg (by omega)]
        exact ⟨by omega, oldStored⟩
      · rw [List.mem_singleton.1 new, if_pos rfl]
        exact ⟨by omega, rfl⟩
    · obtain ⟨before, oldStored⟩ := held.listed other otherGroup assetID member
      rw [if_neg (by omega)]
      exact ⟨by omega, oldStored⟩
  · intro other otherGroup
    rw [membersOf]
    split
    · rw [List.nodup_append]
      refine ⟨held.members_nodup groupID isGroup, List.nodup_singleton _, ?_⟩
      intro old oldMember new newMember
      have before := (held.listed groupID isGroup old oldMember).1
      rw [List.mem_singleton.1 newMember]
      omega
    · exact held.members_nodup other otherGroup

theorem listAssets_spec {groupID fresh : Nat} {assumed : Nat → Nat} (isGroup : groupID ≠ 0)
    (tree : AssetGroupTree) (placed : Nat) (held : tree.Placed placed) (shaped : tree.Shaped)
    (listed : tree.Listed assumed) (live : groupID < tree.groups.length)
    (room : tree.sizeOf groupID + fresh ≤ tree.assetsPerGroup)
    (stored : placed + fresh ≤ tree.assets.count) :
    ∃ other, (List.range' placed fresh).foldlM
        (fun tree assetID => tree.listAsset groupID assetID) tree = .ok other ∧
      other.Placed (placed + fresh) ∧ other.Shaped ∧ other.Listed assumed ∧
      other.sizeOf = Function.update tree.sizeOf groupID (tree.sizeOf groupID + fresh) ∧
      other.assets.count = tree.assets.count ∧ groupID < other.groups.length := by
  induction fresh generalizing tree placed with
  | zero => exact ⟨tree, rfl, held, shaped, listed, by simp, rfl, live⟩
  | succ fresh ih =>
      have roomNow : tree.sizeOf groupID < tree.assetsPerGroup := by omega
      have sizes := sizeOf_withAsset live placed
      have roomAfter : (tree.withAsset groupID placed).sizeOf groupID + fresh ≤
          (tree.withAsset groupID placed).assetsPerGroup := by
        rw [sizes, Function.update_self]
        change tree.sizeOf groupID + 1 + fresh ≤ tree.assetsPerGroup
        omega
      have storedAfter : placed + 1 + fresh ≤ (tree.withAsset groupID placed).assets.count := by
        change placed + 1 + fresh ≤ tree.assets.count
        omega
      obtain ⟨other, written, otherHeld, otherShaped, otherListed, otherSizes, otherCount,
          otherLive⟩ :=
        ih (tree.withAsset groupID placed) (placed + 1)
          (held.withAsset shaped isGroup live roomNow (by omega))
          (shaped.withAsset isGroup placed) (listed.withAsset isGroup placed)
          (by rw [length_withAsset]; exact live) roomAfter storedAfter
      refine ⟨other, ?_, ?_, otherShaped, otherListed, ?_, otherCount, otherLive⟩
      · rw [List.range'_succ, List.foldlM_cons, listAsset_eq shaped live roomNow]
        exact written
      · rw [Nat.add_right_comm] at otherHeld
        exact otherHeld
      · rw [otherSizes, sizes, Function.update_self, Function.update_idem, Nat.add_right_comm]
        rfl

end AssetGroupTree

end HdacNode
