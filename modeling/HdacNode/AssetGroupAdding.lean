import HdacNode.AssetGroupResize

/-!
# Adding assets to the groups

A new asset is stored first and then written into the best group.  A buffer is
searched for assets that have a group already, while the new ones are stored
behind the others; these go into one group together, or one by one when no
group has the room for all.
-/

namespace HdacNode

namespace AssetGroupTree

variable {tree : AssetGroupTree}

/-! ## New rows -/

/-- The tree with new assets stored that have no group yet. -/
def addAssetRows (tree : AssetGroupTree) (refs : List Bytes) : AssetGroupTree :=
  { tree with
    assets := refs.foldl (fun assets ref => assets.add AssetRow.ref ⟨ref, 0⟩) tree.assets }

/-- The group stored for an asset, zero when it is not known. -/
def knownGroup (tree : AssetGroupTree) (ref : Bytes) : Int :=
  ((tree.assets.lookup AssetRow.ref ref).map AssetRow.group).getD 0

/-- The references of the known assets. -/
def refs (tree : AssetGroupTree) : List Bytes :=
  tree.assets.rows.map AssetRow.ref

theorem addAssetRows_cons (ref : Bytes) (refs : List Bytes) :
    tree.addAssetRows (ref :: refs) = (tree.addAssetRow ⟨ref, 0⟩).addAssetRows refs :=
  rfl

@[simp]
theorem refs_addAssetRow (row : AssetRow) :
    (tree.addAssetRow row).refs = tree.refs ++ [row.ref] := by
  simp [refs, addAssetRow]

@[simp]
theorem refs_addAssetRows (news : List Bytes) :
    (tree.addAssetRows news).refs = tree.refs ++ news := by
  induction news generalizing tree with
  | nil => simp [addAssetRows]
  | cons ref news ih =>
      rw [addAssetRows_cons, ih, refs_addAssetRow]
      simp

theorem count_eq_length_refs : tree.assets.count = tree.refs.length := by
  rw [refs, List.length_map, RowBuffer.rows_length]

/-- Rows behind the placed assets do not matter to the groups. -/
theorem Placed.addAssetRow {placed : Nat} (held : tree.Placed placed) {row : AssetRow}
    (unknown : row.ref ∉ tree.refs) : (tree.addAssetRow row).Placed placed := by
  have sameRow : ∀ assetID < placed,
      (tree.addAssetRow row).assets.getRow assetID = tree.assets.getRow assetID := by
    intro assetID before
    exact RowBuffer.getRow_add_of_lt (before.trans_le held.placed_le) row
  refine ⟨RowBuffer.coherent_add row held.coherent, ?_, ?_, ?_, ?_, held.members_nodup⟩
  · have nodup : (tree.addAssetRow row).refs.Nodup := by
      rw [refs_addAssetRow, List.nodup_append]
      refine ⟨held.refs_nodup, List.nodup_singleton _, ?_⟩
      intro ref member other otherMember
      rw [List.mem_singleton.1 otherMember]
      rintro rfl
      exact unknown member
    exact nodup
  · have := held.placed_le
    change placed ≤ tree.assets.count + 1
    omega
  · intro assetID before
    rw [sameRow assetID before]
    exact held.inGroup assetID before
  · intro groupID isGroup assetID member
    obtain ⟨before, stored⟩ := held.listed groupID isGroup assetID member
    rw [sameRow assetID before]
    exact ⟨before, stored⟩

theorem Placed.addAssetRows {placed : Nat} {news : List Bytes} (held : tree.Placed placed)
    (nodup : news.Nodup) (unknown : ∀ ref ∈ news, ref ∉ tree.refs) :
    (tree.addAssetRows news).Placed placed := by
  induction news generalizing tree with
  | nil => exact held
  | cons ref news ih =>
      obtain ⟨notAgain, restNodup⟩ := List.nodup_cons.1 nodup
      rw [addAssetRows_cons]
      apply ih (held.addAssetRow (unknown ref (by simp))) restNodup
      intro other member
      rw [refs_addAssetRow, List.mem_append, not_or]
      refine ⟨unknown other (by simp [member]), ?_⟩
      rw [List.mem_singleton]
      rintro rfl
      exact notAgain member

/-- Taking stored rows back leaves the groups as they are. -/
theorem Placed.rewind {placed : Nat} (held : tree.Placed placed) :
    (tree.rewind placed).Placed placed := by
  have sameRow : ∀ assetID < placed,
      (tree.rewind placed).assets.getRow assetID = tree.assets.getRow assetID := by
    intro assetID before
    exact RowBuffer.getRow_setCount before held.placed_le
  refine ⟨RowBuffer.coherent_setCount held.coherent held.placed_le, ?_, ?_, ?_, ?_,
    held.members_nodup⟩
  · change ((tree.assets.setCount AssetRow.ref placed).rows.map AssetRow.ref).Nodup
    rw [RowBuffer.rows_setCount held.placed_le, List.map_take]
    exact held.refs_nodup.sublist (List.take_sublist _ _)
  · change placed ≤ (tree.assets.setCount AssetRow.ref placed).count
    rw [RowBuffer.count_setCount]
  · intro assetID before
    rw [sameRow assetID before]
    exact held.inGroup assetID before
  · intro groupID isGroup assetID member
    obtain ⟨before, stored⟩ := held.listed groupID isGroup assetID member
    rw [sameRow assetID before]
    exact ⟨before, stored⟩

theorem refs_rewind {count : Nat} (kept : count ≤ tree.assets.count) :
    (tree.rewind count).refs = tree.refs.take count := by
  change (tree.assets.setCount AssetRow.ref count).rows.map AssetRow.ref = _
  rw [RowBuffer.rows_setCount kept, List.map_take]
  rfl

theorem Relinked.refs {other : AssetGroupTree} (relinked : tree.Relinked other) :
    other.refs = tree.refs := by
  rw [AssetGroupTree.refs, relinked.assets, AssetGroupTree.refs]

theorem refs_withAsset (groupID assetID : Nat) :
    (tree.withAsset groupID assetID).refs = tree.refs :=
  RowBuffer.keys_overwrite rfl

/-! ## One asset -/

/-- Storing one new asset enlarges the groups and opens a new one only where this is safe. -/
def CarefulAdd (tree : AssetGroupTree) : Prop :=
  tree.EnlargesCarefully (tree.assets.count + 1) ∧
    tree.OpensCarefully (tree.resizedTo (tree.assets.count + 1)) 1

theorem OpensCarefully.congr {other : AssetGroupTree} {perGroup assets : Nat}
    (careful : tree.OpensCarefully perGroup assets)
    (sameLength : other.groups.length = tree.groups.length)
    (sameSizes : other.sizeOf = tree.sizeOf) : other.OpensCarefully perGroup assets := by
  intro fits needed
  rw [sameLength]
  apply careful fits
  intro groupID live isGroup
  rw [← sameSizes]
  apply needed groupID _ isGroup
  rw [sameLength]
  exact live

/-- The assets written into a chosen group leave the tree settled. -/
theorem Chosen.settled {other : AssetGroupTree} {groupID placed fresh : Nat}
    (chosen : tree.Chosen other groupID fresh) (held : tree.Placed placed)
    (all : tree.assets.count = placed + fresh) :
    ∃ third, (List.range' placed fresh).foldlM
        (fun tree assetID => tree.listAsset groupID assetID) other = .ok third ∧
      third.Settled ∧ groupID < third.groups.length := by
  have otherHeld := held.relinked chosen.relinked
  have stored : placed + fresh ≤ other.assets.count := by
    rw [chosen.relinked.assets, all]
  obtain ⟨third, written, thirdHeld, thirdShaped, thirdListed, sizes, count, live⟩ :=
    listAssets_spec chosen.isGroup other placed otherHeld chosen.shaped chosen.listed chosen.live
      chosen.room stored
  refine ⟨third, written, ⟨thirdShaped, ?_, ?_⟩, live⟩
  · rw [sizes]
    exact thirdListed
  · rw [count, chosen.relinked.assets, all]
    exact thirdHeld

/-- A careful addition of one asset leaves the tree settled. -/
theorem addAsset_spec {ref : Bytes} (settled : tree.Settled) (unknown : ref ∉ tree.refs)
    (careful : tree.CarefulAdd) :
    ∃ other, tree.addAsset ref = .ok (0, other) ∧ other.Settled ∧
      other.refs = tree.refs ++ [ref] := by
  obtain ⟨grown, resized, relinked, grownShaped, grownListed, sameLength, room, -⟩ :=
    resize_spec settled.listed settled.shaped careful.1
  have grownHeld := settled.placed.relinked relinked
  have stillUnknown : ref ∉ grown.refs := by
    rw [relinked.refs]
    exact unknown
  have storedHeld := @Placed.addAssetRow _ _ grownHeld ⟨ref, 0⟩ stillUnknown
  have storedShaped : (grown.addAssetRow ⟨ref, 0⟩).Shaped := grownShaped.withAssets _
  have storedListed : (grown.addAssetRow ⟨ref, 0⟩).Listed
      (grown.addAssetRow ⟨ref, 0⟩).sizeOf :=
    ⟨grownListed.bucketed, grownListed.assumed_le, grownListed.full_unlinked⟩
  have opens : (grown.addAssetRow ⟨ref, 0⟩).OpensCarefully
      (grown.addAssetRow ⟨ref, 0⟩).assetsPerGroup 1 := by
    change (grown.addAssetRow ⟨ref, 0⟩).OpensCarefully grown.assetsPerGroup 1
    rw [room]
    exact careful.2.congr sameLength relinked.sizeOf
  obtain ⟨groupID, other, found, chosen⟩ := findAndShiftBestGroup_spec storedListed storedShaped
    Nat.one_pos storedShaped.perGroup_pos opens
  have sameCount : grown.assets.count = tree.assets.count := by
    rw [relinked.assets]
  have all : (grown.addAssetRow ⟨ref, 0⟩).assets.count = tree.assets.count + 1 := by
    change grown.assets.count + 1 = _
    rw [sameCount]
  obtain ⟨third, written, thirdSettled, -⟩ := chosen.settled storedHeld all
  have otherHeld := storedHeld.relinked chosen.relinked
  have writtenOnce := @listAsset_eq _ _ tree.assets.count chosen.shaped chosen.live
    (Nat.lt_of_succ_le chosen.room)
  have isThird : third = other.withAsset groupID tree.assets.count := by
    rw [List.range'_succ, List.foldlM_cons, writtenOnce] at written
    exact (Except.ok.inj written).symm
  refine ⟨third, ?_, thirdSettled, ?_⟩
  · simp [addAsset, resized, found, sameCount, writtenOnce, isThird, bind, Except.bind, pure,
      Except.pure]
  · rw [isThird, refs_withAsset, chosen.relinked.refs, refs_addAssetRow, relinked.refs]

/-- Each of the assets is added carefully to the tree that the earlier ones lead to. -/
def CarefulAdds : List Bytes → AssetGroupTree → Prop
  | [], _ => True
  | ref :: news, tree =>
      tree.CarefulAdd ∧ ∀ result, tree.addAsset ref = .ok result → CarefulAdds news result.2

theorem seek_eq_none_iff {placed : Nat} (held : tree.Placed placed) (ref : Bytes) :
    tree.assets.seek AssetRow.ref ref = none ↔ ref ∉ tree.refs := by
  rw [refs, ← RowBuffer.lookup_eq_none_iff held.coherent, RowBuffer.lookup, Option.map_eq_none_iff]

theorem getGroupOfAsset_of_unknown {placed : Nat} {ref : Bytes} (held : tree.Placed placed)
    (shaped : tree.Shaped) (unknown : ref ∉ tree.refs) :
    tree.getGroupOfAsset ref true = tree.addAsset ref := by
  have some : tree.assetsPerGroup ≠ 0 := by
    have := shaped.perGroup_pos
    omega
  have notFound := (seek_eq_none_iff held ref).2 unknown
  simp [getGroupOfAsset, some, notFound]

theorem addOneByOne_spec {news : List Bytes} (settled : tree.Settled) (nodup : news.Nodup)
    (unknown : ∀ ref ∈ news, ref ∉ tree.refs) (careful : CarefulAdds news tree) :
    ∃ other, addOneByOne news tree = .ok (0, other) ∧ other.Settled := by
  induction news generalizing tree with
  | nil => exact ⟨tree, rfl, settled⟩
  | cons ref news ih =>
      obtain ⟨notAgain, restNodup⟩ := List.nodup_cons.1 nodup
      have refUnknown := unknown ref (by simp)
      obtain ⟨next, added, nextSettled, nextRefs⟩ :=
        addAsset_spec settled refUnknown careful.1
      have restUnknown : ∀ other ∈ news, other ∉ next.refs := by
        intro other member
        rw [nextRefs, List.mem_append, not_or]
        refine ⟨unknown other (by simp [member]), ?_⟩
        rw [List.mem_singleton]
        rintro rfl
        exact notAgain member
      obtain ⟨last, addedAll, lastSettled⟩ :=
        ih nextSettled restNodup restUnknown (careful.2 (0, next) added)
      refine ⟨last, ?_, lastSettled⟩
      have called := getGroupOfAsset_of_unknown settled.placed settled.shaped refUnknown
      simp [addOneByOne, called, added, addedAll, bind, Except.bind]

end AssetGroupTree

end HdacNode
