import HdacNode.AssetGroups
import HdacNode.LinkedBuckets

/-!
# What the rows of an asset group tree say

The lists of groups are read off the heads in row 0 and the links in the other
rows, the members of a group off the used slots of its row.  Every write of
the source changes one of these at one place and leaves the others alone.
-/

namespace HdacNode

namespace AssetGroupTree

/-- The head of the list of groups with `size` assets. -/
def headOf (tree : AssetGroupTree) (size : Nat) : Nat :=
  ((tree.groups[0]?).bind fun row => row.slots[size]?).getD 0

/-- The group after a group in its list. -/
def nextOf (tree : AssetGroupTree) (groupID : Nat) : Nat :=
  ((tree.groups[groupID]?).map GroupRow.nextGroup).getD 0

/-- The number of assets in a group. -/
def sizeOf (tree : AssetGroupTree) (groupID : Nat) : Nat :=
  ((tree.groups[groupID]?).map GroupRow.size).getD 0

/-- The asset rows that a group lists. -/
def members (tree : AssetGroupTree) (groupID : Nat) : List Nat :=
  ((tree.groups[groupID]?).map fun row => row.slots.take row.size).getD []

/-- Every row has its number and its slots, and row 0 stands for no group. -/
structure Shaped (tree : AssetGroupTree) : Prop where
  perGroup_pos : 0 < tree.assetsPerGroup
  perGroup_le : tree.assetsPerGroup ≤ tree.maxAssetsPerGroup
  optimal_pos : 0 < tree.optimalGroupCount
  groups_pos : 0 < tree.groups.length
  slots_length : ∀ row ∈ tree.groups, row.slots.length = tree.assetsPerGroup
  numbered : ∀ groupID (row : GroupRow), tree.groups[groupID]? = some row →
    row.thisGroup = groupID
  sizeOf_zero : tree.sizeOf 0 = 0
  nextOf_zero : tree.nextOf 0 = 0

variable {tree : AssetGroupTree}

namespace Shaped

theorem row_of_lt {groupID : Nat} (shaped : tree.Shaped) (live : groupID < tree.groups.length) :
    ∃ row, tree.groups[groupID]? = some row ∧ tree.getGroupRow groupID = .ok row ∧
      row.thisGroup = groupID ∧ row.size = tree.sizeOf groupID ∧
      row.nextGroup = tree.nextOf groupID ∧ row.slots.length = tree.assetsPerGroup := by
  have stored := List.getElem?_eq_getElem live
  refine ⟨tree.groups[groupID], stored, ?_, shaped.numbered _ _ stored, ?_, ?_,
    shaped.slots_length _ (List.getElem_mem live)⟩
  · simp [getGroupRow, stored]
  · simp [sizeOf, stored]
  · simp [nextOf, stored]

theorem getSlot_zero {size : Nat} (shaped : tree.Shaped) (inside : size < tree.assetsPerGroup) :
    tree.getSlot 0 size = .ok (tree.headOf size) := by
  obtain ⟨row, stored, read, -, -, -, length⟩ := shaped.row_of_lt shaped.groups_pos
  have found : row.slots[size]? = some row.slots[size] :=
    List.getElem?_eq_getElem (by omega)
  simp [getSlot, read, headOf, stored, found, bind, Except.bind]

end Shaped

/-- The tree with one row rewritten. -/
def withRow (tree : AssetGroupTree) (groupID : Nat) (edit : GroupRow → GroupRow) :
    AssetGroupTree :=
  { tree with groups := tree.groups.modify groupID edit }

/-- The tree with another link out of a group. -/
def withNext (tree : AssetGroupTree) (groupID next : Nat) : AssetGroupTree :=
  tree.withRow groupID fun row => { row with nextGroup := next }

/-- The tree with another number in a slot. -/
def withSlot (tree : AssetGroupTree) (groupID slot number : Nat) : AssetGroupTree :=
  tree.withRow groupID fun row => { row with slots := row.slots.set slot number }

/-- The tree with one asset more counted in a group. -/
def withGrown (tree : AssetGroupTree) (groupID : Nat) : AssetGroupTree :=
  tree.withRow groupID fun row => { row with size := row.size + 1 }

theorem editGroupRow_eq {groupID : Nat} (live : groupID < tree.groups.length)
    (edit : GroupRow → GroupRow) :
    tree.editGroupRow groupID edit = .ok (tree.withRow groupID edit) := by
  simp [editGroupRow, live, withRow]

theorem setSlot_eq {groupID slot : Nat} (shaped : tree.Shaped)
    (live : groupID < tree.groups.length) (inside : slot < tree.assetsPerGroup) (number : Nat) :
    tree.setSlot groupID slot number = .ok (tree.withSlot groupID slot number) := by
  obtain ⟨row, -, read, -, -, -, length⟩ := shaped.row_of_lt live
  have slotInside : slot < row.slots.length := by omega
  simp [setSlot, read, slotInside, editGroupRow_eq live, withSlot, bind, Except.bind]

theorem getElem?_withRow (groupID other : Nat) (edit : GroupRow → GroupRow) :
    (tree.withRow groupID edit).groups[other]? =
      if groupID = other then (tree.groups[other]?).map edit else tree.groups[other]? := by
  rw [withRow, List.getElem?_modify]
  split <;> simp_all

@[simp]
theorem length_withRow (groupID : Nat) (edit : GroupRow → GroupRow) :
    (tree.withRow groupID edit).groups.length = tree.groups.length := by
  simp [withRow]

/-! ## Links -/

theorem nextOf_withRow {groupID : Nat} {edit : GroupRow → GroupRow}
    (keeps : ∀ row, (edit row).nextGroup = row.nextGroup) :
    (tree.withRow groupID edit).nextOf = tree.nextOf := by
  funext other
  rw [nextOf, getElem?_withRow, nextOf]
  split
  · cases tree.groups[other]? <;> simp [keeps]
  · rfl

theorem sizeOf_withRow {groupID : Nat} {edit : GroupRow → GroupRow}
    (keeps : ∀ row, (edit row).size = row.size) :
    (tree.withRow groupID edit).sizeOf = tree.sizeOf := by
  funext other
  rw [sizeOf, getElem?_withRow, sizeOf]
  split
  · cases tree.groups[other]? <;> simp [keeps]
  · rfl

theorem headOf_withRow {groupID : Nat} {edit : GroupRow → GroupRow}
    (keeps : groupID = 0 → ∀ row, (edit row).slots = row.slots) :
    (tree.withRow groupID edit).headOf = tree.headOf := by
  funext size
  rw [headOf, getElem?_withRow, headOf]
  split
  · rename_i isZero
    cases tree.groups[0]? <;> simp [keeps isZero]
  · rfl

@[simp]
theorem nextOf_withSlot (groupID slot number : Nat) :
    (tree.withSlot groupID slot number).nextOf = tree.nextOf :=
  nextOf_withRow fun _ => rfl

@[simp]
theorem nextOf_withGrown (groupID : Nat) : (tree.withGrown groupID).nextOf = tree.nextOf :=
  nextOf_withRow fun _ => rfl

@[simp]
theorem sizeOf_withSlot (groupID slot number : Nat) :
    (tree.withSlot groupID slot number).sizeOf = tree.sizeOf :=
  sizeOf_withRow fun _ => rfl

@[simp]
theorem sizeOf_withNext (groupID next : Nat) : (tree.withNext groupID next).sizeOf = tree.sizeOf :=
  sizeOf_withRow fun _ => rfl

theorem headOf_withNext (groupID next : Nat) : (tree.withNext groupID next).headOf = tree.headOf :=
  headOf_withRow fun _ _ => rfl

theorem headOf_withGrown (groupID : Nat) : (tree.withGrown groupID).headOf = tree.headOf :=
  headOf_withRow fun _ _ => rfl

theorem nextOf_withNext {groupID : Nat} (live : groupID < tree.groups.length) (next : Nat) :
    (tree.withNext groupID next).nextOf = Function.update tree.nextOf groupID next := by
  funext other
  rw [nextOf, withNext, getElem?_withRow]
  by_cases same : groupID = other
  · subst same
    simp [List.getElem?_eq_getElem live]
  · have apart : other ≠ groupID := fun h => same h.symm
    simp [same, Function.update_of_ne apart, nextOf]

theorem headOf_withSlot {slot : Nat} (shaped : tree.Shaped)
    (inside : slot < tree.assetsPerGroup) (number : Nat) :
    (tree.withSlot 0 slot number).headOf = Function.update tree.headOf slot number := by
  obtain ⟨row, stored, -, -, -, -, length⟩ := shaped.row_of_lt shaped.groups_pos
  have slotInside : slot < row.slots.length := by omega
  funext size
  rw [headOf, withSlot, getElem?_withRow, if_pos rfl, stored]
  by_cases same : slot = size
  · subst same
    simp [slotInside]
  · have apart : size ≠ slot := fun h => same h.symm
    simp [same, Function.update_of_ne apart, headOf, stored]

theorem sizeOf_withGrown {groupID : Nat} (live : groupID < tree.groups.length) :
    (tree.withGrown groupID).sizeOf =
      Function.update tree.sizeOf groupID (tree.sizeOf groupID + 1) := by
  funext other
  rw [sizeOf, withGrown, getElem?_withRow]
  by_cases same : groupID = other
  · subst same
    simp [sizeOf, List.getElem?_eq_getElem live]
  · have apart : other ≠ groupID := fun h => same h.symm
    simp [same, Function.update_of_ne apart, sizeOf]

theorem members_withRow {groupID other : Nat} {edit : GroupRow → GroupRow}
    (keeps : groupID = other → ∀ row, (edit row).slots.take (edit row).size =
      row.slots.take row.size) :
    (tree.withRow groupID edit).members other = tree.members other := by
  rw [members, getElem?_withRow, members]
  split
  · rename_i same
    cases tree.groups[other]? <;> simp [keeps same]
  · rfl

/-- An edit that keeps the number of a row, its room and what is special about row 0 keeps the
shape. -/
theorem Shaped.withRow {groupID : Nat} {edit : GroupRow → GroupRow} (shaped : tree.Shaped)
    (number : ∀ row, (edit row).thisGroup = row.thisGroup)
    (slots : ∀ row, (edit row).slots.length = row.slots.length)
    (header : groupID = 0 →
      ∀ row, (edit row).size = row.size ∧ (edit row).nextGroup = row.nextGroup) :
    (tree.withRow groupID edit).Shaped where
  perGroup_pos := shaped.perGroup_pos
  perGroup_le := shaped.perGroup_le
  optimal_pos := shaped.optimal_pos
  groups_pos := by
    rw [length_withRow]
    exact shaped.groups_pos
  slots_length := by
    intro row member
    obtain ⟨other, stored⟩ := List.getElem?_of_mem member
    rw [getElem?_withRow] at stored
    split at stored
    · obtain ⟨old, oldStored, rfl⟩ := Option.map_eq_some_iff.1 stored
      rw [slots]
      exact shaped.slots_length old (List.mem_of_getElem? oldStored)
    · exact shaped.slots_length row (List.mem_of_getElem? stored)
  numbered := by
    intro other row stored
    rw [getElem?_withRow] at stored
    split at stored
    · obtain ⟨old, oldStored, rfl⟩ := Option.map_eq_some_iff.1 stored
      rw [number]
      exact shaped.numbered other old oldStored
    · exact shaped.numbered other row stored
  sizeOf_zero := by
    have kept := shaped.sizeOf_zero
    rw [sizeOf] at kept ⊢
    rw [getElem?_withRow]
    split
    · rename_i isZero
      cases stored : tree.groups[0]? <;> simp_all
    · exact kept
  nextOf_zero := by
    have kept := shaped.nextOf_zero
    rw [nextOf] at kept ⊢
    rw [getElem?_withRow]
    split
    · rename_i isZero
      cases stored : tree.groups[0]? <;> simp_all
    · exact kept

theorem Shaped.withSlot (shaped : tree.Shaped) (groupID slot number : Nat) :
    (tree.withSlot groupID slot number).Shaped := by
  apply shaped.withRow
  · intro row
    rfl
  · intro row
    simp
  · intro _ row
    exact ⟨rfl, rfl⟩

theorem Shaped.withNext {groupID : Nat} (shaped : tree.Shaped) (isGroup : groupID ≠ 0)
    (next : Nat) : (tree.withNext groupID next).Shaped := by
  apply shaped.withRow
  · intro row
    rfl
  · intro row
    rfl
  · intro isZero
    exact absurd isZero isGroup

theorem Shaped.withGrown {groupID : Nat} (shaped : tree.Shaped) (isGroup : groupID ≠ 0) :
    (tree.withGrown groupID).Shaped := by
  apply shaped.withRow
  · intro row
    rfl
  · intro row
    rfl
  · intro isZero
    exact absurd isZero isGroup

end AssetGroupTree

end HdacNode
