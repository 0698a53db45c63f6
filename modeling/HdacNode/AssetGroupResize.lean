import HdacNode.AssetGroupSteps
import Mathlib.Data.List.Induction

/-!
# Enlarging the asset groups

Longer rows leave every list as it is and make one more, the list of the groups
that were full.  Its head is the last of them, and none of the links that
should lead on to the others is in the new buffer.  So the lists are right after
an enlargement when at most one group was full.
-/

namespace HdacNode

namespace AssetGroupTree

variable {tree : AssetGroupTree}

/-- The room of the groups after `Resize` for the given number of assets. -/
def resizedTo (tree : AssetGroupTree) (wanted : Nat) : Nat :=
  match doubled tree.optimalGroupCount wanted (wanted + 1) tree.assetsPerGroup with
  | none => tree.assetsPerGroup
  | some n => if tree.maxAssetsPerGroup < n then tree.assetsPerGroup else n

/-- At most one group is full when the groups are enlarged. -/
def EnlargesCarefully (tree : AssetGroupTree) (wanted : Nat) : Prop :=
  tree.resizedTo wanted ≠ tree.assetsPerGroup →
    ∀ first < tree.groups.length, ∀ second < tree.groups.length,
      tree.sizeOf first = tree.assetsPerGroup → tree.sizeOf second = tree.assetsPerGroup →
        first = second

/-- The doubling loop ends, at no smaller room. -/
theorem doubled_spec {optimalGroupCount wanted n fuel : Nat} (someGroups : 0 < optimalGroupCount)
    (someRoom : 0 < n) (enough : wanted ≤ n + fuel) :
    ∃ m, doubled optimalGroupCount wanted (fuel + 1) n = some m ∧ n ≤ m := by
  induction fuel generalizing n with
  | zero =>
      have reached : ¬ optimalGroupCount * n < wanted := by
        have := Nat.le_mul_of_pos_left n someGroups
        omega
      exact ⟨n, by simp [doubled, reached], le_rfl⟩
  | succ fuel ih =>
      by_cases short : optimalGroupCount * n < wanted
      · obtain ⟨m, goesOn, atLeast⟩ := ih (n := 2 * n) (by omega) (by omega)
        refine ⟨m, ?_, by omega⟩
        rw [doubled, if_pos short]
        exact goesOn
      · exact ⟨n, by simp [doubled, short], le_rfl⟩

theorem resizedTo_spec (shaped : tree.Shaped) (wanted : Nat) :
    tree.assetsPerGroup ≤ tree.resizedTo wanted ∧
      tree.resizedTo wanted ≤ tree.maxAssetsPerGroup := by
  have enough : wanted ≤ tree.assetsPerGroup + wanted := by omega
  obtain ⟨m, loop, atLeast⟩ := doubled_spec shaped.optimal_pos shaped.perGroup_pos enough
  have within := shaped.perGroup_le
  rw [resizedTo, loop]
  dsimp only
  split <;> omega

/-- `Resize` enlarges the groups to their new room, or does nothing. -/
theorem resize_eq (shaped : tree.Shaped) (newAssets : Nat) :
    tree.resize newAssets =
      if tree.resizedTo (tree.assets.count + newAssets) = tree.assetsPerGroup then .ok tree
      else tree.enlarge (tree.resizedTo (tree.assets.count + newAssets)) := by
  have enough : tree.assets.count + newAssets ≤
      tree.assetsPerGroup + (tree.assets.count + newAssets) := by omega
  obtain ⟨m, loop, -⟩ := doubled_spec shaped.optimal_pos shaped.perGroup_pos enough
  rw [resize, resizedTo, loop]
  dsimp only
  by_cases tooMany : tree.maxAssetsPerGroup < m
  · simp [tooMany]
  · simp [tooMany]

theorem lastFullGroup_spec (assetsPerGroup : Nat) (groups : List GroupRow) :
    (lastFullGroup assetsPerGroup groups = 0 ∧ ∀ row ∈ groups, row.size ≠ assetsPerGroup) ∨
      ∃ row ∈ groups, row.size = assetsPerGroup ∧
        lastFullGroup assetsPerGroup groups = row.thisGroup := by
  induction groups using List.reverseRecOn with
  | nil => exact Or.inl ⟨rfl, by simp⟩
  | append_singleton groups row ih =>
      have last : lastFullGroup assetsPerGroup (groups ++ [row]) =
          if row.size = assetsPerGroup then row.thisGroup
          else lastFullGroup assetsPerGroup groups := by
        rw [lastFullGroup, List.foldl_append]
        rfl
      rw [last]
      by_cases isFull : row.size = assetsPerGroup
      · rw [if_pos isFull]
        exact Or.inr ⟨row, by simp, isFull, rfl⟩
      · rw [if_neg isFull]
        rcases ih with ⟨isZero, noneFull⟩ | ⟨other, member, otherFull, number⟩
        · refine Or.inl ⟨isZero, ?_⟩
          intro other member
          rcases List.mem_append.1 member with old | new
          · exact noneFull other old
          · rw [List.mem_singleton.1 new]
            exact isFull
        · exact Or.inr ⟨other, by simp [member], otherFull, number⟩

/-- The tree with longer rows, before the list of the full groups is made. -/
def longer (tree : AssetGroupTree) (n : Nat) : AssetGroupTree :=
  { tree with
    assetsPerGroup := n
    groups := tree.groups.map fun row =>
      { row with
        slots := row.slots.take tree.assetsPerGroup ++
          List.replicate (n - tree.assetsPerGroup) 0 } }

@[simp]
theorem length_longer (n : Nat) : (tree.longer n).groups.length = tree.groups.length := by
  simp [longer]

theorem nextOf_longer (n : Nat) : (tree.longer n).nextOf = tree.nextOf := by
  funext groupID
  rw [nextOf, longer, nextOf, List.getElem?_map]
  cases tree.groups[groupID]? <;> rfl

theorem sizeOf_longer (n : Nat) : (tree.longer n).sizeOf = tree.sizeOf := by
  funext groupID
  rw [sizeOf, longer, sizeOf, List.getElem?_map]
  cases tree.groups[groupID]? <;> rfl

theorem headOf_longer (shaped : tree.Shaped) (n : Nat) : (tree.longer n).headOf = tree.headOf := by
  obtain ⟨row, stored, -, -, -, -, length⟩ := shaped.row_of_lt shaped.groups_pos
  have whole : row.slots.take tree.assetsPerGroup = row.slots :=
    List.take_of_length_le (by omega)
  funext size
  simp only [headOf, longer, List.getElem?_map, stored, Option.map_some, Option.bind_some, whole]
  by_cases inside : size < row.slots.length
  · rw [List.getElem?_append_left inside]
  · rw [List.getElem?_append_right (by omega), List.getElem?_replicate,
      List.getElem?_eq_none (by omega : row.slots.length ≤ size)]
    split <;> rfl

theorem members_longer (shaped : tree.Shaped) {groupID : Nat}
    (small : tree.sizeOf groupID ≤ tree.assetsPerGroup) (n : Nat) :
    (tree.longer n).members groupID = tree.members groupID := by
  by_cases live : groupID < tree.groups.length
  · obtain ⟨row, stored, -, -, sized, -, length⟩ := shaped.row_of_lt live
    have atMost : row.size ≤ row.slots.length := by omega
    have whole : row.slots.take tree.assetsPerGroup = row.slots :=
      List.take_of_length_le (by omega)
    simp [members, longer, stored, whole, List.take_append_of_le_length atMost]
  · have behind : tree.groups.length ≤ groupID := by omega
    simp [members, longer, List.getElem?_eq_none behind]

theorem Shaped.longer {n : Nat} (shaped : tree.Shaped) (atLeast : tree.assetsPerGroup ≤ n)
    (within : n ≤ tree.maxAssetsPerGroup) : (tree.longer n).Shaped where
  perGroup_pos := shaped.perGroup_pos.trans_le atLeast
  perGroup_le := within
  optimal_pos := shaped.optimal_pos
  groups_pos := by
    rw [length_longer]
    exact shaped.groups_pos
  slots_length := by
    intro row member
    obtain ⟨old, oldMember, rfl⟩ := List.mem_map.1 member
    have length := shaped.slots_length old oldMember
    simp [AssetGroupTree.longer, length]
    omega
  numbered := by
    intro groupID row stored
    rw [AssetGroupTree.longer, List.getElem?_map] at stored
    obtain ⟨old, oldStored, rfl⟩ := Option.map_eq_some_iff.1 stored
    exact shaped.numbered groupID old oldStored
  sizeOf_zero := by
    rw [sizeOf_longer]
    exact shaped.sizeOf_zero
  nextOf_zero := by
    rw [nextOf_longer]
    exact shaped.nextOf_zero

/-- The tree after an enlargement. -/
def enlarged (tree : AssetGroupTree) (n : Nat) : AssetGroupTree :=
  (tree.longer n).withSlot 0 tree.assetsPerGroup
    (lastFullGroup tree.assetsPerGroup tree.groups)

theorem enlarge_eq {n : Nat} (shaped : tree.Shaped) (more : tree.assetsPerGroup < n)
    (within : n ≤ tree.maxAssetsPerGroup) : tree.enlarge n = .ok (tree.enlarged n) := by
  have longerShaped := shaped.longer more.le within
  exact setSlot_eq longerShaped longerShaped.groups_pos more _

theorem Relinked.enlarged {n : Nat} (listed : tree.Listed tree.sizeOf) (shaped : tree.Shaped)
    (more : tree.assetsPerGroup < n) : tree.Relinked (tree.enlarged n) := by
  have grown : tree.Relinked (tree.longer n) := by
    refine ⟨rfl, more.le, by rw [length_longer], sizeOf_longer n, ?_⟩
    intro groupID _
    apply members_longer shaped
    by_cases live : groupID < tree.groups.length
    · exact listed.assumed_le groupID live
    · rw [sizeOf_of_length_le (by omega)]
      exact Nat.zero_le _
  exact grown.trans (Relinked.withHead _ _ _)

/-- With at most one full group the lists are right in the longer rows. -/
theorem Listed.enlarged {n : Nat} (listed : tree.Listed tree.sizeOf) (shaped : tree.Shaped)
    (more : tree.assetsPerGroup < n) (within : n ≤ tree.maxAssetsPerGroup)
    (oneFull : ∀ first < tree.groups.length, ∀ second < tree.groups.length,
      tree.sizeOf first = tree.assetsPerGroup → tree.sizeOf second = tree.assetsPerGroup →
        first = second) :
    (tree.enlarged n).Listed (tree.enlarged n).sizeOf := by
  have sizes := (Relinked.enlarged listed shaped more).sizeOf
  have links : (tree.enlarged n).nextOf = tree.nextOf := by
    rw [AssetGroupTree.enlarged, nextOf_withSlot, nextOf_longer]
  have heads : (tree.enlarged n).headOf = Function.update tree.headOf tree.assetsPerGroup
      (lastFullGroup tree.assetsPerGroup tree.groups) := by
    rw [AssetGroupTree.enlarged, headOf_withSlot (shaped.longer more.le within) more,
      headOf_longer shaped]
  have sameLength : (tree.enlarged n).groups.length = tree.groups.length := by
    simp [AssetGroupTree.enlarged, withSlot]
  have samePer : (tree.enlarged n).assetsPerGroup = n := rfl
  have fullList : tree.headOf tree.assetsPerGroup = 0 := by
    rw [listed.bucketed.first_eq_stop_iff]
    intro groupID inList
    exact Nat.lt_irrefl _ inList.1
  have emptyRow := shaped.sizeOf_zero
  have somePer := shaped.perGroup_pos
  rw [sizes]
  refine ⟨?_, ?_, ?_⟩
  · rw [links, heads]
    rcases lastFullGroup_spec tree.assetsPerGroup tree.groups with
      ⟨isZero, noneFull⟩ | ⟨row, member, isFull, number⟩
    · rw [isZero, ← fullList, Function.update_eq_self]
      rw [fullList]
      apply listed.bucketed.congr
      intro size groupID
      rw [InList, InList, sameLength, samePer]
      constructor
      · rintro ⟨inside, isGroup, live, sized⟩
        exact ⟨by omega, isGroup, live, sized⟩
      · rintro ⟨inside, isGroup, live, sized⟩
        have atMost := listed.assumed_le groupID live
        have notFull : tree.sizeOf groupID ≠ tree.assetsPerGroup := by
          obtain ⟨row, stored, -, -, rowSize, -, -⟩ := shaped.row_of_lt live
          rw [← rowSize]
          exact noneFull row (List.mem_of_getElem? stored)
        exact ⟨by omega, isGroup, live, sized⟩
    · obtain ⟨full, stored⟩ := List.getElem?_of_mem member
      obtain ⟨live, -⟩ := List.getElem?_eq_some_iff.1 stored
      have fullNumber := shaped.numbered full row stored
      have fullSize : tree.sizeOf full = tree.assetsPerGroup := by
        simp [sizeOf, stored, isFull]
      have isGroup : full ≠ 0 := by
        rintro rfl
        omega
      have unlinked := listed.full_unlinked full live fullSize
      have pushed := listed.bucketed.push tree.assetsPerGroup isGroup (by
        intro size inList
        have sized := inList.2.2.2
        have inside := inList.1
        omega)
      have sameLinks : Function.update tree.nextOf full 0 = tree.nextOf := by
        rw [← unlinked, Function.update_eq_self]
      rw [fullList, sameLinks] at pushed
      rw [number, fullNumber]
      apply pushed.congr
      intro size groupID
      rw [InList, InList, sameLength, samePer]
      constructor
      · rintro (⟨inside, otherGroup, otherLive, sized⟩ | ⟨rfl, rfl⟩)
        · exact ⟨by omega, otherGroup, otherLive, sized⟩
        · exact ⟨more, isGroup, live, fullSize⟩
      · rintro ⟨inside, otherGroup, otherLive, sized⟩
        have atMost := listed.assumed_le groupID otherLive
        by_cases otherFull : tree.sizeOf groupID = tree.assetsPerGroup
        · exact Or.inr ⟨by omega, oneFull groupID otherLive full live otherFull fullSize⟩
        · exact Or.inl ⟨by omega, otherGroup, otherLive, sized⟩
  · intro groupID live
    rw [sameLength] at live
    exact (listed.assumed_le groupID live).trans more.le
  · intro groupID live isFull
    rw [sameLength] at live
    have atMost := listed.assumed_le groupID live
    omega

/-- A careful `Resize` keeps the groups, and gives them the room they should have. -/
theorem resize_spec {newAssets : Nat} (listed : tree.Listed tree.sizeOf) (shaped : tree.Shaped)
    (careful : tree.EnlargesCarefully (tree.assets.count + newAssets)) :
    ∃ other, tree.resize newAssets = .ok other ∧ tree.Relinked other ∧ other.Shaped ∧
      other.Listed other.sizeOf ∧ other.groups.length = tree.groups.length ∧
      other.assetsPerGroup = tree.resizedTo (tree.assets.count + newAssets) ∧
      ∀ size, size ≠ tree.assetsPerGroup → other.headOf size = tree.headOf size := by
  obtain ⟨atLeast, within⟩ := resizedTo_spec shaped (tree.assets.count + newAssets)
  rw [resize_eq shaped]
  by_cases same : tree.resizedTo (tree.assets.count + newAssets) = tree.assetsPerGroup
  · rw [if_pos same]
    exact ⟨tree, rfl, .refl tree, shaped, listed, rfl, same.symm, fun _ _ => rfl⟩
  · have more : tree.assetsPerGroup <
        tree.resizedTo (tree.assets.count + newAssets) := by omega
    have longerShaped := shaped.longer atLeast within
    rw [if_neg same, enlarge_eq shaped more within]
    refine ⟨_, rfl, .enlarged listed shaped more, longerShaped.withSlot _ _ _,
      listed.enlarged shaped more within (careful same), ?_, rfl, ?_⟩
    · simp [AssetGroupTree.enlarged, withSlot]
    · intro size apart
      rw [AssetGroupTree.enlarged, headOf_withSlot longerShaped more,
        Function.update_of_ne apart, headOf_longer shaped]

end AssetGroupTree

end HdacNode
