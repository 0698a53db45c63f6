import HdacNode.AssetGroupAdding

/-!
# Runs of calls on the asset groups

In every run of careful calls the groups are right: each known asset is in one
group, once, no group holds more than it has the room for, and the list of each
size has exactly the groups of that size, each once.  A call is careful when it
enlarges the groups with at most one full one among them, takes a group that is
not the first of its list out of none, and opens no group when the memory of the
group rows is used up.

Calls that are not careful break the lists.  The wallet starts with room for one
asset in each group and enlarges the groups at the thirty-third asset, when
thirty-two groups are full; all but the last of them are in no list from then on.
-/

namespace HdacNode

namespace AssetGroupTree

variable {tree : AssetGroupTree}

/-! ## A buffer of assets -/

/-- The references that the second `GetGroup` looks at. -/
def isGrouped (ref : Bytes) : Bool :=
  getABRefType ref ≠ assetRefTypeSpecial ∧ getABRefType ref ≠ assetRefTypeGenesis

/-- The assets of a buffer that are not known. -/
def newRefs (tree : AssetGroupTree) (refs : List Bytes) : List Bytes :=
  refs.filter fun ref => isGrouped ref ∧ ref ∉ tree.refs

/-- What the search remembers of the groups of known assets, with one asset more. -/
def joinGroup (tree : AssetGroupTree) (groupID : Int) (ref : Bytes) : Int :=
  if isGrouped ref ∧ 0 < tree.knownGroup ref then
    if groupID = -2 then tree.knownGroup ref
    else if tree.knownGroup ref = groupID then groupID else -3
  else groupID

/-- The group of the known assets of a buffer, or what stands for none and for several. -/
def oldGroup (tree : AssetGroupTree) (refs : List Bytes) : Int :=
  refs.foldl tree.joinGroup (-2)

theorem getGroupOfAsset_false (some : tree.assetsPerGroup ≠ 0) (ref : Bytes) :
    tree.getGroupOfAsset ref false = .ok (tree.knownGroup ref, tree) := by
  rw [getGroupOfAsset, if_neg some, knownGroup, RowBuffer.lookup]
  cases tree.assets.seek AssetRow.ref ref <;> rfl

theorem knownGroup_of_unknown {placed : Nat} {ref : Bytes} (held : tree.Placed placed)
    (unknown : ref ∉ tree.refs) : tree.knownGroup ref = 0 := by
  rw [knownGroup, (RowBuffer.lookup_eq_none_iff held.coherent).2 unknown]
  rfl

theorem knownGroup_addAssetRow {placed : Nat} {ref other : Bytes} (held : tree.Placed placed)
    (unknown : ref ∉ tree.refs) (apart : ref ≠ other) :
    (tree.addAssetRow ⟨ref, 0⟩).knownGroup other = tree.knownGroup other := by
  have absent := (RowBuffer.lookup_eq_none_iff held.coherent).2 unknown
  rw [knownGroup, addAssetRow, RowBuffer.lookup_add held.coherent absent, if_neg apart]
  rfl

/-- The group of a known asset is one of the groups. -/
theorem Settled.knownGroup_live {ref : Bytes} (settled : tree.Settled) (known : ref ∈ tree.refs) :
    ∃ groupID : Nat, tree.knownGroup ref = groupID ∧ groupID ≠ 0 ∧
      groupID < tree.groups.length := by
  have found : tree.assets.seek AssetRow.ref ref ≠ none := by
    rw [Ne, seek_eq_none_iff settled.placed]
    exact not_not_intro known
  obtain ⟨rowID, seekEq⟩ := Option.ne_none_iff_exists'.1 found
  obtain ⟨live, -⟩ := RowBuffer.keyOf_getRow_of_seek seekEq settled.placed.coherent
  obtain ⟨groupID, isGroup, groupLive, stored, -⟩ := settled.placed.inGroup rowID live
  refine ⟨groupID, ?_, isGroup, groupLive⟩
  rw [knownGroup, RowBuffer.lookup, seekEq]
  exact stored

theorem Settled.oldGroup_spec (settled : tree.Settled) (refs : List Bytes) :
    tree.oldGroup refs ≤ 0 ∨ ∃ groupID : Nat, tree.oldGroup refs = groupID ∧ groupID ≠ 0 ∧
      groupID < tree.groups.length := by
  induction refs using List.reverseRecOn with
  | nil =>
      have noGroup : (-2 : Int) ≤ 0 := by decide
      exact Or.inl noGroup
  | append_singleton refs ref ih =>
      have last : tree.oldGroup (refs ++ [ref]) = tree.joinGroup (tree.oldGroup refs) ref := by
        rw [oldGroup, List.foldl_append]
        rfl
      rw [last, joinGroup]
      split
      · rename_i counted
        have known : ref ∈ tree.refs := by
          by_contra unknown
          have isZero := knownGroup_of_unknown settled.placed unknown
          omega
        split
        · exact Or.inr (settled.knownGroup_live known)
        · split
          · exact ih
          · exact Or.inl (by decide)
      · exact ih

/-- The first loop of the second `GetGroup`. -/
theorem scan_spec {refs : List Bytes} {placed : Nat} {groupID : Int} (held : tree.Placed placed)
    (some : tree.assetsPerGroup ≠ 0) (nodup : refs.Nodup)
    (known : ∀ ref ∈ refs, ref ∈ tree.refs → 0 < tree.knownGroup ref) :
    refs.foldlM scanAsset (groupID, tree) =
      .ok (refs.foldl tree.joinGroup groupID, tree.addAssetRows (tree.newRefs refs)) := by
  induction refs generalizing tree groupID with
  | nil => rfl
  | cons ref refs ih =>
      obtain ⟨notAgain, restNodup⟩ := List.nodup_cons.1 nodup
      have restKnown : ∀ other ∈ refs, other ∈ tree.refs → 0 < tree.knownGroup other := by
        intro other member
        exact known other (by simp [member])
      rw [List.foldlM_cons, List.foldl_cons]
      by_cases grouped : isGrouped ref
      · have looked : getABRefType ref ≠ assetRefTypeSpecial ∧
            getABRefType ref ≠ assetRefTypeGenesis := by simpa [isGrouped] using grouped
        have read := getGroupOfAsset_false some ref
        by_cases isKnown : ref ∈ tree.refs
        · have positive := known ref (by simp) isKnown
          have scanned : scanAsset (groupID, tree) ref =
              .ok (tree.joinGroup groupID ref, tree) := by
            simp [scanAsset, looked, read, positive, joinGroup, grouped, bind, Except.bind, pure,
              Except.pure]
          have sameNews : tree.newRefs (ref :: refs) = tree.newRefs refs := by
            simp [newRefs, isKnown]
          rw [scanned, sameNews]
          exact ih held some restNodup restKnown
        · have isZero := knownGroup_of_unknown held isKnown
          have scanned : scanAsset (groupID, tree) ref =
              .ok (groupID, tree.addAssetRow ⟨ref, 0⟩) := by
            simp [scanAsset, looked, read, isZero, bind, Except.bind, pure, Except.pure]
          have sameGroup : tree.joinGroup groupID ref = groupID := by
            simp [joinGroup, isZero]
          have moreNews : tree.newRefs (ref :: refs) = ref :: tree.newRefs refs := by
            simp [newRefs, isKnown, grouped]
          have apart : ∀ other ∈ refs, ref ≠ other := by
            intro other member same
            rw [same] at notAgain
            exact notAgain member
          have sameKnown : ∀ other ∈ refs, (tree.addAssetRow ⟨ref, 0⟩).knownGroup other =
              tree.knownGroup other := fun other member =>
            knownGroup_addAssetRow held isKnown (apart other member)
          have sameMember : ∀ other ∈ refs, other ∈ (tree.addAssetRow ⟨ref, 0⟩).refs ↔
              other ∈ tree.refs := by
            intro other member
            rw [refs_addAssetRow, List.mem_append, List.mem_singleton]
            constructor
            · rintro (old | rfl)
              · exact old
              · exact absurd rfl (apart _ member)
            · exact Or.inl
          have restNews : (tree.addAssetRow ⟨ref, 0⟩).newRefs refs = tree.newRefs refs := by
            apply List.filter_congr
            intro other member
            rw [decide_eq_decide, sameMember other member]
          have restGroup : ∀ group : Int, refs.foldl (tree.addAssetRow ⟨ref, 0⟩).joinGroup group =
              refs.foldl tree.joinGroup group := by
            intro group
            apply List.foldl_ext
            intro group other member
            rw [joinGroup, joinGroup, sameKnown other member]
          rw [scanned, sameGroup, moreNews, addAssetRows_cons, ← restNews, ← restGroup]
          apply ih (held.addAssetRow isKnown) some restNodup
          intro other member otherKnown
          rw [sameKnown other member]
          exact restKnown other member ((sameMember other member).1 otherKnown)
      · have ignored : ¬ (getABRefType ref ≠ assetRefTypeSpecial ∧
            getABRefType ref ≠ assetRefTypeGenesis) := by simpa [isGrouped] using grouped
        have scanned : scanAsset (groupID, tree) ref = .ok (groupID, tree) := by
          rw [scanAsset, if_neg ignored]
        have sameGroup : tree.joinGroup groupID ref = groupID := by
          simp [joinGroup, grouped]
        have sameNews : tree.newRefs (ref :: refs) = tree.newRefs refs := by
          simp [newRefs, grouped]
        rw [scanned, sameGroup, sameNews]
        exact ih held some restNodup restKnown

/-- Storing the new assets of a buffer together is safe: the groups are enlarged with at most one
full one among them; the group of the old assets, where the new ones fit into it, is full before
that or the first of its list; a new group has room in memory; and where the new assets go into
the groups one by one, each of them is added carefully. -/
def CarefulBuffer (tree : AssetGroupTree) (refs : List Bytes) : Prop :=
  let news := tree.newRefs refs
  let old := tree.oldGroup refs
  let wanted := tree.assets.count + news.length + news.length
  let room := tree.resizedTo wanted
  tree.EnlargesCarefully wanted ∧
    (0 < old → tree.sizeOf old.toNat + news.length ≤ room →
      tree.sizeOf old.toNat = tree.assetsPerGroup ∨
        tree.headOf (tree.sizeOf old.toNat) = old.toNat) ∧
    (old ≤ 0 → tree.OpensCarefully room news.length) ∧
    (0 < old ∧ room < tree.sizeOf old.toNat + news.length ∨ old ≤ 0 ∧ room < news.length →
      ∀ grown, (tree.addAssetRows news).resize news.length = .ok grown →
        CarefulAdds news (grown.rewind tree.assets.count))

/-- The choice of a group for the new assets of a buffer: one with the room, or none when there
cannot be one. -/
theorem chooseGroup_spec {refs : List Bytes} {grown : AssetGroupTree} (settled : tree.Settled)
    (some : 0 < (tree.newRefs refs).length) (careful : tree.CarefulBuffer refs)
    (relinked : (tree.addAssetRows (tree.newRefs refs)).Relinked grown)
    (shaped : grown.Shaped) (listed : grown.Listed grown.sizeOf)
    (sameLength : grown.groups.length = tree.groups.length)
    (room : grown.assetsPerGroup = tree.resizedTo
      (tree.assets.count + (tree.newRefs refs).length + (tree.newRefs refs).length))
    (heads : ∀ size, size ≠ tree.assetsPerGroup → grown.headOf size = tree.headOf size) :
    (∃ groupID other, grown.chooseGroup (tree.oldGroup refs) (tree.newRefs refs).length =
        .ok (Option.some groupID, other) ∧
      grown.Chosen other groupID (tree.newRefs refs).length) ∨
    (grown.chooseGroup (tree.oldGroup refs) (tree.newRefs refs).length = .ok (none, grown) ∧
      ∀ grown, (tree.addAssetRows (tree.newRefs refs)).resize (tree.newRefs refs).length =
        .ok grown → CarefulAdds (tree.newRefs refs) (grown.rewind tree.assets.count)) := by
  obtain ⟨enlarges, takesHead, opens, oneByOne⟩ := careful
  have sizes : grown.sizeOf = tree.sizeOf := relinked.sizeOf
  rcases settled.oldGroup_spec refs with noGroup | ⟨groupID, oldEq, isGroup, live⟩
  · have notOld : ¬ 0 < tree.oldGroup refs := by omega
    by_cases fits : (tree.newRefs refs).length ≤ grown.assetsPerGroup
    · have opensGrown : grown.OpensCarefully grown.assetsPerGroup
          (tree.newRefs refs).length := by
        rw [room]
        exact (opens noGroup).congr sameLength sizes
      obtain ⟨groupID, other, found, chosen⟩ :=
        findAndShiftBestGroup_spec listed shaped some fits opensGrown
      refine Or.inl ⟨groupID, other, ?_, chosen⟩
      rw [chooseGroup, if_neg notOld, found]
    · have tooMany : grown.assetsPerGroup < (tree.newRefs refs).length := by omega
      refine Or.inr ⟨?_, oneByOne (Or.inr ⟨noGroup, ?_⟩)⟩
      · rw [chooseGroup, if_neg notOld, findAndShiftBestGroup, if_pos tooMany]
      · rw [← room]
        exact tooMany
  · have isOld : 0 < tree.oldGroup refs := by omega
    have number : (tree.oldGroup refs).toNat = groupID := by omega
    rw [number] at takesHead oneByOne
    have grownLive : groupID < grown.groups.length := by
      rw [sameLength]
      exact live
    obtain ⟨row, -, read, -, sized, -, -⟩ := shaped.row_of_lt grownLive
    by_cases fits : grown.sizeOf groupID + (tree.newRefs refs).length ≤ grown.assetsPerGroup
    · have isHead : grown.headOf (grown.sizeOf groupID) = groupID := by
        have oldFits := fits
        rw [sizes, room] at oldFits
        rw [sizes]
        by_cases full : tree.sizeOf groupID = tree.assetsPerGroup
        · have enlarged : tree.resizedTo (tree.assets.count + (tree.newRefs refs).length +
              (tree.newRefs refs).length) ≠ tree.assetsPerGroup := by omega
          have inList : grown.InList grown.sizeOf (tree.sizeOf groupID) groupID := by
            refine ⟨?_, isGroup, grownLive, by rw [sizes]⟩
            rw [sizes] at fits
            omega
          have notStop : grown.headOf (tree.sizeOf groupID) ≠ 0 := by
            intro isStop
            exact (listed.bucketed.first_eq_stop_iff _).1 isStop groupID inList
          obtain ⟨-, -, headLive, headSize⟩ := listed.bucketed.holds_first notStop
          rw [sizes, full] at headSize
          rw [sameLength] at headLive
          rw [full] at headLive ⊢
          exact enlarges enlarged _ headLive groupID live headSize full
        · rw [heads _ full]
          exact (takesHead isOld oldFits).resolve_left full
      have inside : grown.sizeOf groupID < grown.assetsPerGroup := by omega
      have shift := @shiftGroup_eq _ _ (grown.sizeOf groupID) _ shaped isGroup grownLive inside
        some
      have chosen := listed.chosen_shifted shaped isGroup grownLive isHead some fits
      refine Or.inl ⟨groupID, _, ?_, chosen⟩
      simp [chooseGroup, isOld, number, read, sized, fits, shift, bind, Except.bind, pure,
        Except.pure]
    · refine Or.inr ⟨?_, oneByOne (Or.inl ⟨isOld, ?_⟩)⟩
      · simp [chooseGroup, isOld, number, read, sized, fits, bind, Except.bind, pure, Except.pure]
      · rw [← room, ← sizes]
        omega

theorem not_mem_refs_of_newRefs (tree : AssetGroupTree) (refs : List Bytes) :
    ∀ ref ∈ tree.newRefs refs, ref ∉ tree.refs := by
  intro ref member
  have kept := (List.mem_filter.1 member).2
  simp only [decide_eq_true_eq] at kept
  exact kept.2

/-- A careful `GetGroup` of a buffer with new assets leaves the tree settled. -/
theorem groupNewAssets_spec {refs : List Bytes} (settled : tree.Settled)
    (nodup : refs.Nodup) (some : 0 < (tree.newRefs refs).length)
    (careful : tree.CarefulBuffer refs) :
    ∃ result other, (tree.addAssetRows (tree.newRefs refs)).groupNewAssets
        (if tree.oldGroup refs = -2 then 0 else tree.oldGroup refs) tree.assets.count =
      .ok (result, other) ∧ other.Settled := by
  have newsNodup : (tree.newRefs refs).Nodup := nodup.filter _
  have newsUnknown := tree.not_mem_refs_of_newRefs refs
  have storedHeld := settled.placed.addAssetRows newsNodup newsUnknown
  have storedShaped : (tree.addAssetRows (tree.newRefs refs)).Shaped :=
    settled.shaped.withAssets _
  have storedListed : (tree.addAssetRows (tree.newRefs refs)).Listed
      (tree.addAssetRows (tree.newRefs refs)).sizeOf :=
    ⟨settled.listed.bucketed, settled.listed.assumed_le, settled.listed.full_unlinked⟩
  have storedCount : (tree.addAssetRows (tree.newRefs refs)).assets.count =
      tree.assets.count + (tree.newRefs refs).length := by
    rw [count_eq_length_refs, refs_addAssetRows, List.length_append, ← count_eq_length_refs]
  have fresh : (tree.addAssetRows (tree.newRefs refs)).assets.count - tree.assets.count =
      (tree.newRefs refs).length := by omega
  have enlarges : (tree.addAssetRows (tree.newRefs refs)).EnlargesCarefully
      ((tree.addAssetRows (tree.newRefs refs)).assets.count + (tree.newRefs refs).length) := by
    rw [storedCount]
    exact careful.1
  obtain ⟨grown, resized, relinked, shaped, listed, sameLength, room, heads⟩ :=
    resize_spec storedListed storedShaped enlarges
  rw [storedCount] at room
  have grownHeld := storedHeld.relinked relinked
  have sameChoice : grown.chooseGroup
      (if tree.oldGroup refs = -2 then 0 else tree.oldGroup refs) (tree.newRefs refs).length =
      grown.chooseGroup (tree.oldGroup refs) (tree.newRefs refs).length := by
    split
    · rename_i noGroup
      rw [noGroup]
      rfl
    · rfl
  rcases chooseGroup_spec settled some careful relinked shaped listed sameLength room heads with
    ⟨groupID, other, choice, chosen⟩ | ⟨choice, oneByOne⟩
  · have all : grown.assets.count = tree.assets.count + (tree.newRefs refs).length := by
      rw [relinked.assets, storedCount]
    obtain ⟨third, written, thirdSettled, live⟩ := chosen.settled grownHeld all
    obtain ⟨row, -, read, -, -, -, -⟩ := thirdSettled.shaped.row_of_lt live
    refine ⟨if (if tree.oldGroup refs = -2 then 0 else tree.oldGroup refs) < 0 then
        (if tree.oldGroup refs = -2 then 0 else tree.oldGroup refs) else row.thisGroup,
      third, ?_, thirdSettled⟩
    simp only [groupNewAssets, fresh, resized, sameChoice, choice, written, read, bind,
      Except.bind, pure, Except.pure]
  · have kept : tree.assets.count ≤ grown.assets.count := by
      rw [relinked.assets, storedCount]
      omega
    have rewoundRefs : (grown.rewind tree.assets.count).refs = tree.refs := by
      rw [refs_rewind kept, relinked.refs, refs_addAssetRows, count_eq_length_refs,
        List.take_left]
    have dropped : (grown.assets.rows.drop tree.assets.count).map AssetRow.ref =
        tree.newRefs refs := by
      rw [List.map_drop]
      change grown.refs.drop tree.assets.count = _
      rw [relinked.refs, refs_addAssetRows, count_eq_length_refs, List.drop_left]
    have rewound : (grown.rewind tree.assets.count).Settled := by
      refine ⟨shaped.withAssets _,
        ⟨listed.bucketed, listed.assumed_le, listed.full_unlinked⟩, ?_⟩
      have rewoundCount : (grown.rewind tree.assets.count).assets.count = tree.assets.count :=
        RowBuffer.count_setCount _ _
      rw [rewoundCount]
      exact grownHeld.rewind
    obtain ⟨other, added, otherSettled⟩ := addOneByOne_spec rewound newsNodup
      (by rw [rewoundRefs]; exact newsUnknown) (oneByOne grown resized)
    refine ⟨0, other, ?_, otherSettled⟩
    simp only [groupNewAssets, fresh, resized, sameChoice, choice, dropped, added, bind,
      Except.bind]

/-- A careful `GetGroup` of a buffer returns and leaves the tree settled. -/
theorem getGroup_spec {refs : List Bytes} {addIfNeeded : Bool} (settled : tree.Settled)
    (nodup : refs.Nodup)
    (careful : addIfNeeded = true → tree.newRefs refs ≠ [] → tree.CarefulBuffer refs) :
    ∃ result other, tree.getGroup refs addIfNeeded = .ok (result, other) ∧ other.Settled := by
  have some : tree.assetsPerGroup ≠ 0 := by
    have := settled.shaped.perGroup_pos
    omega
  have known : ∀ ref ∈ refs, ref ∈ tree.refs → 0 < tree.knownGroup ref := by
    intro ref _ isKnown
    obtain ⟨groupID, stored, isGroup, -⟩ := settled.knownGroup_live isKnown
    omega
  have scanned := @scan_spec _ _ _ (-2) settled.placed some nodup known
  have storedCount : (tree.addAssetRows (tree.newRefs refs)).assets.count =
      tree.assets.count + (tree.newRefs refs).length := by
    rw [count_eq_length_refs, refs_addAssetRows, List.length_append, ← count_eq_length_refs]
  by_cases noNews : tree.newRefs refs = []
  · refine ⟨tree.oldGroup refs, tree, ?_, settled⟩
    rw [noNews] at scanned
    simp only [getGroup, if_neg some, scanned, bind, Except.bind, pure, Except.pure]
    exact if_pos rfl
  · have positive := List.length_pos_of_ne_nil noNews
    have more : tree.assets.count ≠
        (tree.addAssetRows (tree.newRefs refs)).assets.count := by omega
    cases addIfNeeded with
    | false =>
        have newsNodup : (tree.newRefs refs).Nodup := nodup.filter _
        have storedHeld :=
          settled.placed.addAssetRows newsNodup (tree.not_mem_refs_of_newRefs refs)
        have rewoundCount : ((tree.addAssetRows (tree.newRefs refs)).rewind
            tree.assets.count).assets.count = tree.assets.count :=
          RowBuffer.count_setCount _ _
        refine ⟨0, (tree.addAssetRows (tree.newRefs refs)).rewind tree.assets.count, ?_,
          settled.shaped.withAssets _, ⟨settled.listed.bucketed, settled.listed.assumed_le,
            settled.listed.full_unlinked⟩, ?_⟩
        · simp only [getGroup, if_neg some, scanned, more, if_false, bind, Except.bind, pure,
            Except.pure, Bool.false_eq_true]
        · rw [rewoundCount]
          exact storedHeld.rewind
    | true =>
        obtain ⟨result, other, grouped, otherSettled⟩ :=
          groupNewAssets_spec settled nodup positive (careful rfl noNews)
        refine ⟨result, other, ?_, otherSettled⟩
        simp only [getGroup, if_neg some, scanned, more, if_false, if_true, bind, Except.bind]
        exact grouped

end AssetGroupTree

/-! ## Runs -/

open AssetGroupTree

/-- When a call is careful.  Buffers come from a row buffer in map mode, without an asset twice. -/
def GroupCall.Careful (tree : AssetGroupTree) : GroupCall → Prop
  | .ofAsset ref addIfNeeded => addIfNeeded = true → ref ∉ tree.refs → tree.CarefulAdd
  | .ofBuffer refs addIfNeeded =>
      refs.Nodup ∧ (addIfNeeded = true → tree.newRefs refs ≠ [] → tree.CarefulBuffer refs)

namespace AssetGroupTree

/-- The tree after some calls. -/
def runCalls : List GroupCall → AssetGroupTree → Except TreeFault AssetGroupTree
  | [], tree => .ok tree
  | call :: calls, tree => do
      let result ← call.run tree
      runCalls calls result.2

/-- Each call is careful in the tree that the earlier ones lead to. -/
def CarefulCalls : List GroupCall → AssetGroupTree → Prop
  | [], _ => True
  | call :: calls, tree =>
      call.Careful tree ∧ ∀ result, call.run tree = .ok result → CarefulCalls calls result.2

/-- What the asset groups are for: every known asset is in one group, once; no group is larger
than the room; the numbers stored as links, heads and groups are those of group rows; and the list
of each size below the room has exactly the groups of that size, each once. -/
structure Grouped (tree : AssetGroupTree) : Prop where
  inOneGroup : ∀ assetID < tree.assets.count, ∃ groupID : Nat, groupID ≠ 0 ∧
    groupID < tree.groups.length ∧ (tree.assets.getRow assetID).group = groupID ∧
    ∀ other, other ≠ 0 → (tree.members other).count assetID = if other = groupID then 1 else 0
  members_known : ∀ groupID, groupID ≠ 0 → ∀ assetID ∈ tree.members groupID,
    assetID < tree.assets.count
  size_le : ∀ groupID < tree.groups.length, groupID ≠ 0 →
    tree.sizeOf groupID ≤ tree.assetsPerGroup ∧
      (tree.members groupID).length = tree.sizeOf groupID
  links_live : ∀ groupID < tree.groups.length, tree.nextOf groupID < tree.groups.length
  heads_live : ∀ size < tree.assetsPerGroup, tree.headOf size < tree.groups.length
  lists : ∀ size < tree.assetsPerGroup, ∃ chain,
    Threads tree.nextOf 0 (tree.headOf size) chain ∧ chain.Nodup ∧
      ∀ groupID, groupID ∈ chain ↔
        groupID ≠ 0 ∧ groupID < tree.groups.length ∧ tree.sizeOf groupID = size

variable {tree : AssetGroupTree}

theorem Settled.grouped (settled : tree.Settled) : tree.Grouped where
  inOneGroup := by
    intro assetID known
    obtain ⟨groupID, isGroup, live, stored, member⟩ := settled.placed.inGroup assetID known
    refine ⟨groupID, isGroup, live, stored, ?_⟩
    intro other otherGroup
    split
    · rename_i same
      rw [same]
      exact List.count_eq_one_of_mem (settled.placed.members_nodup groupID isGroup) member
    · rename_i different
      apply List.count_eq_zero_of_not_mem
      intro listed
      have alsoStored := (settled.placed.listed other otherGroup assetID listed).2
      omega
  members_known := by
    intro groupID isGroup assetID member
    exact (settled.placed.listed groupID isGroup assetID member).1
  size_le := by
    intro groupID live _
    obtain ⟨row, stored, -, -, sized, -, length⟩ := settled.shaped.row_of_lt live
    have atMost := settled.listed.assumed_le groupID live
    refine ⟨atMost, ?_⟩
    simp [members, stored]
    omega
  links_live := by
    intro groupID live
    have some := settled.shaped.groups_pos
    by_cases isZero : groupID = 0
    · rw [isZero, settled.shaped.nextOf_zero]
      exact some
    · by_cases full : tree.sizeOf groupID = tree.assetsPerGroup
      · rw [settled.listed.full_unlinked groupID live full]
        exact some
      · have atMost := settled.listed.assumed_le groupID live
        obtain ⟨chain, threads, -, members⟩ := settled.listed.bucketed (tree.sizeOf groupID)
        have member := (members groupID).2 ⟨by omega, isZero, live, rfl⟩
        rcases threads.next_mem member with ends | goesOn
        · rw [ends]
          exact some
        · exact ((members _).1 goesOn).2.2.1
  heads_live := by
    intro size _
    by_cases isZero : tree.headOf size = 0
    · rw [isZero]
      exact settled.shaped.groups_pos
    · exact (settled.listed.bucketed.holds_first isZero).2.2.1
  lists := by
    intro size inside
    obtain ⟨chain, threads, nodup, members⟩ := settled.listed.bucketed size
    refine ⟨chain, threads, nodup, ?_⟩
    intro groupID
    rw [members groupID, InList]
    exact and_iff_right inside

/-- A careful call returns and leaves the tree settled. -/
theorem Settled.run {call : GroupCall} (settled : tree.Settled) (careful : call.Careful tree) :
    ∃ result, call.run tree = .ok result ∧ result.2.Settled := by
  cases call with
  | ofAsset ref addIfNeeded =>
      have some : tree.assetsPerGroup ≠ 0 := by
        have := settled.shaped.perGroup_pos
        omega
      cases addIfNeeded with
      | false => exact ⟨_, getGroupOfAsset_false some ref, settled⟩
      | true =>
          by_cases known : ref ∈ tree.refs
          · have found : tree.assets.seek AssetRow.ref ref ≠ none := by
              rw [Ne, seek_eq_none_iff settled.placed]
              exact not_not_intro known
            obtain ⟨rowID, seekEq⟩ := Option.ne_none_iff_exists'.1 found
            refine ⟨((tree.assets.getRow rowID).group, tree), ?_, settled⟩
            simp [GroupCall.run, getGroupOfAsset, some, seekEq]
          · obtain ⟨other, added, otherSettled, -⟩ :=
              addAsset_spec settled known (careful rfl known)
            refine ⟨(0, other), ?_, otherSettled⟩
            exact (getGroupOfAsset_of_unknown settled.placed settled.shaped known).trans added
  | ofBuffer refs addIfNeeded =>
      obtain ⟨result, other, called, otherSettled⟩ :=
        getGroup_spec settled careful.1 careful.2
      exact ⟨(result, other), called, otherSettled⟩

theorem Settled.runCalls {calls : List GroupCall} (settled : tree.Settled)
    (careful : CarefulCalls calls tree) :
    ∃ other, AssetGroupTree.runCalls calls tree = .ok other ∧ other.Settled := by
  induction calls generalizing tree with
  | nil => exact ⟨tree, rfl, settled⟩
  | cons call calls ih =>
      obtain ⟨result, called, resultSettled⟩ := settled.run careful.1
      obtain ⟨other, run, otherSettled⟩ := ih resultSettled (careful.2 result called)
      refine ⟨other, ?_, otherSettled⟩
      simp only [AssetGroupTree.runCalls, called, bind, Except.bind]
      exact run

theorem runCalls_of_noGroups (calls : List GroupCall) (noGroups : tree.assetsPerGroup = 0) :
    runCalls calls tree = .ok tree := by
  induction calls with
  | nil => rfl
  | cons call calls ih =>
      have called : call.run tree = .ok (-1, tree) := by
        cases call <;> simp [GroupCall.run, getGroupOfAsset, getGroup, noGroups]
      simp only [runCalls, called, bind, Except.bind]
      exact ih

theorem settled_initializeTree {assetsPerGroup maxAssetsPerGroup optimalGroupCount : Nat}
    (groups : assetsPerGroup ≠ 0) (within : assetsPerGroup ≤ maxAssetsPerGroup)
    (someGroups : 0 < optimalGroupCount) :
    (initializeTree assetsPerGroup maxAssetsPerGroup optimalGroupCount).Settled := by
  rw [initializeTree, if_neg groups]
  refine ⟨⟨by dsimp only; omega, within, someGroups, Nat.one_pos, ?_, ?_, rfl, rfl⟩,
    ⟨?_, ?_, ?_⟩, ?_⟩
  · intro row member
    rw [List.mem_singleton.1 member]
    exact List.length_replicate
  · intro groupID row stored
    cases groupID with
    | zero => rw [← Option.some.inj stored]
    | succ groupID => simp at stored
  · intro size
    refine ⟨[], ?_, List.nodup_nil, ?_⟩
    · have noHead : ∀ size : Nat,
          ((List.replicate assetsPerGroup 0)[size]?).getD 0 = 0 := by
        intro size
        rw [List.getElem?_replicate]
        split <;> rfl
      change Threads _ 0 (((List.replicate assetsPerGroup 0)[size]?).getD 0) []
      rw [noHead]
      exact Threads.stop
    · intro groupID
      constructor
      · intro member
        simp at member
      · rintro ⟨-, isGroup, live, -⟩
        exact absurd (Nat.lt_one_iff.1 live) isGroup
  · intro groupID live
    obtain rfl := Nat.lt_one_iff.1 live
    exact Nat.zero_le _
  · intro groupID live isFull
    obtain rfl := Nat.lt_one_iff.1 live
    rfl
  · have noMembers : ∀ groupID, AssetGroupTree.members
        { assetsPerGroup := assetsPerGroup
          maxAssetsPerGroup := maxAssetsPerGroup
          optimalGroupCount := optimalGroupCount
          assets := RowBuffer.initializeBuffer ⟨[], 0⟩ true
          groups := [⟨0, 0, 0, List.replicate assetsPerGroup 0⟩] } groupID = [] := by
      intro groupID
      cases groupID <;> simp [members]
    refine ⟨RowBuffer.coherent_initializeBuffer _ _, ?_, le_rfl, ?_, ?_, ?_⟩
    · rw [RowBuffer.rows_initializeBuffer]
      exact List.nodup_nil
    · intro assetID before
      exact absurd before (Nat.not_lt_zero _)
    · intro groupID _ assetID member
      rw [noMembers] at member
      simp at member
    · intro groupID _
      rw [noMembers]
      exact List.nodup_nil

/-- In every run of careful calls from `Initialize` all calls return and the groups are right. -/
theorem groups_hold_of_careful (assetsPerGroup maxAssetsPerGroup optimalGroupCount : Nat)
    (calls : List GroupCall)
    (parameters : assetsPerGroup ≠ 0 →
      assetsPerGroup ≤ maxAssetsPerGroup ∧ 0 < optimalGroupCount)
    (careful : CarefulCalls calls
      (initializeTree assetsPerGroup maxAssetsPerGroup optimalGroupCount)) :
    ∃ tree, runCalls calls (initializeTree assetsPerGroup maxAssetsPerGroup optimalGroupCount) =
      .ok tree ∧ tree.Grouped := by
  by_cases noGroups : assetsPerGroup = 0
  · have start : initializeTree assetsPerGroup maxAssetsPerGroup optimalGroupCount =
        ⟨0, 0, 0, RowBuffer.initializeBuffer ⟨[], 0⟩ true, []⟩ := by
      simp [initializeTree, noGroups]
    rw [start]
    refine ⟨_, runCalls_of_noGroups calls rfl, ?_, ?_, ?_, ?_, ?_, ?_⟩
    · intro assetID known
      exact absurd known (Nat.not_lt_zero _)
    · intro groupID _ assetID member
      simp [members] at member
    · intro groupID live
      exact absurd live (Nat.not_lt_zero _)
    · intro groupID live
      exact absurd live (Nat.not_lt_zero _)
    · intro size inside
      exact absurd inside (Nat.not_lt_zero _)
    · intro size inside
      exact absurd inside (Nat.not_lt_zero _)
  · obtain ⟨within, someGroups⟩ := parameters noGroups
    obtain ⟨tree, run, settled⟩ :=
      (settled_initializeTree noGroups within someGroups).runCalls careful
    exact ⟨tree, run, settled.grouped⟩

/-- An asset reference. -/
def sampleRef (number : Nat) : Bytes :=
  UInt8.ofNat number :: List.replicate 35 0

/-- An asset alone and then one more together with it. -/
theorem groups_hold_of_careful_together :
    ∃ tree, runCalls [.ofAsset (sampleRef 1) true, .ofBuffer [sampleRef 1, sampleRef 2] true]
      (initializeTree 4 105 32) = .ok tree ∧ tree.Grouped := by
  apply groups_hold_of_careful 4 105 32
  · intro _
    exact ⟨by decide, by decide⟩
  · refine ⟨fun _ _ => ⟨fun enlarged => absurd (by decide) enlarged, fun _ _ => by decide⟩, ?_⟩
    intro result called
    obtain rfl := Except.ok.inj called
    refine ⟨⟨by decide, fun _ _ => ⟨?_, ?_, ?_, ?_⟩⟩, fun _ _ => trivial⟩
    · intro enlarged
      exact absurd (by decide +kernel) enlarged
    · intro _ _
      exact Or.inr (by decide +kernel)
    · intro noGroup
      exact absurd noGroup (by decide +kernel)
    · intro oneByOne
      exact absurd oneByOne (by decide +kernel)

/-- Thirty-three assets, one after the other, in the tree that the wallet starts with: the first
group has one asset, the groups have room for two, and the list of size one is empty. -/
theorem groups_lost_by_enlarging :
    ∃ tree, runCalls ((List.range 33).map fun number => .ofAsset (sampleRef number) true)
      (initializeTree 1 105 32) = .ok tree ∧ ¬ tree.Grouped := by
  have lost : (runCalls ((List.range 33).map fun number => .ofAsset (sampleRef number) true)
      (initializeTree 1 105 32)).map (fun tree =>
        (tree.assetsPerGroup, tree.headOf 1, tree.groups.length, tree.sizeOf 1)) =
      .ok (2, 0, 33, 1) := by
    decide +kernel
  cases run : runCalls ((List.range 33).map fun number => .ofAsset (sampleRef number) true)
      (initializeTree 1 105 32) with
  | error fault =>
      rw [run] at lost
      cases lost
  | ok tree =>
      rw [run] at lost
      simp only [Except.map, Except.ok.injEq, Prod.mk.injEq] at lost
      obtain ⟨room, head, length, size⟩ := lost
      refine ⟨tree, rfl, ?_⟩
      intro grouped
      obtain ⟨chain, threads, -, members⟩ := grouped.lists 1 (by omega)
      rw [head] at threads
      have empty := threads.of_stop
      subst empty
      have listed := (members 1).2 ⟨by decide, by omega, size⟩
      simp at listed

end AssetGroupTree

end HdacNode
