import HdacNode.KeyedRowBuffer
import HdacNode.ScriptParser

/-!
# Asset groups of the wallet

The wallet combines unspent coins by groups of assets.  `CAssetGroupTree`
keeps the assets it has seen in a row buffer in map mode, with the group of
each, and the groups in a second buffer whose rows have room for
`nAssetsPerGroup` asset rows.  Row 0 of that buffer is no group: its slots are
the heads of linked lists, one for each number of assets a group that is not
full can have.  A group that becomes full leaves the lists.

When many assets are known the rows are enlarged, and the groups that were full
should be linked into the list of their size.
-/

namespace HdacNode

/-- One row of `lpAssets`: the asset reference and the number of its group. -/
structure AssetRow where
  ref : Bytes
  group : Int
  deriving DecidableEq, Repr

/-- One row of `lpAssetGroups`: the fields of `CAssetGroup` and the numbers behind them. -/
structure GroupRow where
  thisGroup : Nat
  nextGroup : Nat
  size : Nat
  slots : List Nat
  deriving DecidableEq, Repr

/-- The fields of `CAssetGroupTree`. -/
structure AssetGroupTree where
  assetsPerGroup : Nat
  maxAssetsPerGroup : Nat
  optimalGroupCount : Nat
  assets : RowBuffer Bytes AssetRow
  groups : List GroupRow

/-- What a call can do beside returning: touch memory outside a row or a buffer, go on
through a pointer into memory that was given back, or never end. -/
inductive TreeFault
  | outside
  | stale
  | endless
  deriving DecidableEq, Repr

/-- `MC_AST_ASSET_REF_TYPE_GENESIS`. -/
def assetRefTypeGenesis : Nat := 256

/-- `MC_AST_ASSET_REF_TYPE_SPECIAL`. -/
def assetRefTypeSpecial : Nat := 512

/-- `mc_GetABRefType`. -/
def getABRefType (ref : Bytes) : Nat :=
  getLE ((ref.drop 32).take 4)

/-- The rows that fit into the memory of a buffer which has grown to `count` rows. -/
def allocatedRows (count : Nat) : Nat :=
  ((max count 1 - 1) / bufAllocItems + 1) * bufAllocItems

namespace AssetGroupTree

/-- `CAssetGroupTree::Initialize` on the cleared tree. -/
def initializeTree (assetsPerGroup maxAssetsPerGroup optimalGroupCount : Nat) : AssetGroupTree :=
  if assetsPerGroup = 0 then
    { assetsPerGroup := 0
      maxAssetsPerGroup := 0
      optimalGroupCount := 0
      assets := RowBuffer.initializeBuffer ⟨[], 0⟩ true
      groups := [] }
  else
    { assetsPerGroup := assetsPerGroup
      maxAssetsPerGroup := maxAssetsPerGroup
      optimalGroupCount := optimalGroupCount
      assets := RowBuffer.initializeBuffer ⟨[], 0⟩ true
      groups := [⟨0, 0, 0, List.replicate assetsPerGroup 0⟩] }

/-- A row of the group buffer. -/
def getGroupRow (tree : AssetGroupTree) (groupID : Nat) : Except TreeFault GroupRow :=
  match tree.groups[groupID]? with
  | some row => .ok row
  | none => .error .outside

/-- Write into a row of the group buffer. -/
def editGroupRow (tree : AssetGroupTree) (groupID : Nat) (edit : GroupRow → GroupRow) :
    Except TreeFault AssetGroupTree :=
  if groupID < tree.groups.length then
    .ok { tree with groups := tree.groups.modify groupID edit }
  else .error .outside

/-- A number behind the header of a row. -/
def getSlot (tree : AssetGroupTree) (groupID slot : Nat) : Except TreeFault Nat := do
  let row ← tree.getGroupRow groupID
  match row.slots[slot]? with
  | some number => .ok number
  | none => .error .outside

/-- Write a number behind the header of a row. -/
def setSlot (tree : AssetGroupTree) (groupID slot number : Nat) :
    Except TreeFault AssetGroupTree := do
  let row ← tree.getGroupRow groupID
  if slot < row.slots.length then
    tree.editGroupRow groupID fun row => { row with slots := row.slots.set slot number }
  else .error .outside

/-- The doubling loop of `Resize`, for as many rounds as `fuel`. -/
def doubled (optimalGroupCount wanted : Nat) : Nat → Nat → Option Nat
  | 0, _ => none
  | fuel + 1, n =>
      if optimalGroupCount * n < wanted then doubled optimalGroupCount wanted fuel (2 * n)
      else some n

/-- The loop of `Resize` over the old rows.  The links it writes go into the old buffer, which is
deleted after the new one was filled from it; only the number of the last full group is used. -/
def lastFullGroup (assetsPerGroup : Nat) (groups : List GroupRow) : Nat :=
  groups.foldl (fun last row => if row.size = assetsPerGroup then row.thisGroup else last) 0

/-- The part of `Resize` that moves the groups into longer rows. -/
def enlarge (tree : AssetGroupTree) (n : Nat) : Except TreeFault AssetGroupTree :=
  let copied := tree.groups.map fun row =>
    { row with
      slots := row.slots.take tree.assetsPerGroup ++ List.replicate (n - tree.assetsPerGroup) 0 }
  { tree with groups := copied, assetsPerGroup := n }.setSlot 0 tree.assetsPerGroup
    (lastFullGroup tree.assetsPerGroup tree.groups)

/-- `CAssetGroupTree::Resize`.  The rounds of the doubling loop are enough when a group can hold
an asset. -/
def resize (tree : AssetGroupTree) (newAssets : Nat) : Except TreeFault AssetGroupTree :=
  let wanted := tree.assets.count + newAssets
  match doubled tree.optimalGroupCount wanted (wanted + 1) tree.assetsPerGroup with
  | none => .error .endless
  | some n =>
      if n = tree.assetsPerGroup then .ok tree
      else if tree.maxAssetsPerGroup < n then .ok tree
      else tree.enlarge n

/-- The search of `FindAndShiftBestGroup`, downwards from the fullest groups that are good. -/
def findUnderfilled (tree : AssetGroupTree) : Nat → Except TreeFault (Option Nat)
  | 0 => do
      let head ← tree.getSlot 0 0
      return if head ≠ 0 then some 0 else none
  | size + 1 => do
      let head ← tree.getSlot 0 (size + 1)
      if head ≠ 0 then return some (size + 1) else tree.findUnderfilled size

/-- Take a group of the given size off its list, as if it were the first there, and put it in front
of the list that it belongs to with `assets` more.  A group that becomes full is in no list. -/
def shiftGroup (tree : AssetGroupTree) (groupID size assets : Nat) :
    Except TreeFault AssetGroupTree := do
  let row ← tree.getGroupRow groupID
  let tree ← tree.setSlot 0 size row.nextGroup
  if size + assets < tree.assetsPerGroup then
    let next ← tree.getSlot 0 (size + assets)
    let tree ← tree.editGroupRow groupID fun row => { row with nextGroup := next }
    tree.setSlot 0 (size + assets) row.thisGroup
  else
    tree.editGroupRow groupID fun row => { row with nextGroup := 0 }

/-- Add an empty group and make it the first of the list of empty groups.  The list heads are
used through `iptr` again afterwards, which is good only while the buffer has stayed in place. -/
def addGroup (tree : AssetGroupTree) : Except TreeFault AssetGroupTree := do
  if tree.maxAssetsPerGroup < tree.assetsPerGroup then throw TreeFault.outside
  let thisGroup := tree.groups.length
  let tree ← tree.setSlot 0 0 thisGroup
  if allocatedRows tree.groups.length < tree.groups.length + 1 then throw TreeFault.stale
  return { tree with
    groups := tree.groups ++ [⟨thisGroup, 0, 0, List.replicate tree.assetsPerGroup 0⟩] }

/-- `CAssetGroupTree::FindAndShiftBestGroup`, with the row of the group it returns. -/
def findAndShiftBestGroup (tree : AssetGroupTree) (assets : Nat) :
    Except TreeFault (Option Nat × AssetGroupTree) :=
  if tree.assetsPerGroup < assets then .ok (none, tree)
  else do
    let found ← tree.findUnderfilled (tree.assetsPerGroup - assets)
    let tree ← if found.isSome then pure tree else tree.addGroup
    let size := found.getD 0
    let groupID ← tree.getSlot 0 size
    let tree ← tree.shiftGroup groupID size assets
    return (some groupID, tree)

/-- Write the group into the row of an asset and the row of the asset into its group. -/
def listAsset (tree : AssetGroupTree) (groupID assetID : Nat) :
    Except TreeFault AssetGroupTree := do
  let row ← tree.getGroupRow groupID
  let asset := { tree.assets.getRow assetID with group := row.thisGroup }
  let tree ← { tree with assets := tree.assets.overwrite assetID asset }.setSlot
    row.thisGroup row.size assetID
  tree.editGroupRow groupID fun row => { row with size := row.size + 1 }

/-- `lpAssets->Add`. -/
def addAssetRow (tree : AssetGroupTree) (row : AssetRow) : AssetGroupTree :=
  { tree with assets := tree.assets.add AssetRow.ref row }

/-- The part of the first `GetGroup` that stores an asset not seen before.  The variable it
returns is the zero that was stored before the group was found. -/
def addAsset (tree : AssetGroupTree) (ref : Bytes) :
    Except TreeFault (Int × AssetGroupTree) := do
  let tree ← tree.resize 1
  let assetID := tree.assets.count
  let (thisGroup, tree) ← (tree.addAssetRow ⟨ref, 0⟩).findAndShiftBestGroup 1
  match thisGroup with
  | none => return (-1, tree)
  | some groupID =>
      let tree ← tree.listAsset groupID assetID
      return (0, tree)

/-- `CAssetGroupTree::GetGroup` of one asset. -/
def getGroupOfAsset (tree : AssetGroupTree) (ref : Bytes) (addIfNeeded : Bool) :
    Except TreeFault (Int × AssetGroupTree) :=
  if tree.assetsPerGroup = 0 then .ok (-1, tree)
  else
    match tree.assets.seek AssetRow.ref ref with
    | some row => .ok ((tree.assets.getRow row).group, tree)
    | none => if addIfNeeded then tree.addAsset ref else .ok (0, tree)

/-- One round of the first loop of the second `GetGroup`. -/
def scanAsset (scanned : Int × AssetGroupTree) (ref : Bytes) :
    Except TreeFault (Int × AssetGroupTree) :=
  if getABRefType ref ≠ assetRefTypeSpecial ∧ getABRefType ref ≠ assetRefTypeGenesis then do
    let (g, tree) ← scanned.2.getGroupOfAsset ref false
    if 0 < g then
      return (if scanned.1 = -2 then g else if g = scanned.1 then scanned.1 else -3, tree)
    else return (scanned.1, tree.addAssetRow ⟨ref, g⟩)
  else .ok scanned

/-- The group for new assets that come together: that of the old assets beside them when it has
the room, otherwise the best of all groups. -/
def chooseGroup (tree : AssetGroupTree) (groupID : Int) (newAssets : Nat) :
    Except TreeFault (Option Nat × AssetGroupTree) :=
  if 0 < groupID then do
    let row ← tree.getGroupRow groupID.toNat
    if row.size + newAssets ≤ tree.assetsPerGroup then
      let tree ← tree.shiftGroup groupID.toNat row.size newAssets
      return (some groupID.toNat, tree)
    else return (none, tree)
  else tree.findAndShiftBestGroup newAssets

/-- The last loop of the second `GetGroup`, over the references behind the rewound count. -/
def addOneByOne : List Bytes → AssetGroupTree → Except TreeFault (Int × AssetGroupTree)
  | [], tree => .ok (0, tree)
  | ref :: refs, tree => do
      let (g, tree) ← tree.getGroupOfAsset ref true
      if g < 0 then return (g, tree) else addOneByOne refs tree

/-- `lpAssets->SetCount` to an earlier count. -/
def rewind (tree : AssetGroupTree) (count : Nat) : AssetGroupTree :=
  { tree with assets := tree.assets.setCount AssetRow.ref count }

/-- The part of the second `GetGroup` after the search for the old assets. -/
def groupNewAssets (tree : AssetGroupTree) (groupID : Int) (lastAssetCount : Nat) :
    Except TreeFault (Int × AssetGroupTree) := do
  let newAssetCount := tree.assets.count
  let tree ← tree.resize (newAssetCount - lastAssetCount)
  let (thisGroup, tree) ← tree.chooseGroup groupID (newAssetCount - lastAssetCount)
  match thisGroup with
  | some chosen =>
      -- the source writes the groups of the assets twice, the second time in this loop
      let tree ← (List.range' lastAssetCount (newAssetCount - lastAssetCount)).foldlM
        (fun tree assetID => tree.listAsset chosen assetID) tree
      let row ← tree.getGroupRow chosen
      return (if groupID < 0 then groupID else row.thisGroup, tree)
  | none =>
      addOneByOne ((tree.assets.rows.drop lastAssetCount).map AssetRow.ref)
        (tree.rewind lastAssetCount)

/-- `CAssetGroupTree::GetGroup` of a buffer of assets. -/
def getGroup (tree : AssetGroupTree) (assets : List Bytes) (addIfNeeded : Bool) :
    Except TreeFault (Int × AssetGroupTree) :=
  if tree.assetsPerGroup = 0 then .ok (-1, tree)
  else do
    let lastAssetCount := tree.assets.count
    let (groupID, tree) ← assets.foldlM scanAsset (-2, tree)
    if lastAssetCount = tree.assets.count then return (groupID, tree)
    let groupID := if groupID = -2 then 0 else groupID
    if addIfNeeded then tree.groupNewAssets groupID lastAssetCount
    else return (0, tree.rewind lastAssetCount)

end AssetGroupTree

/-- A call of one of the two `GetGroup`. -/
inductive GroupCall
  | ofAsset (ref : Bytes) (addIfNeeded : Bool)
  | ofBuffer (refs : List Bytes) (addIfNeeded : Bool)

/-- The tree after a call. -/
def GroupCall.run (tree : AssetGroupTree) : GroupCall → Except TreeFault (Int × AssetGroupTree)
  | .ofAsset ref addIfNeeded => tree.getGroupOfAsset ref addIfNeeded
  | .ofBuffer refs addIfNeeded => tree.getGroup refs addIfNeeded

end HdacNode
