import HdacNode.AcceptOutputs

/-!
# Issues of assets

`AcceptAssetGenesisFromPredefinedIssuers` looks for the issue of an asset, or for a
follow-on issue, in the outputs of a transaction, finds the inputs that may issue it,
and enters it.  A new asset takes the checkpoint of the permission store a second time.
-/

namespace HdacNode

open FailingActions WrappedTotals

namespace Accept

/-- `SetCheckPoint` on the permission store. -/
def setCheckPoint : Accept Unit :=
  assign fun st => { st with permissions := st.permissions.setCheckPoint }

/-- `RollBackToCheckPoint` on the permission store. -/
def rollBackToCheckPoint : Accept Unit :=
  assign fun st => { st with permissions := st.permissions.rollBackToCheckPoint }

/-- A call that inserts into the entity store. -/
def insert (run : AssetDB → EntityOutcome) : Accept (Option McError) := do
  match ← query fun st => run st.assets with
  | .fault => throw .fault
  | .ended err assets => do
      assign fun st => { st with assets }
      pure err

end Accept

open Accept

/-- The variables of the loop over the outputs.  `detailsType` is `none` for the value
-1 of `details_script_type`. -/
structure IssueScan where
  newIssue : Bool
  total : Int
  detailsType : Option Bool
  detailsScript : Bytes
  assetName : Bytes
  multiple : Nat
  shortTxid : Bytes
  followOns : AmountBuffer

/-- An issue that the outputs describe: a new asset, or a follow-on of an entity. -/
structure AssetIssue where
  original : Option EntityRow
  total : Int
  scan : IssueScan

/-- Whether the issue is the one of a new asset. -/
def AssetIssue.isNew (issue : AssetIssue) : Bool := issue.original.isNone

/-- The entity whose issuers may enter the issue. -/
def AssetIssue.permissionEntity (issue : AssetIssue) : Entity :=
  (issue.original.map EntityRow.permissionEntity).getD .null

/-- The bytes of an address. -/
def addressBytes (address : Address) : Bytes := (putLE address.toNat 20).reverse

namespace AcceptCall

variable (call : AcceptCall)

section Scan

/-- The name in the details of a new asset: `none` when the copy of it does not fit. -/
def assetNameOf (script : Bytes) : Option Bytes :=
  let param := DetailsScript.findSpecialParam script mcEntSprmName
  if script.length ≤ param.1 then some []
  else if mcEntMaxNameSize < param.2 then none
  else some ((DetailsScript.value script param).takeWhile (· ≠ 0))

/-- The multiple in the details of a new asset. -/
def assetMultipleOf (script : Bytes) : Nat :=
  let param := DetailsScript.findSpecialParam script mcEntSprmAssetMultiple
  if script.length ≤ param.1 then 1 else getLE (DetailsScript.value script param) % 2 ^ 32

/-- A metadata output with one OP_DROP element: the details of a new asset. -/
def scanDetails (scan : IssueScan) (element : Bytes) : Accept IssueScan :=
  match getNewEntityType element with
  | .error .wrongScript => pure scan
  | .error .errorInScript => reject "Asset details script rejected - error in script"
  | .ok found => do
      let scan := { scan with detailsScript := found.script }
      if found.type = mcEntTypeAsset then
        rejectIf scan.detailsType.isSome "Metadata script rejected - too many new entities"
        if found.isUpdate then pure scan
        else
          match assetNameOf found.script with
          | none => throw .fault
          | some assetName =>
              pure { scan with detailsType := some false, assetName, multiple :=
                assetMultipleOf found.script }
      else pure scan

/-- The second element of a metadata output, or the only one: the update of an asset.
The details script is taken over before it is checked. -/
def scanUpdate (scan : IssueScan) (script : Script) : Accept IssueScan :=
  match newEntityElement (script.elementAt 1) with
  | none => pure scan
  | some found => do
      let scan := { scan with detailsScript := found.script }
      if DetailsScript.verify found.script then
        rejectIf (!found.isUpdate)
          "Metadata script rejected - wrong element, should be entity update"
        rejectIf scan.detailsType.isSome
          "Metadata script rejected - too many new new entities/entity updates"
        rejectIf (found.type ≠ mcEntTypeAsset)
          "Metadata script rejected - wrong entity type, should be asset"
        match getEntityElement (script.elementAt 0) with
        | none => reject "Metadata script rejected - wrong element, should be entityref"
        | some shortTxid => do
            let entity ← findEntity fun assets => assets.findEntityByShortTxID shortTxid
            rejectIf entity.isNone "Metadata script rejected - entity not found"
            pure { scan with detailsType := some true, shortTxid }
      else pure scan

/-- An element of another output: an issue or a follow-on. -/
def scanElement (out : CTxOut) (scan : IssueScan) (element : Bytes) : Accept IssueScan :=
  match getAssetGenesis element with
  | .ok quantity => do
      rejectIf (addInt64 quantity scan.total < 0) "Asset issue script rejected - overflow"
      rejectIf ((call.env.reader.extractDestination out.scriptPubKey).bind
          CTxDestination.address?).isNone "Asset issue script rejected - wrong destination type"
      pure { scan with newIssue := true, total := addInt64 scan.total quantity }
  | .error .notAllowed => reject "Asset issue script rejected - error in script"
  | .error .wrongScript =>
      match getAssetQuantities scan.followOns element mcScrAssetScriptTypeFollowon with
      | .ok followOns => pure { scan with followOns }
      | .error .wrongScript => pure scan
      | .error .notAllowed =>
          reject "Asset follow-on script rejected - error in follow-on script"

/-- An output in the loop. -/
def scanOutput (scan : IssueScan) (out : CTxOut) : Accept IssueScan := do
  let script := call.env.reader.setScript out.scriptPubKey
  if script.isOpReturnScript then
    let scan ←
      (if script.getNumElements = 2 then scanDetails scan (script.elementAt 0)
        else pure scan : Accept IssueScan)
    if script.getNumElements ≠ 0 then scanUpdate scan script else pure scan
  else script.elements.foldlM (call.scanElement out) scan

/-- The variables before the loop. -/
def scanIssueStart : IssueScan := ⟨false, 0, none, [], [], 1, [], .initABufferMap⟩

end Scan

section Decide

/-- The entity that a follow-on belongs to. -/
def followOnEntity (scan : IssueScan) : Accept EntityRow := do
  if scan.followOns.count = 0 then
    match ← findEntity fun assets => assets.findEntityByShortTxID scan.shortTxid with
    | none => reject "Details script rejected - entity not found"
    | some entity => pure entity
  else
    match ← findEntity fun assets =>
        assets.findEntityByFullRef (scan.followOns.getRow 0).fullRef with
    | none => reject "Asset follow-on script rejected - asset not found"
    | some entity => pure entity

/-- The checks of a follow-on. -/
def decideFollowOn (scan : IssueScan) (newIssue : Bool) : Accept AssetIssue := do
  rejectIf (1 < scan.followOns.count)
    "Asset follow-on script rejected - follow-on for several assets"
  rejectIf newIssue
    "Asset follow-on script rejected - follow-on and issue in one transaction"
  let entity ← followOnEntity scan
  rejectIf (entity.allowedFollowOns = 0)
    "Asset follow-on script rejected - follow-ons not allowed for this asset"
  rejectIf (scan.detailsType.isSome ∧ entity.shortTxid ≠ scan.shortTxid)
    "Asset follow-on script rejected - mismatch in follow-on quantity asset and details script"
  if scan.followOns.count = 0 then pure ⟨some entity, 0, scan⟩
  else
    let total := (scan.followOns.getRow 0).quantity
    let issued ← query fun st => st.assets.getTotalQuantity entity
    rejectIf (addInt64 total issued < 0)
      "Asset follow-on script rejected - exceeds maximal value for asset"
    pure ⟨some entity, total, scan⟩

/-- The issue that the outputs describe. -/
def decideIssue (scan : IssueScan) : Accept (Option AssetIssue) := do
  let newIssue : Bool := scan.newIssue || scan.detailsType = some false
  let followOn : Bool := scan.detailsType = some true || scan.followOns.count ≠ 0
  if followOn then some <$> decideFollowOn scan newIssue
  else if newIssue then pure (some ⟨none, scan.total, scan⟩)
  else pure none

/-- The inputs that may enter an issue, with their flags. -/
def issuersOf (permissions : Permissions) (issue : AssetIssue) : List (Address × Nat) :=
  (call.scan.rights.filter fun input =>
    input.hashType = sigHashAll ∧ input.destination ≠ 0 ∧
      permissions.canIssue call.env.params issue.permissionEntity input.destination).map
    fun input =>
      (input.destination, if input.scriptType = .scriptHash then mcPflIsScripthash else mcPflNone)

end Decide

section Enter

/-- A grant of the first permissions of a new entity. -/
def genesisGrant (address : Address) (type : Nat) (admin : Address) (flags : Nat)
    (updateMempool : Bool) : Grant where
  entity := .genesis call.tx.hash
  address := address
  type := type
  admin := admin
  blockFrom := 0
  blockTo := Permissions.openRange
  timestamp := 0
  flags := flags ||| mcPflEntityGenesis
  updateMempool := updateMempool
  offset := call.offset

/-- The owners without repetitions, with the places they have on the list. -/
def distinctOwners (owners : List (Address × Nat)) : List ((Address × Nat) × Nat) :=
  owners.zipIdx.filter fun entry =>
    !(owners.take entry.2).any fun earlier => earlier.1 = entry.1.1

/-- The owners as they are stored in the script of an entity. -/
def ownersScript (owners : List (Address × Nat)) : Bytes :=
  ((distinctOwners owners).filter fun entry => entry.2 < mcEntMaxStoredIssuers).flatMap
      (fun entry => specialParamValue mcEntSprmIssuer
        (addressBytes entry.1.1 ++ putLE entry.1.2 4)) ++
    specialParamValue mcEntSprmIssuer [0]

/-- Enter grants until one fails: whether all have been entered. -/
def setPermissions (grants : List Grant) : Accept Bool :=
  grants.foldlM (fun entered grant =>
    if entered then Accept.setPermission call.env.params.toNetworkParams grant
    else pure false) true

/-- The permissions of a new asset: the first record of its list, and the ones of its
issuers. -/
def assetGrants (issuers : List (Address × Nat)) (first : Address) (accept : Bool) :
    List Grant :=
  call.genesisGrant 0 mcPtpConnect first mcPflNone accept ::
    (distinctOwners issuers).map fun entry =>
      call.genesisGrant entry.1.1 (mcPtpAdmin ||| mcPtpIssue) first mcPflNone accept

/-- Enter the permissions of a new asset, and roll them back unless the transaction is
accepted. -/
def grantAsset (issuers : List (Address × Nat)) (first : Address) (accept : Bool) :
    Accept Unit := do
  let entered ← call.setPermissions (call.assetGrants issuers first accept)
  runIf (!entered ∨ !accept) rollBackToCheckPoint
  rejectIf (!entered) "Cannot update permission database for issued asset"

/-- The permissions of a new asset are entered behind a checkpoint of their own. -/
def enterAssetPermissions (issuers : List (Address × Nat)) (first : Address)
    (accept : Bool) : Accept Unit := do
  setCheckPoint
  call.grantAsset issuers first accept

/-- The insertion of an issue into the entity store. -/
def insertIssue (issue : AssetIssue) (specialScript : Bytes) (accept : Bool)
    (assets : AssetDB) : EntityOutcome :=
  match issue.original with
  | none =>
      assets.insertAsset (txidBytes call.tx.hash) call.offset issue.total issue.scan.assetName
        issue.scan.multiple issue.scan.detailsScript specialScript accept
  | some entity =>
      assets.insertAssetFollowOn (txidBytes call.tx.hash) call.offset issue.total
        issue.scan.detailsScript specialScript entity.txid accept

/-- Enter an issue into the entity store. -/
def enterIssueRow (issue : AssetIssue) (issuers : List (Address × Nat)) (accept : Bool) :
    Accept Unit := do
  match ← insert (call.insertIssue issue (ownersScript issuers) accept) with
  | some .found =>
      reject "Asset issue script rejected - entity with this name/asset-ref/txid already exists"
  | some _ => reject "Asset issue script rejected - could not insert new asset to database"
  | none =>
      if accept ∧ 0 ≤ call.offset then
        let entity ← findEntity fun assets => assets.findEntityByTxID (txidBytes call.tx.hash)
        rejectIf entity.isNone
          "Asset issue script rejected - could not insert new asset to database"

/-- Enter an issue into the stores. -/
def enterIssue (issue : AssetIssue) (issuers : List (Address × Nat)) (first : Address)
    (accept : Bool) : Accept Unit := do
  runIf issue.isNew (call.enterAssetPermissions issuers first accept)
  call.enterIssueRow issue issuers accept

/-- What `AcceptAssetGenesisFromPredefinedIssuers` finds out before it enters anything:
the issue with its issuers. -/
def findIssue : Accept (Option (AssetIssue × List (Address × Nat))) := do
  let scan ← call.tx.vout.foldlM call.scanOutput scanIssueStart
  match ← decideIssue scan with
  | none => pure none
  | some issue => do
      let newEntityOutput ← query AcceptState.newEntityOutput
      rejectIf newEntityOutput.isSome
        "Asset issue script rejected - not allowed in this transaction, conflicts with other entities"
      assign fun st => { st with fullReplayCheckRequired := true }
      let issuers ← askPermissions fun permissions => call.issuersOf permissions issue
      pure (some (issue, issuers))

/-- `AcceptAssetGenesisFromPredefinedIssuers`. -/
def acceptAssetGenesis (accept : Bool) : Accept Unit := do
  if call.tx.isCoinBase then pure ()
  else
    match ← call.findIssue with
    | none => pure ()
    | some (_, []) => reject "Inputs don't belong to valid issuer"
    | some (issue, issuers@((first, _) :: _)) => call.enterIssue issue issuers first accept

end Enter

end AcceptCall

end HdacNode
