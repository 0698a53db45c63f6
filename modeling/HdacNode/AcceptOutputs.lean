import HdacNode.AcceptInputs
import HdacNode.FailingActions

/-!
# The passes over the outputs

`AcceptHdacTransaction` goes over the outputs four times.  The first pass checks the
scripts, collects who was an admin before the transaction, and grants the permissions
that no other grant depends on; the second pass grants the right to create, issue and
activate, the third one the right to mine and to administrate.  The last pass looks at
everything else: approvals, stream items, asset amounts and the right to receive.
-/

namespace HdacNode

open FailingActions

/-- The passes, numbered 0 to 3 in the source. -/
inductive OutputPass where
  | scripts
  | creation
  | governance
  | contents
  deriving DecidableEq, Repr

/-- The permission types that a pass grants. -/
def OutputPass.grantedTypes : OutputPass → Nat
  | .scripts => mcPtpConnect ||| mcPtpSend ||| mcPtpReceive ||| mcPtpWrite ||| mcPtpBanned
  | .creation => mcPtpCreate ||| mcPtpIssue ||| mcPtpActivate
  | .governance => mcPtpMine ||| mcPtpAdmin
  | .contents => 0

/-- The variables of `AcceptHdacTransaction` behind its loop over the inputs.  Inputs are
named by their number, and an element by the numbers of its input, output and place. -/
structure AcceptState extends NodeState where
  canGrantAdminMine : List Bool
  hadAdminPermission : List Bool
  allowedAdmins : List (Nat × Nat × Nat)
  allowedActivators : List (Nat × Nat × Nat)
  newEntityOutput : Option Nat
  newEntityType : Nat
  detailsScript : Bytes
  fullReplayCheckRequired : Bool
  adminMinerGrant : Bool
  checkBannedScript : Bool

/-- The actions of `AcceptHdacTransaction`: the state they reach stays when they reject
the transaction. -/
abbrev Accept := EStateM Rejection AcceptState

namespace Accept

/-- Reject the transaction with a reason. -/
def reject {α : Type} (text : String) : Accept α := throw (.reason text)

/-- Reject the transaction under a condition. -/
def rejectIf (condition : Bool) (text : String) : Accept Unit :=
  if condition then reject text else pure ()

/-- Act under a condition. -/
def runIf (condition : Bool) (act : Accept Unit) : Accept Unit :=
  if condition then act else pure ()

/-- Change the variables. -/
def assign (change : AcceptState → AcceptState) : Accept Unit :=
  update fun st => ((), change st)

/-- An answer of the permission store. -/
def askPermissions {α : Type} (read : Permissions → α) : Accept α :=
  query fun st => read st.permissions

/-- An entity that the entity store finds, as `mc_EntityDetails::Set` takes it over. -/
def findEntity (find : AssetDB → Option EntityRow) : Accept (Option EntityRow) := do
  match ← query fun st => find st.assets with
  | none => pure none
  | some row => if (EntityDetails.ofRow row).NameFits then pure (some row) else throw .fault

/-- `SetPermission` on the permission store: whether it succeeds. -/
def setPermission (params : NetworkParams) (grant : Grant) : Accept Bool :=
  update fun st =>
    let (permissions, err) := st.permissions.setPermission params grant
    (err.isNone, { st with permissions })

/-- `SetApproval` on the permission store: whether it succeeds. -/
def setApproval (params : NetworkParams) (approval : Permissions.Approval) : Accept Bool :=
  update fun st =>
    let (permissions, err) := st.permissions.setApproval params approval
    (err.isNone, { st with permissions })

end Accept

open Accept

/-- The call of `AcceptHdacTransaction` that the passes belong to. -/
structure AcceptCall where
  env : AcceptEnv
  tx : CTransaction
  offset : Int
  scan : InputScan
  checksCachedScript : Bool

namespace AcceptCall

variable (call : AcceptCall)

/-- The inputs with their numbers. -/
def numberedInputs : List (InputRights × Nat) := call.scan.rights.zipIdx

section CachedScripts

/-- An entry of a cached script element: it has to be the script that its input
spends. -/
def checkCachedScript (found : CachedScript) : Accept Unit := do
  match call.tx.vin[found.vin]? with
  | none => reject "Metadata script rejected - invalid input in cached script"
  | some input =>
      match call.env.inputs.prevScript input.prevout with
      | none => throw .fault
      | some prevScript =>
          rejectIf (found.script.length ≠ prevScript.length)
            "Metadata script rejected - cached script mismatch"
          rejectIf (found.script ≠ prevScript) "Metadata script rejected - cached script mismatch"
          let signsAll : Bool := (call.scan.rights[found.vin]?).any fun input =>
            input.hashType = sigHashAll
          if call.checksCachedScript ∧ signsAll then
            assign fun st =>
              { st with canGrantAdminMine := st.canGrantAdminMine.set found.vin true }

/-- The loop over the entries of a cached script element. -/
def readCachedScripts (element : Bytes) : Nat → Nat → Accept Unit
  | 0, _ => pure ()
  | fuel + 1, offset =>
      if element.length = offset then pure ()
      else
        match cachedScriptAt element offset with
        | none => reject "Metadata script rejected - error in cached script"
        | some found => do
            call.checkCachedScript found
            readCachedScripts element fuel found.nextOffset

end CachedScripts

section Metadata

/-- What `GetNewEntityType` has written, also when the details script is wrong. -/
def readNewEntity (element : Bytes) : Accept (Except NewEntityError NewEntityElement) := do
  match newEntityElement element with
  | none => pure ()
  | some found => assign fun st =>
      { st with newEntityType := found.type, detailsScript := found.script }
  pure (getNewEntityType element)

/-- The element of a metadata output with one OP_DROP: cached scripts or a new
entity. -/
def checkMetadataElement (j : Nat) (element : Bytes) : Accept Unit := do
  let cached := holdsCachedScripts element
  runIf cached (call.readCachedScripts element element.length (mcDctScriptIdentifierLen + 1))
  match ← readNewEntity element with
  | .ok found => do
      let earlier ← query AcceptState.newEntityOutput
      rejectIf earlier.isSome "Metadata script rejected - too many new entities"
      rejectIf found.isUpdate
        "Metadata script rejected - entity update script should be preceded by entityref"
      rejectIf (mcEntTypeMax < found.type) "Metadata script rejected - unsupported new entity type"
      if found.type ≠ mcEntTypeAsset then
        assign fun st => { st with newEntityOutput := some j }
  | .error .errorInScript => reject "Entity details script rejected - error in script"
  | .error .wrongScript =>
      rejectIf (!cached)
        "Metadata script rejected - Unrecognized script, should be new entity or input script cache"

/-- The admins before the transaction, collected once for an approval. -/
def collectAdmins : Accept Unit := do
  let collected ← query AcceptState.hadAdminPermission
  if collected = [] then
    let admins ← askPermissions fun permissions => call.scan.rights.map fun input =>
      permissions.canAdmin call.env.params.toNetworkParams .null input.destination
    assign fun st => { st with hadAdminPermission := admins }

/-- A metadata output in the first pass. -/
def checkMetadata (j : Nat) (script : Script) : Accept Unit := do
  let signedAlone : Bool := (call.scan.rights[j]?).any fun input => input.hashType = sigHashSingle
  rejectIf (!call.scan.scriptHashAllFound && !signedAlone)
    "Output with metadata should be properly signed"
  let numElements := script.getNumElements
  rejectIf (1 < numElements && call.scan.rejectIfOpDropOpReturn)
    "Non-standard, P2PK or bare multisig inputs cannot be used in this tx"
  rejectIf (1 < numElements && script.isDirtyOpReturnScript)
    "Non-standard, Only OP_DROP elements are allowed in metadata outputs with OP_DROP"
  runIf (numElements = 2) (call.checkMetadataElement j (script.elementAt 0))
  rejectIf (3 < numElements) "Metadata script rejected - too many elements"
  if numElements = 3 ∧ (getApproval (script.elementAt 1)).isSome then call.collectAdmins

/-- The element behind the reference of an asset: an update of it. -/
def checkAssetUpdate (element : Bytes) : Accept Unit := do
  match ← readNewEntity element with
  | .ok found => do
      rejectIf (!found.isUpdate) "Metadata script rejected - wrong element, should be entity update"
      rejectIf (found.type ≠ mcEntTypeAsset)
        "Metadata script rejected - entity type mismatch in update script"
  | .error _ => reject "Metadata script rejected - wrong element, should be entity update"

/-- The vote of an input for an upgrade. -/
def approvalOf (entity : EntityRow) (approval timestamp : Nat) (admin : Address) :
    Permissions.Approval where
  upgrade := upgradeOfTxid entity.txid
  approval := approval ≠ 0
  admin := some admin
  blockFrom := entity.upgradeStartBlock
  timestamp := timestamp
  flags := mcPflNone
  updateMempool := true
  offset := call.offset

/-- An input in the loop that enters the approval of an upgrade. -/
def approveUpgrade (entity : EntityRow) (approval timestamp j : Nat) (fAdminFound : Bool)
    (entry : InputRights × Nat) : Accept Bool := do
  let (input, i) := entry
  let hadAdmin ← query fun st => st.hadAdminPermission.getD i false
  if hadAdmin ∧ input.signs i j then
    let entered ← Accept.setApproval call.env.params.toNetworkParams
      (call.approvalOf entity approval timestamp input.destination)
    pure (fAdminFound || entered)
  else pure fAdminFound

/-- The element behind the reference of an upgrade: an approval. -/
def enterApproval (entity : EntityRow) (j : Nat) (element : Bytes) : Accept Unit := do
  match getApproval element with
  | none => reject "Metadata script rejected - wrong element, should be upgrade approval"
  | some (approval, timestamp) => do
      let fAdminFound ←
        call.numberedInputs.foldlM (call.approveUpgrade entity approval timestamp j) false
      rejectIf (!fAdminFound) "Inputs don't belong to valid admin for approval script"

/-- The inputs that sign a stream item may all write to the stream. -/
def checkPublishers (entity : EntityRow) (j : Nat) : Accept Unit := do
  let valid ← askPermissions fun permissions => call.numberedInputs.all fun entry =>
    entity.anyoneCanWrite ≠ 0 || !entry.1.signs entry.2 j ||
      permissions.canWrite entity.permissionEntity entry.1.destination
  rejectIf (!valid) "Metadata script rejected - Inputs don't belong to valid publisher"

/-- A metadata output with two OP_DROP elements in the last pass. -/
def enterMetadata (j : Nat) (script : Script) : Accept Unit := do
  match getEntityElement (script.elementAt 0) with
  | none => reject "Metadata script rejected - wrong element, should be entityref"
  | some shortTxid => do
      match ← findEntity fun assets => assets.findEntityByShortTxID shortTxid with
      | none => reject "Metadata script rejected - entity not found"
      | some entity =>
          if entity.entityType = mcEntTypeAsset then
            checkAssetUpdate (script.elementAt 1)
          else if entity.entityType = mcEntTypeUpgrade then
            call.enterApproval entity j (script.elementAt 1)
          else do
            rejectIf (getItemKey (script.elementAt 1)).isNone
              "Metadata script rejected - wrong element, should be item key"
            call.checkPublishers entity j

/-- A metadata output. -/
def processMetadata (pass : OutputPass) (j : Nat) (script : Script) : Accept Unit :=
  match pass with
  | .scripts => call.checkMetadata j script
  | .creation => pure ()
  | .governance => pure ()
  | .contents => if script.getNumElements = 3 then call.enterMetadata j script else pure ()

end Metadata

section Grants

/-- The inputs that may grant an element, as they are before the transaction. -/
def collectGranters (entity : EntityRow) (j e : Nat) : Accept Unit := do
  let admins ← askPermissions fun permissions => call.numberedInputs.filter fun entry =>
    entry.1.signs entry.2 j ∧ permissions.canAdmin call.env.params.toNetworkParams
      entity.permissionEntity entry.1.destination
  let activators ← askPermissions fun permissions => call.numberedInputs.filter fun entry =>
    entry.1.signs entry.2 j ∧ permissions.canActivate call.env.params.toNetworkParams
      entity.permissionEntity entry.1.destination
  assign fun st => { st with
    allowedAdmins := st.allowedAdmins ++ admins.map fun entry => (entry.2, j, e)
    allowedActivators := st.allowedActivators ++ activators.map fun entry => (entry.2, j, e) }

/-- The types of a permission element that a pass grants to an address. -/
structure GrantedElement where
  entity : EntityRow
  address : Address
  flags : Nat
  type : Nat
  found : PermissionElement

/-- The arguments of `SetPermission` for an input. -/
def grantOf (element : GrantedElement) (admin : Address) : Grant where
  entity := element.entity.permissionEntity
  address := element.address
  type := element.type
  admin := admin
  blockFrom := element.found.blockFrom
  blockTo := element.found.blockTo
  timestamp := element.found.timestamp
  flags := element.flags
  updateMempool := true
  offset := call.offset

/-- Whether an input is on the list of those that may grant an element. -/
def mayGrant (st : AcceptState) (type i j e : Nat) : Bool :=
  if Permissions.isActivateEnough type then (i, j, e) ∈ st.allowedActivators
  else (i, j, e) ∈ st.allowedAdmins

/-- Enter the permission that an input grants. -/
def grantByInput (element : GrantedElement) (input : InputRights) : Accept Bool := do
  assign fun st => { st with fullReplayCheckRequired := true }
  let entered ← Accept.setPermission call.env.params.toNetworkParams
    (call.grantOf element input.destination)
  runIf (entered ∧ element.type &&& mcPtpBanned ≠ 0)
    (assign fun st => { st with checkBannedScript := true })
  pure entered

/-- An input in the loop that grants an element.  The answer holds `fAdminFound` and
`fAdminFoundWithoutCachedScript`. -/
def grantStep (element : GrantedElement) (j e : Nat) (found : Bool × Bool)
    (entry : InputRights × Nat) : Accept (Bool × Bool) := do
  let (input, i) := entry
  let allowed ← query fun st => mayGrant st element.type i j e
  if allowed ∧ input.destination ≠ 0 then
    let canGrant ← query fun st => st.canGrantAdminMine.getD i false
    if element.type &&& (mcPtpAdmin ||| mcPtpMine) = 0 ∨ canGrant ∨
        0 < element.entity.entityType then
      let entered ← call.grantByInput element input
      pure (found.1 || entered, found.2)
    else pure (found.1, true)
  else pure found

/-- Whether an output belongs to a watch-only address of the wallet: `none` where the
source reads the first of no addresses. -/
def isWatched (wallet : Wallet) (out : CTxOut) : Option Bool :=
  let destinations := call.env.reader.extractDestinations out.scriptPubKey
  if destinations.found then
    destinations.addressRets.head?.map fun destination =>
      wallet.isMine destination = .watchOnly
  else some false

/-- The loop over all outputs that looks for a watch-only address. -/
def findsWatched (wallet : Wallet) : Option Bool :=
  call.tx.vout.foldlM (fun found out => (call.isWatched wallet out).map (found || ·)) false

/-- The last resort of a permission that no input grants: an output with a watch-only
address. -/
def passWatched (withoutCachedScript : Bool) : Accept Unit := do
  match ← query fun st => call.findsWatched st.wallet with
  | none => throw .fault
  | some watched => if watched then pure () else throw (.missingAdmin withoutCachedScript)

/-- Grant the types of a permission element. -/
def grantElement (element : GrantedElement) (j e : Nat) : Accept Unit := do
  let (fAdminFound, withoutCachedScript) ←
    call.numberedInputs.foldlM (call.grantStep element j e) (false, false)
  if fAdminFound then pure () else call.passWatched withoutCachedScript

/-- The address that an element grants permissions to, with the flags. -/
def grantedAddress (destinations : Destinations) : Accept (Address × Nat) :=
  match destinations.addressRets with
  | [] => throw .fault
  | [.keyID address] => pure (address, mcPflNone)
  | [.scriptID address] => pure (address, mcPflIsScripthash)
  | _ => reject "Permission script rejected - wrong destination type"

/-- A permission element. -/
def processPermission (pass : OutputPass) (destinations : Destinations) (entity : EntityRow)
    (j e : Nat) (found : PermissionElement) : Accept Unit := do
  rejectIf (!destinations.found)
    "Script rejected - wrong destination type in output with permission script"
  let type := found.type &&& pass.grantedTypes
  runIf (pass = .governance ∧ type ≠ 0) (assign fun st => { st with adminMinerGrant := true })
  runIf (pass = .scripts) (call.collectGranters entity j e)
  if type ≠ 0 then
    let (address, flags) ← grantedAddress destinations
    call.grantElement ⟨entity, address, flags, type, found⟩ j e

/-- An element of an output: the entity for the permission behind it, a permission, or
anything else.  The answer holds the entity and `fIsPurePermission`. -/
def processElement (pass : OutputPass) (destinations : Destinations) (j : Nat)
    (acc : EntityRow × Bool) (entry : Bytes × Nat) : Accept (EntityRow × Bool) := do
  let (entity, isPurePermission) := acc
  match getEntityElement entry.1 with
  | some shortTxid => do
      rejectIf (entity.entityType ≠ 0) "Script rejected - duplicate entity script"
      match ← findEntity fun assets => assets.findEntityByShortTxID shortTxid with
      | none => reject "Script rejected - entity not found"
      | some entity => pure (entity, isPurePermission)
  | none =>
      match getPermissionElement entry.1 with
      | some found => do
          call.processPermission pass destinations entity j entry.2 found
          pure (.zero, isPurePermission)
      | none => do
          rejectIf (entity.entityType ≠ 0)
            "Script rejected - entity script should be followed by permission"
          pure (entity, false)

end Grants

section Payments

/-- Import the address of an output that the wallet does not know as watch-only. -/
def importAddress (destination : CTxDestination) : Accept Unit := do
  let known ← query fun st => decide (st.wallet.isMine destination ≠ .no)
  if !known then
    assign fun st => { st with
      wallet := ⟨Function.update st.wallet.isMine destination .watchOnly⟩ }
    if !call.env.replay ∧ call.env.rescansOnImport then
      assign fun st => { st with toNodeState := call.env.rescan st.toNodeState }

/-- The number of receive permissions that an output requires. -/
def receiveRequired (script : Bytes) (destinations : Destinations) : Int :=
  let size : Int := destinations.addressRets.length
  if destinations.typeRet = .multisig then
    min (size - ((script.headD 0).toNat - 0x50) + 1) size
  else size

/-- Whether some setting of the protocol requires an address in every output. -/
def shouldHaveDestination : Bool :=
  !call.env.params.allowArbitraryOutputs || !call.env.params.anyoneCanReceive ||
    !call.env.params.allowMultisigOutputs || !call.env.params.allowP2SHOutputs

/-- The types of outputs that the protocol lets through, checked in the first pass. -/
def checkOutputType (destinations : Destinations) : Accept Unit := do
  let params := call.env.params
  rejectIf (!destinations.found && (!params.anyoneCanReceive || !params.allowArbitraryOutputs))
    "Script rejected - destination required "
  if !params.allowArbitraryOutputs then
    rejectIf (destinations.typeRet = .multisig && !params.allowMultisigOutputs)
      "Script rejected - multisig is not allowed"
    rejectIf (destinations.typeRet = .scriptHash && !params.allowP2SHOutputs)
      "Script rejected - P2SH is not allowed"

/-- The asset amounts of an output. -/
def extractAmounts : Accept Unit := do
  match ← query fun st => extractOutputAssetQuantities st.tmpAssetsOut ⟨st.tmpScript⟩ with
  | .ok amounts => assign fun st => { st with tmpAssetsOut := amounts }
  | .error text => reject text

/-- Whether an address may receive an output; the miner may always pay himself. -/
def mayReceive (permissions : Permissions) (address : Address) : Bool :=
  permissions.canReceive call.env.params .null address ||
    (call.tx.isCoinBase &&
      permissions.canMine call.env.params.toNetworkParams .null address ≠ 0)

/-- Dust and the right to receive, checked for an output that does more than grant. -/
def checkReceive (out : CTxOut) (destinations : Destinations) (numElements : Nat) :
    Accept Unit := do
  rejectIf (call.offset < 0 ∧ call.env.params.requireStandard ∧ call.env.isDust out ∧
    !call.tx.isCoinBase) "Transaction amount too small"
  rejectIf (destinations.addressRets.any fun destination => destination.address?.isNone)
    "Script rejected - wrong destination type"
  let receivers ← askPermissions fun permissions =>
    (destinations.addressRets.filterMap CTxDestination.address?).countP
      (call.mayReceive permissions)
  let required :=
    if call.shouldHaveDestination then receiveRequired out.scriptPubKey destinations else 0
  rejectIf (0 < required - receivers ∧
    (0 < out.nValue ∨ 0 < numElements ∨ !call.env.params.anyoneCanReceiveEmpty))
    "One of the outputs doesn't have receive permission"

/-- Banned addresses, checked for a transaction that enters the memory pool. -/
def checkBanned (destinations : Destinations) : Accept Unit := do
  let bansSet ← query AcceptState.checkBannedScript
  if destinations.found ∧ call.env.replay ∧ !bansSet then
    (destinations.addressRets.filterMap CTxDestination.address?).forM fun address => do
      let banned ← askPermissions fun permissions =>
        permissions.isBanned call.env.params .null address
      if banned then throw (.bannedAddress address)

/-- What the last pass does with an output behind its elements. -/
def checkContents (out : CTxOut) (destinations : Destinations) (isPurePermission : Bool) :
    Accept Unit := do
  extractAmounts
  let numElements ← query fun st => st.tmpScript.getNumElements
  runIf (!isPurePermission ∨ 0 < out.nValue) (call.checkReceive out destinations numElements)
  call.checkBanned destinations

/-- An output that is not a metadata output. -/
def processPayment (pass : OutputPass) (j : Nat) (out : CTxOut) : Accept Unit := do
  let destinations := call.env.reader.extractDestinations out.scriptPubKey
  runIf (destinations.found ∧ call.env.importAddrs)
    (destinations.addressRets.forM call.importAddress)
  runIf (pass = .scripts ∧ call.shouldHaveDestination) (call.checkOutputType destinations)
  let elements ← query fun st => st.tmpScript.elements
  let (entity, isPurePermission) ← elements.zipIdx.foldlM
    (call.processElement pass destinations j) (.zero, decide (elements ≠ []))
  rejectIf (entity.entityType ≠ 0) "Script rejected - incomplete entity script"
  if pass = .contents then call.checkContents out destinations isPurePermission

/-- An output in a pass. -/
def processOutput (pass : OutputPass) (entry : CTxOut × Nat) : Accept Unit := do
  let (out, j) := entry
  let script := call.env.reader.setScript out.scriptPubKey
  assign fun st => { st with tmpScript := script }
  if script.isOpReturnScript then call.processMetadata pass j script
  else call.processPayment pass j out

/-- The passes over the outputs. -/
def processOutputs : Accept Unit :=
  [OutputPass.scripts, .creation, .governance, .contents].forM fun pass =>
    call.tx.vout.zipIdx.forM (call.processOutput pass)

end Payments

end AcceptCall

end HdacNode
