import HdacNode.AcceptIssues
import HdacNode.EntityRecovery
import HdacNode.PermissionTraces

/-!
# Acceptance of a transaction

`AcceptHdacTransaction`: the inputs, the passes over the outputs behind a checkpoint of
the permission store, the comparison of the asset amounts, issues of assets, and the
entry of a new stream or upgrade.  A transaction that is rejected, or only checked, goes
back to the checkpoint.
-/

namespace HdacNode

open FailingActions Accept

namespace AcceptCall

variable (call : AcceptCall)

section NewEntities

/-- The inputs that open a new entity, with their flags. -/
def openersOf (permissions : Permissions) (entityType j : Nat) : List (Address × Nat) :=
  (call.numberedInputs.filter fun entry =>
    entry.1.signs entry.2 j ∧
      permissions.canCreate call.env.params .null entry.1.destination ∧
      (entityType ≠ mcEntTypeUpgrade ∨
        permissions.canAdmin call.env.params.toNetworkParams .null entry.1.destination)).map
    fun entry =>
      (entry.1.destination,
        if entry.1.scriptType = .scriptHash then mcPflIsScripthash else mcPflNone)

/-- The permissions of a new stream: the first record of its list, and the ones of its
openers. -/
def streamGrants (openers : List (Address × Nat)) (first : Address) (accept : Bool) :
    List Grant :=
  call.genesisGrant 0 mcPtpConnect first mcPflNone accept ::
    (distinctOwners openers).map fun entry =>
      call.genesisGrant entry.1.1 (mcPtpAdmin ||| mcPtpActivate ||| mcPtpWrite) entry.1.1
        entry.1.2 accept

/-- The approval that enters a new upgrade. -/
def newUpgradeApproval (detailsScript : Bytes) (accept : Bool) : Permissions.Approval where
  upgrade := upgradeOfTxid (txidBytes call.tx.hash)
  approval := true
  admin := none
  blockFrom :=
    let param := DetailsScript.findSpecialParam detailsScript mcEntSprmUpgradeStartBlock
    if param.1 = detailsScript.length then 0
    else (getLE (DetailsScript.value detailsScript param) : Nat)
  timestamp := call.env.timeNow
  flags := mcPflEntityGenesis
  updateMempool := accept
  offset := call.offset

/-- `InsertEntity`, with the approval that it enters for an upgrade: whether it
succeeds, or why not. -/
def insertEntity (entityType : Nat) (detailsScript specialScript : Bytes) (accept : Bool) :
    Accept (Option McError) := do
  match ← insert fun assets => assets.insertEntity (txidBytes call.tx.hash) call.offset
      entityType detailsScript specialScript accept with
  | some err => pure (some err)
  | none =>
      if entityType = mcEntTypeUpgrade then
        let entered ← Accept.setApproval call.env.params.toNetworkParams
          (call.newUpgradeApproval detailsScript accept)
        pure (if entered then none else some .notAllowed)
      else pure none

/-- Enter a new stream or upgrade. -/
def enterEntity (j : Nat) (accept : Bool) : Accept Unit := do
  assign fun st => { st with fullReplayCheckRequired := true }
  let entityType ← query AcceptState.newEntityType
  let detailsScript ← query AcceptState.detailsScript
  let openers ← askPermissions fun permissions => call.openersOf permissions entityType j
  match openers with
  | [] => reject "Metadata script rejected - Inputs don't belong to valid creator"
  | (first, _) :: _ => do
      let entered ←
        (if entityType = mcEntTypeUpgrade then pure true
          else call.setPermissions (call.streamGrants openers first accept) : Accept Bool)
      rejectIf (!entered) " Cannot update permission database for new entity"
      match ← call.insertEntity entityType detailsScript (ownersScript openers) accept with
      | some .errorInScript => reject "New entity script rejected - error in script"
      | some .found =>
          reject "New entity script rejected - entity with this name already exists"
      | some _ =>
          reject "New entity script rejected - could not insert new entity to database"
      | none =>
          if accept then
            let entity ← findEntity fun assets =>
              assets.findEntityByTxID (txidBytes call.tx.hash)
            rejectIf entity.isNone
              "New entity script rejected - could not insert new entity to database"

end NewEntities

/-- `mc_CompareAssetQuantities`. -/
def compareAmounts : Accept Unit := do
  match ← query fun st =>
      compareAssetQuantities st.assets.answers st.tmpAssetsIn st.tmpAssetsOut with
  | .ok _ => pure ()
  | .error text => reject text

/-- What is done behind the checkpoint, up to the label `exitlbl`. -/
def acceptOutputs (accept : Bool) : Accept Unit := do
  call.processOutputs
  compareAmounts
  call.acceptAssetGenesis accept
  match ← query AcceptState.newEntityOutput with
  | none => pure ()
  | some j => call.enterEntity j accept

/-- The variables at the checkpoint. -/
def startState (s : NodeState) : AcceptState :=
  { s with
    permissions := s.permissions.setCheckPoint
    tmpAssetsIn := call.scan.assetsIn
    tmpAssetsOut := .initABufferMap
    canGrantAdminMine := call.scan.rights.map fun _ => !call.checksCachedScript
    hadAdminPermission := []
    allowedAdmins := []
    allowedActivators := []
    newEntityOutput := none
    newEntityType := mcEntTypeNone
    detailsScript := []
    fullReplayCheckRequired := false
    adminMinerGrant := false
    checkBannedScript := false }

end AcceptCall

/-- How a call of `AcceptHdacTransaction` ends: with an access that the source is not
allowed, or with its answer, the reason of a rejection, the flags that `replay` is set
to, and the state of the node. -/
inductive AcceptOutcome where
  | fault
  | ended (reason : Option Rejection) (replayCheck adminMinerGrant : Bool) (s : NodeState)

/-- The label `exitlbl`. -/
def exitAccept (accept : Bool) (result : EStateM.Result Rejection AcceptState Unit) :
    AcceptOutcome :=
  let leave := fun (reason : Option Rejection) (st : AcceptState) =>
    let permissions :=
      if !accept ∨ reason.isSome then st.permissions.rollBackToCheckPoint else st.permissions
    AcceptOutcome.ended reason st.fullReplayCheckRequired st.adminMinerGrant
      { st.toNodeState with permissions }
  match result with
  | .error .fault _ => .fault
  | .error reason st => leave (some reason) st
  | .ok _ st => leave none st

/-- The call of `AcceptHdacTransaction` behind its loop over the inputs. -/
def AcceptEnv.callOf (env : AcceptEnv) (s : NodeState) (tx : CTransaction) (offset : Int)
    (scan : InputScan) : AcceptCall where
  env := env
  tx := tx
  offset := offset
  scan := scan
  checksCachedScript := env.checksCachedScript s.permissions.block tx

/-- `AcceptHdacTransaction`. -/
def acceptHdacTransaction (env : AcceptEnv) (s : NodeState) (tx : CTransaction)
    (offset : Int) (accept : Bool) : AcceptOutcome :=
  match env.readInputs s.assets s.permissions.block tx with
  | .error .fault => .fault
  | .error reason => .ended (some reason) false false s
  | .ok scan =>
      let call := env.callOf s tx offset scan
      exitAccept accept (call.acceptOutputs accept (call.startState s))

/-- An accepted transaction has passed `mc_CompareAssetQuantities` behind its outputs. -/
theorem compared_of_accepted {env : AcceptEnv} {s next : NodeState} {tx : CTransaction}
    {offset : Int} {accept replayCheck adminMinerGrant : Bool}
    (accepted : acceptHdacTransaction env s tx offset accept =
      .ended none replayCheck adminMinerGrant next) :
    ∃ (call : AcceptCall) (st : AcceptState), call.tx = tx ∧
      env.readInputs s.assets s.permissions.block tx = .ok call.scan ∧
      call.processOutputs (call.startState s) = .ok () st ∧
      compareAssetQuantities st.assets.answers st.tmpAssetsIn st.tmpAssetsOut = .ok () := by
  unfold acceptHdacTransaction at accepted
  split at accepted
  · cases accepted
  · cases accepted
  · rename_i scan read
    let call := env.callOf s tx offset scan
    cases run : call.acceptOutputs accept (call.startState s) with
    | error reason st =>
        simp only [call, run] at accepted
        cases reason <;> cases accepted
    | ok _ _ =>
        obtain ⟨_, st, passes, run⟩ := bind_eq_ok.mp run
        obtain ⟨_, _, compares, _⟩ := bind_eq_ok.mp run
        obtain ⟨_, _, asked, compares⟩ := bind_eq_ok.mp compares
        cases asked
        refine ⟨call, st, rfl, read, passes, ?_⟩
        cases compared : compareAssetQuantities st.assets.answers st.tmpAssetsIn
            st.tmpAssetsOut with
        | ok _ => rfl
        | error text =>
            simp only [compared] at compares
            cases compares

section Sample

open ScriptParser

/-- A reader that knows the scripts of single key addresses. -/
def keyHashReader : ScriptReader where
  setScript script :=
    match ScriptParser.setScript script .scriptPubKey (script.length + 1) with
    | some (.ok script) => script
    | _ => Script.clear
  extractDestinations script :=
    if script.take 3 = [opDup, opHash160, 0x14] ∧
        (script.drop 23).take 2 = [opEqualVerify, opCheckSig] then
      ⟨true, .pubKeyHash, [.keyID (BitVec.ofNat 160 (getLE ((script.drop 3).take 20).reverse))]⟩
    else ⟨false, .nonStandard, []⟩
  isPushOnly _ := true
  sigHashType _ _ := sigHashAll

/-- A script that pays to a key address and carries elements. -/
def keyHashScript (address : Address) (elements : List Bytes) : Bytes :=
  [opDup, opHash160, 0x14] ++ addressBytes address ++ [opEqualVerify, opCheckSig] ++
    elements.flatMap fun element =>
      [UInt8.ofNat element.length] ++ element ++ [UInt8.ofNat mcDctScriptOpDrop]

/-- The issue of a hundred units of a new asset. -/
def genesisElement : Bytes :=
  mcDctScriptMultichainIdentifier ++ [mcDctScriptMultichainAssetGenesisPrefix] ++ putLE 100 8

/-- A network where everyone may issue. -/
def openParams : AcceptParams :=
  { Permissions.unanimous with
    anyoneCanSend := true
    anyoneCanReceive := true
    anyoneCanReceiveEmpty := true
    anyoneCanCreate := true
    anyoneCanIssue := true
    allowArbitraryOutputs := true
    allowMultisigOutputs := true
    allowP2SHOutputs := true
    requireStandard := false }

/-- One coin that an address may spend. -/
def paidView (owner : Address) : CCoinsView where
  coins hash :=
    if hash = 5 then ⟨false, ⟨[some ⟨1000, keyHashScript owner []⟩], rfl⟩, 0, 1⟩
    else CCoins.clear
  bestBlock := 1
  settled := by
    intro hash
    split
    · exact fun pruned => absurd pruned Bool.false_ne_true
    · exact fun _ => rfl

/-- A node that replays its memory pool. -/
def replayEnv : AcceptEnv where
  params := openParams
  reader := keyHashReader
  inputs := paidView 7
  isDust _ := false
  timeNow := 0
  replay := true
  importAddrs := false
  rescansOnImport := false
  rescan := id

/-- A node behind its first block, without an own address. -/
def firstBlockState : NodeState where
  permissions :=
    (PermissionRun.start.afterStore Permissions.unanimous PermissionRun.firstBlock).store
  assets := AssetDB.initial
  wallet := ⟨fun _ => .no⟩
  tmpScript := Script.clear
  tmpAssetsIn := .initABufferMap
  tmpAssetsOut := .initABufferMap

end Sample

end HdacNode
