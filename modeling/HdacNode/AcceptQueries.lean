import HdacNode.AssetAmounts
import HdacNode.EntityStore
import HdacNode.PermissionForks
import HdacNode.ScriptGetters
import HdacNode.Coins

/-!
# What the acceptance of a transaction asks the stores

`AcceptHdacTransaction` asks the permission store what an address may do and the
entity store for the entity that a short transaction id names.
-/

namespace HdacNode

def mcPtpGlobalAll : Nat := 0x00003137
def mcPflNone : Nat := 0x00000000
def mcPflIsScripthash : Nat := 0x00000001
def mcEntTypeNone : Nat := 0x00
def mcEntTypeMax : Nat := 0x10
def mcEntSprmAnyoneCanWrite : UInt8 := 0x04
def mcEntMaxStoredIssuers : Nat := 128
def mcAstAssetRefTypeRef : Nat := 0
def mcAstAssetRefTypeTxid : Nat := 2

/-- The parameters of the chain that the acceptance of a transaction reads besides
the ones of the permission store. -/
structure AcceptParams extends NetworkParams where
  anyoneCanSend : Bool
  anyoneCanReceive : Bool
  anyoneCanReceiveEmpty : Bool
  anyoneCanCreate : Bool
  anyoneCanIssue : Bool
  allowArbitraryOutputs : Bool
  allowMultisigOutputs : Bool
  allowP2SHOutputs : Bool
  requireStandard : Bool

/-- The bytes of a transaction id. -/
def txidBytes (hash : Hash) : Bytes := putLE hash.toNat 32

/-- The owner of permissions that the transaction id of an entity names. -/
def entityOfTxid (txid : Bytes) : Entity :=
  if getLE txid = 0 then .null else .genesis (BitVec.ofNat 256 (getLE txid))

/-- The part of the transaction id of an upgrade that `SetApproval` is called with. -/
def upgradeOfTxid (txid : Bytes) : BitVec 128 :=
  BitVec.ofNat 128 (getLE ((txid.drop mcAstShortTxidOffset).take mcAstShortTxidSize).reverse)

namespace Permissions

section Abilities

variable (params : AcceptParams) (s : Permissions) (entity : Entity) (address : Address)

/-- Whether an address has a permission. -/
def hasPermission (type : Nat) : Bool :=
  s.getPermission ⟨entity, .account address, type⟩ true ≠ 0

/-- `CanReceive`. -/
def canReceive : Bool :=
  (entity = .null ∧ params.anyoneCanReceive) ∨ s.hasPermission entity address mcPtpReceive ∨
    s.hasPermission entity address mcPtpAdmin ∨ s.hasPermission entity address mcPtpActivate

/-- `IsBanned`. -/
def isBanned : Bool :=
  params.anyoneCanSend ∧ params.anyoneCanReceive ∧ s.hasPermission entity address mcPtpBanned

/-- `CanWrite`. -/
def canWrite : Bool := s.hasPermission entity address mcPtpWrite

/-- `CanCreate`. -/
def canCreate : Bool :=
  (entity = .null ∧ params.anyoneCanCreate) ∨ s.hasPermission entity address mcPtpCreate

/-- `CanIssue`. -/
def canIssue : Bool :=
  (entity = .null ∧ params.anyoneCanIssue) ∨ s.hasPermission entity address mcPtpIssue

end Abilities

end Permissions

namespace EntityRow

/-- A parameter of the script of an entity as a number: 0 without the parameter or
with a value of more than four bytes. -/
def numberParam (row : EntityRow) (code : UInt8) : Nat :=
  let param := DetailsScript.findSpecialParam row.script code
  if param.1 = row.script.length ∨ param.2 = 0 ∨ 4 < param.2 then 0
  else getLE (DetailsScript.value row.script param)

/-- `mc_EntityDetails::AllowedFollowOns`. -/
def allowedFollowOns (row : EntityRow) : Nat := row.numberParam mcEntSprmFollowOns

/-- `mc_EntityDetails::AnyoneCanWrite`. -/
def anyoneCanWrite (row : EntityRow) : Nat := row.numberParam mcEntSprmAnyoneCanWrite

/-- `mc_EntityDetails::UpgradeStartBlock`. -/
def upgradeStartBlock (row : EntityRow) : Nat := row.numberParam mcEntSprmUpgradeStartBlock

/-- `mc_EntityDetails::GetShortRef`. -/
def shortTxid (row : EntityRow) : Bytes :=
  (row.txid.drop mcAstShortTxidOffset).take mcAstShortTxidSize

/-- The owner of the permissions of an entity; a zeroed row names the chain. -/
def permissionEntity (row : EntityRow) : Entity := entityOfTxid row.txid

end EntityRow

namespace AssetDB

/-- `FindEntityByTxID`: an entity, or else a follow-on. -/
def findEntityByTxID (s : AssetDB) (txid : Bytes) : Option EntityRow :=
  (s.getEntity (.txid txid false)).or (s.getEntity (.txid txid true))

/-- `FindEntityByShortTxID`. -/
def findEntityByShortTxID (s : AssetDB) (shortTxid : Bytes) : Option EntityRow :=
  s.getEntity (.shortTxid shortTxid)

/-- `FindEntityByRef`. -/
def findEntityByRef (s : AssetDB) (ref : Bytes) : Option EntityRow :=
  s.getEntity (.ref (toInt32 (getLE (ref.take 4))) (toInt32 (getLE ((ref.drop 4).take 4)))
    ((ref.drop 8).take mcEntRefPrefixSize))

/-- `FindEntityByFullRef`. -/
def findEntityByFullRef (s : AssetDB) (fullRef : FullRef) : Option EntityRow :=
  let refType := getLE ((fullRef.drop 32).take 4)
  if refType = mcAstAssetRefTypeRef then s.findEntityByRef fullRef
  else if refType = mcAstAssetRefTypeShortTxid.toNat then
    s.findEntityByShortTxID ((fullRef.drop mcAstShortTxidOffset).take mcAstShortTxidSize)
  else if refType = mcAstAssetRefTypeTxid then s.findEntityByTxID (fullRef.take 32)
  else none

/-- What the amounts of a transaction ask the store. -/
def answers (s : AssetDB) : AssetAnswers where
  findEntityByTxID txid := (s.findEntityByTxID txid).isSome
  findEntityByFullRef fullRef := (s.findEntityByFullRef fullRef).isSome

end AssetDB

/-- `CTxDestination`. -/
inductive CTxDestination where
  | noDestination
  | keyID (address : Address)
  | scriptID (address : Address)
  deriving DecidableEq, Repr

/-- The address of a key or a script. -/
def CTxDestination.address? : CTxDestination → Option Address
  | .noDestination => none
  | .keyID address => some address
  | .scriptID address => some address

/-- `txnouttype`. -/
inductive TxnOutType where
  | nonStandard
  | pubKey
  | pubKeyHash
  | scriptHash
  | multisig
  | nullData
  deriving DecidableEq, Repr

def sigHashAll : Nat := 1
def sigHashNone : Nat := 2
def sigHashSingle : Nat := 3

/-- What `ExtractDestinations` answers and writes. -/
structure Destinations where
  found : Bool
  typeRet : TxnOutType
  addressRets : List CTxDestination
  deriving DecidableEq, Repr

/-- The functions that read standard scripts: `ExtractDestinations`,
`CScript::IsPushOnly`, the hash type that `mc_ExtractAddressFromInputScript` finds, and
the elements and flags that `SetScript` leaves of a public key script. -/
structure ScriptReader where
  setScript : Bytes → Script
  extractDestinations : Bytes → Destinations
  isPushOnly : Bytes → Bool
  sigHashType : Bytes → Bool → Nat

/-- `ExtractDestination`, for a script that is not empty. -/
def ScriptReader.extractDestination (reader : ScriptReader) (script : Bytes) :
    Option CTxDestination :=
  let destinations := reader.extractDestinations script
  if destinations.found = false ∨ destinations.typeRet = .multisig then none
  else destinations.addressRets.head?

/-- The script of the output that an input spends: `none` where the source reads past
the outputs of the coins. -/
def CCoinsView.prevScript (view : CCoinsView) (prevout : COutPoint) : Option Bytes :=
  let slots := (view.coins prevout.hash).vout.slots
  slots[prevout.n]?.map fun slot => (slot.map CTxOut.scriptPubKey).getD []

end HdacNode
