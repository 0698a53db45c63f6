import HdacNode.BlockSignature
import HdacNode.EntityRows
import HdacNode.ScriptGetters

/-!
# Metadata records

The records that the Set functions of `mc_Script` write as elements, and the Get functions
that read them back.  A record begins with one of the two identifiers and a letter.
-/

namespace HdacNode

/-- The letter `a`, behind the identifier of free data. -/
def mcDctScriptMultichainAssetDetailsPrefix : UInt8 := 0x61

/-- The letter `c`. -/
def mcDctScriptMultichainGeneralDetailsPrefix : UInt8 := 0x63

/-- A string that ends at its first zero byte. -/
structure CString where
  bytes : Bytes
  noZero : 0 ∉ bytes
  deriving DecidableEq, Repr

/-- The string at the beginning of bytes. -/
def CString.ofBytes (bytes : Bytes) : CString where
  bytes := bytes.takeWhile (· ≠ 0)
  noZero zero := by simpa using List.all_eq_true.mp List.all_takeWhile 0 zero

/-- The part of a transaction id that refers to an entity. -/
structure ShortTxid where
  bytes : Bytes
  size : bytes.length = mcAstShortTxidSize
  deriving DecidableEq, Repr

/-- An input and the script of the output that it spends. -/
structure CachedInput where
  vin : Int32
  script : Bytes
  fits : script.length < 2 ^ 31
  deriving DecidableEq, Repr

section Setters

/-- `mc_Script::SetPermission`. -/
def setPermissionElement (type blockFrom blockTo timestamp : UInt32) : Bytes :=
  mcDctScriptMultichainIdentifier ++ mcDctScriptMultichainPermissionsPrefix ::
    (putLE type.toNat 4 ++ putLE blockFrom.toNat 4 ++ putLE blockTo.toNat 4 ++
      putLE timestamp.toNat 4)

/-- `mc_Script::SetAssetGenesis`. -/
def setAssetGenesis (quantity : Int64) : Option Bytes :=
  if quantity < 0 then none
  else some (mcDctScriptMultichainIdentifier ++ mcDctScriptMultichainAssetGenesisPrefix ::
    putLE quantity.toUInt64.toNat 8)

/-- `mc_Script::SetAssetDetails`. -/
def setAssetDetails (name : CString) (multiple : Int32) (script : Bytes) : Option Bytes :=
  if mcEntMaxScriptSize < script.length then none
  else some (mcDctScriptFreeDataIdentifier ++ mcDctScriptMultichainAssetDetailsPrefix ::
    (putLE multiple.toUInt32.toNat 4 ++ (name.bytes ++ [0]) ++ script))

/-- `mc_Script::SetGeneralDetails`. -/
def setGeneralDetails (script : Bytes) : Option Bytes :=
  if mcEntMaxScriptSize < script.length then none
  else some (mcDctScriptFreeDataIdentifier ++ mcDctScriptMultichainGeneralDetailsPrefix :: script)

/-- `mc_Script::SetApproval`; the approval takes one byte. -/
def setApprovalElement (approval timestamp : UInt32) : Bytes :=
  mcDctScriptMultichainIdentifier ++ mcDctScriptMultichainApprovePrefix ::
    (putLE approval.toNat 1 ++ putLE timestamp.toNat 4)

/-- `mc_Script::SetNewEntityType` with a details script. -/
def setNewEntity (type : UInt32) (update : Bool) (script : Bytes) : Option Bytes :=
  if mcEntMaxScriptSize < script.length then none
  else if !DetailsScript.verify script then none
  else some (mcDctScriptMultichainIdentifier ++
    (if update then mcDctScriptMultichainUpdateEntityPrefix
      else mcDctScriptMultichainNewEntityPrefix) :: (type &&& 0xff).toUInt8 :: script)

/-- `mc_Script::SetNewEntityType` without a details script. -/
def setNewEntityType (type : UInt32) : Bytes :=
  mcDctScriptMultichainIdentifier ++ mcDctScriptMultichainNewEntityPrefix ::
    [(type &&& 0xff).toUInt8]

/-- `mc_Script::SetItemKey`. -/
def setItemKey (key : Bytes) : Option Bytes :=
  if mcEntMaxItemKeySize < key.length then none
  else some (mcDctScriptMultichainIdentifier ++ mcDctScriptMultichainKeyPrefix :: key)

/-- `mc_Script::SetEntity`. -/
def setEntityElement (shortTxid : ShortTxid) : Bytes :=
  mcDctScriptMultichainIdentifier ++ mcDctScriptMultichainEntityPrefix :: shortTxid.bytes

/-- What `mc_Script::SetCachedScript` appends at an offset that is not 0. -/
def cachedScriptBytes (input : CachedInput) : Bytes :=
  putLE input.vin.toUInt32.toNat 4 ++ putVarInt input.script.length ++ input.script

/-- The element of `mc_Script::SetCachedScript`, called at the offset 0 and then for each
input. -/
def setCachedScripts (inputs : List CachedInput) : Bytes :=
  mcDctScriptMultichainIdentifier ++ mcDctScriptMultichainCashedScriptPrefix ::
    inputs.flatMap cachedScriptBytes

end Setters

section Getters

/-- The bytes behind the identifier of free data and the letter of a kind of elements. -/
def freeDataBody (element : Bytes) (kind : UInt8) : Option Bytes :=
  if element.length < mcDctScriptIdentifierLen + 1 then none
  else if element.take mcDctScriptIdentifierLen ≠ mcDctScriptFreeDataIdentifier then none
  else if element[mcDctScriptIdentifierLen]? ≠ some kind then none
  else some (element.drop (mcDctScriptIdentifierLen + 1))

/-- `mc_Script::GetGeneralDetails`. -/
def getGeneralDetails (element : Bytes) : Option Bytes :=
  if mcDctScriptIdentifierLen + 1 + mcEntMaxScriptSize < element.length then none
  else freeDataBody element mcDctScriptMultichainGeneralDetailsPrefix

/-- A name with its zero byte at the beginning of bytes, in as much room, and what is
behind it. -/
def takeName : Nat → Bytes → Option (Bytes × Bytes)
  | _, [] => none
  | room, byte :: bytes =>
    if byte = 0 then some ([], bytes)
    else
      match room with
      | 0 => none
      | room + 1 => (takeName room bytes).map fun found => (byte :: found.1, found.2)

/-- What `GetAssetDetails` reads of an element. -/
structure AssetDetailsElement where
  name : CString
  multiple : Int32
  script : Bytes
  deriving DecidableEq, Repr

/-- `mc_Script::GetAssetDetails`.  An element with general details is one of an asset
without a name. -/
def getAssetDetails (element : Bytes) : Option AssetDetailsElement :=
  match getGeneralDetails element with
  | some script => some ⟨.ofBytes [], 1, script⟩
  | none =>
    if element.length < mcDctScriptIdentifierLen + 1 + 4 + 1 then none
    else if mcDctScriptIdentifierLen + 1 + mcEntMaxScriptSize + 4 + mcEntMaxNameSize + 1 <
        element.length then none
    else
      match freeDataBody element mcDctScriptMultichainAssetDetailsPrefix with
      | none => none
      | some body =>
        (takeName mcEntMaxNameSize (body.drop 4)).map fun found =>
          ⟨.ofBytes found.1, (UInt32.ofNat (getLE (body.take 4))).toInt32, found.2⟩

/-- `mc_Script::GetNewEntityType` without a details script. -/
def getNewEntityTypeOnly (element : Bytes) : Option Nat :=
  if element.length < mcDctScriptIdentifierLen + 1 + 1 then none
  else
    match elementBody element mcDctScriptMultichainNewEntityPrefix with
    | some (type :: _) => some type.toNat
    | _ => none

/-- How `GetCachedScript` refuses an element. -/
inductive CachedScriptError where
  | wrongScript
  | errorInScript
  deriving DecidableEq, Repr

/-- `mc_Script::GetCachedScript`.  At the offset 0 it only tells where the first script
stands. -/
def getCachedScript (element : Bytes) (offset : Nat) :
    Except CachedScriptError (Option CachedScript) :=
  if !holdsCachedScripts element then .error .wrongScript
  else if offset = 0 then .ok none
  else if element.length = offset then .error .wrongScript
  else
    match cachedScriptAt element offset with
    | none => .error .errorInScript
    | some found => .ok (some found)

/-- The loop of the callers of `GetCachedScript`, from an offset on. -/
def cachedScriptsFrom (element : Bytes) : Nat → Nat → Option (List (Nat × Bytes))
  | 0, _ => none
  | rounds + 1, offset =>
    match getCachedScript element offset with
    | .error .wrongScript => some []
    | .error .errorInScript => none
    | .ok none => cachedScriptsFrom element rounds (mcDctScriptIdentifierLen + 1)
    | .ok (some found) =>
      (cachedScriptsFrom element rounds found.nextOffset).map fun scripts =>
        (found.vin, found.script) :: scripts

/-- The cached scripts of an element. -/
def getCachedScripts (element : Bytes) : Option (List (Nat × Bytes)) :=
  if holdsCachedScripts element then cachedScriptsFrom element (element.length + 1) 0 else none

end Getters

/-- The arguments of a Set function. -/
inductive MetadataRecord where
  | permission (type blockFrom blockTo timestamp : UInt32)
  | blockSignature (sig : Bytes) (hashType : UInt32) (key : Bytes)
  | assetGenesis (quantity : Int64)
  | assetDetails (name : CString) (multiple : Int32) (script : Bytes)
  | generalDetails (script : Bytes)
  | approval (approves timestamp : UInt32)
  | newEntity (type : UInt32) (update : Bool) (script : Bytes)
  | newEntityType (type : UInt32)
  | itemKey (key : Bytes)
  | entity (shortTxid : ShortTxid)
  | cachedScripts (inputs : List CachedInput)
  deriving DecidableEq, Repr

/-- The kinds of records: each has a Set and a Get function. -/
inductive MetadataKind where
  | permission
  | blockSignature
  | assetGenesis
  | assetDetails
  | generalDetails
  | approval
  | newEntity
  | newEntityType
  | itemKey
  | entity
  | cachedScripts
  deriving DecidableEq, Repr

namespace MetadataRecord

/-- The kind of a record. -/
def kind : MetadataRecord → MetadataKind
  | .permission .. => .permission
  | .blockSignature .. => .blockSignature
  | .assetGenesis _ => .assetGenesis
  | .assetDetails .. => .assetDetails
  | .generalDetails _ => .generalDetails
  | .approval .. => .approval
  | .newEntity .. => .newEntity
  | .newEntityType _ => .newEntityType
  | .itemKey _ => .itemKey
  | .entity _ => .entity
  | .cachedScripts _ => .cachedScripts

/-- The element that the Set function writes, unless it refuses its arguments. -/
def element : MetadataRecord → Option Bytes
  | .permission type blockFrom blockTo timestamp =>
    some (setPermissionElement type blockFrom blockTo timestamp)
  | .blockSignature sig hashType key =>
    if fits : key.length < 2 ^ 8 then (setBlockSignature ⟨sig, hashType.toUInt8, key, fits⟩).head?
    else none
  | .assetGenesis quantity => setAssetGenesis quantity
  | .assetDetails name multiple script => setAssetDetails name multiple script
  | .generalDetails script => setGeneralDetails script
  | .approval approves timestamp => some (setApprovalElement approves timestamp)
  | .newEntity type update script => setNewEntity type update script
  | .newEntityType type => some (setNewEntityType type)
  | .itemKey key => setItemKey key
  | .entity shortTxid => some (setEntityElement shortTxid)
  | .cachedScripts inputs => some (setCachedScripts inputs)

end MetadataRecord

/-- What the Get function of a kind reads of an element. -/
def MetadataKind.read (element : Bytes) : MetadataKind → Option MetadataRecord
  | .permission =>
    (getPermissionElement element).map fun found =>
      .permission (.ofNat found.type) (.ofNat found.blockFrom) (.ofNat found.blockTo)
        (.ofNat found.timestamp)
  | .blockSignature =>
    (getBlockSignature element).map fun found =>
      .blockSignature found.sig found.hashType.toUInt32 found.key.bytes
  | .assetGenesis =>
    match getAssetGenesis element with
    | .ok quantity => some (.assetGenesis (.ofInt quantity))
    | .error _ => none
  | .assetDetails =>
    (getAssetDetails element).map fun found =>
      .assetDetails found.name found.multiple found.script
  | .generalDetails => (getGeneralDetails element).map .generalDetails
  | .approval =>
    (getApproval element).map fun found => .approval (.ofNat found.1) (.ofNat found.2)
  | .newEntity =>
    match getNewEntityType element with
    | .ok found => some (.newEntity (.ofNat found.type) found.isUpdate found.script)
    | .error _ => none
  | .newEntityType => (getNewEntityTypeOnly element).map fun type => .newEntityType (.ofNat type)
  | .itemKey => (getItemKey element).map .itemKey
  | .entity =>
    (getEntityElement element).bind fun shortTxid =>
      if size : shortTxid.length = mcAstShortTxidSize then some (.entity ⟨shortTxid, size⟩)
      else none
  | .cachedScripts =>
    (getCachedScripts element).bind fun scripts =>
      (scripts.mapM fun found =>
        if fits : found.2.length < 2 ^ 31 then some ⟨.ofNat found.1, found.2, fits⟩
        else none).map .cachedScripts

namespace MetadataRecord

/-- The values of a record survive its format: what takes one byte is one byte, the name of an
asset is not too long, and inputs have no negative numbers. -/
def Survives : MetadataRecord → Prop
  | .blockSignature _ hashType _ => hashType.toNat < 2 ^ 8
  | .assetDetails name _ _ => name.bytes.length ≤ mcEntMaxNameSize
  | .approval approves _ => approves.toNat < 2 ^ 8
  | .newEntity type _ _ => type.toNat < 2 ^ 8
  | .newEntityType type => type.toNat < 2 ^ 8
  | .cachedScripts inputs => ∀ input ∈ inputs, 0 ≤ input.vin
  | _ => True

/-- What the Get function of a kind makes of a record: the record itself, if it is of the
kind.  The two Get functions for new entities share a letter, and the one for the details of
an asset takes general details as well. -/
def seenAs (record : MetadataRecord) (kind : MetadataKind) : Option MetadataRecord :=
  if record.kind = kind then some record
  else
    match record, kind with
    | .generalDetails script, .assetDetails => some (.assetDetails (.ofBytes []) 1 script)
    | .newEntity type false _, .newEntityType => some (.newEntityType type)
    | .newEntityType type, .newEntity => some (.newEntity type false [])
    | _, _ => none

end MetadataRecord

end HdacNode
