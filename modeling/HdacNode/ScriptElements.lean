import HdacNode.ScriptParser
import HdacNode.WrappedTotals

/-!
# The elements of a script

An element starts with the identifier `spk` and a letter that tells its kind.
The getters of `mc_Script` read one element and answer `MC_ERR_WRONG_SCRIPT` when
it is of another kind.
-/

namespace HdacNode

open WrappedTotals

def mcDctScriptIdentifierLen : Nat := 3

/-- `MC_DCT_SCRIPT_MULTICHAIN_IDENTIFIER`, the letters `spk`. -/
def mcDctScriptMultichainIdentifier : Bytes := [0x73, 0x70, 0x6b]

/-- The letter `g`. -/
def mcDctScriptMultichainAssetGenesisPrefix : UInt8 := 0x67

/-- The letter `q`. -/
def mcDctScriptMultichainAssetQuantityPrefix : UInt8 := 0x71

/-- The letter `o`. -/
def mcDctScriptMultichainAssetFollowonPrefix : UInt8 := 0x6f

def mcScrAssetScriptTypeTransfer : Nat := 0x00000001
def mcScrAssetScriptTypeFollowon : Nat := 0x00000002

def mcAstShortTxidOffset : Nat := 16
def mcAstShortTxidSize : Nat := 16
def mcAstAssetQuantitySize : Nat := 8
def mcAstAssetRefTypeShortTxid : UInt8 := 1

/-- `mc_HdacParams::m_AssetRefSize`. -/
def assetRefSize : Nat := mcAstShortTxidSize

/-- How a getter refuses an element. -/
inductive ElementError where
  | wrongScript
  | notAllowed
  deriving DecidableEq, Repr

namespace Script

/-- `mc_Script::IsOpReturnScript`. -/
def isOpReturnScript (script : Script) : Bool :=
  script.scriptType &&& mcDctScriptTypeOpReturn ≠ 0

end Script

/-- The bytes behind the identifier and the letter of a kind of elements. -/
def elementBody (element : Bytes) (kind : UInt8) : Option Bytes :=
  if element.length < mcDctScriptIdentifierLen + 1 then none
  else if element.take mcDctScriptIdentifierLen ≠ mcDctScriptMultichainIdentifier then none
  else if element[mcDctScriptIdentifierLen]? ≠ some kind then none
  else some (element.drop (mcDctScriptIdentifierLen + 1))

/-- `mc_Script::GetAssetGenesis`. -/
def getAssetGenesis (element : Bytes) : Except ElementError Int :=
  if element.length ≠ mcDctScriptIdentifierLen + 1 + 8 then .error .wrongScript
  else
    match elementBody element mcDctScriptMultichainAssetGenesisPrefix with
    | none => .error .wrongScript
    | some body =>
        let quantity := toInt64 (getLE (body.take 8))
        if quantity < 0 then .error .notAllowed else .ok quantity

/-- A reference and a quantity as they stand in an element. -/
structure AssetItem where
  assetRef : Bytes
  quantity : Nat
  fits : quantity < 2 ^ 64
  deriving DecidableEq, Repr

/-- Eight bytes hold a number below `2 ^ 64`. -/
theorem getLE_take_lt (bytes : Bytes) : getLE (bytes.take mcAstAssetQuantitySize) < 2 ^ 64 := by
  have bound := ScriptParser.getLE_lt (bytes.take mcAstAssetQuantitySize)
  have short : (bytes.take mcAstAssetQuantitySize).length ≤ 8 := List.length_take_le 8 bytes
  exact bound.trans_le (Nat.pow_le_pow_right (by omega) (by omega))

/-- The items of the body of an element with asset quantities. -/
def assetItems (body : Bytes) : Option (List AssetItem) :=
  let itemSize := assetRefSize + mcAstAssetQuantitySize
  let items := body.length / itemSize
  if body.length ≠ items * itemSize then none
  else some ((List.range items).map fun item =>
    { assetRef := (body.drop (item * itemSize)).take assetRefSize
      quantity := getLE ((body.drop (item * itemSize + assetRefSize)).take
        mcAstAssetQuantitySize)
      fits := getLE_take_lt _ })

/-- The body of an element with asset quantities of a type in the mask, and the
type. -/
def assetQuantitiesBody (element : Bytes) (scriptTypes : Nat) : Option (Nat × Bytes) :=
  let followOn :=
    if scriptTypes &&& mcScrAssetScriptTypeFollowon = 0 then none
    else (elementBody element mcDctScriptMultichainAssetFollowonPrefix).map fun body =>
      (mcScrAssetScriptTypeFollowon, body)
  let transfer :=
    if scriptTypes &&& mcScrAssetScriptTypeTransfer = 0 then none
    else (elementBody element mcDctScriptMultichainAssetQuantityPrefix).map fun body =>
      (mcScrAssetScriptTypeTransfer, body)
  followOn.or transfer

/-- The type and the items of an element with asset quantities. -/
def assetQuantityItems (element : Bytes) (scriptTypes : Nat) :
    Option (Nat × List AssetItem) :=
  match assetQuantitiesBody element scriptTypes with
  | none => none
  | some (foundScriptType, body) => (assetItems body).map fun items => (foundScriptType, items)

end HdacNode
