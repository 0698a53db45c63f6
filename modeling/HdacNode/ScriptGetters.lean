import HdacNode.DetailsScript

/-!
# Getters of permission and entity elements

The getters of `mc_Script` that `AcceptHdacTransaction` uses besides the ones for
asset amounts.  A getter answers `none` where the source answers
`MC_ERR_WRONG_SCRIPT`.
-/

namespace HdacNode

/-- The letter `e`. -/
def mcDctScriptMultichainEntityPrefix : UInt8 := 0x65

/-- The letter `i`. -/
def mcDctScriptMultichainCashedScriptPrefix : UInt8 := 0x69

/-- The letter `k`. -/
def mcDctScriptMultichainKeyPrefix : UInt8 := 0x6b

/-- The letter `a`. -/
def mcDctScriptMultichainApprovePrefix : UInt8 := 0x61

/-- The letter `n`. -/
def mcDctScriptMultichainNewEntityPrefix : UInt8 := 0x6e

/-- The letter `u`. -/
def mcDctScriptMultichainUpdateEntityPrefix : UInt8 := 0x75

/-- The letter `p`. -/
def mcDctScriptMultichainPermissionsPrefix : UInt8 := 0x70

def mcEntMaxItemKeySize : Nat := 256
def mcEntMaxScriptSize : Nat := 4096

namespace Script

/-- `mc_Script::IsDirtyOpReturnScript`. -/
def isDirtyOpReturnScript (script : Script) : Bool :=
  script.scriptType &&& mcDctScriptTypeDirtyOpReturn ≠ 0

/-- `mc_Script::GetNumElements`. -/
def getNumElements (script : Script) : Nat := script.elements.length

/-- The element that `SetElement` makes the current one of a script that was just
parsed.  A number that is too large leaves the last one the current one. -/
def elementAt (script : Script) (element : Nat) : Bytes :=
  (script.elements[element]?.or script.elements.getLast?).getD []

end Script

/-- What `GetPermission` reads of an element. -/
structure PermissionElement where
  type : Nat
  blockFrom : Nat
  blockTo : Nat
  timestamp : Nat
  deriving DecidableEq, Repr

/-- `mc_Script::GetPermission`. -/
def getPermissionElement (element : Bytes) : Option PermissionElement :=
  if element.length ≠ mcDctScriptIdentifierLen + 1 + 16 then none
  else
    (elementBody element mcDctScriptMultichainPermissionsPrefix).map fun body =>
      { type := getLE (body.take 4)
        blockFrom := getLE ((body.drop 4).take 4)
        blockTo := getLE ((body.drop 8).take 4)
        timestamp := getLE ((body.drop 12).take 4) }

/-- `mc_Script::GetApproval`: the approval and the timestamp. -/
def getApproval (element : Bytes) : Option (Nat × Nat) :=
  if element.length ≠ mcDctScriptIdentifierLen + 1 + 5 then none
  else
    (elementBody element mcDctScriptMultichainApprovePrefix).map fun body =>
      (getLE (body.take 1), getLE ((body.drop 1).take 4))

/-- `mc_Script::GetEntity`: the short transaction id. -/
def getEntityElement (element : Bytes) : Option Bytes :=
  if element.length ≠ mcDctScriptIdentifierLen + 1 + mcAstShortTxidSize then none
  else elementBody element mcDctScriptMultichainEntityPrefix

/-- `mc_Script::GetItemKey`. -/
def getItemKey (element : Bytes) : Option Bytes :=
  if mcDctScriptIdentifierLen + 1 + mcEntMaxItemKeySize < element.length then none
  else elementBody element mcDctScriptMultichainKeyPrefix

/-- What `GetNewEntityType` writes to its arguments. -/
structure NewEntityElement where
  type : Nat
  isUpdate : Bool
  script : Bytes
  deriving DecidableEq, Repr

/-- The arguments that `mc_Script::GetNewEntityType` has written when it checks the
details script. -/
def newEntityElement (element : Bytes) : Option NewEntityElement :=
  let sizeFits : Bool :=
    mcDctScriptIdentifierLen + 1 + 1 ≤ element.length ∧
      element.length ≤ mcDctScriptIdentifierLen + 1 + 1 + mcEntMaxScriptSize
  let created := (elementBody element mcDctScriptMultichainNewEntityPrefix).map (false, ·)
  let updated := (elementBody element mcDctScriptMultichainUpdateEntityPrefix).map (true, ·)
  match sizeFits, created.or updated with
  | true, some (isUpdate, type :: script) => some ⟨type.toNat, isUpdate, script⟩
  | _, _ => none

/-- How `GetNewEntityType` refuses an element. -/
inductive NewEntityError where
  | wrongScript
  | errorInScript
  deriving DecidableEq, Repr

/-- `mc_Script::GetNewEntityType`. -/
def getNewEntityType (element : Bytes) : Except NewEntityError NewEntityElement :=
  match newEntityElement element with
  | none => .error .wrongScript
  | some found => if DetailsScript.verify found.script then .ok found else .error .errorInScript

/-- What `GetCachedScript` finds at an offset that is not 0: the number of an input
and the script of the output it spends. -/
structure CachedScript where
  vin : Nat
  script : Bytes
  nextOffset : Nat
  deriving DecidableEq, Repr

/-- `mc_Script::GetCachedScript` at an offset behind the identifier. -/
def cachedScriptAt (element : Bytes) (offset : Nat) : Option CachedScript :=
  if element.length < offset + 4 then none
  else
    let vin := toInt32 (getLE ((element.drop offset).take 4))
    if vin < 0 then none
    else
      let (scriptSize, shift) := getVarInt (element.drop (offset + 4))
      let start := offset + 4 + shift
      if scriptSize < 0 ∨ (element.length : Int) < start + scriptSize then none
      else
        some { vin := vin.toNat
               script := (element.drop start).take scriptSize.toNat
               nextOffset := start + scriptSize.toNat }

/-- Whether an element holds cached scripts, so that `GetCachedScript` succeeds at
the offset 0. -/
def holdsCachedScripts (element : Bytes) : Bool :=
  (elementBody element mcDctScriptMultichainCashedScriptPrefix).isSome

end HdacNode
