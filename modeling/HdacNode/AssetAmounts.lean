import HdacNode.KeyedRowBuffer
import HdacNode.ScriptElements

/-!
# Asset amounts of a transaction

`AcceptHdacTransaction` collects the asset amounts of the outputs that a
transaction spends and of the outputs that it creates in two row buffers, keyed
by the full asset reference, and compares the buffers row by row.  The amounts
in a buffer are signed 64-bit words.
-/

namespace HdacNode

open WrappedTotals

/-- A full asset reference. -/
abbrev FullRef := Bytes

/-- The full reference of a short transaction id. -/
def fullRefOfShortTxid (shortTxid : Bytes) : FullRef :=
  List.replicate mcAstShortTxidOffset 0 ++ shortTxid ++ [mcAstAssetRefTypeShortTxid, 0, 0, 0]

/-- `GetFullRef` of the entity of a transaction. -/
def fullRefOfTxid (txid : Bytes) : FullRef :=
  fullRefOfShortTxid ((txid.drop mcAstShortTxidOffset).take mcAstShortTxidSize)

/-- A row of an amount buffer. -/
structure AmountRow where
  fullRef : FullRef
  quantity : Int
  scriptType : Nat
  deriving DecidableEq, Repr

/-- An amount buffer, a row buffer in map mode. -/
abbrev AmountBuffer := RowBuffer FullRef AmountRow

/-- The answers of `mc_AssetDB` that the amounts depend on. -/
structure AssetAnswers where
  findEntityByTxID : Bytes → Bool
  findEntityByFullRef : FullRef → Bool

namespace AmountBuffer

/-- `mc_InitABufferMap`. -/
def initABufferMap : AmountBuffer :=
  RowBuffer.initializeBuffer ⟨[], 0, 0⟩ true

/-- The row of a reference, as a seek finds it. -/
def seekRow (amounts : AmountBuffer) (fullRef : FullRef) : Option Nat :=
  amounts.seek AmountRow.fullRef fullRef

end AmountBuffer

/-- One round of the loop in `mc_Script::GetAssetQuantities`.  A row that is found
is changed in place; its script type stays in the variable for the items behind
it. -/
def addAssetItem (state : AmountBuffer × Nat) (item : AssetItem) :
    Except ElementError (AmountBuffer × Nat) :=
  let (amounts, foundScriptType) := state
  let quantity := toInt64 item.quantity
  if quantity < 0 then .error .notAllowed
  else
    let fullRef := fullRefOfShortTxid item.assetRef
    match amounts.seekRow fullRef with
    | some rowID =>
        let row := amounts.getRow rowID
        let last := row.quantity
        let quantity := addInt64 quantity last
        if 0 ≤ last ∧ quantity < 0 then .error .notAllowed
        else
          let foundScriptType := foundScriptType ||| row.scriptType
          .ok (amounts.overwrite rowID { row with quantity, scriptType := foundScriptType },
            foundScriptType)
    | none =>
        .ok (amounts.add AmountRow.fullRef ⟨fullRef, quantity, foundScriptType⟩, foundScriptType)

/-- `mc_Script::GetAssetQuantities` on an element. -/
def getAssetQuantities (amounts : AmountBuffer) (element : Bytes) (scriptTypes : Nat) :
    Except ElementError AmountBuffer :=
  match assetQuantityItems element scriptTypes with
  | none => .error .wrongScript
  | some (foundScriptType, items) =>
      (items.foldlM addAssetItem (amounts, foundScriptType)).map Prod.fst

/-- An output as its script is parsed. -/
structure TxOut where
  script : Script
  deriving DecidableEq, Repr

/-- An input: the transaction whose output it spends, and the script of that
output as it is parsed. -/
structure TxIn where
  prevHash : Bytes
  prevScript : Script
  deriving DecidableEq, Repr

/-- The parts of a transaction that decide on its asset amounts. -/
structure AssetTransaction where
  isCoinBase : Bool
  vin : List TxIn
  vout : List TxOut
  deriving DecidableEq, Repr

section Extract

variable (answers : AssetAnswers)

/-- The genesis branch of `mc_ExtractInputAssetQuantities`: the amount of an
issue goes to the row of the issued asset. -/
def addGenesisAmount (prevHash : Bytes) (amounts : AmountBuffer) (quantity : Int) :
    Except String AmountBuffer :=
  if answers.findEntityByTxID prevHash then
    let fullRef := fullRefOfTxid prevHash
    match amounts.seekRow fullRef with
    | some rowID =>
        let row := amounts.getRow rowID
        .ok (amounts.overwrite rowID { row with quantity := addInt64 quantity row.quantity })
    | none => .ok (amounts.add AmountRow.fullRef ⟨fullRef, quantity, 0⟩)
  else .error "Asset transfer script rejected - issue tx not found"

/-- The transfers and follow-ons of a round in `mc_ExtractInputAssetQuantities`. -/
def extractInputTransfers (amounts : AmountBuffer) (element : Bytes) :
    Except String AmountBuffer :=
  let scriptTypes := mcScrAssetScriptTypeTransfer ||| mcScrAssetScriptTypeFollowon
  match getAssetQuantities amounts element scriptTypes with
  | .ok after => .ok after
  | .error .wrongScript => .ok amounts
  | .error .notAllowed => .error "Asset transfer script rejected - error in script"

/-- A round of the loop in `mc_ExtractInputAssetQuantities`. -/
def extractInputElement (prevHash : Bytes) (amounts : AmountBuffer) (element : Bytes) :
    Except String AmountBuffer :=
  match extractInputTransfers amounts element with
  | .error reason => .error reason
  | .ok amounts =>
      match getAssetGenesis element with
      | .ok quantity => addGenesisAmount answers prevHash amounts quantity
      | .error .wrongScript => .ok amounts
      | .error .notAllowed => .error "Asset transfer script rejected - error in input issue script"

/-- `mc_ExtractInputAssetQuantities`. -/
def extractInputAssetQuantities (amounts : AmountBuffer) (input : TxIn) :
    Except String AmountBuffer :=
  input.prevScript.elements.foldlM (extractInputElement answers input.prevHash) amounts

/-- A round of the loop in `mc_ExtractOutputAssetQuantities`. -/
def extractOutputElement (amounts : AmountBuffer) (element : Bytes) :
    Except String AmountBuffer :=
  match getAssetQuantities amounts element mcScrAssetScriptTypeTransfer with
  | .ok after => .ok after
  | .error .wrongScript => .ok amounts
  | .error .notAllowed => .error "Asset transfer script rejected - error in output transfer script"

/-- `mc_ExtractOutputAssetQuantities`, for an output that is not OP_RETURN. -/
def extractOutputAssetQuantities (amounts : AmountBuffer) (output : TxOut) :
    Except String AmountBuffer :=
  if output.script.isOpReturnScript then .ok amounts
  else output.script.elements.foldlM extractOutputElement amounts

/-- The comparison of a row with the row of its reference in the other buffer.
A row whose quantity is not positive passes. -/
def compareAmountRow (others : AmountBuffer) (row : AmountRow) : Except String Unit :=
  if 0 < row.quantity then
    match others.seekRow row.fullRef with
    | some rowID =>
        let other := others.getRow rowID
        if row.fullRef = other.fullRef ∧ row.quantity = other.quantity then .ok ()
        else .error "Asset transfer script rejected - mismatch in input/output quantities"
    | none => .error "Asset transfer script rejected - mismatch in input/output quantities"
  else .ok ()

/-- `mc_CompareAssetQuantities`. -/
def compareAssetQuantities (assetsIn assetsOut : AmountBuffer) : Except String Unit :=
  match forM assetsIn.rows (compareAmountRow assetsOut) with
  | .error reason => .error reason
  | .ok _ =>
      forM assetsOut.rows fun row =>
        if answers.findEntityByFullRef row.fullRef then compareAmountRow assetsIn row
        else .error "Asset transfer script rejected - asset not found"

/-- What `AcceptHdacTransaction` checks about asset amounts, in `readAssets`, `extractAmounts` and
`compareAmounts`. -/
def checkAssetAmounts (tx : AssetTransaction) : Except String Unit :=
  let spent := if tx.isCoinBase then [] else tx.vin
  match spent.foldlM (extractInputAssetQuantities answers) AmountBuffer.initABufferMap with
  | .error reason => .error reason
  | .ok assetsIn =>
      match tx.vout.foldlM extractOutputAssetQuantities AmountBuffer.initABufferMap with
      | .error reason => .error reason
      | .ok assetsOut => compareAssetQuantities answers assetsIn assetsOut

end Extract

end HdacNode
