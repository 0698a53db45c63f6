import HdacNode.EntityRows
import HdacNode.PermissionRows

/-!
# The entity store and its memory pool

`mc_AssetDB` keeps the ledger rows of the connected blocks on disk and the rows of
the open block in a memory pool.  A new entity has one memory pool row for each of
its keys, first the one of its transaction id; a follow-on has a single row.
-/

namespace HdacNode

open WrappedTotals

/-- The two files of the store. -/
structure EntityFiles where
  database : WriteBatch.Store EntityKey EntityDBRow
  ledger : ExtentFile EntityRow

/-- `mc_AssetDB`. -/
structure AssetDB extends EntityFiles where
  memPool : RowBuffer EntityKey EntityRow
  block : Int
  prevPos : Int
  pos : Int

/-- How a call ends: with a memory fault, or with an error code and the store. -/
inductive EntityOutcome where
  | fault
  | ended (err : Option McError) (store : AssetDB)

namespace EntityFiles

/-- Read a ledger row into a row that was zeroed before. -/
def ledgerRowAt (files : EntityFiles) (pos : Int) : EntityRow :=
  (files.ledger.rowAt pos).getD .zero

end EntityFiles

namespace AssetDB

/-- The row with the transaction id in front of a memory pool row. -/
def txidRowID (memPool : RowBuffer EntityKey EntityRow) : Nat → Nat → Option Nat
  | 0, rowID => if (memPool.getRow rowID).key.isTxid then some rowID else none
  | steps + 1, rowID =>
      if (memPool.getRow rowID).key.isTxid then some rowID
      else
        match rowID with
        | 0 => none
        | rowID + 1 => txidRowID memPool steps rowID

/-- `mc_AssetDB::GetEntity`: the database first, then the memory pool. -/
def getEntity (s : AssetDB) (key : EntityKey) : Option EntityRow :=
  match s.database.read key with
  | some adbRow =>
      (s.ledger.rowAt adbRow.ledgerPos).map fun row => { row with chainPos := adbRow.chainPos }
  | none =>
      match s.memPool.seek EntityRow.key key with
      | some rowID => (txidRowID s.memPool 3 rowID).map s.memPool.getRow
      | none => none

/-- The part of `GetTotalQuantity` that walks over the ledger. -/
def totalLedgerQuantity (s : AssetDB) (firstPos : Int) : Nat → Int → Int → Int
  | 0, _, total => total
  | fuel + 1, pos, total =>
      let row := s.ledgerRowAt pos
      let total := addInt64 total row.quantity
      if pos = firstPos then total
      else if row.lastPos ≤ 0 then -1
      else totalLedgerQuantity s firstPos fuel row.lastPos total

/-- `mc_AssetDB::GetTotalQuantity`: what was issued of an asset in the memory pool
and in the ledger. -/
def getTotalQuantity (s : AssetDB) (row : EntityRow) : Int :=
  let unconfirmed := s.memPool.rows.reverse.foldl (fun total memRow =>
    if memRow.key.isTxid ∧ memRow.firstPos = row.firstPos then addInt64 total memRow.quantity
    else total) 0
  if 0 ≤ row.firstPos then
    s.totalLedgerQuantity row.firstPos (row.chainPos.toNat + 1) row.chainPos unconfirmed
  else unconfirmed

/-- The offset of a row: negative for a transaction that is in no block. -/
def rowOffset (s : AssetDB) (offset : Int) : Int :=
  if offset < 0 then -(s.memPool.count + 1) else offset

/-- The two passes at the end of the insertion of an entity: no key may be known,
then each key gets a row. -/
def insertKeys (s : AssetDB) (row : EntityRow) (keys : List EntityKey) (updateMemPool : Bool) :
    EntityOutcome :=
  if keys.any fun key => (s.getEntity key).isSome then .ended (some .found) s
  else if updateMemPool then
    .ended none { s with
      memPool := keys.foldl (fun memPool key => memPool.add EntityRow.key { row with key })
        s.memPool }
  else .ended none s

/-- Copy the scripts into the row, and insert it under all its keys. -/
def insertNewEntity (s : AssetDB) (row : EntityRow) (script : Bytes) (updateMemPool : Bool) :
    EntityOutcome :=
  if mcEntScriptAllocSize < script.length then .fault
  else
    match EntityDetails.set { row with script } with
    | none => .fault
    | some details => s.insertKeys { row with script } details.newKeys updateMemPool

/-- The name of a stream that has to be stored once more, with a zero byte behind
it: `none` when the copy of it does not fit. -/
def streamNameParam (script : Bytes) : Option Bytes :=
  let param := DetailsScript.findSpecialParam script mcEntSprmName
  let name := DetailsScript.value script param
  if param.1 ≠ script.length ∧ param.2 ≠ 0 ∧ script[param.1 + param.2 - 1]? ≠ some 0 then
    if mcEntMaxNameSize < param.2 then none
    else some (specialParamValue mcEntSprmName (name.takeWhile (· ≠ 0) ++ [0]))
  else some []

/-- The checks of an upgrade script. -/
def upgradeScriptFails (script : Bytes) : Bool :=
  let version := DetailsScript.findSpecialParam script mcEntSprmUpgradeProtocolVersion
  let startBlock := DetailsScript.findSpecialParam script mcEntSprmUpgradeStartBlock
  version.1 = script.length ∨ version.2 = 0 ∨ 4 < version.2 ∨
    toInt32 (getLE (DetailsScript.value script version)) < 0 ∨
      (startBlock.1 ≠ script.length ∧ (startBlock.2 = 0 ∨ 4 < startBlock.2))

/-- `mc_AssetDB::InsertEntity`.  The approval that it enters for an upgrade belongs
to the permission store. -/
def insertEntity (s : AssetDB) (txid : Bytes) (offset : Int) (entityType : Nat)
    (script specialScript : Bytes) (updateMemPool : Bool) : EntityOutcome :=
  let row : EntityRow :=
    { key := .txid txid false
      block := s.block + 1
      offset := s.rowOffset offset
      script := []
      quantity := 0
      entityType := entityType
      prevPos := -1
      firstPos := -1
      lastPos := 0
      chainPos := -1 }
  match streamNameParam script with
  | none => .fault
  | some nameParam =>
      if entityType = mcEntTypeUpgrade ∧ upgradeScriptFails script then
        .ended (some .errorInScript) s
      else s.insertNewEntity row (specialScript ++ nameParam ++ script) updateMemPool

/-- What `InsertAsset` adds to the special script of an asset. -/
def assetParams (name : Bytes) (multiple : Nat) (script : Bytes) : Bytes :=
  let multipleParam := DetailsScript.findSpecialParam script mcEntSprmAssetMultiple
  let nameParam := DetailsScript.findSpecialParam script mcEntSprmName
  let named := nameParam.1 ≠ script.length ∧ nameParam.2 ≠ 0 ∧
    script[nameParam.1 + nameParam.2 - 1]? = some 0
  (if multipleParam.1 ≠ script.length then []
    else specialParamValue mcEntSprmAssetMultiple (putLE multiple 4)) ++
  (if named ∨ name = [] then [] else specialParamValue mcEntSprmName (name ++ [0]))

/-- `mc_AssetDB::InsertAsset`. -/
def insertAsset (s : AssetDB) (txid : Bytes) (offset quantity : Int) (name : Bytes)
    (multiple : Nat) (script specialScript : Bytes) (updateMemPool : Bool) : EntityOutcome :=
  let row : EntityRow :=
    { key := .txid txid false
      block := s.block + 1
      offset := s.rowOffset offset
      script := []
      quantity := quantity
      entityType := mcEntTypeAsset
      prevPos := -1
      firstPos := -(s.memPool.count + 1)
      lastPos := 0
      chainPos := -1 }
  s.insertNewEntity row (specialScript ++ assetParams name multiple script ++ script)
    updateMemPool

/-- The last follow-on of an asset before a new one: the position that the last
memory pool row with the same first position will get, or the one from the
database. -/
def followOnLastPos (s : AssetDB) (firstPos lastPos : Int) : Int :=
  (s.memPool.rows.foldl (fun (place : Int × Int) memRow =>
    if memRow.key.isTxid then
      (if memRow.isFollowOn ∧ memRow.firstPos = firstPos then place.2 else place.1,
        place.2 + memRow.ledgerSize)
    else place) (lastPos, s.pos)).1

/-- Whether the script of an asset allows follow-ons. -/
def followOnsError (script : Bytes) : Option McError :=
  let param := DetailsScript.findSpecialParam script mcEntSprmFollowOns
  if param.1 = script.length then some .notAllowed
  else if param.2 = 0 ∨ 4 < param.2 then some .invalidParameterValue
  else if getLE (DetailsScript.value script param) = 0 then some .notAllowed
  else none

/-- `mc_AssetDB::InsertAssetFollowOn`. -/
def insertAssetFollowOn (s : AssetDB) (txid : Bytes) (offset quantity : Int)
    (script specialScript : Bytes) (originalTxid : Bytes) (updateMemPool : Bool) :
    EntityOutcome :=
  match s.getEntity (.txid originalTxid false) with
  | none => .ended (some .notFound) s
  | some genesis =>
      match followOnsError genesis.script with
      | some err => .ended (some err) s
      | none =>
          if addInt64 (s.getTotalQuantity genesis) quantity < 0 then
            .ended (some .invalidParameterValue) s
          else if mcEntScriptAllocSize < (specialScript ++ script).length then .fault
          else
            let row : EntityRow :=
              { key := .txid txid true
                block := s.block + 1
                offset := s.rowOffset offset
                script := specialScript ++ script
                quantity := quantity
                entityType := genesis.entityType
                prevPos := -1
                firstPos := genesis.firstPos
                lastPos := s.followOnLastPos genesis.firstPos genesis.chainPos
                chainPos := -1 }
            s.insertKeys row [row.key] updateMemPool

end AssetDB

end HdacNode
