import HdacNode.Coins

/-!
# The coins and the indexes of a block

`ConnectBlock` spends the inputs of each transaction of a block and adds its outputs,
and collects the undo data and the records of the address, address-unspent, spent and
timestamp indexes.  `DisconnectBlock` goes over the transactions from the last to the
first.  The other checks of `ConnectBlock` only turn blocks away.
-/

namespace HdacNode

open WriteBatch

/-- `CAddressIndexKey`. -/
structure CAddressIndexKey where
  type : Nat
  hashBytes : Bytes
  blockHeight : Nat
  txindex : Nat
  txhash : Hash
  index : Nat
  spending : Bool
  deriving DecidableEq, Repr

/-- `CAddressUnspentKey`. -/
structure CAddressUnspentKey where
  type : Nat
  hashBytes : Bytes
  txhash : Hash
  index : Nat
  deriving DecidableEq, Repr

/-- `CAddressUnspentValue`. -/
structure CAddressUnspentValue where
  satoshis : Int
  script : Bytes
  blockHeight : Nat
  deriving DecidableEq, Repr

/-- `CSpentIndexValue`. -/
structure CSpentIndexValue where
  txid : Hash
  inputIndex : Nat
  blockHeight : Nat
  satoshis : Int
  addressType : Nat
  addressHash : Bytes
  deriving DecidableEq, Repr

/-- `CTimestampIndexKey`. -/
structure CTimestampIndexKey where
  timestamp : Nat
  blockHash : Hash
  deriving DecidableEq, Repr

/-- The null value of the address-unspent index. -/
def CAddressUnspentValue.null : CAddressUnspentValue := ⟨-1, [], 0⟩

/-- The null value of the spent index. -/
def CSpentIndexValue.null : CSpentIndexValue := ⟨0, 0, 0, 0, 0, []⟩

/-- The tables of `CBlockTreeDB` that the indexes are kept in; the key of the spent
index is an output. -/
structure CBlockTreeDB where
  addressIndex : Table CAddressIndexKey Int
  addressUnspentIndex : Table CAddressUnspentKey CAddressUnspentValue
  spentIndex : Table COutPoint CSpentIndexValue
  timestampIndex : Table CTimestampIndexKey Unit
  timestampBlockIndex : Table Hash Nat

/-- Which indexes are kept. -/
structure IndexOptions where
  fAddressIndex : Bool
  fSpentIndex : Bool
  fTimestampIndex : Bool
  deriving DecidableEq, Repr

/-- The records that a loop over a block collects. -/
structure IndexRecords where
  addressIndex : List (CAddressIndexKey × Int)
  addressUnspentIndex : List (CAddressUnspentKey × CAddressUnspentValue)
  spentIndex : List (COutPoint × CSpentIndexValue)

namespace IndexRecords

/-- No records. -/
def none : IndexRecords := ⟨[], [], []⟩

/-- Records behind others. -/
def append (first second : IndexRecords) : IndexRecords where
  addressIndex := first.addressIndex ++ second.addressIndex
  addressUnspentIndex := first.addressUnspentIndex ++ second.addressUnspentIndex
  spentIndex := first.spentIndex ++ second.spentIndex

end IndexRecords

namespace CBlockTreeDB

/-- A record of the address-unspent index; a null value erases its key. -/
def unspentWrite (record : CAddressUnspentKey × CAddressUnspentValue) :
    Write CAddressUnspentKey CAddressUnspentValue :=
  ⟨record.1, if record.2.satoshis = -1 then none else some record.2⟩

/-- A record of the spent index; a null value erases its key. -/
def spentWrite (record : COutPoint × CSpentIndexValue) : Write COutPoint CSpentIndexValue :=
  ⟨record.1, if record.2.txid = 0 then none else some record.2⟩

/-- `WriteAddressIndex`. -/
def writeAddressIndex (db : CBlockTreeDB) (records : List (CAddressIndexKey × Int)) :
    CBlockTreeDB :=
  { db with
    addressIndex := applyBatch db.addressIndex (records.map fun record =>
      ⟨record.1, some record.2⟩) }

/-- `EraseAddressIndex`. -/
def eraseAddressIndex (db : CBlockTreeDB) (records : List (CAddressIndexKey × Int)) :
    CBlockTreeDB :=
  { db with
    addressIndex := applyBatch db.addressIndex (records.map fun record =>
      ⟨record.1, Option.none⟩) }

/-- `UpdateAddressUnspentIndex`. -/
def updateAddressUnspentIndex (db : CBlockTreeDB)
    (records : List (CAddressUnspentKey × CAddressUnspentValue)) : CBlockTreeDB :=
  { db with addressUnspentIndex := applyBatch db.addressUnspentIndex (records.map unspentWrite) }

/-- `UpdateSpentIndex`. -/
def updateSpentIndex (db : CBlockTreeDB) (records : List (COutPoint × CSpentIndexValue)) :
    CBlockTreeDB :=
  { db with spentIndex := applyBatch db.spentIndex (records.map spentWrite) }

/-- The logical timestamp of a block: later than the one of the block before it. -/
def logicalTimestamp (db : CBlockTreeDB) (block : CBlock) (pindex : CBlockIndex) : Nat :=
  let prevLogicalTS := (get db.timestampBlockIndex pindex.prevHash).getD 0
  if block.nTime ≤ prevLogicalTS then (prevLogicalTS + 1) % 2 ^ 32 else block.nTime

/-- `WriteTimestampIndex` and `WriteTimestampBlockIndex`. -/
def writeTimestamp (db : CBlockTreeDB) (block : CBlock) (pindex : CBlockIndex) : CBlockTreeDB :=
  let logicalTS := db.logicalTimestamp block pindex
  { db with
    timestampIndex := applyBatch db.timestampIndex [⟨⟨logicalTS, block.hash⟩, some ()⟩]
    timestampBlockIndex := applyBatch db.timestampBlockIndex [⟨block.hash, some logicalTS⟩] }

end CBlockTreeDB

/-- The place of a transaction in the chain. -/
structure TxPlace where
  nHeight : Nat
  txindex : Nat
  deriving DecidableEq, Repr

section Records

variable (options : IndexOptions) (place : TxPlace) (tx : CTransaction)

/-- The key of an address-unspent record. -/
def unspentKey (address : Nat × Bytes) (outPoint : COutPoint) : CAddressUnspentKey :=
  ⟨address.1, address.2, outPoint.hash, outPoint.n⟩

/-- The key of the record of an output in the address index. -/
def receivingKey (address : Nat × Bytes) (k : Nat) : CAddressIndexKey :=
  ⟨address.1, address.2, place.nHeight, place.txindex, tx.hash, k, false⟩

/-- The key of the record of an input in the address index. -/
def spendingKey (address : Nat × Bytes) (j : Nat) : CAddressIndexKey :=
  ⟨address.1, address.2, place.nHeight, place.txindex, tx.hash, j, true⟩

/-- The records of an input: `unspent` is what becomes of the output it spends in the
address-unspent index, and `spentBy` of its record in the spent index. -/
def inputRecords (prevout : CTxOut) (unspent : CAddressUnspentValue)
    (spentBy : CSpentIndexValue) (input : CTxIn × Nat) : IndexRecords where
  addressIndex :=
    match CScript.indexedAddress prevout.scriptPubKey with
    | some address =>
        if options.fAddressIndex then [(spendingKey place tx address input.2, -prevout.nValue)]
        else []
    | none => []
  addressUnspentIndex :=
    match CScript.indexedAddress prevout.scriptPubKey with
    | some address =>
        if options.fAddressIndex then [(unspentKey address input.1.prevout, unspent)] else []
    | none => []
  spentIndex := if options.fSpentIndex then [(input.1.prevout, spentBy)] else []

/-- The records of an output: `unspent` is what becomes of it in the address-unspent
index. -/
def outputRecords (unspent : CAddressUnspentValue) (output : CTxOut × Nat) : IndexRecords where
  addressIndex :=
    match CScript.indexedAddress output.1.scriptPubKey with
    | some address =>
        if options.fAddressIndex then [(receivingKey place tx address output.2, output.1.nValue)]
        else []
    | none => []
  addressUnspentIndex :=
    match CScript.indexedAddress output.1.scriptPubKey with
    | some address =>
        if options.fAddressIndex then [(unspentKey address ⟨tx.hash, output.2⟩, unspent)] else []
    | none => []
  spentIndex := []

/-- The record of the spent index for an input that spends an output. -/
def spentRecord (prevout : CTxOut) (j : Nat) : CSpentIndexValue :=
  let address := (CScript.indexedAddress prevout.scriptPubKey).getD (0, List.replicate 20 0)
  ⟨tx.hash, j, place.nHeight, prevout.nValue, address.1, address.2⟩

/-- The loop of `ConnectBlock` over the inputs of a transaction. -/
def connectInputRecords (view : CCoinsView) (input : CTxIn × Nat) : IndexRecords :=
  match view.getOutputFor input.1.prevout with
  | none => .none
  | some prevout =>
      inputRecords options place tx prevout .null (spentRecord place tx prevout input.2) input

/-- The loop of `ConnectBlock` over the outputs of a transaction. -/
def connectOutputRecords (output : CTxOut × Nat) : IndexRecords :=
  outputRecords options place tx
    ⟨output.1.nValue, output.1.scriptPubKey, place.nHeight⟩ output

/-- The records of a transaction that is connected on a view. -/
def connectRecords (view : CCoinsView) : IndexRecords :=
  let inputs := tx.spendingInputs.zipIdx.map (connectInputRecords options place tx view)
  (inputs ++ tx.vout.zipIdx.map (connectOutputRecords options place tx)).foldl .append .none

end Records

/-- The variables of the loop in `ConnectBlock`. -/
structure ConnectState where
  view : CCoinsView
  vtxundo : List CTxUndo
  records : IndexRecords

/-- The variables of the loop in `DisconnectBlock`. -/
structure DisconnectState where
  view : CCoinsView
  fClean : Bool
  records : IndexRecords

section Connect

variable (isUnspendable : Bytes → Bool) (options : IndexOptions) (pindex : CBlockIndex)

/-- A round of the loop in `ConnectBlock`. -/
def connectTx (state : ConnectState) (tx : CTransaction × Nat) : Option ConnectState :=
  if !tx.1.isCoinBase && !state.view.haveInputs tx.1 then none
  else
    (state.view.updateCoins isUnspendable tx.1 pindex.nHeight).map fun (view, txundo) =>
      { view := view
        vtxundo := if 0 < tx.2 then state.vtxundo ++ [txundo] else state.vtxundo
        records := state.records.append
          (connectRecords options ⟨pindex.nHeight, tx.2⟩ tx.1 state.view) }

/-- The writes of `ConnectBlock` to the indexes. -/
def connectIndexes (db : CBlockTreeDB) (block : CBlock) (records : IndexRecords) :
    CBlockTreeDB :=
  let db := if options.fAddressIndex then
      (db.writeAddressIndex records.addressIndex).updateAddressUnspentIndex
        records.addressUnspentIndex
    else db
  let db := if options.fSpentIndex then db.updateSpentIndex records.spentIndex else db
  if options.fTimestampIndex then db.writeTimestamp block pindex else db

/-- What `ConnectBlock` does to the indexes and to the coins, with its undo data. -/
def connectBlock (db : CBlockTreeDB) (view : CCoinsView) (block : CBlock) :
    Option (CBlockTreeDB × CCoinsView × List CTxUndo) :=
  if view.bestBlock ≠ pindex.prevHash then none
  else
    (block.vtx.zipIdx.foldlM (connectTx isUnspendable options pindex)
      ⟨view, [], .none⟩).map fun state =>
        (connectIndexes options pindex db block state.records,
          state.view.setBestBlock block.hash, state.vtxundo)

/-- An input in the loop of `DisconnectBlock`. -/
def disconnectInput (place : TxPlace) (tx : CTransaction) (input : (CTxIn × Nat) × CTxInUndo)
    (state : DisconnectState) : DisconnectState :=
  let prevout := input.1.1.prevout
  let undo := input.2
  let (coins, fClean) := (state.view.coins prevout.hash).restore prevout.n undo
  { view := state.view.setCoins prevout.hash coins
    fClean := state.fClean && fClean
    records := state.records.append
      (inputRecords options place tx undo.txout
        ⟨undo.txout.nValue, undo.txout.scriptPubKey, undo.nHeight⟩ .null input.1) }

/-- The loop of `DisconnectBlock` over the inputs of a transaction, last input first. -/
def disconnectInputs (place : TxPlace) (tx : CTransaction) (inputs : List (CTxIn × Nat))
    (txundo : CTxUndo) (state : DisconnectState) : DisconnectState :=
  (inputs.zip txundo).foldr (disconnectInput options place tx) state

/-- The outputs of a transaction in the loop of `DisconnectBlock`. -/
def disconnectOutputs (place : TxPlace) (tx : CTransaction) (state : DisconnectState) :
    DisconnectState :=
  let outs := (state.view.coins tx.hash).clearUnspendable isUnspendable
  let outsBlock := CCoins.fromTx isUnspendable tx place.nHeight
  let outs := if outsBlock.nVersion < 0 then { outs with nVersion := outsBlock.nVersion } else outs
  { view := state.view.setCoins tx.hash .clear
    fClean := state.fClean && outs.equal outsBlock
    records := (tx.vout.zipIdx.reverse.map (outputRecords options place tx .null)).foldl .append
      state.records }

/-- A round of the loop in `DisconnectBlock`. -/
def disconnectTx (vtxundo : List CTxUndo) (tx : CTransaction × Nat) (state : DisconnectState) :
    Option DisconnectState :=
  let place : TxPlace := ⟨pindex.nHeight, tx.2⟩
  let state := disconnectOutputs isUnspendable options place tx.1 state
  if tx.2 = 0 then some state
  else
    match vtxundo[tx.2 - 1]? with
    | none => none
    | some txundo =>
        if txundo.length ≠ tx.1.vin.length then none
        else some (disconnectInputs options place tx.1 tx.1.vin.zipIdx txundo state)

/-- The writes of `DisconnectBlock` to the indexes.  The records for the spent index
are collected, but not written. -/
def disconnectIndexes (db : CBlockTreeDB) (records : IndexRecords) : CBlockTreeDB :=
  if options.fAddressIndex then
    (db.eraseAddressIndex records.addressIndex).updateAddressUnspentIndex
      records.addressUnspentIndex
  else db

/-- `DisconnectBlock` with the undo data that it has read: the indexes, the coins, and
whether the coins were as expected. -/
def disconnectBlock (db : CBlockTreeDB) (view : CCoinsView) (vtxundo : List CTxUndo)
    (block : CBlock) : Option (CBlockTreeDB × CCoinsView × Bool) :=
  if view.bestBlock ≠ block.hash ∨ vtxundo.length + 1 ≠ block.vtx.length then none
  else
    (block.vtx.zipIdx.foldrM (disconnectTx isUnspendable options pindex vtxundo)
      ⟨view, true, .none⟩).map fun state =>
        (disconnectIndexes options db state.records, state.view.setBestBlock pindex.prevHash,
          state.fClean)

end Connect

end HdacNode
