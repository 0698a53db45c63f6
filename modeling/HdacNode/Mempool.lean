import HdacNode.OwnerIndex
import HdacNode.Transactions
import Mathlib.Data.BitVec

/-!
# The memory pool

`txmempool.cpp`: the pooled transactions, the outputs that they spend, their indexes by
address and by spent output, the priority deltas, and the list of hashes in which they are
replayed.
-/

namespace HdacNode

open WriteBatch

/-- `CTxMemPoolEntry`. -/
structure CTxMemPoolEntry where
  tx : CTransaction
  nTxSize : BitVec 64
  nTime : Int
  deriving DecidableEq, Repr

/-- `CInPoint`: a pooled transaction and an index into its inputs. -/
structure CInPoint where
  ptx : Hash
  n : Nat
  deriving DecidableEq, Repr

/-- `CMempoolAddressDeltaKey`. -/
structure CMempoolAddressDeltaKey where
  type : Nat
  addressBytes : Bytes
  txhash : Hash
  index : Nat
  spending : Bool
  deriving DecidableEq, Repr

/-- `CMempoolAddressDelta`. -/
structure CMempoolAddressDelta where
  time : Int
  amount : Int
  prevhash : Hash
  prevout : Nat
  deriving DecidableEq, Repr

/-- `CSpentIndexValue` of a pooled transaction, without the block height, which is -1. -/
structure CMempoolSpentValue where
  txid : Hash
  inputIndex : Nat
  satoshis : Int
  addressType : Nat
  addressHash : Bytes
  deriving DecidableEq, Repr

/-- The outputs that a view has for spent outpoints. -/
abbrev OutputView := COutPoint → CTxOut

/-- `CTxMemPool`.  `address` is `mapAddress` with `mapAddressInserted`, and `spent` is `mapSpent`
with `mapSpentInserted`. -/
structure CTxMemPool where
  mapTx : Table Hash CTxMemPoolEntry
  mapNextTx : Table COutPoint CInPoint
  mapDeltas : Table Hash Int
  address : OwnerIndex Hash CMempoolAddressDeltaKey CMempoolAddressDelta
  spent : OwnerIndex Hash COutPoint CMempoolSpentValue
  totalTxSize : BitVec 64
  hashList : RowBuffer Hash Hash
  hashListPos : Nat

namespace CTxMemPool

/-- The pool at the start of the node. -/
def empty : CTxMemPool where
  mapTx := ∅
  mapNextTx := ∅
  mapDeltas := ∅
  address := .empty
  spent := .empty
  totalTxSize := 0
  hashList := .initializeBuffer 0 false
  hashListPos := 0

/-- `CTxMemPool::exists`. -/
def exist (pool : CTxMemPool) (hash : Hash) : Bool := (get pool.mapTx hash).isSome

section Adding

/-- The entries of a transaction's inputs in `mapNextTx`. -/
def addNextTx (hash : Hash) (tx : CTransaction) (mapNextTx : Table COutPoint CInPoint) :
    Table COutPoint CInPoint :=
  tx.vin.zipIdx.foldl (fun table input => table.insert input.1.prevout ⟨hash, input.2⟩) mapNextTx

/-- The row for a new transaction: a freed one in front, or one behind the others. -/
def addHash (pool : CTxMemPool) (hash : Hash) : CTxMemPool :=
  if pool.hashListPos < pool.hashList.count then
    { pool with
      hashList := pool.hashList.putRow id pool.hashListPos hash
      hashListPos := pool.hashListPos + 1 }
  else
    { pool with
      hashList := pool.hashList.add id hash
      hashListPos := (pool.hashList.add id hash).count }

/-- `CTxMemPool::addUnchecked`. -/
def addUnchecked (pool : CTxMemPool) (hash : Hash) (entry : CTxMemPoolEntry) : CTxMemPool :=
  { pool with
    mapTx := pool.mapTx.insert hash entry
    mapNextTx := addNextTx hash entry.tx pool.mapNextTx
    totalTxSize := pool.totalTxSize + entry.nTxSize }.addHash hash

variable (entry : CTxMemPoolEntry) (view : OutputView)

/-- The records of the inputs in the address index. -/
def addressInputs : List (CMempoolAddressDeltaKey × CMempoolAddressDelta) :=
  entry.tx.vin.zipIdx.filterMap fun input =>
    (CScript.indexedAddress (view input.1.prevout).scriptPubKey).map fun address =>
      (⟨address.1, address.2, entry.tx.hash, input.2, true⟩,
        ⟨entry.nTime, (view input.1.prevout).nValue * -1, input.1.prevout.hash, input.1.prevout.n⟩)

/-- The records of the outputs in the address index. -/
def addressOutputs : List (CMempoolAddressDeltaKey × CMempoolAddressDelta) :=
  entry.tx.vout.zipIdx.filterMap fun output =>
    (CScript.indexedAddress output.1.scriptPubKey).map fun address =>
      (⟨address.1, address.2, entry.tx.hash, output.2, false⟩,
        ⟨entry.nTime, output.1.nValue, 0, 0⟩)

/-- The records of a transaction in the address index. -/
def addressRecords : List (CMempoolAddressDeltaKey × CMempoolAddressDelta) :=
  addressInputs entry view ++ addressOutputs entry

/-- `CTxMemPool::addAddressIndex`. -/
def addAddressIndex (pool : CTxMemPool) : CTxMemPool :=
  { pool with address := pool.address.add entry.tx.hash (addressRecords entry view) }

/-- The records of a transaction in the spent index. -/
def spentRecords : List (COutPoint × CMempoolSpentValue) :=
  entry.tx.vin.zipIdx.map fun input =>
    let prevout := view input.1.prevout
    let address := (CScript.indexedAddress prevout.scriptPubKey).getD (0, List.replicate 20 0)
    (input.1.prevout, ⟨entry.tx.hash, input.2, prevout.nValue, address.1, address.2⟩)

/-- `CTxMemPool::addSpentIndex`. -/
def addSpentIndex (pool : CTxMemPool) : CTxMemPool :=
  { pool with spent := pool.spent.add entry.tx.hash (spentRecords entry view) }

/-- `CTxMemPool::PrioritiseTransaction`, for the delta of the fee. -/
def prioritiseTransaction (hash : Hash) (nFeeDelta : Int) (pool : CTxMemPool) : CTxMemPool :=
  { pool with
    mapDeltas := pool.mapDeltas.insert hash ((get pool.mapDeltas hash).getD 0 + nFeeDelta) }

/-- `CTxMemPool::ClearPrioritisation`. -/
def clearPrioritisation (hash : Hash) (pool : CTxMemPool) : CTxMemPool :=
  { pool with mapDeltas := pool.mapDeltas.erase hash }

end Adding

section Removing

/-- The pooled transactions that spend outputs of a transaction. -/
def children (pool : CTxMemPool) (hash : Hash) (tx : CTransaction) : List Hash :=
  (List.range tx.vout.length).filterMap fun i => (get pool.mapNextTx ⟨hash, i⟩).map CInPoint.ptx

/-- The body of the loop in `remove` for a pooled transaction. -/
def removeEntry (pool : CTxMemPool) (hash : Hash) (entry : CTxMemPoolEntry) : CTxMemPool :=
  { pool with
    mapTx := pool.mapTx.erase hash
    mapNextTx := eraseAll pool.mapNextTx (entry.tx.vin.map CTxIn.prevout)
    totalTxSize := pool.totalTxSize - entry.nTxSize
    address := pool.address.remove hash
    spent := pool.spent.remove hash }

theorem removeEntry_shorter {pool : CTxMemPool} {hash : Hash} {entry : CTxMemPoolEntry}
    (pooled : get pool.mapTx hash = some entry) :
    (pool.removeEntry hash entry).mapTx.keys.length < pool.mapTx.keys.length := by
  have present : hash ∈ pool.mapTx.keys := by
    rw [mem_keys_iff, pooled]
    exact Option.some_ne_none entry
  have positive := List.length_pos_of_mem present
  change (pool.mapTx.erase hash).keys.length < _
  rw [AList.keys_erase, List.length_erase_of_mem present]
  omega

/-- The loop in `remove` over the queue of the transactions to remove. -/
def removeLoop (fRecursive : Bool) (pool : CTxMemPool) (txToRemove : List Hash)
    (removed : List CTransaction) : CTxMemPool × List CTransaction :=
  match txToRemove with
  | [] => (pool, removed)
  | hash :: txToRemove =>
    match _pooled : get pool.mapTx hash with
    | none => removeLoop fRecursive pool txToRemove removed
    | some entry =>
      removeLoop fRecursive (pool.removeEntry hash entry)
        (txToRemove ++ if fRecursive then pool.children hash entry.tx else [])
        (removed ++ [entry.tx])
  termination_by (pool.mapTx.keys.length, txToRemove.length)
  decreasing_by
  · exact Prod.Lex.right _ (by simp)
  · exact Prod.Lex.left _ _ (removeEntry_shorter _pooled)

theorem removeLoop_nil (fRecursive : Bool) (pool : CTxMemPool) (removed : List CTransaction) :
    pool.removeLoop fRecursive [] removed = (pool, removed) := by
  rw [removeLoop]

theorem removeLoop_missing {pool : CTxMemPool} {hash : Hash} (fRecursive : Bool)
    (txToRemove : List Hash) (removed : List CTransaction)
    (missing : get pool.mapTx hash = none) :
    pool.removeLoop fRecursive (hash :: txToRemove) removed =
      pool.removeLoop fRecursive txToRemove removed := by
  rw [removeLoop]
  split
  · rfl
  · rename_i entry found
    rw [missing] at found
    cases found

theorem removeLoop_pooled {pool : CTxMemPool} {hash : Hash} {entry : CTxMemPoolEntry}
    (fRecursive : Bool) (txToRemove : List Hash) (removed : List CTransaction)
    (pooled : get pool.mapTx hash = some entry) :
    pool.removeLoop fRecursive (hash :: txToRemove) removed =
      (pool.removeEntry hash entry).removeLoop fRecursive
        (txToRemove ++ if fRecursive then pool.children hash entry.tx else [])
        (removed ++ [entry.tx]) := by
  rw [removeLoop]
  split
  · rename_i missing
    rw [pooled] at missing
    cases missing
  · rename_i other found
    rw [pooled] at found
    cases found
    rfl

/-- `CTxMemPool::remove`. -/
def remove (pool : CTxMemPool) (origTx : CTransaction) (removed : List CTransaction)
    (fRecursive : Bool) : CTxMemPool × List CTransaction :=
  pool.removeLoop fRecursive
    (origTx.hash :: if fRecursive ∧ ¬ pool.exist origTx.hash then pool.children origTx.hash origTx
      else []) removed

/-- The body of the loop in `removeConflicts`. -/
def removeConflict (tx : CTransaction) (st : CTxMemPool × List CTransaction) (txin : CTxIn) :
    CTxMemPool × List CTransaction :=
  match get st.1.mapNextTx txin.prevout with
  | none => st
  | some spender =>
    match get st.1.mapTx spender.ptx with
    | none => st
    | some conflict =>
      if conflict.tx.hash ≠ tx.hash then st.1.remove conflict.tx st.2 true else st

/-- `CTxMemPool::removeConflicts`. -/
def removeConflicts (pool : CTxMemPool) (tx : CTransaction) (removed : List CTransaction) :
    CTxMemPool × List CTransaction :=
  tx.vin.foldl (removeConflict tx) (pool, removed)

/-- The body of the loop in `removeForBlock`. -/
def removeBlockTx (st : CTxMemPool × List CTransaction) (tx : CTransaction) :
    CTxMemPool × List CTransaction :=
  let conflicting := (st.1.remove tx [] false).1.removeConflicts tx st.2
  (conflicting.1.clearPrioritisation tx.hash, conflicting.2)

/-- `CTxMemPool::removeForBlock`, without the fee estimator. -/
def removeForBlock (pool : CTxMemPool) (vtx : List CTransaction) (conflicts : List CTransaction) :
    CTxMemPool × List CTransaction :=
  vtx.foldl removeBlockTx (pool, conflicts)

/-- `CTxMemPool::clear`. -/
def clear (pool : CTxMemPool) : CTxMemPool :=
  { pool with
    mapTx := ∅
    mapNextTx := ∅
    hashList := pool.hashList.clear
    hashListPos := 0
    totalTxSize := 0 }

end Removing

section HashList

/-- A round of the loop in `defragmentHashList`: the rows, and the next one to write. -/
def defragmentRow (pool : CTxMemPool) (st : RowBuffer Hash Hash × Nat) (posIn : Nat) :
    RowBuffer Hash Hash × Nat :=
  let hash := st.1.getRow posIn
  if pool.exist hash then
    (if posIn ≠ st.2 then st.1.putRow id st.2 hash else st.1, st.2 + 1)
  else st

/-- Fill rows of a list with zeros. -/
def zeroRows (hashList : RowBuffer Hash Hash) (first rows : Nat) : RowBuffer Hash Hash :=
  { hashList with
    data := fun row => if first ≤ row ∧ row < first + rows then 0 else hashList.data row }

/-- `CTxMemPool::defragmentHashList`. -/
def defragmentHashList (pool : CTxMemPool) : CTxMemPool :=
  let st := (List.range pool.hashList.count).foldl pool.defragmentRow (pool.hashList, 0)
  let zeroed :=
    if st.2 < st.1.count then zeroRows st.1 st.2 (st.1.count - st.2) else st.1
  { pool with
    hashList := zeroed.setCount id st.2
    hashListPos := st.2 }

/-- Move the first rows of a list back. -/
def moveRows (hashList : RowBuffer Hash Hash) (rows oldrows : Nat) : RowBuffer Hash Hash :=
  { hashList with
    data := fun row =>
      if rows ≤ row ∧ row < rows + oldrows then hashList.data (row - rows) else hashList.data row }

/-- `CTxMemPool::shiftHashList`. -/
def shiftHashList (pool : CTxMemPool) (rows : Nat) : CTxMemPool :=
  let oldrows := pool.hashList.count
  let grown := pool.hashList.setCount id (oldrows + rows)
  { pool with
    hashList := if oldrows ≠ 0 then zeroRows (moveRows grown rows oldrows) 0 rows else grown
    hashListPos := 0 }

end HashList

end CTxMemPool

end HdacNode
