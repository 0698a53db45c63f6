import HdacNode.Mempool

/-!
# The indexes of the memory pool

Between the operations of the pool, every input of a pooled transaction has its entry in
`mapNextTx`, the total size is that of the pooled transactions, and the address and spent
indexes hold the records of the pooled transactions that were entered there, with their lists.  Clearing the pool
leaves these two indexes and the priority deltas behind.
-/

namespace HdacNode

open WriteBatch

namespace CTxMemPool

/-- What has been entered for the pooled transactions: the views under which they went into
the address and the spent index, and the deltas since the pool was cleared. -/
structure IndexLog where
  addressView : Hash → Option OutputView
  spentView : Hash → Option OutputView
  prioritised : Hash → Prop

/-- The log without transactions that are not pooled. -/
def IndexLog.keep (log : IndexLog) (pool : CTxMemPool) : IndexLog where
  addressView hash := if pool.exist hash then log.addressView hash else none
  spentView hash := if pool.exist hash then log.spentView hash else none
  prioritised := log.prioritised

/-- The records of a pooled transaction under the view of the log. -/
def recordsOf {Record : Type} (records : CTxMemPoolEntry → OutputView → List Record)
    (pool : CTxMemPool) (views : Hash → Option OutputView) (hash : Hash) : Option (List Record) :=
  (get pool.mapTx hash).bind fun entry => (views hash).map (records entry)

/-- An input of a pooled transaction spends an output. -/
def Spends (pool : CTxMemPool) (inPoint : CInPoint) (outPoint : COutPoint) : Prop :=
  ∃ entry, get pool.mapTx inPoint.ptx = some entry ∧
    (entry.tx.vin[inPoint.n]?).map CTxIn.prevout = some outPoint

/-- The sum of the sizes of the pooled transactions. -/
def pooledSize (mapTx : Table Hash CTxMemPoolEntry) : BitVec 64 :=
  (mapTx.entries.map fun pooled => pooled.2.nTxSize).sum

/-- The indexes belong to the pooled transactions. -/
structure Consistent (pool : CTxMemPool) (log : IndexLog) : Prop where
  nextTx : ∀ outPoint inPoint,
    get pool.mapNextTx outPoint = some inPoint ↔ pool.Spends inPoint outPoint
  total : pool.totalTxSize = pooledSize pool.mapTx
  address : pool.address.Holds (recordsOf addressRecords pool log.addressView)
  spent : pool.spent.Holds (recordsOf spentRecords pool log.spentView)
  deltas : ∀ hash, get pool.mapDeltas hash ≠ none → log.prioritised hash

/-- The operations of the pool. -/
inductive PoolOp where
  | addUnchecked (hash : Hash) (entry : CTxMemPoolEntry)
  | addAddressIndex (entry : CTxMemPoolEntry) (view : OutputView)
  | addSpentIndex (entry : CTxMemPoolEntry) (view : OutputView)
  | prioritise (hash : Hash) (nFeeDelta : Int)
  | remove (origTx : CTransaction) (fRecursive : Bool)
  | removeConflicts (tx : CTransaction)
  | removeForBlock (vtx : List CTransaction)
  | clear

/-- The pool after an operation. -/
def PoolOp.apply : PoolOp → CTxMemPool → CTxMemPool
  | addUnchecked hash entry, pool => pool.addUnchecked hash entry
  | addAddressIndex entry view, pool => pool.addAddressIndex entry view
  | addSpentIndex entry view, pool => pool.addSpentIndex entry view
  | prioritise hash nFeeDelta, pool => pool.prioritiseTransaction hash nFeeDelta
  | remove origTx fRecursive, pool => (pool.remove origTx [] fRecursive).1
  | removeConflicts tx, pool => (pool.removeConflicts tx []).1
  | removeForBlock vtx, pool => (pool.removeForBlock vtx []).1
  | clear, pool => pool.clear

/-- What an operation enters. -/
def PoolOp.note : PoolOp → IndexLog → IndexLog
  | addAddressIndex entry view, log =>
    { log with addressView := Function.update log.addressView entry.tx.hash (some view) }
  | addSpentIndex entry view, log =>
    { log with spentView := Function.update log.spentView entry.tx.hash (some view) }
  | prioritise hash _, log =>
    { log with prioritised := fun other => other = hash ∨ log.prioritised other }
  | clear, log => { log with prioritised := fun _ => False }
  | _, log => log

/-- A pool and its log. -/
structure PoolState where
  pool : CTxMemPool
  log : IndexLog

/-- The pool and its log after an operation. -/
def PoolState.step (st : PoolState) (op : PoolOp) : PoolState where
  pool := op.apply st.pool
  log := (op.note st.log).keep (op.apply st.pool)

/-- The pool at the start of the node. -/
def PoolState.start : PoolState := ⟨.empty, ⟨fun _ => none, fun _ => none, fun _ => False⟩⟩

/-- The pool and its log after a run of operations. -/
def PoolState.run (st : PoolState) (ops : List PoolOp) : PoolState := ops.foldl PoolState.step st

/-- The pool gets a new transaction whose inputs nobody spends, enters a pooled transaction into
an index once, and is cleared when nothing is entered. -/
def PoolOp.Careful (pool : CTxMemPool) : PoolOp → Prop
  | addUnchecked hash entry => entry.tx.hash = hash ∧ get pool.mapTx hash = none ∧
    (entry.tx.vin.map CTxIn.prevout).Nodup ∧
    ∀ input ∈ entry.tx.vin, get pool.mapNextTx input.prevout = none
  | addAddressIndex entry _ => get pool.mapTx entry.tx.hash = some entry ∧
    get pool.address.inserted entry.tx.hash = none
  | addSpentIndex entry _ => get pool.mapTx entry.tx.hash = some entry ∧
    get pool.spent.inserted entry.tx.hash = none
  | clear => pool.address.IsEmpty ∧ pool.spent.IsEmpty ∧ ∀ hash, get pool.mapDeltas hash = none
  | _ => True

/-- Every operation of a run is careful. -/
def CarefulRun : CTxMemPool → List PoolOp → Prop
  | _, [] => True
  | pool, op :: ops => op.Careful pool ∧ CarefulRun (op.apply pool) ops

section Sizes

theorem pooledSize_insert {mapTx : Table Hash CTxMemPoolEntry} {hash : Hash}
    (entry : CTxMemPoolEntry) (fresh : WriteBatch.get mapTx hash = none) :
    pooledSize (mapTx.insert hash entry) = pooledSize mapTx + entry.nTxSize := by
  have absent : hash ∉ mapTx := AList.lookup_eq_none.mp fresh
  rw [pooledSize, AList.entries_insert_of_notMem absent, List.map_cons, List.sum_cons, add_comm]
  rfl

theorem pooledSize_erase {mapTx : Table Hash CTxMemPoolEntry} {hash : Hash}
    {entry : CTxMemPoolEntry} (pooled : WriteBatch.get mapTx hash = some entry) :
    pooledSize (mapTx.erase hash) = pooledSize mapTx - entry.nTxSize := by
  have present : hash ∈ mapTx.entries.keys := by
    change hash ∈ mapTx.keys
    rw [mem_keys_iff, pooled]
    exact Option.some_ne_none entry
  obtain ⟨found, before, behind, notBefore, split, erased⟩ := List.exists_of_kerase present
  have same : found = entry := by
    have among : (⟨hash, found⟩ : (_ : Hash) × CTxMemPoolEntry) ∈ mapTx.entries := by
      rw [split]
      exact List.mem_append_right before List.mem_cons_self
    have lookedUp : WriteBatch.get mapTx hash = some found := AList.mem_lookup_iff.mpr among
    rw [pooled] at lookedUp
    exact (Option.some.inj lookedUp).symm
  have sum : pooledSize mapTx = pooledSize (mapTx.erase hash) + entry.nTxSize := by
    change (mapTx.entries.map _).sum = ((mapTx.entries.kerase hash).map _).sum + _
    rw [erased, split, same]
    simp only [List.map_append, List.map_cons, List.sum_append, List.sum_cons]
    rw [add_assoc, add_comm entry.nTxSize]
  rw [sum, BitVec.add_sub_cancel]

end Sizes

section Records

theorem numberedKeys_nodup {Item Key Value : Type} (items : List Item)
    (recordOf : Item × Nat → Option (Key × Value)) (place : Key → Nat)
    (numbered : ∀ item record, recordOf item = some record → place record.1 = item.2) :
    ((items.zipIdx.filterMap recordOf).map Prod.fst).Nodup := by
  have places : items.zipIdx.Pairwise fun first second => first.2 ≠ second.2 :=
    List.pairwise_map.mp (List.nodup_zipIdx_map_snd items)
  refine List.pairwise_map.mpr (List.Pairwise.filterMap recordOf ?_ places)
  intro first second apart record found other otherFound same
  apply apart
  rw [← numbered first record found, ← numbered second other otherFound, same]

theorem addressInputs_key {entry : CTxMemPoolEntry} {view : OutputView}
    {record : CMempoolAddressDeltaKey × CMempoolAddressDelta}
    (among : record ∈ addressInputs entry view) :
    record.1.txhash = entry.tx.hash ∧ record.1.spending = true := by
  obtain ⟨input, _, found⟩ := List.mem_filterMap.mp among
  obtain ⟨address, _, rfl⟩ := Option.map_eq_some_iff.mp found
  exact ⟨rfl, rfl⟩

theorem addressOutputs_key {entry : CTxMemPoolEntry}
    {record : CMempoolAddressDeltaKey × CMempoolAddressDelta}
    (among : record ∈ addressOutputs entry) :
    record.1.txhash = entry.tx.hash ∧ record.1.spending = false := by
  obtain ⟨output, _, found⟩ := List.mem_filterMap.mp among
  obtain ⟨address, _, rfl⟩ := Option.map_eq_some_iff.mp found
  exact ⟨rfl, rfl⟩

theorem addressRecords_txhash {entry : CTxMemPoolEntry} {view : OutputView}
    {record : CMempoolAddressDeltaKey × CMempoolAddressDelta}
    (among : record ∈ addressRecords entry view) : record.1.txhash = entry.tx.hash := by
  rcases List.mem_append.mp among with input | output
  · exact (addressInputs_key input).1
  · exact (addressOutputs_key output).1

theorem addressRecords_nodup (entry : CTxMemPoolEntry) (view : OutputView) :
    ((addressRecords entry view).map Prod.fst).Nodup := by
  rw [addressRecords, List.map_append, List.nodup_append]
  refine ⟨?_, ?_, ?_⟩
  · refine numberedKeys_nodup entry.tx.vin _ CMempoolAddressDeltaKey.index ?_
    intro input record found
    obtain ⟨address, _, rfl⟩ := Option.map_eq_some_iff.mp found
    rfl
  · refine numberedKeys_nodup entry.tx.vout _ CMempoolAddressDeltaKey.index ?_
    intro output record found
    obtain ⟨address, _, rfl⟩ := Option.map_eq_some_iff.mp found
    rfl
  · intro key among other otherAmong same
    obtain ⟨record, recordAmong, rfl⟩ := List.mem_map.mp among
    obtain ⟨otherRecord, otherRecordAmong, rfl⟩ := List.mem_map.mp otherAmong
    have spending := (addressInputs_key recordAmong).2
    rw [same, (addressOutputs_key otherRecordAmong).2] at spending
    cases spending

theorem spentRecords_keys (entry : CTxMemPoolEntry) (view : OutputView) :
    (spentRecords entry view).map Prod.fst = entry.tx.vin.map CTxIn.prevout := by
  conv_rhs => rw [← List.zipIdx_map_fst 0 entry.tx.vin, List.map_map]
  rw [spentRecords, List.map_map]
  rfl

end Records

section NextTx

variable {pool : CTxMemPool}

/-- An input spends an output if it is at its place. -/
theorem spends_of_mem {hash : Hash} {entry : CTxMemPoolEntry} {outPoint : COutPoint}
    (pooled : WriteBatch.get pool.mapTx hash = some entry)
    (among : outPoint ∈ entry.tx.vin.map CTxIn.prevout) :
    ∃ n, pool.Spends ⟨hash, n⟩ outPoint := by
  obtain ⟨n, inside, at_⟩ := List.mem_iff_getElem.mp among
  refine ⟨n, entry, pooled, ?_⟩
  rw [← List.getElem?_map, List.getElem?_eq_getElem inside, at_]

theorem mem_of_spends {inPoint : CInPoint} {entry : CTxMemPoolEntry} {outPoint : COutPoint}
    (pooled : WriteBatch.get pool.mapTx inPoint.ptx = some entry)
    (spends : pool.Spends inPoint outPoint) : outPoint ∈ entry.tx.vin.map CTxIn.prevout := by
  obtain ⟨other, found, at_⟩ := spends
  rw [pooled] at found
  cases found
  rw [← List.getElem?_map] at at_
  exact List.mem_of_getElem? at_

/-- The entries of a new transaction in `mapNextTx`. -/
theorem get_addNextTx {mapNextTx : Table COutPoint CInPoint} {tx : CTransaction} (hash : Hash)
    (distinct : (tx.vin.map CTxIn.prevout).Nodup)
    (fresh : ∀ input ∈ tx.vin, WriteBatch.get mapNextTx input.prevout = none)
    (outPoint : COutPoint) (inPoint : CInPoint) :
    WriteBatch.get (addNextTx hash tx mapNextTx) outPoint = some inPoint ↔
      WriteBatch.get mapNextTx outPoint = some inPoint ∨
        inPoint.ptx = hash ∧ (tx.vin[inPoint.n]?).map CTxIn.prevout = some outPoint := by
  have asRecords : addNextTx hash tx mapNextTx = insertAll mapNextTx
      (tx.vin.zipIdx.map fun input => (input.1.prevout, ⟨hash, input.2⟩)) := by
    rw [addNextTx, insertAll, List.foldl_map]
  have keys : (tx.vin.zipIdx.map fun input =>
      (input.1.prevout, (⟨hash, input.2⟩ : CInPoint))).map Prod.fst =
        tx.vin.map CTxIn.prevout := by
    conv_rhs => rw [← List.zipIdx_map_fst 0 tx.vin, List.map_map]
    rw [List.map_map]
    rfl
  rw [asRecords, get_insertAll, List.mem_map]
  · refine or_congr Iff.rfl ?_
    constructor
    · rintro ⟨input, among, same⟩
      cases same
      refine ⟨rfl, ?_⟩
      rw [List.mem_zipIdx_iff_getElem?] at among
      rw [among]
      rfl
    · rintro ⟨rfl, at_⟩
      obtain ⟨input, found, rfl⟩ := Option.map_eq_some_iff.mp at_
      exact ⟨(input, inPoint.n), List.mem_zipIdx_iff_getElem?.mpr found, rfl⟩
  · intro record among
    obtain ⟨input, inputAmong, rfl⟩ := List.mem_map.mp among
    exact fresh input.1 (List.fst_mem_of_mem_zipIdx inputAmong)
  · rw [keys]
    exact distinct

end NextTx

/-- The invariant of the pool's operations: transactions are pooled under their hashes, and
the indexes file their records. -/
structure Filed (pool : CTxMemPool) (log : IndexLog) : Prop where
  named : ∀ hash entry, WriteBatch.get pool.mapTx hash = some entry → entry.tx.hash = hash
  nextTx : ∀ outPoint inPoint,
    WriteBatch.get pool.mapNextTx outPoint = some inPoint ↔ pool.Spends inPoint outPoint
  total : pool.totalTxSize = pooledSize pool.mapTx
  address : pool.address.Files (recordsOf addressRecords pool log.addressView)
  spent : pool.spent.Files (recordsOf spentRecords pool log.spentView)
  deltas : ∀ hash, WriteBatch.get pool.mapDeltas hash ≠ none → log.prioritised hash

section Steps

variable {pool : CTxMemPool} {log : IndexLog}

theorem Filed.consistent (filed : Filed pool log) : Consistent pool log where
  nextTx := filed.nextTx
  total := filed.total
  address := filed.address.toHolds
  spent := filed.spent.toHolds
  deltas := filed.deltas

/-- Two inputs of pooled transactions do not spend the same output. -/
theorem Filed.spends_once (filed : Filed pool log) {first second : CInPoint}
    {outPoint : COutPoint} (spends : pool.Spends first outPoint)
    (alsoSpends : pool.Spends second outPoint) : first = second := by
  have found := (filed.nextTx outPoint first).mpr spends
  rw [(filed.nextTx outPoint second).mpr alsoSpends] at found
  exact (Option.some.inj found).symm

theorem recordsOf_eq_some {Record : Type} {records : CTxMemPoolEntry → OutputView → List Record}
    {views : Hash → Option OutputView} {hash : Hash} {found : List Record} :
    recordsOf records pool views hash = some found ↔
      ∃ entry view, WriteBatch.get pool.mapTx hash = some entry ∧ views hash = some view ∧
        records entry view = found := by
  rw [recordsOf, Option.bind_eq_some_iff]
  constructor
  · rintro ⟨entry, pooled, mapped⟩
    obtain ⟨view, logged, same⟩ := Option.map_eq_some_iff.mp mapped
    exact ⟨entry, view, pooled, logged, same⟩
  · rintro ⟨entry, view, pooled, logged, same⟩
    exact ⟨entry, pooled, Option.map_eq_some_iff.mpr ⟨view, logged, same⟩⟩

theorem recordsOf_keep {Record : Type} (records : CTxMemPoolEntry → OutputView → List Record)
    (views : Hash → Option OutputView) :
    recordsOf records pool (fun hash => if pool.exist hash then views hash else none) =
      recordsOf records pool views := by
  ext hash : 1
  rw [recordsOf, recordsOf]
  cases pooled : WriteBatch.get pool.mapTx hash with
  | none => rfl
  | some entry =>
    have present : pool.exist hash = true := by
      rw [exist, pooled]
      rfl
    rw [present]
    rfl

/-- The log may forget transactions that are not pooled. -/
theorem Filed.keep (filed : Filed pool log) : Filed pool (log.keep pool) where
  named := filed.named
  nextTx := filed.nextTx
  total := filed.total
  address := by
    rw [IndexLog.keep, recordsOf_keep]
    exact filed.address
  spent := by
    rw [IndexLog.keep, recordsOf_keep]
    exact filed.spent
  deltas := filed.deltas

theorem recordsOf_removeEntry {Record : Type}
    (records : CTxMemPoolEntry → OutputView → List Record) (views : Hash → Option OutputView)
    (hash : Hash) (entry : CTxMemPoolEntry) :
    recordsOf records (pool.removeEntry hash entry) views =
      Function.update (recordsOf records pool views) hash none := by
  ext other : 1
  have erased : WriteBatch.get (pool.removeEntry hash entry).mapTx other =
      if other = hash then none else WriteBatch.get pool.mapTx other :=
    get_erase pool.mapTx hash other
  rw [recordsOf, erased]
  by_cases same : other = hash
  · rw [if_pos same, same, Function.update_self]
    rfl
  · rw [if_neg same, Function.update_of_ne same]
    rfl

/-- Removing a pooled transaction takes out its entries everywhere. -/
theorem Filed.removeEntry (filed : Filed pool log) {hash : Hash} {entry : CTxMemPoolEntry}
    (pooled : WriteBatch.get pool.mapTx hash = some entry) :
    Filed (pool.removeEntry hash entry) log where
  named := by
    intro other found foundPooled
    change WriteBatch.get (pool.mapTx.erase hash) other = some found at foundPooled
    rw [get_erase] at foundPooled
    split at foundPooled
    · cases foundPooled
    · exact filed.named other found foundPooled
  nextTx := by
    intro outPoint inPoint
    have spendsKept : (pool.removeEntry hash entry).Spends inPoint outPoint ↔
        inPoint.ptx ≠ hash ∧ pool.Spends inPoint outPoint := by
      have erased : WriteBatch.get (pool.removeEntry hash entry).mapTx inPoint.ptx =
          if inPoint.ptx = hash then none else WriteBatch.get pool.mapTx inPoint.ptx :=
        get_erase pool.mapTx hash inPoint.ptx
      rw [Spends, erased]
      by_cases same : inPoint.ptx = hash
      · simp [same]
      · rw [if_neg same]
        exact (and_iff_right same).symm
    have erased : WriteBatch.get (pool.removeEntry hash entry).mapNextTx outPoint =
        if outPoint ∈ entry.tx.vin.map CTxIn.prevout then none
        else WriteBatch.get pool.mapNextTx outPoint := get_eraseAll _ _ _
    rw [spendsKept, erased]
    constructor
    · intro kept
      split at kept
      · cases kept
      · rename_i notSpent
        have spends := (filed.nextTx outPoint inPoint).mp kept
        refine ⟨?_, spends⟩
        intro same
        exact notSpent (mem_of_spends (by rw [same]; exact pooled) spends)
    · rintro ⟨differs, spends⟩
      rw [if_neg]
      · exact (filed.nextTx outPoint inPoint).mpr spends
      · intro among
        obtain ⟨n, alsoSpends⟩ := spends_of_mem pooled among
        exact differs (congrArg CInPoint.ptx (filed.spends_once spends alsoSpends))
  total := by
    change pool.totalTxSize - entry.nTxSize = pooledSize (pool.mapTx.erase hash)
    rw [pooledSize_erase pooled, filed.total]
  address := by
    rw [recordsOf_removeEntry]
    exact filed.address.remove hash
  spent := by
    rw [recordsOf_removeEntry]
    exact filed.spent.remove hash
  deltas := filed.deltas

/-- The loop over the queue keeps the indexes. -/
theorem Filed.removeLoop {fRecursive : Bool} {txToRemove : List Hash}
    {removed : List CTransaction} (filed : Filed pool log) :
    Filed (pool.removeLoop fRecursive txToRemove removed).1 log := by
  induction pool, txToRemove, removed using CTxMemPool.removeLoop.induct fRecursive with
  | case1 pool removed =>
    rw [removeLoop_nil]
    exact filed
  | case2 pool removed hash txToRemove missing ih =>
    rw [removeLoop_missing _ _ _ missing]
    exact ih filed
  | case3 pool removed hash txToRemove entry pooled ih =>
    rw [removeLoop_pooled _ _ _ pooled]
    exact ih (filed.removeEntry pooled)

theorem Filed.remove (filed : Filed pool log) (origTx : CTransaction)
    (removed : List CTransaction) (fRecursive : Bool) :
    Filed (pool.remove origTx removed fRecursive).1 log :=
  filed.removeLoop

theorem Filed.removeConflicts (filed : Filed pool log) (tx : CTransaction)
    (removed : List CTransaction) : Filed (pool.removeConflicts tx removed).1 log := by
  rw [CTxMemPool.removeConflicts]
  have fromState (st : CTxMemPool × List CTransaction) (inputs : List CTxIn)
      (filed : Filed st.1 log) : Filed (inputs.foldl (removeConflict tx) st).1 log := by
    induction inputs generalizing st with
    | nil => exact filed
    | cons txin inputs ih =>
      refine ih _ ?_
      rw [removeConflict]
      split
      · exact filed
      · split
        · exact filed
        · split
          · exact filed.remove _ _ _
          · exact filed
  exact fromState (pool, removed) tx.vin filed

theorem Filed.clearPrioritisation (filed : Filed pool log) (hash : Hash) :
    Filed (pool.clearPrioritisation hash) log where
  named := filed.named
  nextTx := filed.nextTx
  total := filed.total
  address := filed.address
  spent := filed.spent
  deltas := by
    intro other present
    change WriteBatch.get (pool.mapDeltas.erase hash) other ≠ none at present
    rw [get_erase] at present
    split at present
    · exact absurd rfl present
    · exact filed.deltas other present

theorem Filed.removeForBlock (filed : Filed pool log) (vtx conflicts : List CTransaction) :
    Filed (pool.removeForBlock vtx conflicts).1 log := by
  rw [CTxMemPool.removeForBlock]
  have fromState (st : CTxMemPool × List CTransaction) (vtx : List CTransaction)
      (filed : Filed st.1 log) : Filed (vtx.foldl removeBlockTx st).1 log := by
    induction vtx generalizing st with
    | nil => exact filed
    | cons tx vtx ih =>
      exact ih _ (((filed.remove tx [] false).removeConflicts tx st.2).clearPrioritisation tx.hash)
  exact fromState (pool, conflicts) vtx filed

theorem addHash_eq (pool : CTxMemPool) (hash : Hash) :
    ∃ rows pos, pool.addHash hash = { pool with hashList := rows, hashListPos := pos } := by
  rw [addHash]
  split
  · exact ⟨_, _, rfl⟩
  · exact ⟨_, _, rfl⟩

/-- The indexes do not depend on the list of hashes. -/
theorem Filed.addHash (filed : Filed pool log) (hash : Hash) : Filed (pool.addHash hash) log := by
  obtain ⟨rows, pos, same⟩ := addHash_eq pool hash
  rw [same]
  exact ⟨filed.named, filed.nextTx, filed.total, filed.address, filed.spent, filed.deltas⟩

theorem recordsOf_insert {Record : Type} {records : CTxMemPoolEntry → OutputView → List Record}
    {views : Hash → Option OutputView} {hash : Hash} (entry : CTxMemPoolEntry)
    (fresh : WriteBatch.get pool.mapTx hash = none) (noView : views hash = none)
    {added : CTxMemPool} (addedTx : added.mapTx = pool.mapTx.insert hash entry) :
    recordsOf records added views = recordsOf records pool views := by
  ext other : 1
  rw [recordsOf, recordsOf, addedTx, get_insert]
  by_cases same : other = hash
  · rw [if_pos same, same, fresh, noView]
    rfl
  · rw [if_neg same]

/-- A new transaction whose inputs nobody spends gets its entries in `mapNextTx`. -/
theorem Filed.addUnchecked (filed : Filed pool log) {hash : Hash} {entry : CTxMemPoolEntry}
    (sameHash : entry.tx.hash = hash) (fresh : WriteBatch.get pool.mapTx hash = none)
    (distinct : (entry.tx.vin.map CTxIn.prevout).Nodup)
    (unspent : ∀ input ∈ entry.tx.vin, WriteBatch.get pool.mapNextTx input.prevout = none)
    (noAddressView : log.addressView hash = none) (noSpentView : log.spentView hash = none) :
    Filed (pool.addUnchecked hash entry) log := by
  refine Filed.addHash ?_ hash
  refine ⟨?_, ?_, ?_, ?_, ?_, filed.deltas⟩
  · intro other found pooled
    change WriteBatch.get (pool.mapTx.insert hash entry) other = some found at pooled
    rw [get_insert] at pooled
    split at pooled
    · rename_i same
      cases pooled
      rw [same]
      exact sameHash
    · exact filed.named other found pooled
  · intro outPoint inPoint
    change WriteBatch.get (addNextTx hash entry.tx pool.mapNextTx) outPoint = some inPoint ↔
      ∃ found, WriteBatch.get (pool.mapTx.insert hash entry) inPoint.ptx = some found ∧ _
    rw [get_addNextTx hash distinct unspent, filed.nextTx, get_insert]
    by_cases same : inPoint.ptx = hash
    · rw [if_pos same]
      constructor
      · rintro (⟨found, pooled, _⟩ | ⟨_, at_⟩)
        · rw [same, fresh] at pooled
          cases pooled
        · exact ⟨entry, rfl, at_⟩
      · rintro ⟨found, isEntry, at_⟩
        cases isEntry
        exact .inr ⟨same, at_⟩
    · rw [if_neg same]
      constructor
      · rintro (spends | ⟨isHash, _⟩)
        · exact spends
        · exact absurd isHash same
      · exact .inl
  · change pool.totalTxSize + entry.nTxSize = pooledSize (pool.mapTx.insert hash entry)
    rw [pooledSize_insert entry fresh, filed.total]
  · rw [recordsOf_insert entry fresh noAddressView rfl]
    exact filed.address
  · rw [recordsOf_insert entry fresh noSpentView rfl]
    exact filed.spent

/-- The records of a pooled transaction under a view. -/
theorem recordsOf_update {Record : Type} {records : CTxMemPoolEntry → OutputView → List Record}
    (views : Hash → Option OutputView) {hash : Hash} {entry : CTxMemPoolEntry}
    (view : OutputView) (pooled : WriteBatch.get pool.mapTx hash = some entry) :
    recordsOf records pool (Function.update views hash (some view)) =
      Function.update (recordsOf records pool views) hash (some (records entry view)) := by
  ext other : 1
  by_cases same : other = hash
  · rw [same, Function.update_self, recordsOf, pooled, Function.update_self]
    rfl
  · rw [Function.update_of_ne same, recordsOf, Function.update_of_ne same]
    rfl

/-- A pooled transaction is entered into the address index. -/
theorem Filed.addAddressIndex (filed : Filed pool log) {entry : CTxMemPoolEntry}
    (view : OutputView) (pooled : WriteBatch.get pool.mapTx entry.tx.hash = some entry)
    (free : WriteBatch.get pool.address.inserted entry.tx.hash = none) :
    Filed (pool.addAddressIndex entry view)
      { log with addressView := Function.update log.addressView entry.tx.hash (some view) } := by
  refine ⟨filed.named, filed.nextTx, filed.total, ?_, filed.spent, filed.deltas⟩
  change (pool.address.add entry.tx.hash (addressRecords entry view)).Files
    (recordsOf addressRecords pool _)
  rw [recordsOf_update log.addressView view pooled]
  refine filed.address.add free ?_ (addressRecords_nodup entry view)
  intro record among
  cases taken : WriteBatch.get pool.address.map record.1 with
  | none => rfl
  | some delta =>
    obtain ⟨other, records, found, amongOther⟩ := (filed.address.entries _ _).mp taken
    obtain ⟨otherEntry, otherView, otherPooled, _, rfl⟩ := recordsOf_eq_some.mp found
    have listed := filed.address.listed other
    have same : other = entry.tx.hash := calc
      other = otherEntry.tx.hash := (filed.named other otherEntry otherPooled).symm
      _ = record.1.txhash := (addressRecords_txhash amongOther).symm
      _ = entry.tx.hash := addressRecords_txhash among
    rw [found, same, free] at listed
    cases listed

/-- A pooled transaction is entered into the spent index. -/
theorem Filed.addSpentIndex (filed : Filed pool log) {entry : CTxMemPoolEntry}
    (view : OutputView) (pooled : WriteBatch.get pool.mapTx entry.tx.hash = some entry)
    (free : WriteBatch.get pool.spent.inserted entry.tx.hash = none) :
    Filed (pool.addSpentIndex entry view)
      { log with spentView := Function.update log.spentView entry.tx.hash (some view) } := by
  refine ⟨filed.named, filed.nextTx, filed.total, filed.address, ?_, filed.deltas⟩
  change (pool.spent.add entry.tx.hash (spentRecords entry view)).Files
    (recordsOf spentRecords pool _)
  rw [recordsOf_update log.spentView view pooled]
  refine filed.spent.add free ?_ ?_
  · intro record among
    cases taken : WriteBatch.get pool.spent.map record.1 with
    | none => rfl
    | some value =>
      obtain ⟨other, records, found, amongOther⟩ := (filed.spent.entries _ _).mp taken
      obtain ⟨otherEntry, otherView, otherPooled, _, rfl⟩ := recordsOf_eq_some.mp found
      have listed := filed.spent.listed other
      have key : record.1 ∈ entry.tx.vin.map CTxIn.prevout := by
        rw [← spentRecords_keys entry view]
        exact List.mem_map_of_mem among
      have otherKey : record.1 ∈ otherEntry.tx.vin.map CTxIn.prevout := by
        rw [← spentRecords_keys otherEntry otherView]
        exact List.mem_map.mpr ⟨_, amongOther, rfl⟩
      obtain ⟨n, spends⟩ := spends_of_mem pooled key
      obtain ⟨m, otherSpends⟩ := spends_of_mem otherPooled otherKey
      have same : other = entry.tx.hash :=
        congrArg CInPoint.ptx (filed.spends_once otherSpends spends)
      rw [found, same, free] at listed
      cases listed
  · rw [spentRecords_keys, List.nodup_iff_getElem?_ne_getElem?]
    intro i j below inside same
    have first : pool.Spends ⟨entry.tx.hash, i⟩ ((entry.tx.vin.map CTxIn.prevout)[i]) :=
      ⟨entry, pooled, by rw [← List.getElem?_map, List.getElem?_eq_getElem]⟩
    have second : pool.Spends ⟨entry.tx.hash, j⟩ ((entry.tx.vin.map CTxIn.prevout)[i]) :=
      ⟨entry, pooled, by rw [← List.getElem?_map, ← same, List.getElem?_eq_getElem]⟩
    have once := congrArg CInPoint.n (filed.spends_once first second)
    exact absurd once (Nat.ne_of_lt below)

theorem Filed.prioritise (filed : Filed pool log) (hash : Hash) (nFeeDelta : Int) :
    Filed (pool.prioritiseTransaction hash nFeeDelta)
      { log with prioritised := fun other => other = hash ∨ log.prioritised other } where
  named := filed.named
  nextTx := filed.nextTx
  total := filed.total
  address := filed.address
  spent := filed.spent
  deltas := by
    intro other present
    change WriteBatch.get (pool.mapDeltas.insert hash _) other ≠ none at present
    rw [get_insert] at present
    split at present
    · rename_i same
      exact .inl same
    · exact .inr (filed.deltas other present)

theorem recordsOf_nobody {Record : Type} {records : CTxMemPoolEntry → OutputView → List Record}
    {views : Hash → Option OutputView} (nobody : pool.mapTx = ∅) :
    recordsOf records pool views = fun _ => none := by
  ext hash : 1
  rw [recordsOf, nobody, get_empty]
  rfl

theorem nextTx_of_nobody (nobody : pool.mapTx = ∅) (noNext : pool.mapNextTx = ∅)
    (outPoint : COutPoint) (inPoint : CInPoint) :
    WriteBatch.get pool.mapNextTx outPoint = some inPoint ↔ pool.Spends inPoint outPoint := by
  rw [noNext, Spends, nobody, get_empty, get_empty]
  simp

/-- Clearing keeps the indexes if nothing is entered in those that it forgets. -/
theorem Filed.clear (filed : Filed pool log)
    (noAddresses : pool.address.IsEmpty) (noSpent : pool.spent.IsEmpty)
    (noDeltas : ∀ hash, WriteBatch.get pool.mapDeltas hash = none) :
    Filed pool.clear { log with prioritised := fun _ => False } where
  named := by
    intro hash entry pooled
    change WriteBatch.get (∅ : Table Hash CTxMemPoolEntry) hash = some entry at pooled
    rw [get_empty] at pooled
    cases pooled
  nextTx := nextTx_of_nobody rfl rfl
  total := rfl
  address := by
    rw [recordsOf_nobody rfl]
    exact filed.address.forget noAddresses.2
  spent := by
    rw [recordsOf_nobody rfl]
    exact filed.spent.forget noSpent.2
  deltas := by
    intro hash present
    exact absurd (noDeltas hash) present

/-- Clearing a pool keeps its indexes exact only if nothing is entered in those that it
forgets. -/
theorem consistent_clear_iff :
    Consistent pool.clear { log with prioritised := fun _ => False } ↔
      pool.address.IsEmpty ∧ pool.spent.IsEmpty ∧
        ∀ hash, WriteBatch.get pool.mapDeltas hash = none := by
  have nobody {Record : Type} (records : CTxMemPoolEntry → OutputView → List Record)
      (views : Hash → Option OutputView) : recordsOf records pool.clear views = fun _ => none :=
    recordsOf_nobody rfl
  constructor
  · intro consistent
    have address := consistent.address
    have spent := consistent.spent
    rw [nobody] at address spent
    refine ⟨OwnerIndex.holds_none_iff.mp address, OwnerIndex.holds_none_iff.mp spent, fun hash => ?_⟩
    by_contra present
    exact consistent.deltas hash present
  · rintro ⟨noAddresses, noSpent, noDeltas⟩
    refine ⟨?_, rfl, ?_, ?_, fun hash present => absurd (noDeltas hash) present⟩
    · exact nextTx_of_nobody rfl rfl
    · rw [nobody]
      exact OwnerIndex.holds_none_iff.mpr noAddresses
    · rw [nobody]
      exact OwnerIndex.holds_none_iff.mpr noSpent

end Steps

section Runs

/-- The invariant between the operations of a run. -/
structure PoolState.Filed (st : PoolState) : Prop where
  filed : CTxMemPool.Filed st.pool st.log
  pooledOnly : ∀ hash, st.pool.exist hash = false →
    st.log.addressView hash = none ∧ st.log.spentView hash = none

theorem PoolState.filed_start : PoolState.start.Filed where
  filed := by
    refine ⟨?_, ?_, rfl, ?_, ?_, ?_⟩
    · intro hash entry pooled
      change WriteBatch.get (∅ : Table Hash CTxMemPoolEntry) hash = some entry at pooled
      rw [get_empty] at pooled
      cases pooled
    · exact nextTx_of_nobody rfl rfl
    · rw [recordsOf_nobody rfl]
      exact OwnerIndex.files_empty
    · rw [recordsOf_nobody rfl]
      exact OwnerIndex.files_empty
    · intro hash present
      exact absurd (get_empty hash) present
  pooledOnly := fun _ _ => ⟨rfl, rfl⟩

/-- A careful operation keeps the invariant. -/
theorem PoolState.Filed.step {st : PoolState} (filed : st.Filed) {op : PoolOp}
    (careful : op.Careful st.pool) : (st.step op).Filed where
  filed := by
    refine CTxMemPool.Filed.keep ?_
    cases op with
    | addUnchecked hash entry =>
      obtain ⟨sameHash, fresh, distinct, unspent⟩ := careful
      have absent : st.pool.exist hash = false := by
        rw [exist, fresh]
        rfl
      obtain ⟨noAddressView, noSpentView⟩ := filed.pooledOnly hash absent
      exact filed.filed.addUnchecked sameHash fresh distinct unspent noAddressView noSpentView
    | addAddressIndex entry view => exact filed.filed.addAddressIndex view careful.1 careful.2
    | addSpentIndex entry view => exact filed.filed.addSpentIndex view careful.1 careful.2
    | prioritise hash nFeeDelta => exact filed.filed.prioritise hash nFeeDelta
    | remove origTx fRecursive => exact filed.filed.remove origTx [] fRecursive
    | removeConflicts tx => exact filed.filed.removeConflicts tx []
    | removeForBlock vtx => exact filed.filed.removeForBlock vtx []
    | clear => exact filed.filed.clear careful.1 careful.2.1 careful.2.2
  pooledOnly := by
    intro hash absent
    change (op.apply st.pool).exist hash = false at absent
    change (if (op.apply st.pool).exist hash then _ else none) = none ∧
      (if (op.apply st.pool).exist hash then _ else none) = none
    rw [absent]
    exact ⟨rfl, rfl⟩

theorem PoolState.Filed.run {st : PoolState} (filed : st.Filed) {ops : List PoolOp}
    (careful : CarefulRun st.pool ops) : (st.run ops).Filed := by
  induction ops generalizing st with
  | nil => exact filed
  | cons op ops ih => exact ih (filed.step careful.1) careful.2

/-- After every careful run from the empty pool, the indexes belong to the pooled
transactions. -/
theorem consistent_of_carefulRun {ops : List PoolOp} (careful : CarefulRun .empty ops) :
    Consistent (PoolState.start.run ops).pool (PoolState.start.run ops).log :=
  (PoolState.filed_start.run careful).filed.consistent

/-- An output to a public key hash. -/
def keyHashOutput : CTxOut :=
  ⟨5, [opDup, opHash160, 0x14] ++ List.replicate 20 7 ++ [opEqualVerify, opCheckSig]⟩

/-- A transaction with one input and one output to a public key hash. -/
def pooledPayment : CTxMemPoolEntry := ⟨⟨1, 1, [⟨⟨9, 0⟩, []⟩], [keyHashOutput]⟩, 100, 50⟩

theorem consistent_after_payment :
    Consistent
      (PoolState.start.run [.prioritise 1 3, .addUnchecked 1 pooledPayment,
        .addAddressIndex pooledPayment fun _ => keyHashOutput,
        .addSpentIndex pooledPayment fun _ => keyHashOutput]).pool
      (PoolState.start.run [.prioritise 1 3, .addUnchecked 1 pooledPayment,
        .addAddressIndex pooledPayment fun _ => keyHashOutput,
        .addSpentIndex pooledPayment fun _ => keyHashOutput]).log := by
  refine consistent_of_carefulRun ⟨trivial, ⟨rfl, rfl, by decide, ?_⟩, ⟨?_, ?_⟩, ⟨?_, ?_⟩, trivial⟩
  · decide +kernel
  · decide +kernel
  · decide +kernel
  · decide +kernel
  · decide +kernel

/-- The address index keeps an entry of a cleared pool. -/
theorem clear_leaves_addresses :
    ¬ ∀ ops : List PoolOp,
      Consistent (PoolState.start.run ops).pool (PoolState.start.run ops).log := by
  intro always
  have consistent := always [.addUnchecked 1 pooledPayment,
    .addAddressIndex pooledPayment fun _ => keyHashOutput, .clear]
  obtain ⟨hash, records, found, _⟩ := (consistent.address.entries
    ⟨1, List.replicate 20 7, 1, 0, false⟩ ⟨50, 5, 0, 0⟩).mp (by decide +kernel)
  rw [recordsOf_nobody rfl] at found
  cases found

end Runs

end CTxMemPool

end HdacNode
