import HdacNode.WalletRows

/-!
# Operations of the wallet transaction store

The list operations of `mc_TxDB`: adding entities and transactions, the
bracket of `BeforeCommit` and `Commit` around a block, `RollBack`, and
`Unsubscribe`.  Disk reads and writes are taken to succeed.
-/

namespace HdacNode

/-- The arguments of `mc_TxDB::AddTx`; `block` is `-1` for an unconfirmed
transaction. -/
structure TxCall (Tx : Type) where
  hash : Hash
  tx : Tx
  size : Nat
  fullSize : Nat
  block : Int
  place : BlockPlace
  flags : BitVec 32
  timestamp : Nat
  entities : List TxEntity

variable {Tx : Type}

namespace TxCall

/-- The definition row of a transaction that is not stored yet. -/
def newDef (call : TxCall Tx) : TxDefRow Tx where
  txId := call.hash
  stored := call.tx
  size := call.size
  fullSize := call.fullSize
  block := call.block
  place := if 0 ≤ call.block then call.place else ⟨-1, 0, 0, 0⟩
  timeReceived := call.timestamp
  flags := call.flags

/-- The new block and flags in a definition row of the memory pool. -/
def pooledDef (call : TxCall Tx) (txdef : TxDefRow Tx) : TxDefRow Tx :=
  { txdef with
    block := call.block
    flags := call.flags
    place := if 0 ≤ call.block then call.place else { txdef.place with file := -1 } }

/-- The new block and flags of a transaction that is on disk. -/
def updatedDef (call : TxCall Tx) (txdef : TxDefRow Tx) : TxDefRow Tx :=
  { txdef with
    block := call.block
    flags := call.flags
    place := if 0 ≤ call.block then call.place else txdef.place }

/-- The memory pool row of the transaction in an entity's list. -/
def poolRow (call : TxCall Tx) (stat : TxEntityStat) : TxEntityRow where
  entity := stat.entity
  generation := stat.generation
  pos := 0
  txId := call.hash
  block := call.block
  flags := call.flags.toInt
  lastSubKeyPos := 0
  tempPos := stat.lastPos + 1

/-- The new block and flags of a row that waits already. -/
def updatedRow (call : TxCall Tx) (row : TxEntityRow) : TxEntityRow :=
  { row with
    block := call.block
    flags := call.flags.toInt }

end TxCall

/-- The positions of an entity with one more row. -/
def TxEntityStat.oneMore (stat : TxEntityStat) : TxEntityStat :=
  { stat with lastPos := stat.lastPos + 1 }

@[simp]
theorem TxEntityStat.entity_oneMore (stat : TxEntityStat) : stat.oneMore.entity = stat.entity :=
  rfl

/-- Drop the memory pool rows that are not ordered by the time received. -/
def keepTimeReceived (pool : List TxEntityRow) : List TxEntityRow :=
  pool.filter fun row => row.entity.entityType.order = .timeReceived

namespace TxImport

/-- `mc_TxDB::AddTx`, one entity of the transaction. -/
def addEntityRow (newTx : Bool) (call : TxCall Tx) (imp : TxImport Tx) (entity : TxEntity) :
    TxImport Tx :=
  match imp.findEntity entity with
  | none => imp
  | some stat =>
      match seekPool imp.memPool (stat.key 0) call.hash with
      | some row => { imp with memPool := imp.memPool.modify row call.updatedRow }
      | none =>
          if newTx ∨ (0 < imp.importID ∧ stat.notInSync) ∨
              entity.entityType.order ≠ .timeReceived then
            { imp.updateEntity entity TxEntityStat.oneMore with
              memPool := imp.memPool ++ [call.poolRow stat] }
          else imp

/-- The rows of all entities of a transaction. -/
def addEntityRows (newTx : Bool) (call : TxCall Tx) (imp : TxImport Tx) : TxImport Tx :=
  call.entities.foldl (addEntityRow newTx call) imp

/-- The definition row of a transaction in the raw memory pool. -/
def findRaw (imp : TxImport Tx) (hash : Hash) : Option (TxDefRow Tx) :=
  imp.rawMemPool.find? fun txdef => txdef.txId = hash

/-- Write into the definition rows of a transaction in the raw memory pool. -/
def updateRaw (imp : TxImport Tx) (hash : Hash) (change : TxDefRow Tx → TxDefRow Tx) :
    TxImport Tx :=
  { imp with
    rawMemPool := imp.rawMemPool.map fun txdef => if txdef.txId = hash then change txdef else txdef }

/-- Add a definition row to the raw memory pool. -/
def addRaw (imp : TxImport Tx) (txdef : TxDefRow Tx) : TxImport Tx :=
  { imp with rawMemPool := imp.rawMemPool ++ [txdef] }

/-- `mc_TxDB::BeforeCommit` on the chain import. -/
def beforeCommit (imp : TxImport Tx) : TxImport Tx :=
  { imp with
    entities := imp.entities.map fun stat =>
      if stat.entity.entityType.order ≠ .timeReceived then
        { stat with lastPos := stat.lastClearedPos }
      else stat
    memPool := keepTimeReceived imp.memPool }

/-- The import after a commit or a roll back that went through. -/
def atBlock (imp : TxImport Tx) (block : Int) : TxImport Tx := { imp with block := block }

/-- The entity positions and empty pools after a commit. -/
def cleared (imp : TxImport Tx) (block : Int) : TxImport Tx where
  importID := imp.importID
  block := block
  entities := imp.entities.map fun stat => { stat with lastClearedPos := stat.lastPos }
  memPool := []
  rawMemPool := []

end TxImport

/-- A row store: the list rows of all entities. -/
abbrev RowStore := WriteBatch.Store TxRowKey TxRowValue

/-- Write a row under a key. -/
def putRow (rows : RowStore) (key : TxRowKey) (value : TxRowValue) : RowStore :=
  rows.write ⟨key, some value⟩

/-- Delete the row of a key. -/
def eraseRow (rows : RowStore) (key : TxRowKey) : RowStore :=
  rows.write ⟨key, none⟩

/-- Write a new last position into the first row of a sub-key list. -/
def saveLastSubKeyPos (rows : RowStore) (entity : TxEntity) (generation lastSubKeyPos : Int) :
    Option RowStore :=
  let first : TxRowKey := ⟨entity, generation, 1⟩
  (rows.read first).map fun value =>
    putRow rows first { value with lastSubKeyPos := lastSubKeyPos }

/-- `mc_TxDB::Commit`, the loop over the memory pool.  An anchor row is not
stored; it makes the next row carry the new length of its sub-key list. -/
def commitPool (rows : RowStore) : Bool → List TxEntityRow →
    RowStore × List TxEntityRow × Option McError
  | _, [] => (rows, [], none)
  | anchor, row :: rest =>
      if row.entity.entityType.subKey ∧ row.tempPos = 0 then
        let (rows, rest, failed) := commitPool rows true rest
        (rows, row :: rest, failed)
      else
        match
          (if anchor ∧ 1 < row.tempPos then
            saveLastSubKeyPos rows row.entity row.generation row.lastSubKeyPos
          else some rows) with
        | none => (rows, row :: rest, some .corrupted)
        | some rows =>
            let (rows, rest, failed) :=
              commitPool (putRow rows row.placed.key row.placed.value) false rest
            (rows, row.placed :: rest, failed)

/-- `mc_TxDB::RollBack`, one decremented sub-key list: its rows above the new
length go, and its first row gets the new length. -/
def dropDecremented (rows : RowStore) (anchor : TxEntityRow) : RowStore × Option McError :=
  let above := (List.range (anchor.flags - anchor.lastSubKeyPos).toNat).map fun step =>
    (anchor.lastSubKeyPos + step + 1).toNat
  let dropped := above.foldl
    (fun rows pos => eraseRow rows ⟨anchor.entity, anchor.generation, pos⟩) rows
  if anchor.lastSubKeyPos = 0 then (dropped, none)
  else
    match saveLastSubKeyPos dropped anchor.entity anchor.generation anchor.lastSubKeyPos with
    | some saved => (saved, none)
    | none => (dropped, some .corrupted)

/-- The rows of the memory pool that `DecrementSubKey` left. -/
def TxEntityRow.Decremented (row : TxEntityRow) : Prop :=
  row.entity.entityType.subKey ∧ row.tempPos = 0 ∧ row.pos = 1

instance (row : TxEntityRow) : Decidable row.Decremented := by
  unfold TxEntityRow.Decremented
  infer_instance

/-- `mc_TxDB::RollBack`, all decremented sub-key lists. -/
def dropAllDecremented (rows : RowStore) : List TxEntityRow → RowStore × Option McError
  | [] => (rows, none)
  | row :: rest =>
      if row.Decremented then
        match dropDecremented rows row with
        | (rows, none) => dropAllDecremented rows rest
        | (rows, some failed) => (rows, some failed)
      else dropAllDecremented rows rest

/-- `mc_TxDB::RollBack`, the rows of one entity from a position down while they
are in blocks above the new height.  The result has the last position kept. -/
def dropAbove (rows : RowStore) (stat : TxEntityStat) (block : Int) :
    Nat → RowStore × Nat × Option McError
  | 0 => (rows, 0, none)
  | pos + 1 =>
      match rows.read (stat.key (pos + 1)) with
      | none => (rows, pos + 1, some .notFound)
      | some value =>
          if block < value.block then
            dropAbove (eraseRow rows (stat.key (pos + 1))) stat block pos
          else (rows, pos + 1, none)

/-- `mc_TxDB::RollBack`, the lists ordered by chain position. -/
def dropEntities (rows : RowStore) (block : Int) :
    List TxEntityStat → RowStore × List TxEntityStat × Option McError
  | [] => (rows, [], none)
  | stat :: rest =>
      if stat.entity.entityType.order ≠ .timeReceived then
        match dropAbove rows stat block stat.lastClearedPos with
        | (rows, pos, some failed) =>
            (rows, { stat with lastPos := pos } :: rest, some failed)
        | (rows, pos, none) =>
            let (rows, rest, failed) := dropEntities rows block rest
            (rows, { stat with lastPos := pos, lastClearedPos := pos } :: rest, failed)
      else
        let (rows, rest, failed) := dropEntities rows block rest
        (rows, stat :: rest, failed)

namespace TxDB

/-- `mc_TxDB::AddEntity`. -/
def addEntity (db : TxDB Tx) (slot : Nat) (entity : TxEntity) (notInSync : Bool) :
    TxDB Tx × Option McError :=
  let imp := db.imports slot
  match imp.findEntity entity with
  | some _ => (db, some .found)
  | none =>
      (db.commitStores.setImport slot
        { imp with entities := imp.entities ++ [⟨entity, 0, 0, 0, notInSync⟩] }, none)

/-- A definition row above the chain height counts as unconfirmed. -/
def asSeen (db : TxDB Tx) (txdef : TxDefRow Tx) : TxDefRow Tx :=
  if db.block < txdef.block then { txdef with block := -1 } else txdef

/-- `mc_TxDB::GetTx`. -/
def getTx (db : TxDB Tx) (hash : Hash) : Option (TxDefRow Tx) :=
  (((db.imports 0).findRaw hash).or
    ((db.rawUpdatePool.find? fun txdef => txdef.txId = hash).or (db.txs.read hash))).map db.asSeen

/-- Put a definition row into the update pool. -/
def putUpdate (db : TxDB Tx) (txdef : TxDefRow Tx) : TxDB Tx :=
  { db with
    rawUpdatePool :=
      if db.rawUpdatePool.any fun other => other.txId = txdef.txId then
        db.rawUpdatePool.map fun other => if other.txId = txdef.txId then txdef else other
      else db.rawUpdatePool ++ [txdef] }

/-- `mc_TxDB::AddTx`. -/
def addTx (db : TxDB Tx) (slot : Nat) (call : TxCall Tx) : TxDB Tx :=
  let imp := db.imports slot
  if imp.importID ≠ 0 ∧ ∀ entity ∈ call.entities, imp.findEntity entity = none then db
  else
    match db.getTx call.hash with
    | none => db.setImport slot ((imp.addRaw call.newDef).addEntityRows true call)
    | some txdef =>
        let added := db.setImport slot
          ((imp.updateRaw call.hash call.pooledDef).addEntityRows false call)
        if imp.importID = 0 ∧ imp.findRaw call.hash = none then
          added.putUpdate (call.updatedDef txdef)
        else added

/-- `mc_TxDB::BeforeCommit`. -/
def beforeCommit (db : TxDB Tx) (slot : Nat) : TxDB Tx :=
  let imp := db.imports slot
  if imp.importID ≠ 0 then db else db.setImport slot imp.beforeCommit

/-- Write definition rows to the database. -/
def putTxs (txs : WriteBatch.Store Hash (TxDefRow Tx)) (defs : List (TxDefRow Tx)) :
    WriteBatch.Store Hash (TxDefRow Tx) :=
  defs.foldl (fun txs txdef => txs.write ⟨txdef.txId, some txdef⟩) txs

/-- `mc_TxDB::RollBack`. -/
def rollBack (db : TxDB Tx) (slot : Nat) (block : Int) : TxDB Tx × Option McError :=
  let imp := db.imports slot
  match dropAllDecremented db.rows imp.memPool with
  | (rows, some failed) => ({ db with rows := rows }, some failed)
  | (rows, none) =>
      let trimmed := { imp with memPool := keepTimeReceived imp.memPool }
      let updates := if imp.importID = 0 then [] else db.rawUpdatePool
      match dropEntities rows block imp.entities with
      | (rows, entities, some failed) =>
          ({ db with rows := rows, rawUpdatePool := updates }.setImport slot
            { trimmed with entities := entities }, some failed)
      | (rows, entities, none) =>
          (({ db with
              rows := rows
              rawUpdatePool := updates
              block := if imp.importID = 0 then block else db.block }.setImport slot
            ({ trimmed with entities := entities }.atBlock block)).commitStores, none)

/-- `mc_TxDB::Commit`. -/
def commit (db : TxDB Tx) (slot : Nat) : TxDB Tx × Option McError :=
  let imp := db.imports slot
  let block := imp.block + 1
  let txs := putTxs (putTxs db.txs imp.rawMemPool)
    (if imp.importID = 0 then db.rawUpdatePool else [])
  match commitPool db.rows false imp.memPool with
  | (rows, pool, some failed) =>
      (({ db with rows := rows, txs := txs }.setImport slot
        { imp with memPool := pool }).rollBack slot (block - 1) |>.1, some failed)
  | (rows, _, none) =>
      (({ db with
          rows := rows
          txs := txs
          rawUpdatePool := []
          block := if imp.importID = 0 then block else db.block }.setImport slot
        (imp.cleared block)).commitStores, none)

/-- `mc_TxDB::GetListSize` of a tracked entity: the last position, and the last
position in the database. -/
def listSize (db : TxDB Tx) (entity : TxEntity) : Int × Int :=
  match db.chain.findEntity entity with
  | none => (0, 0)
  | some stat => (stat.lastPos, stat.lastClearedPos)

/-- `mc_TxDB::GetListSize` of an entity or a sub-key. -/
def getListSize (db : TxDB Tx) (entity : TxEntity) (generation : Int) : Int × Int :=
  if entity.entityType.subKey then
    match seekPool db.chain.memPool ⟨entity, generation, 0⟩ 0 with
    | some anchor =>
        match db.chain.memPool[anchor + 1]? with
        | some first => (first.lastSubKeyPos, first.tempPos - 1)
        | none => (0, 0)
    | none =>
        match db.rows.read ⟨entity, generation, 1⟩ with
        | some value => (value.lastSubKeyPos, value.lastSubKeyPos)
        | none => (0, 0)
  else db.listSize entity

section Unsubscribe

variable (compoundHash : BitVec 160 → Hash → BitVec 160)

/-- The sub-key rows that go with one row of a key or publisher list. -/
def subKeyRowKeys (db : TxDB Tx) (stat : TxEntityStat) (pos : Nat) : List TxRowKey :=
  match stat.entity.entityType.subKey, stat.entity.entityType.kind with
  | false, .streamKey | false, .streamPublisher =>
      let txId := ((db.rows.read (stat.key pos)).map TxRowValue.txId).getD 0
      let subKey : TxEntity := ⟨compoundHash stat.entity.entityID txId,
        { stat.entity.entityType with subKey := true }⟩
      (List.range (db.getListSize subKey stat.generation).2.toNat).map fun index =>
        ⟨subKey, stat.generation, index + 1⟩
  | _, _ => []

/-- The keys that `mc_TxDB::Unsubscribe` deletes for one entity. -/
def unsubscribedKeys (db : TxDB Tx) (entity : TxEntity) : List TxRowKey :=
  match db.chain.findEntity entity with
  | none => []
  | some stat =>
      (List.range' 1 stat.lastClearedPos).flatMap fun pos =>
        db.subKeyRowKeys compoundHash stat pos ++ [stat.key pos]

/-- `mc_TxDB::Unsubscribe`.  The memory pool is left as it is. -/
def unsubscribe (db : TxDB Tx) (entities : List TxEntity) : TxDB Tx :=
  if ∀ entity ∈ entities, db.chain.findEntity entity = none then db
  else
    ({ db with
        rows := (entities.flatMap (db.unsubscribedKeys compoundHash)).foldl eraseRow
          db.rows }.setImport 0
      { db.chain with
        entities := db.chain.entities.filter fun stat => stat.entity ∉ entities }).commitStores

end Unsubscribe

/-- `mc_TxDB::GetRow`: a row that is not found stays as the caller set it. -/
def getRow (db : TxDB Tx) (row : TxEntityRow) : TxEntityRow × Option McError :=
  match db.rows.read row.key with
  | some value => (row.key.row value, none)
  | none =>
      match db.chain.memPool.find? fun other =>
          other.tempPos = row.pos ∧ other.entity = row.entity with
      | some other => ({ other with pos := other.tempPos }, none)
      | none => (row, some .notFound)

/-- `mc_TxDB::GetList`, the loop over positions; the search for a memory pool
row goes on behind the last one found. -/
def listRows (db : TxDB Tx) (key : Nat → TxRowKey) (confirmed : Int) :
    List TxEntityRow → Nat → Nat → Except McError (List TxEntityRow)
  | _, _, 0 => .ok []
  | pool, pos, count + 1 =>
      if (pos : Int) ≤ confirmed then
        match db.rows.read (key pos) with
        | none => .error .notFound
        | some value => do
            let rest ← listRows db key confirmed pool (pos + 1) count
            return (key pos).row value :: rest
      else
        match pool.dropWhile fun row =>
            ¬ (row.tempPos = pos ∧ row.entity = (key pos).entity) with
        | [] => .error .notFound
        | row :: behind => do
            let rest ← listRows db key confirmed behind (pos + 1) count
            return { row with pos := pos } :: rest

/-- `mc_TxDB::GetList` of an entity's current generation.  A start that is not
positive counts from the end. -/
def getList (db : TxDB Tx) (slot : Nat) (entity : TxEntity) (start count : Int) :
    Except McError (List TxEntityRow) :=
  match (db.imports slot).findEntity entity with
  | none => .ok []
  | some stat =>
      let size := (db.listSize entity).1
      let first := if start ≤ 0 then size - count + 1 + start else start
      if first + count - 1 < 1 then .ok []
      else
        let count := if first ≤ 0 then count - (1 - first) else count
        let first := if first ≤ 0 then 1 else first
        let last := if first + count - 1 ≤ size then first + count - 1 else size
        db.listRows stat.key stat.lastClearedPos (db.imports slot).memPool first.toNat
          (last - first + 1).toNat

/-- `mc_TxDB::GetList` of a given generation; here a list that starts before
its first row is not shortened. -/
def getGenerationList (db : TxDB Tx) (slot : Nat) (entity : TxEntity) (generation : Int)
    (start count : Int) : Except McError (List TxEntityRow) :=
  let size := (db.getListSize entity generation).1
  let confirmed := (db.getListSize entity generation).2
  if size ≤ 0 then .ok []
  else
    let first := if start ≤ 0 then size - count + 1 + start else start
    if first + count - 1 < 1 then .ok []
    else
      let first := if first ≤ 0 then 1 else first
      let last := if first + count - 1 ≤ size then first + count - 1 else size
      db.listRows (fun pos => ⟨entity, generation, pos⟩) confirmed (db.imports slot).memPool
        first.toNat (last - first + 1).toNat

/-- `mc_TxDB::GetBlockItemIndex`, the search between two positions. -/
def searchBlock (db : TxDB Tx) (block : Int) : Nat → TxEntityRow → Nat → Nat → Nat
  | 0, _, first, _ => first
  | rounds + 1, row, first, last =>
      if 1 < last - first then
        let next := (last + first) / 2
        let row := (db.getRow { row with pos := next }).1
        if block < row.block then db.searchBlock block rounds row first next
        else db.searchBlock block rounds row next last
      else first

/-- `mc_TxDB::GetBlockItemIndex`. -/
def getBlockItemIndex (db : TxDB Tx) (slot : Nat) (entity : TxEntity) (block : Int) : Nat :=
  match (db.imports slot).findEntity entity with
  | none => 0
  | some stat =>
      let last := (db.getListSize entity stat.generation).2.toNat
      if last = 0 then 0
      else
        let first := (db.getRow ⟨stat.entity, stat.generation, 1, 0, 0, 0, 0, 0⟩).1
        if block < first.block then 0
        else
          let final := (db.getRow { first with pos := last }).1
          if final.block ≤ block then last else db.searchBlock block last final 1 last

end TxDB

end HdacNode
