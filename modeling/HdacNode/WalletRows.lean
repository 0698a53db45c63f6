import HdacNode.PermissionRows

/-!
# Rows and state of the wallet transaction store

`mc_TxDB` keeps, for every tracked entity, a numbered list of the transactions
that concern it, and the transactions themselves.  Confirmed rows are in the
database, the rows of unconfirmed transactions wait in the memory pool of
their import.  Import 0 follows the chain.

Data files are represented by the transactions stored in them.  The database
rows with the entity lists and the statistics are read only when the node
starts and are not part of the state.
-/

namespace HdacNode

/-- The `MC_TET_` types of an entity, without the sub-key and order bits. -/
inductive EntityKind where
  | walletAll
  | walletSpendable
  | pubkeyAddress
  | scriptAddress
  | stream
  | streamKey
  | streamPublisher
  | asset
  deriving DecidableEq, Repr

/-- The `MC_TET_ORDERMASK` bits of an entity type. -/
inductive ListOrder where
  | chainPos
  | timeReceived
  deriving DecidableEq, Repr

/-- `m_EntityType`; `subKey` is the bit `MC_TET_SUBKEY`. -/
structure EntityType where
  kind : EntityKind
  subKey : Bool
  order : ListOrder
  deriving DecidableEq, Repr

/-- `mc_TxEntity`. -/
structure TxEntity where
  entityID : BitVec 160
  entityType : EntityType
  deriving DecidableEq, Repr

/-- The database key of an `mc_TxEntityRow`. -/
structure TxRowKey where
  entity : TxEntity
  generation : Int
  pos : Nat
  deriving DecidableEq, Repr

/-- The database value of an `mc_TxEntityRow`.  The flags of a sub-key anchor
and the last sub-key position are used as signed numbers. -/
structure TxRowValue where
  txId : Hash
  block : Int
  flags : Int
  lastSubKeyPos : Int
  deriving DecidableEq, Repr

/-- `mc_TxEntityRow`. -/
structure TxEntityRow where
  entity : TxEntity
  generation : Int
  pos : Nat
  txId : Hash
  block : Int
  flags : Int
  lastSubKeyPos : Int
  tempPos : Nat
  deriving DecidableEq, Repr

namespace TxEntityRow

/-- The key of a database row. -/
def key (row : TxEntityRow) : TxRowKey := ⟨row.entity, row.generation, row.pos⟩

/-- The value of a database row. -/
def value (row : TxEntityRow) : TxRowValue :=
  ⟨row.txId, row.block, row.flags, row.lastSubKeyPos⟩

/-- The key of a memory pool row. -/
def poolKey (row : TxEntityRow) : TxRowKey × Hash := (row.key, row.txId)

/-- A pool row with its position moved to where the database expects it. -/
def placed (row : TxEntityRow) : TxEntityRow :=
  { row with
    pos := row.tempPos
    tempPos := 0 }

end TxEntityRow

/-- The row of a database key and value. -/
def TxRowKey.row (key : TxRowKey) (value : TxRowValue) : TxEntityRow where
  entity := key.entity
  generation := key.generation
  pos := key.pos
  txId := value.txId
  block := value.block
  flags := value.flags
  lastSubKeyPos := value.lastSubKeyPos
  tempPos := 0

/-- `mc_Buffer::Seek` in a memory pool. -/
def seekPool (pool : List TxEntityRow) (key : TxRowKey) (txId : Hash) : Option Nat :=
  pool.findIdx? fun row => row.poolKey = (key, txId)

/-- `mc_TxEntityStat`; `notInSync` is the flag `MC_EFL_NOT_IN_SYNC`. -/
structure TxEntityStat where
  entity : TxEntity
  generation : Int
  lastPos : Nat
  lastClearedPos : Nat
  notInSync : Bool
  deriving DecidableEq, Repr

/-- The database key of the stat's row at a position. -/
def TxEntityStat.key (stat : TxEntityStat) (pos : Nat) : TxRowKey :=
  ⟨stat.entity, stat.generation, pos⟩

/-- The place of a transaction in the block files; `file` is `-1` outside blocks. -/
structure BlockPlace where
  file : Int
  offset : Nat
  txOffset : Nat
  index : Nat
  deriving DecidableEq, Repr

/-- `mc_TxDefRow`, with the stored transaction in place of its file position. -/
structure TxDefRow (Tx : Type) where
  txId : Hash
  stored : Tx
  size : Nat
  fullSize : Nat
  block : Int
  place : BlockPlace
  timeReceived : Nat
  flags : BitVec 32
  deriving DecidableEq, Repr

/-- `mc_TxImport` with its two memory pools. -/
structure TxImport (Tx : Type) where
  importID : Int
  block : Int
  entities : List TxEntityStat
  memPool : List TxEntityRow
  rawMemPool : List (TxDefRow Tx)

/-- `mc_TxDB`; `block` and `lastGeneration` are those of `m_DBStat`. -/
structure TxDB (Tx : Type) where
  block : Int
  lastGeneration : Int
  imports : Nat → TxImport Tx
  rawUpdatePool : List (TxDefRow Tx)
  rows : WriteBatch.Store TxRowKey TxRowValue
  txs : WriteBatch.Store Hash (TxDefRow Tx)

variable {Tx : Type}

namespace TxImport

/-- An import slot that is not in use. -/
def unused : TxImport Tx := ⟨0, -1, [], [], []⟩

/-- `mc_TxImport::FindEntity` with `GetEntity`. -/
def findEntity (imp : TxImport Tx) (entity : TxEntity) : Option TxEntityStat :=
  imp.entities.find? fun stat => stat.entity = entity

/-- Write through the pointer that `GetEntity` returns. -/
def updateEntity (imp : TxImport Tx) (entity : TxEntity) (change : TxEntityStat → TxEntityStat) :
    TxImport Tx :=
  { imp with
    entities := imp.entities.map fun stat => if stat.entity = entity then change stat else stat }

end TxImport

namespace TxDB

/-- The store after `mc_TxDB::Initialize` on an empty directory. -/
def initial : TxDB Tx where
  block := -1
  lastGeneration := 0
  imports := fun _ => .unused
  rawUpdatePool := []
  rows := ⟨∅, []⟩
  txs := ⟨∅, []⟩

/-- Write to an import slot. -/
def setImport (db : TxDB Tx) (slot : Nat) (imp : TxImport Tx) : TxDB Tx :=
  { db with imports := Function.update db.imports slot imp }

/-- `cs_Database::Commit` of the pending writes. -/
def commitStores (db : TxDB Tx) : TxDB Tx :=
  { db with
    rows := db.rows.commit
    txs := db.txs.commit }

/-- The chain import. -/
def chain (db : TxDB Tx) : TxImport Tx := db.imports 0

@[simp]
theorem imports_setImport (db : TxDB Tx) (slot other : Nat) (imp : TxImport Tx) :
    (db.setImport slot imp).imports other = if other = slot then imp else db.imports other := by
  simp [setImport, Function.update_apply]

@[simp]
theorem txs_setImport (db : TxDB Tx) (slot : Nat) (imp : TxImport Tx) :
    (db.setImport slot imp).txs = db.txs :=
  rfl

end TxDB

end HdacNode
