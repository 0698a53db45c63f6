import HdacNode.EntityStore

/-!
# Blocks of the entity store

`Commit` writes the rows of the open block behind the ledger and their keys to the
database; `RollBack` takes the rows above a height back, last one first.  A header
in front of the ledger and a database record name the height and the last row, and
`Initialize` compares the two.
-/

namespace HdacNode

open WriteBatch

namespace EntityFiles

/-- Write the height and the last row into the ledger header. -/
def setHeader (files : EntityFiles) (block prevPos : Int) : EntityFiles :=
  { files with
    ledger := files.ledger.setRow EntityRow.ledgerSize 0
      { files.ledgerRowAt 0 with block, prevPos } }

/-- The database record with the height and the last row. -/
def zeroRowWrite (files : EntityFiles) (block ledgerPos : Int) : Write EntityKey EntityDBRow :=
  ⟨.zero, some { (files.database.read .zero).getD .zero with block, ledgerPos }⟩

/-- `mc_EntityLedger::GetSize`. -/
def getSize (files : EntityFiles) : Int :=
  let pos := (files.ledgerRowAt 0).prevPos
  pos + allocSize (entityTotalSize + (files.ledgerRowAt pos).scriptSize) entityTotalSize

/-- The database with its first record. -/
def openDatabase (files : EntityFiles) : EntityFiles :=
  match files.database.read .zero with
  | some _ => files
  | none =>
      { files with database := files.database.writeNow ⟨.zero, some ⟨-1, 0, 0, 0⟩⟩ }

/-- The repair loop: the newest row that is not above a height. -/
def repairWalk (files : EntityFiles) (block : Int) : Nat → Int → Int
  | 0, pos => pos
  | fuel + 1, pos =>
      if pos = 0 then 0
      else
        let row := files.ledgerRowAt pos
        if row.block ≤ block then pos else files.repairWalk block fuel row.prevPos

end EntityFiles

namespace AssetDB

/-- The position behind a row, as it is computed after a read. -/
def posBehind (files : EntityFiles) (prevPos : Int) : Int :=
  prevPos + allocSize (entityTotalSize + (files.ledgerRowAt prevPos).scriptSize) entityTotalSize

/-- An empty memory pool. -/
def newMemPool : RowBuffer EntityKey EntityRow :=
  RowBuffer.initializeBuffer .zero true

/-- The end of `Initialize`: the repair of the header and the last comparison. -/
def repairHeader (files : EntityFiles) (adbRow : EntityDBRow) (header : Int × Int) (pos : Int) :
    Except McError AssetDB :=
  let opened := fun files : EntityFiles =>
    { toEntityFiles := files, memPool := newMemPool, block := adbRow.block
      prevPos := adbRow.ledgerPos, pos : AssetDB }
  if adbRow.block < header.1 then
    let lastPos := files.repairWalk adbRow.block (header.2.toNat + 1) header.2
    if adbRow.ledgerPos ≠ lastPos then .error .corrupted
    else .ok (opened (files.setHeader adbRow.block adbRow.ledgerPos))
  else if adbRow.block ≠ header.1 then .error .corrupted
  else if adbRow.ledgerPos ≠ header.2 then .error .corrupted
  else .ok (opened files)

/-- `mc_AssetDB::Initialize` on the files it finds. -/
def initializeEntities (files : EntityFiles) : Except McError AssetDB :=
  let files := files.openDatabase
  let adbRow := (files.database.read .zero).getD .zero
  match files.ledger.rowAt 0 with
  | some header =>
      match files.ledger.rowAt adbRow.ledgerPos with
      | none => .error .corrupted
      | some _ =>
          let pos := posBehind files adbRow.ledgerPos
          if pos ≠ files.getSize then .error .corrupted
          else repairHeader files adbRow (header.block, header.prevPos) pos
  | none =>
      let files := files.setHeader (-1) 0
      let pos := adbRow.ledgerPos + entityTotalSize
      if pos ≠ files.getSize then .error .corrupted
      else repairHeader files adbRow (-1, 0) pos

/-- The variables of the loop in `Commit`: the store, the size of the row written
last, and the error. -/
structure CommitState where
  store : AssetDB
  size : Int
  err : Option McError

/-- The records of an entity that a follow-on rewrites, `ledgerPos` and `chainPos`
being the ends of its chain. -/
def entityWrites (keys : List EntityKey) (dbRow : EntityDBRow) :
    List (Write EntityKey EntityDBRow) :=
  keys.map fun key => ⟨key, some dbRow⟩

/-- The row of the entity that a follow-on belongs to, and the row of the follow-on
with its links.  An entity of the same block is found by its memory pool row. -/
def linkFollowOn (s : AssetDB) (row : EntityRow) (pos : Int) :
    AssetDB × EntityRow × Option EntityRow :=
  if row.firstPos < 0 then
    let genesisID := (-row.firstPos - 1).toNat
    let genesis := s.memPool.getRow genesisID
    let linked := { genesis with chainPos := pos }
    ({ s with memPool := s.memPool.overwrite genesisID linked },
      { row with lastPos := genesis.chainPos, firstPos := genesis.firstPos }, some linked)
  else (s, row, s.ledger.rowAt row.firstPos)

/-- The part of a round in `Commit` that writes a ledger row: the state, the row and
the entity of a follow-on. -/
def commitLedgerRow (st : CommitState) (rowID : Nat) (row : EntityRow) :
    CommitState × EntityRow × Option EntityRow :=
  let pos := st.store.pos + st.size
  let prev := { row with prevPos := st.store.prevPos }
  let (store, linked, genesis) :=
    if row.isFollowOn then linkFollowOn st.store prev pos
    else (st.store, if prev.firstPos < 0 then { prev with firstPos := pos } else prev, none)
  let placed := if linked.chainPos < 0 then { linked with chainPos := pos } else linked
  let linkErr : Option McError :=
    if row.isFollowOn ∧ genesis.isNone then some .fileReadError else none
  let store := { store with
    memPool := store.memPool.overwrite rowID placed
    pos := pos
    prevPos := pos }
  if placed.offset < 0 then
    (⟨store, st.size, some .internalError⟩, placed, genesis)
  else if mcEntScriptAllocSize < placed.script.length then
    (⟨store, -1, some .internalError⟩, placed, genesis)
  else
    (⟨{ store with ledger := store.ledger.setRow EntityRow.ledgerSize pos placed },
      placed.ledgerSize, linkErr⟩, placed, genesis)

/-- The part of a round in `Commit` that writes database records. -/
def commitRecords (st : CommitState) (row : EntityRow) (genesis : Option EntityRow) :
    Option CommitState :=
  let pos := st.store.pos
  let own := entityWrites [row.key] ⟨row.block, pos, pos, row.entityType⟩
  match genesis with
  | none =>
      some { st with store := { st.store with
        database := own.foldl Store.write st.store.database } }
  | some genesis =>
      (EntityDetails.set genesis).map fun details =>
        let rewritten := entityWrites (details.entityKeys genesis.key)
          ⟨genesis.block, genesis.firstPos, pos, genesis.entityType⟩
        { st with store := { st.store with
          database := (own ++ rewritten).foldl Store.write st.store.database } }

/-- One round of the loop in `Commit`. -/
def commitRow (st : CommitState) (rowID : Nat) : Option CommitState :=
  match st.err with
  | some _ => some st
  | none =>
      let row := st.store.memPool.getRow rowID
      if row.key.isTxid then
        let (next, placed, genesis) := commitLedgerRow st rowID row
        match next.err with
        | some _ => some next
        | none => commitRecords next placed genesis
      else commitRecords st row none

/-- The loop in `Commit` over all memory pool rows. -/
def commitRows (s : AssetDB) : Option CommitState :=
  (List.range s.memPool.count).foldlM commitRow ⟨s, 0, none⟩

/-- The header is written last of the ledger. -/
def commitHeader (s : AssetDB) : AssetDB :=
  { s with toEntityFiles := s.toEntityFiles.setHeader (s.block + 1) s.prevPos }

/-- The database takes the records of a block in one step. -/
def commitDatabase (s : AssetDB) : AssetDB :=
  { s with
    database := (s.database.write (s.zeroRowWrite (s.block + 1) s.prevPos)).commit }

/-- `mc_AssetDB::ClearMemPool`. -/
def clearMemPool (s : AssetDB) : AssetDB :=
  if s.memPool.count = 0 then s
  else
    let s := { s with memPool := s.memPool.clear }
    match s.ledger.rowAt 0 with
    | none => s
    | some header =>
        let s := { s with prevPos := header.prevPos }
        match s.ledger.rowAt s.prevPos with
        | none => s
        | some _ => { s with pos := posBehind s.toEntityFiles s.prevPos }

/-- The variables of the loop in `RollBack`. -/
structure RollBackState where
  database : Store EntityKey EntityDBRow
  thisPos : Int
  err : Option McError

/-- The keys that `RollBack` deletes for a row.  The test for a follow-on looks at
the key type of the record deleted last, which is the one of short ids. -/
def undoneKeys (details : EntityDetails) : List EntityKey :=
  details.ledgerRow.key :: details.shortTxidKey :: details.optionalKeys

/-- The records of the entity of a follow-on, with the chain ending before the
follow-on: `none` when a name does not fit. -/
def undoFollowOn (s : AssetDB) (row : EntityRow) (database : Store EntityKey EntityDBRow) :
    Option (Store EntityKey EntityDBRow × Option McError) :=
  let genesis := s.ledgerRowAt row.firstPos
  (EntityDetails.set genesis).map fun details =>
    match s.database.read (.txid genesis.txid false) with
    | none => (database, some .internalError)
    | some adbRow =>
        let restored := entityWrites (details.entityKeys (.txid genesis.txid false))
          { adbRow with chainPos := row.lastPos }
        (restored.foldl Store.write database, none)

/-- What `RollBack` does with a row above the height. -/
def undoRow (s : AssetDB) (row : EntityRow) (details : EntityDetails)
    (database : Store EntityKey EntityDBRow) :
    Option (Store EntityKey EntityDBRow × Option McError) :=
  let deleted := (undoneKeys details).foldl (fun database key => database.write ⟨key, none⟩)
    database
  if row.isFollowOn then undoFollowOn s row deleted else some (deleted, none)

/-- The loop in `RollBack`. -/
def rollBackWalk (s : AssetDB) (block : Int) : Nat → RollBackState → Option RollBackState
  | 0, st => some st
  | fuel + 1, st =>
      if 0 < st.thisPos then
        let row := s.ledgerRowAt st.thisPos
        match EntityDetails.set row with
        | none => none
        | some details =>
            if block < row.block then
              match undoRow s row details st.database with
              | none => none
              | some (database, some err) => some ⟨database, st.thisPos, some err⟩
              | some (database, none) =>
                  rollBackWalk s block fuel ⟨database, row.prevPos, none⟩
            else some st
      else some st

/-- `mc_AssetDB::RollBack` to a height. -/
def rollBack (s : AssetDB) (block : Int) : EntityOutcome :=
  let s := s.clearMemPool
  match rollBackWalk s block (s.prevPos.toNat + 1) ⟨s.database, s.prevPos, none⟩ with
  | none => .fault
  | some st =>
      let s := { s with prevPos := st.thisPos, database := st.database }
      match st.err with
      | some err => .ended (some err) s
      | none =>
          let s := { s with
            database := (s.database.write (s.zeroRowWrite block s.prevPos)).commit }
          let s := { s with toEntityFiles := s.toEntityFiles.setHeader block s.prevPos }
          .ended none { s with block, pos := posBehind s.toEntityFiles s.prevPos }

/-- `mc_AssetDB::Commit`. -/
def commit (s : AssetDB) : EntityOutcome :=
  match commitRows s with
  | none => .fault
  | some st =>
      let s := { st.store with pos := st.store.pos + st.size }
      match st.err with
      | some err =>
          match s.rollBack s.block with
          | .fault => .fault
          | .ended _ s => .ended (some err) s
      | none =>
          let s := s.commitHeader.commitDatabase
          .ended none { s with memPool := s.memPool.clear, block := s.block + 1 }

end AssetDB

end HdacNode
