import HdacNode.EntityForecast
import HdacNode.EntityRecords

/-!
# Placing the items of a memory pool

A commit of confirmed rows writes every item to the place that was forecast for it.  The
memory pool row of an entity follows the end of its chain on the way, which is where the
next follow-on of the same block finds it.
-/

namespace HdacNode

open WriteBatch

/-- The records that the next commit of a database will leave. -/
def pendingRecords (database : Store EntityKey EntityDBRow) : EntityRecords :=
  database.commit.read

theorem pendingRecords_write (database : Store EntityKey EntityDBRow)
    (entry : Write EntityKey EntityDBRow) (key : EntityKey) :
    pendingRecords (database.write entry) key =
      if entry.key = key then entry.value else pendingRecords database key := by
  have appended : (database.write entry).pending = database.pending ++ [entry] := rfl
  unfold pendingRecords
  rw [Store.read_commit, Store.read_commit, appended, lastWrite_append, lastWrite_singleton]
  by_cases sameKey : entry.key = key
  · rw [if_pos sameKey, if_pos sameKey]
    rfl
  · rw [if_neg sameKey, if_neg sameKey]
    rfl

theorem pendingRecords_writes (keys : List EntityKey) (value : Option EntityDBRow)
    (database : Store EntityKey EntityDBRow) (key : EntityKey) :
    pendingRecords ((keys.map fun key => (⟨key, value⟩ : Write EntityKey EntityDBRow)).foldl
      Store.write database) key =
      if key ∈ keys then value else pendingRecords database key := by
  induction keys generalizing database with
  | nil => rfl
  | cons head keys ih =>
      rw [List.map_cons, List.foldl_cons, ih, pendingRecords_write]
      by_cases later : key ∈ keys
      · rw [if_pos later, if_pos (List.mem_cons_of_mem _ later)]
      · rw [if_neg later]
        by_cases same : head = key
        · rw [if_pos same, if_pos (List.mem_cons.2 (.inl same.symm))]
        · rw [if_neg same, if_neg]
          intro member
          rcases List.mem_cons.1 member with equal | inKeys
          · exact same equal.symm
          · exact later inKeys

theorem pendingRecords_entityWrites (keys : List EntityKey) (record : EntityDBRow)
    (database : Store EntityKey EntityDBRow) (key : EntityKey) :
    pendingRecords ((AssetDB.entityWrites keys record).foldl Store.write database) key =
      if key ∈ keys then some record else pendingRecords database key :=
  pendingRecords_writes keys (some record) database key

theorem pendingRecords_of_pending_nil {database : Store EntityKey EntityDBRow}
    (noWrites : database.pending = []) : pendingRecords database = database.read := by
  funext key
  unfold pendingRecords
  rw [Store.read_commit, noWrites]
  rfl

namespace AssetDB

/-- The store after a row was written to its place. -/
def writtenStore (s : AssetDB) (memPool : RowBuffer EntityKey EntityRow) (place : EntityRow) :
    AssetDB :=
  { s with
    ledger := s.ledger.setRow EntityRow.ledgerSize place.chainPos place
    memPool := memPool
    pos := place.chainPos
    prevPos := place.chainPos }

section Rounds

variable {st : CommitState} {rowID : Nat} {row genesis : EntityRow} {base : List EntityRow}

theorem commitLedgerRow_entity (prevPos : st.store.prevPos = entityShape.lastPos base)
    (endPos : st.store.pos + st.size = entityShape.endPos base)
    (isEntity : row.isFollowOn = false) (negative : row.firstPos < 0)
    (unplaced : row.chainPos < 0) (confirmed : 0 ≤ row.offset)
    (scriptFits : row.script.length ≤ mcEntScriptAllocSize) {place : EntityRow}
    (placeEq : place = row.placedBehind base (entityShape.endPos base) row.lastPos) :
    commitLedgerRow st rowID row =
      (⟨st.store.writtenStore (st.store.memPool.overwrite rowID place) place, place.ledgerSize,
        none⟩, place, none) := by
  subst placeEq
  have notFollowOn : ¬ row.isFollowOn = true := by rw [isEntity]; exact Bool.false_ne_true
  unfold commitLedgerRow
  dsimp only
  rw [if_neg notFollowOn]
  dsimp only
  rw [if_pos negative, endPos, prevPos, if_pos unplaced]
  dsimp only
  rw [if_neg (not_lt.2 confirmed), if_neg (not_lt.2 scriptFits), if_neg fun both => notFollowOn both.1]
  rfl

theorem commitLedgerRow_followOn (prevPos : st.store.prevPos = entityShape.lastPos base)
    (endPos : st.store.pos + st.size = entityShape.endPos base)
    (isFollowOn : row.isFollowOn = true) (nonneg : 0 ≤ row.firstPos)
    (genesisAt : st.store.ledger.rowAt row.firstPos = some genesis)
    (unplaced : row.chainPos < 0) (confirmed : 0 ≤ row.offset)
    (scriptFits : row.script.length ≤ mcEntScriptAllocSize) {place : EntityRow}
    (placeEq : place = row.placedBehind base row.firstPos row.lastPos) :
    commitLedgerRow st rowID row =
      (⟨st.store.writtenStore (st.store.memPool.overwrite rowID place) place, place.ledgerSize,
        none⟩, place, some genesis) := by
  subst placeEq
  unfold commitLedgerRow linkFollowOn
  dsimp only
  rw [if_pos isFollowOn, if_neg (not_lt.2 nonneg), genesisAt]
  dsimp only
  rw [endPos, prevPos, if_pos unplaced]
  dsimp only
  rw [if_neg (not_lt.2 confirmed), if_neg (not_lt.2 scriptFits), if_neg]
  · rfl
  · rintro ⟨-, isNone⟩
    cases isNone

theorem commitLedgerRow_ownFollowOn (prevPos : st.store.prevPos = entityShape.lastPos base)
    (endPos : st.store.pos + st.size = entityShape.endPos base)
    (isFollowOn : row.isFollowOn = true) (negative : row.firstPos < 0)
    (genesisRow : st.store.memPool.getRow (entityID row) = genesis)
    (unplaced : row.chainPos < 0) (confirmed : 0 ≤ row.offset)
    (scriptFits : row.script.length ≤ mcEntScriptAllocSize) {place : EntityRow}
    (placeEq : place = row.placedBehind base genesis.firstPos genesis.chainPos) :
    commitLedgerRow st rowID row =
      (⟨st.store.writtenStore
        ((st.store.memPool.overwrite (entityID row)
          { genesis with chainPos := place.chainPos }).overwrite rowID place) place,
        place.ledgerSize, none⟩, place, some { genesis with chainPos := place.chainPos }) := by
  subst placeEq
  unfold entityID at genesisRow ⊢
  unfold commitLedgerRow linkFollowOn
  dsimp only
  rw [if_pos isFollowOn, if_pos negative, genesisRow]
  dsimp only
  rw [endPos, prevPos, if_pos unplaced]
  dsimp only
  rw [if_neg (not_lt.2 confirmed), if_neg (not_lt.2 scriptFits), if_neg]
  · rfl
  · rintro ⟨-, isNone⟩
    cases isNone

/-- The round of a row with a transaction id that is written to its place. -/
theorem commitRow_of_written (noErr : st.err = none) (rowEq : st.store.memPool.getRow rowID = row)
    (isTxid : row.key.isTxid = true) {store : AssetDB} {size : Int} {place : EntityRow}
    {genesis : Option EntityRow}
    (written : commitLedgerRow st rowID row = (⟨store, size, none⟩, place, genesis)) :
    commitRow st rowID = commitRecords ⟨store, size, none⟩ place genesis := by
  unfold commitRow
  rw [noErr]
  dsimp only
  rw [rowEq, if_pos isTxid, written]

theorem foldlM_commitRow_keys (noErr : st.err = none) (keys : List EntityKey)
    (noTxid : ∀ key ∈ keys, key.isTxid = false)
    (rows : ∀ offset key, keys[offset]? = some key →
      st.store.memPool.getRow (rowID + offset) = { row with key }) :
    (List.range' rowID keys.length).foldlM commitRow st = some { st with
      store := { st.store with
        database := (entityWrites keys ⟨row.block, st.store.pos, st.store.pos,
          row.entityType⟩).foldl Store.write st.store.database } } := by
  induction keys generalizing st rowID with
  | nil => rfl
  | cons key keys ih =>
      have rowEq := rows 0 key rfl
      rw [Nat.add_zero] at rowEq
      have notTxid : ¬ key.isTxid = true := by
        rw [noTxid key (List.mem_cons_self ..)]
        exact Bool.false_ne_true
      obtain ⟨store, size, err⟩ := st
      change err = none at noErr
      subst noErr
      have round : commitRow ⟨store, size, none⟩ rowID = some ⟨{ store with
          database := store.database.write
            ⟨key, some ⟨row.block, store.pos, store.pos, row.entityType⟩⟩ }, size, none⟩ := by
        unfold commitRow
        dsimp only at rowEq ⊢
        rw [rowEq, if_neg notTxid]
        rfl
      rw [List.length_cons, List.range'_succ, List.foldlM_cons, round, Option.bind_eq_bind,
        Option.bind_some]
      refine (ih rfl (fun other member => noTxid other (List.mem_cons_of_mem _ member)) ?_).trans rfl
      intro offset other found
      have next := rows (offset + 1) other found
      rw [← Nat.add_assoc, Nat.add_right_comm] at next
      exact next

end Rounds

end AssetDB

end HdacNode
