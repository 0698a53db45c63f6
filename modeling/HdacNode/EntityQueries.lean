import HdacNode.EntityUndoing

/-!
# Queries of the entity store

A key is found in the database first and in the memory pool else.  A store that tracks a log
answers with the row of the log that a record belongs to, its chain ending where the log
says, or with the row of the item that has the key.
-/

namespace HdacNode

open WriteBatch

theorem EntityItem.keys_rows (item : EntityItem) : item.rows.map EntityRow.key = item.row.ownKeys := by
  unfold EntityItem.rows
  rw [List.map_map]
  exact List.map_id _

/-- No two rows of the memory pool have the same key. -/
theorem FreshItems.nodup_keys {records : EntityRecords} {items : List EntityItem}
    (fresh : FreshItems records items) :
    ((poolRows items).map EntityRow.key).Nodup := by
  induction items with
  | nil => exact List.nodup_nil
  | cons item items ih =>
      unfold poolRows
      rw [List.map_append, EntityItem.keys_rows]
      refine List.Nodup.append (ih fresh.tail) (nodup_ownKeys _) ?_
      intro key older own
      obtain ⟨row, inPool, rfl⟩ := List.mem_map.1 older
      obtain ⟨other, member, key, otherOwn, rfl⟩ := mem_poolRows.1 inPool
      exact (List.pairwise_cons.1 fresh.apart).1 other member key own otherOwn

namespace AssetDB

variable {s : AssetDB} {log : List EntityRow} {items : List EntityItem}

section Pool

theorem Tracks.nodup_keys (tracks : s.Tracks log items) :
    (s.memPool.rows.map EntityRow.key).Nodup := by
  rw [tracks.poolEq]
  exact tracks.fresh.nodup_keys

private theorem txidRowID_eq {memPool : RowBuffer EntityKey EntityRow} {rowID : Nat}
    (head : (memPool.getRow rowID).key.isTxid = true) {offset steps : Nat} (near : offset ≤ steps)
    (others : ∀ between < offset, (memPool.getRow (rowID + (between + 1))).key.isTxid = false) :
    txidRowID memPool steps (rowID + offset) = some rowID := by
  induction offset generalizing steps with
  | zero =>
      cases steps with
      | zero => exact if_pos head
      | succ steps => exact if_pos head
  | succ offset ih =>
      obtain ⟨steps, rfl⟩ : ∃ fewer, steps = fewer + 1 := ⟨steps - 1, by omega⟩
      have notTxid := others offset (Nat.lt_succ_self _)
      change (if (memPool.getRow (rowID + (offset + 1))).key.isTxid = true then _
        else txidRowID memPool steps (rowID + offset)) = _
      rw [if_neg (by rw [notTxid]; exact Bool.false_ne_true)]
      exact ih (by omega) fun between before => others between (by omega)

/-- The rows of an item are live. -/
theorem Tracks.rows_getElem? (tracks : s.Tracks log items) {newer older : List EntityItem}
    {item : EntityItem} (split : items = newer ++ item :: older) {offset : Nat} {key : EntityKey}
    (found : item.row.ownKeys[offset]? = some key) :
    s.memPool.rows[(poolRows older).length + offset]? = some { item.row with key } := by
  rw [tracks.poolEq, split]
  exact getElem?_poolRows found

theorem Tracks.getRow_eq (tracks : s.Tracks log items) {newer older : List EntityItem}
    {item : EntityItem} (split : items = newer ++ item :: older) {offset : Nat} {key : EntityKey}
    (found : item.row.ownKeys[offset]? = some key) :
    s.memPool.getRow ((poolRows older).length + offset) = { item.row with key } := by
  obtain ⟨inside, rowEq⟩ := List.getElem?_eq_some_iff.1 (tracks.rows_getElem? split found)
  rw [RowBuffer.getRow_eq_rows_getElem _ inside]
  exact rowEq

/-- The first row of an item is the one with its transaction id. -/
theorem Tracks.getRow_head (tracks : s.Tracks log items) {newer older : List EntityItem}
    {item : EntityItem} (split : items = newer ++ item :: older) :
    s.memPool.getRow (poolRows older).length = item.row := by
  have member : item ∈ items := by
    rw [split]
    exact List.mem_append_right _ (List.mem_cons_self ..)
  have waits := tracks.forecast.waits_of_mem member
  exact @Tracks.getRow_eq _ _ _ tracks _ _ _ split 0 _ (rowID_head waits.isTxid)

/-- Every key of an item leads to its row, unless the database knows the key. -/
theorem Tracks.getEntity_of_item (tracks : s.Tracks log items) {item : EntityItem}
    (member : item ∈ items) {key : EntityKey} (own : key ∈ item.row.ownKeys) :
    s.getEntity key = some item.row := by
  obtain ⟨newer, older, split⟩ := List.append_of_mem member
  obtain ⟨offset, found⟩ := List.mem_iff_getElem?.1 own
  have waits := tracks.forecast.waits_of_mem member
  have sought : s.memPool.seek EntityRow.key key = some ((poolRows older).length + offset) :=
    RowBuffer.seek_of_nodup tracks.coherent tracks.nodup_keys (tracks.rows_getElem? split found)
  have head : s.memPool.getRow (poolRows older).length = item.row := tracks.getRow_head split
  have inside : offset < 4 :=
    (List.getElem?_eq_some_iff.1 found).1.trans_le (length_ownKeys_le _)
  have reached : txidRowID s.memPool 3 ((poolRows older).length + offset) =
      some (poolRows older).length := by
    apply txidRowID_eq
    · rw [head]
      exact waits.isTxid
    · omega
    · intro between before
      have live : between + 1 < item.row.ownKeys.length := by
        have := (List.getElem?_eq_some_iff.1 found).1
        omega
      have otherFound := List.getElem?_eq_getElem live
      rw [tracks.getRow_eq split otherFound]
      exact isTxid_ownKeys otherFound
  unfold getEntity
  rw [tracks.fresh.unrecorded item member key own]
  dsimp only
  rw [sought]
  dsimp only
  rw [reached, Option.map_some, head]

end Pool

section Records

/-- A key with a record leads to the row of the log that the record belongs to. -/
theorem Tracks.getEntity_of_record (tracks : s.Tracks log items) {key : EntityKey}
    (notZero : key ≠ .zero) {record : EntityDBRow} (found : s.database.read key = some record) :
    ∃ row ∈ log, key ∈ row.ownKeys ∧
      s.getEntity key = some { row with chainPos := chainEnd log row.chainPos } := by
  obtain ⟨row, inLog, own, recordEq⟩ := tracks.sound key record notZero found
  refine ⟨row, inLog, own, ?_⟩
  unfold getEntity
  rw [found, recordEq]
  change (s.ledger.rowAt (entityShape.pos row)).map _ = _
  rw [tracks.chain.rowAt_pos inLog]
  rfl

/-- What a query finds: a row of the log, an item, or nothing. -/
theorem Tracks.getEntity_cases (tracks : s.Tracks log items) {key : EntityKey}
    (notZero : key ≠ .zero) :
    (s.database.read key ≠ none ∧ ∃ row ∈ log, key ∈ row.ownKeys ∧
      s.getEntity key = some { row with chainPos := chainEnd log row.chainPos }) ∨
    (s.database.read key = none ∧ ∃ item ∈ items, key ∈ item.row.ownKeys ∧
      s.getEntity key = some item.row) ∨
    (s.database.read key = none ∧ (∀ item ∈ items, key ∉ item.row.ownKeys) ∧
      s.getEntity key = none) := by
  cases found : s.database.read key with
  | some record =>
      exact .inl ⟨Option.some_ne_none _, tracks.getEntity_of_record notZero found⟩
  | none =>
      by_cases waiting : ∃ item ∈ items, key ∈ item.row.ownKeys
      · obtain ⟨item, member, own⟩ := waiting
        exact .inr (.inl ⟨rfl, item, member, own, tracks.getEntity_of_item member own⟩)
      · push Not at waiting
        refine .inr (.inr ⟨rfl, waiting, ?_⟩)
        have absent : s.memPool.seek EntityRow.key key = none := by
          apply RowBuffer.seek_eq_none tracks.coherent
          intro row inPool same
          rw [tracks.poolEq] at inPool
          obtain ⟨item, member, other, own, rfl⟩ := mem_poolRows.1 inPool
          exact waiting item member (same ▸ own)
        unfold getEntity
        rw [found]
        dsimp only
        rw [absent]

theorem Tracks.unknown_of_getEntity (tracks : s.Tracks log items) {key : EntityKey}
    (notZero : key ≠ .zero) (unknown : s.getEntity key = none) :
    s.database.read key = none ∧ ∀ item ∈ items, key ∉ item.row.ownKeys := by
  rcases tracks.getEntity_cases notZero with ⟨-, row, -, -, found⟩ | ⟨-, item, -, -, found⟩ |
    ⟨noRecord, noItem, -⟩
  · rw [unknown] at found
    cases found
  · rw [unknown] at found
    cases found
  · exact ⟨noRecord, noItem⟩

/-- A known key of a row of the log leads to this row. -/
theorem Tracks.getEntity_of_known {keys : EntityKey → Prop} (tracks : s.Tracks log items)
    (known : KnowsKeys keys s.database.read log) {row : EntityRow} (inLog : row ∈ log)
    {key : EntityKey} (own : key ∈ row.ownKeys) (isKey : keys key) :
    s.getEntity key = some { row with chainPos := chainEnd log row.chainPos } := by
  have notZero := ne_zero_of_mem_ownKeys (tracks.rows.isTxid_of_mem inLog) own
  have record := tracks.sound.eq_some tracks.rows known.complete known.distinct inLog own isKey
  obtain ⟨other, otherIn, otherOwn, found⟩ := tracks.getEntity_of_record notZero record
  rw [found, known.distinct other otherIn row inLog key otherOwn own isKey]

end Records

end AssetDB

end HdacNode
