import HdacNode.EntityPlacing

/-!
# Commits of the entity store

The loop of a commit settles the items of the memory pool one after the other.  Behind it
the ledger is the forecast one, and the records of the database are sound for it.
-/

namespace HdacNode

open WriteBatch

namespace AssetDB

/-- What the loop of a commit has done with the oldest items of the memory pool. -/
structure Settled (s : AssetDB) (log : List EntityRow) (items : List EntityItem)
    (st : CommitState) : Prop where
  noErr : st.err = none
  ahead : ∀ rowID, (poolRows items).length ≤ rowID →
    st.store.memPool.getRow rowID = s.memPool.getRow rowID
  linked : ∀ newer item older, items = newer ++ item :: older → item.row.isFollowOn = false →
    st.store.memPool.getRow (poolRows older).length =
      { item.place with chainPos := chainEnd (places items ++ log) item.place.chainPos }
  header : st.store.ledger.rowAt 0 = s.ledger.rowAt 0
  chain : entityShape.Chain st.store.ledger (places items ++ log)
  prevPos : st.store.prevPos = entityShape.lastPos (places items ++ log)
  endPos : st.store.pos + st.size = entityShape.endPos (places items ++ log)
  committed : st.store.database.committed = s.database.committed
  block : st.store.block = s.block
  sound : SoundRecords (pendingRecords st.store.database) (places items ++ log)
  complete : ∀ keys, CompleteRecords keys (pendingRecords s.database) log →
    CompleteRecords keys (pendingRecords st.store.database) (places items ++ log)

section Settling

variable {s : AssetDB} {log : List EntityRow} {items : List EntityItem} {item : EntityItem}
  {st : CommitState} {header genesis : EntityRow}

private theorem Settled.write (settled : s.Settled log items st)
    (rows : EntityLog (item.place :: (places items ++ log)))
    (headerAt : s.ledger.rowAt 0 = some header) (script : header.script = [])
    {memPool : RowBuffer EntityKey EntityRow} {database : Store EntityKey EntityDBRow}
    (ahead : ∀ rowID, (poolRows (item :: items)).length ≤ rowID →
      memPool.getRow rowID = st.store.memPool.getRow rowID)
    (linked : ∀ newer other older, items = newer ++ other :: older →
      other.row.isFollowOn = false → memPool.getRow (poolRows older).length =
        { other.place with
          chainPos := chainEnd (item.place :: (places items ++ log)) other.place.chainPos })
    (ownLinked : item.row.isFollowOn = false →
      memPool.getRow (poolRows items).length = item.place)
    (committed : database.committed = st.store.database.committed)
    (inRows : genesis ∈ item.place :: (places items ++ log))
    (firstPos : item.place.firstPos = genesis.chainPos)
    (records : PlacedRecords (places items ++ log) item.place genesis
      (pendingRecords st.store.database) (pendingRecords database)) :
    s.Settled log (item :: items)
      ⟨{ st.store.writtenStore memPool item.place with database }, item.place.ledgerSize,
        none⟩ where
  noErr := rfl
  ahead := by
    intro rowID behind
    refine (ahead rowID behind).trans (settled.ahead rowID ?_)
    exact (@length_poolRows_lt [] _ _).le.trans behind
  linked := by
    intro newer other older split isEntity
    cases newer with
    | nil =>
        obtain ⟨rfl, rfl⟩ := List.cons.inj split
        change memPool.getRow _ = { item.place with
          chainPos := chainEnd (item.place :: (places items ++ log)) item.place.chainPos }
        rw [ownLinked isEntity, rows.chainEnd_head]
    | cons head newer =>
        obtain ⟨rfl, rest⟩ := List.cons.inj split
        exact linked newer other older rest isEntity
  header := by
    have fits : entityShape.size header = entityShape.base := by
      change EntityRow.ledgerSize header = entityTotalSize
      unfold EntityRow.ledgerSize EntityRow.scriptSize
      rw [script]
      rfl
    have before := settled.header.trans headerAt
    exact (settled.chain.rowAt_zero_setRow before fits rows.chainPos_head.ge).trans headerAt.symm
  chain := settled.chain.cons_setRow rows.chainPos_head rows.prevPos_head
  prevPos := rfl
  endPos := rfl
  committed := committed.trans settled.committed
  block := settled.block
  sound := settled.sound.placed rows inRows firstPos records
  complete := fun keys complete => (settled.complete keys complete).placed rows records

private theorem Settled.linked_of_ne (settled : s.Settled log items st) {place : EntityRow}
    {rowID : Nat} (inside : (poolRows items).length ≤ rowID) (written : EntityRow)
    (apart : ∀ other ∈ items, place.firstPos ≠ other.place.chainPos) (newer : List EntityItem)
    (other : EntityItem) (older : List EntityItem) (split : items = newer ++ other :: older)
    (isEntity : other.row.isFollowOn = false) :
    (st.store.memPool.overwrite rowID written).getRow (poolRows older).length =
      { other.place with
        chainPos := chainEnd (place :: (places items ++ log)) other.place.chainPos } := by
  have before : (poolRows older).length < (poolRows items).length := by
    rw [split]
    exact length_poolRows_lt
  have member : other ∈ items := by
    rw [split]
    exact List.mem_append_right _ (List.mem_cons_self ..)
  change Function.update st.store.memPool.data rowID written _ = _
  rw [Function.update_of_ne (by omega), chainEnd_cons, if_neg (apart other member)]
  exact settled.linked newer other older split isEntity

private theorem getRow_overwrite_of_lt {memPool : RowBuffer EntityKey EntityRow} {rowID other : Nat}
    (row : EntityRow) (behind : rowID < other) :
    (memPool.overwrite rowID row).getRow other = memPool.getRow other :=
  Function.update_of_ne behind.ne' _ _

private theorem getRow_overwrite_self {memPool : RowBuffer EntityKey EntityRow} {rowID : Nat}
    (row : EntityRow) : (memPool.overwrite rowID row).getRow rowID = row :=
  Function.update_self _ _ _

theorem place_lt_endPos (rows : EntityLog (places items ++ log)) (member : item ∈ items) :
    item.place.chainPos < entityShape.endPos (places items ++ log) :=
  (rows.place_of_mem (List.mem_append_left _ (List.mem_map_of_mem member))).2

private theorem settle_entity (settled : s.Settled log items st)
    (rows : EntityLog (item.place :: (places items ++ log)))
    (headerAt : s.ledger.rowAt 0 = some header) (script : header.script = [])
    (poolRow : ∀ offset key, item.row.ownKeys[offset]? = some key →
      s.memPool.getRow ((poolRows items).length + offset) = { item.row with key })
    (waits : WaitingRow s.block item.row) (confirmed : 0 ≤ item.row.offset)
    (isEntity : item.row.isFollowOn = false) (negative : item.row.firstPos < 0)
    (placeEq : item.place = item.row.placedBehind (places items ++ log)
      (entityShape.endPos (places items ++ log)) item.row.lastPos) :
    ∃ next, (List.range' (poolRows items).length item.rows.length).foldlM commitRow st = some next ∧
      s.Settled log (item :: items) next := by
  obtain ⟨otherKeys, ownKeys, noTxid⟩ := ownKeys_eq_cons waits.isTxid
  have rowEq : st.store.memPool.getRow (poolRows items).length = item.row := by
    rw [settled.ahead _ le_rfl]
    exact poolRow 0 _ (rowID_head waits.isTxid)
  have written : commitLedgerRow st (poolRows items).length item.row =
      (⟨st.store.writtenStore (st.store.memPool.overwrite (poolRows items).length item.place)
        item.place, item.place.ledgerSize, none⟩, item.place, none) :=
    commitLedgerRow_entity settled.prevPos settled.endPos isEntity negative waits.unplaced
      confirmed waits.scriptFits placeEq
  have firstRound := commitRow_of_written settled.noErr rowEq waits.isTxid written
  rw [EntityItem.length_rows, ownKeys, List.length_cons, List.range'_succ, List.foldlM_cons,
    firstRound]
  unfold commitRecords
  dsimp only
  rw [Option.bind_eq_bind, Option.bind_some, @foldlM_commitRow_keys _ _ item.row]
  · refine ⟨_, rfl, ?_⟩
    have sameBlock : item.place.block = item.row.block := by rw [placeEq]; rfl
    have sameKey : item.place.key = item.row.key := by rw [placeEq]; rfl
    have sameType : item.place.entityType = item.row.entityType := by rw [placeEq]; rfl
    have sameKeys : item.place.ownKeys = item.row.ownKeys := by rw [placeEq]; rfl
    refine @Settled.write _ _ _ _ _ _ item.place settled rows headerAt script _ _ ?_ ?_ ?_ ?_ ?_ ?_
      ?_
    · intro rowID behind
      exact getRow_overwrite_of_lt _ ((@length_poolRows_lt [] _ _).trans_le behind)
    · apply settled.linked_of_ne le_rfl
      intro other member
      have before := place_lt_endPos rows.tail member
      rw [placeEq]
      exact before.ne'
    · exact fun _ => getRow_overwrite_self _
    · rw [Store.foldl_write, Store.foldl_write]
      rfl
    · exact List.mem_cons_self ..
    · rw [placeEq]
      rfl
    · intro key _
      rw [pendingRecords_entityWrites, pendingRecords_entityWrites, sameKeys, ownKeys,
        rows.recordOf_head, sameKey, sameBlock, sameType]
      change (if key ∈ otherKeys then some (⟨item.row.block, item.place.chainPos,
          item.place.chainPos, item.row.entityType⟩ : EntityDBRow)
        else if key ∈ [item.row.key] then some ⟨item.row.block, item.place.chainPos,
          item.place.chainPos, item.row.entityType⟩ else _) = _
      by_cases own : key ∈ item.row.key :: otherKeys
      · rw [if_pos own]
        split
        · rfl
        · rw [if_pos]
          rcases List.mem_cons.1 own with same | other
          · rw [same]
            exact List.mem_singleton_self _
          · contradiction
      · rw [if_neg own, if_neg own, if_neg (fun other => own (List.mem_cons_of_mem _ other)), if_neg]
        · rfl
        · intro same
          rw [List.mem_singleton.1 same] at own
          exact own (List.mem_cons_self ..)
  · rfl
  · exact noTxid
  · intro offset key found
    have inOwn : item.row.ownKeys[offset + 1]? = some key := by
      rw [ownKeys]
      exact found
    have poolRowEq := poolRow (offset + 1) key inOwn
    rw [← Nat.add_assoc, Nat.add_right_comm] at poolRowEq
    rw [← poolRowEq, ← settled.ahead _ (by omega)]
    exact getRow_overwrite_of_lt _ (by omega)

private theorem commitRecords_followOn {place linked : EntityRow}
    (nameFits : (EntityDetails.ofRow genesis).NameFits) {chainPos : Int}
    (same : linked = { genesis with chainPos }) :
    ∃ database, commitRecords st place (some linked) = some { st with
        store := { st.store with database } } ∧
      database.committed = st.store.database.committed ∧
      ∀ key, pendingRecords database key =
        if key ∈ (EntityDetails.ofRow genesis).entityKeys genesis.key then
          some ⟨genesis.block, genesis.firstPos, st.store.pos, genesis.entityType⟩
        else if key ∈ [place.key] then
          some ⟨place.block, st.store.pos, st.store.pos, place.entityType⟩
        else pendingRecords st.store.database key := by
  subst same
  have fits : (EntityDetails.ofRow { genesis with chainPos }).NameFits := nameFits
  unfold commitRecords EntityDetails.set
  dsimp only
  rw [if_pos fits]
  refine ⟨_, rfl, ?_, ?_⟩
  · rw [Store.foldl_write]
  · intro key
    rw [List.foldl_append, pendingRecords_entityWrites, pendingRecords_entityWrites]
    rfl

private theorem settle_followOn (settled : s.Settled log items st)
    (rows : EntityLog (item.place :: (places items ++ log)))
    (headerAt : s.ledger.rowAt 0 = some header) (script : header.script = [])
    (poolRow : s.memPool.getRow (poolRows items).length = item.row)
    (waits : WaitingRow s.block item.row) (isFollowOn : item.row.isFollowOn = true)
    (sameKey : item.place.key = item.row.key) {memPool : RowBuffer EntityKey EntityRow}
    {linkedRow : EntityRow}
    (written : commitLedgerRow st (poolRows items).length item.row =
      (⟨st.store.writtenStore memPool item.place, item.place.ledgerSize, none⟩, item.place,
        some linkedRow))
    (inBase : genesis ∈ places items ++ log) (isEntity : genesis.isFollowOn = false)
    (firstPos : item.place.firstPos = genesis.chainPos) {chainPos : Int}
    (same : linkedRow = { genesis with chainPos })
    (ahead : ∀ rowID, (poolRows items).length < rowID →
      memPool.getRow rowID = st.store.memPool.getRow rowID)
    (linked : ∀ newer other older, items = newer ++ other :: older →
      other.row.isFollowOn = false → memPool.getRow (poolRows older).length =
        { other.place with
          chainPos := chainEnd (item.place :: (places items ++ log)) other.place.chainPos }) :
    ∃ next, (List.range' (poolRows items).length item.rows.length).foldlM commitRow st = some next ∧
      s.Settled log (item :: items) next := by
  have rowEq : st.store.memPool.getRow (poolRows items).length = item.row := by
    rw [settled.ahead _ le_rfl]
    exact poolRow
  have round := commitRow_of_written settled.noErr rowEq waits.isTxid written
  have nameFits := rows.tail.nameFits_of_mem inBase isEntity
  have genesisTxid := rows.tail.isTxid_of_mem inBase
  obtain ⟨database, recorded, committed, records⟩ :=
    @commitRecords_followOn ⟨st.store.writtenStore memPool item.place,
      item.place.ledgerSize, none⟩ _ item.place _ nameFits _ same
  refine ⟨_, ?_, @Settled.write _ _ _ _ _ _ genesis settled rows headerAt script memPool database
    ?_ linked ?_ committed (List.mem_cons_of_mem _ inBase) firstPos ?_⟩
  · rw [EntityItem.length_rows, EntityRow.ownKeys_of_followOn isFollowOn]
    change List.foldlM commitRow st [(poolRows items).length] = _
    rw [List.foldlM_cons, round, recorded]
    rfl
  · intro rowID behind
    exact ahead rowID ((@length_poolRows_lt [] _ _).trans_le behind)
  · intro impossible
    rw [isFollowOn] at impossible
    cases impossible
  · intro key _
    have placeFollowOn : item.place.isFollowOn = true := by
      unfold EntityRow.isFollowOn
      rw [sameKey]
      exact isFollowOn
    rw [records, EntityLog.recordOf_genesis firstPos, rows.recordOf_head,
      EntityRow.ownKeys_of_followOn placeFollowOn, EntityRow.ownKeys_of_entity isEntity,
      rows.tail.firstPos_of_entity inBase isEntity]
    exact if_congr (EntityDetails.mem_entityKeys_iff (EntityRow.key_eq_txid genesisTxid isEntity))
      rfl rfl

private theorem linked_ownFollowOn {row : EntityRow} {genesis other : EntityItem}
    {newer older newer' older' : List EntityItem} {lastPos : Int} {written : EntityRow}
    (settled : s.Settled log items st)
    (rows : EntityLog (row.placedBehind (places items ++ log) genesis.place.chainPos lastPos ::
      (places items ++ log)))
    (split : items = newer ++ genesis :: older) (split' : items = newer' ++ other :: older')
    (named : entityID row = (poolRows older).length) (otherEntity : other.row.isFollowOn = false) :
    ((st.store.memPool.overwrite (entityID row)
      { genesis.place with chainPos := entityShape.endPos (places items ++ log) }).overwrite
        (poolRows items).length written).getRow (poolRows older').length =
      { other.place with
        chainPos := chainEnd (row.placedBehind (places items ++ log) genesis.place.chainPos lastPos
          :: (places items ++ log)) other.place.chainPos } := by
  have before : (poolRows older').length < (poolRows items).length := by
    rw [split']
    exact length_poolRows_lt
  have startsAt : (row.placedBehind (places items ++ log) genesis.place.chainPos lastPos).firstPos =
      genesis.place.chainPos := rfl
  change Function.update (Function.update st.store.memPool.data _ _) _ written _ = _
  rw [Function.update_of_ne before.ne, chainEnd_cons, named]
  rcases split_cases (split.symm.trans split') with ⟨rfl, rfl⟩ | older'Suffix | olderSuffix
  · rw [Function.update_self]
    rw [startsAt, if_pos rfl]
    rfl
  · have apart := place_lt_of_suffix rows.tail split older'Suffix
    rw [Function.update_of_ne (length_poolRows_lt_of_suffix older'Suffix).ne]
    rw [startsAt, if_neg apart.ne']
    exact settled.linked newer' other older' split' otherEntity
  · have apart := place_lt_of_suffix rows.tail split' olderSuffix
    rw [Function.update_of_ne (length_poolRows_lt_of_suffix olderSuffix).ne']
    rw [startsAt, if_neg apart.ne]
    exact settled.linked newer' other older' split' otherEntity

end Settling

section Loop

variable {s : AssetDB} {log : List EntityRow} {header : EntityRow}

theorem foldlM_commitRow_settled {all items newer : List EntityItem}
    (whole : all = newer ++ items) (poolEq : s.memPool.rows = poolRows all)
    (forecast : Forecast s.block log items) (rows : EntityLog log)
    (confirmed : ∀ item ∈ items, 0 ≤ item.row.offset)
    (headerAt : s.ledger.rowAt 0 = some header) (script : header.script = [])
    (start : s.Settled log [] ⟨s, 0, none⟩) :
    ∃ st, (List.range' 0 (poolRows items).length).foldlM commitRow ⟨s, 0, none⟩ = some st ∧
      s.Settled log items st := by
  induction items generalizing newer with
  | nil => exact ⟨_, rfl, start⟩
  | cons item items ih =>
      have shifted : all = (newer ++ [item]) ++ items := by
        rw [whole, List.append_assoc]
        rfl
      obtain ⟨st, reached, settled⟩ := ih shifted forecast.tail fun other member =>
        confirmed other (List.mem_cons_of_mem _ member)
      have poolRow : ∀ offset key, item.row.ownKeys[offset]? = some key →
          s.memPool.getRow ((poolRows items).length + offset) = { item.row with key } := by
        intro offset key found
        have atRow := @getElem?_poolRows newer items _ _ _ found
        rw [← whole, ← poolEq] at atRow
        obtain ⟨inside, rowEq⟩ := List.getElem?_eq_some_iff.1 atRow
        rw [RowBuffer.getRow_eq_rows_getElem _ inside]
        exact rowEq
      have placed := forecast.entityLog rows
      change EntityLog (item.place :: (places items ++ log)) at placed
      have itemConfirmed := confirmed item (List.mem_cons_self ..)
      suffices round : ∃ next,
          (List.range' (poolRows items).length item.rows.length).foldlM commitRow st = some next ∧
            s.Settled log (item :: items) next by
        obtain ⟨next, step, nextSettled⟩ := round
        refine ⟨next, ?_, nextSettled⟩
        change (List.range' 0 (poolRows items ++ item.rows).length).foldlM _ _ = _
        rw [List.length_append, ← List.range'_append_1, List.foldlM_append, reached, Nat.zero_add]
        exact step
      have headRow : s.memPool.getRow (poolRows items).length = item.row :=
        poolRow 0 _ (rowID_head forecast.waits_head.isTxid)
      cases forecast with
      | entity older waits isEntity nameFits negative named =>
          exact settle_entity settled placed headerAt script poolRow waits itemConfirmed isEntity
            negative rfl
      | @followOn items row genesis older waits isFollowOn inLog isEntity firstPos lastPos =>
          have inBase : genesis ∈ places items ++ log := List.mem_append_right _ inLog
          have genesisAt : st.store.ledger.rowAt row.firstPos = some genesis := by
            rw [firstPos]
            exact settled.chain.rowAt_pos inBase
          have place := placed.tail.place_of_mem inBase
          have positive : 0 < entityTotalSize := entityShape.base_pos
          have nonneg : 0 ≤ row.firstPos := by omega
          refine @settle_followOn _ _ _ _ _ _ _ settled placed headerAt script headRow waits
            isFollowOn rfl _ _ (commitLedgerRow_followOn settled.prevPos settled.endPos isFollowOn nonneg genesisAt
              waits.unplaced itemConfirmed waits.scriptFits rfl) inBase isEntity firstPos
            genesis.chainPos rfl ?_ ?_
          · exact fun rowID behind => getRow_overwrite_of_lt _ behind
          · apply settled.linked_of_ne le_rfl
            intro other member same
            have otherIn : other.place ∈ places items :=
              List.mem_map_of_mem member
            have equal := placed.tail.chainPos_injective inBase
              (List.mem_append_left _ otherIn) (firstPos.symm.trans same)
            have distinct := List.disjoint_of_nodup_append placed.tail.nodup
            rw [equal] at inLog
            exact distinct otherIn inLog
      | @ownFollowOn items newer older row genesis before waits isFollowOn split isEntity
          negative named =>
          have inItems : genesis ∈ items := by
            rw [split]
            exact List.mem_append_right _ (List.mem_cons_self ..)
          have inBase : genesis.place ∈ places items ++ log :=
            List.mem_append_left _ (List.mem_map_of_mem inItems)
          have placeEntity : genesis.place.isFollowOn = false :=
            (before.isFollowOn_place inItems).trans isEntity
          have atStart := placed.tail.firstPos_of_entity inBase placeEntity
          have genesisRow := settled.linked newer genesis older split isEntity
          rw [← named] at genesisRow
          refine @settle_followOn _ _ _ _ _ _ _ settled placed headerAt script headRow waits
            isFollowOn rfl _ _ (commitLedgerRow_ownFollowOn settled.prevPos settled.endPos isFollowOn negative
              genesisRow waits.unplaced itemConfirmed waits.scriptFits ?_) inBase placeEntity rfl
            (entityShape.endPos (places items ++ log)) rfl ?_ ?_
          · dsimp only
            rw [atStart]
          · intro rowID behind
            have inFront : entityID row < (poolRows items).length := by
              rw [named, split]
              exact length_poolRows_lt
            rw [getRow_overwrite_of_lt _ behind, getRow_overwrite_of_lt _ (inFront.trans behind)]
          · intro newer' other older' split' otherEntity
            exact linked_ownFollowOn settled placed split split' named otherEntity

end Loop

end AssetDB

end HdacNode
