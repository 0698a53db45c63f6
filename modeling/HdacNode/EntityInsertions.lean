import HdacNode.EntityQueries

/-!
# Insertions into the entity store

An insertion is refused with the store unchanged, or adds one item to the memory pool.  The
keys of the item, which no query has found before, lead to it from then on, and all other
keys lead where they led.
-/

namespace HdacNode

open WriteBatch

/-- Whether an item extends the chain of an entity in the ledger, as its memory pool row and
as its place tell. -/
theorem Forecast.followOn_iff {block : Int} {log : List EntityRow} {items : List EntityItem}
    {item : EntityItem} {genesis : EntityRow}
    (forecast : Forecast block log (item :: items)) (rows : EntityLog log)
    (inLog : genesis ∈ log) :
    item.row.isFollowOn = true ∧ item.row.firstPos = genesis.chainPos ↔
      item.place.firstPos = genesis.chainPos := by
  have placed := forecast.entityLog rows
  change EntityLog (item.place :: (places items ++ log)) at placed
  have inBase : genesis ∈ places items ++ log := List.mem_append_right _ inLog
  have before := placed.tail.place_of_mem inBase
  have positive : 0 < entityTotalSize := entityShape.base_pos
  cases forecast with
  | entity older waits notFollowOn nameFits negative named =>
      constructor
      · rintro ⟨isFollowOn, -⟩
        change _ = false at notFollowOn
        rw [notFollowOn] at isFollowOn
        cases isFollowOn
      · intro same
        change entityShape.endPos (places items ++ log) = _ at same
        omega
  | followOn older waits isFollowOn inLog' isEntity' firstPos lastPos =>
      exact ⟨fun both => both.2, fun same => ⟨isFollowOn, same⟩⟩
  | @ownFollowOn items newer older row own before' waits isFollowOn split isEntity' negative
      named =>
      have inItems : own ∈ items := by
        rw [split]
        exact List.mem_append_right _ (List.mem_cons_self ..)
      have inPlaces : own.place ∈ places items := List.mem_map_of_mem inItems
      constructor
      · rintro ⟨-, same⟩
        change row.firstPos = _ at same
        omega
      · intro same
        have equal := placed.tail.chainPos_injective (List.mem_append_left _ inPlaces) inBase same
        have distinct := List.disjoint_of_nodup_append placed.tail.nodup
        rw [← equal] at inLog
        exact absurd inLog (distinct inPlaces)

namespace AssetDB

variable {s next : AssetDB} {log : List EntityRow} {items : List EntityItem} {item : EntityItem}

private theorem foldl_add_rows (row : EntityRow) (keys : List EntityKey)
    {memPool : RowBuffer EntityKey EntityRow} (coherent : memPool.Coherent EntityRow.key) :
    (keys.foldl (fun memPool key => memPool.add EntityRow.key { row with key }) memPool).rows =
        memPool.rows ++ keys.map (fun key => { row with key }) ∧
      (keys.foldl (fun memPool key => memPool.add EntityRow.key { row with key })
        memPool).Coherent EntityRow.key := by
  induction keys generalizing memPool with
  | nil => exact ⟨(List.append_nil _).symm, coherent⟩
  | cons key keys ih =>
      obtain ⟨rowsEq, stays⟩ := ih (RowBuffer.coherent_add { row with key } coherent)
      rw [List.foldl_cons, rowsEq, RowBuffer.rows_add, List.append_assoc]
      exact ⟨rfl, stays⟩

/-- An item whose keys are all unknown is added. -/
theorem Tracks.addItem (tracks : s.Tracks log items)
    (forecast : Forecast s.block log (item :: items))
    (unknown : ∀ key ∈ item.row.ownKeys, s.getEntity key = none) :
    Tracks { s with
        memPool := item.row.ownKeys.foldl
          (fun memPool key => memPool.add EntityRow.key { item.row with key }) s.memPool }
      log (item :: items) := by
  obtain ⟨rowsEq, coherent⟩ := foldl_add_rows item.row item.row.ownKeys tracks.coherent
  have isTxid := forecast.waits_head.isTxid
  have new : ∀ key ∈ item.row.ownKeys, s.database.read key = none ∧
      ∀ other ∈ items, key ∉ other.row.ownKeys := fun key own =>
    tracks.unknown_of_getEntity (ne_zero_of_mem_ownKeys isTxid own) (unknown key own)
  exact
    { tracks with
      poolEq := by rw [rowsEq, tracks.poolEq]; rfl
      coherent := coherent
      forecast := forecast
      fresh :=
        { unrecorded := by
            intro other member key own
            rcases List.mem_cons.1 member with rfl | older
            · exact (new key own).1
            · exact tracks.fresh.unrecorded other older key own
          apart := List.pairwise_cons.2
            ⟨fun other member key own => (new key own).2 other member, tracks.fresh.apart⟩ } }

theorem Tracks.getEntity_frame (tracks : s.Tracks log items)
    (nextTracks : next.Tracks log (item :: items)) (sameFiles : next.toEntityFiles = s.toEntityFiles)
    {key : EntityKey} (notOwn : key ∉ item.row.ownKeys) : next.getEntity key = s.getEntity key := by
  have sameRead : next.database.read key = s.database.read key := by rw [sameFiles]
  cases found : s.database.read key with
  | some record =>
      unfold getEntity
      rw [sameRead, found, sameFiles]
  | none =>
      have notZero : key ≠ .zero := by
        rintro rfl
        rw [tracks.zeroRow] at found
        cases found
      rcases tracks.getEntity_cases notZero with ⟨recorded, -⟩ |
        ⟨-, other, member, own, answer⟩ | ⟨-, noItem, answer⟩
      · exact absurd found recorded
      · rw [answer]
        exact nextTracks.getEntity_of_item (List.mem_cons_of_mem _ member) own
      · rw [answer]
        rcases nextTracks.getEntity_cases notZero with ⟨recorded, -⟩ |
          ⟨-, other, member, own, -⟩ | ⟨-, -, unknown⟩
        · exact absurd (sameRead.trans found) recorded
        · rcases List.mem_cons.1 member with rfl | older
          · exact absurd own notOwn
          · exact absurd own (noItem other older)
        · exact unknown

/-- How the insertion of an item can end: it is refused, it was only a test, or the item is
in the memory pool. -/
def Inserts (s next : AssetDB) (log : List EntityRow) (items : List EntityItem)
    (item : EntityItem) (updateMemPool : Bool) (err : Option McError) : Prop :=
  (err = some .found ∧ next = s) ∨
    (err = none ∧ (∀ key ∈ item.row.ownKeys, s.getEntity key = none) ∧
      ((updateMemPool = false ∧ next = s) ∨
        (updateMemPool = true ∧ next.toEntityFiles = s.toEntityFiles ∧ next.block = s.block ∧
          next.Tracks log (item :: items))))

/-- The two passes of an insertion under all keys of a row. -/
theorem Tracks.insertKeys (tracks : s.Tracks log items)
    (forecast : Forecast s.block log (item :: items)) {updateMemPool : Bool}
    {err : Option McError}
    (ended : s.insertKeys item.row item.row.ownKeys updateMemPool = .ended err next) :
    s.Inserts next log items item updateMemPool err := by
  unfold AssetDB.insertKeys at ended
  split at ended
  · injection ended with errEq nextEq
    exact .inl ⟨errEq.symm, nextEq.symm⟩
  · rename_i noneKnown
    have unknown : ∀ key ∈ item.row.ownKeys, s.getEntity key = none := by
      intro key own
      rw [← Option.not_isSome_iff_eq_none]
      exact fun known => noneKnown (List.any_eq_true.2 ⟨key, own, known⟩)
    split at ended
    · rename_i update
      injection ended with errEq nextEq
      refine .inr ⟨errEq.symm, unknown, .inr ⟨update, ?_, ?_, ?_⟩⟩
      · rw [← nextEq]
      · rw [← nextEq]
      · rw [← nextEq]
        exact tracks.addItem forecast unknown
    · rename_i notUpdate
      injection ended with errEq nextEq
      exact .inr ⟨errEq.symm, unknown, .inl ⟨eq_false_of_ne_true notUpdate, nextEq.symm⟩⟩

/-- The insertion of a new entity. -/
theorem Tracks.insertNewEntity (tracks : s.Tracks log items) {row : EntityRow} {script : Bytes}
    {updateMemPool : Bool} {err : Option McError} (isTxid : row.key.isTxid = true)
    (isEntity : row.isFollowOn = false) (unplaced : row.chainPos < 0)
    (inBlock : row.block = s.block + 1) (negative : row.firstPos < 0)
    (named : entityID row = 0 ∨ entityID row = s.memPool.count)
    (ended : s.insertNewEntity row script updateMemPool = .ended err next) :
    s.Inserts next log items ⟨{ row with script },
      ({ row with script } : EntityRow).placedBehind (places items ++ log)
        (entityShape.endPos (places items ++ log)) row.lastPos⟩ updateMemPool err := by
  unfold AssetDB.insertNewEntity at ended
  split at ended
  · cases ended
  · rename_i scriptFits
    unfold EntityDetails.set at ended
    split at ended
    · cases ended
    · rename_i details setEq
      obtain ⟨nameFits, detailsEq⟩ := Option.ite_none_right_eq_some.1 setEq
      have waits : WaitingRow s.block { row with script } :=
        ⟨isTxid, not_lt.1 scriptFits, unplaced, inBlock⟩
      rw [tracks.count_eq] at named
      have forecast := Forecast.entity tracks.forecast waits isEntity nameFits negative named
      have keysEq : details.newKeys = EntityRow.ownKeys { row with script } := by
        have entity : ({ row with script } : EntityRow).isFollowOn = false := isEntity
        rw [← Option.some.inj detailsEq, EntityRow.ownKeys_of_entity entity]
      rw [keysEq] at ended
      exact tracks.insertKeys forecast ended

/-- The row that a call makes for a new entity. -/
structure IsNewEntity (s : AssetDB) (row : EntityRow) (txid : Bytes) (offset quantity : Int)
    (entityType : Nat) (script : Bytes) : Prop where
  key : row.key = .txid txid false
  block : row.block = s.block + 1
  offset : row.offset = s.rowOffset offset
  quantity : row.quantity = quantity
  entityType : row.entityType = entityType
  script : row.script = script

theorem Tracks.insertEntity (tracks : s.Tracks log items) {txid : Bytes} {offset : Int}
    {entityType : Nat} {script specialScript : Bytes} {updateMemPool : Bool}
    {err : Option McError}
    (ended : s.insertEntity txid offset entityType script specialScript updateMemPool =
      .ended err next) :
    (err = some .errorInScript ∧ next = s ∧ entityType = mcEntTypeUpgrade ∧
      upgradeScriptFails script = true) ∨
    ∃ item nameParam, streamNameParam script = some nameParam ∧
      s.IsNewEntity item.row txid offset 0 entityType (specialScript ++ nameParam ++ script) ∧
      s.Inserts next log items item updateMemPool err := by
  unfold AssetDB.insertEntity at ended
  dsimp only at ended
  split at ended
  · cases ended
  · rename_i nameParam nameEq
    split at ended
    · rename_i fails
      injection ended with errEq nextEq
      exact .inl ⟨errEq.symm, nextEq.symm, fails⟩
    · refine .inr ⟨_, nameParam, nameEq, ⟨rfl, rfl, rfl, rfl, rfl, rfl⟩,
        tracks.insertNewEntity ?_ ?_ ?_ ?_ ?_ ?_ ended⟩
      · rfl
      · rfl
      · exact (show (-1 : Int) < 0 by decide)
      · rfl
      · exact (show (-1 : Int) < 0 by decide)
      · exact .inl rfl

theorem Tracks.insertAsset (tracks : s.Tracks log items) {txid : Bytes} {offset quantity : Int}
    {name : Bytes} {multiple : Nat} {script specialScript : Bytes} {updateMemPool : Bool}
    {err : Option McError}
    (ended : s.insertAsset txid offset quantity name multiple script specialScript
      updateMemPool = .ended err next) :
    ∃ item, s.IsNewEntity item.row txid offset quantity mcEntTypeAsset
        (specialScript ++ assetParams name multiple script ++ script) ∧
      entityID item.row = s.memPool.count ∧ s.Inserts next log items item updateMemPool err := by
  have negative : -((s.memPool.count : Int) + 1) < 0 := by omega
  have named : (-(-((s.memPool.count : Int) + 1)) - 1).toNat = s.memPool.count := by omega
  unfold AssetDB.insertAsset at ended
  refine ⟨_, ⟨rfl, rfl, rfl, rfl, rfl, rfl⟩, ?_,
    tracks.insertNewEntity ?_ ?_ ?_ ?_ ?_ ?_ ended⟩
  · exact named
  · rfl
  · rfl
  · exact (show (-1 : Int) < 0 by decide)
  · rfl
  · exact negative
  · exact .inr named

section FollowOns

variable {genesis : EntityRow}

/-- The step of the loop over the memory pool that looks for the last follow-on. -/
private def lastPosStep (firstPos : Int) (place : Int × Int) (memRow : EntityRow) : Int × Int :=
  if memRow.key.isTxid then
    (if memRow.isFollowOn ∧ memRow.firstPos = firstPos then place.2 else place.1,
      place.2 + memRow.ledgerSize)
  else place

private theorem foldl_lastPosStep_keys (firstPos : Int) (row : EntityRow) (keys : List EntityKey)
    (noTxid : ∀ key ∈ keys, key.isTxid = false) (place : Int × Int) :
    (keys.map fun key => { row with key }).foldl (lastPosStep firstPos) place = place := by
  induction keys with
  | nil => rfl
  | cons key keys ih =>
      rw [List.map_cons, List.foldl_cons]
      have skipped : lastPosStep firstPos place { row with key } = place := by
        apply if_neg
        rw [noTxid key (List.mem_cons_self ..)]
        exact Bool.false_ne_true
      rw [skipped]
      exact ih fun other member => noTxid other (List.mem_cons_of_mem _ member)

private theorem foldl_lastPosStep {block : Int} (forecast : Forecast block log items)
    (rows : EntityLog log) (inLog : genesis ∈ log) :
    (poolRows items).foldl (lastPosStep genesis.chainPos)
        (chainEnd log genesis.chainPos, entityShape.endPos log) =
      (chainEnd (places items ++ log) genesis.chainPos,
        entityShape.endPos (places items ++ log)) := by
  induction items with
  | nil => rfl
  | cons item items ih =>
      have waits := forecast.waits_head
      obtain ⟨firstPos, lastPos, placeEq⟩ := forecast.place_head
      have belongs := forecast.followOn_iff rows inLog
      obtain ⟨otherKeys, ownKeys, noTxid⟩ := ownKeys_eq_cons waits.isTxid
      have rowsEq : item.rows = item.row :: otherKeys.map fun key => { item.row with key } := by
        unfold EntityItem.rows
        rw [ownKeys]
        rfl
      have chainPos : item.place.chainPos = entityShape.endPos (places items ++ log) := by
        rw [placeEq]
        rfl
      have size : item.place.ledgerSize = item.row.ledgerSize := by
        rw [placeEq]
        rfl
      unfold poolRows
      rw [List.foldl_append, ih forecast.tail, rowsEq, List.foldl_cons,
        foldl_lastPosStep_keys _ _ _ noTxid]
      unfold lastPosStep
      rw [if_pos waits.isTxid]
      change _ = (chainEnd (item.place :: (places items ++ log)) genesis.chainPos,
        item.place.chainPos + item.place.ledgerSize)
      rw [chainEnd_cons, chainPos, size]
      refine Prod.ext ?_ rfl
      exact if_congr belongs rfl rfl

theorem Tracks.followOnLastPos_eq (tracks : s.Tracks log items) (inLog : genesis ∈ log) :
    s.followOnLastPos genesis.chainPos (chainEnd log genesis.chainPos) =
      chainEnd (places items ++ log) genesis.chainPos := by
  have looped := foldl_lastPosStep tracks.forecast tracks.rows inLog
  unfold followOnLastPos
  rw [tracks.poolEq, tracks.endPos]
  exact congrArg Prod.fst looped

/-- An entity that waits in the memory pool is the one that its first position names.  This
fails for an entity that is no asset and not the first one of the memory pool. -/
def FollowsOwnChain (s : AssetDB) (originalTxid : Bytes) : Prop :=
  ∀ genesis ∈ s.getEntity (.txid originalTxid false), genesis.firstPos < 0 →
    s.memPool.getRow (entityID genesis) = genesis

instance (s : AssetDB) (originalTxid : Bytes) : Decidable (s.FollowsOwnChain originalTxid) :=
  inferInstanceAs (Decidable (∀ genesis ∈ s.getEntity (.txid originalTxid false), _))

/-- The place in the ledger, or the forecast place, of an entity that a query has found. -/
def PlaceOf (log : List EntityRow) (items : List EntityItem) (found : EntityRow)
    (place : Int) : Prop :=
  (∃ row ∈ log, row.isFollowOn = false ∧
    found = { row with chainPos := chainEnd log row.chainPos } ∧ place = row.chainPos) ∨
  (∃ newer item older, items = newer ++ item :: older ∧ item.row.isFollowOn = false ∧
    found = item.row ∧ place = item.place.chainPos ∧
    entityID item.row = (poolRows older).length)

theorem Tracks.entityID_eq (tracks : s.Tracks log items) {newer older : List EntityItem}
    (split : items = newer ++ item :: older) (isEntity : item.row.isFollowOn = false)
    (named : s.memPool.getRow (entityID item.row) = item.row) :
    entityID item.row = (poolRows older).length := by
  have current := tracks.forecast.of_split split
  have isTxid := current.waits_head.isTxid
  obtain ⟨-, zero | own⟩ := current.named_head isEntity
  · rw [zero] at named ⊢
    have atHead := @AssetDB.Tracks.rows_getElem? _ _ _ tracks _ _ _ split 0 _ (rowID_head isTxid)
    rw [Nat.add_zero] at atHead
    have live : 0 < s.memPool.rows.length := by
      have := (List.getElem?_eq_some_iff.1 atHead).1
      omega
    have atZero : s.memPool.rows[0]? = some item.row := by
      rw [List.getElem?_eq_getElem live, ← RowBuffer.getRow_eq_rows_getElem, named]
    have sameKey : (s.memPool.rows.map EntityRow.key)[0]? =
        (s.memPool.rows.map EntityRow.key)[(poolRows older).length]? := by
      rw [List.getElem?_map, List.getElem?_map, atZero, atHead]
    have inside : 0 < (s.memPool.rows.map EntityRow.key).length := by
      rw [List.length_map]
      exact live
    exact (List.getElem?_inj inside tracks.nodup_keys).1 sameKey
  · exact own

theorem Tracks.insertAssetFollowOn (tracks : s.Tracks log items) {txid : Bytes}
    {offset quantity : Int} {script specialScript originalTxid : Bytes} {updateMemPool : Bool}
    {err : Option McError} (own : s.FollowsOwnChain originalTxid)
    (ended : s.insertAssetFollowOn txid offset quantity script specialScript originalTxid
      updateMemPool = .ended err next) :
    (err ≠ none ∧ next = s) ∨
    ∃ genesis item, s.getEntity (.txid originalTxid false) = some genesis ∧
      ¬ WrappedTotals.addInt64 (s.getTotalQuantity genesis) quantity < 0 ∧
      item.row.key = .txid txid true ∧ item.row.quantity = quantity ∧
      PlaceOf log items genesis item.place.firstPos ∧
      s.Inserts next log items item updateMemPool err := by
  have notZero : EntityKey.txid originalTxid false ≠ .zero := fun impossible => by cases impossible
  unfold AssetDB.insertAssetFollowOn at ended
  split at ended
  · injection ended with errEq nextEq
    rw [← errEq, ← nextEq]
    exact .inl ⟨Option.some_ne_none _, rfl⟩
  · rename_i genesis found
    split at ended
    · injection ended with errEq nextEq
      rw [← errEq, ← nextEq]
      exact .inl ⟨Option.some_ne_none _, rfl⟩
    · split at ended
      · injection ended with errEq nextEq
        rw [← errEq, ← nextEq]
        exact .inl ⟨Option.some_ne_none _, rfl⟩
      · rename_i inRange
        split at ended
        · cases ended
        · rename_i scriptFits
          right
          dsimp only at ended
          generalize rowEq : EntityRow.mk (.txid txid true) (s.block + 1) (s.rowOffset offset)
            (specialScript ++ script) quantity genesis.entityType (-1) genesis.firstPos
            (s.followOnLastPos genesis.firstPos genesis.chainPos) (-1) = row at ended
          have isFollowOn : row.isFollowOn = true := by rw [← rowEq]; rfl
          have waits : WaitingRow s.block row := by
            rw [← rowEq]
            exact ⟨rfl, not_lt.1 scriptFits, show (-1 : Int) < 0 by decide, rfl⟩
          have firstPos : row.firstPos = genesis.firstPos := by rw [← rowEq]
          have lastPos : row.lastPos = s.followOnLastPos genesis.firstPos genesis.chainPos := by
            rw [← rowEq]
          have ended' : s.insertKeys row row.ownKeys updateMemPool = .ended err next := by
            rw [EntityRow.ownKeys_of_followOn isFollowOn]
            rw [← rowEq] at ended ⊢
            exact ended
          rcases tracks.getEntity_cases notZero with ⟨-, entity, inLog, ownKey, answer⟩ |
            ⟨-, item, member, ownKey, answer⟩ | ⟨-, -, answer⟩
          · have isEntity := EntityRow.isFollowOn_of_mem_ownKeys ownKey
            have atStart := tracks.rows.firstPos_of_entity inLog isEntity
            rw [found] at answer
            obtain rfl := Option.some.inj answer
            change row.firstPos = entity.firstPos at firstPos
            change row.lastPos = s.followOnLastPos entity.firstPos (chainEnd log entity.chainPos)
              at lastPos
            rw [atStart] at firstPos lastPos
            rw [tracks.followOnLastPos_eq inLog] at lastPos
            exact ⟨_, ⟨row, row.placedBehind (places items ++ log) row.firstPos row.lastPos⟩,
              found, inRange, by rw [← rowEq], by rw [← rowEq],
              .inl ⟨entity, inLog, isEntity, rfl, firstPos⟩, tracks.insertKeys
                (.followOn tracks.forecast waits isFollowOn inLog isEntity firstPos lastPos) ended'⟩
          · have isEntity := EntityRow.isFollowOn_of_mem_ownKeys ownKey
            rw [found] at answer
            obtain rfl := Option.some.inj answer
            obtain ⟨newer, older, split⟩ := List.append_of_mem member
            have current := tracks.forecast
            rw [split] at current
            have negative := (current.of_append.named_head isEntity).1
            have named := tracks.entityID_eq split isEntity (own _ found negative)
            have rowNamed : entityID row = (poolRows older).length := by
              unfold entityID at named ⊢
              rw [firstPos]
              exact named
            rw [← firstPos] at negative
            exact ⟨_, ⟨row, row.placedBehind (places items ++ log) item.place.chainPos
                (chainEnd (places items ++ log) item.place.chainPos)⟩,
              found, inRange, by rw [← rowEq], by rw [← rowEq],
              .inr ⟨newer, item, older, split, isEntity, rfl, rfl, named⟩,
              tracks.insertKeys (.ownFollowOn tracks.forecast waits isFollowOn split isEntity
                negative rowNamed) ended'⟩
          · rw [found] at answer
            cases answer

end FollowOns

end AssetDB

end HdacNode
