import HdacNode.EntityLogs
import HdacNode.EntityPool

/-!
# Forecast of the places of a memory pool

The memory pool of the entity store keeps one row for each key of an entity and one row for
a follow-on.  What belongs together is an item.  The rows that the next commit will write
are known as soon as the items are, since the sizes of the rows are: an item gets its place
behind the ledger and the items before it, and a follow-on goes to the end of the chain that
its entity will have by then.
-/

namespace HdacNode

/-- What is inserted in one call: the memory pool row of the transaction id, and the ledger
row that it will become. -/
structure EntityItem where
  row : EntityRow
  place : EntityRow

namespace EntityItem

/-- The memory pool rows of an item. -/
def rows (item : EntityItem) : List EntityRow :=
  item.row.ownKeys.map fun key => { item.row with key }

theorem length_rows (item : EntityItem) : item.rows.length = item.row.ownKeys.length :=
  List.length_map _

theorem rows_ne_nil (item : EntityItem) : 0 < item.rows.length := by
  rw [length_rows]
  unfold EntityRow.ownKeys
  split
  · exact Nat.succ_pos _
  · exact Nat.succ_pos _

end EntityItem

/-- The memory pool rows of items, newest item first. -/
def poolRows : List EntityItem → List EntityRow
  | [] => []
  | item :: older => poolRows older ++ item.rows

/-- The ledger rows that items will become. -/
def places (items : List EntityItem) : List EntityRow :=
  items.map EntityItem.place

/-- What holds for every row that waits for the block above `block`. -/
structure WaitingRow (block : Int) (row : EntityRow) : Prop where
  isTxid : row.key.isTxid = true
  scriptFits : row.script.length ≤ mcEntScriptAllocSize
  unplaced : row.chainPos < 0
  inBlock : row.block = block + 1

/-- The items of a memory pool and their places behind the ledger rows `log`. -/
inductive Forecast (block : Int) (log : List EntityRow) : List EntityItem → Prop
  | nil : Forecast block log []
  | entity {items : List EntityItem} {row : EntityRow} (older : Forecast block log items)
      (waits : WaitingRow block row) (isEntity : row.isFollowOn = false)
      (nameFits : (EntityDetails.ofRow row).NameFits) (negative : row.firstPos < 0)
      (named : entityID row = 0 ∨ entityID row = (poolRows items).length) :
      Forecast block log (⟨row, row.placedBehind (places items ++ log)
        (entityShape.endPos (places items ++ log)) row.lastPos⟩ :: items)
  | followOn {items : List EntityItem} {row genesis : EntityRow} (older : Forecast block log items)
      (waits : WaitingRow block row) (isFollowOn : row.isFollowOn = true)
      (inLog : genesis ∈ log) (isEntity : genesis.isFollowOn = false)
      (firstPos : row.firstPos = genesis.chainPos)
      (lastPos : row.lastPos = chainEnd (places items ++ log) genesis.chainPos) :
      Forecast block log (⟨row, row.placedBehind (places items ++ log) row.firstPos
        row.lastPos⟩ :: items)
  | ownFollowOn {items newer older : List EntityItem} {row : EntityRow} {genesis : EntityItem}
      (before : Forecast block log items) (waits : WaitingRow block row)
      (isFollowOn : row.isFollowOn = true) (split : items = newer ++ genesis :: older)
      (isEntity : genesis.row.isFollowOn = false) (negative : row.firstPos < 0)
      (named : entityID row = (poolRows older).length) :
      Forecast block log (⟨row, row.placedBehind (places items ++ log) genesis.place.chainPos
        (chainEnd (places items ++ log) genesis.place.chainPos)⟩ :: items)

section Rows

variable {newer older items : List EntityItem} {item : EntityItem}

theorem poolRows_append (newer older : List EntityItem) :
    poolRows (newer ++ older) = poolRows older ++ poolRows newer := by
  induction newer with
  | nil => exact (List.append_nil _).symm
  | cons item newer ih =>
      change poolRows (newer ++ older) ++ item.rows = _ ++ (poolRows newer ++ item.rows)
      rw [ih, List.append_assoc]

theorem poolRows_eq_flatMap (items : List EntityItem) :
    poolRows items = items.reverse.flatMap EntityItem.rows := by
  induction items with
  | nil => rfl
  | cons item items ih =>
      rw [List.reverse_cons, List.flatMap_append, List.flatMap_singleton, ← ih]
      rfl

theorem mem_poolRows {row : EntityRow} :
    row ∈ poolRows items ↔ ∃ item ∈ items, ∃ key ∈ item.row.ownKeys, { item.row with key } = row := by
  rw [poolRows_eq_flatMap, List.mem_flatMap]
  simp only [List.mem_reverse, EntityItem.rows, List.mem_map]

/-- The rows of an item stand side by side. -/
theorem getElem?_poolRows {offset : Nat} {key : EntityKey}
    (found : item.row.ownKeys[offset]? = some key) :
    (poolRows (newer ++ item :: older))[(poolRows older).length + offset]? =
      some { item.row with key } := by
  rw [poolRows_append]
  change (poolRows older ++ item.rows ++ poolRows newer)[_]? = _
  rw [List.append_assoc, List.getElem?_append_right (Nat.le_add_right _ _), Nat.add_sub_cancel_left,
    List.getElem?_append_left, EntityItem.rows, List.getElem?_map, found]
  · rfl
  · rw [EntityItem.length_rows]
    exact (List.getElem?_eq_some_iff.1 found).1

theorem length_poolRows_lt : (poolRows older).length < (poolRows (newer ++ item :: older)).length := by
  have some := item.rows_ne_nil
  rw [poolRows_append]
  change _ < (poolRows older ++ item.rows ++ poolRows newer).length
  rw [List.length_append, List.length_append]
  omega

/-- Two items of a list are the same, or one of them is older. -/
theorem split_cases {newer' older' : List EntityItem} {item' : EntityItem}
    (same : newer ++ item :: older = newer' ++ item' :: older') :
    (item = item' ∧ older = older') ∨ item' :: older' <:+ older ∨ item :: older <:+ older' := by
  have first : item :: older <:+ newer ++ item :: older := List.suffix_append ..
  have second : item' :: older' <:+ newer ++ item :: older := ⟨newer', same.symm⟩
  rcases List.suffix_or_suffix_of_suffix first second with suffix | suffix
  · rcases List.suffix_cons_iff.1 suffix with equal | inside
    · exact .inl (List.cons.inj equal)
    · exact .inr (.inr inside)
  · rcases List.suffix_cons_iff.1 suffix with equal | inside
    · obtain ⟨sameItem, sameOlder⟩ := List.cons.inj equal
      exact .inl ⟨sameItem.symm, sameOlder.symm⟩
    · exact .inr (.inl inside)

theorem length_poolRows_lt_of_suffix (suffix : item :: older <:+ items) :
    (poolRows older).length < (poolRows items).length := by
  obtain ⟨front, rfl⟩ := suffix
  exact length_poolRows_lt

theorem rowID_head (isTxid : item.row.key.isTxid = true) :
    item.row.ownKeys[0]? = some item.row.key := by
  cases followOn : item.row.isFollowOn with
  | true =>
      rw [EntityRow.ownKeys_of_followOn followOn]
      rfl
  | false =>
      rw [EntityRow.ownKeys_of_entity followOn, EntityRow.key_eq_txid isTxid followOn]
      rfl

/-- The other rows of an item have keys of other types. -/
theorem isTxid_ownKeys {offset : Nat} {key : EntityKey}
    (found : item.row.ownKeys[offset + 1]? = some key) : key.isTxid = false := by
  cases followOn : item.row.isFollowOn with
  | true =>
      rw [EntityRow.ownKeys_of_followOn followOn] at found
      cases found
  | false =>
      rw [EntityRow.ownKeys_of_entity followOn] at found
      have nodup := (EntityDetails.ofRow item.row).nodup_newKeys fun ref found =>
        EntityDetails.ref_ofRow found
      cases isTxid : key.isTxid with
      | false => rfl
      | true =>
          have first := EntityDetails.eq_of_mem_newKeys isTxid (List.mem_of_getElem? found)
          obtain ⟨inside, head⟩ := List.getElem?_eq_some_iff.1 found
          have atFront : (EntityDetails.ofRow item.row).newKeys[0] = key := first.symm
          have same := nodup.getElem_inj_iff.1 (head.trans atFront.symm)
          exact absurd same (Nat.succ_ne_zero _)

/-- The keys of a row start with its transaction id. -/
theorem ownKeys_eq_cons {row : EntityRow} (isTxid : row.key.isTxid = true) :
    ∃ otherKeys, row.ownKeys = row.key :: otherKeys ∧ ∀ key ∈ otherKeys, key.isTxid = false := by
  have head := @rowID_head ⟨row, row⟩ isTxid
  cases keysEq : row.ownKeys with
  | nil =>
      rw [keysEq] at head
      cases head
  | cons first otherKeys =>
      rw [keysEq] at head
      refine ⟨otherKeys, by rw [Option.some.inj head], fun key member => ?_⟩
      obtain ⟨offset, found⟩ := List.mem_iff_getElem?.1 member
      apply @isTxid_ownKeys ⟨row, row⟩ offset
      change row.ownKeys[offset + 1]? = some key
      rw [keysEq]
      exact found

theorem length_ownKeys_le (row : EntityRow) : row.ownKeys.length ≤ 4 := by
  unfold EntityRow.ownKeys EntityDetails.newKeys EntityDetails.optionalKeys
  split
  · exact Nat.le_of_ble_eq_true rfl
  · cases (EntityDetails.ofRow row).ref <;> cases (EntityDetails.ofRow row).name <;> simp

theorem nodup_ownKeys (row : EntityRow) : row.ownKeys.Nodup := by
  unfold EntityRow.ownKeys
  split
  · exact List.nodup_singleton _
  · exact EntityDetails.nodup_newKeys _ fun ref found => EntityDetails.ref_ofRow found

end Rows

namespace Forecast

variable {block : Int} {log : List EntityRow} {items : List EntityItem} {item : EntityItem}

theorem tail (forecast : Forecast block log (item :: items)) : Forecast block log items := by
  cases forecast with
  | entity older _ _ _ _ _ => exact older
  | followOn older _ _ _ _ _ _ => exact older
  | ownFollowOn before _ _ _ _ _ _ => exact before

theorem of_append {newer : List EntityItem} (forecast : Forecast block log (newer ++ items)) :
    Forecast block log items := by
  induction newer with
  | nil => exact forecast
  | cons item newer ih => exact ih forecast.tail

theorem of_split {newer older : List EntityItem} (forecast : Forecast block log items)
    (split : items = newer ++ item :: older) : Forecast block log (item :: older) := by
  rw [split] at forecast
  exact forecast.of_append

theorem waits_head (forecast : Forecast block log (item :: items)) :
    WaitingRow block item.row := by
  cases forecast with
  | entity _ waits _ _ _ _ => exact waits
  | followOn _ waits _ _ _ _ _ => exact waits
  | ownFollowOn _ waits _ _ _ _ _ => exact waits

/-- A place differs from its memory pool row in its links only. -/
theorem place_head (forecast : Forecast block log (item :: items)) :
    ∃ firstPos lastPos, item.place =
      item.row.placedBehind (places items ++ log) firstPos lastPos := by
  cases forecast with
  | entity _ _ _ _ _ _ => exact ⟨_, _, rfl⟩
  | followOn _ _ _ _ _ _ _ => exact ⟨_, _, rfl⟩
  | ownFollowOn _ _ _ _ _ _ _ => exact ⟨_, _, rfl⟩

/-- The place of a new entity is that of an entity under the same transaction. -/
theorem entity_head (forecast : Forecast block log (item :: items)) {txid : Bytes}
    (key : item.row.key = .txid txid false) :
    item.place.isFollowOn = false ∧ item.place.txid = txid := by
  obtain ⟨firstPos, lastPos, place⟩ := forecast.place_head
  have placeKey : item.place.key = .txid txid false := by
    rw [place]
    exact key
  unfold EntityRow.isFollowOn EntityRow.txid
  rw [placeKey]
  exact ⟨rfl, rfl⟩

theorem waits_of_mem (forecast : Forecast block log items) (member : item ∈ items) :
    WaitingRow block item.row := by
  obtain ⟨newer, older, rfl⟩ := List.append_of_mem member
  exact forecast.of_append.waits_head

theorem place_of_mem (forecast : Forecast block log items) (member : item ∈ items) :
    ∃ base firstPos lastPos, item.place = item.row.placedBehind base firstPos lastPos := by
  obtain ⟨newer, older, rfl⟩ := List.append_of_mem member
  obtain ⟨firstPos, lastPos, place⟩ := forecast.of_append.place_head
  exact ⟨_, firstPos, lastPos, place⟩

theorem ownKeys_place (forecast : Forecast block log items) (member : item ∈ items) :
    item.place.ownKeys = item.row.ownKeys := by
  obtain ⟨base, firstPos, lastPos, place⟩ := forecast.place_of_mem member
  rw [place]
  rfl

theorem isFollowOn_place (forecast : Forecast block log items) (member : item ∈ items) :
    item.place.isFollowOn = item.row.isFollowOn := by
  obtain ⟨base, firstPos, lastPos, place⟩ := forecast.place_of_mem member
  rw [place]
  rfl

/-- A new entity names a memory pool row: the first one, or its own. -/
theorem named_head (forecast : Forecast block log (item :: items))
    (isEntity : item.row.isFollowOn = false) :
    item.row.firstPos < 0 ∧
      (entityID item.row = 0 ∨ entityID item.row = (poolRows items).length) := by
  cases forecast with
  | entity _ _ _ _ negative named => exact ⟨negative, named⟩
  | followOn _ _ isFollowOn _ _ _ _ =>
      change _ = true at isFollowOn
      rw [isFollowOn] at isEntity
      cases isEntity
  | ownFollowOn _ _ isFollowOn _ _ _ _ =>
      change _ = true at isFollowOn
      rw [isFollowOn] at isEntity
      cases isEntity

/-- The places continue the log. -/
theorem entityLog (forecast : Forecast block log items) (rows : EntityLog log) :
    EntityLog (places items ++ log) := by
  induction forecast with
  | nil => exact rows
  | entity older waits isEntity nameFits _ _ ih =>
      exact .entity ih isEntity waits.isTxid nameFits rfl rfl rfl
  | followOn older waits isFollowOn inLog isEntity firstPos lastPos ih =>
      exact .followOn ih isFollowOn (List.mem_append_right _ inLog) isEntity rfl rfl firstPos
        lastPos
  | @ownFollowOn items newer older row genesis before waits isFollowOn split isEntity _ _ ih =>
      have inItems : genesis ∈ items := by
        rw [split]
        exact List.mem_append_right _ (List.mem_cons_self ..)
      have inPlaces : genesis.place ∈ places items ++ log :=
        List.mem_append_left _ (List.mem_map_of_mem inItems)
      exact .followOn ih isFollowOn inPlaces ((before.isFollowOn_place inItems).trans isEntity)
        rfl rfl rfl rfl

/-- An item has its place behind the rows of the log. -/
theorem endPos_le_place (forecast : Forecast block log (item :: items)) (rows : EntityLog log) :
    entityShape.endPos log ≤ item.place.chainPos := by
  have ownLog := forecast.entityLog rows
  have head : item.place.chainPos = entityShape.endPos (places items ++ log) :=
    ownLog.chainPos_head
  rw [head]
  exact ownLog.tail.endPos_le_append

end Forecast

/-- The place of an older item is in front of the one of a newer item. -/
theorem place_lt_of_suffix {log : List EntityRow} {items newer older inner : List EntityItem}
    {item other : EntityItem} (rows : EntityLog (places items ++ log))
    (split : items = newer ++ item :: older) (suffix : other :: inner <:+ older) :
    other.place.chainPos < item.place.chainPos := by
  rw [split, places, List.map_append, List.append_assoc] at rows
  refine rows.of_append.chainPos_lt_head (List.mem_append_left _ ?_)
  exact List.mem_map_of_mem (suffix.subset (List.mem_cons_self ..))

/-- Items with one place are the same, since the places grow with the items. -/
theorem place_eq_iff {log : List EntityRow} {items newer older newer' older' : List EntityItem}
    {own item : EntityItem} (rows : EntityLog (places items ++ log))
    (split : items = newer ++ own :: older) (split' : items = newer' ++ item :: older') :
    ((poolRows older').length = (poolRows older).length ↔
        item.place.chainPos = own.place.chainPos) ∧
      (item.place.chainPos = own.place.chainPos → item = own) := by
  rcases split_cases (split'.symm.trans split) with ⟨rfl, rfl⟩ | suffix | suffix
  · exact ⟨⟨fun _ => rfl, fun _ => rfl⟩, fun _ => rfl⟩
  · have lower := place_lt_of_suffix rows split' suffix
    have shorter := length_poolRows_lt_of_suffix suffix
    omega
  · have higher := place_lt_of_suffix rows split suffix
    have longer := length_poolRows_lt_of_suffix suffix
    omega

end HdacNode
