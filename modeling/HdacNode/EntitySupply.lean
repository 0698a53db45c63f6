import HdacNode.EntityRuns
import Mathlib.Algebra.BigOperators.Group.List.Lemmas

/-!
# Supply of assets

The issues of an asset form the chain of its entity: some rows of it are in the ledger, and
the others wait in the memory pool for the places that are forecast.  The total quantity of
an asset is the sum over its chain, as long as that sum is a signed 64-bit number.
-/

namespace HdacNode

open WrappedTotals

/-- The quantities of the rows of a chain. -/
def chainSum (log : List EntityRow) (firstPos : Int) : Int :=
  (log.map fun row => if row.firstPos = firstPos then row.quantity else 0).sum

theorem chainSum_cons (row : EntityRow) (log : List EntityRow) (firstPos : Int) :
    chainSum (row :: log) firstPos =
      (if row.firstPos = firstPos then row.quantity else 0) + chainSum log firstPos := by
  unfold chainSum
  rw [List.map_cons, List.sum_cons]

theorem chainSum_append (newer log : List EntityRow) (firstPos : Int) :
    chainSum (newer ++ log) firstPos = chainSum newer firstPos + chainSum log firstPos := by
  unfold chainSum
  rw [List.map_append, List.sum_append]

theorem chainSum_eq_zero {log : List EntityRow} {firstPos : Int}
    (absent : ∀ row ∈ log, row.firstPos ≠ firstPos) : chainSum log firstPos = 0 := by
  induction log with
  | nil => rfl
  | cons row log ih =>
      rw [chainSum_cons, if_neg (absent row (List.mem_cons_self ..)), zero_add]
      exact ih fun other member => absent other (List.mem_cons_of_mem _ member)

namespace EntityLog

variable {log : List EntityRow} {row genesis : EntityRow}

/-- A chain ends at a row of the log. -/
theorem exists_chainEnd (rows : EntityLog log) (inLog : genesis ∈ log)
    (isEntity : genesis.isFollowOn = false) :
    ∃ row ∈ log, chainEnd log genesis.chainPos = row.chainPos := by
  induction log with
  | nil => cases inLog
  | cons head log ih =>
      rw [chainEnd_cons]
      split
      · exact ⟨head, List.mem_cons_self .., rfl⟩
      · rename_i different
        rcases List.mem_cons.1 inLog with rfl | older
        · exact absurd (rows.firstPos_of_entity (List.mem_cons_self ..) isEntity) different
        · obtain ⟨row, member, found⟩ := ih rows.tail older
          exact ⟨row, List.mem_cons_of_mem _ member, found⟩

/-- No row stands in the chain of a place behind the log. -/
theorem chainSum_of_endPos_le (rows : EntityLog log) {pos : Int}
    (behind : entityShape.endPos log ≤ pos) : chainSum log pos = 0 :=
  chainSum_eq_zero fun _ member => ((rows.firstPos_lt_endPos member).trans_le behind).ne

/-- A row that is no row of the chain of an entity does not make the entity. -/
theorem mem_tail_of_ne (rows : EntityLog (row :: log)) (inLog : genesis ∈ row :: log)
    (isEntity : genesis.isFollowOn = false) (different : row.firstPos ≠ genesis.chainPos) :
    genesis ∈ log := by
  rcases List.mem_cons.1 inLog with rfl | older
  · exact absurd (rows.firstPos_of_entity (List.mem_cons_self ..) isEntity) different
  · exact older

/-- A follow-on of an entity is linked to the end of the chain before it. -/
theorem followOn_links (rows : EntityLog (row :: log)) (inLog : genesis ∈ row :: log)
    (isEntity : genesis.isFollowOn = false) (followOn : row.isFollowOn = true)
    (ofChain : row.firstPos = genesis.chainPos) :
    genesis ∈ log ∧ row.lastPos = chainEnd log genesis.chainPos ∧
      genesis.chainPos < row.chainPos ∧ entityTotalSize ≤ chainEnd log genesis.chainPos ∧
      chainEnd log genesis.chainPos < row.chainPos := by
  obtain ⟨entity, _, -, firstPos, lastPos⟩ := rows.exists_older_genesis followOn
  have inOlder : genesis ∈ log := by
    rcases List.mem_cons.1 inLog with rfl | older
    · rw [followOn] at isEntity
      cases isEntity
    · exact older
  rw [show entity.chainPos = genesis.chainPos from firstPos.symm.trans ofChain] at lastPos
  obtain ⟨last, lastIn, lastEq⟩ := rows.tail.exists_chainEnd inOlder isEntity
  rw [lastEq] at lastPos ⊢
  exact ⟨inOlder, lastPos, rows.chainPos_lt_head inOlder, (rows.tail.place_of_mem lastIn).1,
    rows.chainPos_lt_head lastIn⟩

end EntityLog

theorem toInt64_add_toInt64 (left right : Int) :
    toInt64 (toInt64 left + right) = toInt64 (left + right) := by
  simp [toInt64]

namespace AssetDB

variable {s : AssetDB} {log : List EntityRow} {items : List EntityItem}

section Ledger

theorem totalLedgerQuantity_eq (rows : EntityLog log)
    (read : ∀ row ∈ log, s.ledgerRowAt row.chainPos = row) {genesis : EntityRow}
    (inLog : genesis ∈ log) (isEntity : genesis.isFollowOn = false) {fuel : Nat}
    (enough : (chainEnd log genesis.chainPos).toNat < fuel) (total : Int) :
    s.totalLedgerQuantity genesis.chainPos fuel (chainEnd log genesis.chainPos) total =
      toInt64 (total + chainSum log genesis.chainPos) := by
  have positive : 0 < entityTotalSize := entityShape.base_pos
  induction log generalizing fuel total with
  | nil => cases inLog
  | cons row log ih =>
      have readTail : ∀ other ∈ log, s.ledgerRowAt other.chainPos = other := fun other member =>
        read other (List.mem_cons_of_mem _ member)
      have place := rows.place_of_mem (List.mem_cons_self ..)
      rw [chainEnd_cons, chainSum_cons] at *
      by_cases ofChain : row.firstPos = genesis.chainPos
      · rw [if_pos ofChain] at enough ⊢
        rw [if_pos ofChain]
        obtain ⟨fuel, rfl⟩ : ∃ fewer, fuel = fewer + 1 := ⟨fuel - 1, by omega⟩
        unfold totalLedgerQuantity
        dsimp only
        rw [read row (List.mem_cons_self ..)]
        cases followOn : row.isFollowOn with
        | false =>
            have own := rows.firstPos_of_entity (List.mem_cons_self ..) followOn
            have same : row.chainPos = genesis.chainPos := own.symm.trans ofChain
            have none := rows.tail.chainSum_of_endPos_le rows.chainPos_head.ge
            rw [if_pos same, ← same, none, add_zero]
            rfl
        | true =>
            obtain ⟨inOlder, lastPos, genesisBefore, lastBase, lastBefore⟩ :=
              rows.followOn_links inLog isEntity followOn ofChain
            rw [if_neg (by omega), lastPos, if_neg (by omega),
              ih rows.tail readTail inOlder (by omega)]
            unfold addInt64
            rw [toInt64_add_toInt64, add_assoc]
      · rw [if_neg ofChain] at enough ⊢
        rw [if_neg ofChain, zero_add]
        have inOlder := rows.mem_tail_of_ne inLog isEntity ofChain
        exact ih rows.tail readTail inOlder enough total

theorem Tracks.ledgerRowAt_eq (tracks : s.Tracks log items) {row : EntityRow} (inLog : row ∈ log) :
    s.ledgerRowAt row.chainPos = row := by
  unfold EntityFiles.ledgerRowAt
  change (s.ledger.rowAt (entityShape.pos row)).getD .zero = row
  rw [tracks.chain.rowAt_pos inLog]
  rfl

end Ledger

section Pool

/-- The quantities of the memory pool rows of an asset. -/
def poolSum (memRows : List EntityRow) (firstPos : Int) : Int :=
  (memRows.map fun memRow =>
    if memRow.key.isTxid = true ∧ memRow.firstPos = firstPos then memRow.quantity else 0).sum

theorem poolSum_append (first second : List EntityRow) (firstPos : Int) :
    poolSum (first ++ second) firstPos = poolSum first firstPos + poolSum second firstPos := by
  unfold poolSum
  rw [List.map_append, List.sum_append]

theorem poolSum_reverse (memRows : List EntityRow) (firstPos : Int) :
    poolSum memRows.reverse firstPos = poolSum memRows firstPos := by
  unfold poolSum
  rw [List.map_reverse, List.sum_reverse]

theorem foldl_quantity (firstPos : Int) (memRows : List EntityRow) (total : Int) :
    toInt64 (memRows.foldl (fun total memRow =>
      if memRow.key.isTxid ∧ memRow.firstPos = firstPos then addInt64 total memRow.quantity
      else total) total) = toInt64 (total + poolSum memRows firstPos) := by
  induction memRows generalizing total with
  | nil =>
      change toInt64 total = toInt64 (total + 0)
      rw [add_zero]
  | cons memRow memRows ih =>
      have sumEq : poolSum (memRow :: memRows) firstPos =
          (if memRow.key.isTxid = true ∧ memRow.firstPos = firstPos then memRow.quantity else 0) +
            poolSum memRows firstPos := by
        unfold poolSum
        rw [List.map_cons, List.sum_cons]
      rw [List.foldl_cons, ih, sumEq]
      split
      · unfold addInt64
        rw [toInt64_add_toInt64, add_assoc]
      · rw [zero_add]

theorem toInt64_foldl_quantity (firstPos : Int) (memRows : List EntityRow) {total : Int}
    (word : toInt64 total = total) :
    toInt64 (memRows.foldl (fun total memRow =>
      if memRow.key.isTxid ∧ memRow.firstPos = firstPos then addInt64 total memRow.quantity
      else total) total) =
      memRows.foldl (fun total memRow =>
        if memRow.key.isTxid ∧ memRow.firstPos = firstPos then addInt64 total memRow.quantity
        else total) total := by
  induction memRows generalizing total with
  | nil => exact word
  | cons memRow memRows ih =>
      rw [List.foldl_cons]
      apply ih
      split
      · exact toInt64_of_lt (le_toInt64 _) (toInt64_lt _)
      · exact word

theorem poolSum_rows {item : EntityItem} (isTxid : item.row.key.isTxid = true) (firstPos : Int) :
    poolSum item.rows firstPos =
      if item.row.firstPos = firstPos then item.row.quantity else 0 := by
  obtain ⟨otherKeys, ownKeys, noTxid⟩ := ownKeys_eq_cons isTxid
  have others : ∀ keys : List EntityKey, (∀ key ∈ keys, key.isTxid = false) →
      poolSum (keys.map fun key => { item.row with key }) firstPos = 0 := by
    intro keys none
    induction keys with
    | nil => rfl
    | cons key keys ih =>
        have rest := ih fun other member => none other (List.mem_cons_of_mem _ member)
        unfold poolSum at rest ⊢
        rw [List.map_cons, List.map_cons, List.sum_cons, rest, if_neg, add_zero]
        rintro ⟨isTxid, -⟩
        rw [none key (List.mem_cons_self ..)] at isTxid
        cases isTxid
  have rest := others otherKeys noTxid
  unfold EntityItem.rows
  unfold poolSum at rest ⊢
  rw [ownKeys, List.map_cons, List.map_cons, List.sum_cons, rest, add_zero]
  refine if_congr ?_ rfl rfl
  exact ⟨fun both => both.2, fun same => ⟨isTxid, same⟩⟩

theorem poolSum_poolRows {block : Int} (forecast : Forecast block log items) (firstPos : Int) :
    poolSum (poolRows items) firstPos =
      (items.map fun item => if item.row.firstPos = firstPos then item.row.quantity else 0).sum := by
  induction items with
  | nil => rfl
  | cons item items ih =>
      unfold poolRows
      rw [poolSum_append, ih forecast.tail, poolSum_rows forecast.waits_head.isTxid,
        List.map_cons, List.sum_cons, add_comm]

end Pool

section Totals

/-- The sum over the items of an asset, by their memory pool rows and by their places. -/
theorem itemSum_eq {firstPos place : Int} (same : ∀ item ∈ items,
      (if item.row.firstPos = firstPos then item.row.quantity else 0) =
        if item.place.firstPos = place then item.place.quantity else 0) :
    (items.map fun item => if item.row.firstPos = firstPos then item.row.quantity else 0).sum =
      chainSum (places items) place := by
  unfold chainSum places
  rw [List.map_map, List.map_congr_left same]
  rfl

theorem quantity_place {block : Int} {item : EntityItem} (forecast : Forecast block log items)
    (member : item ∈ items) : item.place.quantity = item.row.quantity := by
  obtain ⟨base, firstPos, lastPos, placeEq⟩ := forecast.place_of_mem member
  rw [placeEq]
  rfl

theorem itemSum_of_log {block : Int} (forecast : Forecast block log items) (rows : EntityLog log)
    {genesis : EntityRow} (inLog : genesis ∈ log) :
    (items.map fun item =>
      if item.row.firstPos = genesis.chainPos then item.row.quantity else 0).sum =
      chainSum (places items) genesis.chainPos := by
  apply itemSum_eq
  intro item member
  obtain ⟨newer, older, rfl⟩ := List.append_of_mem member
  have current := forecast.of_append
  rw [quantity_place forecast member]
  refine if_congr ?_ rfl rfl
  rw [← current.followOn_iff rows inLog]
  refine ⟨fun same => ⟨?_, same⟩, fun both => both.2⟩
  have place := rows.place_of_mem inLog
  have positive : 0 < entityTotalSize := entityShape.base_pos
  cases followOn : item.row.isFollowOn with
  | true => rfl
  | false =>
      have negative := (current.named_head followOn).1
      omega

/-- The first position of every new entity names its own row. -/
def NamesOwnRows (items : List EntityItem) : Prop :=
  ∀ newer item older, items = newer ++ item :: older → item.row.isFollowOn = false →
    entityID item.row = (poolRows older).length

theorem itemSum_of_item {block : Int} (forecast : Forecast block log items)
    (rows : EntityLog log) (namesOwn : NamesOwnRows items) {newer older : List EntityItem}
    {own : EntityItem} (split : items = newer ++ own :: older)
    (isEntity : own.row.isFollowOn = false) (named : entityID own.row = (poolRows older).length) :
    (items.map fun item =>
      if item.row.firstPos = own.row.firstPos then item.row.quantity else 0).sum =
      chainSum (places items) own.place.chainPos := by
  have placed := forecast.entityLog rows
  have ownMember : own ∈ items := by
    rw [split]
    exact List.mem_append_right _ (List.mem_cons_self ..)
  have ownCurrent := forecast.of_split split
  have ownNegative := (ownCurrent.named_head isEntity).1
  have positive : 0 < entityTotalSize := entityShape.base_pos
  have ownPlace := ownCurrent.endPos_le_place rows
  have sameFirst : ∀ {row : EntityRow}, row.firstPos < 0 →
      (row.firstPos = own.row.firstPos ↔ entityID row = (poolRows older).length) := by
    intro row negative
    rw [← named]
    unfold entityID
    omega
  apply itemSum_eq
  intro item member
  obtain ⟨newer', older', split'⟩ := List.append_of_mem member
  have current := forecast.of_split split'
  rw [quantity_place forecast member]
  cases current with
  | @entity _ row before waits rowEntity nameFits negative rowNamed =>
      have ownIndex := namesOwn newer' _ older' split' rowEntity
      refine if_congr ?_ rfl rfl
      rw [sameFirst negative, ownIndex]
      exact (place_eq_iff placed split split').1
  | @followOn _ row genesis before waits isFollowOn inLog genesisEntity firstPos lastPos =>
      have place := rows.place_of_mem inLog
      have notOwn : row.firstPos ≠ own.row.firstPos := by omega
      have notPlace : row.firstPos ≠ own.place.chainPos := by omega
      exact (if_neg notOwn).trans (if_neg notPlace).symm
  | @ownFollowOn _ newest oldest row genesis before waits isFollowOn inner genesisEntity negative
      rowNamed =>
      have whole : items = (newer' ++ ⟨row, row.placedBehind (places older' ++ log)
          genesis.place.chainPos (chainEnd (places older' ++ log) genesis.place.chainPos)⟩ ::
          newest) ++ genesis :: oldest := by
        rw [split', inner, List.append_assoc]
        rfl
      refine if_congr ?_ rfl rfl
      rw [sameFirst negative, rowNamed]
      exact (place_eq_iff placed split whole).1

/-- The total quantity of an asset is the sum over its chain, as a signed 64-bit number. -/
theorem Tracks.getTotalQuantity_eq (tracks : s.Tracks log items) (namesOwn : NamesOwnRows items)
    {found : EntityRow} {place : Int} (placeOf : PlaceOf log items found place) :
    s.getTotalQuantity found = toInt64 (chainSum (places items ++ log) place) := by
  have positive : 0 < entityTotalSize := entityShape.base_pos
  have pool : ∀ firstPos, toInt64 (s.memPool.rows.reverse.foldl (fun total memRow =>
      if memRow.key.isTxid ∧ memRow.firstPos = firstPos then addInt64 total memRow.quantity
      else total) 0) = toInt64 (items.map fun item =>
        if item.row.firstPos = firstPos then item.row.quantity else 0).sum := by
    intro firstPos
    rw [foldl_quantity, zero_add, poolSum_reverse, tracks.poolEq,
      poolSum_poolRows tracks.forecast]
  unfold getTotalQuantity
  dsimp only
  rw [chainSum_append]
  rcases placeOf with ⟨genesis, inLog, isEntity, rfl, rfl⟩ |
    ⟨newer, own, older, split, isEntity, rfl, rfl, named⟩
  · have own := tracks.rows.firstPos_of_entity inLog isEntity
    have place := tracks.rows.place_of_mem inLog
    have poolEq := pool genesis.chainPos
    rw [itemSum_of_log tracks.forecast tracks.rows inLog] at poolEq
    dsimp only
    rw [own, if_pos (by omega), totalLedgerQuantity_eq tracks.rows
      (fun row member => tracks.ledgerRowAt_eq member) inLog isEntity (Nat.lt_succ_self _),
      ← toInt64_add_toInt64, poolEq, toInt64_add_toInt64]
  · have current := tracks.forecast.of_split split
    have negative := (current.named_head isEntity).1
    have behind := current.endPos_le_place tracks.rows
    have poolEq := pool own.row.firstPos
    rw [itemSum_of_item tracks.forecast tracks.rows namesOwn split isEntity named] at poolEq
    have word : toInt64 0 = 0 := toInt64_of_lt (by decide) (by decide)
    rw [toInt64_foldl_quantity _ _ word] at poolEq
    rw [if_neg (by omega), tracks.rows.chainSum_of_endPos_le behind, add_zero]
    exact poolEq

end Totals

end AssetDB

end HdacNode
