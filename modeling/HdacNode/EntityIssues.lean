import HdacNode.EntitySupply

/-!
# Issues of assets over runs

The calls of a run issue quantities of assets, and clearing the memory pool and rolling back
take issues back.  In every store that the operations on assets reach the total quantity of an
asset is the exact sum of its issues, and a follow-on that would leave the signed 64-bit numbers
is refused.
-/

namespace HdacNode

open WrappedTotals

/-- What a call has issued: a quantity of the asset with a transaction id, in a block. -/
structure Issue where
  txid : Bytes
  quantity : Int
  block : Int
  deriving DecidableEq, Repr

/-- The exact sum of the issues of an asset. -/
def issued (issues : List Issue) (txid : Bytes) : Int :=
  (issues.map fun issue => if issue.txid = txid then issue.quantity else 0).sum

/-- The transaction id of the entity at a place. -/
def genesisTxid : List EntityRow → Int → Bytes
  | [], _ => []
  | row :: log, place => if row.chainPos = place then row.txid else genesisTxid log place

/-- The issues that the rows of a log stand for. -/
def issuesOf : List EntityRow → List Issue
  | [] => []
  | row :: log => ⟨genesisTxid (row :: log) row.firstPos, row.quantity, row.block⟩ :: issuesOf log

theorem issuesOf_cons (row : EntityRow) (log : List EntityRow) :
    issuesOf (row :: log) =
      ⟨genesisTxid (row :: log) row.firstPos, row.quantity, row.block⟩ :: issuesOf log :=
  rfl

section Logs

variable {log : List EntityRow} {row genesis : EntityRow}

theorem genesisTxid_eq (rows : EntityLog log) (inLog : genesis ∈ log) :
    genesisTxid log genesis.chainPos = genesis.txid := by
  induction log with
  | nil => cases inLog
  | cons row log ih =>
      unfold genesisTxid
      split
      · rename_i same
        rw [rows.chainPos_injective (List.mem_cons_self ..) inLog same]
      · rename_i different
        rcases List.mem_cons.1 inLog with rfl | older
        · exact absurd rfl different
        · exact ih rows.tail older

/-- A row stands for an entity exactly when it belongs to its chain. -/
theorem genesisTxid_eq_iff {newer : List EntityRow} (rows : EntityLog (newer ++ row :: log))
    (distinct : DistinctKeys (fun key => key.isTxid = true) (newer ++ row :: log))
    (inRows : genesis ∈ newer ++ row :: log) (isEntity : genesis.isFollowOn = false) :
    genesisTxid (row :: log) row.firstPos = genesis.txid ↔ row.firstPos = genesis.chainPos := by
  obtain ⟨own, inCurrent, ownEntity, firstPos⟩ :=
    rows.of_append.exists_genesis (List.mem_cons_self ..)
  have ownIn : own ∈ newer ++ row :: log := List.mem_append_right _ inCurrent
  rw [firstPos, genesisTxid_eq rows.of_append inCurrent]
  have ownTxid := rows.isTxid_of_mem ownIn
  have genesisTxid := rows.isTxid_of_mem inRows
  constructor
  · intro same
    have sameKey : own.key = genesis.key := by
      rw [EntityRow.key_eq_txid ownTxid ownEntity, EntityRow.key_eq_txid genesisTxid isEntity,
        same]
    have equal := distinct own ownIn genesis inRows own.key
      (EntityRow.key_mem_ownKeys ownTxid)
      (sameKey ▸ EntityRow.key_mem_ownKeys genesisTxid) ownTxid
    rw [equal]
  · intro same
    rw [rows.chainPos_injective ownIn inRows same]

theorem issued_issuesOf {newer : List EntityRow} (rows : EntityLog (newer ++ log))
    (distinct : DistinctKeys (fun key => key.isTxid = true) (newer ++ log))
    (inRows : genesis ∈ newer ++ log) (isEntity : genesis.isFollowOn = false) :
    issued (issuesOf log) genesis.txid = chainSum log genesis.chainPos := by
  induction log generalizing newer with
  | nil => rfl
  | cons row log ih =>
      have whole : newer ++ row :: log = (newer ++ [row]) ++ log := by
        rw [List.append_assoc]
        rfl
      have older := ih (whole ▸ rows) (whole ▸ distinct) (whole ▸ inRows)
      unfold issued at older ⊢
      unfold issuesOf
      rw [List.map_cons, List.sum_cons, older, chainSum_cons]
      congr 1
      exact if_congr (genesisTxid_eq_iff rows distinct inRows isEntity) rfl rfl

/-- Where each row of a log adds an entry of its block, the entries of some blocks are those that
the rows of these blocks add. -/
theorem filter_history {Entry : Type} (history : List EntityRow → List Entry)
    (entryBlock : Entry → Int) (start : history [] = [])
    (adds : ∀ row log, ∃ entry, entryBlock entry = row.block ∧
      history (row :: log) = entry :: history log) (keep : Int → Bool) {newer : List EntityRow}
    (dropped : ∀ row ∈ newer, keep row.block = false) (kept : ∀ row ∈ log, keep row.block = true) :
    (history (newer ++ log)).filter (fun entry => keep (entryBlock entry)) = history log := by
  induction newer with
  | nil =>
      rw [List.nil_append]
      induction log with
      | nil => rw [start, List.filter_nil]
      | cons row log ih =>
          obtain ⟨entry, ofRow, added⟩ := adds row log
          have keptRow := kept row (List.mem_cons_self ..)
          rw [added, List.filter_cons, ofRow, if_pos keptRow,
            ih fun other member => kept other (List.mem_cons_of_mem _ member)]
  | cons row newer ih =>
      obtain ⟨entry, ofRow, added⟩ := adds row (newer ++ log)
      have droppedRow := dropped row (List.mem_cons_self ..)
      rw [List.cons_append, added, List.filter_cons, ofRow,
        if_neg (by rw [droppedRow]; exact Bool.false_ne_true)]
      exact ih fun other member => dropped other (List.mem_cons_of_mem _ member)

theorem filter_issuesOf (keep : Int → Bool) {newer : List EntityRow}
    (dropped : ∀ row ∈ newer, keep row.block = false) (kept : ∀ row ∈ log, keep row.block = true) :
    (issuesOf (newer ++ log)).filter (fun issue => keep issue.block) = issuesOf log :=
  filter_history issuesOf Issue.block rfl (fun _ _ => ⟨_, rfl, rfl⟩) keep dropped kept

end Logs

namespace AssetDB

/-- The issues after a call. -/
def issuesAfterCall (s : AssetDB) (err : Option McError) (issues : List Issue) :
    EntityCall → List Issue
  | .insertEntity txid _ _ _ _ updateMemPool =>
      if err = none ∧ updateMemPool = true then ⟨txid, 0, s.block + 1⟩ :: issues else issues
  | .insertAsset txid _ quantity _ _ _ _ updateMemPool =>
      if err = none ∧ updateMemPool = true then ⟨txid, quantity, s.block + 1⟩ :: issues
      else issues
  | .insertAssetFollowOn _ _ quantity _ _ originalTxid updateMemPool =>
      if err = none ∧ updateMemPool = true then ⟨originalTxid, quantity, s.block + 1⟩ :: issues
      else issues
  | .clearMemPool => issues.filter fun issue => decide (issue.block ≤ s.block)
  | .commit => issues
  | .rollBack block => issues.filter fun issue => decide (issue.block ≤ min s.block block)

/-- The issues after a run. -/
def issuesAfter (s : AssetDB) (issues : List Issue) : List EntityCall → List Issue
  | [] => issues
  | call :: calls =>
      match s.callOutcome call with
      | .fault => issues
      | .ended err next => next.issuesAfter (s.issuesAfterCall err issues call) calls

/-- The operations on assets, with what their callers promise: a commit comes without
unconfirmed rows, and the quantities are signed 64-bit numbers, not negative in a first issue. -/
def AssetCall (s : AssetDB) : EntityCall → Prop
  | .insertEntity .. => False
  | .insertAsset _ _ quantity _ _ _ _ _ => 0 ≤ quantity ∧ quantity < 2 ^ 63
  | .insertAssetFollowOn _ _ quantity _ _ _ _ => -2 ^ 63 ≤ quantity ∧ quantity < 2 ^ 63
  | .clearMemPool => True
  | .commit => s.Confirmed
  | .rollBack _ => True

instance (s : AssetDB) : ∀ call, Decidable (s.AssetCall call)
  | .insertEntity .. => isFalse id
  | .insertAsset _ _ quantity _ _ _ _ _ =>
      inferInstanceAs (Decidable (0 ≤ quantity ∧ quantity < 2 ^ 63))
  | .insertAssetFollowOn _ _ quantity _ _ _ _ =>
      inferInstanceAs (Decidable (-2 ^ 63 ≤ quantity ∧ quantity < 2 ^ 63))
  | .clearMemPool => isTrue trivial
  | .commit => inferInstanceAs (Decidable s.Confirmed)
  | .rollBack _ => isTrue trivial

/-- The issues are those of the ledger and of the memory pool, and in the ledger and in the
memory pool up to any row the sums of all chains are signed 64-bit numbers. -/
structure Supplied (log : List EntityRow) (items : List EntityItem) (issues : List Issue) :
    Prop where
  issues_eq : issues = issuesOf (places items ++ log)
  inRange : ∀ older, older <:+ places items ++ log → ∀ genesis ∈ older,
    genesis.isFollowOn = false →
      0 ≤ chainSum older genesis.chainPos ∧ chainSum older genesis.chainPos < 2 ^ 63
  namesOwn : NamesOwnRows items

theorem supplied_nil : Supplied [] [] [] where
  issues_eq := rfl
  inRange := by
    intro older suffix genesis member
    rw [List.suffix_nil.1 suffix] at member
    cases member
  namesOwn := fun newer item older split => by simp at split

variable {s next : AssetDB} {log : List EntityRow} {items : List EntityItem}
  {issues : List Issue} {item : EntityItem}

/-- Issues of the rows up to a block. -/
theorem Supplied.of_suffix {older : List EntityRow} (supplied : Supplied log items issues)
    (suffix : older <:+ places items ++ log) : Supplied older [] (issuesOf older) where
  issues_eq := rfl
  inRange := fun oldest suffix' => supplied.inRange oldest (suffix'.trans suffix)
  namesOwn := fun newer item older split => by simp at split

/-- An item issues its quantity for the entity that its place belongs to. -/
theorem Supplied.addItem {genesis : EntityRow} (supplied : Supplied log items issues)
    (tracks : next.Tracks log (item :: items))
    (inRows : genesis ∈ item.place :: (places items ++ log))
    (firstPos : item.place.firstPos = genesis.chainPos)
    (range : 0 ≤ item.row.quantity + chainSum (places items ++ log) genesis.chainPos ∧
      item.row.quantity + chainSum (places items ++ log) genesis.chainPos < 2 ^ 63)
    (names : item.row.isFollowOn = false → entityID item.row = (poolRows items).length) :
    Supplied log (item :: items) (⟨genesis.txid, item.row.quantity, item.row.block⟩ :: issues) := by
  have rows := tracks.forecast.entityLog tracks.rows
  change EntityLog (item.place :: (places items ++ log)) at rows
  have quantity := quantity_place tracks.forecast (List.mem_cons_self ..)
  obtain ⟨startPos, lastPos, placeEq⟩ := tracks.forecast.place_head
  have block : item.place.block = item.row.block := by
    rw [placeEq]
    rfl
  refine ⟨?_, ?_, ?_⟩
  · change _ = issuesOf (item.place :: (places items ++ log))
    rw [issuesOf_cons, supplied.issues_eq, firstPos, genesisTxid_eq rows inRows, quantity, block]
  · intro older suffix other member otherEntity
    rcases List.suffix_cons_iff.1 suffix with rfl | inBase
    · rw [chainSum_cons, quantity]
      by_cases same : item.place.firstPos = other.chainPos
      · rw [if_pos same, ← same, firstPos]
        exact range
      · rw [if_neg same, zero_add]
        rcases List.mem_cons.1 member with rfl | inOlder
        · exact absurd (rows.firstPos_of_entity (List.mem_cons_self ..) otherEntity) same
        · exact supplied.inRange _ (List.suffix_refl _) other inOlder otherEntity
    · exact supplied.inRange older inBase other member otherEntity
  · intro newer other older split otherEntity
    cases newer with
    | nil =>
        obtain ⟨rfl, rfl⟩ := List.cons.inj split
        exact names otherEntity
    | cons head newer =>
        obtain ⟨rfl, rest⟩ := List.cons.inj split
        exact supplied.namesOwn newer other older rest otherEntity

/-- The entity at the place that a query has found. -/
theorem Tracks.exists_placeOf (tracks : s.Tracks log items) {found : EntityRow} {place : Int}
    (placeOf : PlaceOf log items found place) :
    ∃ genesis ∈ places items ++ log, genesis.isFollowOn = false ∧ genesis.txid = found.txid ∧
      place = genesis.chainPos := by
  rcases placeOf with ⟨genesis, inLog, isEntity, rfl, rfl⟩ |
    ⟨newer, own, older, split, isEntity, rfl, rfl, -⟩
  · exact ⟨genesis, List.mem_append_right _ inLog, isEntity, rfl, rfl⟩
  · have member : own ∈ items := by
      rw [split]
      exact List.mem_append_right _ (List.mem_cons_self ..)
    refine ⟨own.place, List.mem_append_left _ (List.mem_map_of_mem member),
      (tracks.forecast.isFollowOn_place member).trans isEntity, ?_, rfl⟩
    obtain ⟨base, firstPos, lastPos, placeEq⟩ := tracks.forecast.place_of_mem member
    rw [placeEq]
    rfl

/-- The total quantity of an asset is the exact sum of its issues. -/
theorem Supplied.getTotalQuantity_eq (supplied : Supplied log items issues)
    (tracks : s.Tracks log items) {found : EntityRow} {place : Int}
    (placeOf : PlaceOf log items found place) :
    s.getTotalQuantity found = issued issues found.txid ∧ 0 ≤ issued issues found.txid ∧
      issued issues found.txid < 2 ^ 63 ∧
      issued issues found.txid = chainSum (places items ++ log) place := by
  obtain ⟨genesis, inRows, isEntity, txid, placeEq⟩ := tracks.exists_placeOf placeOf
  have rows := tracks.forecast.entityLog tracks.rows
  have distinct := tracks.fresh.distinctKeys tracks.forecast tracks.txids
  have sumEq : issued (issuesOf (places items ++ log)) genesis.txid =
      chainSum (places items ++ log) genesis.chainPos :=
    @issued_issuesOf _ _ [] rows distinct inRows isEntity
  rw [← supplied.issues_eq, txid, ← placeEq] at sumEq
  obtain ⟨nonneg, bounded⟩ := supplied.inRange _ (List.suffix_refl _) genesis inRows isEntity
  rw [← placeEq] at nonneg bounded
  rw [sumEq, tracks.getTotalQuantity_eq supplied.namesOwn placeOf,
    toInt64_of_lt (by omega) bounded]
  exact ⟨rfl, nonneg, bounded, rfl⟩

/-- Signed 64-bit numbers whose sum does not turn negative have an exact sum. -/
theorem sum_of_addInt64_nonneg {total quantity : Int} (nonneg : 0 ≤ total) (bounded : total < 2 ^ 63)
    (low : -2 ^ 63 ≤ quantity) (high : quantity < 2 ^ 63) :
    addInt64 total quantity < 0 ↔ ¬ (0 ≤ total + quantity ∧ total + quantity < 2 ^ 63) := by
  unfold addInt64
  constructor
  · rintro negative ⟨sumNonneg, sumBounded⟩
    rw [toInt64_of_lt (by omega) sumBounded] at negative
    omega
  · intro outside
    by_contra notNegative
    have wordNonneg : 0 ≤ toInt64 (total + quantity) := by omega
    by_cases sumNonneg : 0 ≤ total + quantity
    · exact outside ⟨sumNonneg, lt_of_toInt64_nonneg sumNonneg (by omega) wordNonneg⟩
    · rw [toInt64_of_lt (by omega) (by omega)] at wordNonneg
      omega

/-- An insertion issues when it adds its item. -/
theorem Supplied.inserts (supplied : Supplied log items issues) (tracks : s.Tracks log items)
    {updateMemPool : Bool} {err : Option McError}
    (inserts : s.Inserts next log items item updateMemPool err) {issue : Issue}
    (added : next.Tracks log (item :: items) → item.row.block = s.block + 1 →
      Supplied log (item :: items) (issue :: issues)) :
    ∃ newLog newItems, next.Tracks newLog newItems ∧ Supplied newLog newItems
      (if err = none ∧ updateMemPool = true then issue :: issues else issues) := by
  rcases inserts with ⟨rfl, rfl⟩ | ⟨rfl, -, ⟨rfl, rfl⟩ | ⟨rfl, -, sameBlock, nextTracks⟩⟩
  · rw [if_neg fun both => by cases both.1]
    exact ⟨log, items, tracks, supplied⟩
  · rw [if_neg fun both => by cases both.2]
    exact ⟨log, items, tracks, supplied⟩
  · rw [if_pos ⟨rfl, rfl⟩]
    have inBlock := nextTracks.forecast.waits_head.inBlock
    rw [sameBlock] at inBlock
    exact ⟨log, item :: items, nextTracks, added nextTracks inBlock⟩

/-- The entity that a query has found under a transaction id has it. -/
theorem Tracks.txid_of_getEntity (tracks : s.Tracks log items) {txid : Bytes} {found : EntityRow}
    (foundEq : s.getEntity (.txid txid false) = some found) : found.txid = txid := by
  have ofOwn : ∀ {row : EntityRow}, row.key.isTxid = true →
      EntityKey.txid txid false ∈ row.ownKeys → row.txid = txid := by
    intro row isTxid own
    obtain ⟨otherKeys, ownKeys, noTxid⟩ := ownKeys_eq_cons isTxid
    rw [ownKeys] at own
    rcases List.mem_cons.1 own with same | other
    · unfold EntityRow.txid
      rw [← same]
    · cases noTxid _ other
  have notZero : EntityKey.txid txid false ≠ .zero := fun impossible => by cases impossible
  rcases tracks.getEntity_cases notZero with
    ⟨-, row, inLog, own, answer⟩ | ⟨-, item, member, own, answer⟩ | ⟨-, -, answer⟩
  · rw [foundEq] at answer
    rw [Option.some.inj answer]
    have sameTxid : row.txid = txid := ofOwn (tracks.rows.isTxid_of_mem inLog) own
    exact sameTxid
  · rw [foundEq] at answer
    rw [Option.some.inj answer]
    exact ofOwn (tracks.forecast.waits_of_mem member).isTxid own
  · rw [foundEq] at answer
    cases answer

/-- A new entity issues its quantity. -/
theorem Supplied.addEntity (supplied : Supplied log items issues)
    (tracks : next.Tracks log (item :: items)) {txid : Bytes} (key : item.row.key = .txid txid false)
    (range : 0 ≤ item.row.quantity ∧ item.row.quantity < 2 ^ 63)
    (names : entityID item.row = (poolRows items).length) :
    Supplied log (item :: items) (⟨txid, item.row.quantity, item.row.block⟩ :: issues) := by
  have rows := tracks.forecast.entityLog tracks.rows
  change EntityLog (item.place :: (places items ++ log)) at rows
  obtain ⟨placeEntity, placeTxid⟩ := tracks.forecast.entity_head key
  have none := rows.tail.chainSum_of_endPos_le rows.chainPos_head.ge
  have added := supplied.addItem tracks (List.mem_cons_self ..)
    (rows.firstPos_of_entity (List.mem_cons_self ..) placeEntity)
    (by rw [none, add_zero]; exact range) (fun _ => names)
  rw [placeTxid] at added
  exact added

/-- The rows that a rollback removes are above its height, and those that stay are not. -/
theorem Tracks.blocks_split (tracks : s.Tracks log items) (block : Int) :
    places items ++ log = (places items ++ rowsAbove block log) ++ rowsUpTo block log ∧
      (∀ row ∈ places items ++ rowsAbove block log,
        decide (row.block ≤ min s.block block) = false) ∧
      ∀ row ∈ rowsUpTo block log, decide (row.block ≤ min s.block block) = true := by
  have whole := rowsAbove_append_rowsUpTo block log
  refine ⟨by rw [List.append_assoc, whole], ?_, ?_⟩
  · intro row member
    apply decide_eq_false
    rcases List.mem_append.1 member with inPlaces | isAbove
    · have := tracks.block_of_mem_places inPlaces
      omega
    · have := block_lt_of_mem_rowsAbove isAbove
      omega
  · intro row member
    have inLog : row ∈ log := by
      rw [← whole]
      exact List.mem_append_right _ member
    have low := block_le_of_mem_rowsUpTo tracks.sorted member
    have := tracks.blocks_le row inLog
    exact decide_eq_true (by omega)

/-- The operations on assets leave entities whose first position names them. -/
theorem Supplied.followsOwnChain (supplied : Supplied log items issues) (tracks : s.Tracks log items)
    (originalTxid : Bytes) : s.FollowsOwnChain originalTxid := by
  have notZero : EntityKey.txid originalTxid false ≠ .zero := fun impossible => by cases impossible
  intro genesis found negative
  rw [Option.mem_def] at found
  rcases tracks.getEntity_cases notZero with ⟨-, row, inLog, own, answer⟩ |
    ⟨-, item, member, own, answer⟩ | ⟨-, -, answer⟩
  · rw [found] at answer
    obtain rfl := Option.some.inj answer
    have atStart := tracks.rows.firstPos_of_entity inLog (EntityRow.isFollowOn_of_mem_ownKeys own)
    have placed := (tracks.rows.place_of_mem inLog).1
    have positive : 0 < entityTotalSize := entityShape.base_pos
    change row.firstPos < 0 at negative
    omega
  · rw [found] at answer
    obtain rfl := Option.some.inj answer
    obtain ⟨newer, older, split⟩ := List.append_of_mem member
    have isTxid := (tracks.forecast.of_split split).waits_head.isTxid
    have atHead := tracks.rows_getElem? split (rowID_head isTxid)
    rw [Nat.add_zero] at atHead
    rw [supplied.namesOwn newer item older split (EntityRow.isFollowOn_of_mem_ownKeys own)]
    obtain ⟨live, atRow⟩ := List.getElem?_eq_some_iff.1 atHead
    rw [RowBuffer.getRow_eq_rows_getElem _ live, atRow]
  · rw [found] at answer
    cases answer

/-- An operation on assets changes the issues as it changes the store. -/
theorem Supplied.callOutcome (supplied : Supplied log items issues) (tracks : s.Tracks log items)
    {call : EntityCall} (ofAssets : s.AssetCall call) {err : Option McError}
    (ended : s.callOutcome call = .ended err next) :
    ∃ newLog newItems, next.Tracks newLog newItems ∧
      Supplied newLog newItems (s.issuesAfterCall err issues call) := by
  cases call with
  | insertEntity => exact ofAssets.elim
  | insertAsset txid offset quantity name multiple script specialScript updateMemPool =>
      obtain ⟨item, isNew, named, inserts⟩ := tracks.insertAsset ended
      apply supplied.inserts tracks inserts
      intro nextTracks block
      rw [tracks.count_eq] at named
      have added := supplied.addEntity nextTracks isNew.key
        (by rw [isNew.quantity]; exact ofAssets) named
      rw [isNew.quantity, block] at added
      exact added
  | insertAssetFollowOn txid offset quantity script specialScript originalTxid updateMemPool =>
      change ∃ newLog newItems, next.Tracks newLog newItems ∧ Supplied newLog newItems
        (if err = none ∧ updateMemPool = true then ⟨originalTxid, quantity, s.block + 1⟩ :: issues
          else issues)
      rcases tracks.insertAssetFollowOn (supplied.followsOwnChain tracks originalTxid) ended with
        ⟨refused, rfl⟩ | ⟨found, item, foundEq, inRange, key, quantityEq, placeOf, inserts⟩
      · rw [if_neg fun both => refused both.1]
        exact ⟨log, items, tracks, supplied⟩
      · apply supplied.inserts tracks inserts
        intro nextTracks block
        obtain ⟨genesis, inRows, isEntity, txidEq, firstPos⟩ := tracks.exists_placeOf placeOf
        obtain ⟨totalEq, nonneg, bounded, sumEq⟩ := supplied.getTotalQuantity_eq tracks placeOf
        have isFollowOn : item.row.isFollowOn = true := by
          unfold EntityRow.isFollowOn
          rw [key]
          rfl
        rw [totalEq, sum_of_addInt64_nonneg nonneg bounded ofAssets.1 ofAssets.2, sumEq, firstPos]
          at inRange
        have added := supplied.addItem nextTracks (List.mem_cons_of_mem _ inRows) firstPos
          (by rw [quantityEq, add_comm]; exact not_not.1 inRange)
          (fun isEntity => by rw [isFollowOn] at isEntity; cases isEntity)
        rw [quantityEq, block, txidEq, tracks.txid_of_getEntity foundEq] at added
        exact added
  | clearMemPool =>
      obtain ⟨cleared, -, -⟩ := tracks.clearMemPool
      injection ended with _ nextEq
      rw [← nextEq]
      refine ⟨log, [], cleared, ?_⟩
      change Supplied log [] (issues.filter fun issue => decide (issue.block ≤ s.block))
      rw [supplied.issues_eq, filter_issuesOf fun block => decide (block ≤ s.block)]
      · exact supplied.of_suffix (List.suffix_append _ _)
      · intro row member
        have := tracks.block_of_mem_places member
        exact decide_eq_false (by omega)
      · exact fun row member => decide_eq_true (tracks.blocks_le row member)
  | commit =>
      obtain ⟨committed, commitEq, nextTracks, -, -⟩ := tracks.commit ofAssets
      change s.commit = .ended err next at ended
      rw [commitEq] at ended
      injection ended with _ nextEq
      rw [← nextEq]
      refine ⟨_, [], nextTracks, ?_⟩
      change Supplied _ [] issues
      rw [supplied.issues_eq]
      exact supplied.of_suffix (List.suffix_refl _)
  | rollBack block =>
      change s.rollBack block = .ended err next at ended
      rcases tracks.rollBack block with ⟨fault, -⟩ | ⟨kept, rollEq, -, nextTracks, -, -⟩
      · rw [fault] at ended
        cases ended
      · rw [rollEq] at ended
        injection ended with _ nextEq
        rw [← nextEq]
        refine ⟨_, [], nextTracks, ?_⟩
        obtain ⟨split, removed, stays⟩ := tracks.blocks_split block
        change Supplied _ [] (issues.filter fun issue => decide (issue.block ≤ min s.block block))
        rw [supplied.issues_eq, split,
          filter_issuesOf (fun other => decide (other ≤ min s.block block)) removed stays]
        exact supplied.of_suffix (by rw [split]; exact List.suffix_append _ _)

/-- An asset that a query finds has a place. -/
theorem Supplied.exists_placeOf (supplied : Supplied log items issues) (tracks : s.Tracks log items)
    {key : EntityKey} (notZero : key ≠ .zero) {asset : EntityRow}
    (found : s.getEntity key = some asset) (isEntity : asset.isFollowOn = false) :
    ∃ place, PlaceOf log items asset place := by
  rcases tracks.getEntity_cases notZero with ⟨-, row, inLog, own, answer⟩ |
    ⟨-, item, member, own, answer⟩ | ⟨-, -, answer⟩
  · rw [found] at answer
    obtain rfl := Option.some.inj answer
    exact ⟨_, .inl ⟨row, inLog, isEntity, rfl, rfl⟩⟩
  · rw [found] at answer
    obtain rfl := Option.some.inj answer
    obtain ⟨newer, older, split⟩ := List.append_of_mem member
    exact ⟨_, .inr ⟨newer, item, older, split, isEntity, rfl, rfl,
      supplied.namesOwn newer item older split isEntity⟩⟩
  · rw [found] at answer
    cases answer

theorem insertAssetFollowOn_outside {asset : EntityRow} {originalTxid : Bytes}
    (found : s.getEntity (.txid originalTxid false) = some asset) {quantity : Int}
    (outside : addInt64 (s.getTotalQuantity asset) quantity < 0) (txid : Bytes) (offset : Int)
    (script specialScript : Bytes) (updateMemPool : Bool) :
    ∃ err, s.insertAssetFollowOn txid offset quantity script specialScript originalTxid
      updateMemPool = .ended (some err) s := by
  unfold AssetDB.insertAssetFollowOn
  rw [found]
  dsimp only
  cases followOnsError asset.script with
  | some err => exact ⟨err, rfl⟩
  | none => exact ⟨_, if_pos outside⟩

/-- The totals of all assets are exact signed 64-bit numbers, and no follow-on can take them
out of range. -/
def SupplyHolds (s : AssetDB) (issues : List Issue) : Prop :=
  ∀ key asset, key ≠ .zero → s.getEntity key = some asset → asset.isFollowOn = false →
    asset.entityType = mcEntTypeAsset →
    s.getTotalQuantity asset = issued issues asset.txid ∧ 0 ≤ issued issues asset.txid ∧
      issued issues asset.txid < 2 ^ 63 ∧
      ∀ txid offset quantity script specialScript originalTxid updateMemPool,
        s.getEntity (.txid originalTxid false) = some asset →
        -2 ^ 63 ≤ quantity → quantity < 2 ^ 63 →
        ¬ (0 ≤ issued issues asset.txid + quantity ∧
          issued issues asset.txid + quantity < 2 ^ 63) →
        ∃ err, s.insertAssetFollowOn txid offset quantity script specialScript originalTxid
          updateMemPool = .ended (some err) s

theorem Supplied.supplyHolds (supplied : Supplied log items issues)
    (tracks : s.Tracks log items) : s.SupplyHolds issues := by
  intro key asset notZero found isEntity _
  obtain ⟨place, placeOf⟩ := supplied.exists_placeOf tracks notZero found isEntity
  obtain ⟨totalEq, nonneg, bounded, -⟩ := supplied.getTotalQuantity_eq tracks placeOf
  refine ⟨totalEq, nonneg, bounded, ?_⟩
  intro txid offset quantity script specialScript originalTxid updateMemPool original low high
    outside
  refine insertAssetFollowOn_outside original ?_ txid offset script specialScript updateMemPool
  rw [totalEq]
  exact (sum_of_addInt64_nonneg nonneg bounded low high).2 outside

/-- Every run of operations on assets keeps the issues and the store in step. -/
theorem Supplied.after (supplied : Supplied log items issues) (tracks : s.Tracks log items)
    {calls : List EntityCall} (ofAssets : s.Along AssetCall calls)
    (reached : s.after calls = some next) :
    ∃ newLog newItems, next.Tracks newLog newItems ∧
      Supplied newLog newItems (s.issuesAfter issues calls) := by
  induction calls generalizing s log items issues with
  | nil => exact ⟨log, items, Option.some.inj reached ▸ ⟨tracks, supplied⟩⟩
  | cons call calls ih =>
      obtain ⟨ofAssetsCall, ofAssetsRest⟩ := ofAssets
      rw [after_cons] at reached
      unfold issuesAfter
      cases ended : s.callOutcome call with
      | fault =>
          rw [ended] at reached
          cases reached
      | ended err middle =>
          rw [ended] at reached ofAssetsRest
          obtain ⟨middleLog, middleItems, middleTracks, middleSupplied⟩ :=
            supplied.callOutcome tracks ofAssetsCall ended
          exact ih middleSupplied middleTracks ofAssetsRest reached

/-- A confirmed asset with a follow-on that a rollback takes back, and two waiting follow-ons. -/
def followedAssetRun : List EntityCall :=
  let asset := List.replicate 32 1
  [.insertAsset asset 81 5 [] 1 (specialParamValue mcEntSprmFollowOns [1]) [] true, .commit,
    .insertAssetFollowOn (List.replicate 32 2) 81 6 [] [] asset true, .commit, .rollBack 0,
    .insertAssetFollowOn (List.replicate 32 3) 81 7 [] [] asset true,
    .insertAssetFollowOn (List.replicate 32 4) 281 8 [] [] asset true]

end AssetDB

end HdacNode
