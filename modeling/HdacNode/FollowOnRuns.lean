import HdacNode.FollowOnLists

/-!
# Lists of follow-ons over runs

The calls of a run insert entities and follow-ons, and clearing the memory pool
and rolling back take insertions back.  In every store that a careful run reaches
`GetFollowOns` lists the insertions of an entity, newest first.
-/

namespace HdacNode

/-- What a call has inserted: a transaction of the entity with a transaction id, in a block. -/
structure Insertion where
  genesis : Bytes
  txid : Bytes
  block : Int
  deriving DecidableEq, Repr

/-- The transaction ids of the insertions of an entity. -/
def insertedTxids (insertions : List Insertion) (genesis : Bytes) : List Bytes :=
  (insertions.filter fun insertion => insertion.genesis = genesis).map Insertion.txid

/-- The insertions that the rows of a log stand for. -/
def insertionsOf : List EntityRow → List Insertion
  | [] => []
  | row :: log => ⟨genesisTxid (row :: log) row.firstPos, row.txid, row.block⟩ :: insertionsOf log

theorem insertionsOf_cons (row : EntityRow) (log : List EntityRow) :
    insertionsOf (row :: log) =
      ⟨genesisTxid (row :: log) row.firstPos, row.txid, row.block⟩ :: insertionsOf log :=
  rfl

section Logs

variable {log : List EntityRow} {row genesis : EntityRow}

theorem insertedTxids_insertionsOf {newer : List EntityRow} (rows : EntityLog (newer ++ log))
    (distinct : DistinctKeys (fun key => key.isTxid = true) (newer ++ log))
    (inRows : genesis ∈ newer ++ log) (isEntity : genesis.isFollowOn = false) :
    insertedTxids (insertionsOf log) genesis.txid = chainTxids log genesis.chainPos := by
  induction log generalizing newer with
  | nil => rfl
  | cons row log ih =>
      have whole : newer ++ row :: log = (newer ++ [row]) ++ log := by
        rw [List.append_assoc]
        rfl
      have older := ih (whole ▸ rows) (whole ▸ distinct) (whole ▸ inRows)
      have belongs := genesisTxid_eq_iff rows distinct inRows isEntity
      unfold insertedTxids at older ⊢
      rw [insertionsOf_cons, List.filter_cons, chainTxids_cons]
      dsimp only
      by_cases ofChain : row.firstPos = genesis.chainPos
      · rw [if_pos (decide_eq_true (belongs.2 ofChain)), if_pos ofChain, List.map_cons, older]
      · rw [if_neg (by simpa using mt belongs.1 ofChain), if_neg ofChain, older]

theorem filter_insertionsOf (keep : Int → Bool) {newer : List EntityRow}
    (dropped : ∀ row ∈ newer, keep row.block = false) (kept : ∀ row ∈ log, keep row.block = true) :
    (insertionsOf (newer ++ log)).filter (fun insertion => keep insertion.block) =
      insertionsOf log :=
  filter_history insertionsOf Insertion.block rfl (fun _ _ => ⟨_, rfl, rfl⟩) keep dropped kept

end Logs

section Chains

variable {log : List EntityRow} {genesis : EntityRow}

theorem EntityRow.key_eq_followOn {row : EntityRow} (isFollowOn : row.isFollowOn = true) :
    row.key = .txid row.txid true := by
  unfold EntityRow.isFollowOn at isFollowOn
  unfold EntityRow.txid
  cases keyEq : row.key with
  | txid txid flag =>
      rw [keyEq] at isFollowOn
      change flag = true at isFollowOn
      rw [isFollowOn]
  | _ =>
      rw [keyEq] at isFollowOn
      cases isFollowOn

/-- The chain of an entity ends with the entity, behind follow-ons with different transaction
ids. -/
theorem chainTxids_shape (rows : EntityLog log)
    (distinct : DistinctKeys (fun key => key.isTxid = true) log) (inLog : genesis ∈ log)
    (isEntity : genesis.isFollowOn = false) :
    ∃ followOns, chainTxids log genesis.chainPos = followOns ++ [genesis.txid] ∧
      followOns.Nodup ∧ (followOns ≠ [] ↔
        ∃ row ∈ log, row.isFollowOn = true ∧ row.firstPos = genesis.chainPos) := by
  obtain ⟨newer, older, rfl⟩ := List.append_of_mem inLog
  have current := rows.of_append
  have ownFirst := current.firstPos_of_entity (List.mem_cons_self ..) isEntity
  have none : chainTxids older genesis.chainPos = [] := by
    apply chainTxids_eq_nil
    intro other member
    have before := current.tail.firstPos_lt_endPos member
    have behind := current.chainPos_head
    omega
  have followOns : ∀ row ∈ newer, row.firstPos = genesis.chainPos → row.isFollowOn = true := by
    intro row member same
    cases followOn : row.isFollowOn with
    | true => rfl
    | false =>
        have inRows : row ∈ newer ++ genesis :: older := List.mem_append_left _ member
        have equal := rows.chainPos_injective inRows inLog
          ((rows.firstPos_of_entity inRows followOn).symm.trans same)
        have nodup := rows.nodup
        rw [List.nodup_append] at nodup
        exact absurd equal (nodup.2.2 row member genesis (List.mem_cons_self ..))
  refine ⟨chainTxids newer genesis.chainPos, ?_, ?_, ?_⟩
  · rw [chainTxids_append, chainTxids_cons, if_pos ownFirst, none]
  · have nodup := (List.nodup_append.1 rows.nodup).1
    unfold chainTxids
    apply List.Nodup.map_on _ (nodup.filter _)
    intro first inFirst second inSecond same
    rw [List.mem_filter, decide_eq_true_eq] at inFirst inSecond
    have firstKey := EntityRow.key_eq_followOn (followOns first inFirst.1 inFirst.2)
    have secondKey := EntityRow.key_eq_followOn (followOns second inSecond.1 inSecond.2)
    have firstIn : first ∈ newer ++ genesis :: older := List.mem_append_left _ inFirst.1
    have secondIn : second ∈ newer ++ genesis :: older := List.mem_append_left _ inSecond.1
    have isTxid := rows.isTxid_of_mem firstIn
    have sameKey : first.key = second.key := by
      rw [firstKey, secondKey, same]
    exact distinct first firstIn second secondIn first.key (EntityRow.key_mem_ownKeys isTxid)
      (sameKey ▸ EntityRow.key_mem_ownKeys (rows.isTxid_of_mem secondIn)) isTxid
  · unfold chainTxids
    rw [Ne, List.map_eq_nil_iff, List.filter_eq_nil_iff]
    push Not
    constructor
    · rintro ⟨row, member, same⟩
      have firstPos := of_decide_eq_true same
      exact ⟨row, List.mem_append_left _ member, followOns row member firstPos, firstPos⟩
    · rintro ⟨row, member, isFollowOn, firstPos⟩
      rcases List.mem_append.1 member with inNewer | inCurrent
      · exact ⟨row, inNewer, decide_eq_true firstPos⟩
      · rcases List.mem_cons.1 inCurrent with rfl | inOlder
        · rw [isFollowOn] at isEntity
          cases isEntity
        · have before := current.tail.firstPos_lt_endPos inOlder
          have behind := current.chainPos_head
          omega

end Chains

namespace AssetDB

/-- The insertions after a call. -/
def insertionsAfterCall (s : AssetDB) (err : Option McError) (insertions : List Insertion) :
    EntityCall → List Insertion
  | .insertEntity txid _ _ _ _ updateMemPool =>
      if err = none ∧ updateMemPool = true then ⟨txid, txid, s.block + 1⟩ :: insertions
      else insertions
  | .insertAsset txid _ _ _ _ _ _ updateMemPool =>
      if err = none ∧ updateMemPool = true then ⟨txid, txid, s.block + 1⟩ :: insertions
      else insertions
  | .insertAssetFollowOn txid _ _ _ _ originalTxid updateMemPool =>
      if err = none ∧ updateMemPool = true then ⟨originalTxid, txid, s.block + 1⟩ :: insertions
      else insertions
  | .clearMemPool => insertions.filter fun insertion => decide (insertion.block ≤ s.block)
  | .commit => insertions
  | .rollBack block =>
      insertions.filter fun insertion => decide (insertion.block ≤ min s.block block)

/-- The insertions after a run. -/
def insertionsAfter (s : AssetDB) (insertions : List Insertion) : List EntityCall → List Insertion
  | [] => insertions
  | call :: calls =>
      match s.callOutcome call with
      | .fault => insertions
      | .ended err next => next.insertionsAfter (s.insertionsAfterCall err insertions call) calls

/-- Assets are inserted by `InsertAsset` only. -/
def TypedCall (_ : AssetDB) : EntityCall → Prop
  | .insertEntity _ _ entityType _ _ _ => entityType ≠ mcEntTypeAsset
  | _ => True

instance (s : AssetDB) : ∀ call, Decidable (s.TypedCall call)
  | .insertEntity _ _ entityType _ _ _ => inferInstanceAs (Decidable (entityType ≠ mcEntTypeAsset))
  | .insertAsset .. => isTrue trivial
  | .insertAssetFollowOn .. => isTrue trivial
  | .clearMemPool => isTrue trivial
  | .commit => isTrue trivial
  | .rollBack _ => isTrue trivial

/-- The insertions are those of the ledger and of the memory pool, and every waiting asset names
its own row. -/
structure Lists (log : List EntityRow) (items : List EntityItem) (insertions : List Insertion) :
    Prop where
  insertions_eq : insertions = insertionsOf (places items ++ log)
  names : ∀ newer item older, items = newer ++ item :: older → item.row.isFollowOn = false →
    item.row.entityType = mcEntTypeAsset → entityID item.row = (poolRows older).length

theorem lists_nil : Lists [] [] [] where
  insertions_eq := rfl
  names := fun newer item older split => by simp at split

variable {s next : AssetDB} {log : List EntityRow} {items : List EntityItem}
  {insertions : List Insertion} {item : EntityItem}

/-- An insertion that adds its item is listed. -/
theorem Lists.inserts (lists : Lists log items insertions) (tracks : s.Tracks log items)
    {updateMemPool : Bool} {err : Option McError}
    (inserts : s.Inserts next log items item updateMemPool err) {genesis txid : Bytes}
    (key : item.row.txid = txid)
    (ofGenesis : next.Tracks log (item :: items) →
      genesisTxid (item.place :: (places items ++ log)) item.place.firstPos = genesis)
    (names : item.row.isFollowOn = false → item.row.entityType = mcEntTypeAsset →
      entityID item.row = (poolRows items).length) :
    ∃ newLog newItems, next.Tracks newLog newItems ∧ Lists newLog newItems
      (if err = none ∧ updateMemPool = true then ⟨genesis, txid, s.block + 1⟩ :: insertions
        else insertions) := by
  rcases inserts with ⟨rfl, rfl⟩ | ⟨rfl, -, ⟨rfl, rfl⟩ | ⟨rfl, -, sameBlock, nextTracks⟩⟩
  · rw [if_neg fun both => by cases both.1]
    exact ⟨log, items, tracks, lists⟩
  · rw [if_neg fun both => by cases both.2]
    exact ⟨log, items, tracks, lists⟩
  · rw [if_pos ⟨rfl, rfl⟩]
    refine ⟨log, item :: items, nextTracks, ?_, ?_⟩
    swap
    · intro newer other older split isEntity isAsset
      cases newer with
      | nil =>
          obtain ⟨rfl, rfl⟩ := List.cons.inj split
          exact names isEntity isAsset
      | cons head newer =>
          obtain ⟨rfl, rest⟩ := List.cons.inj split
          exact lists.names newer other older rest isEntity isAsset
    have inBlock := nextTracks.forecast.waits_head.inBlock
    rw [sameBlock] at inBlock
    obtain ⟨startPos, lastPos, placeEq⟩ := nextTracks.forecast.place_head
    have block : item.place.block = s.block + 1 := by
      rw [placeEq]
      exact inBlock
    have placeTxid : item.place.txid = txid := by
      rw [placeEq]
      exact key
    change _ = insertionsOf (item.place :: (places items ++ log))
    rw [insertionsOf_cons, ofGenesis nextTracks, placeTxid, block]
    exact congrArg _ lists.insertions_eq

theorem genesisTxid_of_entity (tracks : next.Tracks log (item :: items)) {txid : Bytes}
    (key : item.row.key = .txid txid false) :
    genesisTxid (item.place :: (places items ++ log)) item.place.firstPos = txid := by
  have rows := tracks.forecast.entityLog tracks.rows
  change EntityLog (item.place :: (places items ++ log)) at rows
  obtain ⟨placeEntity, placeTxid⟩ := tracks.forecast.entity_head key
  rw [rows.firstPos_of_entity (List.mem_cons_self ..) placeEntity,
    genesisTxid_eq rows (List.mem_cons_self ..), placeTxid]

theorem txid_of_key {row : EntityRow} {txid : Bytes} {followOn : Bool}
    (key : row.key = .txid txid followOn) : row.txid = txid := by
  unfold EntityRow.txid
  rw [key]

/-- A call of a careful run changes the insertions as it changes the store. -/
theorem Lists.callOutcome (lists : Lists log items insertions) (tracks : s.Tracks log items)
    {call : EntityCall} (careful : s.CarefulCall call) (typed : s.TypedCall call)
    {err : Option McError} (ended : s.callOutcome call = .ended err next) :
    ∃ newLog newItems, next.Tracks newLog newItems ∧
      Lists newLog newItems (s.insertionsAfterCall err insertions call) := by
  cases call with
  | insertEntity txid offset entityType script specialScript updateMemPool =>
      rcases tracks.insertEntity ended with ⟨rfl, rfl, -⟩ |
        ⟨item, _, -, isNew, inserts⟩
      · refine ⟨log, items, tracks, ?_⟩
        unfold insertionsAfterCall
        dsimp only
        rw [if_neg fun both => by cases both.1]
        exact lists
      · apply lists.inserts tracks inserts (txid_of_key isNew.key)
        · intro nextTracks
          exact genesisTxid_of_entity nextTracks isNew.key
        · intro _ isAsset
          rw [isNew.entityType] at isAsset
          exact absurd isAsset typed
  | insertAsset txid offset quantity name multiple script specialScript updateMemPool =>
      obtain ⟨item, isNew, named, inserts⟩ := tracks.insertAsset ended
      apply lists.inserts tracks inserts (txid_of_key isNew.key)
      · intro nextTracks
        exact genesisTxid_of_entity nextTracks isNew.key
      · intro _ _
        rw [named, tracks.count_eq]
  | insertAssetFollowOn txid offset quantity script specialScript originalTxid updateMemPool =>
      rcases tracks.insertAssetFollowOn careful ended with ⟨refused, rfl⟩ |
        ⟨found, item, foundEq, -, key, -, placeOf, inserts⟩
      · refine ⟨log, items, tracks, ?_⟩
        unfold insertionsAfterCall
        dsimp only
        rw [if_neg fun both => refused both.1]
        exact lists
      · apply lists.inserts tracks inserts (txid_of_key key)
        · intro nextTracks
          have rows := nextTracks.forecast.entityLog nextTracks.rows
          change EntityLog (item.place :: (places items ++ log)) at rows
          obtain ⟨genesis, inRows, isEntity, txidEq, firstPos⟩ := tracks.exists_placeOf placeOf
          rw [firstPos, genesisTxid_eq rows (List.mem_cons_of_mem _ inRows), txidEq,
            tracks.txid_of_getEntity foundEq]
        · intro isEntity
          unfold EntityRow.isFollowOn at isEntity
          rw [key] at isEntity
          cases isEntity
  | clearMemPool =>
      obtain ⟨cleared, -, -⟩ := tracks.clearMemPool
      injection ended with _ nextEq
      rw [← nextEq]
      refine ⟨log, [], cleared, ?_, fun newer item older split => by simp at split⟩
      change insertions.filter (fun insertion => decide (insertion.block ≤ s.block)) =
        insertionsOf log
      rw [lists.insertions_eq, filter_insertionsOf fun block => decide (block ≤ s.block)]
      · intro row member
        have := tracks.block_of_mem_places member
        exact decide_eq_false (by omega)
      · intro row member
        exact decide_eq_true (tracks.blocks_le row member)
  | commit =>
      obtain ⟨committed, commitEq, nextTracks, -, -⟩ := tracks.commit careful
      change s.commit = .ended err next at ended
      rw [commitEq] at ended
      injection ended with _ nextEq
      rw [← nextEq]
      refine ⟨_, [], nextTracks, lists.insertions_eq, ?_⟩
      intro newer item older split
      simp at split
  | rollBack block =>
      change s.rollBack block = .ended err next at ended
      rcases tracks.rollBack block with ⟨fault, -⟩ | ⟨kept, rollEq, -, nextTracks, -, -⟩
      · rw [fault] at ended
        cases ended
      · rw [rollEq] at ended
        injection ended with _ nextEq
        rw [← nextEq]
        refine ⟨_, [], nextTracks, ?_, fun newer item older split => by simp at split⟩
        obtain ⟨split, removed, stays⟩ := tracks.blocks_split block
        change insertions.filter (fun insertion =>
          decide (insertion.block ≤ min s.block block)) = insertionsOf (rowsUpTo block log)
        rw [lists.insertions_eq, split,
          filter_insertionsOf (fun other => decide (other ≤ min s.block block)) removed stays]

/-- Every careful run keeps the insertions and the store in step. -/
theorem Lists.after (lists : Lists log items insertions) (tracks : s.Tracks log items)
    {calls : List EntityCall} (careful : s.Along CarefulCall calls)
    (typed : s.Along TypedCall calls) (reached : s.after calls = some next) :
    ∃ newLog newItems, next.Tracks newLog newItems ∧
      Lists newLog newItems (s.insertionsAfter insertions calls) := by
  induction calls generalizing s log items insertions with
  | nil => exact ⟨log, items, Option.some.inj reached ▸ ⟨tracks, lists⟩⟩
  | cons call calls ih =>
      obtain ⟨carefulCall, carefulRest⟩ := careful
      obtain ⟨typedCall, typedRest⟩ := typed
      rw [after_cons] at reached
      unfold insertionsAfter
      cases ended : s.callOutcome call with
      | fault =>
          rw [ended] at reached
          cases reached
      | ended err middle =>
          rw [ended] at reached carefulRest typedRest
          obtain ⟨middleLog, middleItems, middleTracks, middleLists⟩ :=
            lists.callOutcome tracks carefulCall typedCall ended
          exact ih middleLists middleTracks carefulRest typedRest reached

/-- `GetFollowOns` lists the chain of an entity. -/
theorem Tracks.getFollowOns_eq (tracks : s.Tracks log items) {txid : Bytes} {found : EntityRow}
    {place : Int} (isFound : s.getEntity (.txid txid false) = some found)
    (placeOf : PlaceOf log items found place)
    (alone : ∀ item ∈ items, item.row.isFollowOn = false →
      item.row.firstPos = found.firstPos → item.row.key = found.key)
    (some : chainTxids (places items ++ log) place ≠ []) :
    s.getFollowOns txid = .some (chainTxids (places items ++ log) place) := by
  have positive : 0 < entityTotalSize := entityShape.base_pos
  unfold getFollowOns
  rw [isFound]
  dsimp only
  rcases placeOf with ⟨genesis, inLog, isEntity, rfl, rfl⟩ |
    ⟨newer, own, older, split, isEntity, rfl, rfl, named⟩
  · have ownFirst := tracks.rows.firstPos_of_entity inLog isEntity
    obtain ⟨last, lastIn, lastEq⟩ := tracks.rows.exists_chainEnd inLog isEntity
    have lastPlace := tracks.rows.place_of_mem lastIn
    have ends : 0 < chainEnd log genesis.chainPos := by omega
    dsimp only
    rw [ownFirst, tracks.memPoolFollowOns_eq (tracks.ofChain_log inLog), if_pos ends,
      ledgerFollowOns_eq tracks.rows (fun row member => tracks.ledgerRowAt_eq member) inLog isEntity
        (Nat.lt_succ_self _), ← chainTxids_append, if_neg some]
  · have ownMember : own ∈ items := by
      rw [split]
      exact List.mem_append_right _ (List.mem_cons_self ..)
    have unplaced := (tracks.forecast.waits_of_mem ownMember).unplaced
    have current := tracks.forecast.of_split split
    have behind := current.endPos_le_place tracks.rows
    have none : chainTxids log own.place.chainPos = [] := by
      apply chainTxids_eq_nil
      intro row member
      have before := tracks.rows.firstPos_lt_endPos member
      omega
    have aloneItem : ∀ item ∈ items, item.row.isFollowOn = false →
        item.row.firstPos = own.row.firstPos → item = own := by
      intro item member itemEntity same
      exact tracks.item_eq_of_key member ownMember (alone item member itemEntity same)
    have notPlaced : ¬ 0 < own.row.chainPos := by omega
    rw [tracks.memPoolFollowOns_eq (tracks.ofChain_item split isEntity named aloneItem),
      if_neg notPlaced]
    rw [chainTxids_append, none, List.append_nil] at some ⊢
    rw [if_neg some]

/-- A confirmed entity and every waiting asset have a place. -/
theorem Lists.exists_placeOf (lists : Lists log items insertions) (tracks : s.Tracks log items)
    {txid : Bytes} {found : EntityRow} (isFound : s.getEntity (.txid txid false) = some found)
    (placed : found.entityType = mcEntTypeAsset ∨ 0 ≤ found.firstPos) :
    ∃ place, PlaceOf log items found place := by
  have notZero : EntityKey.txid txid false ≠ .zero := fun impossible => by cases impossible
  rcases tracks.getEntity_cases notZero with ⟨-, row, inLog, own, answer⟩ |
    ⟨-, item, member, own, answer⟩ | ⟨-, -, answer⟩
  · rw [isFound] at answer
    obtain rfl := Option.some.inj answer
    exact ⟨_, .inl ⟨row, inLog, EntityRow.isFollowOn_of_mem_ownKeys own, rfl, rfl⟩⟩
  · rw [isFound] at answer
    obtain rfl := Option.some.inj answer
    obtain ⟨newer, older, split⟩ := List.append_of_mem member
    have isEntity := EntityRow.isFollowOn_of_mem_ownKeys own
    have current := tracks.forecast.of_split split
    have negative := (current.named_head isEntity).1
    rcases placed with isAsset | nonneg
    · exact ⟨_, .inr ⟨newer, item, older, split, isEntity, rfl, rfl,
        lists.names newer item older split isEntity isAsset⟩⟩
    · omega
  · rw [isFound] at answer
    cases answer

/-- No other waiting entity has the first position of this one. -/
def AloneAtFirstPos (s : AssetDB) (found : EntityRow) : Prop :=
  ∀ memRow ∈ s.memPool.rows, memRow.key.isTxid = true → memRow.isFollowOn = false →
    memRow.firstPos = found.firstPos → memRow.key = found.key

instance (s : AssetDB) (found : EntityRow) : Decidable (s.AloneAtFirstPos found) :=
  inferInstanceAs (Decidable (∀ memRow ∈ s.memPool.rows, _))

/-- In every store that a careful run reaches `GetFollowOns` lists the insertions of an asset, and
of every entity of the ledger, newest first: the follow-ons with different transaction ids and the
entity behind them.  `HasFollowOns` tells whether there is more than the entity. -/
theorem followOns_are_exact (calls : List EntityCall) (s : AssetDB)
    (reached : initial.after calls = some s) (careful : initial.Along CarefulCall calls)
    (typed : initial.Along TypedCall calls) (txid : Bytes) (found : EntityRow)
    (isFound : s.getEntity (.txid txid false) = some found)
    (placed : found.entityType = mcEntTypeAsset ∨ 0 ≤ found.firstPos)
    (alone : s.AloneAtFirstPos found) :
    s.getFollowOns txid = some (insertedTxids (initial.insertionsAfter [] calls) txid) ∧
      (∃ followOns, insertedTxids (initial.insertionsAfter [] calls) txid = followOns ++ [txid] ∧
        followOns.Nodup) ∧
      (s.hasFollowOns txid = true ↔
        1 < (insertedTxids (initial.insertionsAfter [] calls) txid).length) := by
  obtain ⟨log, items, tracks, lists⟩ := lists_nil.after tracks_initial careful typed reached
  obtain ⟨place, placeOf⟩ := lists.exists_placeOf tracks isFound placed
  have aloneItem : ∀ item ∈ items, item.row.isFollowOn = false →
      item.row.firstPos = found.firstPos → item.row.key = found.key := by
    intro item member isEntity same
    have isTxid := (tracks.forecast.waits_of_mem member).isTxid
    apply alone item.row _ isTxid isEntity same
    rw [tracks.poolEq, mem_poolRows]
    exact ⟨item, member, item.row.key, EntityRow.key_mem_ownKeys isTxid, rfl⟩
  obtain ⟨genesis, inRows, isEntity, txidEq, rfl⟩ := tracks.exists_placeOf placeOf
  have rows := tracks.forecast.entityLog tracks.rows
  have distinct := tracks.fresh.distinctKeys tracks.forecast tracks.txids
  have genesisTxid : genesis.txid = txid := txidEq.trans (tracks.txid_of_getEntity isFound)
  have listed : insertedTxids (initial.insertionsAfter [] calls) txid =
      chainTxids (places items ++ log) genesis.chainPos := by
    rw [lists.insertions_eq, ← genesisTxid]
    exact @insertedTxids_insertionsOf _ _ [] rows distinct inRows isEntity
  obtain ⟨followOns, shape, nodup, some⟩ := chainTxids_shape rows distinct inRows isEntity
  rw [listed]
  refine ⟨tracks.getFollowOns_eq isFound placeOf aloneItem (by rw [shape]; simp), ?_, ?_⟩
  · rw [← genesisTxid]
    exact ⟨followOns, shape, nodup⟩
  · rw [tracks.hasFollowOns_iff isFound placeOf aloneItem, ← some, shape, List.length_append,
      List.length_singleton, ← List.length_pos_iff]
    omega

/-- An unconfirmed asset, and a follow-on of it. -/
def followedAsset : List EntityCall :=
  [.insertAsset (List.replicate 32 1) 81 5 [] 1 (specialParamValue mcEntSprmFollowOns [1]) [] true,
    .insertAssetFollowOn (List.replicate 32 3) 281 7 [] [] (List.replicate 32 1) true]

theorem followOns_are_exact_followedAsset :
    ∃ s, initial.after followedAsset = some s ∧
      s.getFollowOns (List.replicate 32 1) = some (insertedTxids
        (initial.insertionsAfter [] followedAsset) (List.replicate 32 1)) ∧
      (s.hasFollowOns (List.replicate 32 1) = true ↔
        1 < (insertedTxids (initial.insertionsAfter [] followedAsset)
          (List.replicate 32 1)).length) := by
  have checks : ((initial.after followedAsset).bind fun s =>
      (s.getEntity (.txid (List.replicate 32 1) false)).map fun found =>
        decide (found.entityType = mcEntTypeAsset ∧ s.AloneAtFirstPos found)) = some true := by
    decide +kernel
  obtain ⟨s, reached, checks⟩ := Option.bind_eq_some_iff.1 checks
  obtain ⟨found, isFound, checks⟩ := Option.map_eq_some_iff.1 checks
  obtain ⟨isAsset, alone⟩ := of_decide_eq_true checks
  have exact := followOns_are_exact followedAsset s reached (by decide +kernel) (by decide +kernel)
    (List.replicate 32 1) found isFound (Or.inl isAsset) alone
  exact ⟨s, reached, exact.1, exact.2.2⟩

/-- The follow-on, which is issued last, comes first. -/
theorem followOns_newest_first :
    ((initial.after followedAsset).bind fun s => s.getFollowOns (List.replicate 32 1)) =
      some [List.replicate 32 3, List.replicate 32 1] ∧
    (insertedTxids (initial.insertionsAfter [] followedAsset) (List.replicate 32 1)).reverse =
      [List.replicate 32 1, List.replicate 32 3] := by
  constructor <;> decide +kernel

end AssetDB

end HdacNode
