import HdacNode.EntityIssues

/-!
# Lists of follow-ons

`mc_AssetDB::GetFollowOns` lists the transaction ids of an entity and of its
follow-ons, the newest one first: those of the memory pool that have the first
position of the entity, and behind them the chain of the ledger.
`mc_AssetDB::HasFollowOns` tells whether there is a follow-on.  The entity is
listed with its own follow-ons only as long as no other entity of the memory pool
has the same first position.
-/

namespace HdacNode

/-- The transaction ids of a chain, newest first. -/
def chainTxids (log : List EntityRow) (firstPos : Int) : List Bytes :=
  (log.filter fun row => row.firstPos = firstPos).map EntityRow.txid

theorem chainTxids_cons (row : EntityRow) (log : List EntityRow) (firstPos : Int) :
    chainTxids (row :: log) firstPos =
      if row.firstPos = firstPos then row.txid :: chainTxids log firstPos
      else chainTxids log firstPos := by
  unfold chainTxids
  rw [List.filter_cons]
  split
  · rename_i same
    rw [if_pos (of_decide_eq_true same), List.map_cons]
  · rename_i different
    rw [if_neg (by simpa using different)]

theorem chainTxids_append (newer log : List EntityRow) (firstPos : Int) :
    chainTxids (newer ++ log) firstPos = chainTxids newer firstPos ++ chainTxids log firstPos := by
  unfold chainTxids
  rw [List.filter_append, List.map_append]

theorem chainTxids_eq_nil {log : List EntityRow} {firstPos : Int}
    (absent : ∀ row ∈ log, row.firstPos ≠ firstPos) : chainTxids log firstPos = [] := by
  unfold chainTxids
  rw [List.map_eq_nil_iff, List.filter_eq_nil_iff]
  intro row member
  simpa using absent row member

namespace AssetDB

/-- The loop over the memory pool in `mc_AssetDB::GetFollowOns`. -/
def memPoolFollowOns (s : AssetDB) (firstPos : Int) : List Bytes :=
  (s.memPool.rows.reverse.filter fun memRow =>
    memRow.key.isTxid ∧ memRow.firstPos = firstPos).map EntityRow.txid

/-- The walk over the ledger in `mc_AssetDB::GetFollowOns`. -/
def ledgerFollowOns (s : AssetDB) (firstPos : Int) : Nat → Int → List Bytes → List Bytes
  | 0, _, result => result
  | fuel + 1, pos, result =>
      let row := s.ledgerRowAt pos
      let result := result ++ [row.txid]
      if pos ≠ firstPos then
        if row.lastPos ≤ 0 then [] else ledgerFollowOns s firstPos fuel row.lastPos result
      else result

/-- `mc_AssetDB::GetFollowOns`: no list when it would be empty. -/
def getFollowOns (s : AssetDB) (txid : Bytes) : Option (List Bytes) :=
  match s.getEntity (.txid txid false) with
  | none => none
  | some row =>
      let result := s.memPoolFollowOns row.firstPos
      let result :=
        if 0 < row.chainPos then
          s.ledgerFollowOns row.firstPos (row.chainPos.toNat + 1) row.chainPos result
        else result
      if result = [] then none else some result

/-- `mc_AssetDB::HasFollowOns`. -/
def hasFollowOns (s : AssetDB) (txid : Bytes) : Bool :=
  match s.getEntity (.txid txid false) with
  | none => false
  | some row =>
      decide (0 ≤ row.firstPos ∧ row.firstPos ≠ row.chainPos) ||
        (List.range s.memPool.count).any fun rowID =>
          let memRow := s.memPool.getRow rowID
          memRow.firstPos ≠ -(rowID : Int) - 1 ∧ memRow.firstPos = row.firstPos ∧
            memRow.isFollowOn

variable {s : AssetDB} {log : List EntityRow} {items : List EntityItem}

section Ledger

theorem ledgerFollowOns_eq (rows : EntityLog log)
    (read : ∀ row ∈ log, s.ledgerRowAt row.chainPos = row) {genesis : EntityRow}
    (inLog : genesis ∈ log) (isEntity : genesis.isFollowOn = false) {fuel : Nat}
    (enough : (chainEnd log genesis.chainPos).toNat < fuel) (result : List Bytes) :
    s.ledgerFollowOns genesis.chainPos fuel (chainEnd log genesis.chainPos) result =
      result ++ chainTxids log genesis.chainPos := by
  have positive : 0 < entityTotalSize := entityShape.base_pos
  induction log generalizing fuel result with
  | nil => cases inLog
  | cons row log ih =>
      have readTail : ∀ other ∈ log, s.ledgerRowAt other.chainPos = other := fun other member =>
        read other (List.mem_cons_of_mem _ member)
      have place := rows.place_of_mem (List.mem_cons_self ..)
      rw [chainEnd_cons, chainTxids_cons] at *
      by_cases ofChain : row.firstPos = genesis.chainPos
      · rw [if_pos ofChain] at enough ⊢
        rw [if_pos ofChain]
        obtain ⟨fuel, rfl⟩ : ∃ fewer, fuel = fewer + 1 := ⟨fuel - 1, by omega⟩
        unfold ledgerFollowOns
        dsimp only
        rw [read row (List.mem_cons_self ..)]
        cases followOn : row.isFollowOn with
        | false =>
            have own := rows.firstPos_of_entity (List.mem_cons_self ..) followOn
            have same : row.chainPos = genesis.chainPos := own.symm.trans ofChain
            have none : chainTxids log genesis.chainPos = [] := by
              apply chainTxids_eq_nil
              intro other member
              have before := rows.tail.firstPos_lt_endPos member
              have behind := rows.chainPos_head
              omega
            rw [if_neg (not_not.2 same), none]
        | true =>
            obtain ⟨inOlder, lastPos, genesisBefore, lastBase, lastBefore⟩ :=
              rows.followOn_links inLog isEntity followOn ofChain
            rw [if_pos (by omega), lastPos, if_neg (by omega),
              ih rows.tail readTail inOlder (by omega), List.append_assoc, List.singleton_append]
      · rw [if_neg ofChain] at enough ⊢
        rw [if_neg ofChain]
        have inOlder := rows.mem_tail_of_ne inLog isEntity ofChain
        exact ih rows.tail readTail inOlder enough result

end Ledger

section Pool

theorem filter_poolRows {block : Int} (forecast : Forecast block log items) (firstPos : Int) :
    (poolRows items).reverse.filter (fun memRow =>
        memRow.key.isTxid ∧ memRow.firstPos = firstPos) =
      (items.filter fun item => item.row.firstPos = firstPos).map EntityItem.row := by
  induction items with
  | nil => rfl
  | cons item items ih =>
      obtain ⟨otherKeys, ownKeys, noTxid⟩ := ownKeys_eq_cons forecast.waits_head.isTxid
      have rowsEq : item.rows = item.row :: otherKeys.map fun key => { item.row with key } := by
        unfold EntityItem.rows
        rw [ownKeys]
        rfl
      have others : (otherKeys.map fun key => { item.row with key }).reverse.filter
          (fun memRow => memRow.key.isTxid ∧ memRow.firstPos = firstPos) = [] := by
        rw [List.filter_eq_nil_iff]
        intro memRow member
        rw [List.mem_reverse, List.mem_map] at member
        obtain ⟨key, isOther, rfl⟩ := member
        have notTxid := noTxid key isOther
        simp [notTxid]
      unfold poolRows
      rw [List.reverse_append, List.filter_append, ih forecast.tail, rowsEq, List.reverse_cons,
        List.filter_append, others, List.nil_append, List.filter_singleton, List.filter_cons]
      have isTxid := forecast.waits_head.isTxid
      by_cases same : item.row.firstPos = firstPos
      · simp [isTxid, same]
      · simp [same]

theorem Tracks.memPoolFollowOns_eq (tracks : s.Tracks log items) {firstPos place : Int}
    (same : ∀ item ∈ items, item.row.firstPos = firstPos ↔ item.place.firstPos = place) :
    s.memPoolFollowOns firstPos = chainTxids (places items) place := by
  have txids : ∀ item ∈ items, item.place.txid = item.row.txid := by
    intro item member
    obtain ⟨base, first, last, placeEq⟩ := tracks.forecast.place_of_mem member
    rw [placeEq]
    rfl
  have filtered : items.filter (fun item => item.row.firstPos = firstPos) =
      items.filter fun item => item.place.firstPos = place := by
    apply List.filter_congr
    intro item member
    exact decide_eq_decide.2 (same item member)
  unfold memPoolFollowOns chainTxids places
  rw [tracks.poolEq, filter_poolRows tracks.forecast, filtered, List.map_map, List.filter_map,
    List.map_map]
  apply List.map_congr_left
  intro item member
  exact (txids item (List.mem_of_mem_filter member)).symm

/-- An item that belongs to an entity of the ledger, by its memory pool row and by its place. -/
theorem Tracks.ofChain_log (tracks : s.Tracks log items) {genesis : EntityRow}
    (inLog : genesis ∈ log) :
    ∀ item ∈ items, item.row.firstPos = genesis.chainPos ↔
      item.place.firstPos = genesis.chainPos := by
  intro item member
  obtain ⟨newer, older, rfl⟩ := List.append_of_mem member
  have current := tracks.forecast.of_append
  have place := tracks.rows.place_of_mem inLog
  have positive : 0 < entityTotalSize := entityShape.base_pos
  rw [← current.followOn_iff tracks.rows inLog]
  constructor
  · intro same
    cases followOn : item.row.isFollowOn with
    | true => exact ⟨rfl, same⟩
    | false =>
        have negative := (current.named_head followOn).1
        omega
  · rintro ⟨-, same⟩
    exact same

/-- An item that belongs to a waiting entity, by its memory pool row and by its place, when no
other waiting entity has the same first position. -/
theorem Tracks.ofChain_item (tracks : s.Tracks log items) {newer older : List EntityItem}
    {own : EntityItem} (split : items = newer ++ own :: older)
    (isEntity : own.row.isFollowOn = false) (named : entityID own.row = (poolRows older).length)
    (alone : ∀ item ∈ items, item.row.isFollowOn = false →
      item.row.firstPos = own.row.firstPos → item = own) :
    ∀ item ∈ items, item.row.firstPos = own.row.firstPos ↔
      item.place.firstPos = own.place.chainPos := by
  have placed := tracks.forecast.entityLog tracks.rows
  have ownMember : own ∈ items := by
    rw [split]
    exact List.mem_append_right _ (List.mem_cons_self ..)
  have ownInRows : own.place ∈ places items ++ log :=
    List.mem_append_left _ (List.mem_map_of_mem ownMember)
  have ownEntity := (tracks.forecast.isFollowOn_place ownMember).trans isEntity
  have ownFirst := placed.firstPos_of_entity ownInRows ownEntity
  have ownCurrent := tracks.forecast.of_split split
  have ownNegative := (ownCurrent.named_head isEntity).1
  intro item member
  obtain ⟨newer', older', split'⟩ := List.append_of_mem member
  have current := tracks.forecast.of_split split'
  have inRows : item.place ∈ places items ++ log :=
    List.mem_append_left _ (List.mem_map_of_mem member)
  cases followOn : item.row.isFollowOn with
  | false =>
      have itemEntity := (tracks.forecast.isFollowOn_place member).trans followOn
      have itemFirst := placed.firstPos_of_entity inRows itemEntity
      constructor
      · intro same
        rw [alone item member followOn same]
        exact ownFirst
      · intro same
        rw [(place_eq_iff placed split split').2 (itemFirst.symm.trans same)]
  | true =>
      cases current with
      | entity before waits notFollowOn =>
          change _ = false at notFollowOn
          rw [notFollowOn] at followOn
          cases followOn
      | @followOn _ row genesis before waits isFollowOn inLog genesisEntity firstPos lastPos =>
          have place := tracks.rows.place_of_mem inLog
          have positive : 0 < entityTotalSize := entityShape.base_pos
          have behind := ownCurrent.endPos_le_place tracks.rows
          constructor
          · intro same
            change row.firstPos = _ at same
            omega
          · intro same
            change row.firstPos = _ at same
            omega
      | @ownFollowOn _ newest oldest row genesis before waits isFollowOn inner genesisEntity
          negative rowNamed =>
          have whole : items = (newer' ++ ⟨row, row.placedBehind (places older' ++ log)
              genesis.place.chainPos (chainEnd (places older' ++ log) genesis.place.chainPos)⟩ ::
              newest) ++ genesis :: oldest := by
            rw [split', inner, List.append_assoc]
            rfl
          have sameID : row.firstPos = own.row.firstPos ↔ entityID row = entityID own.row := by
            unfold entityID
            omega
          change row.firstPos = own.row.firstPos ↔ genesis.place.chainPos = own.place.chainPos
          rw [sameID, rowNamed, named]
          exact (place_eq_iff placed split whole).1

end Pool

section HasFollowOns

theorem chainEnd_ne_iff (rows : EntityLog log) {genesis : EntityRow} (inLog : genesis ∈ log)
    (isEntity : genesis.isFollowOn = false) :
    chainEnd log genesis.chainPos ≠ genesis.chainPos ↔
      ∃ row ∈ log, row.isFollowOn = true ∧ row.firstPos = genesis.chainPos := by
  induction log with
  | nil => cases inLog
  | cons row log ih =>
      rw [chainEnd_cons]
      by_cases ofChain : row.firstPos = genesis.chainPos
      · rw [if_pos ofChain]
        cases followOn : row.isFollowOn with
        | false =>
            have own := rows.firstPos_of_entity (List.mem_cons_self ..) followOn
            constructor
            · intro moved
              exact absurd (own.symm.trans ofChain) moved
            · rintro ⟨other, member, isFollowOn, firstPos⟩
              rcases List.mem_cons.1 member with rfl | older
              · rw [followOn] at isFollowOn
                cases isFollowOn
              · have before := rows.tail.firstPos_lt_endPos older
                have behind := rows.chainPos_head
                omega
        | true =>
            have inOlder : genesis ∈ log := by
              rcases List.mem_cons.1 inLog with rfl | older
              · rw [followOn] at isEntity
                cases isEntity
              · exact older
            have before := rows.chainPos_lt_head inOlder
            constructor
            · intro _
              exact ⟨row, List.mem_cons_self .., followOn, ofChain⟩
            · intro _
              omega
      · have inOlder : genesis ∈ log := by
          rcases List.mem_cons.1 inLog with rfl | older
          · exact absurd (rows.firstPos_of_entity (List.mem_cons_self ..) isEntity) ofChain
          · exact older
        rw [if_neg ofChain, ih rows.tail inOlder]
        constructor
        · rintro ⟨other, member, found⟩
          exact ⟨other, List.mem_cons_of_mem _ member, found⟩
        · rintro ⟨other, member, isFollowOn, firstPos⟩
          rcases List.mem_cons.1 member with rfl | older
          · exact absurd firstPos ofChain
          · exact ⟨other, older, isFollowOn, firstPos⟩

theorem mem_poolRows_followOn {block : Int} (forecast : Forecast block log items)
    {memRow : EntityRow} (isFollowOn : memRow.isFollowOn = true) :
    memRow ∈ poolRows items ↔ ∃ item ∈ items, item.row = memRow := by
  rw [mem_poolRows]
  constructor
  · rintro ⟨item, member, key, own, rfl⟩
    have waits := forecast.waits_of_mem member
    refine ⟨item, member, ?_⟩
    change key.isFollowOn = true at isFollowOn
    cases followOn : item.row.isFollowOn with
    | true =>
        rw [EntityRow.ownKeys_of_followOn followOn, List.mem_singleton] at own
        rw [own]
    | false =>
        rw [EntityRow.ownKeys_of_entity followOn] at own
        have isTxid : key.isTxid = true := by
          cases key with
          | txid txid flag => rfl
          | _ => cases isFollowOn
        rw [EntityDetails.eq_of_mem_newKeys isTxid own] at isFollowOn
        cases isFollowOn
  · rintro ⟨item, member, rfl⟩
    exact ⟨item, member, item.row.key,
      EntityRow.key_mem_ownKeys (forecast.waits_of_mem member).isTxid, rfl⟩

/-- The loop over the memory pool in `HasFollowOns` finds the follow-ons with a first position. -/
theorem Tracks.any_followOn_iff (tracks : s.Tracks log items) {firstPos : Int}
    (notFollowOn : firstPos < 0 →
      (s.memPool.getRow (-firstPos - 1).toNat).isFollowOn = false) :
    ((List.range s.memPool.count).any fun rowID =>
        let memRow := s.memPool.getRow rowID
        memRow.firstPos ≠ -(rowID : Int) - 1 ∧ memRow.firstPos = firstPos ∧
          memRow.isFollowOn) = true ↔
      ∃ item ∈ items, item.row.isFollowOn = true ∧ item.row.firstPos = firstPos := by
  simp only [List.any_eq_true, List.mem_range, decide_eq_true_eq]
  constructor
  · rintro ⟨rowID, live, -, same, isFollowOn⟩
    have member : s.memPool.getRow rowID ∈ s.memPool.rows :=
      List.mem_of_getElem? (RowBuffer.rows_getElem? _ live)
    rw [tracks.poolEq, mem_poolRows_followOn tracks.forecast isFollowOn] at member
    obtain ⟨item, inItems, isRow⟩ := member
    exact ⟨item, inItems, by rw [isRow]; exact isFollowOn, by rw [isRow]; exact same⟩
  · rintro ⟨item, member, isFollowOn, same⟩
    obtain ⟨newer, older, split⟩ := List.append_of_mem member
    have head := tracks.getRow_head split
    refine ⟨(poolRows older).length, ?_, ?_, ?_, ?_⟩
    · rw [tracks.count_eq, split]
      exact length_poolRows_lt
    · rw [head]
      intro named
      have index : (-firstPos - 1).toNat = (poolRows older).length := by omega
      have entity := notFollowOn (by omega)
      rw [index, head, isFollowOn] at entity
      cases entity
    · rw [head]
      exact same
    · rw [head]
      exact isFollowOn

/-- Two items never share a key. -/
theorem Tracks.item_eq_of_key (tracks : s.Tracks log items) {item other : EntityItem}
    (member : item ∈ items) (otherMember : other ∈ items)
    (same : item.row.key = other.row.key) : item = other := by
  by_contra different
  have own := EntityRow.key_mem_ownKeys (tracks.forecast.waits_of_mem member).isTxid
  have otherOwn := EntityRow.key_mem_ownKeys (tracks.forecast.waits_of_mem otherMember).isTxid
  obtain ⟨newer, older, split⟩ := List.append_of_mem member
  have apart := tracks.fresh.apart
  rw [split, List.pairwise_append, List.pairwise_cons] at apart
  rw [split, List.mem_append, List.mem_cons] at otherMember
  rcases otherMember with inNewer | rfl | inOlder
  · exact apart.2.2 other inNewer item (List.mem_cons_self ..) other.row.key otherOwn (same ▸ own)
  · exact different rfl
  · exact apart.2.1.1 other inOlder item.row.key own (same ▸ otherOwn)

/-- `HasFollowOns` tells whether a row of the chain is a follow-on. -/
theorem Tracks.hasFollowOns_iff (tracks : s.Tracks log items) {txid : Bytes} {found : EntityRow}
    {place : Int} (isFound : s.getEntity (.txid txid false) = some found)
    (placeOf : PlaceOf log items found place)
    (alone : ∀ item ∈ items, item.row.isFollowOn = false →
      item.row.firstPos = found.firstPos → item.row.key = found.key) :
    s.hasFollowOns txid = true ↔
      ∃ row ∈ places items ++ log, row.isFollowOn = true ∧ row.firstPos = place := by
  have positive : 0 < entityTotalSize := entityShape.base_pos
  have inPlaces {firstPos : Int}
      (same : ∀ item ∈ items, item.row.firstPos = firstPos ↔ item.place.firstPos = place) :
      (∃ item ∈ items, item.row.isFollowOn = true ∧ item.row.firstPos = firstPos) ↔
        ∃ row ∈ places items, row.isFollowOn = true ∧ row.firstPos = place := by
    constructor
    · rintro ⟨item, member, isFollowOn, firstPosEq⟩
      exact ⟨item.place, List.mem_map_of_mem member,
        (tracks.forecast.isFollowOn_place member).trans isFollowOn,
        (same item member).1 firstPosEq⟩
    · rintro ⟨row, member, isFollowOn, firstPosEq⟩
      obtain ⟨item, inItems, rfl⟩ := List.mem_map.1 member
      exact ⟨item, inItems, (tracks.forecast.isFollowOn_place inItems).symm.trans isFollowOn,
        (same item inItems).2 firstPosEq⟩
  unfold hasFollowOns
  rw [isFound]
  dsimp only
  rw [Bool.or_eq_true, decide_eq_true_eq]
  simp only [List.mem_append, or_and_right, exists_or]
  rcases placeOf with ⟨genesis, inLog, isEntity, rfl, rfl⟩ |
    ⟨newer, own, older, split, isEntity, rfl, rfl, named⟩
  · have ownFirst := tracks.rows.firstPos_of_entity inLog isEntity
    have place := tracks.rows.place_of_mem inLog
    dsimp only
    rw [ownFirst, tracks.any_followOn_iff (fun negative => by omega),
      inPlaces (tracks.ofChain_log inLog), ← chainEnd_ne_iff tracks.rows inLog isEntity, or_comm]
    refine or_congr Iff.rfl ?_
    constructor
    · rintro ⟨-, moved⟩
      exact Ne.symm moved
    · intro moved
      exact ⟨by omega, Ne.symm moved⟩
  · have current := tracks.forecast.of_split split
    have negative := (current.named_head isEntity).1
    have behind := current.endPos_le_place tracks.rows
    have head := tracks.getRow_head split
    have notFollowOn : own.row.firstPos < 0 →
        (s.memPool.getRow (-own.row.firstPos - 1).toNat).isFollowOn = false := by
      intro _
      unfold entityID at named
      rw [named, head]
      exact isEntity
    have ownMember : own ∈ items := by
      rw [split]
      exact List.mem_append_right _ (List.mem_cons_self ..)
    have aloneItem : ∀ item ∈ items, item.row.isFollowOn = false →
        item.row.firstPos = own.row.firstPos → item = own := by
      intro item member itemEntity same
      exact tracks.item_eq_of_key member ownMember (alone item member itemEntity same)
    rw [tracks.any_followOn_iff notFollowOn,
      inPlaces (tracks.ofChain_item split isEntity named aloneItem)]
    constructor
    · rintro (⟨nonneg, -⟩ | inItems)
      · omega
      · exact Or.inl inItems
    · rintro (inItems | ⟨row, member, -, firstPos⟩)
      · exact Or.inr inItems
      · have before := tracks.rows.firstPos_lt_endPos member
        omega

end HasFollowOns

end AssetDB

end HdacNode
