import HdacNode.EntityCommits
import HdacNode.EntityRecovery

/-!
# Stores that track a log

Between the calls of a careful run the store tracks a log of ledger rows and the items that
wait in its memory pool: the ledger holds the rows, the records are sound for them, the
places of the items are forecast, and no key of an item is known yet.
-/

namespace HdacNode

open WriteBatch

/-- The records know all of `keys`, and no two rows share one of them. -/
structure KnowsKeys (keys : EntityKey → Prop) (records : EntityRecords) (log : List EntityRow) :
    Prop where
  complete : CompleteRecords keys records log
  distinct : DistinctKeys keys log

/-- The keys of the items are new to the records and to each other. -/
structure FreshItems (records : EntityRecords) (items : List EntityItem) : Prop where
  unrecorded : ∀ item ∈ items, ∀ key ∈ item.row.ownKeys, records key = none
  apart : items.Pairwise fun newer older => ∀ key ∈ newer.row.ownKeys, key ∉ older.row.ownKeys

theorem FreshItems.tail {records : EntityRecords} {item : EntityItem} {items : List EntityItem}
    (fresh : FreshItems records (item :: items)) : FreshItems records items :=
  ⟨fun other member => fresh.unrecorded other (List.mem_cons_of_mem _ member),
    (List.pairwise_cons.1 fresh.apart).2⟩

theorem SoundRecords.congr {records others : EntityRecords} {log : List EntityRow}
    (sound : SoundRecords records log) (same : ∀ key, key ≠ .zero → others key = records key) :
    SoundRecords others log := by
  intro key record notZero found
  rw [same key notZero] at found
  exact sound key record notZero found

theorem CompleteRecords.congr {keys : EntityKey → Prop} {records others : EntityRecords}
    {log : List EntityRow} (complete : CompleteRecords keys records log) (rows : EntityLog log)
    (same : ∀ key, key ≠ .zero → others key = records key) : CompleteRecords keys others log := by
  intro row inLog key own isKey
  rw [same key (ne_zero_of_mem_ownKeys (rows.isTxid_of_mem inLog) own)]
  exact complete row inLog key own isKey

/-- New items share no known key with the log. -/
theorem FreshItems.distinctKeys {keys : EntityKey → Prop} {records : EntityRecords} {block : Int}
    {log : List EntityRow} {items : List EntityItem} (fresh : FreshItems records items)
    (forecast : Forecast block log items) (known : KnowsKeys keys records log) :
    DistinctKeys keys (places items ++ log) := by
  induction items with
  | nil => exact known.distinct
  | cons item items ih =>
      apply (ih fresh.tail forecast.tail).cons
      intro key own isKey other inRows otherOwn
      rw [forecast.ownKeys_place (List.mem_cons_self ..)] at own
      rcases List.mem_append.1 inRows with inPlaces | inLog
      · obtain ⟨otherItem, member, rfl⟩ := List.mem_map.1 inPlaces
        rw [forecast.tail.ownKeys_place member] at otherOwn
        exact (List.pairwise_cons.1 fresh.apart).1 otherItem member key own otherOwn
      · exact known.complete other inLog key otherOwn isKey
          (fresh.unrecorded item (List.mem_cons_self ..) key own)

namespace AssetDB

/-- The store tracks the ledger rows `log` and the items of its memory pool. -/
structure Tracks (s : AssetDB) (log : List EntityRow) (items : List EntityItem) : Prop where
  poolEq : s.memPool.rows = poolRows items
  coherent : s.memPool.Coherent EntityRow.key
  forecast : Forecast s.block log items
  rows : EntityLog log
  chain : entityShape.Chain s.ledger log
  header : ∃ header, s.ledger.rowAt 0 = some header ∧ header.script = [] ∧
    header.block = s.block ∧ header.prevPos = entityShape.lastPos log
  zeroRow : s.database.read .zero = some ⟨s.block, entityShape.lastPos log, 0, 0⟩
  sorted : log.Pairwise fun newer older => older.block ≤ newer.block
  blocks_le : ∀ row ∈ log, row.block ≤ s.block
  prevPos : s.prevPos = entityShape.lastPos log
  endPos : s.pos = entityShape.endPos log
  noWrites : s.database.pending = []
  sound : SoundRecords s.database.read log
  txids : KnowsKeys (fun key => key.isTxid = true) s.database.read log
  fresh : FreshItems s.database.read items

/-- All rows of the memory pool belong to transactions of a block. -/
def Confirmed (s : AssetDB) : Prop :=
  ∀ row ∈ s.memPool.rows, 0 ≤ row.offset

instance (s : AssetDB) : Decidable s.Confirmed :=
  inferInstanceAs (Decidable (∀ row ∈ s.memPool.rows, _))

theorem tracks_initial : initial.Tracks [] [] where
  poolEq := rfl
  coherent := RowBuffer.coherent_initializeBuffer _ _
  forecast := .nil
  rows := .nil
  chain := trivial
  header := ⟨_, rfl, rfl, rfl, rfl⟩
  zeroRow := rfl
  sorted := List.Pairwise.nil
  blocks_le := fun _ member => absurd member List.not_mem_nil
  prevPos := rfl
  endPos := rfl
  noWrites := rfl
  sound := by
    intro key record notZero found
    change get (applyWrite ∅ _) key = _ at found
    rw [get_applyWrite, if_neg notZero.symm] at found
    cases found
  txids := ⟨fun _ member => absurd member List.not_mem_nil,
    fun _ member => absurd member List.not_mem_nil⟩
  fresh := ⟨fun _ member => absurd member List.not_mem_nil, List.Pairwise.nil⟩

section Commit

variable {s : AssetDB} {log : List EntityRow} {items : List EntityItem}

theorem Tracks.count_eq (tracks : s.Tracks log items) :
    s.memPool.count = (poolRows items).length := by
  rw [← tracks.poolEq, RowBuffer.rows_length]

theorem Tracks.confirmed_item (tracks : s.Tracks log items) (confirmed : s.Confirmed)
    {item : EntityItem} (member : item ∈ items) : 0 ≤ item.row.offset := by
  have inPool : item.row ∈ s.memPool.rows := by
    rw [tracks.poolEq, mem_poolRows]
    exact ⟨item, member, item.row.key,
      EntityRow.key_mem_ownKeys (tracks.forecast.waits_of_mem member).isTxid, rfl⟩
  exact confirmed item.row inPool

theorem Tracks.commitRows_settled (tracks : s.Tracks log items) (confirmed : s.Confirmed) :
    ∃ st, commitRows s = some st ∧ s.Settled log items st := by
  obtain ⟨header, headerAt, script, -, -⟩ := tracks.header
  have start : s.Settled log [] ⟨s, 0, none⟩ :=
    { noErr := rfl
      ahead := fun _ _ => rfl
      linked := fun newer item older split => by simp at split
      header := rfl
      chain := tracks.chain
      prevPos := tracks.prevPos
      endPos := by rw [add_zero]; exact tracks.endPos
      committed := rfl
      block := rfl
      sound := by
        rw [pendingRecords_of_pending_nil tracks.noWrites]
        exact tracks.sound
      complete := fun _ complete => complete }
  unfold commitRows
  rw [tracks.count_eq, List.range_eq_range']
  exact @foldlM_commitRow_settled _ _ _ _ _ [] rfl tracks.poolEq tracks.forecast tracks.rows
    (fun item member => tracks.confirmed_item confirmed member) headerAt script start

/-- The block of a place is the one that the memory pool waits for. -/
theorem Tracks.block_of_mem_places (tracks : s.Tracks log items) {row : EntityRow}
    (member : row ∈ places items) : row.block = s.block + 1 := by
  obtain ⟨item, inItems, rfl⟩ := List.mem_map.1 member
  obtain ⟨base, firstPos, lastPos, placeEq⟩ := tracks.forecast.place_of_mem inItems
  rw [placeEq]
  exact (tracks.forecast.waits_of_mem inItems).inBlock

/-- A commit without unconfirmed rows takes the items of the memory pool over into the log. -/
theorem Tracks.commit (tracks : s.Tracks log items) (confirmed : s.Confirmed) :
    ∃ next, s.commit = .ended none next ∧ next.Tracks (places items ++ log) [] ∧
      next.block = s.block + 1 ∧
      ∀ keys, KnowsKeys keys s.database.read log →
        KnowsKeys keys next.database.read (places items ++ log) := by
  obtain ⟨st, loop, settled⟩ := tracks.commitRows_settled confirmed
  obtain ⟨header, headerAt, script, -, -⟩ := tracks.header
  have placed := tracks.forecast.entityLog tracks.rows
  obtain ⟨⟨written, writtenAt, writtenScript, writtenBlock, writtenPos⟩, chain⟩ :=
    setHeader_chain st.store.toEntityFiles settled.chain (settled.header.trans headerAt) script
      (st.store.block + 1) st.store.prevPos
  obtain ⟨next, ended, ledger, database, memPool, block, prevPos, endPos⟩ :
      ∃ next, s.commit = .ended none next ∧
        next.ledger = (st.store.setHeader (st.store.block + 1) st.store.prevPos).ledger ∧
        next.database = (st.store.database.write (EntityFiles.zeroRowWrite
          (st.store.setHeader (st.store.block + 1) st.store.prevPos)
          (st.store.block + 1) st.store.prevPos)).commit ∧
        next.memPool = st.store.memPool.clear ∧ next.block = st.store.block + 1 ∧
        next.prevPos = st.store.prevPos ∧ next.pos = st.store.pos + st.size := by
    unfold AssetDB.commit
    rw [loop]
    dsimp only
    rw [settled.noErr]
    exact ⟨_, rfl, rfl, rfl, rfl, rfl, rfl, rfl⟩
  have readZero : st.store.database.read .zero = s.database.read .zero := by
    unfold Store.read
    rw [settled.committed]
  have records : ∀ key, next.database.read key =
      if EntityKey.zero = key then
        some ⟨s.block + 1, entityShape.lastPos (places items ++ log), 0, 0⟩
      else pendingRecords st.store.database key := by
    intro key
    rw [database]
    refine (pendingRecords_write _ _ key).trans ?_
    change (if EntityKey.zero = key then
      some { (st.store.database.read .zero).getD .zero with
        block := st.store.block + 1, ledgerPos := st.store.prevPos } else _) = _
    rw [readZero, tracks.zeroRow, settled.block, settled.prevPos]
    rfl
  have same : ∀ key, key ≠ .zero → next.database.read key =
      pendingRecords st.store.database key := by
    intro key notZero
    rw [records, if_neg notZero.symm]
  have knows : ∀ keys, KnowsKeys keys s.database.read log →
      KnowsKeys keys next.database.read (places items ++ log) := by
    intro keys known
    refine ⟨CompleteRecords.congr (settled.complete keys ?_) placed same,
      tracks.fresh.distinctKeys tracks.forecast known⟩
    rw [pendingRecords_of_pending_nil tracks.noWrites]
    exact known.complete
  rw [settled.block] at block writtenBlock
  rw [settled.prevPos] at prevPos writtenPos
  refine ⟨next, ended, ?_, block, knows⟩
  exact
    { poolEq := by rw [memPool]; exact RowBuffer.rows_clear _
      coherent := by rw [memPool]; exact RowBuffer.coherent_clear _
      forecast := .nil
      rows := placed
      chain := by rw [ledger]; exact chain
      header := ⟨written, by rw [ledger]; exact writtenAt, writtenScript,
        by rw [writtenBlock, block], writtenPos⟩
      zeroRow := by rw [records, if_pos rfl, block]
      sorted := by
        refine List.pairwise_append.2 ⟨?_, tracks.sorted, ?_⟩
        · apply List.pairwise_of_forall_mem_list
          intro newer inNewer older inOlder
          rw [tracks.block_of_mem_places inNewer, tracks.block_of_mem_places inOlder]
        · intro newer inNewer older inOlder
          have low := tracks.blocks_le older inOlder
          have newBlock := tracks.block_of_mem_places inNewer
          omega
      blocks_le := by
        intro row member
        rw [block]
        rcases List.mem_append.1 member with inPlaces | inLog
        · exact (tracks.block_of_mem_places inPlaces).le
        · have low := tracks.blocks_le row inLog
          omega
      prevPos := prevPos
      endPos := endPos.trans settled.endPos
      noWrites := by rw [database]; rfl
      sound := settled.sound.congr same
      txids := knows _ tracks.txids
      fresh := ⟨fun _ member => absurd member List.not_mem_nil, List.Pairwise.nil⟩ }

end Commit

end AssetDB

end HdacNode
