import HdacNode.EntityTracking
import Mathlib.Data.List.TakeWhile

/-!
# Rollbacks of the entity store

A rollback undoes the rows above a height, newest first, and collects what happens to the
records in one batch.  It ends in a fault exactly when it comes to a row whose script holds
a name that does not fit, and otherwise the store tracks the rows that stay.  The records of
these rows are complete again exactly when the undone rows have kept their keys.
-/

namespace HdacNode

open WriteBatch

/-- The rows of a log above a height. -/
def rowsAbove (block : Int) (log : List EntityRow) : List EntityRow :=
  log.takeWhile fun row => block < row.block

/-- The rows of a log that are not above a height. -/
def rowsUpTo (block : Int) (log : List EntityRow) : List EntityRow :=
  log.dropWhile fun row => block < row.block

theorem rowsAbove_append_rowsUpTo (block : Int) (log : List EntityRow) :
    rowsAbove block log ++ rowsUpTo block log = log :=
  List.takeWhile_append_dropWhile

theorem block_lt_of_mem_rowsAbove {block : Int} {log : List EntityRow} {row : EntityRow}
    (member : row ∈ rowsAbove block log) : block < row.block :=
  of_decide_eq_true
    (List.mem_takeWhile_imp (p := fun row : EntityRow => decide (block < row.block)) member)

theorem head_rowsUpTo_le {block : Int} {log : List EntityRow} {row : EntityRow}
    (head : row ∈ (rowsUpTo block log).head?) : row.block ≤ block := by
  have notAbove := List.head?_dropWhile_not (fun row : EntityRow => decide (block < row.block)) log
  unfold rowsUpTo at head
  rw [Option.mem_def] at head
  rw [head] at notAbove
  exact not_lt.1 (of_decide_eq_false notAbove)

theorem block_le_of_mem_rowsUpTo {block : Int} {log : List EntityRow}
    (sorted : log.Pairwise fun newer older => older.block ≤ newer.block) {row : EntityRow}
    (member : row ∈ rowsUpTo block log) : row.block ≤ block := by
  have keptSorted := sorted.sublist (List.dropWhile_sublist (fun row => block < row.block))
  have headLow := @head_rowsUpTo_le block log
  change (rowsUpTo block log).Pairwise _ at keptSorted
  cases keptEq : rowsUpTo block log with
  | nil =>
      rw [keptEq] at member
      cases member
  | cons head rest =>
      rw [keptEq] at member keptSorted headLow
      have low := @headLow head rfl
      rcases List.mem_cons.1 member with rfl | inRest
      · exact low
      · exact ((List.pairwise_cons.1 keptSorted).1 row inRest).trans low

/-- The records after a part of a log was undone, newest row first. -/
def UndoneSegment (rest : List EntityRow) : List EntityRow → EntityRecords → EntityRecords → Prop
  | [], before, records => ∀ key, key ≠ .zero → records key = before key
  | row :: segment, before, records =>
      ∃ genesis middle, genesis ∈ row :: segment ++ rest ∧ row.firstPos = genesis.chainPos ∧
        (row.isFollowOn = true → genesis ∈ segment ++ rest) ∧
        (row.isFollowOn = false → genesis = row) ∧
        UndoneRecords (segment ++ rest) row genesis before middle ∧
        UndoneSegment rest segment middle records

section Segments

variable {rest segment : List EntityRow} {before records : EntityRecords}
  {keys : EntityKey → Prop}

theorem SoundRecords.undoneSegment (sound : SoundRecords before (segment ++ rest))
    (rows : EntityLog (segment ++ rest)) (undone : UndoneSegment rest segment before records) :
    SoundRecords records rest := by
  induction segment generalizing before with
  | nil => exact sound.congr undone
  | cons row segment ih =>
      obtain ⟨genesis, middle, inRows, firstPos, ofFollowOn, ofEntity, first, later⟩ := undone
      exact ih (sound.undone rows inRows firstPos ofFollowOn ofEntity first) rows.tail later

theorem RecordsAhead.undoneSegment (ahead : RecordsAhead keys before rest segment)
    (rows : EntityLog (segment ++ rest)) (keeps : KeepsKeys keys rest segment)
    (undone : UndoneSegment rest segment before records) : CompleteRecords keys records rest := by
  induction segment generalizing before with
  | nil =>
      intro kept inRest key own isKey
      have notZero := ne_zero_of_mem_ownKeys (rows.isTxid_of_mem inRest) own
      rw [undone key notZero]
      rcases ahead kept inRest key own isKey with found | ⟨later, none, -⟩
      · exact found
      · cases none
  | cons row segment ih =>
      obtain ⟨genesis, middle, inRows, firstPos, -, -, first, later⟩ := undone
      exact ih (ahead.undone rows inRows firstPos keeps first) rows.tail keeps.2 later

/-- A missing key of a row that stays is missing behind the undone rows. -/
theorem UndoneSegment.eq_none (rows : EntityLog (segment ++ rest))
    (distinct : DistinctKeys keys (segment ++ rest))
    (undone : UndoneSegment rest segment before records) {kept : EntityRow}
    (inRest : kept ∈ rest) {key : EntityKey} (own : key ∈ kept.ownKeys) (isKey : keys key)
    (missing : before key = none) (notOf : ∀ row ∈ segment, row.firstPos ≠ kept.chainPos) :
    records key = none := by
  induction segment generalizing before with
  | nil =>
      rw [undone key (ne_zero_of_mem_ownKeys (rows.isTxid_of_mem inRest) own)]
      exact missing
  | cons row segment ih =>
      obtain ⟨genesis, middle, inRows, firstPos, -, -, first, later⟩ := undone
      have middleNone := first.eq_none rows inRows firstPos distinct inRest own isKey
        (.inr missing) (notOf row (List.mem_cons_self ..))
      exact ih rows.tail (@DistinctKeys.of_append _ _ [row] distinct) later middleNone
        fun other member => notOf other (List.mem_cons_of_mem _ member)

theorem UndoneSegment.keepsKeys (rows : EntityLog (segment ++ rest))
    (distinct : DistinctKeys keys (segment ++ rest))
    (undone : UndoneSegment rest segment before records)
    (complete : CompleteRecords keys records rest) : KeepsKeys keys rest segment := by
  induction segment generalizing before with
  | nil => trivial
  | cons row segment ih =>
      obtain ⟨genesis, middle, inRows, firstPos, -, -, first, later⟩ := undone
      have tailDistinct := @DistinctKeys.of_append _ _ [row] distinct
      refine ⟨?_, ih rows.tail tailDistinct later⟩
      intro kept inRest key own isKey taken
      by_contra none
      push Not at none
      have middleNone := first.eq_none rows inRows firstPos distinct inRest own isKey (.inl taken)
        (none row (List.mem_cons_self ..))
      exact complete kept inRest key own isKey
        (later.eq_none rows.tail tailDistinct inRest own isKey middleNone
          fun other member => none other (List.mem_cons_of_mem _ member))

theorem UndoneSegment.knowsKeys_iff (rows : EntityLog (segment ++ rest))
    (known : KnowsKeys keys before (segment ++ rest))
    (undone : UndoneSegment rest segment before records) :
    KnowsKeys keys records rest ↔ KeepsKeys keys rest segment := by
  constructor
  · exact fun knows => undone.keepsKeys rows known.distinct knows.complete
  · intro keeps
    refine ⟨RecordsAhead.undoneSegment (fun kept inRest key own isKey => .inl ?_) rows keeps undone,
      known.distinct.of_append⟩
    exact known.complete kept (List.mem_append_right _ inRest) key own isKey

end Segments

namespace AssetDB

section Walk

variable {s : AssetDB} {log : List EntityRow} {row : EntityRow}

private theorem pendingRecords_deletes (keys : List EntityKey)
    (database : Store EntityKey EntityDBRow) (key : EntityKey) :
    pendingRecords (keys.foldl (fun database key => database.write ⟨key, none⟩) database) key =
      if key ∈ keys then none else pendingRecords database key := by
  rw [← pendingRecords_writes, List.foldl_map]

private theorem committed_deletes (keys : List EntityKey)
    (database : Store EntityKey EntityDBRow) :
    (keys.foldl (fun database key => database.write ⟨key, none⟩) database).committed =
      database.committed := by
  induction keys generalizing database with
  | nil => rfl
  | cons key keys ih => exact ih (database.write ⟨key, none⟩)

private theorem undoRow_spec {newer older : List EntityRow} (split : log = newer ++ row :: older)
    (rows : EntityLog log) (chain : entityShape.Chain s.ledger log)
    (sound : SoundRecords s.database.read log)
    (txids : KnowsKeys (fun key => key.isTxid = true) s.database.read log)
    (database : Store EntityKey EntityDBRow) :
    ∃ undone genesis, undoRow s row (EntityDetails.ofRow row) database = some (undone, none) ∧
      undone.committed = database.committed ∧ genesis ∈ row :: older ∧
      row.firstPos = genesis.chainPos ∧ (row.isFollowOn = true → genesis ∈ older) ∧
      (row.isFollowOn = false → genesis = row) ∧
      UndoneRecords older row genesis (pendingRecords database) (pendingRecords undone) := by
  have current : EntityLog (row :: older) := by
    rw [split] at rows
    exact rows.of_append
  obtain ⟨genesis, inRows, isEntity, firstPos, ofFollowOn, ofEntity⟩ :=
    current.exists_undone_genesis
  unfold undoRow
  dsimp only
  cases followOn : row.isFollowOn with
  | false =>
      refine ⟨_, genesis, if_neg Bool.false_ne_true, committed_deletes _ _, inRows, firstPos,
        fun impossible => absurd impossible Bool.false_ne_true, fun _ => ofEntity followOn, ?_⟩
      intro key _
      have notRestored : ¬ (row.isFollowOn = true ∧ key ∈ genesis.ownKeys) := by
        rintro ⟨isFollowOn, -⟩
        rw [followOn] at isFollowOn
        cases isFollowOn
      rw [if_neg notRestored]
      exact pendingRecords_deletes _ _ key
  | true =>
      obtain ⟨inOlder, lastPos⟩ := ofFollowOn followOn
      have inLog : genesis ∈ log := by
        rw [split]
        exact List.mem_append_right _ inRows
      have genesisTxid := rows.isTxid_of_mem inLog
      have keyEq := EntityRow.key_eq_txid genesisTxid isEntity
      have genesisAt : s.ledgerRowAt row.firstPos = genesis := by
        unfold EntityFiles.ledgerRowAt
        rw [firstPos]
        change (s.ledger.rowAt (entityShape.pos genesis)).getD .zero = genesis
        rw [chain.rowAt_pos inLog]
        rfl
      have recorded : s.database.read (.txid genesis.txid false) =
          some (recordOf log genesis) := by
        rw [← keyEq]
        exact sound.eq_some rows txids.complete txids.distinct inLog
          (EntityRow.key_mem_ownKeys genesisTxid) genesisTxid
      have setEq : EntityDetails.set genesis = some (EntityDetails.ofRow genesis) :=
        if_pos (rows.nameFits_of_mem inLog isEntity)
      unfold undoFollowOn
      dsimp only
      rw [if_pos rfl, genesisAt, setEq, Option.map_some, recorded]
      refine ⟨_, genesis, rfl, ?_, inRows, firstPos, fun _ => inOlder,
        fun impossible => absurd impossible.symm Bool.false_ne_true, ?_⟩
      · rw [Store.foldl_write]
        exact committed_deletes _ _
      · intro key _
        rw [pendingRecords_entityWrites, pendingRecords_deletes, ← keyEq]
        have restored : ({ recordOf log genesis with chainPos := row.lastPos } : EntityDBRow) =
            recordOf older genesis := by
          unfold recordOf
          rw [lastPos]
        rw [restored, EntityRow.ownKeys_of_entity isEntity]
        refine if_congr ?_ rfl rfl
        rw [EntityDetails.mem_entityKeys_iff keyEq]
        exact ⟨fun own => ⟨followOn, own⟩, fun both => both.2⟩

private theorem rollBackWalk_undone {block : Int} {segment rest newer : List EntityRow}
    (split : log = newer ++ (segment ++ rest)) (rows : EntityLog log)
    (chain : entityShape.Chain s.ledger log) (sound : SoundRecords s.database.read log)
    (txids : KnowsKeys (fun key => key.isTxid = true) s.database.read log)
    (above : ∀ row ∈ segment, block < row.block)
    (low : ∀ row ∈ rest.head?, row.block ≤ block) (database : Store EntityKey EntityDBRow)
    {fuel : Nat} (enough : (segment ++ rest).length < fuel) :
    (rollBackWalk s block fuel ⟨database, entityShape.lastPos (segment ++ rest), none⟩ = none ∧
      ∃ row ∈ segment ++ rest.head?.toList, ¬ (EntityDetails.ofRow row).NameFits) ∨
    (∃ undone, rollBackWalk s block fuel
        ⟨database, entityShape.lastPos (segment ++ rest), none⟩ =
          some ⟨undone, entityShape.lastPos rest, none⟩ ∧
      (∀ row ∈ segment ++ rest.head?.toList, (EntityDetails.ofRow row).NameFits) ∧
      undone.committed = database.committed ∧
      UndoneSegment rest segment (pendingRecords database) (pendingRecords undone)) := by
  have positive : 0 < entityTotalSize := entityShape.base_pos
  have readRow : ∀ {row : EntityRow}, row ∈ log → s.ledgerRowAt row.chainPos = row ∧
      0 < row.chainPos := by
    intro row inLog
    have place := rows.place_of_mem inLog
    refine ⟨?_, by omega⟩
    unfold EntityFiles.ledgerRowAt
    change (s.ledger.rowAt (entityShape.pos row)).getD .zero = row
    rw [chain.rowAt_pos inLog]
    rfl
  induction segment generalizing newer database fuel with
  | nil =>
      obtain ⟨fuel, rfl⟩ : ∃ fewer, fuel = fewer + 1 := ⟨fuel - 1, by omega⟩
      cases rest with
      | nil =>
          right
          refine ⟨database, rfl, fun row none => ?_, rfl, fun _ _ => rfl⟩
          cases none
      | cons row rest =>
          have inLog : row ∈ log := by
            rw [split]
            exact List.mem_append_right _ (List.mem_cons_self ..)
          obtain ⟨rowEq, behind⟩ := readRow inLog
          have notAbove : ¬ block < row.block := not_lt.2 (low row rfl)
          change (rollBackWalk s block (fuel + 1) ⟨database, row.chainPos, none⟩ = none ∧ _) ∨
            (∃ undone, rollBackWalk s block (fuel + 1) ⟨database, row.chainPos, none⟩ =
              some ⟨undone, row.chainPos, none⟩ ∧ _)
          unfold rollBackWalk EntityDetails.set
          dsimp only
          rw [if_pos behind, rowEq]
          by_cases fits : (EntityDetails.ofRow row).NameFits
          · right
            rw [if_pos fits]
            dsimp only
            rw [if_neg notAbove]
            refine ⟨database, rfl, ?_, rfl, fun _ _ => rfl⟩
            intro other member
            rw [List.mem_singleton.1 (show other ∈ [row] from member)]
            exact fits
          · left
            rw [if_neg fits]
            exact ⟨rfl, row, List.mem_singleton_self _, fits⟩
  | cons row segment ih =>
      obtain ⟨fuel, rfl⟩ : ∃ fewer, fuel = fewer + 1 := ⟨fuel - 1, by omega⟩
      have inLog : row ∈ log := by
        rw [split]
        exact List.mem_append_right _ (List.mem_cons_self ..)
      obtain ⟨rowEq, behind⟩ := readRow inLog
      have isAbove := above row (List.mem_cons_self ..)
      have current : EntityLog (row :: (segment ++ rest)) := by
        rw [split] at rows
        exact rows.of_append
      change (rollBackWalk s block (fuel + 1) ⟨database, row.chainPos, none⟩ = none ∧ _) ∨
        (∃ undone, rollBackWalk s block (fuel + 1) ⟨database, row.chainPos, none⟩ =
          some ⟨undone, entityShape.lastPos rest, none⟩ ∧ _)
      unfold rollBackWalk EntityDetails.set
      dsimp only
      rw [if_pos behind, rowEq]
      by_cases fits : (EntityDetails.ofRow row).NameFits
      · rw [if_pos fits]
        dsimp only
        obtain ⟨middle, genesis, undoEq, committed, inRows, firstPos, ofFollowOn, ofEntity,
          records⟩ := undoRow_spec split rows chain sound txids database
        rw [if_pos isAbove, undoEq]
        dsimp only
        rw [current.prevPos_head]
        have shifted : log = (newer ++ [row]) ++ (segment ++ rest) := by
          rw [split, List.append_assoc]
          rfl
        have fewer : (segment ++ rest).length < fuel := by
          change (segment ++ rest).length + 1 < fuel + 1 at enough
          omega
        rcases ih shifted (fun other member => above other (List.mem_cons_of_mem _ member)) middle
          fewer with ⟨fault, other, member, notFits⟩ | ⟨undone, walked, allFit, kept, later⟩
        · exact .inl ⟨fault, other, List.mem_cons_of_mem _ member, notFits⟩
        · right
          refine ⟨undone, walked, ?_, kept.trans committed, genesis, _, inRows, firstPos,
            ofFollowOn, ofEntity, records, later⟩
          intro other member
          rcases List.mem_cons.1 (show other ∈ row :: (segment ++ rest.head?.toList) from member)
            with rfl | inRest
          · exact fits
          · exact allFit other inRest
      · left
        rw [if_neg fits]
        exact ⟨rfl, row, List.mem_cons_self .., fits⟩

end Walk

section RollBack

variable {s : AssetDB} {log : List EntityRow} {items : List EntityItem}

theorem Tracks.items_eq_nil (tracks : s.Tracks log items) (empty : s.memPool.count = 0) :
    items = [] := by
  cases items with
  | nil => rfl
  | cons item items =>
      have some := @length_poolRows_lt [] items item
      rw [List.nil_append, ← tracks.count_eq] at some
      omega

/-- Clearing the memory pool drops the items. -/
theorem Tracks.clearMemPool (tracks : s.Tracks log items) :
    s.clearMemPool.Tracks log [] ∧ s.clearMemPool.toEntityFiles = s.toEntityFiles ∧
      s.clearMemPool.block = s.block := by
  by_cases empty : s.memPool.count = 0
  · obtain rfl := tracks.items_eq_nil empty
    have unchanged : s.clearMemPool = s := if_pos empty
    rw [unchanged]
    exact ⟨tracks, rfl, rfl⟩
  · obtain ⟨header, headerAt, script, block, prevPos⟩ := tracks.header
    obtain ⟨lastRow, lastAt⟩ := exists_rowAt_lastPos tracks.chain headerAt
    have cleared : s.clearMemPool = { s with
        memPool := s.memPool.clear
        prevPos := entityShape.lastPos log
        pos := entityShape.endPos log } := by
      unfold AssetDB.clearMemPool
      rw [if_neg empty]
      dsimp only
      rw [headerAt]
      dsimp only
      rw [prevPos, lastAt]
      dsimp only
      rw [posBehind_lastPos tracks.chain headerAt script]
    rw [cleared]
    refine ⟨?_, rfl, rfl⟩
    exact
      { tracks with
        poolEq := RowBuffer.rows_clear _
        coherent := RowBuffer.coherent_clear _
        forecast := .nil
        header := ⟨header, headerAt, script, block, prevPos⟩
        prevPos := rfl
        endPos := rfl
        fresh := ⟨fun _ member => absurd member List.not_mem_nil, List.Pairwise.nil⟩ }

/-- The rows that a rollback reads have names that fit. -/
def NamesFit (block : Int) (log : List EntityRow) : Prop :=
  ∀ row ∈ rowsAbove block log ++ (rowsUpTo block log).head?.toList,
    (EntityDetails.ofRow row).NameFits

/-- A rollback ends in a fault, or the store tracks the rows up to the height. -/
theorem Tracks.rollBack (tracks : s.Tracks log items) (block : Int) :
    (s.rollBack block = .fault ∧ ¬ NamesFit block log) ∨
    ∃ next, s.rollBack block = .ended none next ∧ NamesFit block log ∧
      next.Tracks (rowsUpTo block log) [] ∧ next.block = block ∧
      ∀ keys, KnowsKeys keys s.database.read log →
        (KnowsKeys keys next.database.read (rowsUpTo block log) ↔
          KeepsKeys keys (rowsUpTo block log) (rowsAbove block log)) := by
  obtain ⟨cleared, sameFiles, -⟩ := tracks.clearMemPool
  have sameDatabase : s.clearMemPool.database = s.database := by rw [sameFiles]
  unfold AssetDB.rollBack
  dsimp only
  rw [← sameDatabase]
  generalize s.clearMemPool = store at cleared
  have whole := rowsAbove_append_rowsUpTo block log
  have enough : (rowsAbove block log ++ rowsUpTo block log).length < store.prevPos.toNat + 1 := by
    rw [whole, cleared.prevPos]
    exact cleared.chain.length_lt_lastPos
  have lastEq : store.prevPos =
      entityShape.lastPos (rowsAbove block log ++ rowsUpTo block log) := by
    rw [whole]
    exact cleared.prevPos
  rcases @rollBackWalk_undone _ _ _ _ _ [] whole.symm cleared.rows cleared.chain cleared.sound
    cleared.txids (fun row member => block_lt_of_mem_rowsAbove member)
    (fun row head => head_rowsUpTo_le head) store.database _ enough with
    ⟨fault, row, member, notFits⟩ | ⟨undone, walked, fits, committed, segment⟩
  · left
    rw [← lastEq] at fault
    rw [fault]
    exact ⟨rfl, fun fits => notFits (fits row member)⟩
  · right
    rw [← lastEq] at walked
    rw [walked]
    dsimp only
    have rowsEq : EntityLog (rowsAbove block log ++ rowsUpTo block log) := by
      rw [whole]
      exact cleared.rows
    have chainEq : entityShape.Chain store.ledger (rowsAbove block log ++ rowsUpTo block log) := by
      rw [whole]
      exact cleared.chain
    obtain ⟨header, headerAt, script, -, -⟩ := cleared.header
    obtain ⟨⟨written, writtenAt, writtenScript, writtenBlock, writtenPos⟩, chain⟩ :=
      setHeader_chain ⟨(undone.write (EntityFiles.zeroRowWrite ⟨undone, store.ledger⟩ block
        (entityShape.lastPos (rowsUpTo block log)))).commit, store.ledger⟩ chainEq.of_append headerAt
        script block (entityShape.lastPos (rowsUpTo block log))
    have endEq := posBehind_lastPos chain writtenAt writtenScript
    have readZero : undone.read .zero = store.database.read .zero := by
      unfold Store.read
      rw [committed]
    have records : ∀ key, (undone.write (EntityFiles.zeroRowWrite ⟨undone, store.ledger⟩ block
        (entityShape.lastPos (rowsUpTo block log)))).commit.read key =
          if EntityKey.zero = key then
            some ⟨block, entityShape.lastPos (rowsUpTo block log), 0, 0⟩
          else pendingRecords undone key := by
      intro key
      refine (pendingRecords_write _ _ key).trans ?_
      change (if EntityKey.zero = key then
        some { (undone.read .zero).getD .zero with
          block := block, ledgerPos := entityShape.lastPos (rowsUpTo block log) } else _) = _
      rw [readZero, cleared.zeroRow]
      rfl
    have same : ∀ key, key ≠ .zero → (undone.write (EntityFiles.zeroRowWrite
        ⟨undone, store.ledger⟩ block (entityShape.lastPos (rowsUpTo block log)))).commit.read key =
          pendingRecords undone key := by
      intro key notZero
      rw [records, if_neg notZero.symm]
    have before := pendingRecords_of_pending_nil cleared.noWrites
    rw [before] at segment
    have knows : ∀ keys, KnowsKeys keys store.database.read log →
        (KnowsKeys keys (undone.write (EntityFiles.zeroRowWrite ⟨undone, store.ledger⟩ block
          (entityShape.lastPos (rowsUpTo block log)))).commit.read (rowsUpTo block log) ↔
            KeepsKeys keys (rowsUpTo block log) (rowsAbove block log)) := by
      intro keys known
      rw [← whole] at known
      rw [← segment.knowsKeys_iff rowsEq known]
      have restLog := rowsEq.of_append
      exact ⟨fun knows => ⟨knows.complete.congr restLog fun key notZero =>
          (same key notZero).symm, knows.distinct⟩,
        fun knows => ⟨knows.complete.congr restLog same, knows.distinct⟩⟩
    have soundBefore := cleared.sound
    rw [← whole] at soundBefore
    have txidsKept := keepsKeys_isTxid rowsEq (by rw [whole]; exact cleared.txids.distinct)
    refine ⟨_, rfl, fits, ?_, rfl, knows⟩
    exact
      { poolEq := cleared.poolEq
        coherent := cleared.coherent
        forecast := .nil
        rows := rowsEq.of_append
        chain := chain
        header := ⟨written, writtenAt, writtenScript, writtenBlock, writtenPos⟩
        zeroRow := (records .zero).trans (if_pos rfl)
        sorted := cleared.sorted.sublist (List.dropWhile_sublist _)
        blocks_le := fun row member => block_le_of_mem_rowsUpTo cleared.sorted member
        prevPos := rfl
        endPos := endEq
        noWrites := rfl
        sound := (soundBefore.undoneSegment rowsEq segment).congr same
        txids := (knows _ cleared.txids).2 txidsKept
        fresh := ⟨fun _ member => absurd member List.not_mem_nil, List.Pairwise.nil⟩ }

end RollBack

end AssetDB

end HdacNode
