import HdacNode.WalletListSteps
import Mathlib.Data.List.DropRight

/-!
# Wallet lists when blocks are committed and rolled back

`Commit` moves the waiting rows of all lists to the database.  `RollBack`
takes the rows of the blocks above a height off the lists by chain position;
as their blocks are in order, what stays are the rows up to that height.
-/

namespace HdacNode

open NumberedRows WriteBatch

variable {Tx : Type}

/-- The writes that store the memory pool. -/
def poolWrites (pool : List TxEntityRow) : List (Write TxRowKey TxRowValue) :=
  pool.map fun row => ⟨row.placed.key, some row.placed.value⟩

theorem poolWrites_concat (pool : List TxEntityRow) (row : TxEntityRow) :
    poolWrites (pool ++ [row]) =
      poolWrites pool ++ [⟨row.placed.key, some row.placed.value⟩] := by
  simp [poolWrites]

theorem commitPool_eq (rows : RowStore) {pool : List TxEntityRow}
    (numbered : ∀ row ∈ pool, 1 ≤ row.tempPos) :
    commitPool rows false pool =
      ({ rows with pending := rows.pending ++ poolWrites pool },
        pool.map TxEntityRow.placed, none) := by
  induction pool generalizing rows with
  | nil => simp [commitPool, poolWrites]
  | cons row pool ih =>
      have hasPos := numbered row List.mem_cons_self
      have noAnchor : ¬ (row.entity.entityType.subKey = true ∧ row.tempPos = 0) := by
        intro anchor
        omega
      have rest := ih (putRow rows row.placed.key row.placed.value)
        fun other member => numbered other (List.mem_cons_of_mem _ member)
      simp only [commitPool, noAnchor, if_false, Bool.false_eq_true, false_and, rest]
      simp [putRow, Store.write, poolWrites]

theorem holds_applyBatch_poolWrites {table : Table TxRowKey TxRowValue} {entity : TxEntity}
    {confirmed : List TxRowValue} {pool : List TxEntityRow}
    (holds : Holds (fun pos => WriteBatch.get table ⟨entity, 0, pos⟩) confirmed)
    (generation : ∀ row ∈ pool, row.generation = 0)
    (numbered : (waitingRows pool entity).map (fun row => row.tempPos) =
      List.range' (confirmed.length + 1) (waitingRows pool entity).length) :
    Holds (fun pos => WriteBatch.get (applyBatch table (poolWrites pool)) ⟨entity, 0, pos⟩)
      (confirmed ++ (waitingRows pool entity).map TxEntityRow.value) := by
  induction pool using List.reverseRecOn with
  | nil =>
      rw [waitingRows_nil, List.map_nil, List.append_nil]
      exact holds
  | append_singleton pool row ih =>
      have before : ∀ other ∈ pool, other.generation = 0 := fun other member =>
        generation other (List.mem_append_left _ member)
      have ofRow := generation row (by simp)
      have stored : ∀ pos, WriteBatch.get (applyBatch table (poolWrites (pool ++ [row])))
          ⟨entity, 0, pos⟩ =
          if row.entity = entity ∧ row.tempPos = pos then some row.value
          else WriteBatch.get (applyBatch table (poolWrites pool)) ⟨entity, 0, pos⟩ := by
        intro pos
        rw [poolWrites_concat, applyBatch_append]
        change WriteBatch.get (applyWrite (applyBatch table (poolWrites pool))
          ⟨row.placed.key, some row.placed.value⟩) ⟨entity, 0, pos⟩ = _
        rw [get_applyWrite]
        by_cases atKey : row.entity = entity ∧ row.tempPos = pos
        · rw [if_pos atKey, if_pos]
          · rfl
          · simp [TxEntityRow.placed, TxEntityRow.key, atKey.1, atKey.2, ofRow]
        · rw [if_neg atKey, if_neg]
          intro sameKey
          refine atKey ?_
          simp only [TxEntityRow.placed, TxEntityRow.key, TxRowKey.mk.injEq] at sameKey
          exact ⟨sameKey.1, sameKey.2.2⟩
      rw [waitingRows_append, waitingRows_singleton] at numbered ⊢
      by_cases ofEntity : row.entity = entity
      · rw [if_pos ofEntity] at numbered ⊢
        rw [List.map_append, List.length_append, List.length_singleton, List.range'_concat] at numbered
        obtain ⟨earlier, atEnd⟩ := List.append_inj' numbered rfl
        have position : row.tempPos = confirmed.length + 1 + (waitingRows pool entity).length := by
          simpa using atEnd
        rw [List.map_append, ← List.append_assoc]
        refine (ih before earlier).concat ?_
        intro pos
        rw [stored pos, List.length_append, List.length_map]
        by_cases here : pos = confirmed.length + (waitingRows pool entity).length + 1
        · rw [if_pos here, if_pos ⟨ofEntity, by omega⟩]
        · rw [if_neg here, if_neg (fun atKey => here (by omega))]
      · rw [if_neg ofEntity, List.append_nil] at numbered ⊢
        refine (ih before numbered).congr ?_
        intro pos
        rw [stored pos, if_neg (fun atKey => ofEntity atKey.1)]

/-- The rows at the confirmed positions of an entity. -/
def confirmedRows (rows : RowStore) (stat : TxEntityStat) : List TxRowValue :=
  (List.range' 1 stat.lastClearedPos).filterMap fun pos => rows.read (stat.key pos)

/-- In a gap-free list these are all confirmed rows. -/
theorem confirmedRows_eq {rows : RowStore} {stat : TxEntityStat} {confirmed : List TxRowValue}
    (generation : stat.generation = 0) (holds : holdsList rows stat.entity confirmed)
    (cleared : stat.lastClearedPos = confirmed.length) :
    confirmedRows rows stat = confirmed := by
  unfold confirmedRows TxEntityStat.key
  rw [generation, cleared]
  exact holds.filterMap_range

/-- The rows that stay when the blocks above a height are rolled back. -/
def keptRows (block : Int) (confirmed : List TxRowValue) : List TxRowValue :=
  confirmed.rdropWhile fun value => block < value.block

theorem keptRows_initial (block : Int) (confirmed : List TxRowValue) :
    keptRows block confirmed <+: confirmed :=
  List.rdropWhile_prefix _ confirmed

theorem block_le_of_mem_keptRows {block : Int} {confirmed : List TxRowValue}
    (ordered : (confirmed.map TxRowValue.block).Pairwise fun first second => first ≤ second)
    {value : TxRowValue} (member : value ∈ keptRows block confirmed) : value.block ≤ block := by
  induction confirmed using List.reverseRecOn with
  | nil => simp [keptRows] at member
  | append_singleton confirmed last ih =>
      rw [List.map_append, List.pairwise_append] at ordered
      unfold keptRows at member
      by_cases above : block < last.block
      · rw [List.rdropWhile_concat_pos _ _ _ (by simpa using above)] at member
        exact ih ordered.1 member
      · rw [List.rdropWhile_concat_neg _ _ _ (by simpa using above)] at member
        rcases List.mem_append.1 member with member | member
        · have := ordered.2.2 value.block (List.mem_map_of_mem member) last.block (by simp)
          omega
        · rw [List.mem_singleton.1 member]
          omega

/-- A series of deletes does not change what is read before the commit. -/
theorem read_foldl_eraseRow (rows : RowStore) (keys : List TxRowKey) (key : TxRowKey) :
    (keys.foldl eraseRow rows).read key = rows.read key := by
  induction keys generalizing rows with
  | nil => rfl
  | cons first keys ih =>
      rw [List.foldl_cons, ih]
      rfl

/-- The deletes of `RollBack` for one entity, and the position it arrives at. -/
theorem dropAbove_eq (rows : RowStore) {stat : TxEntityStat} (generation : stat.generation = 0)
    (block : Int) {confirmed : List TxRowValue} {count : Nat}
    (holds : holdsList rows stat.entity confirmed) (within : count ≤ confirmed.length) :
    ∃ keys : List TxRowKey, dropAbove rows stat block count =
        (keys.foldl eraseRow rows, (keptRows block (confirmed.take count)).length, none) ∧
      ∀ key, key ∈ keys ↔ ∃ pos, (keptRows block (confirmed.take count)).length < pos ∧
        pos ≤ count ∧ key = ⟨stat.entity, 0, pos⟩ := by
  induction count generalizing rows with
  | zero =>
      refine ⟨[], by simp [dropAbove, keptRows], fun key => ?_⟩
      simp only [List.not_mem_nil, false_iff]
      rintro ⟨pos, above, below, -⟩
      omega
  | succ count ih =>
      have inside : count < confirmed.length := by omega
      have key : stat.key (count + 1) = ⟨stat.entity, 0, count + 1⟩ := by
        unfold TxEntityStat.key
        rw [generation]
      have found : rows.read (stat.key (count + 1)) = some confirmed[count] := by
        rw [key]
        exact holds.read_eq inside
      have takeSucc : confirmed.take (count + 1) = confirmed.take count ++ [confirmed[count]] := by
        simp
      unfold dropAbove
      rw [found]
      dsimp only
      by_cases above : block < confirmed[count].block
      · obtain ⟨keys, dropped, members⟩ := ih (eraseRow rows (stat.key (count + 1))) holds
          (Nat.le_of_lt inside)
        have kept : keptRows block (confirmed.take (count + 1)) =
            keptRows block (confirmed.take count) := by
          unfold keptRows
          rw [takeSucc, List.rdropWhile_concat_pos _ _ _ (by simpa using above)]
        rw [if_pos above, kept]
        refine ⟨stat.key (count + 1) :: keys, dropped, fun other => ?_⟩
        rw [List.mem_cons, members]
        have keptCount : (keptRows block (confirmed.take count)).length ≤ count := by
          have := (keptRows_initial block (confirmed.take count)).length_le
          rw [List.length_take] at this
          omega
        constructor
        · rintro (rfl | ⟨pos, first, last, rfl⟩)
          · exact ⟨count + 1, by omega, le_rfl, key⟩
          · exact ⟨pos, first, by omega, rfl⟩
        · rintro ⟨pos, first, last, rfl⟩
          by_cases atEnd : pos = count + 1
          · subst atEnd
            exact .inl key.symm
          · exact .inr ⟨pos, first, by omega, rfl⟩
      · have kept : keptRows block (confirmed.take (count + 1)) = confirmed.take (count + 1) := by
          unfold keptRows
          rw [takeSucc, List.rdropWhile_concat_neg _ _ _ (by simpa using above)]
        have length : (keptRows block (confirmed.take (count + 1))).length = count + 1 := by
          rw [kept, List.length_take]
          omega
        rw [if_neg above, length]
        refine ⟨[], rfl, fun other => ?_⟩
        simp only [List.not_mem_nil, false_iff]
        rintro ⟨pos, first, last, -⟩
        omega

/-- The positions of an entity after its list was rolled back. -/
def TxEntityStat.rolledBack (rows : RowStore) (block : Int) (stat : TxEntityStat) :
    TxEntityStat :=
  if stat.entity.entityType.order ≠ .timeReceived then
    { stat with
      lastPos := (keptRows block (confirmedRows rows stat)).length
      lastClearedPos := (keptRows block (confirmedRows rows stat)).length }
  else stat

theorem confirmedRows_foldl_eraseRow (rows : RowStore) (keys : List TxRowKey)
    (stat : TxEntityStat) : confirmedRows (keys.foldl eraseRow rows) stat =
      confirmedRows rows stat := by
  unfold confirmedRows
  simp only [read_foldl_eraseRow]

/-- The keys that `RollBack` deletes: those of the rows of lists by chain
position that do not stay. -/
def IsRolledBack (rows : RowStore) (block : Int) (stats : List TxEntityStat) (key : TxRowKey) :
    Prop :=
  ∃ stat ∈ stats, stat.entity.entityType.order ≠ .timeReceived ∧
    ∃ pos, (keptRows block (confirmedRows rows stat)).length < pos ∧
      pos ≤ stat.lastClearedPos ∧ key = ⟨stat.entity, 0, pos⟩

/-- `RollBack` finds every row of gap-free lists and deletes those above the
height. -/
theorem dropEntities_eq (rows : RowStore) (block : Int) {stats : List TxEntityStat}
    (numbered : ∀ stat ∈ stats, stat.generation = 0 ∧ ∃ confirmed,
      holdsList rows stat.entity confirmed ∧ stat.lastClearedPos = confirmed.length) :
    ∃ keys : List TxRowKey, dropEntities rows block stats =
        (keys.foldl eraseRow rows, stats.map (TxEntityStat.rolledBack rows block), none) ∧
      ∀ key, key ∈ keys ↔ IsRolledBack rows block stats key := by
  induction stats generalizing rows with
  | nil => exact ⟨[], rfl, fun key => by simp [IsRolledBack]⟩
  | cons stat stats ih =>
      obtain ⟨generation, confirmed, holds, cleared⟩ := numbered stat List.mem_cons_self
      have others : ∀ other ∈ stats, other.generation = 0 ∧ ∃ confirmed,
          holdsList rows other.entity confirmed ∧ other.lastClearedPos = confirmed.length :=
        fun other member => numbered other (List.mem_cons_of_mem _ member)
      by_cases byPosition : stat.entity.entityType.order ≠ .timeReceived
      · obtain ⟨own, dropped, ownKeys⟩ := dropAbove_eq rows generation block holds
          (Nat.le_of_eq cleared)
        have sameRows := confirmedRows_eq generation holds cleared
        have sameLength : (confirmedRows rows stat).length = stat.lastClearedPos := by
          rw [sameRows, cleared]
        rw [cleared, List.take_length, ← sameRows] at dropped ownKeys
        obtain ⟨rest, restDropped, restKeys⟩ := ih (own.foldl eraseRow rows) (by
          intro other member
          obtain ⟨otherGeneration, otherConfirmed, otherHolds, otherCleared⟩ := others other member
          refine ⟨otherGeneration, otherConfirmed, otherHolds.congr ?_, otherCleared⟩
          intro pos
          exact read_foldl_eraseRow rows own _)
        refine ⟨own ++ rest, ?_, fun key => ?_⟩
        · rw [List.foldl_append, dropEntities, if_pos byPosition, cleared, ← sameRows, dropped]
          dsimp only
          rw [restDropped, List.map_cons]
          have sameStat : stat.rolledBack rows block = { stat with
              lastPos := (keptRows block (confirmedRows rows stat)).length
              lastClearedPos := (keptRows block (confirmedRows rows stat)).length } :=
            if_pos byPosition
          have sameStats : TxEntityStat.rolledBack (own.foldl eraseRow rows) block =
              TxEntityStat.rolledBack rows block := by
            funext other
            unfold TxEntityStat.rolledBack
            rw [confirmedRows_foldl_eraseRow]
          rw [sameStat, sameStats]
        · rw [List.mem_append, ownKeys, restKeys]
          unfold IsRolledBack
          simp only [List.mem_cons, confirmedRows_foldl_eraseRow]
          constructor
          · rintro (⟨pos, first, last, rfl⟩ | ⟨other, member, rest⟩)
            · exact ⟨stat, .inl rfl, byPosition, pos, first, by omega, rfl⟩
            · exact ⟨other, .inr member, rest⟩
          · rintro ⟨other, rfl | member, otherOrder, pos, first, last, rfl⟩
            · exact .inl ⟨pos, first, by omega, rfl⟩
            · exact .inr ⟨other, member, otherOrder, pos, first, last, rfl⟩
      · obtain ⟨rest, restDropped, restKeys⟩ := ih rows others
        refine ⟨rest, ?_, fun key => ?_⟩
        · rw [dropEntities, if_neg byPosition, restDropped, List.map_cons]
          have sameStat : stat.rolledBack rows block = stat := if_neg byPosition
          rw [sameStat]
        · rw [restKeys]
          unfold IsRolledBack
          simp only [List.mem_cons]
          constructor
          · rintro ⟨other, member, rest⟩
            exact ⟨other, .inr member, rest⟩
          · rintro ⟨other, rfl | member, otherOrder, rest⟩
            · exact absurd otherOrder byPosition
            · exact ⟨other, member, otherOrder, rest⟩

theorem dropAllDecremented_eq (rows : RowStore) {pool : List TxEntityRow}
    (numbered : ∀ row ∈ pool, 1 ≤ row.tempPos) : dropAllDecremented rows pool = (rows, none) := by
  induction pool with
  | nil => rfl
  | cons row pool ih =>
      have hasPos := numbered row List.mem_cons_self
      have notDecremented : ¬ row.Decremented := by
        intro decremented
        have := decremented.2.1
        omega
      rw [dropAllDecremented, if_neg notDecremented]
      exact ih fun other member => numbered other (List.mem_cons_of_mem _ member)

theorem TxEntityStat.entity_rolledBack (rows : RowStore) (block : Int) (stat : TxEntityStat) :
    (stat.rolledBack rows block).entity = stat.entity := by
  unfold TxEntityStat.rolledBack
  split <;> rfl

theorem TxEntityStat.generation_rolledBack (rows : RowStore) (block : Int) (stat : TxEntityStat) :
    (stat.rolledBack rows block).generation = stat.generation := by
  unfold TxEntityStat.rolledBack
  split <;> rfl

namespace TxImport

/-- The import after a roll back. -/
def rolledBack (rows : RowStore) (block : Int) (imp : TxImport Tx) : TxImport Tx :=
  { imp with
    block := block
    entities := imp.entities.map (TxEntityStat.rolledBack rows block)
    memPool := keepTimeReceived imp.memPool }

end TxImport

/-- `RollBack` leaves the lists with their rows up to the height. -/
theorem ImportInOrder.rollBack {rows : RowStore} {ledger : BlockLedger} {known : Hash → Prop}
    {imp : TxImport Tx} (inOrder : ImportInOrder rows ledger known imp) (block : Int)
    {next : RowStore}
    (deleted : ∀ key, (IsRolledBack rows block imp.entities key → next.read key = none) ∧
      (¬ IsRolledBack rows block imp.entities key → next.read key = rows.read key)) :
    ImportInOrder next (ledger.rollBack block) known (imp.rolledBack rows block) := by
  refine ⟨inOrder.isChain, ?_, ?_, fun row member => inOrder.pool row (mem_keepTimeReceived member),
    ?_⟩
  · unfold TxImport.rolledBack
    rw [List.map_map]
    convert inOrder.distinct using 2
    funext stat
    exact TxEntityStat.entity_rolledBack rows block stat
  · intro stat member
    obtain ⟨old, oldMember, rfl⟩ := List.mem_map.1 member
    rw [TxEntityStat.entity_rolledBack, TxEntityStat.generation_rolledBack]
    exact inOrder.plain old oldMember
  · intro stat member
    obtain ⟨old, oldMember, rfl⟩ := List.mem_map.1 member
    obtain ⟨confirmed, listed⟩ := inOrder.listed old oldMember
    have sameRows := confirmedRows_eq (inOrder.plain old oldMember).1 listed.holds listed.cleared
    have waits := waitingRows_keepTimeReceived imp.memPool old.entity
    by_cases byPosition : old.entity.entityType.order ≠ .timeReceived
    · have stays : ∀ pos, IsRolledBack rows block imp.entities ⟨old.entity, 0, pos⟩ ↔
          (keptRows block confirmed).length < pos ∧ pos ≤ confirmed.length := by
        intro pos
        constructor
        · rintro ⟨other, otherMember, -, place, first, last, sameKey⟩
          simp only [TxRowKey.mk.injEq, true_and] at sameKey
          obtain ⟨sameEntity, samePos⟩ := sameKey
          have sameStat : old = other :=
            List.inj_on_of_nodup_map inOrder.distinct oldMember otherMember sameEntity
          rw [← sameStat, sameRows] at first
          rw [← sameStat, listed.cleared] at last
          omega
        · rintro ⟨first, last⟩
          refine ⟨old, oldMember, byPosition, pos, ?_, ?_, rfl⟩
          · rw [sameRows]
            exact first
          · rw [listed.cleared]
            exact last
      obtain ⟨dropped, split⟩ := keptRows_initial block confirmed
      have heldSplit : Holds (fun pos => rows.read ⟨old.entity, 0, pos⟩)
          (keptRows block confirmed ++ dropped) := by
        rw [split]
        exact listed.holds
      have holds : holdsList next old.entity (keptRows block confirmed) := by
        refine heldSplit.dropEnd ?_
        intro pos
        rw [split]
        by_cases gone : (keptRows block confirmed).length < pos ∧ pos ≤ confirmed.length
        · rw [if_pos gone]
          exact (deleted _).1 ((stays pos).2 gone)
        · rw [if_neg gone]
          exact (deleted _).2 fun rolled => gone ((stays pos).1 rolled)
      rw [if_neg byPosition] at waits
      have positions : old.rolledBack rows block = { old with
          lastPos := (keptRows block confirmed).length
          lastClearedPos := (keptRows block confirmed).length } := by
        unfold TxEntityStat.rolledBack
        rw [if_pos byPosition, sameRows]
      have sublist := (keptRows_initial block confirmed).sublist
      refine ⟨keptRows block confirmed, ?_⟩
      rw [positions]
      refine listed_of_nothingWaiting byPosition holds rfl rfl waits ?_ ?_ ?_ ?_
      · exact (List.nodup_append.1 listed.distinct).1.sublist (sublist.map _)
      · intro value valueMember
        have upTo := block_le_of_mem_keptRows (listed.ordered byPosition) valueMember
        exact List.mem_filter.2 ⟨listed.inChain byPosition value (sublist.subset valueMember),
          by simpa using upTo⟩
      · exact (listed.ordered byPosition).sublist (sublist.map _)
      · intro value valueMember
        exact block_le_of_mem_keptRows (listed.ordered byPosition) valueMember
    · have byTime : old.entity.entityType.order = .timeReceived := not_not.1 byPosition
      have untouched : old.rolledBack rows block = old := if_neg byPosition
      rw [if_pos byTime] at waits
      refine ⟨confirmed, ?_⟩
      rw [untouched]
      refine listed.of_timeReceived byTime ?_ waits fun _ => id
      refine listed.holds.congr ?_
      intro pos
      refine (deleted _).2 ?_
      rintro ⟨other, -, otherOrder, place, -, -, sameKey⟩
      simp only [TxRowKey.mk.injEq, true_and] at sameKey
      rw [← sameKey.1] at otherOrder
      exact otherOrder byTime

/-- Every row that waits in a list by chain position has a height. -/
def RowsHaveHeights (imp : TxImport Tx) : Prop :=
  ∀ stat ∈ imp.entities, stat.entity.entityType.order ≠ .timeReceived →
    ∀ row ∈ waitingRows imp.memPool stat.entity, 0 ≤ row.block

/-- `Commit` moves all waiting rows to the database. -/
theorem ImportInOrder.commit {rows : RowStore} {ledger : BlockLedger} {known nowKnown : Hash → Prop}
    {imp : TxImport Tx} (inOrder : ImportInOrder rows ledger known imp)
    (heights : RowsHaveHeights imp) (settled : rows.pending = [])
    (moreKnown : ∀ hash, known hash → nowKnown hash) :
    ImportInOrder (Store.commit { rows with pending := rows.pending ++ poolWrites imp.memPool })
      (ledger.commit (imp.block + 1)) nowKnown (imp.cleared (imp.block + 1)) := by
  refine ⟨inOrder.isChain, ?_, ?_, fun row member => absurd member List.not_mem_nil, ?_⟩
  · unfold TxImport.cleared
    rw [List.map_map]
    exact inOrder.distinct
  · intro stat member
    obtain ⟨old, oldMember, rfl⟩ := List.mem_map.1 member
    exact inOrder.plain old oldMember
  · intro stat member
    obtain ⟨old, oldMember, rfl⟩ := List.mem_map.1 member
    obtain ⟨confirmed, listed⟩ := inOrder.listed old oldMember
    have holds : holdsList
        (Store.commit { rows with pending := rows.pending ++ poolWrites imp.memPool }) old.entity
        (confirmed ++ (waitingRows imp.memPool old.entity).map TxEntityRow.value) := by
      rw [settled]
      exact holds_applyBatch_poolWrites listed.holds
        (fun row rowMember => (inOrder.pool row rowMember).1) listed.numbered
    have atHeight : old.entity.entityType.order ≠ .timeReceived →
        ∀ row ∈ waitingRows imp.memPool old.entity, row.block = imp.block + 1 :=
      fun byPosition row rowMember => (listed.ofBlock byPosition row rowMember
        (heights old oldMember byPosition row rowMember)).1
    have ids : (confirmed ++ (waitingRows imp.memPool old.entity).map TxEntityRow.value).map
        TxRowValue.txId = confirmed.map TxRowValue.txId ++
          (waitingRows imp.memPool old.entity).map TxEntityRow.txId := by
      rw [List.map_append, List.map_map]
      rfl
    have last : old.lastPos =
        (confirmed ++ (waitingRows imp.memPool old.entity).map TxEntityRow.value).length := by
      rw [List.length_append, List.length_map]
      exact listed.last
    refine ⟨_, holds, last, last, rfl, ?_, ?_, ?_, ?_, ?_,
      fun _ row rowMember => absurd rowMember List.not_mem_nil,
      fun _ row rowMember => absurd rowMember List.not_mem_nil⟩
    · rw [ids]
      simpa [TxImport.cleared] using listed.distinct
    · intro byTime
      refine ⟨fun value valueMember => moreKnown _ ?_,
        fun row rowMember => absurd rowMember List.not_mem_nil⟩
      rcases List.mem_append.1 valueMember with valueMember | valueMember
      · exact (listed.known byTime).1 value valueMember
      · obtain ⟨row, rowMember, rfl⟩ := List.mem_map.1 valueMember
        exact (listed.known byTime).2 row rowMember
    · intro byPosition value valueMember
      rcases List.mem_append.1 valueMember with valueMember | valueMember
      · exact List.mem_append_left _ (listed.inChain byPosition value valueMember)
      · obtain ⟨row, rowMember, rfl⟩ := List.mem_map.1 valueMember
        obtain ⟨ofBlock, pending⟩ := listed.ofBlock byPosition row rowMember
          (heights old oldMember byPosition row rowMember)
        refine List.mem_append_right _ (List.mem_map.2 ⟨row.txId, pending, ?_⟩)
        exact congrArg (Prod.mk row.txId) ofBlock.symm
    · intro byPosition
      rw [List.map_append, List.map_map]
      refine List.pairwise_append.2 ⟨listed.ordered byPosition, ?_, ?_⟩
      · rw [List.pairwise_map]
        refine List.pairwise_of_forall_mem_list fun first firstMember second secondMember => ?_
        have := atHeight byPosition first firstMember
        have := atHeight byPosition second secondMember
        simp only [Function.comp, TxEntityRow.value]
        omega
      · intro earlier earlierMember later laterMember
        obtain ⟨value, valueMember, rfl⟩ := List.mem_map.1 earlierMember
        obtain ⟨row, rowMember, rfl⟩ := List.mem_map.1 laterMember
        have := listed.below byPosition value valueMember
        have := atHeight byPosition row rowMember
        simp only [Function.comp, TxEntityRow.value]
        omega
    · intro byPosition value valueMember
      rcases List.mem_append.1 valueMember with valueMember | valueMember
      · have := listed.below byPosition value valueMember
        simp only [TxImport.cleared]
        omega
      · obtain ⟨row, rowMember, rfl⟩ := List.mem_map.1 valueMember
        have := atHeight byPosition row rowMember
        simp only [TxImport.cleared, TxEntityRow.value]
        omega

end HdacNode
