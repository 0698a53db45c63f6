import HdacNode.NumberedRows
import HdacNode.WalletLists

/-!
# What the wallet's list operations keep

The list of a tracked entity consists of the rows in the database, numbered
from one, and of the rows that wait in the memory pool, numbered on from
there.  Every operation on the chain import keeps such lists, as long as a
transaction is added to a list by chain position only before it is confirmed.
-/

namespace HdacNode

open NumberedRows WriteBatch

variable {Tx : Type}

/-- The memory pool rows of an entity. -/
def waitingRows (pool : List TxEntityRow) (entity : TxEntity) : List TxEntityRow :=
  pool.filter fun row => row.entity = entity

@[simp]
theorem waitingRows_nil (entity : TxEntity) : waitingRows [] entity = [] := rfl

theorem waitingRows_append (pool behind : List TxEntityRow) (entity : TxEntity) :
    waitingRows (pool ++ behind) entity = waitingRows pool entity ++ waitingRows behind entity :=
  List.filter_append ..

theorem waitingRows_singleton (row : TxEntityRow) (entity : TxEntity) :
    waitingRows [row] entity = if row.entity = entity then [row] else [] := by
  simp [waitingRows, List.filter_cons]

theorem mem_waitingRows {pool : List TxEntityRow} {entity : TxEntity} {row : TxEntityRow} :
    row ∈ waitingRows pool entity ↔ row ∈ pool ∧ row.entity = entity := by
  simp [waitingRows]

/-- Rows of lists by time received all stay, rows of other lists all go. -/
theorem waitingRows_keepTimeReceived (pool : List TxEntityRow) (entity : TxEntity) :
    waitingRows (keepTimeReceived pool) entity =
      if entity.entityType.order = .timeReceived then waitingRows pool entity else [] := by
  unfold waitingRows keepTimeReceived
  rw [List.filter_filter]
  split
  · rename_i byTime
    apply List.filter_congr
    intro row _
    by_cases same : row.entity = entity
    · simp [same, byTime]
    · simp [same]
  · rename_i byPosition
    rw [List.filter_eq_nil_iff]
    intro row _
    by_cases same : row.entity = entity
    · simp [same, byPosition]
    · simp [same]

theorem waitingRows_modify (pool : List TxEntityRow) (place : Nat)
    (change : TxEntityRow → TxEntityRow) (entity : TxEntity)
    (sameEntity : ∀ row, (change row).entity = row.entity) {Image : Type}
    (view : TxEntityRow → Image) (sameView : ∀ row, view (change row) = view row) :
    (waitingRows (pool.modify place change) entity).map view =
      (waitingRows pool entity).map view := by
  induction pool generalizing place with
  | nil => simp
  | cons row pool ih =>
      cases place with
      | zero =>
          rw [List.modify_zero_cons]
          unfold waitingRows
          simp only [List.filter_cons, sameEntity]
          split
          · simp [sameView]
          · rfl
      | succ place =>
          rw [List.modify_succ_cons]
          unfold waitingRows at ih ⊢
          simp only [List.filter_cons]
          split
          · simp [ih]
          · exact ih place

theorem mem_modify {pool : List TxEntityRow} {place : Nat}
    {change : TxEntityRow → TxEntityRow} {row : TxEntityRow}
    (member : row ∈ pool.modify place change) :
    row ∈ pool ∨ ∃ old, pool[place]? = some old ∧ row = change old := by
  induction pool generalizing place with
  | nil => simp at member
  | cons first pool ih =>
      cases place with
      | zero =>
          rw [List.modify_zero_cons] at member
          rcases List.mem_cons.1 member with rfl | member
          · exact .inr ⟨first, rfl, rfl⟩
          · exact .inl (List.mem_cons_of_mem _ member)
      | succ place =>
          rw [List.modify_succ_cons] at member
          rcases List.mem_cons.1 member with rfl | member
          · exact .inl List.mem_cons_self
          · rcases ih member with kept | changed
            · exact .inl (List.mem_cons_of_mem _ kept)
            · exact .inr changed

theorem seekPool_eq_none {pool : List TxEntityRow} {key : TxRowKey} {txId : Hash} :
    seekPool pool key txId = none ↔ ∀ row ∈ pool, row.key = key → row.txId ≠ txId := by
  simp [seekPool, TxEntityRow.poolKey]

theorem txId_of_seekPool {pool : List TxEntityRow} {key : TxRowKey} {txId : Hash} {place : Nat}
    {row : TxEntityRow} (found : seekPool pool key txId = some place)
    (atPlace : pool[place]? = some row) : row.txId = txId := by
  obtain ⟨inside, isRow, -⟩ := List.findIdx?_eq_some_iff_getElem.1 found
  obtain ⟨_, same⟩ := List.getElem?_eq_some_iff.1 atPlace
  rw [same] at isRow
  simp only [TxEntityRow.poolKey, decide_eq_true_eq, Prod.mk.injEq] at isRow
  exact isRow.2

/-- The blocks of the chain as the callers see them: whether a block is open,
the transactions added with its height, and the transactions of the blocks
that were committed and not rolled back. -/
structure BlockLedger where
  inBlock : Bool
  pending : List Hash
  confirmed : List (Hash × Int)

namespace BlockLedger

/-- A transaction is in a block that was committed and not rolled back. -/
def IsConfirmed (ledger : BlockLedger) (hash : Hash) : Prop :=
  ∃ block, (hash, block) ∈ ledger.confirmed

/-- The ledger while transactions are added with the height of the open block. -/
def add (ledger : BlockLedger) (hash : Hash) (block : Int) : BlockLedger :=
  if 0 ≤ block then { ledger with pending := hash :: ledger.pending } else ledger

/-- The ledger at the start of a block. -/
def begin (ledger : BlockLedger) : BlockLedger :=
  { ledger with
    inBlock := true
    pending := [] }

/-- The ledger when a block of some height is committed. -/
def commit (ledger : BlockLedger) (height : Int) : BlockLedger where
  inBlock := false
  pending := []
  confirmed := ledger.confirmed ++ ledger.pending.map fun hash => (hash, height)

/-- The ledger when the blocks above a height are rolled back. -/
def rollBack (ledger : BlockLedger) (block : Int) : BlockLedger where
  inBlock := false
  pending := []
  confirmed := ledger.confirmed.filter fun entry => entry.2 ≤ block

end BlockLedger

/-- The confirmed rows of an entity's list in the database. -/
def holdsList (rows : RowStore) (entity : TxEntity) (confirmed : List TxRowValue) : Prop :=
  Holds (fun pos => rows.read ⟨entity, 0, pos⟩) confirmed

/-- The rows of a tracked entity make one numbered list without a transaction
twice.  In lists by chain position the confirmed rows are those of confirmed
transactions in block order, and the rows that wait with a height are those of
the open block.  In lists by time received all transactions are known. -/
structure Listed (rows : RowStore) (pool : List TxEntityRow) (height : Int)
    (ledger : BlockLedger) (known : Hash → Prop) (stat : TxEntityStat)
    (confirmed : List TxRowValue) : Prop where
  holds : holdsList rows stat.entity confirmed
  cleared : stat.lastClearedPos = confirmed.length
  last : stat.lastPos = confirmed.length + (waitingRows pool stat.entity).length
  numbered : (waitingRows pool stat.entity).map (fun row => row.tempPos) =
    List.range' (confirmed.length + 1) (waitingRows pool stat.entity).length
  distinct : (confirmed.map TxRowValue.txId ++
    (waitingRows pool stat.entity).map TxEntityRow.txId).Nodup
  known : stat.entity.entityType.order = .timeReceived →
    (∀ value ∈ confirmed, known value.txId) ∧
      ∀ row ∈ waitingRows pool stat.entity, known row.txId
  inChain : stat.entity.entityType.order ≠ .timeReceived →
    ∀ value ∈ confirmed, (value.txId, value.block) ∈ ledger.confirmed
  ordered : stat.entity.entityType.order ≠ .timeReceived →
    (confirmed.map TxRowValue.block).Pairwise fun first second => first ≤ second
  below : stat.entity.entityType.order ≠ .timeReceived →
    ∀ value ∈ confirmed, value.block ≤ height
  unconfirmed : stat.entity.entityType.order ≠ .timeReceived →
    ∀ row ∈ waitingRows pool stat.entity, ¬ ledger.IsConfirmed row.txId
  ofBlock : stat.entity.entityType.order ≠ .timeReceived →
    ∀ row ∈ waitingRows pool stat.entity, 0 ≤ row.block →
      row.block = height + 1 ∧ row.txId ∈ ledger.pending

/-- The chain import is in order. -/
structure ImportInOrder (rows : RowStore) (ledger : BlockLedger) (known : Hash → Prop)
    (imp : TxImport Tx) : Prop where
  isChain : imp.importID = 0
  distinct : (imp.entities.map TxEntityStat.entity).Nodup
  plain : ∀ stat ∈ imp.entities,
    stat.generation = 0 ∧ stat.entity.entityType.subKey = false
  pool : ∀ row ∈ imp.memPool, row.generation = 0 ∧ row.pos = 0 ∧ 1 ≤ row.tempPos
  listed : ∀ stat ∈ imp.entities, ∃ confirmed,
    Listed rows imp.memPool imp.block ledger known stat confirmed

namespace TxImport

theorem findEntity_eq_none {imp : TxImport Tx} {entity : TxEntity} :
    imp.findEntity entity = none ↔ ∀ stat ∈ imp.entities, stat.entity ≠ entity := by
  simp [findEntity]

theorem of_findEntity {imp : TxImport Tx} {entity : TxEntity} {stat : TxEntityStat}
    (found : imp.findEntity entity = some stat) :
    stat ∈ imp.entities ∧ stat.entity = entity :=
  ⟨List.mem_of_find?_eq_some found, by simpa using List.find?_some found⟩

/-- Entities are tracked once, so a stat of an entity is the one that is found. -/
theorem findEntity_of_mem {imp : TxImport Tx}
    (distinct : (imp.entities.map TxEntityStat.entity).Nodup) {stat : TxEntityStat}
    (member : stat ∈ imp.entities) : imp.findEntity stat.entity = some stat := by
  cases found : imp.findEntity stat.entity with
  | none => exact absurd rfl (findEntity_eq_none.1 found stat member)
  | some other =>
      obtain ⟨otherMember, sameEntity⟩ := of_findEntity found
      exact congrArg some (List.inj_on_of_nodup_map distinct otherMember member sameEntity)

theorem entities_updateEntity (imp : TxImport Tx) (entity : TxEntity)
    {change : TxEntityStat → TxEntityStat} (sameEntity : ∀ stat, (change stat).entity = stat.entity) :
    (imp.updateEntity entity change).entities.map TxEntityStat.entity =
      imp.entities.map TxEntityStat.entity := by
  rw [updateEntity, List.map_map]
  apply List.map_congr_left
  intro stat _
  simp only [Function.comp]
  split
  · exact sameEntity stat
  · rfl

theorem entities_addEntityRow (newTx : Bool) (call : TxCall Tx) (imp : TxImport Tx)
    (entity : TxEntity) :
    (imp.addEntityRow newTx call entity).entities.map TxEntityStat.entity =
      imp.entities.map TxEntityStat.entity := by
  unfold addEntityRow
  split
  · rfl
  · split
    · rfl
    · split
      · exact entities_updateEntity imp entity TxEntityStat.entity_oneMore
      · rfl

theorem block_addEntityRow (newTx : Bool) (call : TxCall Tx) (imp : TxImport Tx)
    (entity : TxEntity) : (imp.addEntityRow newTx call entity).block = imp.block := by
  unfold addEntityRow
  split
  · rfl
  · split
    · rfl
    · split <;> rfl

end TxImport

/-- A list depends on the memory pool only through the positions and ids of
the rows that wait. -/
theorem Listed.congr_pool {rows : RowStore} {pool other : List TxEntityRow} {height : Int}
    {ledger : BlockLedger} {known : Hash → Prop} {stat : TxEntityStat}
    {confirmed : List TxRowValue} (listed : Listed rows pool height ledger known stat confirmed)
    (samePos : (waitingRows other stat.entity).map (fun row => row.tempPos) =
      (waitingRows pool stat.entity).map fun row => row.tempPos)
    (sameIds : (waitingRows other stat.entity).map TxEntityRow.txId =
      (waitingRows pool stat.entity).map TxEntityRow.txId)
    (ofBlock : stat.entity.entityType.order ≠ .timeReceived →
      ∀ row ∈ waitingRows other stat.entity, 0 ≤ row.block →
        row.block = height + 1 ∧ row.txId ∈ ledger.pending) :
    Listed rows other height ledger known stat confirmed := by
  have sameLength : (waitingRows other stat.entity).length =
      (waitingRows pool stat.entity).length := by
    simpa using congrArg List.length samePos
  have idWaits : ∀ row ∈ waitingRows other stat.entity,
      ∃ old ∈ waitingRows pool stat.entity, old.txId = row.txId := by
    intro row member
    have : row.txId ∈ (waitingRows other stat.entity).map TxEntityRow.txId :=
      List.mem_map_of_mem member
    rw [sameIds] at this
    exact List.mem_map.1 this
  refine ⟨listed.holds, listed.cleared, ?_, ?_, ?_, ?_, listed.inChain, listed.ordered,
    listed.below, ?_, ofBlock⟩
  · rw [sameLength]
    exact listed.last
  · rw [samePos, sameLength]
    exact listed.numbered
  · rw [sameIds]
    exact listed.distinct
  · intro byTime
    refine ⟨(listed.known byTime).1, fun row member => ?_⟩
    obtain ⟨old, oldMember, sameId⟩ := idWaits row member
    rw [← sameId]
    exact (listed.known byTime).2 old oldMember
  · intro byPosition row member
    obtain ⟨old, oldMember, sameId⟩ := idWaits row member
    rw [← sameId]
    exact listed.unconfirmed byPosition old oldMember

/-- One more row that waits. -/
theorem Listed.concat {rows : RowStore} {pool : List TxEntityRow} {height : Int}
    {ledger : BlockLedger} {known : Hash → Prop} {stat : TxEntityStat}
    {confirmed : List TxRowValue} (listed : Listed rows pool height ledger known stat confirmed)
    {row : TxEntityRow} (ofEntity : row.entity = stat.entity)
    (position : row.tempPos = stat.lastPos + 1)
    (fresh : row.txId ∉ confirmed.map TxRowValue.txId ++
      (waitingRows pool stat.entity).map TxEntityRow.txId)
    (isKnown : known row.txId) (notConfirmed : ¬ ledger.IsConfirmed row.txId)
    (ofBlock : 0 ≤ row.block → row.block = height + 1 ∧ row.txId ∈ ledger.pending) :
    Listed rows (pool ++ [row]) height ledger known stat.oneMore confirmed := by
  have waits : waitingRows (pool ++ [row]) stat.oneMore.entity =
      waitingRows pool stat.entity ++ [row] := by
    rw [TxEntityStat.entity_oneMore, waitingRows_append, waitingRows_singleton, if_pos ofEntity]
  refine ⟨listed.holds, listed.cleared, ?_, ?_, ?_, ?_, listed.inChain, listed.ordered,
    listed.below, ?_, ?_⟩
  · rw [waits, List.length_append, List.length_singleton, ← Nat.add_assoc, ← listed.last]
    rfl
  · simp only [waits, List.map_append, listed.numbered, List.length_append, List.length_singleton,
      List.range'_concat, List.map_cons, List.map_nil, position, listed.last]
    congr 2
    omega
  · simp only [waits, List.map_append, List.map_cons, List.map_nil, ← List.append_assoc]
    exact List.nodup_append.2 ⟨listed.distinct, by simp, by
      intro first member second atEnd
      rw [List.mem_singleton.1 atEnd]
      rintro rfl
      exact fresh member⟩
  · intro byTime
    refine ⟨(listed.known byTime).1, fun other member => ?_⟩
    simp only [waits] at member
    rcases List.mem_append.1 member with member | member
    · exact (listed.known byTime).2 other member
    · rw [List.mem_singleton.1 member]
      exact isKnown
  · intro byPosition other member
    simp only [waits] at member
    rcases List.mem_append.1 member with member | member
    · exact listed.unconfirmed byPosition other member
    · rw [List.mem_singleton.1 member]
      exact notConfirmed
  · intro byPosition other member
    simp only [waits] at member
    rcases List.mem_append.1 member with member | member
    · exact listed.ofBlock byPosition other member
    · rw [List.mem_singleton.1 member]
      exact ofBlock

/-- What the callers of `AddTx` promise about a transaction. -/
structure MayAdd (rows : RowStore) (ledger : BlockLedger) (known : Hash → Prop)
    (imp : TxImport Tx) (newTx : Bool) (call : TxCall Tx) : Prop where
  known : known call.hash
  notConfirmed : ¬ ledger.IsConfirmed call.hash
  unlisted : newTx = true → ∀ entity ∈ imp.entities.map TxEntityStat.entity,
    ∀ confirmed, holdsList rows entity confirmed → ∀ value ∈ confirmed, value.txId ≠ call.hash
  ofBlock : 0 ≤ call.block → call.block = imp.block + 1 ∧ call.hash ∈ ledger.pending

theorem ImportInOrder.addEntityRow {rows : RowStore} {ledger : BlockLedger}
    {known : Hash → Prop} {imp : TxImport Tx} (inOrder : ImportInOrder rows ledger known imp)
    {newTx : Bool} {call : TxCall Tx} (mayAdd : MayAdd rows ledger known imp newTx call)
    (entity : TxEntity) :
    ImportInOrder rows ledger known (imp.addEntityRow newTx call entity) := by
  unfold TxImport.addEntityRow
  cases found : imp.findEntity entity with
  | none => exact inOrder
  | some stat =>
      obtain ⟨member, rfl⟩ := TxImport.of_findEntity found
      dsimp only
      cases sought : seekPool imp.memPool (stat.key 0) call.hash with
      | some place =>
          dsimp only
          refine ⟨inOrder.isChain, inOrder.distinct, inOrder.plain, ?_, ?_⟩
          · intro row rowMember
            rcases mem_modify rowMember with rowMember | ⟨old, atPlace, rfl⟩
            · exact inOrder.pool row rowMember
            · exact inOrder.pool old (List.mem_of_getElem? atPlace)
          · intro other otherMember
            obtain ⟨confirmed, listed⟩ := inOrder.listed other otherMember
            refine ⟨confirmed, listed.congr_pool
              (waitingRows_modify _ _ call.updatedRow _ (fun _ => rfl) _ fun _ => rfl)
              (waitingRows_modify _ _ call.updatedRow _ (fun _ => rfl) _ fun _ => rfl) ?_⟩
            intro byPosition row rowMember
            obtain ⟨inPool, ofOther⟩ := mem_waitingRows.1 rowMember
            rcases mem_modify inPool with inPool | ⟨old, atPlace, rfl⟩
            · exact listed.ofBlock byPosition row (mem_waitingRows.2 ⟨inPool, ofOther⟩)
            · intro height
              have ofCall := mayAdd.ofBlock height
              rw [← txId_of_seekPool sought atPlace] at ofCall
              exact ofCall
      | none =>
          dsimp only
          split_ifs with added
          · refine ⟨inOrder.isChain, ?_, ?_, ?_, ?_⟩
            · dsimp only
              rw [TxImport.entities_updateEntity imp stat.entity TxEntityStat.entity_oneMore]
              exact inOrder.distinct
            · intro other otherMember
              obtain ⟨old, oldMember, rfl⟩ := List.mem_map.1 otherMember
              split
              · exact inOrder.plain old oldMember
              · exact inOrder.plain old oldMember
            · intro row rowMember
              rcases List.mem_append.1 rowMember with rowMember | rowMember
              · exact inOrder.pool row rowMember
              · rw [List.mem_singleton.1 rowMember]
                exact ⟨(inOrder.plain stat member).1, rfl, Nat.le_add_left _ _⟩
            · intro other otherMember
              obtain ⟨old, oldMember, rfl⟩ := List.mem_map.1 otherMember
              obtain ⟨confirmed, listed⟩ := inOrder.listed old oldMember
              by_cases same : old.entity = stat.entity
              · have sameStat : old = stat :=
                  List.inj_on_of_nodup_map inOrder.distinct oldMember member same
                subst sameStat
                rw [if_pos rfl]
                refine ⟨confirmed, listed.concat rfl rfl ?_ mayAdd.known mayAdd.notConfirmed
                  mayAdd.ofBlock⟩
                intro twice
                rcases List.mem_append.1 twice with twice | twice
                · obtain ⟨value, valueMember, sameId⟩ := List.mem_map.1 twice
                  rcases added with isNew | ⟨otherImport, -⟩ | byPosition
                  · exact mayAdd.unlisted isNew _ (List.mem_map_of_mem member) confirmed
                      listed.holds value valueMember sameId
                  · rw [inOrder.isChain] at otherImport
                    exact absurd otherImport (by decide)
                  · refine mayAdd.notConfirmed ⟨value.block, ?_⟩
                    have inChain := listed.inChain byPosition value valueMember
                    rw [sameId] at inChain
                    exact inChain
                · obtain ⟨row, rowMember, sameId⟩ := List.mem_map.1 twice
                  obtain ⟨inPool, ofEntity⟩ := mem_waitingRows.1 rowMember
                  refine seekPool_eq_none.1 sought row inPool ?_ sameId
                  obtain ⟨generation, pos, -⟩ := inOrder.pool row inPool
                  unfold TxEntityRow.key TxEntityStat.key
                  rw [ofEntity, generation, pos, (inOrder.plain old member).1]
              · rw [if_neg same]
                have waits : waitingRows (imp.memPool ++ [call.poolRow stat]) old.entity =
                    waitingRows imp.memPool old.entity := by
                  have otherEntity : ¬ (call.poolRow stat).entity = old.entity :=
                    fun h => same h.symm
                  rw [waitingRows_append, waitingRows_singleton, if_neg otherEntity,
                    List.append_nil]
                refine ⟨confirmed, listed.congr_pool (by rw [waits]) (by rw [waits]) ?_⟩
                rw [waits]
                exact listed.ofBlock
          · exact inOrder

/-- `AddTx` keeps the lists of all entities of a transaction. -/
theorem ImportInOrder.addEntityRows {rows : RowStore} {ledger : BlockLedger}
    {known : Hash → Prop} {imp : TxImport Tx} (inOrder : ImportInOrder rows ledger known imp)
    {newTx : Bool} {call : TxCall Tx} (mayAdd : MayAdd rows ledger known imp newTx call) :
    ImportInOrder rows ledger known (imp.addEntityRows newTx call) := by
  have keep : ∀ entities : List TxEntity, ∀ imp : TxImport Tx,
      ImportInOrder rows ledger known imp → MayAdd rows ledger known imp newTx call →
      ImportInOrder rows ledger known (entities.foldl (TxImport.addEntityRow newTx call) imp) := by
    intro entities
    induction entities with
    | nil => exact fun _ inOrder _ => inOrder
    | cons entity entities ih =>
        intro imp inOrder mayAdd
        refine ih _ (inOrder.addEntityRow mayAdd entity)
          ⟨mayAdd.known, mayAdd.notConfirmed, ?_, ?_⟩
        · rw [TxImport.entities_addEntityRow]
          exact mayAdd.unlisted
        · rw [TxImport.block_addEntityRow]
          exact mayAdd.ofBlock
  exact keep call.entities imp inOrder mayAdd

/-- Confirmed transactions stay, and no transaction stops being known or
pending. -/
theorem ImportInOrder.weaken {rows : RowStore} {ledger next : BlockLedger}
    {known nowKnown : Hash → Prop} {imp : TxImport Tx}
    (inOrder : ImportInOrder rows ledger known imp)
    (sameConfirmed : next.confirmed = ledger.confirmed)
    (morePending : ∀ hash ∈ ledger.pending, hash ∈ next.pending)
    (moreKnown : ∀ hash, known hash → nowKnown hash) :
    ImportInOrder rows next nowKnown imp := by
  refine ⟨inOrder.isChain, inOrder.distinct, inOrder.plain, inOrder.pool, ?_⟩
  intro stat member
  obtain ⟨confirmed, listed⟩ := inOrder.listed stat member
  refine ⟨confirmed, listed.holds, listed.cleared, listed.last, listed.numbered, listed.distinct,
    ?_, ?_, listed.ordered, listed.below, ?_, ?_⟩
  · intro byTime
    exact ⟨fun value valueMember => moreKnown _ ((listed.known byTime).1 value valueMember),
      fun row rowMember => moreKnown _ ((listed.known byTime).2 row rowMember)⟩
  · rw [sameConfirmed]
    exact listed.inChain
  · unfold BlockLedger.IsConfirmed
    rw [sameConfirmed]
    exact listed.unconfirmed
  · intro byPosition row rowMember height
    obtain ⟨ofBlock, pending⟩ := listed.ofBlock byPosition row rowMember height
    exact ⟨ofBlock, morePending _ pending⟩

/-- A list by time received depends on nothing but its own rows and on which
transactions are known. -/
theorem Listed.of_timeReceived {rows next : RowStore} {pool other : List TxEntityRow}
    {height now : Int} {ledger nowLedger : BlockLedger} {known nowKnown : Hash → Prop}
    {stat : TxEntityStat} {confirmed : List TxRowValue}
    (listed : Listed rows pool height ledger known stat confirmed)
    (byTime : stat.entity.entityType.order = .timeReceived)
    (holds : holdsList next stat.entity confirmed)
    (sameWaiting : waitingRows other stat.entity = waitingRows pool stat.entity)
    (moreKnown : ∀ hash, known hash → nowKnown hash) :
    Listed next other now nowLedger nowKnown stat confirmed := by
  refine ⟨holds, listed.cleared, ?_, ?_, ?_, ?_, fun h => absurd byTime h,
    fun h => absurd byTime h, fun h => absurd byTime h, fun h => absurd byTime h,
    fun h => absurd byTime h⟩
  · rw [sameWaiting]
    exact listed.last
  · rw [sameWaiting]
    exact listed.numbered
  · rw [sameWaiting]
    exact listed.distinct
  · intro _
    rw [sameWaiting]
    exact ⟨fun value member => moreKnown _ ((listed.known byTime).1 value member),
      fun row member => moreKnown _ ((listed.known byTime).2 row member)⟩

/-- A list by chain position without rows that wait. -/
theorem listed_of_nothingWaiting {rows : RowStore} {pool : List TxEntityRow} {height : Int}
    {ledger : BlockLedger} {known : Hash → Prop} {stat : TxEntityStat}
    {confirmed : List TxRowValue} (byPosition : stat.entity.entityType.order ≠ .timeReceived)
    (holds : holdsList rows stat.entity confirmed)
    (cleared : stat.lastClearedPos = confirmed.length) (last : stat.lastPos = confirmed.length)
    (nothingWaits : waitingRows pool stat.entity = [])
    (distinct : (confirmed.map TxRowValue.txId).Nodup)
    (inChain : ∀ value ∈ confirmed, (value.txId, value.block) ∈ ledger.confirmed)
    (ordered : (confirmed.map TxRowValue.block).Pairwise fun first second => first ≤ second)
    (below : ∀ value ∈ confirmed, value.block ≤ height) :
    Listed rows pool height ledger known stat confirmed := by
  refine ⟨holds, cleared, ?_, ?_, ?_, fun h => absurd h byPosition, fun _ => inChain,
    fun _ => ordered, fun _ => below, ?_, ?_⟩
  · rw [nothingWaits]
    exact last
  · rw [nothingWaits]
    rfl
  · rw [nothingWaits, List.map_nil, List.append_nil]
    exact distinct
  · rw [nothingWaits]
    intro _ row member
    exact absurd member List.not_mem_nil
  · rw [nothingWaits]
    intro _ row member
    exact absurd member List.not_mem_nil

theorem mem_keepTimeReceived {pool : List TxEntityRow} {row : TxEntityRow}
    (member : row ∈ keepTimeReceived pool) : row ∈ pool :=
  (List.mem_filter.1 member).1

/-- `BeforeCommit` takes the waiting rows out of the lists by chain position. -/
theorem ImportInOrder.beforeCommit {rows : RowStore} {ledger : BlockLedger}
    {known : Hash → Prop} {imp : TxImport Tx} (inOrder : ImportInOrder rows ledger known imp) :
    ImportInOrder rows ledger.begin known imp.beforeCommit := by
  refine ⟨inOrder.isChain, ?_, ?_, fun row member => inOrder.pool row (mem_keepTimeReceived member),
    ?_⟩
  · unfold TxImport.beforeCommit
    rw [List.map_map]
    convert inOrder.distinct using 2
    funext stat
    simp only [Function.comp]
    split <;> rfl
  · intro stat member
    obtain ⟨old, oldMember, rfl⟩ := List.mem_map.1 member
    split
    · exact inOrder.plain old oldMember
    · exact inOrder.plain old oldMember
  · intro stat member
    obtain ⟨old, oldMember, rfl⟩ := List.mem_map.1 member
    obtain ⟨confirmed, listed⟩ := inOrder.listed old oldMember
    refine ⟨confirmed, ?_⟩
    have waits := waitingRows_keepTimeReceived imp.memPool old.entity
    split
    · rename_i byPosition
      rw [if_neg byPosition] at waits
      exact listed_of_nothingWaiting byPosition listed.holds listed.cleared listed.cleared waits
        (List.nodup_append.1 listed.distinct).1 (listed.inChain byPosition)
        (listed.ordered byPosition) (listed.below byPosition)
    · rename_i byTime
      have byTime : old.entity.entityType.order = .timeReceived := not_not.1 byTime
      rw [if_pos byTime] at waits
      exact listed.of_timeReceived byTime listed.holds waits fun _ => id

end HdacNode
