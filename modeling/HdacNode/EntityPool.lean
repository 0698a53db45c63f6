import HdacNode.EntityStore

/-!
# The memory pool of the entity store

A row of the memory pool has no place in the ledger yet.  As long as its first position
is negative it names the memory pool row of an entity that was inserted before, and all
rows in the ledger have a first position that is not negative.
-/

namespace HdacNode

/-- The memory pool row that a negative first position names. -/
def entityID (row : EntityRow) : Nat := (-row.firstPos - 1).toNat

/-- The rows of a memory pool wait for their places in the block above `block`. -/
structure EntityPool (block : Int) (memPool : RowBuffer EntityKey EntityRow) : Prop where
  coherent : memPool.Coherent EntityRow.key
  firstTxid : 0 < memPool.count → (memPool.getRow 0).key.isTxid = true
  unplaced : ∀ rowID < memPool.count, (memPool.getRow rowID).chainPos < 0
  blocks : ∀ rowID < memPool.count, (memPool.getRow rowID).block = block + 1
  entity : ∀ rowID < memPool.count, (memPool.getRow rowID).firstPos < 0 →
    entityID (memPool.getRow rowID) ≤ rowID ∧
      (memPool.getRow (entityID (memPool.getRow rowID))).key.isTxid = true ∧
      ((memPool.getRow rowID).isFollowOn = true → entityID (memPool.getRow rowID) < rowID)

/-- No row of a ledger has a negative first position. -/
def FirstPositions (ledger : ExtentFile EntityRow) : Prop :=
  ∀ pos row, ledger.rowAt pos = some row → 0 ≤ row.firstPos

theorem FirstPositions.setRow {ledger : ExtentFile EntityRow} (placed : FirstPositions ledger)
    {row : EntityRow} (rowPlaced : 0 ≤ row.firstPos) (pos : Int) :
    FirstPositions (ledger.setRow EntityRow.ledgerSize pos row) := by
  intro other found foundEq
  simp only [ExtentFile.setRow] at foundEq
  split at foundEq
  · rw [← Option.some.inj foundEq]
    exact rowPlaced
  · exact placed other found (Option.filter_eq_some_iff.1 foundEq).1

namespace EntityPool

variable {block : Int} {memPool : RowBuffer EntityKey EntityRow}

theorem of_coherent (coherent : RowBuffer.Coherent EntityRow.key memPool)
    (empty : memPool.count = 0) : EntityPool block memPool where
  coherent := coherent
  firstTxid := fun live => absurd live (by omega)
  unplaced := fun _ live => absurd live (by omega)
  blocks := fun _ live => absurd live (by omega)
  entity := fun _ live => absurd live (by omega)

theorem initializeBuffer : EntityPool block (RowBuffer.initializeBuffer .zero true) :=
  of_coherent (RowBuffer.coherent_initializeBuffer _ _) rfl

theorem clear (memPool : RowBuffer EntityKey EntityRow) : EntityPool block memPool.clear :=
  of_coherent (RowBuffer.coherent_clear _) rfl

theorem of_empty (pool : EntityPool block memPool) (empty : memPool.count = 0) (other : Int) :
    EntityPool other memPool where
  coherent := pool.coherent
  firstTxid := pool.firstTxid
  unplaced := pool.unplaced
  blocks := fun _ live => absurd live (by omega)
  entity := pool.entity

private theorem getRow_add_of_lt (row : EntityRow) {rowID : Nat} (live : rowID < memPool.count) :
    (memPool.add EntityRow.key row).getRow rowID = memPool.getRow rowID := by
  change Function.update memPool.data memPool.count row rowID = _
  rw [Function.update_of_ne (Nat.ne_of_lt live)]
  rfl

private theorem getRow_add_self (row : EntityRow) :
    (memPool.add EntityRow.key row).getRow memPool.count = row := by
  change Function.update memPool.data memPool.count row memPool.count = row
  rw [Function.update_self]

/-- A row is added whose first position names an entity in front of it, or the row
itself when it is the first one of a new entity. -/
theorem add (pool : EntityPool block memPool) {row : EntityRow} (unplaced : row.chainPos < 0)
    (inBlock : row.block = block + 1) (first : memPool.count = 0 → row.key.isTxid = true)
    (entity : row.firstPos < 0 →
      (entityID row < memPool.count ∧ (memPool.getRow (entityID row)).key.isTxid = true) ∨
        (entityID row = memPool.count ∧ row.key.isTxid = true ∧ row.isFollowOn = false)) :
    EntityPool block (memPool.add EntityRow.key row) where
  coherent := RowBuffer.coherent_add row pool.coherent
  firstTxid := by
    intro _
    by_cases empty : memPool.count = 0
    · have added : (memPool.add EntityRow.key row).getRow memPool.count = row :=
        getRow_add_self row
      rw [empty] at added
      rw [added]
      exact first empty
    · rw [getRow_add_of_lt row (Nat.pos_of_ne_zero empty)]
      exact pool.firstTxid (Nat.pos_of_ne_zero empty)
  unplaced := by
    intro rowID live
    rcases Nat.lt_succ_iff_lt_or_eq.1 live with older | rfl
    · rw [getRow_add_of_lt row older]
      exact pool.unplaced rowID older
    · rw [getRow_add_self]
      exact unplaced
  blocks := by
    intro rowID live
    rcases Nat.lt_succ_iff_lt_or_eq.1 live with older | rfl
    · rw [getRow_add_of_lt row older]
      exact pool.blocks rowID older
    · rw [getRow_add_self]
      exact inBlock
  entity := by
    intro rowID live
    rcases Nat.lt_succ_iff_lt_or_eq.1 live with older | rfl
    · rw [getRow_add_of_lt row older]
      intro negative
      obtain ⟨inFront, isTxid, followOn⟩ := pool.entity rowID older negative
      rw [getRow_add_of_lt row (inFront.trans_lt older)]
      exact ⟨inFront, isTxid, followOn⟩
    · rw [getRow_add_self]
      intro negative
      rcases entity negative with ⟨inFront, isTxid⟩ | ⟨itself, isTxid, followOn⟩
      · rw [getRow_add_of_lt row inFront]
        exact ⟨inFront.le, isTxid, fun _ => inFront⟩
      · rw [itself, getRow_add_self]
        exact ⟨le_rfl, isTxid, fun isFollowOn => absurd (followOn ▸ isFollowOn) Bool.false_ne_true⟩

private theorem foldl_add (row : EntityRow) (unplaced : row.chainPos < 0)
    (inBlock : row.block = block + 1) :
    ∀ (keys : List EntityKey) (memPool : RowBuffer EntityKey EntityRow),
      EntityPool block memPool →
      0 < memPool.count →
      (row.firstPos < 0 →
        entityID row < memPool.count ∧ (memPool.getRow (entityID row)).key.isTxid = true) →
      EntityPool block (keys.foldl (fun memPool key => memPool.add EntityRow.key { row with key })
        memPool) := by
  intro keys
  induction keys with
  | nil => exact fun _ pool _ _ => pool
  | cons key keys ih =>
      intro memPool pool nonempty entity
      rw [List.foldl_cons]
      apply ih
      · exact pool.add unplaced inBlock (fun empty => absurd empty nonempty.ne')
          fun negative => .inl (entity negative)
      · exact Nat.succ_pos _
      · intro negative
        obtain ⟨inFront, isTxid⟩ := entity negative
        rw [getRow_add_of_lt _ inFront]
        exact ⟨Nat.lt_succ_of_lt inFront, isTxid⟩

/-- A new entity is inserted under all its keys. -/
theorem addEntity (pool : EntityPool block memPool) {row : EntityRow} (txid : Bytes)
    (keys : List EntityKey) (unplaced : row.chainPos < 0) (inBlock : row.block = block + 1)
    (entity : row.firstPos < 0 → entityID row = 0 ∨ entityID row = memPool.count) :
    EntityPool block ((EntityKey.txid txid false :: keys).foldl
      (fun memPool key => memPool.add EntityRow.key { row with key }) memPool) := by
  rw [List.foldl_cons]
  have added : EntityPool block
      (memPool.add EntityRow.key { row with key := .txid txid false }) := by
    have waits : ({ row with key := .txid txid false } : EntityRow).chainPos < 0 := unplaced
    have sameBlock : ({ row with key := .txid txid false } : EntityRow).block = block + 1 := inBlock
    apply pool.add waits sameBlock (fun _ => rfl)
    intro negative
    by_cases empty : memPool.count = 0
    · right
      refine ⟨?_, rfl, rfl⟩
      change entityID row = _
      rcases entity negative with zero | itself <;> omega
    · rcases entity negative with zero | itself
      · left
        change entityID row < _ ∧ (memPool.getRow (entityID row)).key.isTxid = true
        rw [zero]
        exact ⟨Nat.pos_of_ne_zero empty, pool.firstTxid (Nat.pos_of_ne_zero empty)⟩
      · exact .inr ⟨itself, rfl, rfl⟩
  apply foldl_add row unplaced inBlock keys _ added (Nat.succ_pos _)
  intro negative
  rcases entity negative with zero | itself
  · rw [zero]
    exact ⟨Nat.succ_pos _, added.firstTxid (Nat.succ_pos _)⟩
  · rw [itself, getRow_add_self]
    exact ⟨Nat.lt_succ_self _, rfl⟩

theorem txidRowID_spec {steps rowID found : Nat}
    (foundEq : AssetDB.txidRowID memPool steps rowID = some found) :
    found ≤ rowID ∧ (memPool.getRow found).key.isTxid = true := by
  induction steps generalizing rowID with
  | zero =>
      unfold AssetDB.txidRowID at foundEq
      split at foundEq
      · rename_i isTxid
        rw [← Option.some.inj foundEq]
        exact ⟨le_rfl, isTxid⟩
      · cases foundEq
  | succ steps ih =>
      unfold AssetDB.txidRowID at foundEq
      split at foundEq
      · rename_i isTxid
        rw [← Option.some.inj foundEq]
        exact ⟨le_rfl, isTxid⟩
      · cases rowID with
        | zero => cases foundEq
        | succ rowID =>
            obtain ⟨inFront, isTxid⟩ := ih foundEq
            exact ⟨inFront.trans (Nat.le_succ _), isTxid⟩

end EntityPool

namespace AssetDB

variable {s : AssetDB}

/-- A row that is found under a key is in the ledger, or in the memory pool as an entity. -/
theorem getEntity_cases {key : EntityKey} {found : EntityRow} (pool : EntityPool s.block s.memPool)
    (foundEq : s.getEntity key = some found) :
    (∃ pos row, s.ledger.rowAt pos = some row ∧ found.firstPos = row.firstPos) ∨
      ∃ rowID < s.memPool.count, found = s.memPool.getRow rowID ∧ found.key.isTxid = true := by
  unfold getEntity at foundEq
  split at foundEq
  · obtain ⟨row, rowAt, rfl⟩ := Option.map_eq_some_iff.1 foundEq
    exact .inl ⟨_, row, rowAt, rfl⟩
  · split at foundEq
    · rename_i rowID seek
      obtain ⟨txidID, txidRow, rfl⟩ := Option.map_eq_some_iff.1 foundEq
      obtain ⟨inFront, isTxid⟩ := EntityPool.txidRowID_spec txidRow
      obtain ⟨live, -⟩ := RowBuffer.keyOf_getRow_of_seek seek pool.coherent
      exact .inr ⟨txidID, inFront.trans_lt live, rfl, isTxid⟩
    · cases foundEq

/-- An insertion leaves the store, or adds rows to its memory pool. -/
theorem insertKeys_cases {row : EntityRow} {keys : List EntityKey} {updateMemPool : Bool}
    {err : Option McError} {next : AssetDB}
    (ended : s.insertKeys row keys updateMemPool = .ended err next) :
    next = s ∨ next = { s with
      memPool := keys.foldl (fun memPool key => memPool.add EntityRow.key { row with key })
        s.memPool } := by
  unfold insertKeys at ended
  split at ended
  · injection ended with _ storeEq
    exact .inl storeEq.symm
  · split at ended <;> injection ended with _ storeEq
    · exact .inr storeEq.symm
    · exact .inl storeEq.symm

/-- What an insertion does to a store: nothing, or rows are added to its memory pool. -/
def GrowsPool (s next : AssetDB) : Prop :=
  EntityPool s.block next.memPool ∧ next = { s with memPool := next.memPool }

theorem growsPool_insertNewEntity (pool : EntityPool s.block s.memPool) {row : EntityRow}
    {script : Bytes} {updateMemPool : Bool} {err : Option McError} {next : AssetDB}
    (unplaced : row.chainPos < 0) (inBlock : row.block = s.block + 1)
    (entity : row.firstPos < 0 → entityID row = 0 ∨ entityID row = s.memPool.count)
    (ended : s.insertNewEntity row script updateMemPool = .ended err next) :
    s.GrowsPool next := by
  unfold insertNewEntity at ended
  split at ended
  · cases ended
  · split at ended
    · cases ended
    · rcases insertKeys_cases ended with rfl | rfl
      · exact ⟨pool, rfl⟩
      · have waits : ({ row with script } : EntityRow).chainPos < 0 := unplaced
        have sameBlock : ({ row with script } : EntityRow).block = s.block + 1 := inBlock
        exact ⟨pool.addEntity _ _ waits sameBlock entity, rfl⟩

theorem growsPool_insertEntity (pool : EntityPool s.block s.memPool) {txid : Bytes} {offset : Int}
    {entityType : Nat} {script specialScript : Bytes} {updateMemPool : Bool}
    {err : Option McError} {next : AssetDB}
    (ended : s.insertEntity txid offset entityType script specialScript updateMemPool =
      .ended err next) : s.GrowsPool next := by
  unfold insertEntity at ended
  dsimp only at ended
  split at ended
  · cases ended
  · split at ended
    · injection ended with _ storeEq
      rw [← storeEq]
      exact ⟨pool, rfl⟩
    · exact growsPool_insertNewEntity pool (show (-1 : Int) < 0 by decide) rfl
        (fun _ => .inl rfl) ended

theorem growsPool_insertAsset (pool : EntityPool s.block s.memPool) {txid : Bytes}
    {offset quantity : Int} {name : Bytes} {multiple : Nat} {script specialScript : Bytes}
    {updateMemPool : Bool} {err : Option McError} {next : AssetDB}
    (ended : s.insertAsset txid offset quantity name multiple script specialScript
      updateMemPool = .ended err next) : s.GrowsPool next := by
  unfold insertAsset at ended
  apply growsPool_insertNewEntity pool (show (-1 : Int) < 0 by decide) rfl ?_ ended
  intro _
  right
  change (-(-((s.memPool.count : Int) + 1)) - 1).toNat = _
  omega

theorem growsPool_insertAssetFollowOn (pool : EntityPool s.block s.memPool)
    (placed : FirstPositions s.ledger) {txid : Bytes} {offset quantity : Int}
    {script specialScript originalTxid : Bytes} {updateMemPool : Bool}
    {err : Option McError} {next : AssetDB}
    (ended : s.insertAssetFollowOn txid offset quantity script specialScript originalTxid
      updateMemPool = .ended err next) : s.GrowsPool next := by
  unfold insertAssetFollowOn at ended
  split at ended
  · injection ended with _ storeEq
    rw [← storeEq]
    exact ⟨pool, rfl⟩
  · rename_i genesis found
    split at ended
    · injection ended with _ storeEq
      rw [← storeEq]
      exact ⟨pool, rfl⟩
    · split at ended
      · injection ended with _ storeEq
        rw [← storeEq]
        exact ⟨pool, rfl⟩
      · split at ended
        · cases ended
        · rcases insertKeys_cases ended with rfl | rfl
          · exact ⟨pool, rfl⟩
          · refine ⟨?_, rfl⟩
            apply pool.add (show (-1 : Int) < 0 by decide) rfl (fun _ => rfl)
            intro negative
            left
            change genesis.firstPos < 0 at negative
            change entityID genesis < _ ∧ (s.memPool.getRow (entityID genesis)).key.isTxid = true
            rcases getEntity_cases pool found with ⟨pos, row, rowAt, same⟩ | ⟨rowID, live, rfl, -⟩
            · have := placed pos row rowAt
              omega
            · obtain ⟨inFront, isTxid, -⟩ := pool.entity rowID live negative
              exact ⟨inFront.trans_lt live, isTxid⟩

end AssetDB

end HdacNode
