import HdacNode.WalletListReads

/-!
# Runs of the wallet transaction store

A run of the chain import is a series of calls from an empty store on.  Its lists stay
gap-free as long as no entity is tracked anew while rows of it are left, and no row without
a height waits in a list by chain position when a block is committed.
-/

namespace HdacNode

open NumberedRows WriteBatch

variable {Tx : Type}

/-- A call on the chain import. -/
inductive WalletCall (Tx : Type) where
  | addEntity (entity : TxEntity) (notInSync : Bool)
  | addTx (call : TxCall Tx)
  | beforeCommit
  | commit
  | rollBack (block : Int)
  | unsubscribe (entities : List TxEntity)

/-- The store, and the blocks as its callers see them. -/
structure WalletState (Tx : Type) where
  db : TxDB Tx
  ledger : BlockLedger

namespace WalletState

/-- The empty store in front of the first block. -/
def start : WalletState Tx := ⟨TxDB.initial, ⟨false, [], []⟩⟩

variable (compoundHash : BitVec 160 → Hash → BitVec 160)

/-- The state behind a call. -/
def step (state : WalletState Tx) : WalletCall Tx → WalletState Tx
  | .addEntity entity notInSync => ⟨(state.db.addEntity 0 entity notInSync).1, state.ledger⟩
  | .addTx call => ⟨state.db.addTx 0 call, state.ledger.add call.hash call.block⟩
  | .beforeCommit => ⟨state.db.beforeCommit 0, state.ledger.begin⟩
  | .commit => ⟨(state.db.commit 0).1, state.ledger.commit (state.db.chain.block + 1)⟩
  | .rollBack block => ⟨(state.db.rollBack 0 block).1, state.ledger.rollBack block⟩
  | .unsubscribe entities => ⟨state.db.unsubscribe compoundHash entities, state.ledger⟩

/-- A transaction is added with a height only in the open block of that height, and only
while it is in no block. -/
def Allows (state : WalletState Tx) : WalletCall Tx → Prop
  | .addTx call => ¬ state.ledger.IsConfirmed call.hash ∧
      (0 ≤ call.block → state.ledger.inBlock = true ∧ call.block = state.db.chain.block + 1)
  | _ => True

/-- No row of an entity is left in the memory pool or in the database. -/
def NoRowsLeft (state : WalletState Tx) (entity : TxEntity) : Prop :=
  waitingRows state.db.chain.memPool entity = [] ∧
    ∀ pos, state.db.rows.read ⟨entity, 0, pos⟩ = none

/-- An entity is tracked anew only when no rows of it are left, and a block is committed
only when the rows that wait in lists by chain position have heights. -/
def Careful (state : WalletState Tx) : WalletCall Tx → Prop
  | .addEntity entity _ => entity.entityType.subKey = false ∧
      (state.db.chain.findEntity entity = none → state.NoRowsLeft entity)
  | .commit => RowsHaveHeights state.db.chain
  | _ => True

/-- The states of runs whose calls are allowed. -/
inductive Reached : WalletState Tx → Prop
  | start : Reached start
  | next {state : WalletState Tx} (before : Reached state) (call : WalletCall Tx)
      (allowed : state.Allows call) : Reached (state.step compoundHash call)

/-- The states of runs whose calls are allowed and careful. -/
inductive CarefulRun : WalletState Tx → Prop
  | start : CarefulRun start
  | next {state : WalletState Tx} (before : CarefulRun state) (call : WalletCall Tx)
      (allowed : state.Allows call) (careful : state.Careful call) :
      CarefulRun (state.step compoundHash call)

/-- A transaction is stored in the raw memory pool or in the database. -/
def Stored (db : TxDB Tx) (hash : Hash) : Prop :=
  (db.chain.findRaw hash).isSome ∨ (db.txs.read hash).isSome

/-- The lists of the chain import are in order, and every update in the pool is one of a
transaction in the database. -/
structure InOrder (state : WalletState Tx) : Prop where
  chain : ImportInOrder state.db.rows state.ledger (Stored state.db) state.db.chain
  rowsSettled : state.db.rows.pending = []
  txsSettled : state.db.txs.pending = []
  txKeys : ∀ hash txdef, state.db.txs.read hash = some txdef → txdef.txId = hash
  updates : ∀ txdef ∈ state.db.rawUpdatePool, (state.db.txs.read txdef.txId).isSome

theorem inOrder_start : (start : WalletState Tx).InOrder where
  chain := ⟨rfl, List.nodup_nil, fun _ member => absurd member List.not_mem_nil,
    fun _ member => absurd member List.not_mem_nil, fun _ member => absurd member List.not_mem_nil⟩
  rowsSettled := rfl
  txsSettled := rfl
  txKeys := by
    intro hash txdef found
    cases found
  updates := fun _ member => absurd member List.not_mem_nil

end WalletState

section Entities

variable {rows : RowStore} {ledger : BlockLedger} {known : Hash → Prop} {imp : TxImport Tx}

theorem listed_of_noRows {pool : List TxEntityRow} {height : Int} {entity : TxEntity}
    (nothingWaits : waitingRows pool entity = [])
    (nothingStored : ∀ pos, rows.read ⟨entity, 0, pos⟩ = none) (notInSync : Bool) :
    Listed rows pool height ledger known ⟨entity, 0, 0, 0, notInSync⟩ [] where
  holds := ⟨nothingStored 0, fun index => nothingStored (index + 1)⟩
  cleared := rfl
  last := by simp [nothingWaits]
  numbered := by simp [nothingWaits]
  distinct := by simp [nothingWaits]
  known := by simp [nothingWaits]
  inChain := by simp
  ordered := by simp
  below := by simp
  unconfirmed := by simp [nothingWaits]
  ofBlock := by simp [nothingWaits]

/-- An entity that is tracked anew. -/
theorem ImportInOrder.addEntity (inOrder : ImportInOrder rows ledger known imp)
    {entity : TxEntity} (untracked : imp.findEntity entity = none)
    (plain : entity.entityType.subKey = false)
    (nothingWaits : waitingRows imp.memPool entity = [])
    (nothingStored : ∀ pos, rows.read ⟨entity, 0, pos⟩ = none) (notInSync : Bool) :
    ImportInOrder rows ledger known
      { imp with entities := imp.entities ++ [⟨entity, 0, 0, 0, notInSync⟩] } := by
  refine ⟨inOrder.isChain, ?_, ?_, inOrder.pool, ?_⟩
  · rw [List.map_append, List.map_singleton, ← List.concat_eq_append]
    apply List.Nodup.concat _ inOrder.distinct
    intro member
    obtain ⟨stat, tracked, same⟩ := List.mem_map.1 member
    exact TxImport.findEntity_eq_none.1 untracked stat tracked same
  · intro stat member
    rcases List.mem_append.1 member with tracked | isNew
    · exact inOrder.plain stat tracked
    · rw [List.mem_singleton.1 isNew]
      exact ⟨rfl, plain⟩
  · intro stat member
    rcases List.mem_append.1 member with tracked | isNew
    · exact inOrder.listed stat tracked
    · rw [List.mem_singleton.1 isNew]
      exact ⟨[], listed_of_noRows nothingWaits nothingStored notInSync⟩

theorem ImportInOrder.filterEntities (inOrder : ImportInOrder rows ledger known imp)
    (keeps : TxEntityStat → Bool) {next : RowStore}
    (kept : ∀ stat ∈ imp.entities, keeps stat = true → ∀ pos,
      next.read ⟨stat.entity, 0, pos⟩ = rows.read ⟨stat.entity, 0, pos⟩) :
    ImportInOrder next ledger known { imp with entities := imp.entities.filter keeps } := by
  refine ⟨inOrder.isChain, ?_, ?_, inOrder.pool, ?_⟩
  · exact inOrder.distinct.sublist (List.filter_sublist.map _)
  · intro stat member
    exact inOrder.plain stat (List.mem_filter.1 member).1
  · intro stat member
    obtain ⟨tracked, keepsStat⟩ := List.mem_filter.1 member
    obtain ⟨confirmed, listed⟩ := inOrder.listed stat tracked
    exact ⟨confirmed, { listed with holds := listed.holds.congr (kept stat tracked keepsStat) }⟩

/-- The lists do not depend on the definition rows. -/
theorem ImportInOrder.congr_raw (inOrder : ImportInOrder rows ledger known imp)
    (rawMemPool : List (TxDefRow Tx)) :
    ImportInOrder rows ledger known { imp with rawMemPool } :=
  ⟨inOrder.isChain, inOrder.distinct, inOrder.plain, inOrder.pool, inOrder.listed⟩

end Entities

namespace WalletState

variable {state : WalletState Tx} {compoundHash : BitVec 160 → Hash → BitVec 160}

/-- Tracking an entity of which no rows are left. -/
theorem InOrder.addEntity (inOrder : state.InOrder) {entity : TxEntity} {notInSync : Bool}
    (careful : state.Careful (.addEntity entity notInSync)) :
    (state.step compoundHash (.addEntity entity notInSync)).InOrder := by
  obtain ⟨plain, noRows⟩ := careful
  unfold step TxDB.addEntity
  dsimp only
  cases found : (state.db.imports 0).findEntity entity with
  | some stat => exact inOrder
  | none =>
      obtain ⟨nothingWaits, nothingStored⟩ := noRows found
      have settled : state.db.commitStores = state.db := by
        unfold TxDB.commitStores
        rw [Store.commit_eq_self inOrder.rowsSettled, Store.commit_eq_self inOrder.txsSettled]
      dsimp only
      rw [settled]
      exact ⟨inOrder.chain.addEntity found plain nothingWaits nothingStored notInSync,
        inOrder.rowsSettled, inOrder.txsSettled, inOrder.txKeys, inOrder.updates⟩

theorem chain_setImport (db : TxDB Tx) (imp : TxImport Tx) : (db.setImport 0 imp).chain = imp := by
  unfold TxDB.chain
  rw [TxDB.imports_setImport, if_pos rfl]

theorem chain_commitStores (db : TxDB Tx) : db.commitStores.chain = db.chain := rfl

theorem rawMemPool_addEntityRows (newTx : Bool) (call : TxCall Tx) (imp : TxImport Tx) :
    (imp.addEntityRows newTx call).rawMemPool = imp.rawMemPool := by
  have keep (entities : List TxEntity) (imp : TxImport Tx) :
      (entities.foldl (TxImport.addEntityRow newTx call) imp).rawMemPool = imp.rawMemPool := by
    induction entities generalizing imp with
    | nil => rfl
    | cons entity entities ih =>
        rw [List.foldl_cons, ih]
        unfold TxImport.addEntityRow
        split
        · rfl
        · split
          · rfl
          · split <;> rfl
  exact keep call.entities imp

theorem isSome_findRaw (imp : TxImport Tx) (hash : Hash) :
    (imp.findRaw hash).isSome ↔ ∃ txdef ∈ imp.rawMemPool, txdef.txId = hash := by
  simp [TxImport.findRaw]

/-- `GetTx` finds the transactions that are stored. -/
theorem InOrder.isSome_getTx (inOrder : state.InOrder) (hash : Hash) :
    (state.db.getTx hash).isSome ↔ Stored state.db hash := by
  have updates : (state.db.rawUpdatePool.find? fun txdef => txdef.txId = hash).isSome →
      (state.db.txs.read hash).isSome := by
    rw [List.find?_isSome]
    rintro ⟨txdef, member, same⟩
    have stored := inOrder.updates txdef member
    rw [of_decide_eq_true same] at stored
    exact stored
  unfold TxDB.getTx Stored
  rw [Option.isSome_map, Option.isSome_or, Option.isSome_or, Bool.or_eq_true, Bool.or_eq_true]
  exact or_congr Iff.rfl ⟨fun found => found.elim updates id, .inr⟩

/-- A transaction that is stored nowhere is on no list. -/
theorem InOrder.unlisted (inOrder : state.InOrder) {hash : Hash}
    (unstored : ¬ Stored state.db hash) (notConfirmed : ¬ state.ledger.IsConfirmed hash) :
    ∀ entity ∈ state.db.chain.entities.map TxEntityStat.entity,
      ∀ confirmed, holdsList state.db.rows entity confirmed →
        ∀ value ∈ confirmed, value.txId ≠ hash := by
  intro entity member confirmed holds value inList same
  obtain ⟨stat, tracked, rfl⟩ := List.mem_map.1 member
  obtain ⟨rows, listed⟩ := inOrder.chain.listed stat tracked
  rw [holds.unique listed.holds] at inList
  by_cases byTime : stat.entity.entityType.order = .timeReceived
  · apply unstored
    rw [← same]
    exact (listed.known byTime).1 value inList
  · apply notConfirmed
    rw [← same]
    exact ⟨value.block, listed.inChain byTime value inList⟩

/-- A transaction that the calls allow may be added to the lists. -/
theorem InOrder.mayAdd (inOrder : state.InOrder) {call : TxCall Tx}
    (allowed : state.Allows (.addTx call)) {known : Hash → Prop} (isKnown : known call.hash)
    {newTx : Bool} (isNew : newTx = true → ¬ Stored state.db call.hash)
    {imp : TxImport Tx} (sameEntities : imp.entities = state.db.chain.entities)
    (sameBlock : imp.block = state.db.chain.block) :
    MayAdd state.db.rows (state.ledger.add call.hash call.block) known imp newTx call := by
  obtain ⟨notConfirmed, ofBlock⟩ := allowed
  refine ⟨isKnown, ?_, ?_, ?_⟩
  · unfold BlockLedger.add
    split
    · exact notConfirmed
    · exact notConfirmed
  · intro new
    rw [sameEntities]
    exact inOrder.unlisted (isNew new) notConfirmed
  · intro height
    rw [sameBlock]
    refine ⟨(ofBlock height).2, ?_⟩
    unfold BlockLedger.add
    rw [if_pos height]
    exact List.mem_cons_self

theorem confirmed_add (ledger : BlockLedger) (hash : Hash) (block : Int) :
    (ledger.add hash block).confirmed = ledger.confirmed := by
  unfold BlockLedger.add
  split <;> rfl

theorem mem_pending_add {ledger : BlockLedger} (hash : Hash) (block : Int) {other : Hash}
    (pending : other ∈ ledger.pending) : other ∈ (ledger.add hash block).pending := by
  unfold BlockLedger.add
  split
  · exact List.mem_cons_of_mem _ pending
  · exact pending

/-- `AddTx` of a transaction that is not stored yet. -/
theorem InOrder.addNewTx (inOrder : state.InOrder) {call : TxCall Tx}
    (allowed : state.Allows (.addTx call)) (unknown : state.db.getTx call.hash = none) :
    InOrder ⟨state.db.setImport 0 ((state.db.chain.addRaw call.newDef).addEntityRows true call),
      state.ledger.add call.hash call.block⟩ := by
  have unstored : ¬ Stored state.db call.hash := by
    rw [← inOrder.isSome_getTx, unknown]
    exact Bool.false_ne_true
  set next := (state.db.chain.addRaw call.newDef).addEntityRows true call with isNext
  have raw : next.rawMemPool = state.db.chain.rawMemPool ++ [call.newDef] :=
    rawMemPool_addEntityRows true call _
  have stored (hash : Hash) : Stored (state.db.setImport 0 next) hash ↔
      Stored state.db hash ∨ hash = call.hash := by
    unfold Stored
    rw [chain_setImport, isSome_findRaw, isSome_findRaw, raw, TxDB.txs_setImport]
    simp only [List.mem_append, List.mem_singleton, or_and_right, exists_or, exists_eq_left,
      TxCall.newDef]
    rw [@eq_comm _ hash call.hash, or_right_comm]
  refine ⟨?_, inOrder.rowsSettled, inOrder.txsSettled, inOrder.txKeys, inOrder.updates⟩
  dsimp only
  rw [chain_setImport]
  have weaker := inOrder.chain.weaken (confirmed_add state.ledger call.hash call.block)
    (fun _ => mem_pending_add call.hash call.block) fun hash known => (stored hash).2 (.inl known)
  exact (weaker.congr_raw (state.db.chain.rawMemPool ++ [call.newDef])).addEntityRows
    (inOrder.mayAdd allowed ((stored call.hash).2 (.inr rfl)) (fun _ => unstored) rfl rfl)

/-- What `AddTx` finds belongs to the transaction, and if it is not in the raw memory pool it
is in the database. -/
theorem InOrder.of_getTx (inOrder : state.InOrder) {hash : Hash} {txdef : TxDefRow Tx}
    (found : state.db.getTx hash = some txdef) (outside : state.db.chain.findRaw hash = none) :
    (state.db.txs.read txdef.txId).isSome := by
  have seen (other : TxDefRow Tx) : (state.db.asSeen other).txId = other.txId := by
    unfold TxDB.asSeen
    split <;> rfl
  unfold TxDB.getTx at found
  rw [show state.db.imports 0 = state.db.chain from rfl, outside, Option.none_or] at found
  obtain ⟨other, isOther, rfl⟩ := Option.map_eq_some_iff.1 found
  rw [seen]
  rcases Option.or_eq_some_iff.1 isOther with update | ⟨-, read⟩
  · exact inOrder.updates other (List.mem_of_find?_eq_some update)
  · rw [inOrder.txKeys hash other read, read]
    rfl

theorem mem_putUpdate {db : TxDB Tx} {txdef other : TxDefRow Tx}
    (member : other ∈ (db.putUpdate txdef).rawUpdatePool) :
    other ∈ db.rawUpdatePool ∨ other = txdef := by
  unfold TxDB.putUpdate at member
  dsimp only at member
  split at member
  · obtain ⟨old, oldMember, isOther⟩ := List.mem_map.1 member
    split at isOther
    · exact .inr isOther.symm
    · rw [← isOther]
      exact .inl oldMember
  · rcases List.mem_append.1 member with kept | isNew
    · exact .inl kept
    · exact .inr (List.mem_singleton.1 isNew)

/-- `AddTx` of a transaction that is stored. -/
theorem InOrder.addStoredTx (inOrder : state.InOrder) {call : TxCall Tx}
    (allowed : state.Allows (.addTx call)) (stored : Stored state.db call.hash) :
    InOrder ⟨state.db.setImport 0 ((state.db.chain.updateRaw call.hash
      call.pooledDef).addEntityRows false call), state.ledger.add call.hash call.block⟩ := by
  set next := (state.db.chain.updateRaw call.hash call.pooledDef).addEntityRows false call
  have raw : next.rawMemPool = state.db.chain.rawMemPool.map fun txdef =>
      if txdef.txId = call.hash then call.pooledDef txdef else txdef :=
    rawMemPool_addEntityRows false call _
  have sameStored (hash : Hash) : Stored (state.db.setImport 0 next) hash ↔
      Stored state.db hash := by
    have sameId (txdef : TxDefRow Tx) : (if txdef.txId = call.hash then call.pooledDef txdef
        else txdef).txId = txdef.txId := by
      split <;> rfl
    unfold Stored
    rw [chain_setImport, isSome_findRaw, isSome_findRaw, raw, TxDB.txs_setImport]
    simp [sameId]
  refine ⟨?_, inOrder.rowsSettled, inOrder.txsSettled, inOrder.txKeys, inOrder.updates⟩
  dsimp only
  rw [chain_setImport]
  have weaker := inOrder.chain.weaken (confirmed_add state.ledger call.hash call.block)
    (fun _ => mem_pending_add call.hash call.block) fun hash known => (sameStored hash).2 known
  exact (weaker.congr_raw _).addEntityRows (inOrder.mayAdd allowed
    ((sameStored call.hash).2 stored) (fun isNew => absurd isNew Bool.false_ne_true) rfl rfl)

theorem InOrder.putUpdate (inOrder : state.InOrder) {txdef : TxDefRow Tx}
    (stored : (state.db.txs.read txdef.txId).isSome) :
    InOrder ⟨state.db.putUpdate txdef, state.ledger⟩ := by
  refine ⟨inOrder.chain, inOrder.rowsSettled, inOrder.txsSettled, inOrder.txKeys, ?_⟩
  intro other member
  rcases mem_putUpdate member with kept | rfl
  · exact inOrder.updates other kept
  · exact stored

theorem InOrder.addTx (inOrder : state.InOrder) {call : TxCall Tx}
    (allowed : state.Allows (.addTx call)) :
    (state.step compoundHash (.addTx call)).InOrder := by
  have ofChain : ¬ ((state.db.imports 0).importID ≠ 0 ∧
      ∀ entity ∈ call.entities, (state.db.imports 0).findEntity entity = none) :=
    fun other => other.1 inOrder.chain.isChain
  unfold step TxDB.addTx
  dsimp only
  rw [if_neg ofChain]
  cases found : state.db.getTx call.hash with
  | none => exact inOrder.addNewTx allowed found
  | some txdef =>
      have stored : Stored state.db call.hash := by
        rw [← inOrder.isSome_getTx, found]
        rfl
      have added := inOrder.addStoredTx allowed stored
      dsimp only
      split_ifs with outside
      · have inDatabase := inOrder.of_getTx found outside.2
        exact added.putUpdate inDatabase
      · exact added

theorem InOrder.beforeCommit (inOrder : state.InOrder) :
    (state.step compoundHash .beforeCommit).InOrder := by
  have isChain : ¬ (state.db.imports 0).importID ≠ 0 := fun other => other inOrder.chain.isChain
  have sameStored : Stored (state.db.setImport 0 state.db.chain.beforeCommit) =
      Stored state.db := by
    funext hash
    unfold Stored
    rw [chain_setImport]
    rfl
  unfold step TxDB.beforeCommit
  dsimp only
  rw [if_neg isChain]
  refine ⟨?_, inOrder.rowsSettled, inOrder.txsSettled, inOrder.txKeys, inOrder.updates⟩
  change ImportInOrder _ _ (Stored (state.db.setImport 0 state.db.chain.beforeCommit))
    (state.db.setImport 0 state.db.chain.beforeCommit).chain
  rw [sameStored, chain_setImport]
  exact inOrder.chain.beforeCommit

section Definitions

variable {txs : Store Hash (TxDefRow Tx)}

theorem putTxs_eq (defs : List (TxDefRow Tx)) :
    TxDB.putTxs txs defs =
      { txs with pending := txs.pending ++ defs.map fun txdef => ⟨txdef.txId, some txdef⟩ } := by
  rw [← Store.foldl_write, List.foldl_map]
  rfl

/-- The last of several definition rows of a transaction stays. -/
theorem read_commit_putTxs (settled : txs.pending = []) (defs : List (TxDefRow Tx)) (hash : Hash) :
    (TxDB.putTxs txs defs).commit.read hash =
      (defs.reverse.find? fun txdef => txdef.txId = hash).or (txs.read hash) := by
  have last : lastWrite (TxDB.putTxs txs defs).pending hash =
      (defs.reverse.find? fun txdef => txdef.txId = hash).map fun txdef =>
        ⟨txdef.txId, some txdef⟩ := by
    rw [putTxs_eq, settled, List.nil_append]
    unfold lastWrite
    rw [← List.map_reverse, List.find?_map]
    rfl
  have read : (TxDB.putTxs txs defs).read hash = txs.read hash := by
    rw [putTxs_eq]
    rfl
  rw [Store.read_commit, last, read]
  cases defs.reverse.find? fun txdef => txdef.txId = hash with
  | none => rfl
  | some txdef => rfl

theorem isSome_read_commit_putTxs (settled : txs.pending = []) (defs : List (TxDefRow Tx))
    (hash : Hash) : ((TxDB.putTxs txs defs).commit.read hash).isSome ↔
      (∃ txdef ∈ defs, txdef.txId = hash) ∨ (txs.read hash).isSome := by
  rw [read_commit_putTxs settled, Option.isSome_or, Bool.or_eq_true, List.find?_isSome]
  simp

theorem txId_of_read_putTxs (settled : txs.pending = [])
    (keys : ∀ hash txdef, txs.read hash = some txdef → txdef.txId = hash)
    {defs : List (TxDefRow Tx)} {hash : Hash} {txdef : TxDefRow Tx}
    (found : (TxDB.putTxs txs defs).commit.read hash = some txdef) : txdef.txId = hash := by
  rw [read_commit_putTxs settled] at found
  rcases Option.or_eq_some_iff.1 found with written | ⟨-, read⟩
  · have same := List.find?_some written
    exact of_decide_eq_true same
  · exact keys hash txdef read

end Definitions

/-- The store behind a `Commit` that goes through. -/
def committedStore (db : TxDB Tx) : TxDB Tx :=
  (({ db with
      rows := { db.rows with pending := db.rows.pending ++ poolWrites db.chain.memPool }
      txs := TxDB.putTxs db.txs (db.chain.rawMemPool ++ db.rawUpdatePool)
      rawUpdatePool := []
      block := db.chain.block + 1 } : TxDB Tx).setImport 0
    (db.chain.cleared (db.chain.block + 1))).commitStores

theorem chain_committedStore (db : TxDB Tx) :
    (committedStore db).chain = db.chain.cleared (db.chain.block + 1) := by
  unfold committedStore
  rw [chain_commitStores, chain_setImport]

theorem InOrder.commit_eq (inOrder : state.InOrder) :
    (state.db.commit 0).1 = committedStore state.db := by
  have isChain : (state.db.imports 0).importID = 0 := inOrder.chain.isChain
  have numbered : ∀ row ∈ state.db.chain.memPool, 1 ≤ row.tempPos := fun row member =>
    (inOrder.chain.pool row member).2.2
  have joined : TxDB.putTxs (TxDB.putTxs state.db.txs (state.db.imports 0).rawMemPool)
      state.db.rawUpdatePool =
      TxDB.putTxs state.db.txs (state.db.chain.rawMemPool ++ state.db.rawUpdatePool) :=
    List.foldl_append.symm
  unfold TxDB.commit
  dsimp only
  rw [if_pos isChain, if_pos isChain, joined,
    show (state.db.imports 0).memPool = state.db.chain.memPool from rfl,
    commitPool_eq state.db.rows numbered]
  rfl

theorem stored_committedStore (inOrder : state.InOrder) {hash : Hash}
    (stored : Stored state.db hash) : Stored (committedStore state.db) hash := by
  refine .inr ((isSome_read_commit_putTxs inOrder.txsSettled _ hash).2 ?_)
  rcases stored with raw | read
  · obtain ⟨txdef, member, same⟩ := (isSome_findRaw _ hash).1 raw
    exact .inl ⟨txdef, List.mem_append_left _ member, same⟩
  · exact .inr read

theorem InOrder.commit (inOrder : state.InOrder) (heights : RowsHaveHeights state.db.chain) :
    (state.step compoundHash .commit).InOrder := by
  unfold step
  rw [inOrder.commit_eq]
  refine ⟨?_, rfl, rfl, ?_, fun _ member => absurd member List.not_mem_nil⟩
  · dsimp only
    rw [chain_committedStore]
    exact inOrder.chain.commit heights inOrder.rowsSettled fun _ => stored_committedStore inOrder
  · intro hash txdef found
    exact txId_of_read_putTxs inOrder.txsSettled inOrder.txKeys found

/-- The store behind a `RollBack` that goes through and deletes the rows under some keys. -/
def rolledBackStore (db : TxDB Tx) (block : Int) (keys : List TxRowKey) : TxDB Tx :=
  (({ db with
      rows := keys.foldl eraseRow db.rows
      rawUpdatePool := []
      block := block } : TxDB Tx).setImport 0 (db.chain.rolledBack db.rows block)).commitStores

theorem chain_rolledBackStore (db : TxDB Tx) (block : Int) (keys : List TxRowKey) :
    (rolledBackStore db block keys).chain = db.chain.rolledBack db.rows block := by
  unfold rolledBackStore
  rw [chain_commitStores, chain_setImport]

theorem InOrder.rollBack_eq (inOrder : state.InOrder) (block : Int) :
    ∃ keys : List TxRowKey, (state.db.rollBack 0 block).1 = rolledBackStore state.db block keys ∧
      ∀ key, key ∈ keys ↔ IsRolledBack state.db.rows block state.db.chain.entities key := by
  have isChain : state.db.chain.importID = 0 := inOrder.chain.isChain
  have numbered : ∀ row ∈ state.db.chain.memPool, 1 ≤ row.tempPos := fun row member =>
    (inOrder.chain.pool row member).2.2
  have lists : ∀ stat ∈ state.db.chain.entities, stat.generation = 0 ∧ ∃ confirmed,
      holdsList state.db.rows stat.entity confirmed ∧
        stat.lastClearedPos = confirmed.length := by
    intro stat tracked
    obtain ⟨confirmed, listed⟩ := inOrder.chain.listed stat tracked
    exact ⟨(inOrder.chain.plain stat tracked).1, confirmed, listed.holds, listed.cleared⟩
  obtain ⟨keys, dropped, members⟩ := dropEntities_eq state.db.rows block lists
  refine ⟨keys, ?_, members⟩
  unfold TxDB.rollBack
  dsimp only
  rw [show state.db.imports 0 = state.db.chain from rfl,
    dropAllDecremented_eq state.db.rows numbered]
  dsimp only
  rw [dropped]
  dsimp only
  rw [if_pos isChain, if_pos isChain]
  rfl

theorem InOrder.rollBack (inOrder : state.InOrder) (block : Int) :
    (state.step compoundHash (.rollBack block)).InOrder := by
  obtain ⟨keys, isStore, members⟩ := inOrder.rollBack_eq block
  have read (key : TxRowKey) : (rolledBackStore state.db block keys).rows.read key =
      if key ∈ keys then none else state.db.rows.read key := by
    have deleted := Store.read_commit_deletes state.db.rows keys key
    rw [Store.commit_eq_self inOrder.rowsSettled] at deleted
    exact deleted
  have txs : (rolledBackStore state.db block keys).txs = state.db.txs :=
    Store.commit_eq_self inOrder.txsSettled
  have sameStored : Stored (rolledBackStore state.db block keys) = Stored state.db := by
    funext hash
    unfold Stored
    rw [chain_rolledBackStore, txs]
    rfl
  unfold step
  dsimp only
  rw [isStore]
  refine ⟨?_, rfl, rfl, ?_, fun _ member => absurd member List.not_mem_nil⟩
  · dsimp only
    rw [sameStored, chain_rolledBackStore]
    apply inOrder.chain.rollBack block
    intro key
    rw [read, ← members]
    exact ⟨fun gone => if_pos gone, fun kept => if_neg kept⟩
  · intro hash txdef found
    dsimp only at found
    rw [txs] at found
    exact inOrder.txKeys hash txdef found

theorem subKey_of_mem_subKeyRowKeys {db : TxDB Tx} {stat : TxEntityStat} {pos : Nat}
    {key : TxRowKey} (member : key ∈ db.subKeyRowKeys compoundHash stat pos) :
    key.entity.entityType.subKey = true := by
  unfold TxDB.subKeyRowKeys at member
  split at member
  · obtain ⟨index, -, rfl⟩ := List.mem_map.1 member
    rfl
  · obtain ⟨index, -, rfl⟩ := List.mem_map.1 member
    rfl
  · exact absurd member List.not_mem_nil

/-- The keys that `Unsubscribe` deletes are those of the entities it is given, and of
sub-keys. -/
theorem entity_of_mem_unsubscribedKeys {db : TxDB Tx} {entity : TxEntity} {key : TxRowKey}
    (member : key ∈ db.unsubscribedKeys compoundHash entity) :
    key.entity = entity ∨ key.entity.entityType.subKey = true := by
  unfold TxDB.unsubscribedKeys at member
  split at member
  · exact absurd member List.not_mem_nil
  · rename_i stat found
    obtain ⟨pos, -, ofPos⟩ := List.mem_flatMap.1 member
    rcases List.mem_append.1 ofPos with ofSubKey | own
    · exact .inr (subKey_of_mem_subKeyRowKeys ofSubKey)
    · rw [List.mem_singleton.1 own]
      exact .inl (TxImport.of_findEntity found).2

theorem InOrder.unsubscribe (inOrder : state.InOrder) (entities : List TxEntity) :
    (state.step compoundHash (.unsubscribe entities)).InOrder := by
  unfold step TxDB.unsubscribe
  dsimp only
  split_ifs with untracked
  · exact inOrder
  · set keys := entities.flatMap (state.db.unsubscribedKeys compoundHash) with isKeys
    set db : TxDB Tx := (({ state.db with
        rows := keys.foldl eraseRow state.db.rows } : TxDB Tx).setImport 0
      { state.db.chain with
        entities := state.db.chain.entities.filter fun stat => stat.entity ∉ entities }).commitStores
      with isDb
    have chain : db.chain = { state.db.chain with
        entities := state.db.chain.entities.filter fun stat => stat.entity ∉ entities } := by
      rw [isDb, chain_commitStores, chain_setImport]
    have txs : db.txs = state.db.txs := Store.commit_eq_self inOrder.txsSettled
    have read (key : TxRowKey) : db.rows.read key =
        if key ∈ keys then none else state.db.rows.read key := by
      have deleted := Store.read_commit_deletes state.db.rows keys key
      rw [Store.commit_eq_self inOrder.rowsSettled] at deleted
      exact deleted
    have sameStored : Stored db = Stored state.db := by
      funext hash
      unfold Stored
      rw [chain, txs]
      rfl
    refine ⟨?_, rfl, rfl, ?_, ?_⟩
    · dsimp only
      rw [sameStored, chain]
      apply inOrder.chain.filterEntities
      intro stat tracked keeps pos
      rw [read, if_neg]
      intro deleted
      obtain ⟨entity, given, ofEntity⟩ := List.mem_flatMap.1 deleted
      rcases entity_of_mem_unsubscribedKeys ofEntity with same | subKey
      · dsimp only at same
        rw [same] at keeps
        exact of_decide_eq_true keeps given
      · have plain := (inOrder.chain.plain stat tracked).2
        dsimp only at subKey
        rw [plain] at subKey
        exact Bool.false_ne_true subKey
    · intro hash txdef found
      dsimp only at found
      rw [txs] at found
      exact inOrder.txKeys hash txdef found
    · dsimp only
      rw [txs]
      exact inOrder.updates

/-- Careful calls keep the lists in order. -/
theorem InOrder.step (inOrder : state.InOrder) (call : WalletCall Tx)
    (allowed : state.Allows call) (careful : state.Careful call) :
    (state.step compoundHash call).InOrder := by
  cases call with
  | addEntity entity notInSync => exact inOrder.addEntity careful
  | addTx call => exact inOrder.addTx allowed
  | beforeCommit => exact inOrder.beforeCommit
  | commit => exact inOrder.commit careful
  | rollBack block => exact inOrder.rollBack block
  | unsubscribe entities => exact inOrder.unsubscribe entities

/-- In every state of a careful run the lists are in order. -/
theorem inOrder_of_carefulRun (run : CarefulRun compoundHash state) : state.InOrder := by
  induction run with
  | start => exact inOrder_start
  | next before call allowed careful ih => exact ih.step call allowed careful

/-- The list of a tracked entity has no gaps: the database has the rows up to the last
cleared position, the memory pool those behind it, no transaction is there twice, and the
rows are found. -/
structure GapFree (db : TxDB Tx) (stat : TxEntityStat) : Prop where
  stored : ∀ pos, (db.rows.read (stat.key pos)).isSome ↔ 1 ≤ pos ∧ pos ≤ stat.lastClearedPos
  cleared : stat.lastClearedPos ≤ stat.lastPos
  waiting : (waitingRows db.chain.memPool stat.entity).map (fun row => row.tempPos) =
    List.range' (stat.lastClearedPos + 1) (stat.lastPos - stat.lastClearedPos)
  distinct : ((confirmedRows db.rows stat).map TxRowValue.txId ++
    (waitingRows db.chain.memPool stat.entity).map TxEntityRow.txId).Nodup
  ordered : stat.entity.entityType.order ≠ .timeReceived →
    ((confirmedRows db.rows stat).map TxRowValue.block).Pairwise fun first second =>
      first ≤ second
  found : ∀ start count, db.getList 0 stat.entity start count ≠ .error .notFound ∧
    db.getGenerationList 0 stat.entity stat.generation start count ≠ .error .notFound

/-- `GetBlockItemIndex` counts the confirmed rows up to every block. -/
def CountsBlocks (db : TxDB Tx) (stat : TxEntityStat) : Prop :=
  ∀ block, db.getBlockItemIndex 0 stat.entity block =
    (confirmedRows db.rows stat).countP fun value => value.block ≤ block

/-- In every state of a careful run the lists of the tracked entities have no gaps, and
`GetBlockItemIndex` counts the rows of the lists by chain position. -/
theorem lists_gapFree (run : CarefulRun compoundHash state) :
    ∀ stat ∈ state.db.chain.entities, GapFree state.db stat ∧
      (stat.entity.entityType.order ≠ .timeReceived → CountsBlocks state.db stat) := by
  intro stat tracked
  have inOrder := (inOrder_of_carefulRun run).chain
  have generation := (inOrder.plain stat tracked).1
  obtain ⟨confirmed, listed⟩ := inOrder.listed stat tracked
  have rows := confirmedRows_eq generation listed.holds listed.cleared
  have last := listed.last
  have cleared := listed.cleared
  have waiting : (waitingRows state.db.chain.memPool stat.entity).length =
      stat.lastPos - stat.lastClearedPos := by omega
  refine ⟨⟨?_, by omega, ?_, ?_, ?_, ?_⟩, ?_⟩
  · intro pos
    unfold TxEntityStat.key
    rw [generation, cleared]
    exact listed.holds.isSome_iff pos
  · rw [← waiting, cleared]
    exact listed.numbered
  · rw [rows]
    exact listed.distinct
  · rw [rows]
    exact listed.ordered
  · intro start count
    rw [inOrder.getList_eq tracked listed start count,
      inOrder.getGenerationList_eq tracked listed]
    constructor
    · simp
    · split <;> simp
  · intro byPosition block
    rw [inOrder.getBlockItemIndex_eq tracked listed byPosition block, rows]

section Samples

theorem any_confirmed_iff (ledger : BlockLedger) (hash : Hash) :
    (ledger.confirmed.any fun row => row.1 = hash) ↔ ledger.IsConfirmed hash := by
  unfold BlockLedger.IsConfirmed
  rw [List.any_eq_true]
  constructor
  · rintro ⟨⟨same, block⟩, confirmed, found⟩
    obtain rfl := of_decide_eq_true found
    exact ⟨block, confirmed⟩
  · rintro ⟨block, confirmed⟩
    exact ⟨(hash, block), confirmed, decide_eq_true rfl⟩

instance (ledger : BlockLedger) (hash : Hash) : Decidable (ledger.IsConfirmed hash) :=
  decidable_of_iff _ (any_confirmed_iff ledger hash)

instance (state : WalletState Tx) (call : WalletCall Tx) : Decidable (state.Allows call) := by
  cases call <;> (unfold Allows; infer_instance)

variable (compoundHash) in
/-- Every call of a series is allowed where it is made. -/
def AllowsAll : WalletState Tx → List (WalletCall Tx) → Prop
  | _, [] => True
  | state, call :: calls => state.Allows call ∧ AllowsAll (state.step compoundHash call) calls

instance decidableAllowsAll : (state : WalletState Tx) → (calls : List (WalletCall Tx)) →
    Decidable (AllowsAll compoundHash state calls)
  | _, [] => isTrue trivial
  | state, call :: calls =>
      haveI := decidableAllowsAll (state.step compoundHash call) calls
      inferInstanceAs (Decidable (state.Allows call ∧ _))

theorem reached_of_allowsAll (before : Reached compoundHash state) {calls : List (WalletCall Tx)}
    (allowed : AllowsAll compoundHash state calls) :
    Reached compoundHash (calls.foldl (step compoundHash) state) := by
  induction calls generalizing state with
  | nil => exact before
  | cons call calls ih => exact ih (before.next call allowed.1) allowed.2

/-- A wallet's transactions by chain position. -/
def byChainPos : TxEntity := ⟨1, ⟨.walletAll, false, .chainPos⟩⟩

/-- A wallet's transactions by the time received. -/
def byTimeReceived : TxEntity := ⟨1, ⟨.walletAll, false, .timeReceived⟩⟩

/-- The items of a stream under a key, by chain position. -/
def subKeyItems : TxEntity := ⟨2, ⟨.streamKey, true, .chainPos⟩⟩

/-- A transaction of an entity, in a block or in none. -/
def txOf (hash : Hash) (block : Int) (entity : TxEntity) : WalletCall Unit :=
  .addTx ⟨hash, (), 0, 0, block, ⟨-1, 0, 0, 0⟩, 0, 0, [entity]⟩

/-- A hash of an item and its key. -/
def plainHash (entityID : BitVec 160) (_ : Hash) : BitVec 160 := entityID

/-- The state behind a series of calls. -/
def after (calls : List (WalletCall Unit)) : WalletState Unit :=
  calls.foldl (step plainHash) start

/-- A confirmed transaction, and one that waits. -/
def confirmedAndWaiting : List (WalletCall Unit) :=
  [.addEntity byChainPos false, .beforeCommit, txOf 7 0 byChainPos, .commit, txOf 8 (-1) byChainPos]

theorem lists_gapFree_confirmedAndWaiting :
    GapFree (after confirmedAndWaiting).db ⟨byChainPos, 0, 2, 1, false⟩ ∧
      CountsBlocks (after confirmedAndWaiting).db ⟨byChainPos, 0, 2, 1, false⟩ := by
  have tracked : CarefulRun plainHash (after (confirmedAndWaiting.take 1)) :=
    .next .start (.addEntity byChainPos false) trivial ⟨rfl, fun _ => ⟨rfl, fun _ => rfl⟩⟩
  have opened : CarefulRun plainHash (after (confirmedAndWaiting.take 3)) :=
    .next (.next tracked .beforeCommit trivial trivial) (txOf 7 0 byChainPos) (by decide) trivial
  have closed : CarefulRun plainHash (after (confirmedAndWaiting.take 4)) :=
    .next opened .commit trivial (by unfold Careful RowsHaveHeights; decide)
  have run : CarefulRun plainHash (after confirmedAndWaiting) :=
    .next closed (txOf 8 (-1) byChainPos) (by decide) trivial
  have lists := lists_gapFree run ⟨byChainPos, 0, 2, 1, false⟩ (by decide)
  exact ⟨lists.1, lists.2 (by decide)⟩

/-- A row is left when its entity is not tracked any more, and the entity is tracked anew. -/
def trackedAnew : List (WalletCall Unit) :=
  [.addEntity byChainPos false, txOf 7 (-1) byChainPos, .unsubscribe [byChainPos],
    .addEntity byChainPos false]

/-- A block is committed while a row without a height waits. -/
def committedEarly : List (WalletCall Unit) :=
  [.addEntity byChainPos false, .beforeCommit, txOf 7 0 byChainPos, .commit,
    txOf 8 (-1) byChainPos, .commit]

/-- A transaction of the second block, and one that was in no block when the third one was
committed, in a list by the time received. -/
def storedUnconfirmed : List (WalletCall Unit) :=
  [.addEntity byTimeReceived false, .beforeCommit, .commit, .beforeCommit,
    txOf 7 1 byTimeReceived, .commit, txOf 8 (-1) byTimeReceived, .beforeCommit, .commit]

/-- A sub-key that is tracked like an entity. -/
def trackedSubKey : List (WalletCall Unit) :=
  [.addEntity subKeyItems false, .beforeCommit, txOf 7 0 subKeyItems, .commit]

/-- Allowed runs that leave a row in front of an empty list, blocks out of order, and
numbers of rows that are none. -/
theorem lists_with_gaps :
    (Reached plainHash (after trackedAnew) ∧
      ∃ stat ∈ (after trackedAnew).db.chain.entities, ¬ GapFree (after trackedAnew).db stat) ∧
    (Reached plainHash (after committedEarly) ∧
      ∃ stat ∈ (after committedEarly).db.chain.entities,
        ¬ GapFree (after committedEarly).db stat) ∧
    (Reached plainHash (after storedUnconfirmed) ∧
      ∃ stat ∈ (after storedUnconfirmed).db.chain.entities,
        ¬ CountsBlocks (after storedUnconfirmed).db stat) ∧
    (Reached plainHash (after trackedSubKey) ∧
      ∃ stat ∈ (after trackedSubKey).db.chain.entities,
        ¬ CountsBlocks (after trackedSubKey).db stat) := by
  refine ⟨⟨reached_of_allowsAll .start (by decide), ⟨byChainPos, 0, 0, 0, false⟩, by decide, ?_⟩,
    ⟨reached_of_allowsAll .start (by decide), ⟨byChainPos, 0, 2, 2, false⟩, by decide, ?_⟩,
    ⟨reached_of_allowsAll .start (by decide), ⟨byTimeReceived, 0, 2, 2, false⟩, by decide, ?_⟩,
    ⟨reached_of_allowsAll .start (by decide), ⟨subKeyItems, 0, 1, 1, false⟩, by decide, ?_⟩⟩
  · exact fun gapFree => absurd gapFree.waiting (by decide)
  · exact fun gapFree => absurd (gapFree.ordered (by decide)) (by decide)
  · exact fun counts => absurd (counts 0) (by decide)
  · exact fun counts => absurd (counts 0) (by decide)

end Samples

end WalletState

end HdacNode
