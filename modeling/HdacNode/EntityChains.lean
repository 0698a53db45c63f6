import HdacNode.EntityBlocks
import HdacNode.EntityPool

/-!
# Chains of entity rows under commits and rollbacks

Between two calls the header of the ledger and the record of the database name the
height and the last row of a chain that is read back from the ledger.  A commit places
its rows behind that chain, one after the other, whether it ends well or not, and a
rollback takes a suffix of the chain off.
-/

namespace HdacNode

open WriteBatch

namespace AssetDB

/-- The ledger header and the database record name the height and the last row of the
chain `log`, and the next row is linked to the last one of `older`. -/
structure Headed (s : AssetDB) (log older : List EntityRow) : Prop where
  pool : EntityPool s.block s.memPool
  header : ∃ header, s.ledger.rowAt 0 = some header ∧ header.script = [] ∧
    header.block = s.block ∧ header.prevPos = entityShape.lastPos log
  zeroRow : ∃ adbRow, s.database.read .zero = some adbRow ∧ adbRow.block = s.block ∧
    adbRow.ledgerPos = entityShape.lastPos log
  chain : entityShape.Chain s.ledger log
  sorted : log.Pairwise fun newer older => older.block ≤ newer.block
  blocks_le : ∀ row ∈ log, row.block ≤ s.block
  firstPositions : FirstPositions s.ledger
  older_suffix : older <:+ log
  prevPos : s.prevPos = entityShape.lastPos older
  endPos_le : entityShape.endPos log ≤ s.pos

/-- What every round of a commit keeps. -/
structure Placing (s : AssetDB) (log : List EntityRow) (st : CommitState) : Prop where
  header : st.store.ledger.rowAt 0 = s.ledger.rowAt 0
  chain : entityShape.Chain st.store.ledger log
  firstPositions : FirstPositions st.store.ledger
  committed : st.store.database.committed = s.database.committed
  count : st.store.memPool.count = s.memPool.count
  block : st.store.block = s.block

/-- The rows of a commit up to a memory pool row have been placed. -/
structure Placed (s : AssetDB) (older newer : List EntityRow) (st : CommitState)
    (rowID : Nat) : Prop where
  ahead : ∀ other, rowID ≤ other → st.store.memPool.getRow other = s.memPool.getRow other
  behind : ∀ other < rowID, (s.memPool.getRow other).key.isTxid = true →
    0 ≤ (st.store.memPool.getRow other).firstPos
  chain : entityShape.Chain st.store.ledger (newer ++ older)
  blocks : ∀ row ∈ newer, row.block = s.block + 1
  prevPos : st.store.prevPos = entityShape.lastPos (newer ++ older)
  endPos_le : entityShape.endPos (newer ++ older) ≤ st.store.pos + st.size
  pos_le : s.pos ≤ st.store.pos + st.size
  fresh : rowID = 0 → newer = []
  grown : 0 < rowID → s.pos < entityShape.endPos (newer ++ older)

/-- The links of a row: to the entity of a follow-on, or to itself. -/
private def linkRow (s : AssetDB) (row : EntityRow) (pos : Int) :
    AssetDB × EntityRow × Option EntityRow :=
  let prev := { row with prevPos := s.prevPos }
  if row.isFollowOn then linkFollowOn s prev pos
  else (s, if prev.firstPos < 0 then { prev with firstPos := pos } else prev, none)

/-- A row with its links and its place. -/
private def placeRow (linked : EntityRow) (pos : Int) : EntityRow :=
  if linked.chainPos < 0 then { linked with chainPos := pos } else linked

/-- The end of a round: the linked row goes into the memory pool and into the ledger. -/
private def writeRow (st : CommitState) (rowID : Nat) (row : EntityRow) :
    AssetDB × EntityRow × Option EntityRow → CommitState × EntityRow × Option EntityRow
  | (store, linked, genesis) =>
      let pos := st.store.pos + st.size
      let placed := placeRow linked pos
      let linkErr : Option McError :=
        if row.isFollowOn ∧ genesis.isNone then some .fileReadError else none
      let store := { store with
        memPool := store.memPool.overwrite rowID placed
        pos := pos
        prevPos := pos }
      if placed.offset < 0 then (⟨store, st.size, some .internalError⟩, placed, genesis)
      else if mcEntScriptAllocSize < placed.script.length then
        (⟨store, -1, some .internalError⟩, placed, genesis)
      else
        (⟨{ store with ledger := store.ledger.setRow EntityRow.ledgerSize pos placed },
          placed.ledgerSize, linkErr⟩, placed, genesis)

private theorem commitLedgerRow_eq (st : CommitState) (rowID : Nat) (row : EntityRow) :
    commitLedgerRow st rowID row =
      writeRow st rowID row (linkRow st.store row (st.store.pos + st.size)) :=
  rfl

private theorem linkRow_spec {s next : AssetDB} {rowID : Nat} {row linked : EntityRow}
    {genesis : Option EntityRow} {pos : Int} (posNonneg : 0 ≤ pos)
    (unplaced : row.chainPos < 0)
    (entity : row.isFollowOn = true → row.firstPos < 0 → entityID row < rowID ∧
      0 ≤ (s.memPool.getRow (entityID row)).firstPos)
    (linkedEq : linkRow s row pos = (next, linked, genesis)) :
    linked.chainPos < 0 ∧ linked.prevPos = s.prevPos ∧ linked.block = row.block ∧
      0 ≤ linked.firstPos ∧
      ∃ memPool, next = { s with memPool } ∧ memPool.count = s.memPool.count ∧
        (∀ other, rowID ≤ other → memPool.getRow other = s.memPool.getRow other) ∧
        ∀ other, (memPool.getRow other).firstPos = (s.memPool.getRow other).firstPos := by
  unfold entityID at entity
  unfold linkRow at linkedEq
  dsimp only at linkedEq
  by_cases followOn : row.isFollowOn = true
  · rw [if_pos followOn] at linkedEq
    unfold linkFollowOn at linkedEq
    by_cases negative : row.firstPos < 0
    · rw [if_pos negative] at linkedEq
      simp only [Prod.mk.injEq] at linkedEq
      obtain ⟨rfl, rfl, -⟩ := linkedEq
      obtain ⟨inFront, placed⟩ := entity followOn negative
      refine ⟨unplaced, rfl, rfl, placed, _, rfl, rfl, ?_, ?_⟩
      · intro other behind
        change Function.update s.memPool.data _ _ other = _
        rw [Function.update_of_ne (by omega)]
        rfl
      · intro other
        change EntityRow.firstPos (Function.update s.memPool.data _ _ other) = _
        by_cases same : other = (-row.firstPos - 1).toNat
        · rw [same, Function.update_self]
        · rw [Function.update_of_ne same]
          rfl
    · rw [if_neg negative] at linkedEq
      simp only [Prod.mk.injEq] at linkedEq
      obtain ⟨rfl, rfl, -⟩ := linkedEq
      exact ⟨unplaced, rfl, rfl, not_lt.1 negative, _, rfl, rfl, fun _ _ => rfl, fun _ => rfl⟩
  · rw [if_neg followOn] at linkedEq
    simp only [Prod.mk.injEq] at linkedEq
    obtain ⟨rfl, rfl, -⟩ := linkedEq
    by_cases negative : row.firstPos < 0
    · rw [if_pos negative]
      exact ⟨unplaced, rfl, rfl, posNonneg, _, rfl, rfl, fun _ _ => rfl, fun _ => rfl⟩
    · rw [if_neg negative]
      exact ⟨unplaced, rfl, rfl, not_lt.1 negative, _, rfl, rfl, fun _ _ => rfl, fun _ => rfl⟩

private theorem commitLedgerRow_spec {st next : CommitState} {rowID : Nat}
    {row placed : EntityRow} {genesis : Option EntityRow}
    (posNonneg : 0 ≤ st.store.pos + st.size) (unplaced : row.chainPos < 0)
    (entity : row.isFollowOn = true → row.firstPos < 0 → entityID row < rowID ∧
      0 ≤ (st.store.memPool.getRow (entityID row)).firstPos)
    (written : commitLedgerRow st rowID row = (next, placed, genesis)) :
    placed.chainPos = st.store.pos + st.size ∧ placed.prevPos = st.store.prevPos ∧
      placed.block = row.block ∧ 0 ≤ placed.firstPos ∧
      ∃ memPool ledger, next.store = { st.store with
          ledger, memPool, pos := st.store.pos + st.size, prevPos := st.store.pos + st.size } ∧
        memPool.count = st.store.memPool.count ∧
        (∀ other, rowID < other → memPool.getRow other = st.store.memPool.getRow other) ∧
        (∀ other < rowID, (memPool.getRow other).firstPos =
          (st.store.memPool.getRow other).firstPos) ∧
        0 ≤ (memPool.getRow rowID).firstPos ∧
        ((ledger = st.store.ledger ∧ next.err ≠ none) ∨
          (ledger = st.store.ledger.setRow EntityRow.ledgerSize (st.store.pos + st.size) placed ∧
            next.size = placed.ledgerSize)) := by
  generalize linkedEq : linkRow st.store row (st.store.pos + st.size) = linkage at *
  obtain ⟨linkStore, linked, linkGenesis⟩ := linkage
  obtain ⟨chainPos, prevPos, block, firstPos, memPool, rfl, count, ahead, sameFirst⟩ :=
    linkRow_spec posNonneg unplaced entity linkedEq
  have placedEq : placeRow linked (st.store.pos + st.size) =
      { linked with chainPos := st.store.pos + st.size } := if_pos chainPos
  have rowsEq : ∀ other, (memPool.overwrite rowID
      (placeRow linked (st.store.pos + st.size))).getRow other =
      if other = rowID then placeRow linked (st.store.pos + st.size)
      else memPool.getRow other := by
    intro other
    change Function.update memPool.data _ _ other = _
    by_cases same : other = rowID
    · rw [if_pos same, same, Function.update_self]
    · rw [if_neg same, Function.update_of_ne same]
      rfl
  have poolFacts : (memPool.overwrite rowID (placeRow linked (st.store.pos + st.size))).count =
        st.store.memPool.count ∧
      (∀ other, rowID < other → (memPool.overwrite rowID
        (placeRow linked (st.store.pos + st.size))).getRow other =
          st.store.memPool.getRow other) ∧
      (∀ other < rowID, ((memPool.overwrite rowID
        (placeRow linked (st.store.pos + st.size))).getRow other).firstPos =
          (st.store.memPool.getRow other).firstPos) ∧
      0 ≤ ((memPool.overwrite rowID
        (placeRow linked (st.store.pos + st.size))).getRow rowID).firstPos := by
    refine ⟨count, ?_, ?_, ?_⟩
    · intro other above
      rw [rowsEq, if_neg above.ne', ahead other above.le]
    · intro other below
      rw [rowsEq, if_neg below.ne, sameFirst]
    · rw [rowsEq, if_pos rfl, placedEq]
      exact firstPos
  rw [commitLedgerRow_eq, linkedEq] at written
  dsimp only [writeRow] at written
  have placedFacts : (placeRow linked (st.store.pos + st.size)).chainPos =
        st.store.pos + st.size ∧
      (placeRow linked (st.store.pos + st.size)).prevPos = st.store.prevPos ∧
      (placeRow linked (st.store.pos + st.size)).block = row.block ∧
      0 ≤ (placeRow linked (st.store.pos + st.size)).firstPos := by
    rw [placedEq]
    exact ⟨rfl, prevPos, block, firstPos⟩
  generalize placeRow linked (st.store.pos + st.size) = place at *
  generalize memPool.overwrite rowID place = placedPool at *
  split at written
  · simp only [Prod.mk.injEq] at written
    obtain ⟨rfl, rfl, -⟩ := written
    exact ⟨placedFacts.1, placedFacts.2.1, placedFacts.2.2.1, placedFacts.2.2.2, _, _, rfl,
      poolFacts.1, poolFacts.2.1, poolFacts.2.2.1, poolFacts.2.2.2, .inl ⟨rfl, Option.some_ne_none _⟩⟩
  · split at written <;> simp only [Prod.mk.injEq] at written <;>
      obtain ⟨rfl, rfl, -⟩ := written
    · exact ⟨placedFacts.1, placedFacts.2.1, placedFacts.2.2.1, placedFacts.2.2.2, _, _, rfl,
        poolFacts.1, poolFacts.2.1, poolFacts.2.2.1, poolFacts.2.2.2, .inl ⟨rfl, Option.some_ne_none _⟩⟩
    · exact ⟨placedFacts.1, placedFacts.2.1, placedFacts.2.2.1, placedFacts.2.2.2, _, _, rfl,
        poolFacts.1, poolFacts.2.1, poolFacts.2.2.1, poolFacts.2.2.2, .inr ⟨rfl, rfl⟩⟩

private theorem commitRecords_spec {st next : CommitState} {row : EntityRow}
    {genesis : Option EntityRow} (recorded : commitRecords st row genesis = some next) :
    next.err = st.err ∧ next.size = st.size ∧
      ∃ database, next.store = { st.store with database } ∧
        database.committed = st.store.database.committed := by
  unfold commitRecords at recorded
  cases genesis with
  | none =>
      rw [← Option.some.inj recorded, Store.foldl_write]
      exact ⟨rfl, rfl, _, rfl, rfl⟩
  | some genesis =>
      obtain ⟨details, -, rfl⟩ := Option.map_eq_some_iff.1 recorded
      dsimp only
      rw [Store.foldl_write]
      exact ⟨rfl, rfl, _, rfl, rfl⟩

section Commit

variable {s : AssetDB} {log older newer : List EntityRow} {st next : CommitState} {rowID : Nat}

private theorem Placing.of_records (placing : s.Placing log st)
    {database : Store EntityKey EntityDBRow} (store : next.store = { st.store with database })
    (committed : database.committed = st.store.database.committed) : s.Placing log next where
  header := by rw [store]; exact placing.header
  chain := by rw [store]; exact placing.chain
  firstPositions := by rw [store]; exact placing.firstPositions
  committed := by rw [store]; exact committed.trans placing.committed
  count := by rw [store]; exact placing.count
  block := by rw [store]; exact placing.block

private theorem Placed.of_records (placed : s.Placed older newer st rowID)
    {database : Store EntityKey EntityDBRow} (store : next.store = { st.store with database })
    (size : next.size = st.size) : s.Placed older newer next rowID where
  ahead := by rw [store]; exact placed.ahead
  behind := by rw [store]; exact placed.behind
  chain := by rw [store]; exact placed.chain
  blocks := placed.blocks
  prevPos := by rw [store]; exact placed.prevPos
  endPos_le := by rw [store, size]; exact placed.endPos_le
  pos_le := by rw [store, size]; exact placed.pos_le
  fresh := placed.fresh
  grown := placed.grown

private theorem commitLedgerRow_placed (headed : s.Headed log older) (placing : s.Placing log st)
    (placed : s.Placed older newer st rowID) (live : rowID < s.memPool.count)
    {row written : EntityRow} (rowEq : st.store.memPool.getRow rowID = row)
    {genesis : Option EntityRow}
    (round : commitLedgerRow st rowID row = (next, written, genesis)) :
    s.Placing log next ∧
      (next.err = none → s.Placed older (written :: newer) next (rowID + 1)) := by
  have rowIs : s.memPool.getRow rowID = row := (placed.ahead rowID le_rfl).symm.trans rowEq
  have unplaced := headed.pool.unplaced rowID live
  rw [rowIs] at unplaced
  have basePos := placed.chain.base_le_endPos
  have positive := entityShape.base_pos
  have endLe := placed.endPos_le
  have posLe := placed.pos_le
  have logEnd := headed.endPos_le
  have entity : row.isFollowOn = true → row.firstPos < 0 → entityID row < rowID ∧
      0 ≤ (st.store.memPool.getRow (entityID row)).firstPos := by
    intro followOn negative
    rw [← rowIs] at followOn negative ⊢
    obtain ⟨-, isTxid, inFront⟩ := headed.pool.entity rowID live negative
    exact ⟨inFront followOn, placed.behind _ (inFront followOn) isTxid⟩
  obtain ⟨chainPos, prevPos, block, firstPos, memPool, ledger, store, count, ahead, behind,
    itself, cases⟩ := commitLedgerRow_spec (by omega) unplaced entity round
  obtain ⟨header, headerAt, script, -⟩ := headed.header
  have headerSize : entityShape.size header = entityShape.base := by
    change EntityRow.ledgerSize header = entityTotalSize
    unfold EntityRow.ledgerSize EntityRow.scriptSize
    rw [script]
    rfl
  have kept : s.Placing log next := by
    refine ⟨?_, ?_, ?_, ?_, ?_, ?_⟩
    · rw [store]
      rcases cases with ⟨rfl, -⟩ | ⟨rfl, -⟩
      · exact placing.header
      · rw [headerAt]
        exact placing.chain.rowAt_zero_setRow (placing.header.trans headerAt) headerSize
          (by omega)
    · rw [store]
      rcases cases with ⟨rfl, -⟩ | ⟨rfl, -⟩
      · exact placing.chain
      · exact placing.chain.setRow_of_endPos_le (by omega)
    · rw [store]
      rcases cases with ⟨rfl, -⟩ | ⟨rfl, -⟩
      · exact placing.firstPositions
      · exact placing.firstPositions.setRow firstPos _
    · rw [store]
      exact placing.committed
    · rw [store]
      exact count.trans placing.count
    · rw [store]
      exact placing.block
  refine ⟨kept, fun success => ?_⟩
  rcases cases with ⟨-, failed⟩ | ⟨ledgerEq, size⟩
  · exact absurd success failed
  · have sizeLe := entityShape.base_le written
    change _ ≤ EntityRow.ledgerSize written at sizeLe
    have place : entityShape.pos written = st.store.pos + st.size := chainPos
    have newEnd : entityShape.endPos (written :: newer ++ older) =
        st.store.pos + st.size + EntityRow.ledgerSize written := by
      change entityShape.pos written + EntityRow.ledgerSize written = _
      rw [place]
    refine ⟨?_, ?_, ?_, ?_, ?_, ?_, ?_, ?_, ?_⟩
    · intro other above
      rw [store]
      exact (ahead other above).trans (placed.ahead other (by omega))
    · intro other below isTxid
      rw [store]
      rcases Nat.lt_succ_iff_lt_or_eq.1 below with before | rfl
      · change 0 ≤ (memPool.getRow other).firstPos
        rw [behind other before]
        exact placed.behind other before isTxid
      · exact itself
    · rw [store, ledgerEq]
      refine ⟨?_, ?_, ?_, ?_⟩
      · rw [place]
        exact ExtentFile.rowAt_setRow_self
      · exact prevPos.trans placed.prevPos
      · rw [place]
        exact endLe
      · exact placed.chain.setRow_of_endPos_le endLe
    · intro other member
      rcases List.mem_cons.1 member with rfl | inNewer
      · rw [block, ← rowIs]
        exact headed.pool.blocks rowID live
      · exact placed.blocks other inNewer
    · rw [store]
      exact place.symm
    · rw [newEnd, store, size]
    · rw [store, size]
      change _ ≤ st.store.pos + st.size + EntityRow.ledgerSize written
      omega
    · omega
    · intro _
      rw [newEnd]
      omega

private theorem commitRow_placed (headed : s.Headed log older) (placing : s.Placing log st)
    (placed : st.err = none → ∃ newer, s.Placed older newer st rowID)
    (live : rowID < s.memPool.count) (round : commitRow st rowID = some next) :
    s.Placing log next ∧
      (next.err = none → ∃ newer, s.Placed older newer next (rowID + 1)) := by
  unfold commitRow at round
  cases failed : st.err with
  | some err =>
      rw [failed] at round
      dsimp only at round
      rw [← Option.some.inj round]
      exact ⟨placing, fun success => absurd (failed.symm.trans success) (Option.some_ne_none _)⟩
  | none =>
      rw [failed] at round
      dsimp only at round
      obtain ⟨newer, placed⟩ := placed failed
      generalize rowEq : st.store.memPool.getRow rowID = row at round
      have rowIs : s.memPool.getRow rowID = row := (placed.ahead rowID le_rfl).symm.trans rowEq
      by_cases isTxid : row.key.isTxid = true
      · rw [if_pos isTxid] at round
        generalize writtenEq : commitLedgerRow st rowID row = result at round
        obtain ⟨afterRow, written, genesis⟩ := result
        obtain ⟨keptRow, placedRow⟩ :=
          commitLedgerRow_placed headed placing placed live rowEq writtenEq
        dsimp only at round
        cases rowFailed : afterRow.err with
        | some err =>
            rw [rowFailed] at round
            dsimp only at round
            rw [← Option.some.inj round]
            exact ⟨keptRow,
              fun success => absurd (rowFailed.symm.trans success) (Option.some_ne_none _)⟩
        | none =>
            rw [rowFailed] at round
            obtain ⟨-, size, database, store, committed⟩ := commitRecords_spec round
            exact ⟨keptRow.of_records store committed,
              fun _ => ⟨_, (placedRow rowFailed).of_records store size⟩⟩
      · rw [if_neg isTxid] at round
        obtain ⟨-, size, database, store, committed⟩ := commitRecords_spec round
        refine ⟨placing.of_records store committed, fun _ => ⟨newer, ?_⟩⟩
        have notFirst : 0 < rowID := by
          by_contra zero
          obtain rfl : rowID = 0 := by omega
          rw [← rowIs] at isTxid
          exact isTxid (headed.pool.firstTxid live)
        have current := placed.of_records store size
        refine ⟨fun other above => current.ahead other (by omega), ?_, current.chain,
          current.blocks, current.prevPos, current.endPos_le, current.pos_le, by omega,
          fun _ => current.grown notFirst⟩
        intro other below otherTxid
        rcases Nat.lt_succ_iff_lt_or_eq.1 below with before | rfl
        · exact current.behind other before otherTxid
        · rw [rowIs] at otherTxid
          exact absurd otherTxid isTxid

private theorem placed_start (headed : s.Headed log older) :
    s.Placing log ⟨s, 0, none⟩ ∧ s.Placed older [] ⟨s, 0, none⟩ 0 := by
  have olderEnd := headed.chain.endPos_le_of_suffix headed.older_suffix
  have logEnd := headed.endPos_le
  obtain ⟨skipped, logEq⟩ := headed.older_suffix
  have chain := headed.chain
  rw [← logEq] at chain
  refine ⟨⟨rfl, headed.chain, headed.firstPositions, rfl, rfl, rfl⟩, ?_⟩
  refine ⟨fun _ _ => rfl, fun _ below => absurd below (Nat.not_lt_zero _), chain.of_append,
    fun _ member => absurd member List.not_mem_nil, headed.prevPos, ?_, ?_, fun _ => rfl, fun positive => absurd positive (Nat.lt_irrefl 0)⟩
  · change entityShape.endPos older ≤ s.pos + 0
    omega
  · change s.pos ≤ s.pos + 0
    omega

/-- The loop of a commit. -/
theorem commitRows_placed (headed : s.Headed log older) (rows : commitRows s = some st) :
    s.Placing log st ∧ (st.err = none → ∃ newer, s.Placed older newer st s.memPool.count) := by
  have rounds : ∀ count ≤ s.memPool.count, ∀ st,
      (List.range count).foldlM commitRow ⟨s, 0, none⟩ = some st →
      s.Placing log st ∧ (st.err = none → ∃ newer, s.Placed older newer st count) := by
    intro count
    induction count with
    | zero =>
        intro _ st start
        rw [← Option.some.inj start]
        exact ⟨(placed_start headed).1, fun _ => ⟨[], (placed_start headed).2⟩⟩
    | succ count ih =>
        intro inside st round
        rw [List.range_succ, List.foldlM_append] at round
        obtain ⟨before, reached, last⟩ := Option.bind_eq_some_iff.1 round
        obtain ⟨placing, placed⟩ := ih (by omega) before reached
        rw [List.foldlM_cons] at last
        obtain ⟨after, step, done⟩ := Option.bind_eq_some_iff.1 last
        rw [List.foldlM_nil] at done
        rw [← Option.some.inj done]
        exact commitRow_placed headed placing placed (by omega) step
  exact rounds _ le_rfl st rows

theorem commitRows_empty (empty : s.memPool.count = 0) : commitRows s = some ⟨s, 0, none⟩ := by
  unfold commitRows
  rw [empty]
  rfl

end Commit

section Headers

variable {s : AssetDB} {log older : List EntityRow}

/-- The position behind the last row of a chain is read from the file. -/
theorem posBehind_lastPos {files : EntityFiles} (chain : entityShape.Chain files.ledger log)
    {header : EntityRow} (headerAt : files.ledger.rowAt 0 = some header)
    (script : header.script = []) :
    posBehind files (entityShape.lastPos log) = entityShape.endPos log := by
  unfold posBehind EntityFiles.ledgerRowAt
  rw [EntityRow.allocSize_eq_ledgerSize]
  cases log with
  | nil =>
      change 0 + EntityRow.ledgerSize ((files.ledger.rowAt 0).getD .zero) = entityTotalSize
      rw [headerAt, Option.getD_some, zero_add]
      unfold EntityRow.ledgerSize EntityRow.scriptSize
      rw [script]
      rfl
  | cons row log =>
      change entityShape.pos row +
        EntityRow.ledgerSize ((files.ledger.rowAt (entityShape.pos row)).getD .zero) =
        entityShape.pos row + EntityRow.ledgerSize row
      rw [chain.1, Option.getD_some]

/-- A row can be read where a chain ends. -/
theorem exists_rowAt_lastPos {files : EntityFiles} (chain : entityShape.Chain files.ledger log)
    {header : EntityRow} (headerAt : files.ledger.rowAt 0 = some header) :
    ∃ row, files.ledger.rowAt (entityShape.lastPos log) = some row := by
  cases log with
  | nil => exact ⟨header, headerAt⟩
  | cons row log => exact ⟨row, chain.1⟩

/-- Clearing a memory pool with rows goes back to the row that the header names. -/
theorem headed_clearMemPool_of_rows (rows : s.memPool.count ≠ 0)
    (header : ∃ header, s.ledger.rowAt 0 = some header ∧ header.script = [] ∧
      header.block = s.block ∧ header.prevPos = entityShape.lastPos log)
    (zeroRow : ∃ adbRow, s.database.read .zero = some adbRow ∧ adbRow.block = s.block ∧
      adbRow.ledgerPos = entityShape.lastPos log)
    (chain : entityShape.Chain s.ledger log)
    (sorted : log.Pairwise fun newer older => older.block ≤ newer.block)
    (blocks_le : ∀ row ∈ log, row.block ≤ s.block) (firstPositions : FirstPositions s.ledger) :
    s.clearMemPool.Headed log log := by
  obtain ⟨headerRow, headerAt, script, block, prevPos⟩ := header
  obtain ⟨lastRow, lastAt⟩ := exists_rowAt_lastPos chain headerAt
  have cleared : s.clearMemPool = { s with
      memPool := s.memPool.clear
      prevPos := entityShape.lastPos log
      pos := entityShape.endPos log } := by
    unfold clearMemPool
    rw [if_neg rows]
    dsimp only
    rw [headerAt]
    dsimp only
    rw [prevPos, lastAt]
    dsimp only
    rw [posBehind_lastPos chain headerAt script]
  rw [cleared]
  exact
    { pool := EntityPool.clear _
      header := ⟨headerRow, headerAt, script, block, prevPos⟩
      zeroRow := zeroRow
      chain := chain
      sorted := sorted
      blocks_le := blocks_le
      firstPositions := firstPositions
      older_suffix := List.suffix_refl log
      prevPos := rfl
      endPos_le := le_rfl }

theorem Headed.clearMemPool (headed : s.Headed log older) :
    ∃ next, s.clearMemPool.Headed log next := by
  by_cases empty : s.memPool.count = 0
  · have unchanged : s.clearMemPool = s := if_pos empty
    refine ⟨older, ?_⟩
    rw [unchanged]
    exact headed
  · exact ⟨log, headed_clearMemPool_of_rows empty headed.header headed.zeroRow headed.chain
      headed.sorted headed.blocks_le headed.firstPositions⟩

theorem count_clearMemPool (s : AssetDB) : s.clearMemPool.memPool.count = 0 := by
  unfold clearMemPool
  by_cases empty : s.memPool.count = 0
  · rw [if_pos empty]
    exact empty
  · rw [if_neg empty]
    dsimp only
    split
    · rfl
    · split <;> rfl

private theorem undoRow_committed {row : EntityRow} {details : EntityDetails}
    {database undone : Store EntityKey EntityDBRow} {err : Option McError}
    (result : undoRow s row details database = some (undone, err)) :
    undone.committed = database.committed := by
  unfold undoRow at result
  have deletes : ∀ (keys : List EntityKey) (database : Store EntityKey EntityDBRow),
      (keys.foldl (fun database key => database.write ⟨key, none⟩) database).committed =
        database.committed := by
    intro keys
    induction keys with
    | nil => exact fun _ => rfl
    | cons key keys ih => exact fun database => ih (database.write ⟨key, none⟩)
  have deleted := deletes (undoneKeys details) database
  split at result
  · obtain ⟨genesis, -, restored⟩ := Option.map_eq_some_iff.1 result
    rw [← deleted]
    split at restored
    · rw [← (Prod.mk.inj restored).1]
    · rw [← (Prod.mk.inj restored).1, Store.foldl_write]
  · rw [← (Prod.mk.inj (Option.some.inj result)).1]
    exact deleted

theorem rollBackWalk_suffix {block : Int} {fuel : Nat} {st done : RollBackState}
    (chain : entityShape.Chain s.ledger older) (thisPos : st.thisPos = entityShape.lastPos older)
    (walked : rollBackWalk s block fuel st = some done) :
    done.database.committed = st.database.committed ∧
      ∃ kept, kept <:+ older ∧ done.thisPos = entityShape.lastPos kept ∧
        (older.length < fuel → done.err = none → ∀ row ∈ kept.head?, row.block ≤ block) := by
  induction fuel generalizing st older with
  | zero =>
      rw [← Option.some.inj walked]
      exact ⟨rfl, older, List.suffix_refl _, thisPos, fun short => absurd short (Nat.not_lt_zero _)⟩
  | succ fuel ih =>
      unfold rollBackWalk at walked
      have stays : done = st → (∀ row ∈ older.head?, row.block ≤ block) →
          done.database.committed = st.database.committed ∧
            ∃ kept, kept <:+ older ∧ done.thisPos = entityShape.lastPos kept ∧
              (older.length < fuel + 1 → done.err = none →
                ∀ row ∈ kept.head?, row.block ≤ block) := by
        rintro rfl low
        exact ⟨rfl, older, List.suffix_refl _, thisPos, fun _ _ => low⟩
      split at walked
      · rename_i positive
        dsimp only at walked
        cases older with
        | nil =>
            rw [thisPos] at positive
            exact absurd positive (lt_irrefl 0)
        | cons row older =>
            have rowEq : s.ledgerRowAt st.thisPos = row := by
              unfold EntityFiles.ledgerRowAt
              rw [thisPos]
              change (s.ledger.rowAt (entityShape.pos row)).getD .zero = row
              rw [chain.1]
              rfl
            rw [rowEq] at walked
            split at walked
            · cases walked
            · split at walked
              · split at walked
                · cases walked
                · rename_i undone
                  rw [← Option.some.inj walked]
                  exact ⟨undoRow_committed undone, row :: older, List.suffix_refl _, thisPos,
                    fun _ failed => absurd failed (Option.some_ne_none _)⟩
                · rename_i undone
                  obtain ⟨committed, kept, suffix, stopped, low⟩ :=
                    ih chain.2.2.2 chain.2.1 walked
                  exact ⟨committed.trans (undoRow_committed undone), kept,
                    suffix.trans (List.suffix_cons _ _), stopped,
                    fun short => low (Nat.lt_of_succ_lt_succ short)⟩
              · rename_i notAbove
                apply stays (Option.some.inj walked).symm
                intro head isHead
                rw [← Option.some.inj isHead]
                exact not_lt.1 notAbove
      · rename_i notPositive
        apply stays (Option.some.inj walked).symm
        intro head isHead
        have member : head ∈ older := List.mem_of_mem_head? isHead
        cases older with
        | nil => cases member
        | cons row older =>
            have positive := entityShape.base_pos
            have place := chain.base_le_pos (List.mem_cons_self ..)
            change st.thisPos = entityShape.pos row at thisPos
            omega

private theorem ledgerRowAt_zero {files : EntityFiles} {header : EntityRow}
    (headerAt : files.ledger.rowAt 0 = some header) : files.ledgerRowAt 0 = header := by
  unfold EntityFiles.ledgerRowAt
  rw [headerAt]
  rfl

/-- The header is written over itself. -/
theorem setHeader_chain (files : EntityFiles) (chain : entityShape.Chain files.ledger log)
    {header : EntityRow} (headerAt : files.ledger.rowAt 0 = some header)
    (script : header.script = []) (block prevPos : Int) :
    (∃ written, (files.setHeader block prevPos).ledger.rowAt 0 = some written ∧
      written.script = [] ∧ written.block = block ∧ written.prevPos = prevPos) ∧
    entityShape.Chain (files.setHeader block prevPos).ledger log := by
  unfold EntityFiles.setHeader
  rw [ledgerRowAt_zero headerAt]
  refine ⟨⟨_, ExtentFile.rowAt_setRow_self, script, rfl, rfl⟩, ?_⟩
  apply chain.setRow_zero
  change EntityRow.ledgerSize _ = entityTotalSize
  unfold EntityRow.ledgerSize EntityRow.scriptSize
  dsimp only
  rw [script]
  rfl

private theorem setHeader_spec (files : EntityFiles) (chain : entityShape.Chain files.ledger log)
    (firstPositions : FirstPositions files.ledger) {header : EntityRow}
    (headerAt : files.ledger.rowAt 0 = some header) (script : header.script = [])
    (block prevPos : Int) :
    (∃ written, (files.setHeader block prevPos).ledger.rowAt 0 = some written ∧
      written.script = [] ∧ written.block = block ∧ written.prevPos = prevPos) ∧
    entityShape.Chain (files.setHeader block prevPos).ledger log ∧
    FirstPositions (files.setHeader block prevPos).ledger ∧
    (files.setHeader block prevPos).database = files.database := by
  obtain ⟨written, keptChain⟩ := setHeader_chain files chain headerAt script block prevPos
  refine ⟨written, keptChain, ?_, rfl⟩
  unfold EntityFiles.setHeader
  rw [ledgerRowAt_zero headerAt]
  have placed : 0 ≤ ({ header with block, prevPos } : EntityRow).firstPos :=
    firstPositions 0 header headerAt
  exact firstPositions.setRow placed 0

private theorem read_zeroRowWrite (files : EntityFiles) (database : Store EntityKey EntityDBRow)
    (block ledgerPos : Int) :
    ∃ adbRow, (database.write (files.zeroRowWrite block ledgerPos)).commit.read .zero =
      some adbRow ∧ adbRow.block = block ∧ adbRow.ledgerPos = ledgerPos := by
  refine ⟨{ (files.database.read .zero).getD .zero with block, ledgerPos }, ?_, rfl, rfl⟩
  have last : lastWrite (database.write (files.zeroRowWrite block ledgerPos)).pending .zero =
      some (files.zeroRowWrite block ledgerPos) := by
    change lastWrite (database.pending ++ [files.zeroRowWrite block ledgerPos]) .zero = _
    rw [lastWrite_append, lastWrite_singleton]
    rfl
  rw [Store.read_commit, last]
  rfl

/-- A rollback leaves a store with a header, even one that stops with an error. -/
theorem headed_rollBack (headed : s.clearMemPool.Headed log older) {block : Int}
    {err : Option McError} {next : AssetDB} (ended : s.rollBack block = .ended err next) :
    ∃ log older, next.Headed log older := by
  unfold rollBack at ended
  dsimp only at ended
  have noRows := count_clearMemPool s
  generalize s.clearMemPool = cleared at headed ended noRows
  have olderChain : entityShape.Chain cleared.ledger older := by
    obtain ⟨skipped, logEq⟩ := headed.older_suffix
    have chain := headed.chain
    rw [← logEq] at chain
    exact chain.of_append
  obtain ⟨header, headerAt, script, headerBlock, headerPos⟩ := headed.header
  split at ended
  · cases ended
  · rename_i st walked
    obtain ⟨committed, kept, keptSuffix, thisPos, low⟩ :=
      rollBackWalk_suffix olderChain (show _ = _ from headed.prevPos) walked
    have keptChain : entityShape.Chain cleared.ledger kept := by
      obtain ⟨skipped, olderEq⟩ := keptSuffix
      rw [← olderEq] at olderChain
      exact olderChain.of_append
    split at ended
    · injection ended with _ nextEq
      rw [← nextEq]
      refine ⟨log, kept, headed.pool, headed.header, ?_, headed.chain, headed.sorted,
        headed.blocks_le, headed.firstPositions, keptSuffix.trans headed.older_suffix, thisPos, headed.endPos_le⟩
      obtain ⟨adbRow, read, zeroBlock, zeroPos⟩ := headed.zeroRow
      refine ⟨adbRow, ?_, zeroBlock, zeroPos⟩
      change get st.database.committed .zero = _
      rw [committed]
      exact read
    · injection ended with _ nextEq
      rw [← nextEq]
      obtain ⟨⟨written, writtenAt, writtenScript, writtenBlock, writtenPos⟩, chain,
        firstPositions, sameDatabase⟩ :=
        setHeader_spec
          ⟨(st.database.write (EntityFiles.zeroRowWrite ⟨st.database, cleared.ledger⟩ block
            st.thisPos)).commit, cleared.ledger⟩
          keptChain headed.firstPositions headerAt script block st.thisPos
      have keptSorted := headed.sorted.sublist (keptSuffix.trans headed.older_suffix).sublist
      refine ⟨kept, kept, headed.pool.of_empty noRows _,
        ⟨written, writtenAt, writtenScript, writtenBlock, writtenPos.trans thisPos⟩, ?_, chain,
        keptSorted, ?_, firstPositions, List.suffix_refl _, thisPos, ?_⟩
      · obtain ⟨adbRow, read, zeroBlock, zeroPos⟩ := read_zeroRowWrite
          ⟨st.database, cleared.ledger⟩ st.database block st.thisPos
        exact ⟨adbRow, read, zeroBlock, zeroPos.trans thisPos⟩
      · have shortEnough : older.length < cleared.prevPos.toNat + 1 := by
          rw [headed.prevPos]
          exact olderChain.length_lt_lastPos
        have lowHead := low shortEnough (by assumption)
        intro row inKept
        cases kept with
        | nil => cases inKept
        | cons head rest =>
            have headLow := lowHead head rfl
            rcases List.mem_cons.1 inKept with rfl | inRest
            · exact headLow
            · exact ((List.pairwise_cons.1 keptSorted).1 row inRest).trans headLow
      · apply le_of_eq
        rw [← posBehind_lastPos chain writtenAt writtenScript, ← thisPos]

/-- The header of a commit names the row that was placed last. -/
theorem header_commitHeader {older newer : List EntityRow} {st : CommitState}
    (headed : s.Headed log older) (placing : s.Placing log st)
    (placed : s.Placed older newer st s.memPool.count) (pos : Int) :
    (∃ header, ({ st.store with pos : AssetDB }).commitHeader.ledger.rowAt 0 = some header ∧
      header.script = [] ∧ header.block = s.block + 1 ∧
      header.prevPos = entityShape.lastPos (newer ++ older)) ∧
    entityShape.Chain ({ st.store with pos : AssetDB }).commitHeader.ledger (newer ++ older) ∧
    entityShape.Chain ({ st.store with pos : AssetDB }).commitHeader.ledger log ∧
    FirstPositions ({ st.store with pos : AssetDB }).commitHeader.ledger := by
  obtain ⟨header, headerAt, script, -⟩ := headed.header
  have storedHeader := placing.header.trans headerAt
  obtain ⟨⟨written, writtenAt, writtenScript, writtenBlock, writtenPos⟩, chain, firstPositions,
    -⟩ := setHeader_spec st.store.toEntityFiles placed.chain placing.firstPositions storedHeader
      script (st.store.block + 1) st.store.prevPos
  obtain ⟨-, logChain, -⟩ := setHeader_spec st.store.toEntityFiles placing.chain
    placing.firstPositions storedHeader script (st.store.block + 1) st.store.prevPos
  rw [placing.block] at writtenBlock
  exact ⟨⟨written, writtenAt, writtenScript, writtenBlock, writtenPos.trans placed.prevPos⟩,
    chain, logChain, firstPositions⟩

theorem headed_commit (headed : s.Headed log older) {err : Option McError} {next : AssetDB}
    (ended : s.commit = .ended err next) : ∃ log older, next.Headed log older := by
  unfold commit at ended
  split at ended
  · cases ended
  · rename_i st rows
    obtain ⟨placing, placed⟩ := commitRows_placed headed rows
    dsimp only at ended
    split at ended
    · rename_i failure failed
      split at ended
      · cases ended
      · rename_i restored rolledBack
        injection ended with _ nextEq
        rw [← nextEq]
        have someRows :
            ({ st.store with pos := st.store.pos + st.size } : AssetDB).memPool.count ≠ 0 := by
          intro empty
          have noRows : s.memPool.count = 0 := placing.count.symm.trans empty
          rw [commitRows_empty noRows] at rows
          rw [← Option.some.inj rows] at failed
          cases failed
        apply headed_rollBack _ rolledBack
        · exact log
        · exact log
        apply headed_clearMemPool_of_rows someRows
        · change ∃ header, st.store.ledger.rowAt 0 = some header ∧ header.script = [] ∧
            header.block = st.store.block ∧ _
          rw [placing.header, placing.block]
          exact headed.header
        · change ∃ adbRow, get st.store.database.committed .zero = some adbRow ∧
            adbRow.block = st.store.block ∧ _
          rw [placing.committed, placing.block]
          exact headed.zeroRow
        · exact placing.chain
        · exact headed.sorted
        · change ∀ row ∈ log, row.block ≤ st.store.block
          rw [placing.block]
          exact headed.blocks_le
        · exact placing.firstPositions
    · rename_i success
      injection ended with _ nextEq
      rw [← nextEq]
      obtain ⟨newer, placed⟩ := placed success
      obtain ⟨header, chain, -, firstPositions⟩ :=
        header_commitHeader headed placing placed (st.store.pos + st.size)
      have olderLow : ∀ row ∈ older, row.block ≤ s.block := fun row inOlder =>
        headed.blocks_le row (headed.older_suffix.subset inOlder)
      refine ⟨newer ++ older, newer ++ older, EntityPool.clear _, ?_, ?_, chain, ?_, ?_,
        firstPositions, List.suffix_refl _, placed.prevPos, placed.endPos_le⟩
      · obtain ⟨header, headerAt, script, block, prevPos⟩ := header
        refine ⟨header, headerAt, script, ?_, prevPos⟩
        rw [block, ← placing.block]
        rfl
      · obtain ⟨adbRow, read, block, ledgerPos⟩ := read_zeroRowWrite
          (st.store.toEntityFiles.setHeader (st.store.block + 1) st.store.prevPos)
          st.store.database (st.store.block + 1) st.store.prevPos
        exact ⟨adbRow, read, block, ledgerPos.trans placed.prevPos⟩
      · refine List.pairwise_append.2 ⟨?_, headed.sorted.sublist headed.older_suffix.sublist, ?_⟩
        · apply List.pairwise_of_forall_mem_list
          intro newerRow inNewer olderRow inOlder
          rw [placed.blocks _ inNewer, placed.blocks _ inOlder]
        · intro newerRow inNewer olderRow inOlder
          have low := olderLow olderRow inOlder
          have block := placed.blocks newerRow inNewer
          omega
      · intro row member
        change row.block ≤ st.store.block + 1
        rw [placing.block]
        rcases List.mem_append.1 member with inNewer | inOlder
        · exact (placed.blocks row inNewer).le
        · have low := olderLow row inOlder
          omega

end Headers

end AssetDB

end HdacNode
