import HdacNode.EntityChains

/-!
# Recovery of the entity store

A process that stops inside a commit, behind the header of the ledger and before the
records of the database, leaves a ledger whose header is one block ahead.  The next start
measures the ledger from its header before it looks at the heights, so it gets to the
repair of the header only when the interrupted block had no rows.
-/

namespace HdacNode

open WriteBatch

/-- The calls of the entity store. -/
inductive EntityCall where
  | insertEntity (txid : Bytes) (offset : Int) (entityType : Nat)
      (script specialScript : Bytes) (updateMemPool : Bool)
  | insertAsset (txid : Bytes) (offset quantity : Int) (name : Bytes) (multiple : Nat)
      (script specialScript : Bytes) (updateMemPool : Bool)
  | insertAssetFollowOn (txid : Bytes) (offset quantity : Int) (script specialScript : Bytes)
      (originalTxid : Bytes) (updateMemPool : Bool)
  | clearMemPool
  | commit
  | rollBack (block : Int)

namespace AssetDB

/-- The files before the first start. -/
def newFiles : EntityFiles := ⟨⟨∅, []⟩, .empty⟩

/-- The store of the first start. -/
def initial : AssetDB where
  toEntityFiles := newFiles.openDatabase.setHeader (-1) 0
  memPool := newMemPool
  block := -1
  prevPos := 0
  pos := entityTotalSize

/-- What a call makes of a store. -/
def callOutcome (s : AssetDB) : EntityCall → EntityOutcome
  | .insertEntity txid offset entityType script specialScript updateMemPool =>
      s.insertEntity txid offset entityType script specialScript updateMemPool
  | .insertAsset txid offset quantity name multiple script specialScript updateMemPool =>
      s.insertAsset txid offset quantity name multiple script specialScript updateMemPool
  | .insertAssetFollowOn txid offset quantity script specialScript originalTxid updateMemPool =>
      s.insertAssetFollowOn txid offset quantity script specialScript originalTxid updateMemPool
  | .clearMemPool => .ended none s.clearMemPool
  | .commit => s.commit
  | .rollBack block => s.rollBack block

/-- The store after some calls, whether they end well or with an error: `none` when one
of them ends in a memory fault. -/
def after (s : AssetDB) : List EntityCall → Option AssetDB
  | [] => some s
  | call :: calls =>
      match s.callOutcome call with
      | .fault => none
      | .ended _ next => next.after calls

/-- The files that a process leaves when it stops inside a commit, between the header of
the ledger and the records of the database: `none` when the commit does not get there. -/
def stoppedFiles (s : AssetDB) : Option EntityFiles :=
  match commitRows s with
  | some ⟨store, _, none⟩ =>
      some ⟨{ store.database with pending := [] }, store.commitHeader.ledger⟩
  | _ => none

/-- The next start ends without an error where the store was. -/
def Recovers (s : AssetDB) (files : EntityFiles) : Prop :=
  ∃ recovered, initializeEntities files = .ok recovered ∧ recovered.block = s.block ∧
    recovered.prevPos = s.prevPos ∧ recovered.pos = s.pos

/-- The store stands behind the row that its header names, as it does unless a rollback
has stopped with an error. -/
def AtHeader (s : AssetDB) : Prop :=
  s.prevPos = (s.ledgerRowAt 0).prevPos ∧ s.pos = posBehind s.toEntityFiles s.prevPos

theorem headed_initial : initial.Headed [] [] where
  pool := EntityPool.initializeBuffer
  header := ⟨_, rfl, rfl, rfl, rfl⟩
  zeroRow := ⟨_, rfl, rfl, rfl⟩
  chain := trivial
  sorted := List.Pairwise.nil
  blocks_le := fun _ member => absurd member List.not_mem_nil
  firstPositions := by
    have none : FirstPositions .empty := fun _ _ found => by cases found
    exact none.setRow (show (0 : Int) ≤ 0 from le_rfl) 0
  older_suffix := List.suffix_refl _
  prevPos := rfl
  endPos_le := le_rfl

section Runs

variable {s next : AssetDB} {log older : List EntityRow}

theorem GrowsPool.headed (grows : s.GrowsPool next) (headed : s.Headed log older) :
    next.Headed log older := by
  obtain ⟨pool, nextEq⟩ := grows
  rw [nextEq]
  exact { headed with pool := pool }

theorem headed_callOutcome (headed : s.Headed log older) (call : EntityCall)
    {err : Option McError} (ended : s.callOutcome call = .ended err next) :
    ∃ log older, next.Headed log older := by
  cases call with
  | insertEntity txid offset entityType script specialScript updateMemPool =>
      exact ⟨log, older, (growsPool_insertEntity headed.pool ended).headed headed⟩
  | insertAsset txid offset quantity name multiple script specialScript updateMemPool =>
      exact ⟨log, older, (growsPool_insertAsset headed.pool ended).headed headed⟩
  | insertAssetFollowOn txid offset quantity script specialScript originalTxid updateMemPool =>
      exact ⟨log, older, (growsPool_insertAssetFollowOn headed.pool headed.firstPositions
        ended).headed headed⟩
  | clearMemPool =>
      obtain ⟨older, cleared⟩ := headed.clearMemPool
      injection ended with _ nextEq
      exact ⟨log, older, nextEq ▸ cleared⟩
  | commit => exact headed_commit headed ended
  | rollBack block =>
      obtain ⟨older, cleared⟩ := headed.clearMemPool
      exact headed_rollBack cleared ended

theorem headed_after (headed : s.Headed log older) {calls : List EntityCall}
    (reached : s.after calls = some next) : ∃ log older, next.Headed log older := by
  induction calls generalizing s log older with
  | nil => exact ⟨log, older, Option.some.inj reached ▸ headed⟩
  | cons call calls ih =>
      unfold after at reached
      split at reached
      · cases reached
      · rename_i ended
        obtain ⟨log, older, headed⟩ := headed_callOutcome headed call ended
        exact ih headed reached

end Runs

section Recovery

variable {s : AssetDB} {log older : List EntityRow} {files : EntityFiles}

private theorem stoppedFiles_spec (headed : s.Headed log older)
    (stopped : s.stoppedFiles = some files) :
    files.database.committed = s.database.committed ∧
      entityShape.Chain files.ledger log ∧
      ∃ newer header, files.ledger.rowAt 0 = some header ∧ header.script = [] ∧
        header.block = s.block + 1 ∧ header.prevPos = entityShape.lastPos (newer ++ older) ∧
        entityShape.Chain files.ledger (newer ++ older) ∧
        (s.memPool.count = 0 → newer = []) ∧
        (0 < s.memPool.count → s.pos < entityShape.endPos (newer ++ older)) := by
  unfold stoppedFiles at stopped
  split at stopped
  · rename_i store size rows
    obtain ⟨placing, placed⟩ := commitRows_placed headed rows
    obtain ⟨newer, placed⟩ := placed rfl
    obtain ⟨⟨header, headerAt, script, block, prevPos⟩, chain, logChain, -⟩ :=
      header_commitHeader headed placing placed store.pos
    rw [← Option.some.inj stopped]
    exact ⟨placing.committed, logChain, newer, header, headerAt, script, block, prevPos, chain,
      placed.fresh, placed.grown⟩
  · cases stopped

private theorem initializeEntities_stopped (headed : s.Headed log older)
    {newer : List EntityRow} {header : EntityRow}
    (committed : files.database.committed = s.database.committed)
    (logChain : entityShape.Chain files.ledger log)
    (headerAt : files.ledger.rowAt 0 = some header) (script : header.script = [])
    (block : header.block = s.block + 1)
    (prevPos : header.prevPos = entityShape.lastPos (newer ++ older))
    (chain : entityShape.Chain files.ledger (newer ++ older)) :
    (entityShape.endPos log ≠ entityShape.endPos (newer ++ older) →
      initializeEntities files = .error .corrupted) ∧
    (log = newer ++ older → ∃ recovered, initializeEntities files = .ok recovered ∧
      recovered.block = s.block ∧ recovered.prevPos = entityShape.lastPos log ∧
      recovered.pos = entityShape.endPos log) := by
  obtain ⟨adbRow, read, zeroBlock, zeroPos⟩ := headed.zeroRow
  have readFiles : files.database.read .zero = some adbRow := by
    change get files.database.committed .zero = _
    rw [committed]
    exact read
  have opened : files.openDatabase = files := by
    unfold EntityFiles.openDatabase
    rw [readFiles]
  obtain ⟨lastRow, lastAt⟩ := exists_rowAt_lastPos logChain headerAt
  have measured : files.getSize = entityShape.endPos (newer ++ older) := by
    rw [← posBehind_lastPos chain headerAt script, ← prevPos]
    unfold EntityFiles.getSize posBehind
    have readHeader : files.ledgerRowAt 0 = header := by
      unfold EntityFiles.ledgerRowAt
      rw [headerAt]
      rfl
    rw [readHeader]
  have started : initializeEntities files =
      if entityShape.endPos log ≠ entityShape.endPos (newer ++ older) then .error .corrupted
      else repairHeader files adbRow (s.block + 1, entityShape.lastPos (newer ++ older))
        (entityShape.endPos log) := by
    unfold initializeEntities
    dsimp only
    rw [opened, readFiles, headerAt, Option.getD_some]
    dsimp only
    rw [zeroPos, lastAt]
    dsimp only
    rw [posBehind_lastPos logChain headerAt script, measured, block, prevPos]
  constructor
  · intro different
    rw [started, if_pos different]
  · intro same
    rw [started, ← same, if_neg (not_not.2 rfl)]
    have walked : files.repairWalk s.block ((entityShape.lastPos log).toNat + 1)
        (entityShape.lastPos log) = entityShape.lastPos log := by
      cases log with
      | nil => rfl
      | cons row log =>
          have positive := entityShape.base_pos
          have place := logChain.base_le_pos (List.mem_cons_self ..)
          have readRow : files.ledgerRowAt (entityShape.pos row) = row := by
            unfold EntityFiles.ledgerRowAt
            rw [logChain.1]
            rfl
          change files.repairWalk s.block ((entityShape.pos row).toNat + 1)
            (entityShape.pos row) = _
          unfold EntityFiles.repairWalk
          rw [if_neg (by omega), readRow, if_pos (headed.blocks_le row (List.mem_cons_self ..))]
          rfl
    have behind : s.block < s.block + 1 := by omega
    unfold repairHeader
    dsimp only
    rw [zeroBlock, if_pos behind, walked, zeroPos, if_neg (not_not.2 rfl)]
    exact ⟨_, rfl, rfl, rfl, rfl⟩

/-- The start after a stop recovers exactly when the interrupted block had no rows and the
store stood behind the row that its header named. -/
theorem Headed.recovers_stopped_iff (headed : s.Headed log older)
    (stopped : s.stoppedFiles = some files) :
    s.Recovers files ↔ s.memPool.count = 0 ∧ s.AtHeader := by
  obtain ⟨committed, logChain, newer, header, headerAt, script, block, prevPos, chain, fresh,
    grown⟩ := stoppedFiles_spec headed stopped
  obtain ⟨corrupted, success⟩ := initializeEntities_stopped headed committed logChain headerAt
    script block prevPos chain
  obtain ⟨oldHeader, oldHeaderAt, oldScript, -, oldPrevPos⟩ := headed.header
  have readHeader : s.ledgerRowAt 0 = oldHeader := by
    unfold EntityFiles.ledgerRowAt
    rw [oldHeaderAt]
    rfl
  have atHeader : s.AtHeader ↔ entityShape.lastPos older = entityShape.lastPos log ∧
      s.pos = entityShape.endPos log := by
    unfold AtHeader
    rw [readHeader, oldPrevPos, headed.prevPos]
    refine and_congr_right fun sameLast => ?_
    rw [sameLast, posBehind_lastPos headed.chain oldHeaderAt oldScript]
  constructor
  · rintro ⟨recovered, started, -, sameLast, samePos⟩
    have sameEnd : entityShape.endPos log = entityShape.endPos (newer ++ older) := by
      by_contra different
      rw [corrupted different] at started
      cases started
    have endLe := headed.endPos_le
    have empty : s.memPool.count = 0 := by
      by_contra some
      have := grown (Nat.pos_of_ne_zero some)
      omega
    obtain rfl := fresh empty
    rw [List.nil_append] at sameEnd success
    have whole : older = log := by
      by_contra different
      have before := headed.chain.endPos_le_lastPos headed.older_suffix different
      have last := entityShape.lastPos_lt_endPos log
      omega
    obtain ⟨other, otherStarted, -, -, otherPos⟩ := success whole.symm
    rw [started] at otherStarted
    obtain rfl : recovered = other := Except.ok.inj otherStarted
    exact ⟨empty, atHeader.2 ⟨by rw [whole], samePos.symm.trans otherPos⟩⟩
  · rintro ⟨empty, standing⟩
    obtain ⟨sameLast, samePos⟩ := atHeader.1 standing
    obtain rfl := fresh empty
    rw [List.nil_append] at success
    have whole : older = log := by
      by_contra different
      have before := headed.chain.endPos_le_lastPos headed.older_suffix different
      have last := entityShape.lastPos_lt_endPos older
      omega
    obtain ⟨recovered, started, recoveredBlock, last, recoveredPos⟩ := success whole.symm
    refine ⟨recovered, started, recoveredBlock, ?_, recoveredPos.trans samePos.symm⟩
    rw [last, headed.prevPos, sameLast]

end Recovery

/-- After every run of calls, the start after a stop inside the next commit recovers
exactly when that commit has no rows to write and no rollback that failed has moved the
store away from its header. -/
theorem stoppedCommit_recovers_iff (calls : List EntityCall) (s : AssetDB) (files : EntityFiles)
    (reached : initial.after calls = some s) (stopped : s.stoppedFiles = some files) :
    s.Recovers files ↔ s.memPool.count = 0 ∧ s.AtHeader := by
  obtain ⟨log, older, headed⟩ := headed_after headed_initial reached
  exact headed.recovers_stopped_iff stopped

/-- A block with one stream, which is not committed yet. -/
def streamBlock : List EntityCall :=
  [.insertEntity (List.replicate 32 1) 81 mcEntTypeStream [] [] true]

/-- The start after a stop inside the commit of a block with a stream fails. -/
theorem streamBlock_not_recovers :
    ∃ s files, initial.after streamBlock = some s ∧ s.stoppedFiles = some files ∧
      ¬ s.Recovers files := by
  have failed : ((initial.after streamBlock).bind stoppedFiles).map
      (fun files => (initializeEntities files).toOption.isNone) = some true := by
    decide +kernel
  obtain ⟨files, stoppedEq, isNone⟩ := Option.map_eq_some_iff.1 failed
  obtain ⟨s, reached, stopped⟩ := Option.bind_eq_some_iff.1 stoppedEq
  refine ⟨s, files, reached, stopped, ?_⟩
  rintro ⟨recovered, started, -⟩
  rw [started] at isNone
  cases isNone

/-- A block with a stream, another one that is rolled back, and a stream that waits. -/
def rolledBackBlocks : List EntityCall :=
  streamBlock ++ [.commit, .insertEntity (List.replicate 32 2) 81 mcEntTypeStream [] [] true,
    .commit, .rollBack 0, .insertEntity (List.replicate 32 3) 81 mcEntTypeStream [] [] true]

theorem stoppedCommit_recovers_rolledBack :
    ∃ s files, initial.after rolledBackBlocks = some s ∧ s.stoppedFiles = some files ∧
      s.block = 0 ∧ (s.Recovers files ↔ s.memPool.count = 0 ∧ s.AtHeader) := by
  have stops : ((initial.after rolledBackBlocks).bind fun s =>
      s.stoppedFiles.map fun _ => decide (s.block = 0)) = some true := by
    decide +kernel
  obtain ⟨s, reached, stops⟩ := Option.bind_eq_some_iff.1 stops
  obtain ⟨files, stopped, height⟩ := Option.map_eq_some_iff.1 stops
  exact ⟨s, files, reached, stopped, of_decide_eq_true height,
    stoppedCommit_recovers_iff rolledBackBlocks s files reached stopped⟩

end AssetDB

end HdacNode
