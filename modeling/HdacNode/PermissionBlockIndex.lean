import HdacNode.PermissionRuns

/-!
# Lookups of blocks by height

Up to the current height the index rows answer for the block committed last at
every height.  Above it they answer nothing, unless a rollback rewrote the row
of a height: it then points to the block of the height below.
-/

namespace HdacNode

open LinkedRowLog

namespace BlockLog

/-- The newest height row of a height comes right behind the row of the block's
miner. -/
theorem index_entry {log : List LedgerRow} {blocks : List (Address × Hash)}
    (blockLog : BlockLog log blocks) (linked : ledgerShape.Linked log) {height : Nat}
    {miner : Address} {hash : Hash}
    (found : blocks.reverse[height]? = some (miner, hash)) :
    ∃ indexRow minerRow, Permissions.newestOf log (blockIndexKey height) = some indexRow ∧
      minerRow ∈ log ∧ indexRow.thisRow = minerRow.thisRow + 1 ∧
      minerRow.key = blockMinerKey miner ∧ indexRow.commitHash = hash := by
  induction blockLog with
  | genesis => simp at found
  | @block log grants blocks minerRow indexRow otherMiner otherHash older grantRows minerKey
      minerReceived indexKey indexReceived indexHash ih =>
      rw [List.reverse_cons] at found
      by_cases isTip : height = blocks.length
      · subst isTip
        rw [List.getElem?_append_right (by simp)] at found
        have pair : (otherMiner, otherHash) = (miner, hash) := by simpa using found
        obtain ⟨rfl, rfl⟩ := Prod.mk.inj pair
        have indexPlace : indexRow.thisRow = (minerRow :: (grants ++ log)).length + 1 := linked.1
        have minerPlace : minerRow.thisRow = (grants ++ log).length + 1 := linked.2.2.1
        refine ⟨indexRow, minerRow, ?_, by simp, ?_, minerKey, indexHash⟩
        · simp [Permissions.newestOf, indexKey]
        · rw [indexPlace, minerPlace, List.length_cons]
      · have inside : height < blocks.reverse.length := by
          have := (List.getElem?_eq_some_iff.1 found).1
          simp only [List.length_append, List.length_reverse, List.length_singleton] at this ⊢
          omega
        rw [List.getElem?_append_left inside] at found
        have olderLinked : ledgerShape.Linked log := by
          have split : indexRow :: minerRow :: (grants ++ log) =
              (indexRow :: minerRow :: grants) ++ log := rfl
          rw [split] at linked
          exact linked.of_append
        obtain ⟨index, miner, newest, member, place, key, hashEq⟩ := ih olderLinked found
        refine ⟨index, miner, ?_, by simp [member], place, key, hashEq⟩
        have split : indexRow :: minerRow :: (grants ++ log) =
            (indexRow :: minerRow :: grants) ++ log := rfl
        have absent : Permissions.newestOf (indexRow :: minerRow :: grants)
            (blockIndexKey height) = none := by
          rw [Permissions.newestOf_eq_none]
          intro row member sameKey
          simp only [List.mem_cons] at member
          have isIndex : row.key.type = mcPtpBlockIndex := by rw [sameKey]; rfl
          rcases member with rfl | rfl | inGrants
          · have heights : (blocks.length : Int) = height :=
              RowAddress.blockRow.inj (congrArg Key.address (indexKey.symm.trans sameKey))
            omega
          · rw [minerKey] at isIndex
            exact blockMinerKey_type_ne otherMiner isIndex
          · exact (grantRows row inGrants).type_ne_blockIndex isIndex
        rw [split, Permissions.newestOf_append, absent, Option.none_or, newest]

end BlockLog

namespace Permissions

namespace Consistent

variable {s : Permissions} {blocks : List (Address × Hash)} {top : Int}

/-- A height row that is not in the database is not in the memory pool either. -/
theorem getPermissionRow_blockIndex (consistent : Consistent s blocks top)
    (height : Int) :
    s.getPermissionRow (blockIndexKey height) true =
      s.getPermissionRow (blockIndexKey height) false := by
  have soughtKey : (s.databaseRow (blockIndexKey height)).2.key = blockIndexKey height := by
    cases found : s.readRow (blockIndexKey height) with
    | none => rw [databaseRow_of_absent found]
    | some pdbRow =>
        rw [databaseRow_of_present consistent.fork found (by simp [blockIndexKey])]
  unfold getPermissionRow
  simp only [if_true, soughtKey]
  refine seekMemPool_of_absent consistent.memCoherent ?_ _ _
  intro row member sameKey
  exact absurd (congrArg Key.type sameKey) (consistent.memPool_not_index row member)

theorem lookup_of_le (consistent : Consistent s blocks top) {height : Nat} {miner : Address}
    {hash : Hash} (found : blocks.reverse[height]? = some (miner, hash)) :
    s.getBlockMiner height = .ok miner ∧
      ∀ other, s.verifyBlockHash height other = true ↔ other = hash := by
  obtain ⟨indexRow, minerRow, newest, minerMem, place, minerKey, indexHash⟩ :=
    consistent.blockLog.index_entry consistent.liveLinked found
  have inside := (List.getElem?_eq_some_iff.1 found).1
  rw [List.length_reverse] at inside
  have heightEq := consistent.height
  have notAbove : ¬ s.AboveTip (blockIndexKey height) := by
    rintro ⟨above, higher, keyEq⟩
    have : (height : Int) = above := RowAddress.blockRow.inj (congrArg Key.address keyEq)
    omega
  have notZero : blockIndexKey height ≠ zeroKey := by simp [blockIndexKey, zeroKey]
  have reports := consistent.getPermissionRow_false notZero notAbove
  rw [newest, ← consistent.getPermissionRow_blockIndex] at reports
  have lastRow : (s.getPermissionRow (blockIndexKey height) true).thisRow =
      minerRow.thisRow + 1 := reports.2.2.trans place
  have minerStored := consistent.stored minerRow minerMem
  have indexStored := consistent.stored indexRow (List.mem_of_find?_eq_some newest)
  have minerPos := consistent.liveLinked.thisRow_pos minerMem
  change 0 < minerRow.thisRow at minerPos
  constructor
  · unfold getBlockMiner
    simp only [lastRow, Nat.add_sub_cancel, minerStored, minerKey]
    rw [if_neg (by omega)]
    rfl
  · intro other
    unfold verifyBlockHash
    simp only [lastRow, ← place, indexStored, indexHash]
    rw [if_neg (by omega), decide_eq_true_iff]
    exact eq_comm

theorem lookup_of_gt (consistent : Consistent s blocks top) {height : Int}
    (above : s.block < height) :
    (s.getBlockMiner height = .error .notFound ∧
        ∀ other, s.verifyBlockHash height other = false) ↔
      s.readRow (blockIndexKey height) = none := by
  have rowEq := consistent.getPermissionRow_blockIndex height
  cases readEq : s.readRow (blockIndexKey height) with
  | none =>
      have lastRow : (s.getPermissionRow (blockIndexKey height) true).thisRow = 0 := by
        rw [rowEq, getPermissionRow, databaseRow_of_absent readEq]
        rfl
      refine ⟨fun _ => rfl, fun _ => ⟨?_, fun other => ?_⟩⟩
      · unfold getBlockMiner
        simp only [lastRow]
        rfl
      · unfold verifyBlockHash
        simp only [lastRow]
        rfl
  | some pdbRow =>
      have atLeast := (consistent.aboveTip height above).2 pdbRow readEq
      have lastRow : (s.getPermissionRow (blockIndexKey height) true).thisRow =
          pdbRow.ledgerRow := by
        rw [rowEq, getPermissionRow,
          databaseRow_of_present consistent.fork readEq (by simp [blockIndexKey])]
        rfl
      constructor
      · rintro ⟨notFound, -⟩
        unfold getBlockMiner at notFound
        simp only [lastRow] at notFound
        rw [if_neg (by omega)] at notFound
        split at notFound
        · split at notFound <;> cases notFound
        · cases notFound
      · intro absurdity
        cases absurdity

end Consistent

end Permissions

namespace PermissionRun

/-- The lookups by height agree with the commits of a run. -/
def IndexAgrees (run : PermissionRun) : Prop :=
  (∀ height, 0 ≤ height → height ≤ run.store.block →
    ∃ block, lastCommit run.commits height = some block ∧
      run.store.getBlockMiner height = .ok block.miner ∧
      ∀ hash, run.store.verifyBlockHash height hash = true ↔ hash = block.hash) ∧
  (∀ height, run.store.block < height →
    run.store.getBlockMiner height = .error .notFound ∧
      ∀ hash, run.store.verifyBlockHash height hash = false)

theorem activeChain_reverse_getElem? (commits : List CommittedBlock) {length height : Nat}
    (below : height < length) :
    (activeChain commits length).reverse[height]? =
      some ((lastCommit commits height).elim (0, 0) fun block => (block.miner, block.hash)) := by
  induction length with
  | zero => omega
  | succ length ih =>
      rw [activeChain, List.reverse_cons]
      by_cases atTop : height = length
      · subst atTop
        rw [List.getElem?_append_right (by simp)]
        simp
      · rw [List.getElem?_append_left (by simp; omega)]
        exact ih (by omega)

/-- The lookups of a sound run agree with its commits unless a height above the
chain other than the first was committed once. -/
theorem Sound.indexAgrees_iff {run : PermissionRun} (sound : Sound run) :
    IndexAgrees run ↔ peak run.commits ≤ max run.store.block 0 := by
  have consistent := sound.consistent
  have low := consistent.block_ge
  have live : ∀ height, 0 ≤ height → height ≤ run.store.block →
      ∃ block, lastCommit run.commits height = some block ∧
        run.store.getBlockMiner height = .ok block.miner ∧
        ∀ hash, run.store.verifyBlockHash height hash = true ↔ hash = block.hash := by
    intro height nonneg inside
    obtain ⟨block, found⟩ := Option.isSome_iff_exists.1
      (sound.committed height nonneg (inside.trans consistent.top_le))
    have place : ((height.toNat : Nat) : Int) = height := by omega
    have below : height.toNat < (run.store.block + 1).toNat := by omega
    have entry := activeChain_reverse_getElem? run.commits below
    rw [place, found] at entry
    have lookup := consistent.lookup_of_le entry
    rw [place] at lookup
    exact ⟨block, found, lookup⟩
  have dead : ∀ height, run.store.block < height →
      ((run.store.getBlockMiner height = .error .notFound ∧
        ∀ hash, run.store.verifyBlockHash height hash = false) ↔
          ¬ (1 ≤ height ∧ height ≤ peak run.commits)) := by
    intro height above
    rw [consistent.lookup_of_gt above, ← (consistent.aboveTip height above).1, not_not]
  constructor
  · rintro ⟨-, aboveEmpty⟩
    by_contra higher
    have above : run.store.block < max run.store.block 0 + 1 := by omega
    have absent := (dead _ above).1 (aboveEmpty _ above)
    omega
  · intro noHigher
    refine ⟨live, fun height above => (dead height above).2 ?_⟩
    omega

/-- In every run, the lookups by height agree with the commits exactly when no
height above both the chain and its first block was ever committed. -/
theorem indexAgrees_iff_peak_le (params : NetworkParams) (calls : List PermissionCall)
    (follows : Follows params Allows start calls) :
    IndexAgrees (start.after params calls) ↔
      peak (start.after params calls).commits ≤
        max (start.after params calls).store.block 0 :=
  (sound_start.after follows).indexAgrees_iff

/-- Two blocks, of which the second is rolled back. -/
def rolledBackBlock : List PermissionCall := [.commit 7 1, .commit 8 2, .rollBack 0]

theorem follows_rolledBackBlock : Follows Permissions.unanimous Allows start rolledBackBlock :=
  ⟨trivial, trivial, ⟨by decide, by decide⟩, trivial⟩

/-- The height that was rolled back still answers, with the block below it. -/
theorem rolledBackBlock_not_indexAgrees :
    ¬ IndexAgrees (start.after Permissions.unanimous rolledBackBlock) := by
  rintro ⟨-, aboveEmpty⟩
  have found : (start.after Permissions.unanimous rolledBackBlock).store.getBlockMiner 1 =
      .ok 7 := rfl
  have notFound := (aboveEmpty 1 (by decide)).1
  rw [found] at notFound
  cases notFound

theorem indexAgrees_iff_peak_le_rolledBackBlock :
    IndexAgrees (start.after Permissions.unanimous rolledBackBlock) ↔
      peak (start.after Permissions.unanimous rolledBackBlock).commits ≤
        max (start.after Permissions.unanimous rolledBackBlock).store.block 0 :=
  indexAgrees_iff_peak_le Permissions.unanimous rolledBackBlock follows_rolledBackBlock

end PermissionRun

end HdacNode
