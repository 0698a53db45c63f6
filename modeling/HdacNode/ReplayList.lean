import HdacNode.HashListRows

/-!
# The list in which the memory pool is replayed

`hdacblock.cpp`: `ReplayMemPool` goes over the rows of the hash list and skips those whose
transaction is not pooled.  It needs each pooled transaction in one row, behind the rows of its
pooled parents.
-/

namespace HdacNode

open WriteBatch

namespace CTxMemPool

/-- A hash stands in front of another one. -/
def Precedes (rows : List Hash) (first second : Hash) : Prop :=
  ∃ before behind, rows = before ++ second :: behind ∧ first ∈ before

/-- The list of hashes can be replayed: each pooled transaction has one row, behind those of its
pooled parents.  The freed rows belong to nobody. -/
structure Replayable (pool : CTxMemPool) : Prop where
  once : ∀ hash, pool.exist hash = true → pool.hashList.rows.count hash = 1
  parentsFirst : ∀ hash entry, WriteBatch.get pool.mapTx hash = some entry →
    ∀ input ∈ entry.tx.vin, pool.exist input.prevout.hash = true →
      Precedes pool.hashList.rows input.prevout.hash hash

section Replay

variable (accepts : List Hash → Hash → Bool)

/-- `ReplayMemPool` over rows: `accepts` says whether a transaction is accepted again after the
ones that were processed.  The rejected ones are removed with their descendants. -/
def replayRows : List Hash → List Hash → CTxMemPool → List Hash × CTxMemPool
  | [], processed, pool => (processed, pool)
  | hash :: rows, processed, pool =>
    match WriteBatch.get pool.mapTx hash with
    | none => replayRows rows processed pool
    | some entry =>
      if accepts processed hash then replayRows rows (processed ++ [hash]) pool
      else replayRows rows (processed ++ [hash]) (pool.remove entry.tx [] true).1

/-- `ReplayMemPool`: the transactions that it processes, and the pool that it leaves. -/
def replayMemPool (pool : CTxMemPool) (start : Nat) : List Hash × CTxMemPool :=
  replayRows accepts (pool.hashList.rows.drop start) [] pool

/-- A replay from the first row on processes every pooled transaction once, unless it is removed
before, and parents before their children. -/
structure ReplaysOnce (pool : CTxMemPool) : Prop where
  nodup : (replayMemPool accepts pool 0).1.Nodup
  pooled : ∀ hash ∈ (replayMemPool accepts pool 0).1, pool.exist hash = true
  all : ∀ hash, pool.exist hash = true → hash ∈ (replayMemPool accepts pool 0).1 ∨
    (replayMemPool accepts pool 0).2.exist hash = false
  parentsFirst : ∀ hash entry, WriteBatch.get pool.mapTx hash = some entry →
    ∀ input ∈ entry.tx.vin, hash ∈ (replayMemPool accepts pool 0).1 →
      input.prevout.hash ∈ (replayMemPool accepts pool 0).1 →
      Precedes (replayMemPool accepts pool 0).1 input.prevout.hash hash

end Replay

/-- A pool has no other transactions than a former one, and the same rows. -/
structure Shrinks (before after : CTxMemPool) : Prop where
  hashList : after.hashList = before.hashList
  hashListPos : after.hashListPos = before.hashListPos
  mapTx : ∀ hash entry, WriteBatch.get after.mapTx hash = some entry →
    WriteBatch.get before.mapTx hash = some entry

section Shrinking

variable {pool middle after : CTxMemPool}

theorem Shrinks.refl (pool : CTxMemPool) : Shrinks pool pool :=
  ⟨rfl, rfl, fun _ _ => id⟩

theorem Shrinks.trans (first : Shrinks pool middle) (second : Shrinks middle after) :
    Shrinks pool after where
  hashList := second.hashList.trans first.hashList
  hashListPos := second.hashListPos.trans first.hashListPos
  mapTx := fun hash entry found => first.mapTx hash entry (second.mapTx hash entry found)

theorem Shrinks.exist (shrinks : Shrinks pool after) {hash : Hash}
    (pooled : after.exist hash = true) : pool.exist hash = true := by
  obtain ⟨entry, found⟩ := Option.isSome_iff_exists.mp pooled
  exact Option.isSome_iff_exists.mpr ⟨entry, shrinks.mapTx hash entry found⟩

theorem shrinks_removeEntry (pool : CTxMemPool) (hash : Hash) (entry : CTxMemPoolEntry) :
    Shrinks pool (pool.removeEntry hash entry) where
  hashList := rfl
  hashListPos := rfl
  mapTx := by
    intro other found pooled
    change WriteBatch.get (pool.mapTx.erase hash) other = some found at pooled
    rw [get_erase] at pooled
    split at pooled
    · cases pooled
    · exact pooled

theorem shrinks_removeLoop (fRecursive : Bool) (pool : CTxMemPool) (txToRemove : List Hash)
    (removed : List CTransaction) :
    Shrinks pool (pool.removeLoop fRecursive txToRemove removed).1 := by
  induction pool, txToRemove, removed using CTxMemPool.removeLoop.induct fRecursive with
  | case1 pool removed =>
    rw [removeLoop_nil]
    exact .refl pool
  | case2 pool removed hash txToRemove missing ih =>
    rw [removeLoop_missing _ _ _ missing]
    exact ih
  | case3 pool removed hash txToRemove entry pooled ih =>
    rw [removeLoop_pooled _ _ _ pooled]
    exact (shrinks_removeEntry pool hash entry).trans ih

theorem shrinks_remove (pool : CTxMemPool) (origTx : CTransaction) (removed : List CTransaction)
    (fRecursive : Bool) : Shrinks pool (pool.remove origTx removed fRecursive).1 :=
  shrinks_removeLoop _ _ _ _

theorem shrinks_removeConflicts (pool : CTxMemPool) (tx : CTransaction)
    (removed : List CTransaction) : Shrinks pool (pool.removeConflicts tx removed).1 := by
  have fromState (st : CTxMemPool × List CTransaction) (inputs : List CTxIn) :
      Shrinks st.1 (inputs.foldl (removeConflict tx) st).1 := by
    induction inputs generalizing st with
    | nil => exact .refl st.1
    | cons txin inputs ih =>
      refine Shrinks.trans ?_ (ih (removeConflict tx st txin))
      rw [removeConflict]
      split
      · exact .refl st.1
      · split
        · exact .refl st.1
        · split
          · exact shrinks_remove _ _ _ _
          · exact .refl st.1
  exact fromState (pool, removed) tx.vin

theorem shrinks_removeForBlock (pool : CTxMemPool) (vtx conflicts : List CTransaction) :
    Shrinks pool (pool.removeForBlock vtx conflicts).1 := by
  have fromState (st : CTxMemPool × List CTransaction) (vtx : List CTransaction) :
      Shrinks st.1 (vtx.foldl removeBlockTx st).1 := by
    induction vtx generalizing st with
    | nil => exact .refl st.1
    | cons tx vtx ih =>
      refine Shrinks.trans ?_ (ih (removeBlockTx st tx))
      have conflicting := (shrinks_remove st.1 tx [] false).trans
        (shrinks_removeConflicts (st.1.remove tx [] false).1 tx st.2)
      exact ⟨conflicting.hashList, conflicting.hashListPos, conflicting.mapTx⟩
  exact fromState (pool, conflicts) vtx

theorem Replayable.shrinks (replayable : Replayable pool) (shrinks : Shrinks pool after) :
    Replayable after where
  once := by
    intro hash pooled
    rw [shrinks.hashList]
    exact replayable.once hash (shrinks.exist pooled)
  parentsFirst := by
    intro hash entry pooled input among parentPooled
    rw [shrinks.hashList]
    exact replayable.parentsFirst hash entry (shrinks.mapTx hash entry pooled) input among
      (shrinks.exist parentPooled)

end Shrinking

section Replaying

variable {accepts : List Hash → Hash → Bool}

theorem replayRows_shrinks (rows processed : List Hash) (pool : CTxMemPool) :
    Shrinks pool (replayRows accepts rows processed pool).2 := by
  induction rows generalizing processed pool with
  | nil => exact .refl pool
  | cons hash rows ih =>
    rw [replayRows]
    split
    · exact ih processed pool
    · split
      · exact ih _ pool
      · exact (shrinks_remove pool _ [] true).trans (ih _ _)

/-- A replay processes some of the rows that are pooled, in their order, and those that it does
not process are not pooled in the end. -/
theorem replayRows_sublist (rows processed : List Hash) (pool : CTxMemPool) :
    ∃ others, (replayRows accepts rows processed pool).1 = processed ++ others ∧
      others.Sublist (rows.filter pool.exist) ∧
      ∀ hash ∈ rows, hash ∈ others ∨
        (replayRows accepts rows processed pool).2.exist hash = false := by
  induction rows generalizing processed pool with
  | nil => exact ⟨[], by simp [replayRows], List.Sublist.refl _, by simp⟩
  | cons hash rows ih =>
    rw [replayRows]
    split
    · rename_i missing
      obtain ⟨others, same, sublist, all⟩ := ih processed pool
      refine ⟨others, same, sublist.trans ((List.sublist_cons_self hash rows).filter _), ?_⟩
      intro other among
      rcases List.mem_cons.mp among with rfl | behind
      · refine .inr ?_
        by_contra pooled
        have before := (@replayRows_shrinks accepts rows processed pool).exist
          (Bool.eq_true_of_not_eq_false pooled)
        rw [exist, missing] at before
        cases before
      · exact all other behind
    · rename_i entry found
      have pooled : pool.exist hash = true := by
        rw [exist, found]
        rfl
      have filtered : (hash :: rows).filter pool.exist = hash :: rows.filter pool.exist :=
        List.filter_cons_of_pos pooled
      have next (left : CTxMemPool) (shrinks : Shrinks pool left) :
          ∃ others, (replayRows accepts rows (processed ++ [hash]) left).1 = processed ++ others ∧
            others.Sublist ((hash :: rows).filter pool.exist) ∧
            ∀ other ∈ hash :: rows, other ∈ others ∨
              (replayRows accepts rows (processed ++ [hash]) left).2.exist other = false := by
        obtain ⟨others, same, sublist, all⟩ := ih (processed ++ [hash]) left
        refine ⟨hash :: others, by rw [same]; simp, ?_, ?_⟩
        · rw [filtered]
          refine List.Sublist.cons_cons hash (sublist.trans ?_)
          exact List.monotone_filter_right rows fun other => shrinks.exist
        · intro other among
          rcases List.mem_cons.mp among with rfl | behind
          · exact .inl List.mem_cons_self
          · exact (all other behind).imp_left (List.mem_cons_of_mem hash)
      split
      · exact next pool (.refl pool)
      · exact next _ (shrinks_remove pool entry.tx [] true)

/-- The pooled rows of a list that can be replayed are all different. -/
theorem Replayable.nodup {pool : CTxMemPool} (replayable : Replayable pool) :
    (pool.hashList.rows.filter pool.exist).Nodup := by
  rw [List.nodup_iff_count_le_one]
  intro hash
  by_cases pooled : pool.exist hash = true
  · rw [List.count_filter pooled, replayable.once hash pooled]
  · rw [List.count_eq_zero_of_not_mem]
    · exact Nat.zero_le 1
    · intro among
      exact pooled (List.mem_filter.mp among).2

/-- The order of a list without repetitions is that of its parts. -/
theorem Precedes.sublist {rows part : List Hash} {first second : Hash}
    (precedes : Precedes rows first second) (nodup : rows.Nodup) (sublist : part.Sublist rows)
    (hasFirst : first ∈ part) (hasSecond : second ∈ part) : Precedes part first second := by
  obtain ⟨before, behind, rfl, inFront⟩ := precedes
  obtain ⟨front, back, rfl, frontSublist, backSublist⟩ := List.sublist_append_iff.mp sublist
  rw [List.nodup_append] at nodup
  obtain ⟨_, behindNodup, apart⟩ := nodup
  have firstInFront : first ∈ front := by
    rcases List.mem_append.mp hasFirst with inFront' | inBack
    · exact inFront'
    · exact absurd rfl (apart first inFront first (backSublist.subset inBack))
  have secondInBack : second ∈ back := by
    rcases List.mem_append.mp hasSecond with inFront' | inBack
    · exact absurd rfl (apart second (frontSublist.subset inFront') second List.mem_cons_self)
    · exact inBack
  cases backSublist with
  | cons _ skipped =>
    exact absurd (skipped.subset secondInBack) (List.nodup_cons.mp behindNodup).1
  | cons_cons _ rest => exact ⟨front, _, rfl, firstInFront⟩

theorem Precedes.filter {rows : List Hash} {first second : Hash} {keep : Hash → Bool}
    (precedes : Precedes rows first second) (keepsFirst : keep first = true)
    (keepsSecond : keep second = true) : Precedes (rows.filter keep) first second := by
  obtain ⟨before, behind, rfl, inFront⟩ := precedes
  refine ⟨before.filter keep, behind.filter keep, ?_, List.mem_filter.mpr ⟨inFront, keepsFirst⟩⟩
  rw [List.filter_append, List.filter_cons_of_pos keepsSecond]

theorem Replayable.replaysOnce {pool : CTxMemPool} (replayable : Replayable pool)
    (accepts : List Hash → Hash → Bool) : ReplaysOnce accepts pool := by
  obtain ⟨others, same, sublist, all⟩ :=
    @replayRows_sublist accepts pool.hashList.rows [] pool
  have processed : (replayMemPool accepts pool 0).1 = others := same
  refine ⟨?_, ?_, ?_, ?_⟩
  · rw [processed]
    exact replayable.nodup.sublist sublist
  · rw [processed]
    intro hash among
    exact (List.mem_filter.mp (sublist.subset among)).2
  · rw [processed]
    intro hash pooled
    refine all hash (List.count_pos_iff.mp ?_)
    rw [replayable.once hash pooled]
    exact Nat.one_pos
  · rw [processed]
    intro hash entry pooled input among hasChild hasParent
    have parentPooled := (List.mem_filter.mp (sublist.subset hasParent)).2
    have childPooled := (List.mem_filter.mp (sublist.subset hasChild)).2
    have precedes := replayable.parentsFirst hash entry pooled input among parentPooled
    exact (precedes.filter parentPooled childPooled).sublist replayable.nodup sublist hasParent
      hasChild

end Replaying

section Steps

variable {pool after : CTxMemPool}

theorem precedes_filter_iff {rows : List Hash} {first second : Hash} {keep : Hash → Bool}
    (keepsFirst : keep first = true) (keepsSecond : keep second = true) :
    Precedes (rows.filter keep) first second ↔ Precedes rows first second := by
  constructor
  · rintro ⟨before, behind, split, inFront⟩
    obtain ⟨front, back, rfl, frontKept, backKept⟩ := List.filter_eq_append_iff.mp split
    obtain ⟨skipped, rest, rfl, _, _, _⟩ := List.filter_eq_cons_iff.mp backKept
    refine ⟨front ++ skipped, rest, by rw [List.append_assoc], List.mem_append_left skipped ?_⟩
    rw [← frontKept] at inFront
    exact (List.mem_filter.mp inFront).1
  · exact fun precedes => precedes.filter keepsFirst keepsSecond

/-- Only the rows of pooled transactions matter. -/
theorem Replayable.congr (replayable : Replayable pool) (sameTx : after.mapTx = pool.mapTx)
    (sameRows : after.hashList.rows.filter pool.exist = pool.hashList.rows.filter pool.exist) :
    Replayable after := by
  have sameExist : after.exist = pool.exist := by
    ext hash : 1
    rw [exist, exist, sameTx]
  constructor
  · intro hash pooled
    rw [sameExist] at pooled
    rw [← List.count_filter pooled, sameRows, List.count_filter pooled]
    exact replayable.once hash pooled
  · intro hash entry found input among parentPooled
    rw [sameExist] at parentPooled
    rw [sameTx] at found
    have pooled : pool.exist hash = true := by
      rw [exist, found]
      rfl
    rw [← precedes_filter_iff parentPooled pooled, sameRows,
      precedes_filter_iff parentPooled pooled]
    exact replayable.parentsFirst hash entry found input among parentPooled

theorem Replayable.defragment (replayable : Replayable pool) :
    Replayable pool.defragmentHashList := by
  refine replayable.congr rfl ?_
  rw [rows_defragmentHashList, List.filter_filter]
  simp

theorem Replayable.exist_of_empty (replayable : Replayable pool)
    (empty : pool.hashList.rows = []) (hash : Hash) : pool.exist hash = false := by
  by_contra pooled
  have once := replayable.once hash (Bool.eq_true_of_not_eq_false pooled)
  rw [empty] at once
  cases once

theorem Replayable.shift (replayable : Replayable pool) (notNull : pool.exist 0 = false)
    (rows : Nat) : Replayable (pool.shiftHashList rows) := by
  refine replayable.congr rfl ?_
  have freed : (pool.freedRows rows).filter pool.exist = [] := by
    rw [List.filter_eq_nil_iff]
    intro hash among
    rw [freedRows] at among
    split at among
    · rw [(List.mem_replicate.mp among).2, notNull]
      exact Bool.false_ne_true
    · rename_i noRows
      have empty : pool.hashList.rows = [] :=
        List.eq_nil_of_length_eq_zero (by rw [RowBuffer.rows_length]; omega)
      rw [replayable.exist_of_empty empty]
      exact Bool.false_ne_true
  rw [rows_shiftHashList, List.filter_append, freed, List.nil_append]

theorem replayable_of_nobody (nobody : pool.mapTx = ∅) : Replayable pool where
  once := by
    intro hash pooled
    rw [exist, nobody, get_empty] at pooled
    cases pooled
  parentsFirst := by
    intro hash entry found
    rw [nobody, get_empty] at found
    cases found

/-- The row of the next transaction. -/
def slot (pool : CTxMemPool) : Nat :=
  if pool.hashListPos < pool.hashList.count then pool.hashListPos else pool.hashList.count

/-- A new transaction fits into the list: no other live row has its hash, its row belongs to
nobody and lies behind those of its pooled parents and in front of those of its children. -/
structure Fits (pool : CTxMemPool) (hash : Hash) (entry : CTxMemPoolEntry) : Prop where
  notNull : hash ≠ 0
  fresh : WriteBatch.get pool.mapTx hash = none
  onlyThere : ∀ row, pool.hashList.rows[row]? = some hash → row = pool.slot
  free : ∀ old, pool.hashList.rows[pool.slot]? = some old → pool.exist old = false
  notOwnParent : ∀ input ∈ entry.tx.vin, input.prevout.hash ≠ hash
  parents : ∀ input ∈ entry.tx.vin, pool.exist input.prevout.hash = true →
    input.prevout.hash ∈ pool.hashList.rows.take pool.slot
  children : ∀ child childEntry, WriteBatch.get pool.mapTx child = some childEntry →
    ∀ input ∈ childEntry.tx.vin, input.prevout.hash = hash →
      child ∉ pool.hashList.rows.take pool.slot

/-- Behind `defragmentHashList` the list has neither dead nor freed rows, and a new transaction
fits if no pooled one spends it. -/
theorem Replayable.fits_defragment (replayable : Replayable pool) {hash : Hash}
    {entry : CTxMemPoolEntry} (notNull : hash ≠ 0) (fresh : WriteBatch.get pool.mapTx hash = none)
    (notOwnParent : ∀ input ∈ entry.tx.vin, input.prevout.hash ≠ hash)
    (childless : ∀ child childEntry, WriteBatch.get pool.mapTx child = some childEntry →
      ∀ input ∈ childEntry.tx.vin, input.prevout.hash ≠ hash) :
    Fits pool.defragmentHashList hash entry := by
  have behind : pool.defragmentHashList.slot =
      pool.defragmentHashList.hashList.rows.length := by
    have sameCount : pool.defragmentHashList.hashList.count =
        pool.defragmentHashList.hashListPos := RowBuffer.count_setCount ..
    rw [RowBuffer.rows_length, slot, sameCount, if_neg (Nat.lt_irrefl _)]
  refine ⟨notNull, fresh, ?_, ?_, notOwnParent, ?_, ?_⟩
  · intro row found
    have among := List.mem_of_getElem? found
    rw [rows_defragmentHashList, List.mem_filter, exist, fresh] at among
    cases among.2
  · intro old found
    rw [behind, List.getElem?_eq_none le_rfl] at found
    cases found
  · intro input _ pooled
    rw [behind, List.take_length, ← List.count_pos_iff, replayable.defragment.once _ pooled]
    exact Nat.one_pos
  · exact fun child childEntry found input among same =>
      absurd same (childless child childEntry found input among)

theorem rows_addUnchecked (pool : CTxMemPool) (hash : Hash) (entry : CTxMemPoolEntry) :
    (pool.addUnchecked hash entry).hashList.rows =
      pool.hashList.rows.take pool.slot ++ hash :: pool.hashList.rows.drop (pool.slot + 1) := by
  have length := RowBuffer.rows_length pool.hashList
  by_cases free : pool.hashListPos < pool.hashList.count
  · have added : (pool.addUnchecked hash entry).hashList =
        pool.hashList.putRow id pool.hashListPos hash := by
      rw [addUnchecked, addHash, if_pos (by exact free)]
    rw [added, RowBuffer.rows_putRow free, slot, if_pos free, List.set_eq_take_append_cons_drop,
      if_pos (by omega)]
  · have added : (pool.addUnchecked hash entry).hashList = pool.hashList.add id hash := by
      rw [addUnchecked, addHash, if_neg (by exact free)]
    rw [added, RowBuffer.rows_add, slot, if_neg free, List.take_of_length_le (by omega),
      List.drop_of_length_le (by omega)]

/-- A transaction that fits can be added. -/
theorem Replayable.add (replayable : Replayable pool) {hash : Hash} {entry : CTxMemPoolEntry}
    (fits : Fits pool hash entry) : Replayable (pool.addUnchecked hash entry) := by
  have notPooled : pool.exist hash = false := by
    rw [exist, fits.fresh]
    rfl
  have found (other : Hash) : WriteBatch.get (pool.addUnchecked hash entry).mapTx other =
      if other = hash then some entry else WriteBatch.get pool.mapTx other := by
    have added : (pool.addUnchecked hash entry).mapTx = pool.mapTx.insert hash entry := by
      rw [addUnchecked, addHash]
      split <;> rfl
    rw [added]
    exact get_insert _ _ _ _
  have wasPooled {other : Hash} (pooled : (pool.addUnchecked hash entry).exist other = true)
      (differs : other ≠ hash) : pool.exist other = true := by
    rw [exist, found, if_neg differs] at pooled
    exact pooled
  have rows := rows_addUnchecked pool hash entry
  -- the row that is overwritten belongs to nobody
  have sameRows : (pool.addUnchecked hash entry).hashList.rows.filter pool.exist =
      pool.hashList.rows.filter pool.exist := by
    rw [rows, List.filter_append, List.filter_cons_of_neg (by rw [notPooled]; decide)]
    conv_rhs => rw [← List.take_append_drop pool.slot pool.hashList.rows, List.filter_append]
    congr 1
    by_cases inside : pool.slot < pool.hashList.rows.length
    · rw [List.drop_eq_getElem_cons inside, List.filter_cons_of_neg]
      rw [fits.free _ (List.getElem?_eq_getElem inside)]
      decide
    · rw [List.drop_of_length_le (by omega), List.drop_of_length_le (by omega)]
  have notInFront : hash ∉ pool.hashList.rows.take pool.slot := by
    intro among
    obtain ⟨row, inside, at_⟩ := List.mem_iff_getElem.mp among
    rw [List.length_take] at inside
    rw [List.getElem_take] at at_
    have there := fits.onlyThere row (by rw [List.getElem?_eq_getElem (by omega), at_])
    omega
  have notBehind : hash ∉ pool.hashList.rows.drop (pool.slot + 1) := by
    intro among
    obtain ⟨row, inside, at_⟩ := List.mem_iff_getElem.mp among
    rw [List.length_drop] at inside
    rw [List.getElem_drop] at at_
    have there := fits.onlyThere (pool.slot + 1 + row)
      (by rw [List.getElem?_eq_getElem (by omega), at_])
    omega
  constructor
  · intro other pooled
    by_cases same : other = hash
    · rw [same, rows, List.count_append, List.count_cons_self,
        List.count_eq_zero_of_not_mem notInFront, List.count_eq_zero_of_not_mem notBehind]
    · have before := wasPooled pooled same
      rw [← List.count_filter before, sameRows, List.count_filter before]
      exact replayable.once other before
  · intro child childEntry childFound input among parentPooled
    by_cases isChild : child = hash
    · rw [isChild, found, if_pos rfl] at childFound
      cases childFound
      have parentBefore := wasPooled parentPooled (fits.notOwnParent input among)
      rw [isChild, rows]
      exact ⟨_, _, rfl, fits.parents input among parentBefore⟩
    · rw [found, if_neg isChild] at childFound
      have childBefore : pool.exist child = true := by
        rw [exist, childFound]
        rfl
      by_cases isParent : input.prevout.hash = hash
      · have inRows : child ∈ (pool.addUnchecked hash entry).hashList.rows := by
          refine List.mem_of_mem_filter (p := pool.exist) ?_
          rw [sameRows, List.mem_filter]
          refine ⟨List.count_pos_iff.mp ?_, childBefore⟩
          rw [replayable.once child childBefore]
          exact Nat.one_pos
        rw [rows, List.mem_append, List.mem_cons] at inRows
        rcases inRows with inFront | same | behind
        · exact absurd inFront (fits.children child childEntry childFound input among isParent)
        · exact absurd same isChild
        · obtain ⟨first, second, split⟩ := List.append_of_mem behind
          refine ⟨pool.hashList.rows.take pool.slot ++ hash :: first, second, ?_, ?_⟩
          · rw [rows, split]
            simp
          · rw [isParent]
            simp
      · have parentBefore := wasPooled parentPooled isParent
        rw [← precedes_filter_iff parentBefore childBefore, sameRows,
          precedes_filter_iff parentBefore childBefore]
        exact replayable.parentsFirst child childEntry childFound input among parentBefore

end Steps

section Runs

/-- The operations that change the pooled transactions or the list of hashes. -/
inductive ReplayOp where
  | addUnchecked (hash : Hash) (entry : CTxMemPoolEntry)
  | remove (origTx : CTransaction) (fRecursive : Bool)
  | removeConflicts (tx : CTransaction)
  | removeForBlock (vtx : List CTransaction)
  | defragmentHashList
  | shiftHashList (rows : Nat)
  | clear

/-- The pool after an operation. -/
def ReplayOp.apply : ReplayOp → CTxMemPool → CTxMemPool
  | addUnchecked hash entry, pool => pool.addUnchecked hash entry
  | remove origTx fRecursive, pool => (pool.remove origTx [] fRecursive).1
  | removeConflicts tx, pool => (pool.removeConflicts tx []).1
  | removeForBlock vtx, pool => (pool.removeForBlock vtx []).1
  | defragmentHashList, pool => pool.defragmentHashList
  | shiftHashList rows, pool => pool.shiftHashList rows
  | clear, pool => pool.clear

/-- The pool after a run of operations. -/
def runReplayOps (pool : CTxMemPool) (ops : List ReplayOp) : CTxMemPool :=
  ops.foldl (fun pool op => op.apply pool) pool

/-- Every transaction that a run adds fits into the list. -/
def FittingRun : CTxMemPool → List ReplayOp → Prop
  | _, [] => True
  | pool, op :: ops =>
    (∀ hash entry, op = .addUnchecked hash entry → Fits pool hash entry) ∧
      FittingRun (op.apply pool) ops

/-- An operation keeps a list that can be replayed. -/
theorem Replayable.step {pool : CTxMemPool} (replayable : Replayable pool)
    (notNull : pool.exist 0 = false) {op : ReplayOp}
    (fits : ∀ hash entry, op = .addUnchecked hash entry → Fits pool hash entry) :
    Replayable (op.apply pool) ∧ (op.apply pool).exist 0 = false := by
  have shrunk {after : CTxMemPool} (shrinks : Shrinks pool after) :
      Replayable after ∧ after.exist 0 = false := by
    refine ⟨replayable.shrinks shrinks, ?_⟩
    by_contra pooled
    have before := shrinks.exist (Bool.eq_true_of_not_eq_false pooled)
    rw [notNull] at before
    cases before
  cases op with
  | addUnchecked hash entry =>
    have fitsHere := fits hash entry rfl
    refine ⟨replayable.add fitsHere, ?_⟩
    have added : (pool.addUnchecked hash entry).mapTx = pool.mapTx.insert hash entry := by
      rw [CTxMemPool.addUnchecked, addHash]
      split <;> rfl
    change (WriteBatch.get (pool.addUnchecked hash entry).mapTx 0).isSome = false
    rw [added, get_insert, if_neg fitsHere.notNull.symm]
    exact notNull
  | remove origTx fRecursive => exact shrunk (shrinks_remove pool origTx [] fRecursive)
  | removeConflicts tx => exact shrunk (shrinks_removeConflicts pool tx [])
  | removeForBlock vtx => exact shrunk (shrinks_removeForBlock pool vtx [])
  | defragmentHashList => exact ⟨replayable.defragment, notNull⟩
  | shiftHashList rows => exact ⟨replayable.shift notNull rows, notNull⟩
  | clear => exact ⟨replayable_of_nobody rfl, rfl⟩

/-- After every run that adds only transactions that fit, the list can be replayed, and each
replay processes every pooled transaction once, parents first. -/
theorem replayable_of_fittingRun {ops : List ReplayOp} (fitting : FittingRun .empty ops) :
    Replayable (runReplayOps .empty ops) ∧
      ∀ accepts, ReplaysOnce accepts (runReplayOps .empty ops) := by
  have fromPool (pool : CTxMemPool) (ops : List ReplayOp) (fitting : FittingRun pool ops)
      (replayable : Replayable pool) (notNull : pool.exist 0 = false) :
      Replayable (runReplayOps pool ops) := by
    induction ops generalizing pool with
    | nil => exact replayable
    | cons op ops ih =>
      obtain ⟨stepped, stillNotNull⟩ := replayable.step notNull fitting.1
      exact ih (op.apply pool) fitting.2 stepped stillNotNull
  have replayable := fromPool .empty ops fitting (replayable_of_nobody rfl) rfl
  exact ⟨replayable, replayable.replaysOnce⟩

/-- A payment, and one that spends it. -/
def parentPayment : CTxMemPoolEntry := ⟨⟨1, 1, [⟨⟨9, 0⟩, []⟩], [⟨5, []⟩]⟩, 100, 50⟩

def childPayment : CTxMemPoolEntry := ⟨⟨2, 1, [⟨⟨1, 0⟩, []⟩], [⟨4, []⟩]⟩, 100, 60⟩

/-- The parent is added to a row that was freed in front of its child. -/
theorem replayable_resurrected :
    Replayable (runReplayOps .empty [.addUnchecked 2 childPayment, .shiftHashList 2,
      .addUnchecked 1 parentPayment, .defragmentHashList]) ∧
      ∀ accepts, ReplaysOnce accepts (runReplayOps .empty [.addUnchecked 2 childPayment,
        .shiftHashList 2, .addUnchecked 1 parentPayment, .defragmentHashList]) := by
  refine replayable_of_fittingRun ⟨?_, ?_, ?_, ?_, trivial⟩
  · rintro hash entry ⟨⟩
    refine ⟨by decide, rfl, ?_, ?_, ?_, ?_, ?_⟩
    · rintro row ⟨⟩
    · rintro old ⟨⟩
    · decide
    · decide +kernel
    · intro child childEntry pooled
      cases pooled
  · rintro hash entry ⟨⟩
  · rintro hash entry ⟨⟩
    refine ⟨by decide, by decide +kernel, ?_, ?_, ?_, ?_, ?_⟩
    · intro row there
      exact absurd (List.mem_of_getElem? there) (by decide +kernel)
    · intro old there
      have zero : ((empty.addUnchecked 2 childPayment).shiftHashList 2).hashList.rows[0]? =
          some 0 := by decide +kernel
      rw [show old = 0 from Option.some.inj (there.symm.trans zero)]
      decide +kernel
    · decide
    · decide +kernel
    · intro child childEntry _ input _ _ among
      exact absurd (List.length_pos_of_mem among) (by decide +kernel)
  · rintro hash entry ⟨⟩

/-- A transaction that is removed and added again has two rows. -/
theorem readded_not_replayable :
    ¬ ∀ ops, Replayable (runReplayOps .empty ops) ∧
      ∀ accepts, ReplaysOnce accepts (runReplayOps .empty ops) := by
  intro always
  have replayable := (always [.addUnchecked 1 parentPayment, .remove parentPayment.tx false,
    .addUnchecked 1 parentPayment]).1
  have removed : ((empty.addUnchecked 1 parentPayment).remove parentPayment.tx [] false).1 =
      (empty.addUnchecked 1 parentPayment).removeEntry 1 parentPayment := by
    have pooled : WriteBatch.get (empty.addUnchecked 1 parentPayment).mapTx 1 =
        some parentPayment := by decide +kernel
    change ((empty.addUnchecked 1 parentPayment).removeLoop false [1] []).1 = _
    rw [removeLoop_pooled false [] [] pooled]
    exact congrArg Prod.fst (removeLoop_nil false _ _)
  have once := replayable.once 1
  change (((empty.addUnchecked 1 parentPayment).remove parentPayment.tx [] false).1.addUnchecked 1
      parentPayment).exist 1 = true →
    (((empty.addUnchecked 1 parentPayment).remove parentPayment.tx [] false).1.addUnchecked 1
      parentPayment).hashList.rows.count 1 = 1 at once
  rw [removed] at once
  exact absurd (once (by decide +kernel)) (by decide +kernel)

end Runs

end CTxMemPool

end HdacNode
