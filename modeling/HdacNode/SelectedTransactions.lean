import HdacNode.BlockAssembly
import HdacNode.CoinsUndo

/-!
# The transactions of an assembled block

A round of the loop that takes transactions out of the heap drops an entry, lets it wait, or puts
its transaction into the block.  What is in the block and what is left come from the entries of
the pooled transactions, and every transaction in the block passed its checks there.
-/

namespace HdacNode

open AdvancingLoop

section Spending

theorem exists_spendRun {inputs : List CTxIn} {view : CCoinsView}
    (available : ∀ input ∈ inputs,
      (view.coins input.prevout.hash).isAvailable input.prevout.n = true)
    (distinct : (inputs.map CTxIn.prevout).Nodup) :
    ∃ txundo last, SpendRun view inputs txundo last := by
  induction inputs generalizing view with
  | nil => exact ⟨[], view, .nil view⟩
  | cons input inputs ih =>
    rw [List.map_cons, List.nodup_cons] at distinct
    have here := available input List.mem_cons_self
    rw [CCoins.isAvailable, Option.isSome_iff_exists] at here
    obtain ⟨txout, found⟩ := here
    obtain ⟨⟨coins, undo⟩, spends⟩ : ∃ spent,
        (view.coins input.prevout.hash).spend input.prevout.n = some spent := by
      rw [CCoins.spend, found]
      exact ⟨_, rfl⟩
    have step := SpendRun.cons spends (.nil _)
    obtain ⟨txundo, last, rest⟩ := @ih (view.setCoins input.prevout.hash coins)
      (by
        intro other among
        refine (step.isAvailable_iff other.prevout).mpr ⟨available other ?_, ?_⟩
        · exact List.mem_cons_of_mem _ among
        · rw [List.map_cons, List.map_nil, List.mem_singleton]
          intro same
          exact distinct.1 (same ▸ List.mem_map_of_mem among))
      distinct.2
    exact ⟨_, _, .cons spends rest⟩

theorem SpendRun.available {view last : CCoinsView} {inputs : List CTxIn} {txundo : CTxUndo}
    (run : SpendRun view inputs txundo last) :
    (∀ input ∈ inputs, (view.coins input.prevout.hash).isAvailable input.prevout.n = true) ∧
      (inputs.map CTxIn.prevout).Nodup := by
  induction run with
  | nil view => exact ⟨fun _ among => (List.not_mem_nil among).elim, List.nodup_nil⟩
  | @cons view last input inputs coins undo txundo spends rest ih =>
    obtain ⟨txout, found, _⟩ := CCoins.spend_eq_some spends
    have step := SpendRun.cons spends (.nil _)
    refine ⟨fun other among => ?_, ?_⟩
    · rcases List.mem_cons.mp among with rfl | among
      · rw [CCoins.isAvailable, found]
        rfl
      · exact ((step.isAvailable_iff other.prevout).mp (ih.1 other among)).1
    · rw [List.map_cons, List.nodup_cons]
      refine ⟨fun again => ?_, ih.2⟩
      obtain ⟨other, among, same⟩ := List.mem_map.mp again
      have left := ((step.isAvailable_iff other.prevout).mp (ih.1 other among)).2
      exact left (by rw [same]; exact List.mem_cons_self)

theorem SpendRun.foldlM {view last : CCoinsView} {inputs : List CTxIn} {txundo : CTxUndo}
    (run : SpendRun view inputs txundo last) (undos : CTxUndo) :
    inputs.foldlM CCoinsView.spendInput (view, undos) = some (last, undos ++ txundo) := by
  induction run generalizing undos with
  | nil view => rw [List.append_nil]; rfl
  | @cons view last input inputs coins undo txundo spends rest ih =>
    rw [List.foldlM_cons, CCoinsView.spendInput, spends]
    simp only [Option.map_some, Option.bind_eq_bind, Option.bind_some]
    rw [ih, List.append_assoc]
    rfl

/-- The inputs of a transaction spend different outputs. -/
def CTransaction.DistinctInputs (tx : CTransaction) : Prop :=
  (tx.spendingInputs.map CTxIn.prevout).Nodup

namespace CCoinsView

variable {isUnspendable : Bytes → Bool} {view : CCoinsView} {tx : CTransaction} {nHeight : Nat}

theorem exists_updateCoins (has : view.haveInputs tx = true) (distinct : tx.DistinctInputs) :
    ∃ updated, view.updateCoins isUnspendable tx nHeight = some updated := by
  have available : ∀ input ∈ tx.spendingInputs,
      (view.coins input.prevout.hash).isAvailable input.prevout.n = true := by
    intro input among
    refine List.all_eq_true.mp has input ?_
    unfold CTransaction.spendingInputs at among
    split at among
    · exact (List.not_mem_nil among).elim
    · exact among
  obtain ⟨txundo, last, run⟩ := exists_spendRun available distinct
  rw [updateCoins, spendInputs, run.foldlM]
  exact ⟨_, rfl⟩

theorem spendRun_of_updateCoins {updated : CCoinsView × CTxUndo}
    (updates : view.updateCoins isUnspendable tx nHeight = some updated) :
    ∃ txundo last, SpendRun view tx.spendingInputs txundo last ∧
      updated.1 = last.setCoins tx.hash (CCoins.fromTx isUnspendable tx nHeight) := by
  obtain ⟨⟨last, undo⟩, spends, same⟩ := Option.map_eq_some_iff.mp updates
  obtain ⟨txundo, _, run⟩ := SpendRun.of_foldlM spends
  exact ⟨txundo, last, run, by rw [← same]⟩

theorem available_of_updateCoins {updated : CCoinsView × CTxUndo}
    (updates : view.updateCoins isUnspendable tx nHeight = some updated) :
    (∀ input ∈ tx.spendingInputs,
      (view.coins input.prevout.hash).isAvailable input.prevout.n = true) ∧
      tx.DistinctInputs := by
  obtain ⟨txundo, last, run, _⟩ := spendRun_of_updateCoins updates
  exact run.available

theorem haveCoins_iff {hash : Hash} :
    view.haveCoins hash = true ↔ ∃ n, (view.coins hash).isAvailable n = true := by
  rw [haveCoins, Bool.not_eq_true']
  exact CCoins.isPruned_eq_false_iff

/-- The coins behind a transaction are those from before and its own. -/
theorem haveCoins_of_updateCoins {updated : CCoinsView × CTxUndo} {hash : Hash}
    (updates : view.updateCoins isUnspendable tx nHeight = some updated)
    (has : updated.1.haveCoins hash = true) : view.haveCoins hash = true ∨ hash = tx.hash := by
  obtain ⟨txundo, last, run, same⟩ := spendRun_of_updateCoins updates
  by_cases own : hash = tx.hash
  · exact .inr own
  · refine .inl ?_
    rw [haveCoins_iff] at has ⊢
    obtain ⟨n, available⟩ := has
    rw [same, coins_setCoins_of_ne _ _ own] at available
    exact ⟨n, ((run.isAvailable_iff ⟨hash, n⟩).mp available).1⟩

end CCoinsView

end Spending

/-- The entry of an orphan in the heap. -/
def COrphan.entry (orphan : COrphan) : TxPriority :=
  ⟨orphan.dPriority, orphan.tFee, orphan.tx⟩

namespace Orphans

/-- The orphan in a place, if it waits. -/
def waiting (place : Option COrphan) : Option COrphan :=
  place.bind fun orphan => if orphan.setDependsOn = [] then none else some orphan

/-- The entries of the orphans that wait. -/
def pending (orphans : Orphans) : List TxPriority :=
  (orphans.vOrphan.filterMap waiting).map COrphan.entry

/-- All pointers lead to orphans. -/
def WellPointed (orphans : Orphans) : Prop :=
  ∀ entry ∈ orphans.mapDependers, ∃ orphan, orphans.vOrphan[entry.2]? = some (some orphan)

theorem modify_place (before behind : List (Option COrphan)) (place : Option COrphan)
    (change : Option COrphan → Option COrphan) :
    (before ++ place :: behind).modify before.length change = before ++ change place :: behind := by
  induction before with
  | nil => rfl
  | cons first before ih =>
    rw [List.cons_append, List.length_cons, List.modify_succ_cons, ih, List.cons_append]

/-- A new orphan waits. -/
structure Adds (orphans : Orphans) (orphan : COrphan) (after : Orphans) : Prop where
  vOrphan : after.vOrphan = orphans.vOrphan ++ [some orphan]
  waits : orphan.setDependsOn ≠ []
  pointers : ∃ hashes : List Hash, after.mapDependers =
    orphans.mapDependers ++ hashes.map fun hash => (hash, orphans.vOrphan.length)

namespace Adds

variable {orphans after : Orphans} {orphan : COrphan}

theorem pending (adds : Adds orphans orphan after) :
    after.pending = orphans.pending ++ [orphan.entry] := by
  have waits : waiting (some orphan) = some orphan := if_neg adds.waits
  rw [Orphans.pending, adds.vOrphan, List.filterMap_append, List.map_append,
    List.filterMap_cons_some waits]
  rfl

theorem wellPointed (adds : Adds orphans orphan after) (pointed : orphans.WellPointed) :
    after.WellPointed := by
  intro entry among
  obtain ⟨hashes, pointers⟩ := adds.pointers
  rw [pointers, List.mem_append] at among
  rw [adds.vOrphan]
  rcases among with among | among
  · obtain ⟨old, found⟩ := pointed entry among
    refine ⟨old, ?_⟩
    rw [List.getElem?_append_left (List.getElem?_eq_some_iff.mp found).1]
    exact found
  · obtain ⟨hash, _, rfl⟩ := List.mem_map.mp among
    exact ⟨orphan, List.getElem?_concat_length⟩

/-- Changing the new orphan, so that it still waits. -/
theorem modify (adds : Adds orphans orphan after) {change : COrphan → COrphan}
    (waits : (change orphan).setDependsOn ≠ []) :
    Adds orphans (change orphan) (after.modify orphans.vOrphan.length change) := by
  refine ⟨?_, waits, adds.pointers⟩
  change after.vOrphan.modify _ _ = _
  rw [adds.vOrphan, modify_place]
  rfl

/-- Letting the new orphan depend on one more hash. -/
theorem dependOn (adds : Adds orphans orphan after) (hash : Hash) :
    Adds orphans { orphan with setDependsOn := orphan.setDependsOn.insert hash }
      (after.dependOn orphans.vOrphan.length hash) := by
  have waits : orphan.setDependsOn.insert hash ≠ [] :=
    List.ne_nil_of_mem List.mem_insert_self
  obtain ⟨hashes, pointers⟩ := adds.pointers
  have changed := @Adds.modify orphans after orphan adds
    (fun orphan => { orphan with setDependsOn := orphan.setDependsOn.insert hash }) waits
  refine ⟨changed.vOrphan, waits, hashes ++ [hash], ?_⟩
  rw [Orphans.dependOn, pointers, List.map_append, List.append_assoc]
  rfl

end Adds

/-- A new orphan that depends on a hash. -/
theorem adds_create (orphans : Orphans) (tx : CTransaction) (hash : Hash) :
    Adds orphans ⟨tx, [hash], 0, 0⟩
      ((orphans.create tx).dependOn orphans.vOrphan.length hash) := by
  refine ⟨?_, List.cons_ne_nil _ _, [hash], rfl⟩
  change (orphans.vOrphan ++ [some (⟨tx, [], 0, 0⟩ : COrphan)]).modify _ _ = _
  rw [modify_place]
  rfl

end Orphans

namespace MinerParams

variable {params : MinerParams} {pool : CTxMemPool} {deltas : Deltas} {view : CCoinsView}

section Collecting

/-- Every input of a transaction is in the chain or in the pool. -/
def Present (pool : CTxMemPool) (view : CCoinsView) (tx : CTransaction) : Prop :=
  ∀ txin ∈ tx.vin, view.haveCoins txin.prevout.hash = true ∨
    pool.exist txin.prevout.hash = true

variable {setAdded : List Hash} {tx : CTransaction} {vin : List CTxIn}

theorem collectInputs_waiting
    (present : ∀ txin ∈ vin, view.haveCoins txin.prevout.hash = true ∨
      pool.exist txin.prevout.hash = true)
    {orphans before : Orphans} {orphan : COrphan} (adds : Orphans.Adds orphans orphan before) :
    ∃ after last, collectInputs pool view setAdded tx vin before
        (some orphans.vOrphan.length) = (after, some orphans.vOrphan.length, false) ∧
      last.tx = orphan.tx ∧ Orphans.Adds orphans last after := by
  induction vin generalizing before orphan with
  | nil => exact ⟨before, orphan, rfl, rfl, adds⟩
  | cons txin vin ih =>
    have others : ∀ txin ∈ vin, view.haveCoins txin.prevout.hash = true ∨
        pool.exist txin.prevout.hash = true :=
      fun txin among => present txin (List.mem_cons_of_mem _ among)
    rw [collectInputs]
    by_cases has : view.haveCoins txin.prevout.hash = true
    · rw [if_pos has]
      exact ih others adds
    · have pooled := (present txin List.mem_cons_self).resolve_left has
      rw [if_neg has, if_neg (by rw [pooled]; decide)]
      split
      · exact ih others adds
      · simp only [Option.isSome_some, if_true, Option.getD_some]
        obtain ⟨after, last, same, sameTx, lastAdds⟩ :=
          ih others (adds.dependOn txin.prevout.hash)
        exact ⟨after, last, same, sameTx, lastAdds⟩

/-- What the loop over the inputs finds: all of them are ready, or the transaction is an
orphan. -/
inductive InputsFound (view : CCoinsView) (setAdded : List Hash) (tx : CTransaction)
    (vin : List CTxIn) (orphans : Orphans) : Orphans × Option Nat × Bool → Prop
  | ready (all : ∀ txin ∈ vin, view.haveCoins txin.prevout.hash = true ∨
      txin.prevout.hash ∈ setAdded) : InputsFound view setAdded tx vin orphans (orphans, none, false)
  | waits {after : Orphans} {orphan : COrphan} (sameTx : orphan.tx = tx)
      (adds : Orphans.Adds orphans orphan after)
      (one : ∃ txin ∈ vin, view.haveCoins txin.prevout.hash = false ∧
        txin.prevout.hash ∉ setAdded) :
      InputsFound view setAdded tx vin orphans (after, some orphans.vOrphan.length, false)

theorem InputsFound.cons {orphans : Orphans} {result : Orphans × Option Nat × Bool}
    (found : InputsFound view setAdded tx vin orphans result) {txin : CTxIn}
    (ready : view.haveCoins txin.prevout.hash = true ∨ txin.prevout.hash ∈ setAdded) :
    InputsFound view setAdded tx (txin :: vin) orphans result := by
  cases found with
  | ready all =>
    refine .ready fun other among => ?_
    rcases List.mem_cons.mp among with rfl | among
    · exact ready
    · exact all other among
  | waits sameTx adds one =>
    obtain ⟨other, among, notReady⟩ := one
    exact .waits sameTx adds ⟨other, List.mem_cons_of_mem _ among, notReady⟩

theorem collectInputs_found
    (present : ∀ txin ∈ vin, view.haveCoins txin.prevout.hash = true ∨
      pool.exist txin.prevout.hash = true) (orphans : Orphans) :
    InputsFound view setAdded tx vin orphans
      (collectInputs pool view setAdded tx vin orphans none) := by
  induction vin with
  | nil => exact .ready fun _ among => (List.not_mem_nil among).elim
  | cons txin vin ih =>
    have others : ∀ txin ∈ vin, view.haveCoins txin.prevout.hash = true ∨
        pool.exist txin.prevout.hash = true :=
      fun txin among => present txin (List.mem_cons_of_mem _ among)
    rw [collectInputs]
    by_cases has : view.haveCoins txin.prevout.hash = true
    · rw [if_pos has]
      exact (ih others).cons (.inl has)
    · have pooled := (present txin List.mem_cons_self).resolve_left has
      rw [if_neg has, if_neg (by rw [pooled]; decide)]
      by_cases added : txin.prevout.hash ∈ setAdded
      · rw [if_pos added]
        exact (ih others).cons (.inr added)
      · rw [if_neg added]
        simp only [Option.isSome_none, Bool.false_eq_true, if_false, Option.getD_none]
        obtain ⟨after, last, same, sameTx, adds⟩ :=
          @collectInputs_waiting pool view setAdded tx vin others orphans _ _
            (orphans.adds_create tx txin.prevout.hash)
        rw [same]
        exact .waits sameTx adds
          ⟨txin, List.mem_cons_self, eq_false_of_ne_true has, added⟩

/-- The pooled transaction that may be taken for a row of the hash list. -/
def candidate (params : MinerParams) (pool : CTxMemPool) (hash : Hash) : Option CTransaction :=
  (WriteBatch.get pool.mapTx hash).bind fun entry =>
    if params.isTxBanned hash ∨ entry.tx.isCoinBase ∨ ¬ params.isFinalTx entry.tx then none
    else some entry.tx

/-- The pooled transactions that may be taken. -/
def candidates (params : MinerParams) (pool : CTxMemPool) (rows : List Hash) :
    List CTransaction :=
  rows.filterMap (candidate params pool)

/-- What a row of the hash list promises: a pooled transaction that may be taken has that hash,
and its inputs are in the chain or in the pool. -/
def PooledAt (params : MinerParams) (pool : CTxMemPool) (view : CCoinsView) (hash : Hash) : Prop :=
  ∀ tx, candidate params pool hash = some tx → tx.hash = hash ∧ Present pool view tx

/-- What the loop over the hash list has collected of some rows. -/
structure CollectedFrom (params : MinerParams) (pool : CTxMemPool) (deltas : Deltas)
    (rows : List Hash) (collected : Collected) : Prop where
  pointed : collected.orphans.WellPointed
  stock : (collected.vecPriority ++ collected.orphans.pending).Perm
    ((candidates params pool rows).map (entryOf deltas))

theorem candidates_concat (rows : List Hash) (hash : Hash) :
    candidates params pool (rows ++ [hash]) =
      candidates params pool rows ++ (candidate params pool hash).toList := by
  rw [candidates, List.filterMap_append]
  cases found : candidate params pool hash with
  | none => rw [List.filterMap_cons_none found]; rfl
  | some tx => rw [List.filterMap_cons_some found]; rfl

/-- What a round of the loop over the hash list does. -/
theorem collectTx_cases (st : Collected) {hash : Hash} (pooled : PooledAt params pool view hash) :
    (candidate params pool hash = none ∧
        collectTx params pool view deltas st hash = { st with fPreservedMempoolOrder := false }) ∨
      ∃ tx, candidate params pool hash = some tx ∧ tx.hash = hash ∧
        ((collectTx params pool view deltas st hash =
              { st with
                setAdded := hash :: st.setAdded
                vecPriority := st.vecPriority ++ [entryOf deltas tx] } ∧
            ∀ txin ∈ tx.vin, view.haveCoins txin.prevout.hash = true ∨
              txin.prevout.hash ∈ st.setAdded) ∨
          (∃ orphans orphan, collectTx params pool view deltas st hash =
                { st with orphans, fPreservedMempoolOrder := false } ∧
              Orphans.Adds st.orphans orphan orphans ∧ orphan.entry = entryOf deltas tx ∧
              ∃ txin ∈ tx.vin, view.haveCoins txin.prevout.hash = false ∧
                txin.prevout.hash ∉ st.setAdded)) := by
  unfold PooledAt candidate at pooled
  rw [collectTx, candidate]
  cases found : WriteBatch.get pool.mapTx hash with
  | none => exact .inl ⟨rfl, rfl⟩
  | some entry =>
    rw [found] at pooled
    simp only [Option.bind_some] at pooled ⊢
    by_cases excluded : params.isTxBanned hash = true ∨ entry.tx.isCoinBase = true ∨
        ¬ params.isFinalTx entry.tx = true
    · rw [if_pos excluded, if_pos excluded]
      exact .inl ⟨rfl, rfl⟩
    · rw [if_neg excluded] at pooled
      rw [if_neg excluded, if_neg excluded]
      obtain ⟨sameHash, present⟩ := pooled entry.tx rfl
      have inputs := @collectInputs_found pool view st.setAdded entry.tx entry.tx.vin present
        st.orphans
      refine .inr ⟨entry.tx, rfl, sameHash, ?_⟩
      revert inputs
      generalize collectInputs pool view st.setAdded entry.tx entry.tx.vin st.orphans none = result
      intro inputs
      cases inputs with
      | ready all =>
        refine .inl ⟨?_, all⟩
        rw [entryOf, sameHash]
      | @waits after orphan sameTx adds one =>
        have changed := @Orphans.Adds.modify st.orphans after orphan adds
          (fun orphan => { orphan with dPriority := (deltas hash).1, tFee := (deltas hash).2 })
          adds.waits
        refine .inr ⟨_, _, rfl, changed, ?_, one⟩
        rw [COrphan.entry, entryOf, sameHash, sameTx]

theorem collectedFrom {rows : List Hash} (pooled : ∀ hash ∈ rows, PooledAt params pool view hash) :
    CollectedFrom params pool deltas rows (collect params pool view deltas rows) := by
  induction rows using List.reverseRecOn with
  | nil => exact ⟨fun _ among => (List.not_mem_nil among).elim, .refl _⟩
  | append_singleton rows hash ih =>
    have step : collect params pool view deltas (rows ++ [hash]) =
        collectTx params pool view deltas (collect params pool view deltas rows) hash := by
      rw [collect, List.foldl_append]
      rfl
    have more := @candidates_concat params pool rows hash
    have ih := ih fun other among => pooled other (List.mem_append_left _ among)
    rw [step]
    rcases @collectTx_cases params pool deltas view (collect params pool view deltas rows) hash
        (pooled hash (List.mem_append_right _ List.mem_cons_self)) with
      ⟨none_, same⟩ | ⟨tx, some_, sameHash, ⟨same, _⟩ | ⟨orphans, orphan, same, adds, entry, _⟩⟩
    · rw [none_, Option.toList_none, List.append_nil] at more
      rw [same]
      exact ⟨ih.pointed, by rw [more]; exact ih.stock⟩
    · rw [some_, Option.toList_some] at more
      rw [same]
      refine ⟨ih.pointed, ?_⟩
      rw [more, List.map_append]
      dsimp only
      rw [List.append_assoc]
      refine (List.perm_append_comm_assoc _ _ _).trans ?_
      refine (List.perm_append_comm).trans ?_
      exact ih.stock.append_right _
    · rw [some_, Option.toList_some] at more
      rw [same]
      refine ⟨adds.wellPointed ih.pointed, ?_⟩
      rw [more, List.map_append, adds.pending, entry, ← List.append_assoc]
      exact ih.stock.append_right _

end Collecting

section Selecting

variable {queue : PriorityQueue TxPriority TxPriority.less} {st next : Selecting queue}

/-- The entries in the heap and those of the orphans that wait. -/
def Selecting.stock (st : Selecting queue) : List TxPriority :=
  queue.entries st.vecPriority ++ st.orphans.pending

/-- What wakes an orphan keeps everything else. -/
structure Wakes (st next : Selecting queue) : Prop where
  block : next.toBlockSoFar = st.toBlockSoFar
  flag : next.fPreservedMempoolOrder = st.fPreservedMempoolOrder
  pointers : next.orphans.mapDependers = st.orphans.mapDependers
  pointed : next.orphans.WellPointed
  stock : next.stock.Perm st.stock
  heap : queue.entries st.vecPriority ⊆ queue.entries next.vecPriority

theorem pending_modify {orphans : Orphans} {porphan : Nat} {orphan : COrphan}
    (found : orphans.vOrphan[porphan]? = some (some orphan)) (waits : orphan.setDependsOn ≠ [])
    (left : List Hash) :
    (orphans.modify porphan fun orphan => { orphan with setDependsOn := left }).pending.Perm
      (if left = [] then orphans.pending.erase orphan.entry else orphans.pending) ∧
      orphan.entry ∈ orphans.pending := by
  obtain ⟨inside, atPlace⟩ := List.getElem?_eq_some_iff.mp found
  have split : orphans.vOrphan =
      orphans.vOrphan.take porphan ++ some orphan :: orphans.vOrphan.drop (porphan + 1) := by
    rw [← atPlace, ← List.drop_eq_getElem_cons inside, List.take_append_drop]
  have place : (orphans.vOrphan.take porphan).length = porphan :=
    List.length_take_of_le (Nat.le_of_lt inside)
  generalize orphans.vOrphan.take porphan = before at split place
  generalize orphans.vOrphan.drop (porphan + 1) = behind at split
  have isWaiting : Orphans.waiting (some orphan) = some orphan := if_neg waits
  have pendingEq : orphans.pending = (before.filterMap Orphans.waiting).map COrphan.entry ++
      orphan.entry :: (behind.filterMap Orphans.waiting).map COrphan.entry := by
    rw [Orphans.pending, split, List.filterMap_append, List.filterMap_cons_some isWaiting,
      List.map_append, List.map_cons]
  have changed : (orphans.modify porphan fun orphan =>
      { orphan with setDependsOn := left }).vOrphan =
        before ++ some { orphan with setDependsOn := left } :: behind := by
    change orphans.vOrphan.modify porphan _ = _
    rw [split, ← place, Orphans.modify_place]
    rfl
  refine ⟨?_, by rw [pendingEq]; simp⟩
  rw [Orphans.pending, changed, List.filterMap_append]
  by_cases empty : left = []
  · have noneWaits : Orphans.waiting (some { orphan with setDependsOn := left }) = none :=
      if_pos empty
    rw [if_pos empty, List.filterMap_cons_none noneWaits, List.map_append, pendingEq]
    refine List.Perm.symm ?_
    refine (List.perm_middle.erase orphan.entry).trans ?_
    rw [List.erase_cons_head]
  · have stillWaits : Orphans.waiting (some { orphan with setDependsOn := left }) =
        some { orphan with setDependsOn := left } := if_neg empty
    rw [if_neg empty, List.filterMap_cons_some stillWaits, List.map_append, List.map_cons,
      pendingEq]
    rfl

theorem wellPointed_modify {orphans : Orphans} (pointed : orphans.WellPointed) (porphan : Nat)
    (change : COrphan → COrphan) : (orphans.modify porphan change).WellPointed := by
  intro entry among
  obtain ⟨orphan, found⟩ := pointed entry among
  change ∃ orphan, (orphans.vOrphan.modify porphan _)[entry.2]? = _
  by_cases same : porphan = entry.2
  · exact ⟨change orphan, by rw [same, List.getElem?_modify_eq, found]; rfl⟩
  · exact ⟨orphan, by rw [List.getElem?_modify_ne _ _ same, found]⟩

theorem wake_wakes {porphan : Nat} {hash : Hash} (pointed : st.orphans.WellPointed)
    (pointer : (hash, porphan) ∈ st.orphans.mapDependers) :
    ∃ next, wake hash st porphan = some next ∧ Wakes st next := by
  obtain ⟨orphan, found⟩ := pointed _ pointer
  rw [wake, found]
  simp only [Option.join_some]
  by_cases empty : orphan.setDependsOn = []
  · rw [if_pos empty]
    exact ⟨st, rfl, rfl, rfl, rfl, pointed, .refl _, List.Subset.refl _⟩
  · rw [if_neg empty]
    obtain ⟨pending, among⟩ := pending_modify found empty (orphan.setDependsOn.erase hash)
    have stillPointed := wellPointed_modify pointed porphan
      fun orphan' => { orphan' with setDependsOn := orphan.setDependsOn.erase hash }
    by_cases last : orphan.setDependsOn.erase hash = []
    · rw [if_pos last] at pending ⊢
      refine ⟨_, rfl, rfl, rfl, rfl, stillPointed, ?_, ?_⟩
      · change (queue.entries (queue.push st.vecPriority orphan.entry) ++ _).Perm _
        refine ((queue.entries_push _ _).append pending).trans ?_
        rw [List.cons_append]
        refine List.perm_middle.symm.trans ?_
        exact (List.perm_cons_erase among).symm.append_left _
      · intro entry inHeap
        exact (queue.entries_push _ _).symm.subset (List.mem_cons_of_mem _ inHeap)
    · rw [if_neg last] at pending ⊢
      exact ⟨_, rfl, rfl, rfl, rfl, stillPointed, pending.append_left _, List.Subset.refl _⟩

theorem foldlM_wake {porphans : List Nat} {hash : Hash} (pointed : st.orphans.WellPointed)
    (pointers : ∀ porphan ∈ porphans, (hash, porphan) ∈ st.orphans.mapDependers) :
    ∃ next, porphans.foldlM (wake hash) st = some next ∧ Wakes st next := by
  induction porphans generalizing st with
  | nil => exact ⟨st, rfl, rfl, rfl, rfl, pointed, .refl _, List.Subset.refl _⟩
  | cons porphan porphans ih =>
    obtain ⟨woken, wakes, first⟩ := wake_wakes pointed (pointers porphan List.mem_cons_self)
    obtain ⟨next, more, second⟩ := @ih woken first.pointed
      (by
        intro other among
        rw [first.pointers]
        exact pointers other (List.mem_cons_of_mem _ among))
    refine ⟨next, ?_, second.block.trans first.block, second.flag.trans first.flag,
      second.pointers.trans first.pointers, second.pointed, second.stock.trans first.stock,
      fun entry inHeap => second.heap (first.heap inHeap)⟩
    rw [List.foldlM_cons, wakes]
    exact more

/-- Put a transaction into the block if it passes all checks. -/
def admitTx (params : MinerParams) (fPreservedMempoolOrder : Bool) (block : BlockSoFar)
    (tx : CTransaction) : Option BlockSoFar :=
  if params.hasRoom block tx ∧ block.view.haveInputs tx ∧
      params.passesChecks block fPreservedMempoolOrder tx then block.put params tx
  else none

/-- A round of the loop with an entry of the heap: it drops the entry, lets it wait, or puts its
transaction into the block. -/
structure Moves (params : MinerParams) (st : Selecting queue) (entry : TxPriority)
    (next : Selecting queue) : Prop where
  pointed : next.orphans.WellPointed
  flag : next.fPreservedMempoolOrder = true → st.fPreservedMempoolOrder = true
  heap : ∀ other ∈ queue.entries st.vecPriority, other = entry ∨
    other ∈ queue.entries next.vecPriority
  moves : (next.toBlockSoFar = st.toBlockSoFar ∧ (entry :: next.stock).Perm st.stock) ∨
    (next.toBlockSoFar = st.toBlockSoFar ∧ next.stock.Perm st.stock ∧
      (queue.entries next.vecPriority).length < (queue.entries st.vecPriority).length) ∨
    (admitTx params st.fPreservedMempoolOrder st.toBlockSoFar entry.tx = some next.toBlockSoFar ∧
      next.fPreservedMempoolOrder = st.fPreservedMempoolOrder ∧
      (entry :: next.stock).Perm st.stock)

theorem postpone_moves {entry : TxPriority} {vec : queue.Heap}
    (pointed : st.orphans.WellPointed)
    (popped : (queue.entries st.vecPriority).Perm (entry :: queue.entries vec)) :
    Moves params st entry (postpone { st with vecPriority := vec } entry) := by
  have heap : ∀ other ∈ queue.entries st.vecPriority, other = entry ∨
      other ∈ queue.entries vec :=
    fun other among => List.mem_cons.mp (popped.subset among)
  unfold postpone
  split
  · exact ⟨pointed, id, heap, .inl ⟨rfl, popped.symm.append_right _⟩⟩
  · rename_i txin _
    have adds := @Orphans.Adds.modify _ _ _
      (st.orphans.adds_create entry.tx txin.prevout.hash)
      (fun orphan => { orphan with dPriority := entry.dPriority, tFee := entry.tFees })
      (List.cons_ne_nil _ _)
    refine ⟨adds.wellPointed pointed, fun isTrue => (Bool.false_ne_true isTrue).elim, heap,
      .inr (.inl ⟨rfl, ?_, ?_⟩)⟩
    · change (queue.entries vec ++ _).Perm (queue.entries st.vecPriority ++ _)
      rw [adds.pending]
      change (_ ++ (st.orphans.pending ++ [entry])).Perm _
      rw [← List.append_assoc]
      refine List.perm_append_comm.trans ?_
      exact popped.symm.append_right _
    · change (queue.entries vec).length < _
      rw [popped.length_eq]
      exact Nat.lt_succ_self _

/-- What a round of the loop does. -/
theorem selectStep_cases (pointed : st.orphans.WellPointed)
    (distinct : ∀ entry ∈ queue.entries st.vecPriority, entry.tx.DistinctInputs) :
    (queue.pop st.vecPriority = none ∧
        params.selectStep st = .stop (some st.toBlockSoFar)) ∨
      ∃ entry vec next, queue.pop st.vecPriority = some (entry, vec) ∧
        params.selectStep st = .next next ∧ Moves params st entry next ∧
        (admitTx params st.fPreservedMempoolOrder st.toBlockSoFar entry.tx ≠ none →
          admitTx params st.fPreservedMempoolOrder st.toBlockSoFar entry.tx =
              some next.toBlockSoFar ∧
            next.fPreservedMempoolOrder = st.fPreservedMempoolOrder) := by
  unfold selectStep
  cases pops : queue.pop st.vecPriority with
  | none => exact .inl ⟨rfl, rfl⟩
  | some first =>
    obtain ⟨entry, vec⟩ := first
    have popped := queue.entries_of_pop _ _ _ pops
    have heap : ∀ other ∈ queue.entries st.vecPriority, other = entry ∨
        other ∈ queue.entries vec :=
      fun other among => List.mem_cons.mp (popped.subset among)
    dsimp only
    refine .inr ⟨entry, vec, ?_⟩
    cases room : params.hasRoom st.toBlockSoFar entry.tx with
    | false =>
      refine ⟨_, rfl, if_pos rfl, ⟨pointed, id, heap, .inl ⟨rfl, popped.symm.append_right _⟩⟩, ?_⟩
      intro admitted
      exact absurd (if_neg (by rw [room]; simp)) admitted
    | true =>
      rw [if_neg (by decide)]
      cases inputs : st.view.haveInputs entry.tx with
      | false =>
        refine ⟨_, rfl, if_pos rfl, postpone_moves pointed popped, ?_⟩
        intro admitted
        exact absurd (if_neg (by rw [inputs]; simp)) admitted
      | true =>
        rw [if_neg (by decide)]
        cases passes : params.passesChecks st.toBlockSoFar st.fPreservedMempoolOrder entry.tx with
        | false =>
          refine ⟨_, rfl, if_pos rfl,
            ⟨pointed, id, heap, .inl ⟨rfl, popped.symm.append_right _⟩⟩, ?_⟩
          intro admitted
          exact absurd (if_neg (by rw [passes]; simp)) admitted
        | true =>
          rw [if_neg (by decide)]
          have inHeap : entry ∈ queue.entries st.vecPriority :=
            popped.symm.subset List.mem_cons_self
          obtain ⟨updated, updates⟩ := @CCoinsView.exists_updateCoins params.isUnspendable
            st.view entry.tx params.nHeight inputs (distinct entry inHeap)
          obtain ⟨block, put⟩ : ∃ block, st.toBlockSoFar.put params entry.tx = some block := by
            rw [BlockSoFar.put, updates]
            exact ⟨_, rfl⟩
          have admits : admitTx params st.fPreservedMempoolOrder st.toBlockSoFar entry.tx =
              some block := by
            rw [admitTx, if_pos ⟨room, inputs, passes⟩, put]
          rw [put]
          dsimp only
          obtain ⟨next, woken, wakes⟩ := @foldlM_wake queue
            { st with
              toBlockSoFar := block
              vecPriority := vec
              addedBlockTx := entry.tx.hash :: st.addedBlockTx }
            (st.orphans.dependers entry.tx.hash) entry.tx.hash pointed
            (by
              intro porphan among
              obtain ⟨pointer, isOne, same⟩ := List.mem_map.mp among
              obtain ⟨isPointer, sameHash⟩ := List.mem_filter.mp isOne
              have pair : pointer = (entry.tx.hash, porphan) :=
                Prod.ext (of_decide_eq_true sameHash) same
              rwa [pair] at isPointer)
          have sameBlock : next.toBlockSoFar = block := wakes.block
          rw [woken]
          refine ⟨next, rfl, rfl, ⟨wakes.pointed, fun isTrue => wakes.flag ▸ isTrue, ?_, ?_⟩, ?_⟩
          · intro other among
            exact (heap other among).imp id fun left => wakes.heap left
          · refine .inr (.inr ⟨by rw [sameBlock]; exact admits, wakes.flag, ?_⟩)
            refine (List.Perm.cons entry wakes.stock).trans ?_
            exact popped.symm.append_right _
          · exact fun _ => ⟨by rw [sameBlock]; exact admits, wakes.flag⟩

end Selecting

section Runs

variable {queue : PriorityQueue TxPriority TxPriority.less} {st : Selecting queue}
variable {flag : Bool} {cands : List CTransaction}

theorem admit_eq_some {block next : BlockSoFar} {tx : CTransaction}
    (admits : admitTx params flag block tx = some next) :
    (params.hasRoom block tx = true ∧ block.view.haveInputs tx = true ∧
      params.passesChecks block flag tx = true) ∧ block.put params tx = some next := by
  unfold admitTx at admits
  split at admits
  · rename_i passes
    exact ⟨passes, admits⟩
  · cases admits

/-- Without `CheckInputs` more transactions are admitted. -/
theorem admit_mono {later : Bool} (weaker : later = true → flag = true) {block next : BlockSoFar}
    {tx : CTransaction} (admits : admitTx params later block tx = some next) :
    admitTx params flag block tx = some next := by
  obtain ⟨⟨room, inputs, passes⟩, put⟩ := admit_eq_some admits
  have checks : params.passesChecks block flag tx = true := by
    unfold passesChecks at passes ⊢
    rw [decide_eq_true_iff] at passes ⊢
    refine ⟨passes.1, ?_⟩
    rcases passes.2 with kept | checked
    · exact .inl (weaker kept)
    · exact .inr checked
  rw [admitTx, if_pos ⟨room, inputs, checks⟩, put]

theorem vtx_of_put {block next : BlockSoFar} {tx : CTransaction}
    (put : block.put params tx = some next) : next.vtx = block.vtx ++ [tx] := by
  obtain ⟨updated, _, same⟩ := Option.map_eq_some_iff.mp put
  rw [← same]

/-- Transactions can be put into a block in this order: each passes its checks there. -/
def fill (params : MinerParams) (flag : Bool) (view : CCoinsView) (txs : List CTransaction) :
    Option BlockSoFar :=
  txs.foldlM (admitTx params flag) (emptyBlock view)

theorem fill_concat (txs : List CTransaction) (tx : CTransaction) :
    fill params flag view (txs ++ [tx]) =
      (fill params flag view txs).bind fun block => admitTx params flag block tx := by
  rw [fill, fill, List.foldlM_append]
  cases txs.foldlM (admitTx params flag) (emptyBlock view) with
  | none => simp only [Option.bind_eq_bind, Option.bind_none]
  | some block =>
    simp only [List.foldlM_cons, List.foldlM_nil, Option.bind_eq_bind, Option.bind_some,
      Option.pure_def, Option.bind_fun_some]

/-- What holds between two rounds: the block is filled with its transactions, and these and the
entries that are left come from the candidates. -/
structure Holds (params : MinerParams) (deltas : Deltas) (view : CCoinsView) (flag : Bool)
    (cands : List CTransaction) (st : Selecting queue) : Prop where
  pointed : st.orphans.WellPointed
  weaker : st.fPreservedMempoolOrder = true → flag = true
  block : fill params flag view st.vtx = some st.toBlockSoFar
  stock : (st.vtx.map (entryOf deltas) ++ st.stock).Subperm (cands.map (entryOf deltas))

namespace Holds

/-- An entry in the heap belongs to a candidate. -/
theorem entry (holds : Holds params deltas view flag cands st) {entry : TxPriority}
    (inHeap : entry ∈ queue.entries st.vecPriority) :
    entry.tx ∈ cands ∧ entry = entryOf deltas entry.tx := by
  have among : entry ∈ cands.map (entryOf deltas) :=
    holds.stock.subset (List.mem_append_right _ (List.mem_append_left _ inHeap))
  obtain ⟨tx, isCandidate, rfl⟩ := List.mem_map.mp among
  exact ⟨isCandidate, rfl⟩

theorem step (holds : Holds params deltas view flag cands st) {entry : TxPriority}
    (inHeap : entry ∈ queue.entries st.vecPriority) {next : Selecting queue}
    (moved : Moves params st entry next) : Holds params deltas view flag cands next := by
  refine ⟨moved.pointed, fun isTrue => holds.weaker (moved.flag isTrue), ?_, ?_⟩
  · rcases moved.moves with ⟨same, _⟩ | ⟨same, _⟩ | ⟨admits, _⟩
    · rw [same]
      exact holds.block
    · rw [same]
      exact holds.block
    · have grown := vtx_of_put (admit_eq_some admits).2
      rw [grown, fill_concat, holds.block, Option.bind_some]
      exact admit_mono holds.weaker admits
  · rcases moved.moves with ⟨same, left⟩ | ⟨same, kept, _⟩ | ⟨admits, _, left⟩
    · rw [same]
      refine List.Subperm.trans ?_ holds.stock
      refine List.Subperm.trans ?_ (left.append_left _).subperm
      exact ((List.sublist_cons_self _ _).append_left _).subperm
    · rw [same]
      exact ((kept.append_left _).subperm).trans holds.stock
    · have grown := vtx_of_put (admit_eq_some admits).2
      rw [grown, List.map_append, List.append_assoc, List.map_singleton,
        ← (holds.entry inHeap).2]
      exact ((left.append_left _).subperm).trans holds.stock

end Holds

variable {rows : List Hash} (pooled : ∀ hash ∈ rows, PooledAt params pool view hash)

/-- The state before the first round. -/
abbrev startOf (params : MinerParams) (pool : CTxMemPool)
    (queue : PriorityQueue TxPriority TxPriority.less) (view : CCoinsView) (deltas : Deltas)
    (rows : List Hash) : Selecting queue :=
  selectStart queue view (collect params pool view deltas rows)

include pooled in
theorem holds_start :
    Holds params deltas view (collect params pool view deltas rows).fPreservedMempoolOrder
      (candidates params pool rows) (startOf params pool queue view deltas rows) := by
  have collected := @collectedFrom params pool deltas view rows pooled
  refine ⟨collected.pointed, id, rfl, ?_⟩
  refine List.Perm.subperm ?_
  exact ((queue.entries_make _).append_right _).trans collected.stock

variable (distinct : ∀ tx ∈ candidates params pool rows, tx.DistinctInputs)

include pooled distinct in
/-- The invariant holds at the head of the loop. -/
theorem holds_of_reached
    (reached : Reached params.selectStep (startOf params pool queue view deltas rows) st) :
    Holds params deltas view (collect params pool view deltas rows).fPreservedMempoolOrder
      (candidates params pool rows) st := by
  refine reached.induction (holds_start pooled) ?_
  intro state next _ holds stepped
  rcases @selectStep_cases params _ _ holds.pointed
      (fun entry inHeap => distinct _ (holds.entry inHeap).1) with
    ⟨_, stops⟩ | ⟨entry, vec, next', pops, steps, moved, _⟩
  · rw [stops] at stepped
    cases stepped
  · rw [steps] at stepped
    cases stepped
    exact holds.step ((queue.entries_of_pop _ _ _ pops).symm.subset List.mem_cons_self) moved

include pooled distinct in
/-- `CreateNewBlock` returns. -/
theorem createNewBlock_ends :
    Ends params.selectStep (startOf params pool queue view deltas rows) := by
  refine ends_of_wellFounded (InvImage.wf (fun st : Selecting queue =>
    (st.stock.length, (queue.entries st.vecPriority).length))
    (Prod.lex Nat.lt_wfRel Nat.lt_wfRel).wf) ?_
  intro state next reached stepped
  have holds := holds_of_reached pooled distinct reached
  rcases @selectStep_cases params _ _ holds.pointed
      (fun entry inHeap => distinct _ (holds.entry inHeap).1) with
    ⟨_, stops⟩ | ⟨entry, vec, next', pops, steps, moved, _⟩
  · rw [stops] at stepped
    cases stepped
  · rw [steps] at stepped
    cases stepped
    rcases moved.moves with ⟨_, left⟩ | ⟨_, kept, shorter⟩ | ⟨_, _, left⟩
    · exact Prod.Lex.left _ _ (by rw [← left.length_eq]; exact Nat.lt_succ_self _)
    · have sameLength := kept.length_eq
      simp only [InvImage, sameLength]
      exact Prod.Lex.right _ shorter
    · exact Prod.Lex.left _ _ (by rw [← left.length_eq]; exact Nat.lt_succ_self _)

include pooled distinct in
/-- What `CreateNewBlock` returns is a block that was filled with different candidates. -/
theorem filled_of_createNewBlock {fuel : Nat} {result : Option BlockSoFar}
    (found : iterate params.selectStep fuel (startOf params pool queue view deltas rows) =
      some result) :
    ∃ block, result = some block ∧
      fill params (collect params pool view deltas rows).fPreservedMempoolOrder view block.vtx =
        some block ∧
      block.vtx.Subperm (candidates params pool rows) := by
  obtain ⟨last, reached, stops⟩ := exists_stop_of_iterate found
  have holds := holds_of_reached pooled distinct reached
  rcases @selectStep_cases params _ _ holds.pointed
      (fun entry inHeap => distinct _ (holds.entry inHeap).1) with
    ⟨_, ends⟩ | ⟨entry, vec, next, pops, steps, _⟩
  · rw [ends] at stops
    cases stops
    refine ⟨_, rfl, holds.block, ?_⟩
    have part : (last.vtx.map (entryOf deltas)).Subperm
        ((candidates params pool rows).map (entryOf deltas)) :=
      ((List.sublist_append_left _ _).subperm).trans holds.stock
    obtain ⟨list, perm, sublist⟩ := part
    have txs : ((last.vtx.map (entryOf deltas)).map TxPriority.tx).Subperm
        (((candidates params pool rows).map (entryOf deltas)).map TxPriority.tx) :=
      ⟨list.map TxPriority.tx, perm.map _, sublist.map _⟩
    simpa only [List.map_map, entryOf, Function.comp_def, List.map_id'] using txs
  · rw [steps] at stops
    cases stops

end Runs

end MinerParams

end HdacNode
