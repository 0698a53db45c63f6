import HdacNode.AcceptTransaction
import HdacNode.SelectedTransactions

/-!
# The order of the transactions in a block template

`CreateNewBlock` takes the transactions in the order of their fees, as far as it is told who spends
whom.  `ConnectBlock` accepts them one by one, and `AcceptHdacTransaction` may need another order:
a permission has to be granted before it is used.  For all fees the template is valid exactly when
the transactions are accepted in every order that keeps parents in front.
-/

namespace HdacNode

open AdvancingLoop

namespace MinerParams

variable (params : MinerParams) (env : AcceptEnv)

section Connecting

/-- A node between two transactions: its stores, the coins and the transactions so far. -/
structure Connecting where
  node : NodeState
  view : CCoinsView
  txs : List CTransaction

/-- Accept a transaction and update the coins. -/
def acceptNext (offsetOf : List CTransaction → Int) (st : Connecting) (tx : CTransaction) :
    Option Connecting :=
  match acceptHdacTransaction { env with inputs := st.view } st.node tx (offsetOf st.txs) true with
  | .ended none _ _ node =>
    (st.view.updateCoins params.isUnspendable tx params.nHeight).map fun updated =>
      ⟨node, updated.1, st.txs ++ [tx]⟩
  | _ => none

/-- Accept transactions one by one. -/
def acceptInOrder (offsetOf : List CTransaction → Int) (st : Connecting)
    (txs : List CTransaction) : Option Connecting :=
  txs.foldlM (params.acceptNext env offsetOf) st

/-- The offsets in `ConnectBlock`: those of the transactions in the block file. -/
def blockOffset (offset : Int) (txs : List CTransaction) : Int :=
  offset + (txs.map params.txSize).sum

/-- A round of the loop in `ConnectBlock` over a transaction behind the coinbase. -/
def connectTx (offset : Int) (st : Connecting × Nat) (tx : CTransaction) :
    Option (Connecting × Nat) :=
  let nSigOps := st.2 + getLegacySigOpCount tx
  if params.maxBlockSigops < nSigOps then none
  else if st.1.view.haveInputs tx = false then none
  else
    let nSigOps := nSigOps + getP2SHSigOpCount tx st.1.view
    if params.maxBlockSigops < nSigOps then none
    else
      (params.acceptNext { env with replay := false } (params.blockOffset offset) st.1 tx).map
        fun st => (st, nSigOps)

/-- The transactions behind a coinbase with some signature operations are connected, and they
leave room for the coinbase. -/
def Connects (node : NodeState) (view : CCoinsView) (offset : Int) (coinbaseSigOps : Nat)
    (txs : List CTransaction) : Prop :=
  (txs.foldlM (params.connectTx env offset) (⟨node, view, []⟩, coinbaseSigOps)).isSome ∧
    1000 + (txs.map params.txSize).sum ≤ params.nBlockMaxSize

variable {params env} {offsetOf : List CTransaction → Int} {st next : Connecting}
variable {tx : CTransaction} {txs : List CTransaction}

theorem acceptNext_eq_some (accepts : params.acceptNext env offsetOf st tx = some next) :
    ∃ undo, st.view.updateCoins params.isUnspendable tx params.nHeight = some (next.view, undo) := by
  unfold acceptNext at accepts
  split at accepts
  · obtain ⟨updated, updates, same⟩ := Option.map_eq_some_iff.mp accepts
    exact ⟨updated.2, by rw [updates, ← same]⟩
  · cases accepts

theorem acceptInOrder_concat :
    params.acceptInOrder env offsetOf st (txs ++ [tx]) =
      (params.acceptInOrder env offsetOf st txs).bind fun st =>
        params.acceptNext env offsetOf st tx := by
  rw [acceptInOrder, acceptInOrder, List.foldlM_append]
  cases txs.foldlM (params.acceptNext env offsetOf) st with
  | none => simp only [Option.bind_eq_bind, Option.bind_none]
  | some st =>
    simp only [List.foldlM_cons, List.foldlM_nil, Option.bind_eq_bind, Option.bind_some,
      Option.pure_def, Option.bind_fun_some]

/-- The first transactions of an accepted sequence are accepted. -/
theorem acceptInOrder_append {more : List CTransaction}
    (accepts : (params.acceptInOrder env offsetOf st (txs ++ more)).isSome) :
    ∃ next, params.acceptInOrder env offsetOf st txs = some next ∧
      (params.acceptInOrder env offsetOf next more).isSome := by
  rw [acceptInOrder, List.foldlM_append] at accepts
  rw [acceptInOrder]
  cases run : txs.foldlM (params.acceptNext env offsetOf) st with
  | none =>
    rw [run] at accepts
    simp at accepts
  | some next =>
    rw [run] at accepts
    exact ⟨next, rfl, accepts⟩

theorem haveCoins_of_acceptInOrder {hash : Hash}
    (accepts : params.acceptInOrder env offsetOf st txs = some next)
    (has : next.view.haveCoins hash = true) :
    st.view.haveCoins hash = true ∨ ∃ tx ∈ txs, tx.hash = hash := by
  induction txs using List.reverseRecOn generalizing next with
  | nil =>
    cases accepts
    exact .inl has
  | append_singleton txs tx ih =>
    rw [acceptInOrder_concat, Option.bind_eq_some_iff] at accepts
    obtain ⟨before, run, accepted⟩ := accepts
    obtain ⟨undo, updates⟩ := acceptNext_eq_some accepted
    rcases CCoinsView.haveCoins_of_updateCoins updates has with has | rfl
    · rcases ih run has with has | ⟨other, among, same⟩
      · exact .inl has
      · exact .inr ⟨other, List.mem_append_left _ among, same⟩
    · exact .inr ⟨tx, List.mem_append_right _ List.mem_cons_self, rfl⟩

theorem inputs_of_acceptInOrder {before behind : List CTransaction}
    (accepts : (params.acceptInOrder env offsetOf st (before ++ tx :: behind)).isSome) :
    tx.DistinctInputs ∧ ∀ input ∈ tx.spendingInputs,
      st.view.haveCoins input.prevout.hash = true ∨
        ∃ other ∈ before, other.hash = input.prevout.hash := by
  have split : before ++ tx :: behind = (before ++ [tx]) ++ behind := by simp
  rw [split] at accepts
  obtain ⟨_, run, _⟩ := acceptInOrder_append accepts
  rw [acceptInOrder_concat, Option.bind_eq_some_iff] at run
  obtain ⟨middle, run, accepted⟩ := run
  obtain ⟨undo, updates⟩ := acceptNext_eq_some accepted
  obtain ⟨available, distinct⟩ := CCoinsView.available_of_updateCoins updates
  refine ⟨distinct, fun input among => ?_⟩
  have has := CCoinsView.haveCoins_iff.mpr ⟨_, available input among⟩
  exact haveCoins_of_acceptInOrder run has

end Connecting

section Validity

variable {params env} {node : NodeState} {view : CCoinsView} {offset : Int}
variable {coinbaseSigOps : Nat} {flag : Bool} {txs : List CTransaction}

theorem view_of_fill {block : BlockSoFar} {offsetOf : List CTransaction → Int} {next : Connecting}
    (filled : fill params flag view txs = some block)
    (accepts : params.acceptInOrder env offsetOf ⟨node, view, []⟩ txs = some next) :
    next.view = block.view := by
  induction txs using List.reverseRecOn generalizing block next with
  | nil =>
    cases filled
    cases accepts
    rfl
  | append_singleton txs tx ih =>
    rw [fill_concat, Option.bind_eq_some_iff] at filled
    obtain ⟨before, filled, admits⟩ := filled
    rw [acceptInOrder_concat, Option.bind_eq_some_iff] at accepts
    obtain ⟨middle, run, accepted⟩ := accepts
    obtain ⟨undo, updates⟩ := acceptNext_eq_some accepted
    obtain ⟨_, put⟩ := admit_eq_some admits
    obtain ⟨updated, updates', same⟩ := Option.map_eq_some_iff.mp put
    rw [← ih filled run, updates] at updates'
    cases updates'
    rw [← same]

theorem foldlM_connectTx_concat (tx : CTransaction) (st : Connecting × Nat) :
    (txs ++ [tx]).foldlM (params.connectTx env offset) st =
      (txs.foldlM (params.connectTx env offset) st).bind fun st =>
        params.connectTx env offset st tx := by
  rw [List.foldlM_append]
  cases txs.foldlM (params.connectTx env offset) st with
  | none => simp only [Option.bind_eq_bind, Option.bind_none]
  | some st =>
    simp only [List.foldlM_cons, List.foldlM_nil, Option.bind_eq_bind, Option.bind_some,
      Option.pure_def, Option.bind_fun_some]

/-- `ConnectBlock` goes over the transactions of a filled block as far as they are accepted. -/
theorem foldlM_connectTx_of_fill {block : BlockSoFar}
    (filled : fill params flag view txs = some block) (small : coinbaseSigOps ≤ 100) :
    1000 + (txs.map params.txSize).sum = block.nBlockSize ∧
      block.nBlockSize ≤ params.nBlockMaxSize ∧ 100 ≤ block.nBlockSigOps ∧
      txs.foldlM (params.connectTx env offset) (⟨node, view, []⟩, coinbaseSigOps) =
        (params.acceptInOrder { env with replay := false } (params.blockOffset offset)
          ⟨node, view, []⟩ txs).map
            (fun st => (st, coinbaseSigOps + (block.nBlockSigOps - 100))) := by
  induction txs using List.reverseRecOn generalizing block with
  | nil =>
    cases filled
    exact ⟨rfl, Nat.le_max_left _ _, Nat.le_refl _, rfl⟩
  | append_singleton txs tx ih =>
    rw [fill_concat, Option.bind_eq_some_iff] at filled
    obtain ⟨before, filled, admits⟩ := filled
    obtain ⟨size, _, room, same⟩ := ih filled
    obtain ⟨⟨hasRoom, inputs, passes⟩, put⟩ := admit_eq_some admits
    obtain ⟨updated, updates, sameBlock⟩ := Option.map_eq_some_iff.mp put
    unfold MinerParams.hasRoom at hasRoom
    unfold passesChecks at passes
    rw [decide_eq_true_iff] at hasRoom passes
    rw [← sameBlock]
    dsimp only
    have moreSize : ((txs ++ [tx]).map params.txSize).sum =
        (txs.map params.txSize).sum + params.txSize tx := by simp
    refine ⟨by rw [moreSize]; omega, by omega, by omega, ?_⟩
    rw [foldlM_connectTx_concat, same, acceptInOrder_concat]
    cases accepted : params.acceptInOrder { env with replay := false }
        (params.blockOffset offset) ⟨node, view, []⟩ txs with
    | none => rfl
    | some middle =>
      have sameView := view_of_fill filled accepted
      simp only [Option.map_some, Option.bind_some]
      rw [connectTx]
      dsimp only
      have counted : coinbaseSigOps + (before.nBlockSigOps - 100) + getLegacySigOpCount tx +
          getP2SHSigOpCount tx before.view = coinbaseSigOps + (before.nBlockSigOps +
            (getLegacySigOpCount tx + getP2SHSigOpCount tx before.view) - 100) := by omega
      rw [sameView, if_neg (by omega), if_neg (by rw [inputs]; decide), if_neg (by omega), counted]

theorem connects_iff_of_fill {block : BlockSoFar}
    (filled : fill params flag view txs = some block) (small : coinbaseSigOps ≤ 100) :
    params.Connects env node view offset coinbaseSigOps txs ↔
      (params.acceptInOrder { env with replay := false } (params.blockOffset offset)
        ⟨node, view, []⟩ txs).isSome := by
  obtain ⟨size, limit, _, same⟩ := @foldlM_connectTx_of_fill params env node view offset _ _ _ _
    filled small
  rw [Connects, same, Option.isSome_map]
  exact ⟨fun connects => connects.1, fun accepts => ⟨accepts, by omega⟩⟩

end Validity

section AnyOrder

variable {params env} {pool : CTxMemPool} {view : CCoinsView} {deltas other : Deltas}
variable {rows : List Hash}

theorem collect_concat (rows : List Hash) (hash : Hash) :
    collect params pool view deltas (rows ++ [hash]) =
      collectTx params pool view deltas (collect params pool view deltas rows) hash := by
  rw [collect, List.foldl_append]
  rfl

/-- What is ready does not depend on fees. -/
theorem collect_congr (pooled : ∀ hash ∈ rows, PooledAt params pool view hash) :
    (collect params pool view deltas rows).setAdded =
        (collect params pool view other rows).setAdded ∧
      (collect params pool view deltas rows).fPreservedMempoolOrder =
        (collect params pool view other rows).fPreservedMempoolOrder := by
  induction rows using List.reverseRecOn with
  | nil => exact ⟨rfl, rfl⟩
  | append_singleton rows hash ih =>
    obtain ⟨sameAdded, sameFlag⟩ :=
      ih fun hash among => pooled hash (List.mem_append_left _ among)
    have here := pooled hash (List.mem_append_right _ List.mem_cons_self)
    have first := @collectTx_cases params pool deltas view
      (collect params pool view deltas rows) hash here
    have second := @collectTx_cases params pool other view
      (collect params pool view other rows) hash here
    rw [collect_concat, collect_concat]
    rcases first with ⟨none_, same⟩ | ⟨tx, some_, _, first⟩
    · rcases second with ⟨_, same'⟩ | ⟨tx, some_, _⟩
      · rw [same, same']
        exact ⟨sameAdded, rfl⟩
      · rw [none_] at some_
        cases some_
    · rcases second with ⟨none_, _⟩ | ⟨tx', some_', _, second⟩
      · rw [some_] at none_
        cases none_
      · obtain rfl : tx = tx' := Option.some.inj (some_.symm.trans some_')
        rcases first with ⟨same, ready⟩ | ⟨_, _, same, _, _, waits⟩
        · rcases second with ⟨same', _⟩ | ⟨_, _, _, _, _, txin, among, notHave, notAdded⟩
          · rw [same, same']
            exact ⟨by rw [sameAdded], sameFlag⟩
          · rcases ready txin among with has | added
            · rw [has] at notHave
              cases notHave
            · exact absurd (sameAdded ▸ added) notAdded
        · rcases second with ⟨_, ready⟩ | ⟨_, _, same', _⟩
          · obtain ⟨txin, among, notHave, notAdded⟩ := waits
            rcases ready txin among with has | added
            · rw [has] at notHave
              cases notHave
            · exact absurd (sameAdded ▸ added) notAdded
          · rw [same, same']
            exact ⟨sameAdded, rfl⟩

/-- Whether the loop over the hash list leaves nothing out and lets nothing wait. -/
def keepsOrder (params : MinerParams) (pool : CTxMemPool) (view : CCoinsView)
    (rows : List Hash) : Bool :=
  (collect params pool view (fun _ => (0, 0)) rows).fPreservedMempoolOrder

/-- Some of the pooled transactions in an order in which each passes the checks of the miner. -/
structure Arranged (params : MinerParams) (pool : CTxMemPool) (view : CCoinsView)
    (rows : List Hash) (txs : List CTransaction) : Prop where
  nodup : txs.Nodup
  candidates : txs ⊆ candidates params pool rows
  fills : (fill params (keepsOrder params pool view rows) view txs).isSome

/-- The pooled transactions in the order of the hash list. -/
def pooledTxs (pool : CTxMemPool) (rows : List Hash) : List CTransaction :=
  rows.filterMap fun hash => (WriteBatch.get pool.mapTx hash).map CTxMemPoolEntry.tx

theorem pooledTxs_middle {before behind : List Hash} {hash : Hash} {entry : CTxMemPoolEntry}
    (found : WriteBatch.get pool.mapTx hash = some entry) :
    pooledTxs pool (before ++ hash :: behind) =
      pooledTxs pool before ++ entry.tx :: pooledTxs pool behind := by
  simp [pooledTxs, found]

/-- A pool whose transactions are accepted in the order of the hash list, each listed once and
filed under its hash. -/
structure ReplaysOn (params : MinerParams) (env : AcceptEnv) (node : NodeState)
    (view : CCoinsView) (pool : CTxMemPool) (rows : List Hash) : Prop where
  nodup : rows.Nodup
  hash : ∀ hash ∈ rows, ∀ entry, WriteBatch.get pool.mapTx hash = some entry →
    entry.tx.hash = hash
  accepts : (params.acceptInOrder { env with replay := true } (fun _ => -1) ⟨node, view, []⟩
    (pooledTxs pool rows)).isSome

namespace ReplaysOn

variable {node : NodeState}

/-- The inputs of a pooled transaction are in the coins or in rows in front of it. -/
theorem inputs {before behind : List Hash} {hash : Hash}
    (replays : ReplaysOn params env node view pool (before ++ hash :: behind))
    {entry : CTxMemPoolEntry} (found : WriteBatch.get pool.mapTx hash = some entry) :
    entry.tx.DistinctInputs ∧ ∀ input ∈ entry.tx.spendingInputs,
      view.haveCoins input.prevout.hash = true ∨ input.prevout.hash ∈ before ∧
        pool.exist input.prevout.hash = true := by
  have accepts := replays.accepts
  rw [pooledTxs_middle found] at accepts
  obtain ⟨distinct, inputs⟩ := inputs_of_acceptInOrder accepts
  refine ⟨distinct, fun input among => (inputs input among).imp id ?_⟩
  rintro ⟨tx, isBefore, same⟩
  obtain ⟨row, among, isTx⟩ := List.mem_filterMap.mp isBefore
  obtain ⟨parent, isParent, rfl⟩ := Option.map_eq_some_iff.mp isTx
  have sameHash := replays.hash row (List.mem_append_left _ among) parent isParent
  rw [← same, sameHash]
  refine ⟨among, ?_⟩
  rw [CTxMemPool.exist, isParent]
  rfl

/-- A candidate has different inputs, in the coins or in rows in front of it. -/
theorem candidate {before behind : List Hash} {hash : Hash}
    (replays : ReplaysOn params env node view pool (before ++ hash :: behind))
    {tx : CTransaction} (found : MinerParams.candidate params pool hash = some tx) :
    tx.hash = hash ∧ tx.DistinctInputs ∧ ∀ input ∈ tx.vin,
      view.haveCoins input.prevout.hash = true ∨ input.prevout.hash ∈ before ∧
        pool.exist input.prevout.hash = true := by
  unfold MinerParams.candidate at found
  obtain ⟨entry, isEntry, taken⟩ := Option.bind_eq_some_iff.mp found
  split at taken
  · cases taken
  · rename_i allowed
    cases taken
    have notCoinBase : entry.tx.isCoinBase = false :=
      eq_false_of_ne_true fun isCoinBase => allowed (.inr (.inl isCoinBase))
    have spending : entry.tx.spendingInputs = entry.tx.vin := by
      rw [CTransaction.spendingInputs, if_neg (by rw [notCoinBase]; decide)]
    obtain ⟨distinct, inputs⟩ := replays.inputs isEntry
    rw [spending] at inputs
    exact ⟨replays.hash hash (by simp) entry isEntry, distinct, inputs⟩

variable (replays : ReplaysOn params env node view pool rows)

include replays in
theorem pooledAt : ∀ hash ∈ rows, PooledAt params pool view hash := by
  intro hash among tx found
  obtain ⟨before, behind, rfl⟩ := List.append_of_mem among
  obtain ⟨sameHash, _, inputs⟩ := replays.candidate found
  exact ⟨sameHash, fun txin isInput => (inputs txin isInput).imp id And.right⟩

include replays in
theorem distinct : ∀ tx ∈ candidates params pool rows, tx.DistinctInputs := by
  intro tx among
  obtain ⟨hash, isRow, found⟩ := List.mem_filterMap.mp among
  obtain ⟨before, behind, rfl⟩ := List.append_of_mem isRow
  exact (replays.candidate found).2.1

end ReplaysOn

section Realised

variable {node : NodeState} {flag : Bool} {txs : List CTransaction}

theorem fill_append {more : List CTransaction}
    (fills : (fill params flag view (txs ++ more)).isSome) :
    ∃ block, fill params flag view txs = some block := by
  rw [fill, List.foldlM_append] at fills
  rw [fill]
  cases run : txs.foldlM (admitTx params flag) (emptyBlock view) with
  | none =>
    rw [run] at fills
    simp at fills
  | some block => exact ⟨block, rfl⟩

theorem haveCoins_of_fill {block : BlockSoFar} {hash : Hash}
    (filled : fill params flag view txs = some block) (has : block.view.haveCoins hash = true) :
    view.haveCoins hash = true ∨ ∃ tx ∈ txs, tx.hash = hash := by
  induction txs using List.reverseRecOn generalizing block with
  | nil =>
    cases filled
    exact .inl has
  | append_singleton txs tx ih =>
    rw [fill_concat, Option.bind_eq_some_iff] at filled
    obtain ⟨before, filled, admits⟩ := filled
    obtain ⟨updated, updates, same⟩ := Option.map_eq_some_iff.mp (admit_eq_some admits).2
    rw [← same] at has
    rcases CCoinsView.haveCoins_of_updateCoins updates has with has | rfl
    · rcases ih filled has with has | ⟨other, among, sameHash⟩
      · exact .inl has
      · exact .inr ⟨other, List.mem_append_left _ among, sameHash⟩
    · exact .inr ⟨tx, List.mem_append_right _ List.mem_cons_self, rfl⟩

/-- Arranged transactions find their inputs in the coins or among themselves. -/
theorem Arranged.inputs (arranged : Arranged params pool view rows txs) :
    ∀ tx ∈ txs, ∀ input ∈ tx.vin, view.haveCoins input.prevout.hash = true ∨
      ∃ other ∈ txs, other.hash = input.prevout.hash := by
  intro tx among input isInput
  obtain ⟨before, behind, rfl⟩ := List.append_of_mem among
  have fills := arranged.fills
  have split : before ++ tx :: behind = (before ++ [tx]) ++ behind := by simp
  rw [split] at fills
  obtain ⟨_, filled⟩ := fill_append fills
  rw [fill_concat, Option.bind_eq_some_iff] at filled
  obtain ⟨block, filled, admits⟩ := filled
  have inputs := (admit_eq_some admits).1.2.1
  have has := CCoinsView.haveCoins_iff.mpr ⟨_, List.all_eq_true.mp inputs input isInput⟩
  exact (haveCoins_of_fill filled has).imp id fun ⟨other, isBefore, same⟩ =>
    ⟨other, List.mem_append_left _ isBefore, same⟩

variable (replays : ReplaysOn params env node view pool rows)

include replays in
theorem ReplaysOn.candidate_hash {tx : CTransaction} (among : tx ∈ candidates params pool rows) :
    tx.hash ∈ rows ∧ MinerParams.candidate params pool tx.hash = some tx := by
  obtain ⟨hash, isRow, found⟩ := List.mem_filterMap.mp among
  have same := (replays.pooledAt hash isRow tx found).1
  rw [same]
  exact ⟨isRow, found⟩

include replays in
/-- The order of the pool is kept exactly when every row gives a candidate: the inputs of a
candidate are then in the coins or in rows in front of it. -/
theorem ReplaysOn.keepsOrder_iff :
    keepsOrder params pool view rows = true ↔
      ∀ hash ∈ rows, (MinerParams.candidate params pool hash).isSome := by
  have upTo (before behind : List Hash) (split : rows = before ++ behind) :
      (keepsOrder params pool view before = true ↔
          ∀ hash ∈ before, (MinerParams.candidate params pool hash).isSome) ∧
        (keepsOrder params pool view before = true → ∀ hash ∈ before,
          hash ∈ (collect params pool view (fun _ => (0, 0)) before).setAdded) := by
    unfold keepsOrder
    induction before using List.reverseRecOn generalizing behind with
    | nil => exact ⟨iff_of_true rfl (by simp), by simp⟩
    | append_singleton before hash ih =>
      have splitHere : rows = before ++ hash :: behind := by rw [split]; simp
      obtain ⟨kept, added⟩ := ih (hash :: behind) splitHere
      rw [collect_concat, List.forall_mem_append, List.forall_mem_singleton, ← kept]
      rcases @collectTx_cases params pool (fun _ => (0, 0)) view
          (collect params pool view (fun _ => (0, 0)) before) hash
          (replays.pooledAt hash (by rw [splitHere]; simp)) with
        ⟨none_, same⟩ | ⟨tx, some_, _, ⟨same, _⟩ | ⟨_, _, same, _, _, waits⟩⟩
      · rw [same, none_]
        exact ⟨iff_of_false Bool.false_ne_true fun both => Bool.false_ne_true both.2, nofun⟩
      · rw [same, some_]
        refine ⟨(and_iff_left rfl).symm, fun keeps => List.forall_mem_append.mpr ⟨?_, ?_⟩⟩
        · exact fun other among => List.mem_cons_of_mem hash (added keeps other among)
        · exact List.forall_mem_singleton.mpr List.mem_cons_self
      · -- an input that waits is in a row in front, which then gave no candidate
        rw [same]
        refine ⟨iff_of_false Bool.false_ne_true fun both => ?_, nofun⟩
        obtain ⟨txin, among, notHave, notAdded⟩ := waits
        subst splitHere
        rcases (replays.candidate some_).2.2 txin among with has | ⟨isBefore, _⟩
        · rw [notHave] at has
          cases has
        · exact notAdded (added both.1 _ isBefore)
  exact (upTo rows [] (by simp)).1

include replays in
/-- Arranged transactions go into the heap at once. -/
theorem Arranged.ready (arranged : Arranged params pool view rows txs) (deltas : Deltas) :
    ∀ tx ∈ txs, entryOf deltas tx ∈ (collect params pool view deltas rows).vecPriority := by
  have upTo (before behind : List Hash) (split : rows = before ++ behind) :
      ∀ tx ∈ txs, tx.hash ∈ before →
        tx.hash ∈ (collect params pool view deltas before).setAdded ∧
          entryOf deltas tx ∈ (collect params pool view deltas before).vecPriority := by
    induction before using List.reverseRecOn generalizing behind with
    | nil => exact fun _ _ among => (List.not_mem_nil among).elim
    | append_singleton before hash ih =>
      have splitHere : rows = before ++ hash :: behind := by rw [split]; simp
      have earlier := ih (hash :: behind) splitHere
      intro tx isArranged among
      have here : MinerParams.PooledAt params pool view hash :=
        replays.pooledAt hash (by rw [splitHere]; simp)
      have step := @collectTx_cases params pool deltas view
        (collect params pool view deltas before) hash here
      rw [collect_concat]
      rcases List.mem_append.mp among with isBefore | isHere
      · obtain ⟨added, inHeap⟩ := earlier tx isArranged isBefore
        rcases step with ⟨_, same⟩ | ⟨_, _, _, ⟨same, _⟩ | ⟨_, _, same, _⟩⟩
        · rw [same]
          exact ⟨added, inHeap⟩
        · rw [same]
          exact ⟨List.mem_cons_of_mem _ added, List.mem_append_left _ inHeap⟩
        · rw [same]
          exact ⟨added, inHeap⟩
      · have isHash : tx.hash = hash := List.mem_singleton.mp isHere
        have found := (replays.candidate_hash (arranged.candidates isArranged)).2
        rw [isHash] at found
        rcases step with ⟨none_, _⟩ | ⟨tx', some_, _, ⟨same, _⟩ | ⟨_, _, _, _, _, waits⟩⟩
        · rw [none_] at found
          cases found
        · obtain rfl : tx' = tx := Option.some.inj (some_.symm.trans found)
          rw [same, isHash]
          exact ⟨List.mem_cons_self, List.mem_append_right _ List.mem_cons_self⟩
        · obtain rfl : tx' = tx := Option.some.inj (some_.symm.trans found)
          obtain ⟨txin, isInput, notHave, notAdded⟩ := waits
          exfalso
          rw [splitHere] at replays
          have inRows := ((replays.candidate found).2.2 txin isInput).resolve_left
            (by rw [notHave]; decide)
          obtain ⟨other, isOther, sameHash⟩ :=
            (arranged.inputs _ isArranged txin isInput).resolve_left (by rw [notHave]; decide)
          have added := (earlier other isOther (sameHash ▸ inRows.1)).1
          exact notAdded (sameHash ▸ added)
  intro tx among
  have isRow := (replays.candidate_hash (arranged.candidates among)).1
  exact (upTo rows [] (List.append_nil _).symm tx among isRow).2

/-- Fees that fall from the first of some transactions to the last, above those of others. -/
def fallingFees (txs : List CTransaction) : Deltas :=
  fun hash => (0, (txs.length : Int) - (txs.map CTransaction.hash).idxOf hash)

include replays in
theorem candidates_eq_of_hash {tx other : CTransaction}
    (among : tx ∈ candidates params pool rows) (among' : other ∈ candidates params pool rows)
    (same : tx.hash = other.hash) : tx = other := by
  have found := (replays.candidate_hash among).2
  rw [same, (replays.candidate_hash among').2] at found
  exact (Option.some.inj found).symm

theorem candidates_sublist (pooled : ∀ hash ∈ rows, PooledAt params pool view hash) :
    ((candidates params pool rows).map CTransaction.hash).Sublist rows := by
  induction rows with
  | nil => exact List.Sublist.refl _
  | cons hash rows ih =>
    have more := ih fun other among => pooled other (List.mem_cons_of_mem _ among)
    rw [candidates]
    cases found : candidate params pool hash with
    | none =>
      rw [List.filterMap_cons_none found]
      exact more.cons hash
    | some tx =>
      rw [List.filterMap_cons_some found, List.map_cons,
        (pooled hash List.mem_cons_self tx found).1]
      exact more.cons_cons hash

include replays in
theorem candidates_nodup : (candidates params pool rows).Nodup :=
  List.Nodup.of_map _ (replays.nodup.sublist (candidates_sublist replays.pooledAt))

theorem Holds.not_left {queue : PriorityQueue TxPriority TxPriority.less} {st : Selecting queue}
    {cands : List CTransaction} (holds : Holds params deltas view flag cands st)
    (nodup : cands.Nodup) {entry : TxPriority}
    (inHeap : entry ∈ queue.entries st.vecPriority) : entry.tx ∉ st.vtx := by
  intro isIn
  have entriesNodup : (cands.map (entryOf deltas)).Nodup :=
    nodup.map fun first second same => congrArg TxPriority.tx same
  obtain ⟨list, perm, sublist⟩ := holds.stock
  have all : (st.vtx.map (entryOf deltas) ++ st.stock).Nodup :=
    perm.nodup_iff.mp (entriesNodup.sublist sublist)
  have apart := (List.nodup_append.mp all).2.2
  refine apart (entryOf deltas entry.tx) (List.mem_map_of_mem isIn) entry
    (List.mem_append_left _ inHeap) ?_
  exact (holds.entry inHeap).2.symm

variable {queue : PriorityQueue TxPriority TxPriority.less}

include replays in
theorem exists_reached_of_arranged (arranged : Arranged params pool view rows txs)
    {done left : List CTransaction} (split : txs = done ++ left) :
    ∃ st, Reached params.selectStep
        (startOf params pool queue view (fallingFees txs) rows) st ∧
      st.vtx = done ∧ st.fPreservedMempoolOrder = keepsOrder params pool view rows ∧
      ∀ tx ∈ left, entryOf (fallingFees txs) tx ∈ queue.entries st.vecPriority := by
  have sameFlag : (collect params pool view (fallingFees txs) rows).fPreservedMempoolOrder =
      keepsOrder params pool view rows := (collect_congr replays.pooledAt).2
  induction done using List.reverseRecOn generalizing left with
  | nil =>
    refine ⟨_, .refl, rfl, sameFlag, fun tx among => ?_⟩
    refine (queue.entries_make _).symm.subset (arranged.ready replays _ tx ?_)
    rw [split]
    exact among
  | append_singleton done tx ih =>
    have splitHere : txs = done ++ tx :: left := by rw [split]; simp
    obtain ⟨st, reached, vtx, flag, inHeap⟩ := ih splitHere
    have holds := holds_of_reached replays.pooledAt replays.distinct reached
    rw [sameFlag] at holds
    have nodup := candidates_nodup replays
    have isHere : tx ∈ txs := by rw [splitHere]; simp
    have hashes : (txs.map CTransaction.hash).Nodup :=
      arranged.nodup.map_on fun first isFirst second isSecond same =>
        candidates_eq_of_hash replays (arranged.candidates isFirst)
          (arranged.candidates isSecond) same
    have place : (txs.map CTransaction.hash).idxOf tx.hash = done.length := by
      have notBefore : tx.hash ∉ done.map CTransaction.hash := by
        rw [splitHere, List.map_append, List.map_cons] at hashes
        exact fun isBefore => (List.nodup_append.mp hashes).2.2 _ isBefore _
          List.mem_cons_self rfl
      rw [splitHere, List.map_append, List.map_cons, List.idxOf_append_of_notMem notBefore,
        List.idxOf_cons_self, List.length_map, Nat.add_zero]
    rcases @selectStep_cases params queue st holds.pointed
        (fun entry among => replays.distinct _ (holds.entry among).1) with
      ⟨nothing, _⟩ | ⟨entry, vec, next, pops, steps, moved, admits⟩
    · have empty := queue.entries_of_pop_none _ nothing
      have among := inHeap tx List.mem_cons_self
      rw [empty] at among
      exact (List.not_mem_nil among).elim
    · have popped := queue.entries_of_pop _ _ _ pops
      have entryIn : entry ∈ queue.entries st.vecPriority :=
        popped.symm.subset List.mem_cons_self
      obtain ⟨isCandidate, entryEq⟩ := holds.entry entryIn
      have sameTx : entry.tx = tx := by
        by_contra different
        have inRest : entryOf (fallingFees txs) tx ∈ queue.entries vec := by
          refine (List.mem_cons.mp (popped.subset (inHeap tx List.mem_cons_self))).resolve_left ?_
          intro same
          exact different (congrArg TxPriority.tx same).symm
        have notLess := queue.pop_greatest _ _ _ pops _ inRest
        have behind : done.length < (txs.map CTransaction.hash).idxOf entry.tx.hash := by
          by_contra notBehind
          have inside : (txs.map CTransaction.hash).idxOf entry.tx.hash <
              (txs.map CTransaction.hash).length := by
            rw [List.length_map, splitHere, List.length_append, List.length_cons]
            rw [splitHere] at notBehind
            omega
          have isOne := List.idxOf_lt_length_iff.mp inside
          obtain ⟨other, isOther, sameHash⟩ := List.mem_map.mp isOne
          obtain rfl : other = entry.tx := candidates_eq_of_hash replays
            (arranged.candidates isOther) isCandidate sameHash
          rw [splitHere] at isOther
          rcases List.mem_append.mp isOther with isDone | isLeft
          · exact holds.not_left nodup entryIn (by rw [vtx]; exact isDone)
          · rcases List.mem_cons.mp isLeft with same | isLeft
            · exact different same
            · have notDone : entry.tx.hash ∉ (done ++ [tx]).map CTransaction.hash := by
                rw [split, List.map_append] at hashes
                exact fun isBefore => (List.nodup_append.mp hashes).2.2 _ isBefore _
                  (List.mem_map_of_mem isLeft) rfl
              rw [split, List.map_append, List.idxOf_append_of_notMem notDone, List.length_map,
                List.length_append] at notBehind
              simp only [List.length_singleton] at notBehind
              omega
        rw [entryEq, TxPriority.less] at notLess
        simp only [entryOf, fallingFees, place] at notLess
        rw [if_neg (by omega)] at notLess
        exact of_decide_eq_false notLess (by omega)
      obtain ⟨block, filled⟩ : ∃ block,
          fill params (keepsOrder params pool view rows) view (done ++ [tx]) = some block := by
        have fills := arranged.fills
        rw [split] at fills
        exact fill_append fills
      have admitted : admitTx params st.fPreservedMempoolOrder st.toBlockSoFar entry.tx =
          some block := by
        rw [fill_concat, ← vtx, holds.block, Option.bind_some] at filled
        rw [flag, sameTx]
        exact filled
      obtain ⟨nextBlock, nextFlag⟩ := admits (by rw [admitted]; exact Option.some_ne_none _)
      refine ⟨next, reached.tail steps, ?_, nextFlag.trans flag, ?_⟩
      · rw [vtx_of_put (admit_eq_some nextBlock).2, vtx, sameTx]
      · intro other among
        refine (moved.heap _ (inHeap other (List.mem_cons_of_mem _ among))).resolve_left ?_
        intro same
        have isTx : other = tx := (congrArg TxPriority.tx same).trans sameTx
        have apart := arranged.nodup
        rw [splitHere] at apart
        exact (List.nodup_cons.mp (List.nodup_append.mp apart).2.1).1 (isTx ▸ among)

include replays in
theorem vtx_prefix_of_reached {start st : Selecting queue}
    (first : Reached params.selectStep (startOf params pool queue view deltas rows) start)
    (reached : Reached params.selectStep start st) : start.vtx <+: st.vtx := by
  refine reached.induction (motive := fun st => start.vtx <+: st.vtx) (List.prefix_refl _) ?_
  intro state next onWay isPrefix stepped
  have holds := holds_of_reached replays.pooledAt replays.distinct (first.trans onWay)
  rcases @selectStep_cases params queue state holds.pointed
      (fun entry among => replays.distinct _ (holds.entry among).1) with
    ⟨_, stops⟩ | ⟨entry, vec, next', _, steps, moved, _⟩
  · rw [stops] at stepped
    cases stepped
  · rw [steps] at stepped
    cases stepped
    rcases moved.moves with ⟨same, _⟩ | ⟨same, _⟩ | ⟨admits, _⟩
    · rw [same]
      exact isPrefix
    · rw [same]
      exact isPrefix
    · rw [vtx_of_put (admit_eq_some admits).2]
      exact isPrefix.trans (List.prefix_append _ _)

/-- For all fees and priorities `CreateNewBlock` returns transactions that `ConnectBlock` accepts,
exactly when every arrangement of pooled transactions is accepted. -/
theorem templates_connect_iff (replays : ReplaysOn params env node view pool
      pool.defragmentHashList.hashList.rows)
    {coinbaseSigOps : Nat} (small : coinbaseSigOps ≤ 100) (offset : Int) :
    (∀ deltas, ∃ fuel block, params.createNewBlock pool queue view deltas fuel =
        some (some block) ∧
      params.Connects env node view offset coinbaseSigOps block.vtx) ↔
      ∀ txs, Arranged params pool view pool.defragmentHashList.hashList.rows txs →
        (params.acceptInOrder { env with replay := false } (params.blockOffset offset)
          ⟨node, view, []⟩ txs).isSome := by
  have pooled := replays.pooledAt
  constructor
  · intro connects txs arranged
    obtain ⟨fuel, block, found, connected⟩ := connects (fallingFees txs)
    obtain ⟨st, reached, vtx, _⟩ := @exists_reached_of_arranged params env pool view _ node txs
      replays queue arranged txs [] (List.append_nil _).symm
    obtain ⟨more, result, ends⟩ :=
      reached.ends_iff.mp (createNewBlock_ends pooled replays.distinct)
    obtain ⟨more, fromStart⟩ := reached.exists_iterate ends
    obtain rfl := iterate_unique fromStart found
    obtain ⟨last, onWay, stops⟩ := exists_stop_of_iterate ends
    obtain ⟨block', same, filled, _⟩ := filled_of_createNewBlock pooled replays.distinct found
    cases same
    have isPrefix := vtx_prefix_of_reached replays reached onWay
    have lastBlock : last.toBlockSoFar = block := by
      have holds := holds_of_reached pooled replays.distinct (reached.trans onWay)
      rcases @selectStep_cases params queue last holds.pointed
          (fun entry among => replays.distinct _ (holds.entry among).1) with
        ⟨_, ended⟩ | ⟨_, _, _, _, steps, _⟩
      · rw [ended] at stops
        cases stops
        rfl
      · rw [steps] at stops
        cases stops
    have sameVtx : last.vtx = block.vtx := congrArg BlockSoFar.vtx lastBlock
    rw [vtx, sameVtx] at isPrefix
    obtain ⟨behind, split⟩ := isPrefix
    rw [connects_iff_of_fill filled small, ← split] at connected
    obtain ⟨next, run, _⟩ := acceptInOrder_append connected
    rw [run]
    rfl
  · intro accepts deltas
    obtain ⟨fuel, result, found⟩ :=
      @createNewBlock_ends params pool deltas view queue _ pooled replays.distinct
    obtain ⟨block, rfl, filled, part⟩ := filled_of_createNewBlock pooled replays.distinct found
    have sameFlag : (collect params pool view deltas
        pool.defragmentHashList.hashList.rows).fPreservedMempoolOrder =
          keepsOrder params pool view pool.defragmentHashList.hashList.rows :=
      (collect_congr pooled).2
    rw [sameFlag] at filled
    refine ⟨fuel, block, found, (connects_iff_of_fill filled small).mpr (accepts _ ?_)⟩
    obtain ⟨list, perm, sublist⟩ := part
    refine ⟨perm.nodup_iff.mp ((candidates_nodup replays).sublist sublist), ?_, ?_⟩
    · exact fun tx among => sublist.subset (perm.symm.subset among)
    · rw [filled]
      rfl

end Realised

end AnyOrder

section Sample

/-- A right to receive over all blocks. -/
def receiveElement : Bytes :=
  mcDctScriptMultichainIdentifier ++ [mcDctScriptMultichainPermissionsPrefix] ++
    putLE mcPtpReceive 4 ++ putLE 0 4 ++ putLE (2 ^ 32 - 1) 4 ++ putLE 0 4

/-- A network where the right to receive is granted. -/
def receiveEnv : AcceptEnv :=
  { replayEnv with params := { openParams with anyoneCanReceive := false } }

/-- A coin of the admin and one of another address. -/
def twoCoins : CCoinsView where
  coins hash :=
    if hash = 5 then
      ⟨false, ⟨[some ⟨1000, keyHashScript 7 []⟩, some ⟨1000, keyHashScript 8 []⟩], rfl⟩, 0, 1⟩
    else CCoins.clear
  bestBlock := 1
  settled := by
    intro hash
    split
    · exact fun pruned => absurd pruned Bool.false_ne_true
    · exact fun _ => rfl

/-- The admin grants the other address the right to receive, with a fee of 100. -/
def receiveGrant : CTransaction :=
  ⟨9, 1, [⟨⟨5, 0⟩, []⟩], [⟨900, keyHashScript 8 [receiveElement]⟩]⟩

/-- The other address pays to itself, with a fee of 500. -/
def grantedPayment : CTransaction := ⟨10, 1, [⟨⟨5, 1⟩, []⟩], [⟨500, keyHashScript 8 []⟩]⟩

/-- A chain with the default limits. -/
def defaultParams : MinerParams where
  blockMaxSizeArg := 750000
  maxBlockSize := 1000000
  maxBlockSigops := 20000
  coinbaseMaturity := 100
  maxMoney := 2100000000000000
  nHeight := 1
  txSize _ := 200
  isTxBanned _ := false
  isFinalTx _ := true
  isUnspendable script := script.head? = some (UInt8.ofNat mcDctScriptOpReturn)

/-- The grant and the payment were accepted in this order. -/
def grantPool : CTxMemPool :=
  (CTxMemPool.empty.addUnchecked 9 ⟨receiveGrant, 200, 0⟩).addUnchecked 10
    ⟨grantedPayment, 200, 0⟩

/-- The fees of the grant and the payment. -/
def paidFees : Deltas := fun hash => if hash = 10 then (0, 500) else (0, 100)

theorem grantPool_rows : grantPool.defragmentHashList.hashList.rows = [9, 10] := by
  decide +kernel

set_option maxRecDepth 10000 in
theorem replaysOn_grantPool :
    ReplaysOn defaultParams receiveEnv firstBlockState twoCoins grantPool
      grantPool.defragmentHashList.hashList.rows := by
  rw [grantPool_rows]
  refine ⟨by decide, fun hash among entry found => ?_, by decide +kernel⟩
  rcases List.mem_cons.mp among with rfl | among
  · obtain rfl := Option.some.inj found
    rfl
  · obtain rfl := List.mem_singleton.mp among
    obtain rfl := Option.some.inj found
    rfl

theorem templates_connect_iff_grantPool :
    (∀ deltas, ∃ fuel block, defaultParams.createNewBlock grantPool TxPriority.listQueue twoCoins
        deltas fuel = some (some block) ∧
      defaultParams.Connects receiveEnv firstBlockState twoCoins 0 1 block.vtx) ↔
      ∀ txs, Arranged defaultParams grantPool twoCoins
          grantPool.defragmentHashList.hashList.rows txs →
        (defaultParams.acceptInOrder { receiveEnv with replay := false }
          (defaultParams.blockOffset 0) ⟨firstBlockState, twoCoins, []⟩ txs).isSome :=
  templates_connect_iff replaysOn_grantPool (by decide) 0

set_option maxRecDepth 10000 in
theorem createNewBlock_grantPool :
    (defaultParams.createNewBlock grantPool TxPriority.listQueue twoCoins paidFees 5).map
      (Option.map BlockSoFar.vtx) = some (some [grantedPayment, receiveGrant]) := by
  decide +kernel

set_option maxRecDepth 10000 in
theorem not_connects_grantedPayment :
    ¬ defaultParams.Connects receiveEnv firstBlockState twoCoins 0 1
      [grantedPayment, receiveGrant] := by
  intro connects
  have fails : (([grantedPayment, receiveGrant] : List CTransaction).foldlM
      (defaultParams.connectTx receiveEnv 0) (⟨firstBlockState, twoCoins, []⟩, 1)).isSome =
        false := by decide +kernel
  rw [connects.1] at fails
  cases fails

/-- The payment stands in front of the grant that it needs. -/
theorem template_does_not_connect :
    ReplaysOn defaultParams receiveEnv firstBlockState twoCoins grantPool
        grantPool.defragmentHashList.hashList.rows ∧
      ¬ ∃ fuel block, defaultParams.createNewBlock grantPool TxPriority.listQueue twoCoins
          paidFees fuel = some (some block) ∧
        defaultParams.Connects receiveEnv firstBlockState twoCoins 0 1 block.vtx := by
  refine ⟨replaysOn_grantPool, ?_⟩
  rintro ⟨fuel, block, found, connects⟩
  obtain ⟨result, ends, sameVtx⟩ := Option.map_eq_some_iff.mp createNewBlock_grantPool
  obtain rfl := iterate_unique found ends
  have order : block.vtx = [grantedPayment, receiveGrant] := Option.some.inj sameVtx
  rw [order] at connects
  exact not_connects_grantedPayment connects

end Sample

end MinerParams

end HdacNode
