import HdacNode.BlockMarks

/-!
# Disconnecting a block gives its coins back

Adding the outputs of a transaction is undone by clearing its coins, which loses the
outputs that were held under the same id before.  An output that is lost once stays
lost, or `DisconnectBlock` notices it; with coins of height 0 this tells exactly which
blocks it does not undo.
-/

namespace HdacNode

section Transactions

variable {isUnspendable : Bytes → Bool} {nHeight : Nat}

/-- The blocks that `DisconnectBlock` undoes. -/
structure Undoable (isUnspendable : Bytes → Bool) (nHeight : Nat) (view : CCoinsView)
    (vtx : List CTransaction) : Prop where
  /-- Outputs held under the id of a transaction are spent up to that transaction. -/
  heldSpent : ∀ before tx after, vtx = before ++ tx :: after →
    ∀ n, (view.coins tx.hash).isAvailable n →
      (⟨tx.hash, n⟩ : COutPoint) ∈ spentOutPoints (before ++ [tx])
  /-- Outputs of an earlier transaction with the same id are spent in between. -/
  repeatedSpent : ∀ before first between tx after,
    vtx = before ++ first :: between ++ tx :: after → first.hash = tx.hash →
      ∀ n, (CCoins.fromTx isUnspendable first nHeight).isAvailable n →
        (⟨tx.hash, n⟩ : COutPoint) ∈ spentOutPoints (between ++ [tx])
  /-- Coins of height 0 are not spent completely. -/
  heightKept : HeightKept view (spentOutPoints vtx)

@[simp]
theorem spentOutPoints_cons (tx : CTransaction) (vtx : List CTransaction) :
    spentOutPoints (tx :: vtx) = tx.spendingInputs.map CTxIn.prevout ++ spentOutPoints vtx :=
  rfl

@[simp]
theorem spentOutPoints_nil : spentOutPoints [] = [] := rfl

theorem undoable_nil (view : CCoinsView) : Undoable isUnspendable nHeight view [] where
  heldSpent before tx after vtxEq := by simp at vtxEq
  repeatedSpent before first between tx after vtxEq := by simp at vtxEq
  heightKept hash held _ := by
    obtain ⟨n, available⟩ := CCoins.isPruned_eq_false_iff.mp held
    exact ⟨n, available, by simp⟩

variable {view last : CCoinsView} {tx : CTransaction} {txundo : CTxUndo}
variable {vtx : List CTransaction}

/-- The coins behind a transaction that spent its inputs. -/
def CCoinsView.addTx (isUnspendable : Bytes → Bool) (nHeight : Nat) (view : CCoinsView)
    (tx : CTransaction) : CCoinsView :=
  view.setCoins tx.hash (CCoins.fromTx isUnspendable tx nHeight)

private theorem isAvailable_addTx (isUnspendable : Bytes → Bool) (nHeight : Nat)
    (run : SpendRun view tx.spendingInputs txundo last)
    {hash : Hash} (different : hash ≠ tx.hash) (n : Nat) :
    ((last.addTx isUnspendable nHeight tx).coins hash).isAvailable n ↔
      (view.coins hash).isAvailable n ∧
        (⟨hash, n⟩ : COutPoint) ∉ tx.spendingInputs.map CTxIn.prevout := by
  unfold CCoinsView.addTx
  rw [CCoinsView.coins_setCoins_of_ne _ _ different]
  exact run.isAvailable_iff ⟨hash, n⟩

private theorem isAvailable_addTx_self (view : CCoinsView) (n : Nat) :
    ((view.addTx isUnspendable nHeight tx).coins tx.hash).isAvailable n =
      (CCoins.fromTx isUnspendable tx nHeight).isAvailable n := by
  unfold CCoinsView.addTx
  rw [CCoinsView.coins_setCoins_self, CCoins.isAvailable_settle]

private theorem undoable_of_cons (positive : nHeight ≠ 0)
    (run : SpendRun view tx.spendingInputs txundo last)
    (undoable : Undoable isUnspendable nHeight view (tx :: vtx)) :
    Undoable isUnspendable nHeight (last.addTx isUnspendable nHeight tx) vtx where
  heldSpent before other after vtxEq n available := by
    by_cases sameHash : other.hash = tx.hash
    · rw [sameHash, isAvailable_addTx_self] at available
      exact undoable.repeatedSpent [] tx before other after (by simp [vtxEq]) sameHash.symm n
        available
    · obtain ⟨held, unspent⟩ := (isAvailable_addTx isUnspendable nHeight run sameHash n).mp available
      have spent := undoable.heldSpent (tx :: before) other after (by simp [vtxEq]) n held
      rw [List.cons_append, spentOutPoints_cons, List.mem_append] at spent
      exact spent.resolve_left unspent
  repeatedSpent before first between other after vtxEq :=
    undoable.repeatedSpent (tx :: before) first between other after (by simp [vtxEq])
  heightKept hash held heightZero := by
    have different : hash ≠ tx.hash := by
      rintro rfl
      unfold CCoinsView.addTx at held heightZero
      rw [CCoinsView.coins_setCoins_self] at held heightZero
      rw [CCoins.isPruned_settle] at held
      rw [CCoins.settle_of_settled fun pruned => absurd pruned (by simp [held])] at heightZero
      exact positive heightZero
    obtain ⟨m, stillAvailable⟩ := CCoins.isPruned_eq_false_iff.mp held
    have before := (isAvailable_addTx isUnspendable nHeight run different m).mp stillAvailable
    unfold CCoinsView.addTx at held heightZero
    rw [CCoinsView.coins_setCoins_of_ne _ _ different] at held heightZero
    rw [run.nHeight_eq held] at heightZero
    obtain ⟨n, available, unspent⟩ := undoable.heightKept hash
      (CCoins.isPruned_eq_false_iff.mpr ⟨m, before.1⟩) heightZero
    rw [spentOutPoints_cons, List.mem_append, not_or] at unspent
    exact ⟨n, (isAvailable_addTx isUnspendable nHeight run different n).mpr ⟨available, unspent.1⟩, unspent.2⟩

private theorem undoable_cons_of (run : SpendRun view tx.spendingInputs txundo last)
    (held : ∀ n, (view.coins tx.hash).isAvailable n →
      (⟨tx.hash, n⟩ : COutPoint) ∈ tx.spendingInputs.map CTxIn.prevout)
    (kept : HeightKept view (tx.spendingInputs.map CTxIn.prevout))
    (undoable : Undoable isUnspendable nHeight (last.addTx isUnspendable nHeight tx) vtx) :
    Undoable isUnspendable nHeight view (tx :: vtx) where
  heldSpent before other after vtxEq n available := by
    cases before with
    | nil =>
        obtain ⟨rfl, -⟩ := List.cons.inj vtxEq
        simpa using held n available
    | cons head before =>
        obtain ⟨rfl, restEq⟩ := List.cons.inj vtxEq
        rw [List.cons_append, spentOutPoints_cons, List.mem_append]
        by_cases spent : (⟨other.hash, n⟩ : COutPoint) ∈ tx.spendingInputs.map CTxIn.prevout
        · exact .inl spent
        · have different : other.hash ≠ tx.hash := by
            intro same
            rw [same] at available spent
            exact spent (held n available)
          exact .inr (undoable.heldSpent before other after restEq n
            ((isAvailable_addTx isUnspendable nHeight run different n).mpr ⟨available, spent⟩))
  repeatedSpent before first between other after vtxEq sameHash n available := by
    cases before with
    | nil =>
        obtain ⟨rfl, restEq⟩ := List.cons.inj vtxEq
        apply undoable.heldSpent between other after restEq n
        rw [← sameHash, isAvailable_addTx_self]
        exact available
    | cons head before =>
        obtain ⟨rfl, restEq⟩ := List.cons.inj vtxEq
        exact undoable.repeatedSpent before first between other after restEq sameHash n available
  heightKept hash notPruned heightZero := by
    obtain ⟨m, available, unspent⟩ := kept hash notPruned heightZero
    have different : hash ≠ tx.hash := by
      rintro rfl
      exact unspent (held m available)
    have stillAvailable := (isAvailable_addTx isUnspendable nHeight run different m).mpr ⟨available, unspent⟩
    have stillHeld := CCoins.isPruned_eq_false_iff.mpr ⟨m, stillAvailable⟩
    have sameHeight : ((last.addTx isUnspendable nHeight tx).coins hash).nHeight = 0 := by
      unfold CCoinsView.addTx at stillHeld ⊢
      rw [CCoinsView.coins_setCoins_of_ne _ _ different] at stillHeld ⊢
      rw [run.nHeight_eq stillHeld, heightZero]
    obtain ⟨n, remains, unspentLater⟩ := undoable.heightKept hash stillHeld sameHeight
    obtain ⟨heldBefore, unspentHere⟩ := (isAvailable_addTx isUnspendable nHeight run different n).mp remains
    refine ⟨n, heldBefore, ?_⟩
    rw [spentOutPoints_cons, List.mem_append, not_or]
    exact ⟨unspentHere, unspentLater⟩

theorem undoable_cons (positive : nHeight ≠ 0)
    (run : SpendRun view tx.spendingInputs txundo last) :
    Undoable isUnspendable nHeight view (tx :: vtx) ↔
      (∀ n, (view.coins tx.hash).isAvailable n →
        (⟨tx.hash, n⟩ : COutPoint) ∈ tx.spendingInputs.map CTxIn.prevout) ∧
      HeightKept view (tx.spendingInputs.map CTxIn.prevout) ∧
      Undoable isUnspendable nHeight (last.addTx isUnspendable nHeight tx) vtx := by
  constructor
  · intro undoable
    refine ⟨fun n available => ?_, fun hash held heightZero => ?_,
      undoable_of_cons positive run undoable⟩
    · simpa using undoable.heldSpent [] tx vtx rfl n available
    · obtain ⟨n, available, unspent⟩ := undoable.heightKept hash held heightZero
      rw [spentOutPoints_cons, List.mem_append, not_or] at unspent
      exact ⟨n, available, unspent.1⟩
  · rintro ⟨held, kept, undoable⟩
    exact undoable_cons_of run held kept undoable

/-- Connecting transactions, with the undo data of each. -/
inductive TxRun (isUnspendable : Bytes → Bool) (nHeight : Nat) :
    CCoinsView → List CTransaction → List CTxUndo → CCoinsView → Prop where
  | nil (view : CCoinsView) : TxRun isUnspendable nHeight view [] [] view
  | cons {view spent last : CCoinsView} {tx : CTransaction} {txundo : CTxUndo}
      {vtx : List CTransaction} {vtxundo : List CTxUndo}
      (inputs : SpendRun view tx.spendingInputs txundo spent)
      (rest : TxRun isUnspendable nHeight (spent.addTx isUnspendable nHeight tx) vtx vtxundo
        last) :
      TxRun isUnspendable nHeight view (tx :: vtx) (txundo :: vtxundo) last

theorem TxRun.length_eq {undos : List CTxUndo}
    (run : TxRun isUnspendable nHeight view vtx undos last) : undos.length = vtx.length := by
  induction run with
  | nil => rfl
  | cons inputs rest ih => simp [ih]

theorem TxRun.setBestBlock {undos : List CTxUndo}
    (run : TxRun isUnspendable nHeight view vtx undos last) (hash : Hash) :
    TxRun isUnspendable nHeight (view.setBestBlock hash) vtx undos (last.setBestBlock hash) := by
  induction run with
  | nil => exact .nil _
  | cons inputs rest ih => exact .cons (inputs.setBestBlock hash) ih

theorem undoable_setBestBlock (view : CCoinsView) (hash : Hash) :
    Undoable isUnspendable nHeight (view.setBestBlock hash) vtx ↔
      Undoable isUnspendable nHeight view vtx :=
  ⟨fun ⟨held, repeated, kept⟩ => ⟨held, repeated, kept⟩,
    fun ⟨held, repeated, kept⟩ => ⟨held, repeated, kept⟩⟩

theorem slotAt_map_bind {Value : Type} (slots : List (Option Value)) (f : Value → Option Value)
    (n : Nat) :
    SlotList.slotAt (slots.map fun slot => slot.bind f) n = (SlotList.slotAt slots n).bind f := by
  unfold SlotList.slotAt
  rw [List.getElem?_map]
  cases slots[n]? <;> rfl

theorem slotOf_of_slotOf {out slot : CTxOut} (kept : CCoins.slotOf isUnspendable out = some slot) :
    CCoins.slotOf isUnspendable slot = some slot := by
  have same : out = slot := by
    unfold CCoins.slotOf at kept
    split at kept
    · contradiction
    · exact Option.some.inj kept
  rwa [same] at kept

theorem get_clearUnspendable (coins : CCoins) (n : Nat) :
    (coins.clearUnspendable isUnspendable).vout.get n =
      (coins.vout.get n).bind (CCoins.slotOf isUnspendable) := by
  unfold CCoins.clearUnspendable
  rw [SlotList.get_ofSlots, slotAt_map_bind]
  rfl

theorem get_fromTx (tx : CTransaction) (n : Nat) :
    (CCoins.fromTx isUnspendable tx nHeight).vout.get n =
      (tx.vout[n]?).bind (CCoins.slotOf isUnspendable) := by
  unfold CCoins.fromTx
  rw [SlotList.get_ofSlots]
  unfold SlotList.slotAt
  rw [List.getElem?_map]
  cases tx.vout[n]? <;> rfl

theorem clearUnspendable_fromTx (tx : CTransaction) :
    (CCoins.fromTx isUnspendable tx nHeight).clearUnspendable isUnspendable =
      CCoins.fromTx isUnspendable tx nHeight := by
  refine CCoins.ext rfl ?_ rfl rfl
  ext1 n
  rw [get_clearUnspendable, get_fromTx, Option.bind_assoc]
  cases tx.vout[n]? with
  | none => rfl
  | some out =>
      rw [Option.bind_some, Option.bind_some]
      cases kept : CCoins.slotOf isUnspendable out with
      | none => rfl
      | some slot => exact slotOf_of_slotOf kept

/-- The coins of a transaction are as `DisconnectBlock` expects them, also when a version
below 0 has become another one. -/
theorem outs_equal_of_fromTx {version : Int} (tx : CTransaction)
    (sameVersion : 0 ≤ tx.nVersion → version = tx.nVersion) :
    let outs := (({ CCoins.fromTx isUnspendable tx nHeight with
      nVersion := version } : CCoins).settle).clearUnspendable isUnspendable
    let outsBlock := CCoins.fromTx isUnspendable tx nHeight
    (if outsBlock.nVersion < 0 then { outs with nVersion := outsBlock.nVersion }
      else outs).equal outsBlock := by
  intro outs outsBlock
  by_cases pruned : outsBlock.isPruned
  · have outsPruned : outs.isPruned := by
      rw [CCoins.isPruned_iff] at pruned ⊢
      intro n
      rw [get_clearUnspendable, CCoins.vout_settle]
      exact congrArg (Option.bind · (CCoins.slotOf isUnspendable)) (pruned n)
    have stillPruned : (if outsBlock.nVersion < 0 then { outs with nVersion := outsBlock.nVersion }
        else outs).isPruned := by
      split
      · exact outsPruned
      · exact outsPruned
    simp [CCoins.equal, stillPruned, pruned]
  · have held : ({ outsBlock with nVersion := version } : CCoins).isPruned = false :=
      Bool.eq_false_iff.mpr pruned
    have outsEq : outs = { outsBlock with nVersion := version } := by
      change (CCoins.settle { outsBlock with nVersion := version }).clearUnspendable _ = _
      rw [CCoins.settle_of_settled fun isPruned => absurd isPruned (by simp [held])]
      have cleared := congrArg CCoins.vout
        (@clearUnspendable_fromTx isUnspendable nHeight tx)
      exact CCoins.ext rfl cleared rfl rfl
    have isBlock : (if outsBlock.nVersion < 0 then { outs with nVersion := outsBlock.nVersion }
        else outs) = outsBlock := by
      rw [outsEq]
      split
      · rfl
      · rename_i notBelow
        rw [sameVersion (not_lt.mp notBelow)]
        rfl
    rw [isBlock]
    simp [CCoins.equal]

theorem outs_not_equal {coins : CCoins} {n : Nat}
    (expected : (CCoins.fromTx isUnspendable tx nHeight).isAvailable n)
    (lost : ¬coins.isAvailable n) :
    let outs := coins.clearUnspendable isUnspendable
    let outsBlock := CCoins.fromTx isUnspendable tx nHeight
    (if outsBlock.nVersion < 0 then { outs with nVersion := outsBlock.nVersion }
      else outs).equal outsBlock = false := by
  intro outs outsBlock
  have missing : outs.vout.get n = none := by
    have noOutput : coins.vout.get n = none := by
      simpa [CCoins.isAvailable] using lost
    rw [get_clearUnspendable, noOutput]
    rfl
  have notPruned : outsBlock.isPruned = false := CCoins.isPruned_eq_false_iff.mpr ⟨n, expected⟩
  have different : ∀ candidate : CCoins, candidate.vout = outs.vout →
      candidate.equal outsBlock = false := by
    intro candidate sameVout
    have notSame : candidate ≠ outsBlock := by
      rintro rfl
      have found : (outsBlock.vout.get n).isSome := expected
      rw [sameVout, missing] at found
      contradiction
    simp [CCoins.equal, notPruned, notSame]
  split
  · exact different _ rfl
  · exact different _ rfl

theorem keepVersion_fromTx {keep : Int → Int}
    (keepsRest : ∀ version, 0 ≤ version → keep version = version) (tx : CTransaction)
    (later : List COutPoint) :
    ∃ version, (0 ≤ tx.nVersion → version = tx.nVersion) ∧
      (CCoins.fromTx isUnspendable tx nHeight).settle.keepVersion keep later tx.hash =
        ({ CCoins.fromTx isUnspendable tx nHeight with nVersion := version } : CCoins).settle := by
  by_cases pruned : (CCoins.fromTx isUnspendable tx nHeight).isPruned
  · refine ⟨tx.nVersion, fun _ => rfl, ?_⟩
    rw [CCoins.keepVersion_of_isPruned (by rwa [CCoins.isPruned_settle])]
    exact (CCoins.settle_of_isPruned pruned).symm
  · rw [CCoins.settle_of_settled fun isPruned => absurd isPruned pruned]
    refine ⟨_, fun notBelow => ?_, rfl⟩
    unfold CCoins.keptVersion
    split
    · rfl
    · exact keepsRest _ notBelow

section DisconnectTx

variable {options : IndexOptions} {place : TxPlace} {state : DisconnectState}
variable {keep : Int → Int} {read : CTxInUndo → CTxInUndo}

/-- An output that was lost before the outputs of a transaction are removed is noticed
or stays lost. -/
theorem losesOutput_disconnectOutputs (loses : LosesOutput
      (last.addTx isUnspendable place.nHeight tx) state.view) :
    (disconnectOutputs isUnspendable options place tx state).fClean = false ∨
      LosesOutput last (disconnectOutputs isUnspendable options place tx state).view := by
  obtain ⟨hash, n, available, lost⟩ := loses
  by_cases same : hash = tx.hash
  · subst same
    rw [isAvailable_addTx_self] at available
    left
    simp only [disconnectOutputs, outs_not_equal available lost, Bool.and_false]
  · right
    refine ⟨hash, n, ?_, ?_⟩
    · unfold CCoinsView.addTx at available
      rwa [CCoinsView.coins_setCoins_of_ne _ _ same] at available
    · simp only [disconnectOutputs]
      rwa [CCoinsView.coins_setCoins_of_ne _ _ same]

/-- Removing the outputs of a transaction undoes adding them, unless outputs with its id
were held before. -/
theorem disconnectOutputs_of_addTx (keepsRest : ∀ version, 0 ≤ version → keep version = version)
    (options : IndexOptions) {later : List COutPoint}
    (sameView : state.view = (last.addTx isUnspendable place.nHeight tx).keepVersions keep later) :
    let result := disconnectOutputs isUnspendable options place tx state
    result.fClean = state.fClean ∧
      ((last.coins tx.hash).isPruned → result.view = last.keepVersions keep later) ∧
      ((last.coins tx.hash).isPruned = false → LosesOutput last result.view) := by
  intro result
  have viewEq : result.view = ((last.addTx isUnspendable place.nHeight tx).keepVersions keep
      later).setCoins tx.hash .clear := by
    rw [← sameView]
    rfl
  refine ⟨?_, fun pruned => ?_, fun held => ?_⟩
  · obtain ⟨version, sameVersion, coinsEq⟩ : ∃ version, (0 ≤ tx.nVersion → version = tx.nVersion) ∧
        state.view.coins tx.hash = ({ CCoins.fromTx isUnspendable tx place.nHeight with
          nVersion := version } : CCoins).settle := by
      rw [sameView]
      change ∃ version, _ ∧ ((last.addTx isUnspendable place.nHeight tx).coins tx.hash).keepVersion
        keep later tx.hash = _
      unfold CCoinsView.addTx
      rw [CCoinsView.coins_setCoins_self]
      exact keepVersion_fromTx keepsRest tx later
    change (disconnectOutputs isUnspendable options place tx state).fClean = state.fClean
    simp only [disconnectOutputs, coinsEq, outs_equal_of_fromTx tx sameVersion, Bool.and_true]
  · rw [viewEq]
    refine CCoinsView.ext_coins (fun hash => ?_) rfl
    by_cases same : hash = tx.hash
    · subst same
      rw [CCoinsView.coins_setCoins_self]
      exact (CCoins.keepVersion_of_isPruned pruned).symm
    · rw [CCoinsView.coins_setCoins_of_ne _ _ same]
      refine congrArg (CCoins.keepVersion keep later hash) ?_
      exact CCoinsView.coins_setCoins_of_ne _ _ same
  · obtain ⟨n, available⟩ := CCoins.isPruned_eq_false_iff.mp held
    refine ⟨tx.hash, n, available, ?_⟩
    rw [viewEq, CCoinsView.coins_setCoins_self, CCoins.isAvailable_settle]
    simp [CCoins.isAvailable, CCoins.clear]

/-- The two ways in which a view can differ from the one before a block. -/
def NotUndone (view : CCoinsView) (state : DisconnectState) : Prop :=
  state.fClean = false ∨ LosesOutput view state.view

theorem notUndone_undoTx (run : SpendRun view tx.spendingInputs txundo last) (back : CTxUndo)
    (notUndone : NotUndone (last.addTx isUnspendable place.nHeight tx) state) :
    NotUndone view (undoTx isUnspendable options place tx back state) := by
  have behindOutputs :
      NotUndone last (disconnectOutputs isUnspendable options place tx state) := by
    rcases notUndone with unclean | loses
    · left
      simp only [disconnectOutputs, unclean, Bool.false_and]
    · exact losesOutput_disconnectOutputs loses
  rcases behindOutputs with unclean | loses
  · left
    apply Bool.eq_false_iff.mpr
    intro clean
    rw [fClean_disconnectInputs clean] at unclean
    contradiction
  · right
    exact losesOutput_disconnectInputs run back loses

theorem undoTx_of_addTx (reads : ReadsBack keep read)
    (keepsRest : ∀ version, 0 ≤ version → keep version = version) (options : IndexOptions)
    (place : TxPlace) {later : List COutPoint} (run : SpendRun view tx.spendingInputs txundo last)
    (sameView : state.view = (last.addTx isUnspendable place.nHeight tx).keepVersions keep later) :
    let result := undoTx isUnspendable options place tx (txundo.map read) state
    let undone := (∀ n, (view.coins tx.hash).isAvailable n →
        (⟨tx.hash, n⟩ : COutPoint) ∈ tx.spendingInputs.map CTxIn.prevout) ∧
      HeightKept view (tx.spendingInputs.map CTxIn.prevout)
    (undone →
        result.view = view.keepVersions keep (tx.spendingInputs.map CTxIn.prevout ++ later) ∧
          result.fClean = state.fClean) ∧
      (¬undone → NotUndone view result) := by
  intro result undone
  obtain ⟨cleanEq, restored, loses⟩ :=
    disconnectOutputs_of_addTx keepsRest options sameView
  have spentIff : (last.coins tx.hash).isPruned ↔ ∀ n, (view.coins tx.hash).isAvailable n →
      (⟨tx.hash, n⟩ : COutPoint) ∈ tx.spendingInputs.map CTxIn.prevout := by
    constructor
    · intro pruned n available
      by_contra unspent
      have remains := (run.isAvailable_iff ⟨tx.hash, n⟩).mpr ⟨available, unspent⟩
      rw [CCoins.isPruned_eq_false_iff.mpr ⟨n, remains⟩] at pruned
      contradiction
    · intro allSpent
      by_contra held
      obtain ⟨n, remains⟩ := CCoins.isPruned_eq_false_iff.mp (Bool.eq_false_iff.mpr held)
      obtain ⟨available, unspent⟩ := (run.isAvailable_iff ⟨tx.hash, n⟩).mp remains
      exact unspent (allSpent n available)
  by_cases pruned : (last.coins tx.hash).isPruned
  · obtain ⟨inputsRestored, inputsUnclean⟩ :=
      disconnectInputs_of_run reads options place tx 0 run (restored pruned)
    refine ⟨fun good => ?_, fun bad => ?_⟩
    · obtain ⟨viewEq, sameClean⟩ := inputsRestored good.2
      exact ⟨viewEq, sameClean.trans cleanEq⟩
    · have notKept : ¬HeightKept view (tx.spendingInputs.map CTxIn.prevout) :=
        fun kept => bad ⟨spentIff.mp pruned, kept⟩
      exact .inl (inputsUnclean notKept)
  · refine ⟨fun good => absurd (spentIff.mpr good.1) pruned, fun _ => .inr ?_⟩
    exact losesOutput_disconnectInputs run _ (loses (Bool.eq_false_iff.mpr pruned))

/-- What `DisconnectBlock` makes of transactions: they are undone cleanly if they can be,
up to the versions that the undo data lost, and otherwise the view differs or is found
unclean. -/
def UndoOutcome (isUnspendable : Bytes → Bool) (keep : Int → Int) (nHeight : Nat)
    (view : CCoinsView) (vtx : List CTransaction) (state result : DisconnectState) : Prop :=
  (Undoable isUnspendable nHeight view vtx →
      result.view = view.keepVersions keep (spentOutPoints vtx) ∧ result.fClean = state.fClean) ∧
    (¬Undoable isUnspendable nHeight view vtx → NotUndone view result)

theorem undoOutcome_cons (reads : ReadsBack keep read)
    (keepsRest : ∀ version, 0 ≤ version → keep version = version) (options : IndexOptions)
    (place : TxPlace) {behind : DisconnectState} (positive : place.nHeight ≠ 0)
    (run : SpendRun view tx.spendingInputs txundo last)
    (outcome : UndoOutcome isUnspendable keep place.nHeight
      (last.addTx isUnspendable place.nHeight tx) vtx state behind) :
    UndoOutcome isUnspendable keep place.nHeight view (tx :: vtx) state
      (undoTx isUnspendable options place tx (txundo.map read) behind) := by
  obtain ⟨restored, notRestored⟩ := outcome
  unfold UndoOutcome
  rw [undoable_cons positive run]
  by_cases undoable : Undoable isUnspendable place.nHeight
      (last.addTx isUnspendable place.nHeight tx) vtx
  · obtain ⟨viewEq, cleanEq⟩ := restored undoable
    obtain ⟨good, bad⟩ := undoTx_of_addTx reads keepsRest options place run viewEq
    refine ⟨fun ⟨held, kept, _⟩ => ?_, fun not => bad fun ⟨held, kept⟩ =>
      not ⟨held, kept, undoable⟩⟩
    obtain ⟨sameBefore, sameClean⟩ := good ⟨held, kept⟩
    exact ⟨sameBefore, sameClean.trans cleanEq⟩
  · refine ⟨fun ⟨_, _, isUndoable⟩ => absurd isUndoable undoable, fun _ => ?_⟩
    exact notUndone_undoTx run _ (notRestored undoable)

end DisconnectTx

section Blocks

variable {options : IndexOptions} {pindex : CBlockIndex} {vtxundo undos : List CTxUndo}
variable {keep : Int → Int} {read : CTxInUndo → CTxInUndo}

theorem connectTx_eq_some {state next : ConnectState} {place : CTransaction × Nat}
    (connects : connectTx isUnspendable options pindex state place = some next) :
    ∃ spent txundo, SpendRun state.view place.1.spendingInputs txundo spent ∧
      next.view = spent.addTx isUnspendable pindex.nHeight place.1 ∧
      next.vtxundo = (if 0 < place.2 then state.vtxundo ++ [txundo] else state.vtxundo) ∧
      next.records = state.records.append
        (connectRecords options ⟨pindex.nHeight, place.2⟩ place.1 state.view) := by
  unfold connectTx at connects
  by_cases missing : (!place.1.isCoinBase && !state.view.haveInputs place.1) = true
  · rw [if_pos missing] at connects
    contradiction
  · rw [if_neg missing] at connects
    unfold CCoinsView.updateCoins at connects
    rw [Option.map_map, Option.map_eq_some_iff] at connects
    obtain ⟨⟨spent, txundo⟩, spends, nextEq⟩ := connects
    obtain ⟨undoData, sameUndo, run⟩ := SpendRun.of_foldlM spends
    rw [List.nil_append] at sameUndo
    subst sameUndo
    cases nextEq
    exact ⟨spent, txundo, run, rfl, rfl, rfl⟩

/-- The loop of `ConnectBlock` behind the coinbase. -/
theorem txRun_of_foldlM {first : Nat} (behindCoinbase : 0 < first)
    {state next : ConnectState}
    (connects : (vtx.zipIdx first).foldlM (connectTx isUnspendable options pindex) state =
      some next) :
    ∃ undos, next.vtxundo = state.vtxundo ++ undos ∧
      TxRun isUnspendable pindex.nHeight state.view vtx undos next.view ∧
      next.records = state.records.append (.collect
        ((blockMarks pindex.nHeight first vtx undos).map (IndexMark.connectRecords options))) := by
  induction vtx generalizing first state with
  | nil =>
      cases connects
      exact ⟨[], (List.append_nil _).symm, .nil _, (IndexRecords.append_none _).symm⟩
  | cons tx vtx ih =>
      rw [List.zipIdx_cons, List.foldlM_cons, Option.bind_eq_bind, Option.bind_eq_some_iff]
        at connects
      obtain ⟨middle, connectsTx, connectsRest⟩ := connects
      obtain ⟨spent, txundo, run, viewEq, undoEq, recordsEq⟩ := connectTx_eq_some connectsTx
      obtain ⟨undos, undosEq, rest, restEq⟩ := ih (Nat.succ_pos first) connectsRest
      rw [viewEq] at rest
      rw [undoEq, if_pos behindCoinbase] at undosEq
      refine ⟨txundo :: undos, by simp [undosEq], .cons run rest, ?_⟩
      rw [restEq, recordsEq, run.connectRecords_eq, IndexRecords.append_assoc,
        ← IndexRecords.collect_append, ← List.map_append]
      rfl

theorem disconnectTx_of_undo (options : IndexOptions) (pindex : CBlockIndex)
    (state : DisconnectState) {first : Nat} {txundo : CTxUndo} {spent : CCoinsView}
    (behindCoinbase : 0 < first) (notCoinBase : tx.isCoinBase = false)
    (found : vtxundo[first - 1]? = some (txundo.map read))
    (run : SpendRun view tx.spendingInputs txundo spent) :
    disconnectTx isUnspendable options pindex vtxundo (tx, first) state =
      some (undoTx isUnspendable options ⟨pindex.nHeight, first⟩ tx (txundo.map read) state) := by
  have inputsEq : tx.spendingInputs = tx.vin := by simp [CTransaction.spendingInputs, notCoinBase]
  have sameLength : (txundo.map read).length = tx.vin.length := by
    rw [List.length_map, run.length_eq, inputsEq]
  simp only [disconnectTx, if_neg (Nat.ne_of_gt behindCoinbase), found]
  rw [if_neg (by simp [sameLength])]
  simp only [undoTx, inputsEq]

/-- The loop of `DisconnectBlock` before it reaches the coinbase. -/
theorem disconnect_of_txRun (reads : ReadsBack keep read)
    (keepsRest : ∀ version, 0 ≤ version → keep version = version) (options : IndexOptions)
    (vtxundo : List CTxUndo) (first : Nat) (state : DisconnectState)
    (run : TxRun isUnspendable pindex.nHeight view vtx undos last)
    (behindCoinbase : 0 < first) (notCoinBase : ∀ tx ∈ vtx, tx.isCoinBase = false)
    (undoData : ∀ position, position < undos.length →
      vtxundo[first - 1 + position]? = (undos[position]?).map (List.map read))
    (sameView : state.view = last) :
    ∃ result, (vtx.zipIdx first).foldrM (disconnectTx isUnspendable options pindex vtxundo) state =
        some result ∧
      UndoOutcome isUnspendable keep pindex.nHeight view vtx state result ∧
      result.records = state.records.append (.collect
        ((blockMarks pindex.nHeight first vtx (undos.map (List.map read))).reverse.map
          (IndexMark.disconnectRecords options))) := by
  induction run generalizing first with
  | nil view =>
      exact ⟨state, rfl, ⟨fun _ => ⟨sameView.trans view.keepVersions_nil.symm, rfl⟩,
        fun not => absurd (undoable_nil view) not⟩, (IndexRecords.append_none _).symm⟩
  | @cons view spent last tx txundo vtx undos inputs rest ih =>
      obtain ⟨behind, disconnects, outcome, recordsEq⟩ :=
        ih (first + 1) (Nat.succ_pos first)
          (fun other inVtx => notCoinBase other (List.mem_cons_of_mem _ inVtx))
          (fun position inside => by
            have found := undoData (position + 1) (by simpa using inside)
            rw [List.getElem?_cons_succ] at found
            rw [← found]
            congr 1
            omega) sameView
      have found : vtxundo[first - 1]? = some (txundo.map read) := by
        simpa using undoData 0 (by simp)
      have disconnectsTx : disconnectTx isUnspendable options pindex vtxundo (tx, first) behind =
          _ :=
        disconnectTx_of_undo options pindex behind behindCoinbase
          (notCoinBase tx (List.mem_cons_self ..)) found inputs
      refine ⟨_, by rw [List.zipIdx_cons, List.foldrM_cons, disconnects]; exact disconnectsTx,
        undoOutcome_cons reads keepsRest options ⟨pindex.nHeight, first⟩ pindex.nHeight_ne_zero
          inputs outcome, ?_⟩
      rw [records_undoTx, recordsEq, IndexRecords.append_assoc, ← IndexRecords.collect_append,
        ← List.map_append, ← List.reverse_append]
      rfl

theorem disconnectTx_coinbase (options : IndexOptions) (pindex : CBlockIndex)
    (vtxundo : List CTxUndo) (state : DisconnectState) (isCoinBase : tx.isCoinBase) :
    disconnectTx isUnspendable options pindex vtxundo (tx, 0) state =
      some (undoTx isUnspendable options ⟨pindex.nHeight, 0⟩ tx [] state) := by
  have noInputs : tx.spendingInputs = [] := by simp [CTransaction.spendingInputs, isCoinBase]
  simp only [disconnectTx, undoTx, noInputs]
  rfl

/-- What `ConnectBlock` does to the coins, coinbase first. -/
theorem connectBlock_eq_some {db nextDB : CBlockTreeDB} {next : CCoinsView} {block : CBlock}
    (connects : connectBlock isUnspendable options pindex db view block =
      some (nextDB, next, vtxundo)) :
    view.bestBlock = pindex.prevHash ∧
      ∃ last, next = last.setBestBlock block.hash ∧
        TxRun isUnspendable pindex.nHeight view block.vtx ([] :: vtxundo) last ∧
        nextDB = connectIndexes options pindex db block (.collect
          ((blockMarks pindex.nHeight 0 block.vtx ([] :: vtxundo)).map
            (IndexMark.connectRecords options))) := by
  unfold connectBlock at connects
  by_cases otherBlock : view.bestBlock ≠ pindex.prevHash
  · rw [if_pos otherBlock] at connects
    contradiction
  · rw [if_neg otherBlock, Option.map_eq_some_iff] at connects
    obtain ⟨state, connectsAll, resultEq⟩ := connects
    rw [CBlock.vtx, List.zipIdx_cons, List.foldlM_cons, Option.bind_eq_bind,
      Option.bind_eq_some_iff] at connectsAll
    obtain ⟨middle, connectsCoinbase, connectsRest⟩ := connectsAll
    obtain ⟨spent, txundo, run, viewEq, undoEq, recordsEq⟩ := connectTx_eq_some connectsCoinbase
    obtain ⟨undos, undosEq, rest, restEq⟩ := txRun_of_foldlM (Nat.succ_pos 0) connectsRest
    rw [recordsEq, run.connectRecords_eq, IndexRecords.append_assoc,
      ← IndexRecords.collect_append, ← List.map_append, IndexRecords.none_append] at restEq
    rw [viewEq] at rest
    rw [undoEq, if_neg (Nat.lt_irrefl 0)] at undosEq
    cases resultEq
    have noInputs : block.coinbase.spendingInputs = [] := by
      simp [CTransaction.spendingInputs, block.isCoinBase]
    have noUndo : txundo = [] := by
      have sameLength := run.length_eq
      rw [noInputs] at sameLength
      exact List.eq_nil_of_length_eq_zero sameLength
    subst noUndo
    refine ⟨not_not.mp otherBlock, state.view, rfl, ?_, ?_⟩
    · rw [undosEq]
      exact .cons run rest
    · rw [restEq, undosEq]
      rfl

theorem disconnectBlock_of_foldrM (db : CBlockTreeDB) {block : CBlock} {state : DisconnectState}
    (sameBlock : view.bestBlock = block.hash) (sameLength : vtxundo.length + 1 = block.vtx.length)
    (disconnects : block.vtx.zipIdx.foldrM (disconnectTx isUnspendable options pindex vtxundo)
      ⟨view, true, .none⟩ = some state) :
    disconnectBlock isUnspendable options pindex db view vtxundo block =
      some (disconnectIndexes options db state.records,
        state.view.setBestBlock pindex.prevHash, state.fClean) := by
  unfold disconnectBlock
  rw [if_neg (by simp [sameBlock, sameLength]), disconnects, Option.map_some]

/-- What `DisconnectBlock` makes of the block that was connected last, with its undo data
as it was read back. -/
theorem disconnectBlock_of_connectBlock (reads : ReadsBack keep read)
    (keepsRest : ∀ version, 0 ≤ version → keep version = version)
    {db nextDB : CBlockTreeDB} {next : CCoinsView} {block : CBlock}
    (connects : connectBlock isUnspendable options pindex db view block =
      some (nextDB, next, vtxundo)) :
    ∃ resultDB result fClean,
      disconnectBlock isUnspendable options pindex nextDB next (vtxundo.map (List.map read)) block =
        some (resultDB, result, fClean) ∧
      resultDB = disconnectIndexes options nextDB (.collect
        ((blockMarks pindex.nHeight 0 block.vtx ([] :: vtxundo.map (List.map read))).reverse.map
          (IndexMark.disconnectRecords options))) ∧
      (Undoable isUnspendable pindex.nHeight view block.vtx →
        result = view.keepVersions keep (spentOutPoints block.vtx) ∧ fClean = true) ∧
      (¬Undoable isUnspendable pindex.nHeight view block.vtx →
        fClean = false ∨ LosesOutput view result) := by
  obtain ⟨sameBlock, last, rfl, run, -⟩ := connectBlock_eq_some connects
  have sameLength : (vtxundo.map (List.map read)).length + 1 = block.vtx.length := by
    simpa using run.length_eq
  have runBehind := run.setBestBlock block.hash
  rw [CBlock.vtx] at runBehind
  cases runBehind with
  | @cons _ spent _ _ _ _ _ inputs rest =>
      obtain ⟨behind, disconnects, outcome, recordsEq⟩ :=
        disconnect_of_txRun reads keepsRest options (vtxundo.map (List.map read)) 1
          ⟨last.setBestBlock block.hash, true, .none⟩ rest Nat.one_pos block.othersAreNot
          (fun position _ => by simp) rfl
      obtain ⟨restored, notRestored⟩ := undoOutcome_cons reads keepsRest options
        ⟨pindex.nHeight, 0⟩ pindex.nHeight_ne_zero inputs outcome
      rw [undoable_setBestBlock] at restored notRestored
      have disconnectsAll : block.vtx.zipIdx.foldrM
          (disconnectTx isUnspendable options pindex (vtxundo.map (List.map read)))
          ⟨last.setBestBlock block.hash, true, .none⟩ =
            some (undoTx isUnspendable options ⟨pindex.nHeight, 0⟩ block.coinbase [] behind) := by
        rw [CBlock.vtx, List.zipIdx_cons, List.foldrM_cons, disconnects]
        exact disconnectTx_coinbase options pindex (vtxundo.map (List.map read)) behind
          block.isCoinBase
      refine ⟨_, _, _, disconnectBlock_of_foldrM nextDB rfl sameLength disconnectsAll, ?_,
        fun undoable => ?_, fun notUndoable => notRestored notUndoable⟩
      · rw [records_undoTx, recordsEq, IndexRecords.append_assoc, ← IndexRecords.collect_append,
          ← List.map_append, ← List.reverse_append, IndexRecords.none_append]
        rfl
      · obtain ⟨viewEq, cleanEq⟩ := restored undoable
        refine ⟨?_, cleanEq⟩
        refine (congrArg (CCoinsView.setBestBlock · pindex.prevHash) viewEq).trans ?_
        rw [← sameBlock]
        rfl

end Blocks

end Transactions

/-- A view without coins. -/
def CCoinsView.empty (bestBlock : Hash) : CCoinsView where
  coins _ := .clear
  bestBlock := bestBlock
  settled _ _ := rfl

/-- A coinbase with a single output. -/
def repeatedCoinbase : CTransaction where
  hash := 7
  nVersion := 1
  vin := [⟨⟨0, 2 ^ 32 - 1⟩, []⟩]
  vout := [⟨5, [0x51]⟩]

/-- The coins of the coinbase, from an earlier block. -/
def repeatedCoinbaseView : CCoinsView :=
  (CCoinsView.empty 2).setCoins 7 (CCoins.fromTx (fun _ => false) repeatedCoinbase 1)

/-- A block with the same coinbase. -/
def repeatedCoinbaseBlock : CBlock where
  hash := 3
  nTime := 0
  coinbase := repeatedCoinbase
  txs := []
  isCoinBase := rfl
  othersAreNot := by simp

end HdacNode
