import HdacNode.CoinsCacheRuns
import HdacNode.CoinsRoundTrip

/-!
# Blocks on the caches of the tip

`ConnectTip` and `DisconnectTip` work on a new cache over the cache of the tip.  It is flushed
into the cache of the tip behind a block that goes through, and dropped otherwise;
`FlushStateToDisk` flushes the cache of the tip into the database.  In every run of these the
cache of the tip answers like the plain view on which the same blocks are connected and
disconnected.
-/

namespace HdacNode

namespace CoinsStack

section Modification

/-- The coins that the modifier of a cache refers to. -/
def modified : CoinsStack → Hash → Option CCoins
  | db _, _ => none
  | cache top _, txid => (top.cacheCoins txid).map CCoinsCacheEntry.coins

/-- `ModifyCoins`, what is done to the coins, and the destructor of the modifier. -/
def modify {Result : Type} (change : CCoins → Option (CCoins × Result)) (txid : Hash)
    (stack : CoinsStack) : Option (CoinsStack × Result) := do
  let opened ← (CoinsAction.modifyCoins txid).perform stack
  let coins ← opened.modified txid
  let changed ← change coins
  let edited ← (CoinsAction.edit txid fun _ => changed.1).perform opened
  let closed ← CoinsAction.closeModifier.perform edited
  return (closed, changed.2)

/-- `HaveInputs`, for the inputs that are left. -/
def haveInputs : List CTxIn → CoinsStack → Bool × CoinsStack
  | [], stack => (true, stack)
  | input :: inputs, stack =>
    let fetched := stack.getCoins input.prevout.hash
    if fetched.1.any fun coins => coins.isAvailable input.prevout.n then
      haveInputs inputs fetched.2
    else (false, fetched.2)

end Modification

section Connecting

variable (isUnspendable : Bytes → Bool)

/-- An input in the loop of `UpdateCoins`. -/
def spendInput (state : CoinsStack × CTxUndo) (input : CTxIn) : Option (CoinsStack × CTxUndo) :=
  (state.1.modify (fun coins => coins.spend input.prevout.n) input.prevout.hash).map
    fun (stack, undo) => (stack, state.2 ++ [undo])

/-- `UpdateCoins`. -/
def updateCoins (tx : CTransaction) (nHeight : Nat) (stack : CoinsStack) :
    Option (CoinsStack × CTxUndo) := do
  let (stack, txundo) ← tx.spendingInputs.foldlM spendInput (stack, [])
  let (stack, _) ← stack.modify (fun _ => some (CCoins.fromTx isUnspendable tx nHeight, ())) tx.hash
  return (stack, txundo)

/-- The loop of `ConnectBlock` over the transactions: the undo data, or none for a block that is
turned away.  No result stands for an assertion that fails. -/
def connectTxs (nHeight : Nat) : List (CTransaction × Nat) → List CTxUndo → CoinsStack →
    Option (Option (List CTxUndo) × CoinsStack)
  | [], vtxundo, stack => some (some vtxundo, stack)
  | tx :: vtx, vtxundo, stack =>
    let found := if tx.1.isCoinBase then (true, stack) else stack.haveInputs tx.1.vin
    if found.1 then do
      let (stack, txundo) ← found.2.updateCoins isUnspendable tx.1 nHeight
      connectTxs nHeight vtx (if 0 < tx.2 then vtxundo ++ [txundo] else vtxundo) stack
    else some (none, found.2)

/-- `SetBestBlock` and the result, for a block that goes through. -/
def setBest {Result : Type} (hash : Hash) : Option Result × CoinsStack → Option Result × CoinsStack
  | (some result, cache top base) => (some result, cache { top with hashBlock := hash } base)
  | (_, stack) => (none, stack)

/-- What `ConnectBlock` does to the coins. -/
def connectBlock (pindex : CBlockIndex) (block : CBlock) (stack : CoinsStack) :
    Option (Option (List CTxUndo) × CoinsStack) :=
  let best := stack.getBestBlock
  if best.1 ≠ pindex.prevHash then none
  else (connectTxs isUnspendable pindex.nHeight block.vtx.zipIdx [] best.2).map (setBest block.hash)

end Connecting

section Disconnecting

variable (isUnspendable : Bytes → Bool) (pindex : CBlockIndex)

/-- Whether the loop of `DisconnectBlock` meets the outputs of a transaction as it expects. -/
def outputsMatch (tx : CTransaction) (coins : CCoins) : Bool :=
  let outs := coins.clearUnspendable isUnspendable
  let outsBlock := CCoins.fromTx isUnspendable tx pindex.nHeight
  let outs := if outsBlock.nVersion < 0 then { outs with nVersion := outsBlock.nVersion } else outs
  outs.equal outsBlock

/-- An input in the loop of `DisconnectBlock`. -/
def restoreInput (input : (CTxIn × Nat) × CTxInUndo) (state : CoinsStack × Bool) :
    Option (CoinsStack × Bool) :=
  (state.1.modify (fun coins => some (coins.restore input.1.1.prevout.n input.2))
    input.1.1.prevout.hash).map fun (stack, fClean) => (stack, state.2 && fClean)

/-- The loop of `DisconnectBlock` over the transactions, last one first: whether the coins were
clean, or none where the undo data does not fit. -/
def disconnectTxs (vtxundo : List CTxUndo) : List (CTransaction × Nat) → CoinsStack →
    Option (Option Bool × CoinsStack)
  | [], stack => some (some true, stack)
  | tx :: vtx, stack => do
    match ← disconnectTxs vtxundo vtx stack with
    | (none, stack) => some (none, stack)
    | (some fClean, stack) =>
      let (stack, fMatches) ← stack.modify
        (fun coins => some (.clear, outputsMatch isUnspendable pindex tx.1 coins)) tx.1.hash
      if tx.2 = 0 then some (some (fClean && fMatches), stack)
      else
        match vtxundo[tx.2 - 1]? with
        | none => none
        | some txundo =>
          if txundo.length ≠ tx.1.vin.length then some (none, stack)
          else
            ((tx.1.vin.zipIdx.zip txundo).foldrM restoreInput (stack, fClean && fMatches)).map
              fun (stack, fClean) => (some fClean, stack)

/-- What `DisconnectBlock` does to the coins. -/
def disconnectBlock (vtxundo : List CTxUndo) (block : CBlock) (stack : CoinsStack) :
    Option (Option Bool × CoinsStack) :=
  let best := stack.getBestBlock
  if best.1 ≠ block.hash then none
  else if vtxundo.length + 1 ≠ block.vtx.length then some (none, best.2)
  else
    (disconnectTxs isUnspendable pindex vtxundo block.vtx.zipIdx best.2).map
      (setBest pindex.prevHash)

end Disconnecting

section Representation

/-- A stack without an open modifier answers like a view. -/
structure Represents (stack : CoinsStack) (view : CCoinsView) : Prop where
  consistent : stack.Consistent
  unmodified : stack.Unmodified
  coins : ∀ txid, stack.view txid = view.coins txid
  bestBlock : stack.getBestBlock.1 = view.bestBlock

/-- A cache that answers like a view, over a cache that answers like another. -/
inductive Over (view below : CCoinsView) : CoinsStack → Prop where
  | intro {top : CCoinsViewCache} {base : CoinsStack} (isTop : (cache top base).Represents view)
      (isBase : base.Represents below) (isCache : base.IsCache) : Over view below (cache top base)

theorem bestBlock_cache (top : CCoinsViewCache) (base : CoinsStack) :
    (cache top base).getBestBlock.1 =
      if top.hashBlock = 0 then base.getBestBlock.1 else top.hashBlock := by
  rw [getBestBlock]
  split <;> rfl

/-- `GetCoins` may put an entry into a cache and call `GetCoins` below. -/
theorem getCoins_cache (top : CCoinsViewCache) (base : CoinsStack) (txid : Hash) :
    ∃ top' base', ((cache top base).getCoins txid).2 = cache top' base' ∧
      top'.hashBlock = top.hashBlock ∧ top'.modifier = top.modifier ∧
      (base' = base ∨ base' = (base.getCoins txid).2) := by
  rw [getCoins]
  split
  · exact ⟨top, base, rfl, rfl, rfl, .inl rfl⟩
  · split
    · rename_i _ below isBelow
      exact ⟨top, _, rfl, rfl, rfl, .inr (by rw [isBelow])⟩
    · rename_i _ coins below isBelow
      exact ⟨_, _, rfl, rfl, rfl, .inr (by rw [isBelow])⟩

theorem bestBlock_getCoins (stack : CoinsStack) (txid : Hash) :
    (stack.getCoins txid).2.getBestBlock.1 = stack.getBestBlock.1 := by
  induction stack with
  | db view => rfl
  | cache top base ih =>
      obtain ⟨top', base', same, sameHash, -, rfl | rfl⟩ := getCoins_cache top base txid
      · rw [same, bestBlock_cache, bestBlock_cache, sameHash]
      · rw [same, bestBlock_cache, bestBlock_cache, sameHash, ih]

/-- What reading leaves of a stack. -/
structure Reads (stack next : CoinsStack) : Prop where
  keeps : Keeps stack next
  unmodified : stack.Unmodified → next.Unmodified
  bestBlock : next.getBestBlock.1 = stack.getBestBlock.1
  isCache : stack.IsCache → next.IsCache

theorem reads_getCoins {stack : CoinsStack} (consistent : stack.Consistent) (txid : Hash) :
    Reads stack (stack.getCoins txid).2 := by
  have keeps := (fetches consistent txid).keeps
  have bestBlock := bestBlock_getCoins stack txid
  cases stack with
  | db view => exact ⟨keeps, id, bestBlock, id⟩
  | cache top base =>
      obtain ⟨top', base', same, -, sameModifier, -⟩ := getCoins_cache top base txid
      rw [same] at keeps bestBlock ⊢
      exact ⟨keeps, sameModifier.trans, bestBlock, id⟩

theorem reads_getBestBlock {stack : CoinsStack} (consistent : stack.Consistent) :
    Reads stack stack.getBestBlock.2 := by
  refine ⟨keeps_getBestBlock consistent, fun unmodified => ?_, ?_, fun isCache => ?_⟩
  · cases stack with
    | db view => trivial
    | cache top base =>
        rw [getBestBlock]
        split <;> exact unmodified
  · clear consistent
    induction stack with
    | db view => rfl
    | cache top base ih =>
        rw [getBestBlock]
        split
        · rw [bestBlock_cache]
          split
          · exact ih
          · rfl
        · rename_i isSet
          exact (bestBlock_cache _ _).trans (if_neg isSet)
  · cases stack with
    | db view => exact isCache
    | cache top base =>
        rw [getBestBlock]
        split <;> trivial

theorem Represents.reads {stack next : CoinsStack} {view : CCoinsView}
    (represents : stack.Represents view) (reads : Reads stack next) : next.Represents view :=
  ⟨reads.keeps.consistent, reads.unmodified represents.unmodified,
    fun txid => (reads.keeps.view txid).trans (represents.coins txid),
    reads.bestBlock.trans represents.bestBlock⟩

variable {view below : CCoinsView} {stack : CoinsStack}

theorem Over.represents (atop : Over view below stack) : stack.Represents view := by
  cases atop with
  | intro isTop _ _ => exact isTop

theorem Over.getCoins (atop : Over view below stack) (txid : Hash) :
    Over view below (stack.getCoins txid).2 := by
  cases atop with
  | @intro top base isTop isBase isCache =>
      have isTop' := isTop.reads (reads_getCoins isTop.consistent txid)
      have readsBase := reads_getCoins isBase.consistent txid
      obtain ⟨top', base', same, -, -, rfl | rfl⟩ := getCoins_cache top base txid
      · rw [same] at isTop' ⊢
        exact .intro isTop' isBase isCache
      · rw [same] at isTop' ⊢
        exact .intro isTop' (isBase.reads readsBase) (readsBase.isCache isCache)

theorem Over.getBestBlock (atop : Over view below stack) :
    Over view below stack.getBestBlock.2 := by
  cases atop with
  | intro isTop isBase isCache =>
      have isTop' := isTop.reads (reads_getBestBlock isTop.consistent)
      have readsBase := reads_getBestBlock isBase.consistent
      rw [CoinsStack.getBestBlock] at isTop' ⊢
      split at isTop' <;> rename_i isUnset
      · rw [if_pos isUnset]
        exact .intro isTop' (isBase.reads readsBase) (readsBase.isCache isCache)
      · rw [if_neg isUnset]
        exact .intro isTop isBase isCache

theorem Over.haveInputs (atop : Over view below stack) (inputs : List CTxIn) :
    (stack.haveInputs inputs).1 = (inputs.all fun input =>
        (view.coins input.prevout.hash).isAvailable input.prevout.n) ∧
      Over view below (stack.haveInputs inputs).2 := by
  induction inputs generalizing stack with
  | nil => exact ⟨rfl, atop⟩
  | cons input inputs ih =>
      have answer := (fetches atop.represents.consistent input.prevout.hash).answer
      rw [atop.represents.coins] at answer
      have available : ((stack.getCoins input.prevout.hash).1.any fun coins =>
          coins.isAvailable input.prevout.n) =
          (view.coins input.prevout.hash).isAvailable input.prevout.n := by
        rw [← answer, CCoins.isAvailable, CCoins.vout_settle]
        cases (stack.getCoins input.prevout.hash).1 with
        | none => exact (congrArg Option.isSome (SlotList.get_empty _)).symm
        | some coins => rfl
      rw [CoinsStack.haveInputs, available, List.all_cons]
      cases (view.coins input.prevout.hash).isAvailable input.prevout.n with
      | false => exact ⟨rfl, atop.getCoins _⟩
      | true => exact ih (atop.getCoins _)

theorem insertEntry_base (top : CCoinsViewCache) (base : CoinsStack) (txid : Hash) :
    (insertEntry top base txid).2 = base ∨
      (insertEntry top base txid).2 = (base.getCoins txid).2 := by
  rw [insertEntry]
  split
  · exact .inl rfl
  · split <;> rename_i isBelow <;> exact .inr (by rw [isBelow])

theorem marks_edit {top next : CCoinsViewCache} {txid : Hash} {change : CCoins → CCoins}
    (edited : top.edit txid change = some next) :
    next.modifier = top.modifier ∧ next.hashBlock = top.hashBlock := by
  unfold CCoinsViewCache.edit at edited
  split at edited
  · obtain ⟨entry, -, rfl⟩ := Option.map_eq_some_iff.mp edited
    exact ⟨rfl, rfl⟩
  · cases edited

theorem marks_closeModifier {top next : CCoinsViewCache} (closed : top.closeModifier = some next) :
    next.modifier = none ∧ next.hashBlock = top.hashBlock := by
  unfold CCoinsViewCache.closeModifier at closed
  obtain ⟨txid, -, closed⟩ := Option.bind_eq_some_iff.mp closed
  obtain ⟨entry, -, closed⟩ := Option.bind_eq_some_iff.mp closed
  split at closed
  · dsimp only at closed
    split at closed <;> cases closed <;> exact ⟨rfl, rfl⟩
  · cases closed

/-- A modification writes the coins of the view, up to what pruned coins leave behind. -/
theorem Over.modify (atop : Over view below stack) (txid : Hash) :
    ∃ coins : CCoins, coins.settle = view.coins txid ∧ ∃ next : CCoins → CoinsStack,
      (∀ changed, Over (view.setCoins txid changed) below (next changed)) ∧
      ∀ {Result : Type} (change : CCoins → Option (CCoins × Result)),
        stack.modify change txid =
          (change coins).map fun changed => (next changed.1, changed.2) := by
  cases atop with
  | @intro top base isTop isBase isCache =>
      have noModifier := isTop.consistent.1.hasModifier_eq_false isTop.unmodified
      obtain ⟨entry, base', inserted, dirty, kept⟩ := keeps_insertEntry isTop.consistent txid
      let opened : CCoinsViewCache :=
        { top.setEntry txid entry with hasModifier := true, modifier := some txid }
      have present : opened.cacheCoins txid = some entry := Function.update_self _ _ _
      have performed : (CoinsAction.modifyCoins txid).perform (cache top base) =
          some (cache opened base') := by
        change modifyCoins top base txid = _
        rw [modifyCoins, noModifier, inserted, if_neg Bool.false_ne_true]
        change Option.map _ (if top.hasModifier then none else _) = _
        rw [noModifier, if_neg Bool.false_ne_true]
        rfl
      have isOpened := kept.trans (Keeps.openModifier kept.consistent
        (Function.update_self _ _ _) dirty)
      have isBase' : base'.Represents below ∧ base'.IsCache := by
        have same := insertEntry_base top base txid
        have readsBase := reads_getCoins isBase.consistent txid
        rw [inserted] at same
        rcases same with rfl | rfl
        · exact ⟨isBase, isCache⟩
        · exact ⟨isBase.reads readsBase, readsBase.isCache isCache⟩
      have rounds : ∀ changed, ∃ next edited,
          (CoinsAction.edit txid fun _ => changed).perform (cache opened base') = some edited ∧
          CoinsAction.closeModifier.perform edited = some next ∧
          Over (view.setCoins txid changed) below next := by
        intro changed
        obtain ⟨edited, isEdited, editFits⟩ := @edit_fits opened base' txid (fun _ => changed)
          isOpened.consistent rfl fun _ _ _ => CCoins.equal_iff_settle.mpr rfl
        obtain ⟨sameModifier, sameHash⟩ := marks_edit isEdited
        obtain ⟨closed, isClosed, closeFits⟩ := closeModifier_fits editFits.consistent
          (by rw [sameModifier]; rfl)
        obtain ⟨noneOpen, sameHash'⟩ := marks_closeModifier isClosed
        refine ⟨cache closed base', cache edited base', ?_, ?_,
          .intro ⟨closeFits.consistent, noneOpen, ?_, ?_⟩ isBase'.1 isBase'.2⟩
        · rw [CoinsAction.perform, isEdited]
          rfl
        · rw [CoinsAction.perform, isClosed]
          rfl
        · intro other
          rw [closeFits.view]
          change ((cache edited base').view other).settle = _
          rw [settle_view, editFits.view]
          change (Function.update (cache opened base').view txid changed other).settle = _
          by_cases same : other = txid
          · subst same
            rw [Function.update_self, CCoinsView.coins_setCoins_self]
          · rw [Function.update_of_ne same, CCoinsView.coins_setCoins_of_ne _ _ same, settle_view,
              isOpened.view, isTop.coins]
        · rw [CCoinsView.bestBlock_setCoins, ← isTop.bestBlock, bestBlock_cache, bestBlock_cache,
            isBase'.1.bestBlock, isBase.bestBlock, sameHash', sameHash]
          rfl
      choose next edited isEdited isClosed atopNext using rounds
      refine ⟨entry.coins, ?_, next, atopNext, ?_⟩
      · rw [← isTop.coins, ← isOpened.view, view_of_entry present]
      · intro Result change
        have coins : (cache opened base').modified txid = some entry.coins := by
          rw [modified, present]
          rfl
        simp only [CoinsStack.modify, performed, coins, Option.bind_eq_bind, Option.bind_some]
        cases change entry.coins with
        | none => rfl
        | some changed =>
            simp only [Option.bind_some, isEdited, isClosed, Option.map_some]
            rfl

end Representation

section Simulation

variable {view below : CCoinsView} {stack : CoinsStack}

/-- What is the same for all pruned coins does not look at what they leave behind. -/
theorem apply_settle {Result : Type} (read : CCoins → Result) (value : Result)
    (onPruned : ∀ gone : CCoins, gone.isPruned → read gone = value) (coins : CCoins) :
    read coins.settle = read coins := by
  by_cases pruned : coins.isPruned
  · rw [onPruned coins pruned, onPruned coins.settle (by rw [CCoins.isPruned_settle, pruned])]
  · rw [CCoins.settle_of_not_isPruned pruned]

theorem spend_settle (coins : CCoins) (n : Nat) : coins.settle.spend n = coins.spend n := by
  refine apply_settle (fun coins => coins.spend n) none (fun gone isPruned => ?_) coins
  rw [CCoins.spend, CCoins.isPruned_iff.mp isPruned]
  rfl

/-- Both stop, or the stack answers like the view and the undo data is the same. -/
abbrev Alike (below : CCoinsView) :=
  Option.Rel fun (own : CoinsStack × CTxUndo) (plain : CCoinsView × CTxUndo) =>
    Over plain.1 below own.1 ∧ own.2 = plain.2

theorem alike_spendInputs (atop : Over view below stack) (inputs : List CTxIn) (txundo : CTxUndo) :
    Alike below (inputs.foldlM spendInput (stack, txundo))
      (inputs.foldlM CCoinsView.spendInput (view, txundo)) := by
  induction inputs generalizing stack view txundo with
  | nil => exact .some ⟨atop, rfl⟩
  | cons input inputs ih =>
      obtain ⟨coins, isCoins, next, atopNext, modifies⟩ := atop.modify input.prevout.hash
      rw [List.foldlM_cons, List.foldlM_cons, spendInput, CCoinsView.spendInput, modifies,
        ← isCoins, spend_settle]
      cases coins.spend input.prevout.n with
      | none => exact .none
      | some spent => exact ih (atopNext spent.1) _

variable (isUnspendable : Bytes → Bool) (options : IndexOptions) (pindex : CBlockIndex)

theorem alike_updateCoins (atop : Over view below stack) (tx : CTransaction) (nHeight : Nat) :
    Alike below (stack.updateCoins isUnspendable tx nHeight)
      (view.updateCoins isUnspendable tx nHeight) := by
  have spent := alike_spendInputs atop tx.spendingInputs []
  rw [updateCoins, CCoinsView.updateCoins, CCoinsView.spendInputs]
  generalize tx.spendingInputs.foldlM spendInput (stack, []) = own at spent
  generalize tx.spendingInputs.foldlM CCoinsView.spendInput (view, []) = plain at spent
  cases spent with
  | none => exact .none
  | some related =>
      obtain ⟨coins, -, next, atopNext, modifies⟩ := related.1.modify tx.hash
      simp only [Option.bind_eq_bind, Option.bind_some, modifies, Option.map_some]
      exact .some ⟨atopNext _, related.2⟩

/-- A block goes through on both with the same result, after which the stack answers like the
view if that result is good, or it goes through on neither. -/
def Matches {Result : Type} (isGood : Result → Bool) (below : CCoinsView)
    (own : Option (Option Result × CoinsStack)) (plain : Option (CCoinsView × Result)) : Prop :=
  match plain with
  | some (view, result) => ∃ stack answers, own = some (some result, stack) ∧
      Over answers below stack ∧ (isGood result = true → answers = view)
  | none => ∀ outcome stack, own = some (outcome, stack) →
      outcome = none ∧ ∃ view, Over view below stack

theorem matches_connectTxs (atop : Over view below stack) (vtx : List (CTransaction × Nat))
    (vtxundo : List CTxUndo) (records : IndexRecords) :
    Matches (fun _ => true) below (connectTxs isUnspendable pindex.nHeight vtx vtxundo stack)
      ((vtx.foldlM (connectTx isUnspendable options pindex) ⟨view, vtxundo, records⟩).map
        fun state => (state.view, state.vtxundo)) := by
  induction vtx generalizing stack view vtxundo records with
  | nil => exact ⟨stack, view, rfl, atop, fun _ => rfl⟩
  | cons tx vtx ih =>
      have found : (if tx.1.isCoinBase then (true, stack) else stack.haveInputs tx.1.vin).1 =
            !(!tx.1.isCoinBase && !view.haveInputs tx.1) ∧
          Over view below (if tx.1.isCoinBase then (true, stack)
            else stack.haveInputs tx.1.vin).2 := by
        obtain ⟨answer, atopFound⟩ := atop.haveInputs tx.1.vin
        cases tx.1.isCoinBase with
        | true => exact ⟨rfl, atop⟩
        | false => exact ⟨answer.trans (by simp [CCoinsView.haveInputs]), atopFound⟩
      rw [connectTxs, List.foldlM_cons, connectTx, found.1]
      by_cases missing : (!tx.1.isCoinBase && !view.haveInputs tx.1) = true
      · rw [missing, if_neg (by simp), if_pos rfl]
        rintro outcome stack' ⟨⟩
        exact ⟨rfl, view, found.2⟩
      · rw [if_neg missing, if_pos (by rw [Bool.eq_false_iff.mpr missing]; rfl)]
        have updated := alike_updateCoins isUnspendable found.2 tx.1 pindex.nHeight
        generalize updateCoins isUnspendable tx.1 pindex.nHeight _ = own at updated
        generalize view.updateCoins isUnspendable tx.1 pindex.nHeight = plain at updated
        cases updated with
        | none => rintro outcome stack' ⟨⟩
        | @some own plain related =>
            obtain ⟨atopNext, sameUndo⟩ := related
            obtain ⟨stack', txundo⟩ := own
            obtain ⟨view', txundo'⟩ := plain
            cases sameUndo
            exact ih atopNext _ _

theorem outputsMatch_settle (tx : CTransaction) (coins : CCoins) :
    outputsMatch isUnspendable pindex tx coins.settle =
      outputsMatch isUnspendable pindex tx coins := by
  refine apply_settle (outputsMatch isUnspendable pindex tx)
    (decide (CCoins.clear = (CCoins.fromTx isUnspendable tx pindex.nHeight).settle))
    (fun gone isPruned => ?_) coins
  have none : (gone.clearUnspendable isUnspendable).isPruned := by
    rw [CCoins.isPruned_iff]
    intro n
    rw [get_clearUnspendable, CCoins.isPruned_iff.mp isPruned]
    rfl
  rw [outputsMatch, Bool.eq_iff_iff, CCoins.equal_iff_settle, decide_eq_true_iff]
  split <;> exact Eq.congr_left (CCoins.settle_of_isPruned none)

/-- Coins are restored alike where they are as `DisconnectBlock` expects them. -/
theorem restore_settle (coins : CCoins) (n : Nat) (undo : CTxInUndo) :
    (coins.settle.restore n undo).2 = (coins.restore n undo).2 ∧
      ((coins.restore n undo).2 = true → coins.settle.restore n undo = coins.restore n undo) := by
  by_cases hasHeight : undo.nHeight ≠ 0
  · have same : coins.settle.restore n undo = coins.restore n undo := by
      rw [CCoins.restore, CCoins.restore, if_pos hasHeight, if_pos hasHeight,
        CCoins.isPruned_settle]
    exact ⟨congrArg Prod.snd same, fun _ => same⟩
  · have unclean : ∀ gone : CCoins, gone.isPruned → (gone.restore n undo).2 = false := by
      intro gone isPruned
      rw [CCoins.restore, if_neg hasHeight, isPruned]
      rfl
    refine ⟨apply_settle (fun coins => (coins.restore n undo).2) false unclean coins,
      fun isClean => ?_⟩
    have notPruned : ¬ coins.isPruned := fun pruned =>
      Bool.false_ne_true ((unclean coins pruned).symm.trans isClean)
    rw [CCoins.settle_of_not_isPruned notPruned]

/-- A stack in the loop of `DisconnectBlock`, against the plain state: the same flag, and as long
as it is set the same coins. -/
def Undoes (below : CCoinsView) (own : CoinsStack × Bool) (plain : DisconnectState) : Prop :=
  ∃ answers, Over answers below own.1 ∧ own.2 = plain.fClean ∧
    (plain.fClean = true → answers = plain.view)

theorem undoes_restoreInputs {own : CoinsStack × Bool} {plain : DisconnectState}
    (undoes : Undoes below own plain) (place : TxPlace) (tx : CTransaction)
    (inputs : List ((CTxIn × Nat) × CTxInUndo)) :
    ∃ next, inputs.foldrM restoreInput own = some next ∧
      Undoes below next (inputs.foldr (disconnectInput options place tx) plain) := by
  induction inputs with
  | nil => exact ⟨own, rfl, undoes⟩
  | cons input inputs ih =>
      obtain ⟨⟨stack, fClean⟩, ran, answers, atop, sameFlag, sameView⟩ := ih
      rw [List.foldrM_cons, ran, List.foldr_cons]
      generalize inputs.foldr (disconnectInput options place tx) plain = state at *
      obtain ⟨coins, isCoins, next, atopNext, modifies⟩ := atop.modify input.1.1.prevout.hash
      have restored := restore_settle coins input.1.1.prevout.n input.2
      refine ⟨(next (coins.restore input.1.1.prevout.n input.2).1,
        fClean && (coins.restore input.1.1.prevout.n input.2).2), ?_, _, atopNext _, ?_, ?_⟩
      · simp [restoreInput, modifies]
      · change (fClean && _) = (state.fClean &&
          ((state.view.coins input.1.1.prevout.hash).restore input.1.1.prevout.n input.2).2)
        change fClean = state.fClean at sameFlag
        rw [sameFlag]
        cases isClean : state.fClean with
        | false => rfl
        | true => rw [← sameView isClean, ← isCoins, restored.1]
      · intro isClean
        obtain ⟨wasClean, clean⟩ := Bool.and_eq_true_iff.mp isClean
        change answers.setCoins input.1.1.prevout.hash
            (coins.restore input.1.1.prevout.n input.2).1 =
          state.view.setCoins input.1.1.prevout.hash
            ((state.view.coins input.1.1.prevout.hash).restore input.1.1.prevout.n input.2).1
        change ((state.view.coins input.1.1.prevout.hash).restore input.1.1.prevout.n input.2).2 =
          true at clean
        rw [← sameView wasClean, ← isCoins] at clean ⊢
        rw [restored.2 (restored.1 ▸ clean)]

theorem matches_disconnectTxs (atop : Over view below stack) (vtxundo : List CTxUndo)
    (vtx : List (CTransaction × Nat)) :
    Matches id below (disconnectTxs isUnspendable pindex vtxundo vtx stack)
      ((vtx.foldrM (disconnectTx isUnspendable options pindex vtxundo) ⟨view, true, .none⟩).map
        fun state => (state.view, state.fClean)) := by
  induction vtx with
  | nil => exact ⟨stack, view, rfl, atop, fun _ => rfl⟩
  | cons tx vtx ih =>
      rw [disconnectTxs, List.foldrM_cons]
      generalize disconnectTxs isUnspendable pindex vtxundo vtx stack = own at ih
      generalize vtx.foldrM (disconnectTx isUnspendable options pindex vtxundo) _ = plain at ih
      cases plain with
      | none =>
          rintro outcome stack' isSome
          obtain ⟨⟨outcome', stopped⟩, rfl, isNext⟩ := Option.bind_eq_some_iff.mp isSome
          obtain ⟨rfl, partly⟩ := ih outcome' stopped rfl
          cases isNext
          exact ⟨rfl, partly⟩
      | some state =>
          obtain ⟨stack', answers, rfl, atopNext, sameView⟩ := ih
          obtain ⟨coins, isCoins, next, atopNext', modifies⟩ := atopNext.modify tx.1.hash
          have undoes : Undoes below
              (next .clear, state.fClean && outputsMatch isUnspendable pindex tx.1 coins)
              (disconnectOutputs isUnspendable options ⟨pindex.nHeight, tx.2⟩ tx.1 state) := by
            refine ⟨_, atopNext' .clear, ?_, ?_⟩
            · change _ = (state.fClean &&
                outputsMatch isUnspendable pindex tx.1 (state.view.coins tx.1.hash))
              cases isClean : state.fClean with
              | false => rfl
              | true => rw [← sameView isClean, ← isCoins, outputsMatch_settle]
            · intro isClean
              rw [sameView (Bool.and_eq_true_iff.mp isClean).1]
              rfl
          simp only [Option.bind_eq_bind, Option.bind_some, modifies, Option.map_some]
          rw [disconnectTx]
          generalize disconnectOutputs isUnspendable options _ tx.1 state = removed at undoes
          split
          · obtain ⟨answers', atop', sameFlag, sameView'⟩ := undoes
            exact ⟨_, answers', by rw [← sameFlag], atop', sameView'⟩
          · cases vtxundo[tx.2 - 1]? with
            | none => rintro outcome stack'' ⟨⟩
            | some txundo =>
                dsimp only
                split
                · rintro outcome stack'' ⟨⟩
                  exact ⟨rfl, _, atopNext' .clear⟩
                · obtain ⟨last, ran, answers', atop', sameFlag, sameView'⟩ :=
                    undoes_restoreInputs options undoes ⟨pindex.nHeight, tx.2⟩ tx.1
                      (tx.1.vin.zipIdx.zip txundo)
                  rw [ran]
                  refine ⟨last.1, answers', ?_, atop', sameView'⟩
                  change some (some last.2, last.1) = some (some _, last.1)
                  rw [sameFlag]
                  rfl

end Simulation

section Tip

/-- What happens to the coins of the tip; a block is disconnected with the undo data that is read
for it. -/
inductive TipEvent where
  | connectTip (pindex : CBlockIndex) (block : CBlock)
  | disconnectTip (pindex : CBlockIndex) (block : CBlock) (vtxundo : List CTxUndo)
  | flushStateToDisk

/-- The end of `ConnectTip` and `DisconnectTip`: the new cache is flushed, or it is dropped. -/
inductive Leaves : Bool → CoinsStack → CoinsStack → Prop where
  | flushed {top : CCoinsViewCache} {base next : CoinsStack} {order : List Hash}
      (enumerates : top.cacheCoins.Enumerates order)
      (performed : (CoinsAction.flush order).perform (cache top base) = some next) :
      Leaves true (cache top base) (next.beneath 1)
  | dropped (stack : CoinsStack) : Leaves false stack (stack.beneath 1)

variable (isUnspendable : Bytes → Bool)

/-- A step of the coins of the tip. -/
inductive TipStep : TipEvent → CoinsStack → CoinsStack → Prop where
  | connectTip {pindex : CBlockIndex} {block : CBlock} {tip stack next : CoinsStack}
      {outcome : Option (List CTxUndo)} (isHash : block.hash ≠ 0)
      (ran : connectBlock isUnspendable pindex block (cache .constructed tip) =
        some (outcome, stack)) (leaves : Leaves (outcome.any fun _ => true) stack next) :
      TipStep (.connectTip pindex block) tip next
  | disconnectTip {pindex : CBlockIndex} {block : CBlock} {vtxundo : List CTxUndo}
      {tip stack next : CoinsStack} {outcome : Option Bool} (isHash : pindex.prevHash ≠ 0)
      (ran : disconnectBlock isUnspendable pindex vtxundo block (cache .constructed tip) =
        some (outcome, stack)) (leaves : Leaves (outcome.any id) stack next) :
      TipStep (.disconnectTip pindex block vtxundo) tip next
  | flushStateToDisk {top : CCoinsViewCache} {database : CCoinsViewDB} {next : CoinsStack}
      {order : List Hash} (enumerates : top.cacheCoins.Enumerates order)
      (performed : (CoinsAction.flush order).perform (cache top (db database)) = some next) :
      TipStep .flushStateToDisk (cache top (db database)) next

/-- Steps one after the other. -/
inductive TipRun : List TipEvent → CoinsStack → CoinsStack → Prop where
  | nil (tip : CoinsStack) : TipRun [] tip tip
  | cons {event : TipEvent} {events : List TipEvent} {tip next last : CoinsStack}
      (step : TipStep isUnspendable event tip next) (rest : TipRun events next last) :
      TipRun (event :: events) tip last

/-- The view behind a block: one that does not go through leaves it as it is. -/
def afterBlock {Result : Type} (isGood : Result → Bool) (view : CCoinsView) :
    Option (CCoinsView × Result) → CCoinsView
  | some (after, result) => if isGood result then after else view
  | none => view

/-- An event on a plain view. -/
def TipEvent.onView (options : IndexOptions) (indexes : CBlockTreeDB) (view : CCoinsView) :
    TipEvent → CCoinsView
  | .connectTip pindex block =>
    afterBlock (fun _ => true) view
      ((HdacNode.connectBlock isUnspendable options pindex indexes view block).map Prod.snd)
  | .disconnectTip pindex block vtxundo =>
    afterBlock id view
      ((HdacNode.disconnectBlock isUnspendable options pindex indexes view vtxundo block).map
        Prod.snd)
  | .flushStateToDisk => view

variable {isUnspendable} {view below : CCoinsView} {stack tip next : CoinsStack}
  {top : CCoinsViewCache} {order : List Hash}

theorem Represents.flush_db {database : CCoinsViewDB}
    (represents : (cache top (db database)).Represents view)
    (enumerates : top.cacheCoins.Enumerates order)
    (performed : (CoinsAction.flush order).perform (cache top (db database)) = some next) :
    next.IsCache ∧ next.Represents view := by
  obtain ⟨base', flushed, sameView, fits⟩ := flush_fits represents.consistent
    ⟨represents.unmodified, trivial, enumerates⟩
  cases flushed
  cases performed
  refine ⟨trivial, fits.consistent, represents.unmodified, fun txid =>
    (view_of_noEntry rfl _).trans ((sameView txid).trans (represents.coins txid)), ?_⟩
  rw [← represents.bestBlock, bestBlock_cache, bestBlock_cache]
  by_cases unset : top.hashBlock = 0
  · rw [if_pos unset, if_pos unset]
    exact if_neg (not_not.mpr unset)
  · rw [if_neg unset, if_neg unset]

/-- A cache with a best block is flushed to the tip. -/
theorem Represents.flush_tip {us : CCoinsViewCache} {base : CoinsStack}
    (represents : (cache top (cache us base)).Represents view)
    (unmodified : us.modifier = none) (isSet : top.hashBlock ≠ 0)
    (enumerates : top.cacheCoins.Enumerates order)
    (performed : (CoinsAction.flush order).perform (cache top (cache us base)) = some next) :
    (next.beneath 1).IsCache ∧ (next.beneath 1).Represents view := by
  obtain ⟨base', flushed, sameView, fits⟩ := flush_fits represents.consistent
    ⟨represents.unmodified, unmodified, enumerates⟩
  cases performed.symm.trans flushed
  obtain ⟨written, isWritten, isNext⟩ := Option.map_eq_some_iff.mp flushed
  cases isNext
  obtain ⟨us', isUs, rfl⟩ := Option.map_eq_some_iff.mp isWritten
  rw [CCoinsViewCache.batchWrite] at isUs
  split at isUs
  · cases isUs
  · obtain ⟨entries, -, rfl⟩ := Option.map_eq_some_iff.mp isUs
    refine ⟨trivial, fits.consistent.2, unmodified,
      fun txid => (sameView txid).trans (represents.coins txid), ?_⟩
    change (cache _ base).getBestBlock.1 = _
    rw [← represents.bestBlock, bestBlock_cache, bestBlock_cache, if_neg isSet, if_neg isSet]

theorem over_constructed (represents : stack.Represents view) (isCache : stack.IsCache) :
    Over view view (cache .constructed stack) :=
  .intro ⟨⟨⟨by rintro _ _ ⟨⟩, rfl, by rintro _ ⟨⟩⟩, represents.consistent⟩, rfl,
    fun txid => (view_of_noEntry rfl _).trans (represents.coins txid),
    (bestBlock_cache _ _).trans ((if_pos rfl).trans represents.bestBlock)⟩ represents isCache

/-- A block that goes through leaves its coins in the cache of the tip, and any other block what
was there. -/
theorem Matches.leaves {Result : Type} {isGood : Result → Bool}
    {own : Option (Option Result × CoinsStack)} {plain : Option (CCoinsView × Result)}
    (ran : Matches isGood view own plain) {hash : Hash} (isHash : hash ≠ 0)
    {outcome : Option Result} (isOwn : own.map (setBest hash) = some (outcome, stack))
    (leaves : Leaves (outcome.any isGood) stack next) :
    next.IsCache ∧ next.Represents (afterBlock isGood view
      (plain.map fun state => (state.1.setBestBlock hash, state.2))) := by
  obtain ⟨⟨outcome', stopped⟩, rfl, isNext⟩ := Option.map_eq_some_iff.mp isOwn
  cases plain with
  | none =>
      obtain ⟨rfl, answers, atop⟩ := ran outcome' stopped rfl
      cases isNext
      cases leaves
      cases atop with
      | intro _ isBase isCache => exact ⟨isCache, isBase⟩
  | some plain =>
      obtain ⟨stopped', answers, same, atop, sameView⟩ := ran
      cases same
      cases atop with
      | @intro top base isTop isBase isCache =>
          cases isNext
          cases isResult : isGood plain.2 with
          | false =>
              rw [Option.any_some, isResult] at leaves
              cases leaves
              rw [Option.map_some, afterBlock, isResult, if_neg Bool.false_ne_true]
              exact ⟨isCache, isBase⟩
          | true =>
              rw [Option.any_some, isResult] at leaves
              rw [Option.map_some, afterBlock, if_pos isResult, ← sameView isResult]
              obtain ⟨⟨fits, baseConsistent⟩, unmodified, coins, -⟩ := isTop
              have isBest : (cache { top with hashBlock := hash } base).Represents
                  (answers.setBestBlock hash) :=
                ⟨⟨⟨fits.entries, fits.hasModifier, fits.modified⟩, baseConsistent⟩, unmodified,
                  fun txid => (view_congr rfl fun _ => rfl).trans (coins txid),
                  (bestBlock_cache _ _).trans (if_neg isHash)⟩
              cases leaves with
              | flushed enumerates performed =>
                  match base, isCache with
                  | cache us base, _ =>
                      exact isBest.flush_tip isBase.unmodified isHash enumerates performed

/-- A step does to the cache of the tip what the event does to the plain view. -/
theorem TipStep.represents {event : TipEvent} (step : TipStep isUnspendable event tip next)
    (options : IndexOptions) (indexes : CBlockTreeDB) (isCache : tip.IsCache)
    (represents : tip.Represents view) :
    next.IsCache ∧ next.Represents (event.onView isUnspendable options indexes view) := by
  have atop := over_constructed represents isCache
  cases step with
  | @connectTip pindex block _ stack _ outcome isHash ran leaves =>
      rw [connectBlock] at ran
      rw [TipEvent.onView, HdacNode.connectBlock]
      split at ran
      · cases ran
      · rename_i onTop
        rw [atop.represents.bestBlock] at onTop
        rw [if_neg onTop, Option.map_map]
        have left := (matches_connectTxs isUnspendable options pindex atop.getBestBlock
          block.vtx.zipIdx [] .none).leaves isHash ran leaves
        rw [Option.map_map] at left
        exact left
  | @disconnectTip pindex block vtxundo _ stack _ outcome isHash ran leaves =>
      rw [disconnectBlock] at ran
      rw [TipEvent.onView, HdacNode.disconnectBlock]
      split at ran
      · cases ran
      · rename_i onTop
        rw [atop.represents.bestBlock] at onTop
        split at ran
        · rename_i unfit
          rw [if_pos (.inr unfit)]
          cases ran
          cases leaves
          cases atop.getBestBlock with
          | intro _ isBase isCache => exact ⟨isCache, isBase⟩
        · rename_i fits
          rw [if_neg (not_or.mpr ⟨onTop, fits⟩), Option.map_map]
          have left := (matches_disconnectTxs isUnspendable options pindex atop.getBestBlock vtxundo
            block.vtx.zipIdx).leaves isHash ran leaves
          rw [Option.map_map] at left
          exact left
  | flushStateToDisk enumerates performed => exact represents.flush_db enumerates performed

theorem TipRun.represents {events : List TipEvent} (run : TipRun isUnspendable events tip next)
    (options : IndexOptions) (indexes : CBlockTreeDB) (isCache : tip.IsCache)
    (represents : tip.Represents view) :
    next.IsCache ∧
      next.Represents (events.foldl (TipEvent.onView isUnspendable options indexes) view) := by
  induction run generalizing view with
  | nil tip => exact ⟨isCache, represents⟩
  | cons step rest ih =>
      obtain ⟨isCache', represents'⟩ := step.represents options indexes isCache represents
      exact ih isCache' represents'

/-- In every run over a new cache on a database the cache of the tip answers like the plain view,
and a block that can be connected to the view goes through with the same undo data. -/
theorem tipRun_answers (isUnspendable : Bytes → Bool) (options : IndexOptions)
    (indexes : CBlockTreeDB) (database : CCoinsViewDB) (events : List TipEvent) (tip : CoinsStack)
    (run : TipRun isUnspendable events (constructed database 1) tip) :
    let view := events.foldl (TipEvent.onView isUnspendable options indexes)
      (CoinsAction.asView (constructed database 1) database.bestBlock)
    (∀ txid, ((tip.getCoins txid).1.getD .clear).equal (view.coins txid)) ∧
      tip.getBestBlock.1 = view.bestBlock ∧
      ∀ pindex block next,
        HdacNode.connectBlock isUnspendable options pindex indexes view block = some next →
        ∃ stack, connectBlock isUnspendable pindex block (cache .constructed tip) =
          some (some next.2.2, stack) := by
  intro view
  have isStart : (constructed database 1).Represents
      (CoinsAction.asView (constructed database 1) database.bestBlock) :=
    ⟨consistent_constructed database 1, rfl, fun _ => rfl, rfl⟩
  obtain ⟨isCache, represents⟩ := run.represents options indexes trivial isStart
  refine ⟨fun txid => ?_, represents.bestBlock, ?_⟩
  · rw [CCoins.equal_iff_settle, (fetches represents.consistent txid).answer, represents.coins,
      CCoins.settle_of_settled (view.settled txid)]
  · intro pindex block next connected
    have atop := over_constructed represents isCache
    rw [HdacNode.connectBlock] at connected
    split at connected
    · cases connected
    · rename_i onTop
      obtain ⟨state, ran, rfl⟩ := Option.map_eq_some_iff.mp connected
      have loops := matches_connectTxs isUnspendable options pindex atop.getBestBlock
        block.vtx.zipIdx [] .none
      rw [ran] at loops
      obtain ⟨stack, answers, isOwn, atop', -⟩ := loops
      rw [connectBlock, atop.represents.bestBlock, if_neg onTop, isOwn]
      cases atop' with
      | intro _ _ _ => exact ⟨_, rfl⟩

/-- A block behind `repeatedCoinbaseBlock` that spends its coinbase. -/
def respendingBlock : CBlock where
  hash := 4
  nTime := 0
  coinbase := { repeatedCoinbase with hash := 8 }
  txs := [⟨9, 1, [⟨⟨7, 0⟩, []⟩], [⟨5, [0x51]⟩]⟩]
  isCoinBase := rfl
  othersAreNot := by decide

/-- A block is connected, the tip is flushed, and a block that spends the coinbase is connected
and disconnected. -/
def respendingEvents : List TipEvent :=
  [.connectTip ⟨2, 2⟩ repeatedCoinbaseBlock, .flushStateToDisk,
    .connectTip ⟨3, 3⟩ respendingBlock,
    .disconnectTip ⟨3, 3⟩ respendingBlock [[⟨⟨5, [0x51]⟩, true, 3, 1⟩]]]

/-- The cache has the coinbase back behind these events. -/
theorem tipRun_answers_coinbase :
    ∃ tip, TipRun (fun _ => false) respendingEvents (constructed ⟨fun _ => none, 2⟩ 1) tip ∧
      ((tip.getCoins 7).1.getD .clear).equal
        (CCoins.fromTx (fun _ => false) repeatedCoinbase 3) ∧ tip.getBestBlock.1 = 3 := by
  have enumerates : ∀ {mapCoins : CCoinsMap} (order : List Hash), order.Nodup →
      (∀ txid ∈ order, (mapCoins txid).isSome) →
      (∀ txid, txid ∉ order → mapCoins txid = none) → mapCoins.Enumerates order := by
    refine fun order nodup present absent => ⟨nodup, fun txid => ⟨present txid, fun among => ?_⟩⟩
    by_contra outside
    rw [absent txid outside] at among
    cases among
  have run : ∃ tip, TipRun (fun _ => false) respendingEvents
      (constructed ⟨fun _ => none, 2⟩ 1) tip := by
    refine ⟨_, .cons (.connectTip (by decide) rfl
        (.flushed (enumerates [7] (by decide) (by simp; rfl) ?_) rfl))
      (.cons (.flushStateToDisk (enumerates [7] (by decide) (by simp) ?_) rfl)
        (.cons (.connectTip (by decide) rfl (.flushed
            (enumerates [7, 8, 9] (by decide) (by simp; exact ⟨rfl, rfl, rfl⟩) ?_) rfl))
          (.cons (.disconnectTip (by decide) rfl (.flushed
              (enumerates [7, 8, 9] (by decide) (by simp; exact ⟨rfl, rfl, rfl⟩) ?_) rfl))
            (.nil _))))⟩
    all_goals
      intro txid different
      simp [CCoinsViewCache.setEntry, CCoinsViewCache.constructed, repeatedCoinbaseBlock,
        respendingBlock, repeatedCoinbase] at different ⊢
      simp [different, Function.update]
  obtain ⟨tip, run⟩ := run
  have answers := tipRun_answers (fun _ => false) ⟨false, false, false⟩ ⟨∅, ∅, ∅, ∅, ∅⟩ _ _ _ run
  exact ⟨tip, run, answers.1 7, answers.2.1⟩

end Tip

end CoinsStack

end HdacNode
