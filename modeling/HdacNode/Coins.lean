import HdacNode.SlotList
import HdacNode.Transactions

/-!
# Coins

`CCoins` holds the outputs of a transaction that are not spent yet, with the height,
the version and the coinbase flag of the transaction.  Spending an output yields undo
data; the flags travel with the undo data of the last output only.  Outputs that are
spent or unspendable are empty slots.
-/

namespace HdacNode

/-- `CCoins`. -/
@[ext]
structure CCoins where
  fCoinBase : Bool
  vout : SlotList CTxOut
  nHeight : Nat
  nVersion : Int
  deriving DecidableEq

/-- `CTxInUndo`. -/
structure CTxInUndo where
  txout : CTxOut
  fCoinBase : Bool
  nHeight : Nat
  nVersion : Int
  deriving DecidableEq

/-- `CTxUndo`: the undo data of the inputs of a transaction. -/
abbrev CTxUndo := List CTxInUndo

namespace CCoins

/-- `CCoins::Clear`. -/
def clear : CCoins := ⟨false, .empty, 0, 0⟩

/-- `CCoins::IsPruned`. -/
def isPruned (coins : CCoins) : Bool := coins.vout = .empty

/-- `CCoins::IsAvailable`. -/
def isAvailable (coins : CCoins) (n : Nat) : Bool := (coins.vout.get n).isSome

/-- `CCoins::operator==`: pruned coins are equal. -/
def equal (first second : CCoins) : Bool :=
  (first.isPruned ∧ second.isPruned) ∨ first = second

/-- What remains of coins behind a modification: pruned coins are dropped. -/
def settle (coins : CCoins) : CCoins := if coins.isPruned then clear else coins

theorem settle_of_isPruned {coins : CCoins} (pruned : coins.isPruned) : coins.settle = clear :=
  if_pos pruned

/-- `CCoins::Spend`. -/
def spend (coins : CCoins) (n : Nat) : Option (CCoins × CTxInUndo) :=
  (coins.vout.get n).map fun txout =>
    let spent := { coins with vout := coins.vout.clearAt n }
    (spent,
      if spent.isPruned then ⟨txout, coins.fCoinBase, coins.nHeight, coins.nVersion⟩
      else ⟨txout, false, 0, 0⟩)

/-- What `DisconnectBlock` does to the coins of an input, and whether they are as
it expects them. -/
def restore (coins : CCoins) (n : Nat) (undo : CTxInUndo) : CCoins × Bool :=
  let (coins, fClean) :=
    if undo.nHeight ≠ 0 then
      ({ fCoinBase := undo.fCoinBase, vout := .empty, nHeight := undo.nHeight
         nVersion := undo.nVersion : CCoins }, coins.isPruned)
    else (coins, !coins.isPruned)
  ({ coins with vout := coins.vout.fill n undo.txout }, fClean && !coins.isAvailable n)

section FromTx

variable (isUnspendable : Bytes → Bool)

/-- The slot of an output: null and unspendable outputs have none. -/
def slotOf (out : CTxOut) : Option CTxOut :=
  if out.isNull || isUnspendable out.scriptPubKey then none else some out

/-- `CCoins::FromTx`. -/
def fromTx (tx : CTransaction) (nHeight : Nat) : CCoins where
  fCoinBase := tx.isCoinBase
  vout := .ofSlots (tx.vout.map (slotOf isUnspendable))
  nHeight := nHeight
  nVersion := tx.nVersion

/-- `CCoins::ClearUnspendable`. -/
def clearUnspendable (coins : CCoins) : CCoins :=
  { coins with vout := .ofSlots (coins.vout.slots.map fun slot => slot.bind (slotOf isUnspendable)) }

end FromTx

/-- Coins as they are kept: without outputs they are clear. -/
def Settled (coins : CCoins) : Prop := coins.isPruned → coins = clear

theorem settled_settle (coins : CCoins) : coins.settle.Settled := by
  unfold settle Settled
  by_cases pruned : coins.isPruned
  · rw [if_pos pruned]
    exact fun _ => rfl
  · rw [if_neg pruned]
    exact fun isPruned => absurd isPruned pruned

theorem settle_of_settled {coins : CCoins} (settled : coins.Settled) :
    coins.settle = coins := by
  unfold settle
  split
  · rename_i pruned
    exact (settled pruned).symm
  · rfl

theorem isPruned_iff {coins : CCoins} :
    coins.isPruned ↔ ∀ n, coins.vout.get n = none := by
  unfold isPruned
  rw [decide_eq_true_iff, SlotList.eq_empty_iff]

theorem vout_settle (coins : CCoins) : coins.settle.vout = coins.vout := by
  unfold settle
  split
  · rename_i pruned
    exact (of_decide_eq_true pruned).symm
  · rfl

theorem isPruned_settle (coins : CCoins) : coins.settle.isPruned = coins.isPruned := by
  unfold isPruned
  rw [vout_settle]

end CCoins

/-- `CCoinsView` as the coins it answers with; a transaction that it does not know
has clear coins. -/
structure CCoinsView where
  coins : Hash → CCoins
  bestBlock : Hash
  settled : ∀ hash, (coins hash).Settled

namespace CCoinsView

/-- `GetOutputFor`. -/
def getOutputFor (view : CCoinsView) (outPoint : COutPoint) : Option CTxOut :=
  (view.coins outPoint.hash).vout.get outPoint.n

/-- `HaveInputs`. -/
def haveInputs (view : CCoinsView) (tx : CTransaction) : Bool :=
  tx.vin.all fun input => (view.coins input.prevout.hash).isAvailable input.prevout.n

/-- Write the coins that `ModifyCoins` handed out back. -/
def setCoins (view : CCoinsView) (hash : Hash) (coins : CCoins) : CCoinsView where
  coins := Function.update view.coins hash coins.settle
  bestBlock := view.bestBlock
  settled := by
    intro other
    by_cases same : other = hash
    · subst same
      rw [Function.update_self]
      exact coins.settled_settle
    · rw [Function.update_of_ne same]
      exact view.settled other

/-- `SetBestBlock`. -/
def setBestBlock (view : CCoinsView) (hash : Hash) : CCoinsView :=
  { view with bestBlock := hash }

/-- An input in the loop of `UpdateCoins`. -/
def spendInput (state : CCoinsView × CTxUndo) (input : CTxIn) : Option (CCoinsView × CTxUndo) :=
  ((state.1.coins input.prevout.hash).spend input.prevout.n).map fun (coins, undo) =>
    (state.1.setCoins input.prevout.hash coins, state.2 ++ [undo])

/-- The first part of `UpdateCoins`: mark the inputs spent. -/
def spendInputs (view : CCoinsView) (tx : CTransaction) : Option (CCoinsView × CTxUndo) :=
  tx.spendingInputs.foldlM spendInput (view, [])

/-- `UpdateCoins`. -/
def updateCoins (isUnspendable : Bytes → Bool) (view : CCoinsView) (tx : CTransaction)
    (nHeight : Nat) : Option (CCoinsView × CTxUndo) :=
  (view.spendInputs tx).map fun (view, undo) =>
    (view.setCoins tx.hash (CCoins.fromTx isUnspendable tx nHeight), undo)

@[simp]
theorem coins_setCoins_self (view : CCoinsView) (hash : Hash) (coins : CCoins) :
    (view.setCoins hash coins).coins hash = coins.settle :=
  Function.update_self _ _ _

theorem coins_setCoins_of_ne (view : CCoinsView) {hash other : Hash} (coins : CCoins)
    (different : other ≠ hash) : (view.setCoins hash coins).coins other = view.coins other :=
  Function.update_of_ne different _ _

@[simp]
theorem bestBlock_setCoins (view : CCoinsView) (hash : Hash) (coins : CCoins) :
    (view.setCoins hash coins).bestBlock = view.bestBlock :=
  rfl

/-- A view is determined by its coins and its best block. -/
@[ext]
theorem ext_coins {first second : CCoinsView}
    (sameCoins : ∀ hash, first.coins hash = second.coins hash)
    (sameBlock : first.bestBlock = second.bestBlock) : first = second := by
  have same : first.coins = second.coins := funext sameCoins
  cases first
  cases second
  cases same
  cases sameBlock
  rfl

end CCoinsView

end HdacNode
