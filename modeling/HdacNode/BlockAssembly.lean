import HdacNode.AcceptTransaction
import HdacNode.Mempool
import HdacNode.PriorityQueue
import HdacNode.ScriptInterpreter

/-!
# Assembling a block

`CreateNewBlock` goes over the hash list of the memory pool, puts the transactions into a heap by
fee and priority, and takes them out again as long as they fit into the block.  A transaction that
is taken out before a parent waits for the parent.
-/

namespace HdacNode

open AdvancingLoop WriteBatch

section SigOps

open ScriptInterpreter (Instruction instructions)

def opCheckSigVerify : Nat := 0xad
def opCheckMultisig : Nat := 0xae
def opCheckMultisigVerify : Nat := 0xaf
def opInvalidOpcode : Nat := 0xff

/-- What an opcode behind another one adds to the count of signature operations. -/
def sigOpsOf (fAccurate : Bool) (lastOpcode opcode : Nat) : Nat :=
  if opcode = opCheckSig.toNat ∨ opcode = opCheckSigVerify then 1
  else if opcode = opCheckMultisig ∨ opcode = opCheckMultisigVerify then
    if fAccurate ∧ ScriptInterpreter.op1 ≤ lastOpcode ∧ lastOpcode ≤ ScriptInterpreter.op16 then
      lastOpcode - (ScriptInterpreter.op1 - 1)
    else 20
  else 0

/-- The loop of `CScript::GetSigOpCount`. -/
def countSigOps (fAccurate : Bool) : Nat → List Instruction → Nat
  | _, [] => 0
  | _, .unreadable :: _ => 0
  | lastOpcode, .op opcode _ _ :: rest =>
    sigOpsOf fAccurate lastOpcode opcode.toNat + countSigOps fAccurate opcode.toNat rest

/-- `CScript::GetSigOpCount`. -/
def getSigOpCount (fAccurate : Bool) (script : Bytes) : Nat :=
  countSigOps fAccurate opInvalidOpcode (instructions script)

/-- The last item that a script pushes, if it can be read and only pushes. -/
def lastPushed : Bytes → List Instruction → Option Bytes
  | data, [] => some data
  | _, .unreadable :: _ => none
  | _, .op opcode data _ :: rest =>
    if mcDctScriptOp16 < opcode.toNat then none else lastPushed data rest

/-- `CScript::GetSigOpCount` for an input script, when the previous output pays to a script
hash. -/
def getRedeemSigOpCount (scriptSig : Bytes) : Nat :=
  match lastPushed [] (instructions scriptSig) with
  | none => 0
  | some subscript => getSigOpCount true subscript

/-- `GetLegacySigOpCount`. -/
def getLegacySigOpCount (tx : CTransaction) : Nat :=
  (tx.vin.map fun txin => getSigOpCount false txin.scriptSig).sum +
    (tx.vout.map fun txout => getSigOpCount false txout.scriptPubKey).sum

/-- What an input adds to the count of `GetP2SHSigOpCount`. -/
def inputSigOps (view : CCoinsView) (txin : CTxIn) : Nat :=
  match view.getOutputFor txin.prevout with
  | none => 0
  | some prevout =>
    if CScript.isPayToScriptHash prevout.scriptPubKey then getRedeemSigOpCount txin.scriptSig
    else 0

/-- `GetP2SHSigOpCount`. -/
def getP2SHSigOpCount (tx : CTransaction) (view : CCoinsView) : Nat :=
  if tx.isCoinBase then 0 else (tx.vin.map (inputSigOps view)).sum

end SigOps

/-- The parameters of the chain and of the node for a new block: the limits, the size of a
transaction, the banned transactions, `IsFinalTx` for the height of the block, and what
`CScript::IsUnspendable` says. -/
structure MinerParams where
  blockMaxSizeArg : Nat
  maxBlockSize : Nat
  maxBlockSigops : Nat
  coinbaseMaturity : Nat
  maxMoney : Int
  nHeight : Nat
  txSize : CTransaction → Nat
  isTxBanned : Hash → Bool
  isFinalTx : CTransaction → Bool
  isUnspendable : Bytes → Bool

namespace MinerParams

variable (params : MinerParams)

/-- `nBlockMaxSize`, between 1K and 1K below the largest block. -/
def nBlockMaxSize : Nat := max 1000 (min (params.maxBlockSize - 1000) params.blockMaxSizeArg)

section Inputs

/-- `MoneyRange`. -/
def moneyRange (nValue : Int) : Bool := 0 ≤ nValue ∧ nValue ≤ params.maxMoney

/-- `CTransaction::GetValueOut`. -/
def getValueOut (tx : CTransaction) : Int := (tx.vout.map CTxOut.nValue).sum

/-- The value of a previous output. -/
def inputValue (view : CCoinsView) (txin : CTxIn) : Int :=
  ((view.getOutputFor txin.prevout).map CTxOut.nValue).getD 0

/-- `CCoinsViewCache::GetValueIn`. -/
def getValueIn (view : CCoinsView) (tx : CTransaction) : Int :=
  if tx.isCoinBase then 0 else (tx.vin.map (inputValue view)).sum

/-- A round of the loop in `CheckInputs`, without the checks of scripts: the sum of the inputs. -/
def checkInput (view : CCoinsView) (nValueIn : Int) (txin : CTxIn) : Option Int :=
  let coins := view.coins txin.prevout.hash
  if coins.fCoinBase ∧ (params.nHeight : Int) - coins.nHeight < params.coinbaseMaturity then none
  else
    let nValue := inputValue view txin
    if ¬ params.moneyRange nValue ∨ ¬ params.moneyRange (nValueIn + nValue) then none
    else some (nValueIn + nValue)

/-- `CheckInputs` without the checks of scripts. -/
def checkInputs (tx : CTransaction) (view : CCoinsView) : Bool :=
  tx.isCoinBase ||
    (view.haveInputs tx &&
      (tx.vin.foldlM (params.checkInput view) 0).any fun nValueIn =>
        getValueOut tx ≤ nValueIn && params.moneyRange (nValueIn - getValueOut tx))

end Inputs

end MinerParams

/-- `CCoinsViewCache::HaveCoins`. -/
def CCoinsView.haveCoins (view : CCoinsView) (hash : Hash) : Bool :=
  !(view.coins hash).isPruned

/-- `TxPriority`.  The priority, a double, is given by its place in the order. -/
structure TxPriority where
  dPriority : Int
  tFees : Int
  tx : CTransaction
  deriving DecidableEq, Repr

/-- `TxPriorityCompare`, by fee. -/
def TxPriority.less (a b : TxPriority) : Bool :=
  if a.tFees = b.tFees then a.dPriority < b.dPriority else a.tFees < b.tFees

namespace TxPriority

theorem less_asymm (a b : TxPriority) (less : a.less b = true) : b.less a = false := by
  unfold TxPriority.less at less ⊢
  split at less
  · rename_i same
    rw [if_pos same.symm]
    have smaller := of_decide_eq_true less
    exact decide_eq_false (by omega)
  · rename_i different
    rw [if_neg (Ne.symm different)]
    have smaller := of_decide_eq_true less
    exact decide_eq_false (by omega)

theorem less_trans (a b c : TxPriority) (first : a.less b = true) (second : b.less c = true) :
    a.less c = true := by
  unfold TxPriority.less at first second ⊢
  split at first <;> split at second <;> split
  all_goals
    have first := of_decide_eq_true first
    have second := of_decide_eq_true second
    exact decide_eq_true (by omega)

/-- The heap as a list, of which the first greatest entry is popped. -/
def listQueue : PriorityQueue TxPriority TxPriority.less := .ofLists less_asymm less_trans

end TxPriority

/-- `COrphan`. -/
structure COrphan where
  tx : CTransaction
  setDependsOn : List Hash
  tFee : Int
  dPriority : Int
  deriving DecidableEq, Repr

/-- The orphans in the order of their creation, where a freed one leaves an empty place, and the
pointers to them by the hash that they depend on. -/
structure Orphans where
  vOrphan : List (Option COrphan)
  mapDependers : List (Hash × Nat)
  deriving DecidableEq, Repr

namespace Orphans

/-- A new orphan, which depends on nothing yet. -/
def create (orphans : Orphans) (tx : CTransaction) : Orphans :=
  { orphans with vOrphan := orphans.vOrphan ++ [some ⟨tx, [], 0, 0⟩] }

/-- Change an orphan through a pointer to it. -/
def modify (orphans : Orphans) (porphan : Nat) (change : COrphan → COrphan) : Orphans :=
  { orphans with vOrphan := orphans.vOrphan.modify porphan (Option.map change) }

/-- Let an orphan depend on a hash. -/
def dependOn (orphans : Orphans) (porphan : Nat) (hash : Hash) : Orphans :=
  { orphans.modify porphan fun orphan =>
      { orphan with setDependsOn := orphan.setDependsOn.insert hash } with
    mapDependers := orphans.mapDependers ++ [(hash, porphan)] }

/-- `vOrphan.pop_back`: the pointers to the orphan stay. -/
def popBack (orphans : Orphans) : Orphans :=
  { orphans with vOrphan := orphans.vOrphan.dropLast ++ [none] }

/-- The pointers to the orphans that depend on a hash. -/
def dependers (orphans : Orphans) (hash : Hash) : List Nat :=
  (orphans.mapDependers.filter fun entry => entry.1 = hash).map Prod.snd

end Orphans

namespace MinerParams

variable (params : MinerParams) (pool : CTxMemPool)

/-- What `ApplyDeltas` adds to a priority and a fee. -/
abbrev Deltas := Hash → Int × Int

/-- The entry of a transaction in the heap. -/
def entryOf (deltas : Deltas) (tx : CTransaction) : TxPriority :=
  ⟨(deltas tx.hash).1, (deltas tx.hash).2, tx⟩

section Collecting

/-- The variables of the loop over the hash list. -/
structure Collected where
  vecPriority : List TxPriority
  orphans : Orphans
  setAdded : List Hash
  fPreservedMempoolOrder : Bool
  deriving DecidableEq, Repr

/-- The loop over the inputs of a transaction: the orphans, the orphan of the transaction, and
whether an input is missing. -/
def collectInputs (view : CCoinsView) (setAdded : List Hash) (tx : CTransaction) :
    List CTxIn → Orphans → Option Nat → Orphans × Option Nat × Bool
  | [], orphans, porphan => (orphans, porphan, false)
  | txin :: vin, orphans, porphan =>
    if view.haveCoins txin.prevout.hash then
      collectInputs view setAdded tx vin orphans porphan
    else if pool.exist txin.prevout.hash = false then
      (if porphan.isSome then orphans.popBack else orphans, porphan, true)
    else if txin.prevout.hash ∈ setAdded then
      collectInputs view setAdded tx vin orphans porphan
    else
      let created := if porphan.isSome then orphans else orphans.create tx
      let place := porphan.getD orphans.vOrphan.length
      collectInputs view setAdded tx vin (created.dependOn place txin.prevout.hash) (some place)

/-- A round of the loop over the hash list. -/
def collectTx (view : CCoinsView) (deltas : Deltas) (st : Collected) (hash : Hash) : Collected :=
  match get pool.mapTx hash with
  | none => { st with fPreservedMempoolOrder := false }
  | some entry =>
    let tx := entry.tx
    if params.isTxBanned hash ∨ tx.isCoinBase ∨ ¬ params.isFinalTx tx then
      { st with fPreservedMempoolOrder := false }
    else
      match collectInputs pool view st.setAdded tx tx.vin st.orphans none with
      | (orphans, _, true) => { st with orphans, fPreservedMempoolOrder := false }
      | (orphans, some porphan, false) =>
        { st with
          orphans := orphans.modify porphan fun orphan =>
            { orphan with dPriority := (deltas hash).1, tFee := (deltas hash).2 }
          fPreservedMempoolOrder := false }
      | (orphans, none, false) =>
        { st with
          orphans
          setAdded := tx.hash :: st.setAdded
          vecPriority := st.vecPriority ++ [⟨(deltas hash).1, (deltas hash).2, tx⟩] }

/-- The loop over the hash list. -/
def collect (view : CCoinsView) (deltas : Deltas) (rows : List Hash) : Collected :=
  rows.foldl (collectTx params pool view deltas) ⟨[], ⟨[], []⟩, [], true⟩

end Collecting

section Selecting

variable (queue : PriorityQueue TxPriority TxPriority.less)

/-- What the block has so far. -/
structure BlockSoFar where
  view : CCoinsView
  vtx : List CTransaction
  vTxFees : List Int
  vTxSigOps : List Nat
  nBlockSize : Nat
  nBlockSigOps : Nat

/-- The variables of the loop that takes transactions out of the heap. -/
structure Selecting extends BlockSoFar where
  vecPriority : queue.Heap
  orphans : Orphans
  addedBlockTx : List Hash
  fPreservedMempoolOrder : Bool

/-- The checks in front of the inputs: size and signature operations. -/
def hasRoom (block : BlockSoFar) (tx : CTransaction) : Bool :=
  block.nBlockSize + params.txSize tx < params.nBlockMaxSize ∧
    block.nBlockSigOps + getLegacySigOpCount tx < params.maxBlockSigops

/-- The checks behind the inputs: all signature operations, and `CheckInputs` when the order of
the pool was not kept. -/
def passesChecks (block : BlockSoFar) (fPreservedMempoolOrder : Bool) (tx : CTransaction) : Bool :=
  block.nBlockSigOps + (getLegacySigOpCount tx + getP2SHSigOpCount tx block.view) <
      params.maxBlockSigops ∧
    (fPreservedMempoolOrder ∨ params.checkInputs tx block.view)

/-- Put a transaction into the block.  Spending an output that is spent already is a fault. -/
def BlockSoFar.put (params : MinerParams) (block : BlockSoFar) (tx : CTransaction) :
    Option BlockSoFar :=
  (block.view.updateCoins params.isUnspendable tx params.nHeight).map fun updated =>
    let nTxSigOps := getLegacySigOpCount tx + getP2SHSigOpCount tx block.view
    { view := updated.1
      vtx := block.vtx ++ [tx]
      vTxFees := block.vTxFees ++ [getValueIn block.view tx - getValueOut tx]
      vTxSigOps := block.vTxSigOps ++ [nTxSigOps]
      nBlockSize := block.nBlockSize + params.txSize tx
      nBlockSigOps := block.nBlockSigOps + nTxSigOps }

variable {queue}

/-- A transaction without its inputs waits for the first missing one, unless that one is in the
block. -/
def postpone (st : Selecting queue) (entry : TxPriority) : Selecting queue :=
  match entry.tx.vin.find? fun txin =>
      !st.view.haveCoins txin.prevout.hash && !(txin.prevout.hash ∈ st.addedBlockTx) with
  | none => st
  | some txin =>
    let place := st.orphans.vOrphan.length
    { st with
      orphans := ((st.orphans.create entry.tx).dependOn place txin.prevout.hash).modify place
        fun orphan => { orphan with dPriority := entry.dPriority, tFee := entry.tFees }
      fPreservedMempoolOrder := false }

/-- A round of the loop over the orphans that depend on a selected transaction.  A pointer to a
freed orphan is a fault. -/
def wake (hash : Hash) (st : Selecting queue) (porphan : Nat) : Option (Selecting queue) :=
  match st.orphans.vOrphan[porphan]?.join with
  | none => none
  | some orphan =>
    if orphan.setDependsOn = [] then some st
    else
      let left := orphan.setDependsOn.erase hash
      let orphans := st.orphans.modify porphan fun orphan => { orphan with setDependsOn := left }
      if left = [] then
        some { st with
          orphans
          vecPriority := queue.push st.vecPriority ⟨orphan.dPriority, orphan.tFee, orphan.tx⟩ }
      else some { st with orphans }

/-- A round of the loop that takes transactions out of the heap; a fault stops it. -/
def selectStep (st : Selecting queue) : LoopStep (Selecting queue) (Option BlockSoFar) :=
  match queue.pop st.vecPriority with
  | none => .stop (some st.toBlockSoFar)
  | some (entry, vecPriority) =>
    let tx := entry.tx
    let st := { st with vecPriority }
    if params.hasRoom st.toBlockSoFar tx = false then .next st
    else if st.view.haveInputs tx = false then .next (postpone st entry)
    else
      let st := { st with addedBlockTx := tx.hash :: st.addedBlockTx }
      if params.passesChecks st.toBlockSoFar st.fPreservedMempoolOrder tx = false then .next st
      else
        match st.toBlockSoFar.put params tx with
        | none => .stop none
        | some block =>
          match (st.orphans.dependers tx.hash).foldlM (wake tx.hash)
              { st with toBlockSoFar := block } with
          | none => .stop none
          | some st => .next st

/-- The block before the first transaction, with room for the coinbase. -/
def emptyBlock (view : CCoinsView) : BlockSoFar := ⟨view, [], [], [], 1000, 100⟩

/-- The variables before the loop. -/
def selectStart (queue : PriorityQueue TxPriority TxPriority.less) (view : CCoinsView)
    (collected : Collected) : Selecting queue :=
  { emptyBlock view with
    vecPriority := queue.make collected.vecPriority
    orphans := collected.orphans
    addedBlockTx := []
    fPreservedMempoolOrder := collected.fPreservedMempoolOrder }

/-- The transactions that `CreateNewBlock` puts behind the coinbase, with the fees and signature
operations of the template, for a number of rounds at most. -/
def createNewBlock (queue : PriorityQueue TxPriority TxPriority.less) (view : CCoinsView)
    (deltas : Deltas) (fuel : Nat) : Option (Option BlockSoFar) :=
  iterate params.selectStep fuel
    (selectStart queue view
      (collect params pool view deltas pool.defragmentHashList.hashList.rows))

end Selecting

end MinerParams

end HdacNode
