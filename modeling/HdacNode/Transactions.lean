import HdacNode.PermissionRows
import HdacNode.ScriptParser

/-!
# Transactions and blocks

Transactions carry the hash that `GetHash` computes.  A block is one that passed
`CheckBlock`: its first transaction is a coinbase, and no other one is.
-/

namespace HdacNode

def opDup : UInt8 := 0x76
def opEqual : UInt8 := 0x87
def opEqualVerify : UInt8 := 0x88
def opHash160 : UInt8 := 0xa9
def opCheckSig : UInt8 := 0xac

/-- `CTxOut`; a value of -1 makes it a null output. -/
structure CTxOut where
  nValue : Int
  scriptPubKey : Bytes
  deriving DecidableEq, Repr

namespace CTxOut

/-- `CTxOut::IsNull`. -/
def isNull (out : CTxOut) : Bool := out.nValue = -1

end CTxOut

/-- `COutPoint`. -/
structure COutPoint where
  hash : Hash
  n : Nat
  deriving DecidableEq, Repr

/-- `COutPoint::IsNull`. -/
def COutPoint.isNull (outPoint : COutPoint) : Bool :=
  outPoint.hash = 0 ∧ outPoint.n = 2 ^ 32 - 1

/-- `CTxIn`. -/
structure CTxIn where
  prevout : COutPoint
  scriptSig : Bytes
  deriving DecidableEq, Repr

/-- `CTransaction` together with its hash. -/
structure CTransaction where
  hash : Hash
  nVersion : Int
  vin : List CTxIn
  vout : List CTxOut
  deriving DecidableEq, Repr

/-- `CTransaction::IsCoinBase`. -/
def CTransaction.isCoinBase (tx : CTransaction) : Bool :=
  match tx.vin with
  | [input] => input.prevout.isNull
  | _ => false

/-- The inputs that spend an output: those of a coinbase do not. -/
def CTransaction.spendingInputs (tx : CTransaction) : List CTxIn :=
  if tx.isCoinBase then [] else tx.vin

/-- A block that passed `CheckBlock`. -/
structure CBlock where
  hash : Hash
  nTime : Nat
  coinbase : CTransaction
  txs : List CTransaction
  isCoinBase : coinbase.isCoinBase
  othersAreNot : ∀ tx ∈ txs, tx.isCoinBase = false

/-- The transactions of a block. -/
def CBlock.vtx (block : CBlock) : List CTransaction := block.coinbase :: block.txs

/-- The place of a block in the chain behind another block.  Only the genesis block
has none, and connecting it leaves the coins alone. -/
structure CBlockIndex where
  prevHash : Hash
  prevHeight : Nat
  deriving DecidableEq, Repr

/-- `CBlockIndex::nHeight`. -/
def CBlockIndex.nHeight (pindex : CBlockIndex) : Nat := pindex.prevHeight + 1

theorem CBlockIndex.nHeight_ne_zero (pindex : CBlockIndex) : pindex.nHeight ≠ 0 :=
  Nat.succ_ne_zero pindex.prevHeight

namespace CScript

/-- `CScript::IsPayToPublicKeyHash`. -/
def isPayToPublicKeyHash (script : Bytes) : Bool :=
  script.length = 25 ∧ script[0]? = some opDup ∧ script[1]? = some opHash160 ∧
    script[2]? = some 0x14 ∧ script[23]? = some opEqualVerify ∧ script[24]? = some opCheckSig

/-- `CScript::IsPayToScriptHash`. -/
def isPayToScriptHash (script : Bytes) : Bool :=
  23 ≤ script.length ∧ script[0]? = some opHash160 ∧ script[1]? = some 0x14 ∧
    script[22]? = some opEqual

/-- The address type and the hash that the indexes file an output under. -/
def indexedAddress (script : Bytes) : Option (Nat × Bytes) :=
  if isPayToScriptHash script then some (2, (script.drop 2).take 20)
  else if isPayToPublicKeyHash script then some (1, (script.drop 3).take 20)
  else none

end CScript

end HdacNode
