import Mathlib.Tactic.Ring
import HdacNode.KeyedRowBuffer
import HdacNode.RowFile
import HdacNode.WriteBatchTable

/-!
# Rows, keys and state of the permission store

The permission store keeps the newest value of every key in a database and
the whole history of the keys in a ledger file, with the rows of the open
block in a memory pool.  This file has the data of `permission.h`.

Block heights and ranges are integers: the code keeps them in 32-bit words,
and a height of `-1` written to an unsigned field is read back as `-1` by both
readers of that field.
-/

namespace HdacNode

abbrev Address := BitVec 160

abbrev Hash := BitVec 256

def mcPtpConnect : Nat := 0x00000001
def mcPtpSend : Nat := 0x00000002
def mcPtpReceive : Nat := 0x00000004
def mcPtpWrite : Nat := 0x00000008
def mcPtpIssue : Nat := 0x00000010
def mcPtpCreate : Nat := 0x00000020
def mcPtpMine : Nat := 0x00000100
def mcPtpAdmin : Nat := 0x00001000
def mcPtpActivate : Nat := 0x00002000
def mcPtpUpgrade : Nat := 0x00010000
def mcPtpBanned : Nat := 0x00100000
def mcPtpBlockMiner : Nat := 0x01000000
def mcPtpBlockIndex : Nat := 0x02000000

def mcPflEntityGenesis : Nat := 0x00000002

def mcPfbNone : Nat := 0x00000000
def mcPfbMinedBefore : Nat := 0x00000001
def mcPfbGovernanceChange : Nat := 0x00000002

def mcPrmDecimalGranularity : Nat := 1000000

def mcPlsSizeOffsetsPerRow : Nat := 6

/-- The errors the modelled functions return, and `noReturn` for a loop of the
source that does not end. -/
inductive McError where
  | notFound
  | notAllowed
  | corrupted
  | dbOpenError
  | fileReadError
  | internalError
  | found
  | invalidParameterValue
  | errorInScript
  | noReturn
  deriving DecidableEq, Repr

/-- The owner of a permission: the chain itself, the upgrade list, or the
entity a genesis transaction created.  A transaction hash is neither of the
reserved values `null_entity`, `upgrade_entity` and `adminminerlist_entity`. -/
inductive Entity where
  | null
  | upgrade
  | genesis (txid : Hash)
  deriving DecidableEq, Repr

/-- The address field of a row: an address, or the text `Block %08X row` made
from a block height. -/
inductive RowAddress where
  | account (address : Address)
  | blockRow (height : Int)
  deriving DecidableEq, Repr

/-- The leading bytes shared by database and ledger rows. -/
structure Key where
  entity : Entity
  address : RowAddress
  type : Nat
  deriving DecidableEq, Repr

/-- The key of the row that holds the height and the row count. -/
def zeroKey : Key := ⟨.null, .account 0, 0⟩

/-- The key of a chain permission of one address. -/
def nullKey (address : Address) (type : Nat) : Key := ⟨.null, .account address, type⟩

/-- The key of the newest block of a miner. -/
def blockMinerKey (miner : Address) : Key := nullKey miner mcPtpBlockMiner

/-- The key of the block at a height. -/
def blockIndexKey (height : Int) : Key := ⟨.null, .blockRow height, mcPtpBlockIndex⟩

/-- `mc_PermissionLedgerRow` and `mc_BlockLedgerRow`, two views of the same
bytes.  The block view reads `consensus` as the admin count, `flags` as the
miner count and `offset` as the block flags; its `commitHash` covers the
bytes from `admin` to `timestamp` of the permission view. -/
structure LedgerRow where
  key : Key
  prevRow : Nat
  blockFrom : Int
  blockTo : Int
  consensus : Nat
  flags : Nat
  admin : Address
  grantFrom : Int
  grantTo : Int
  timestamp : Nat
  commitHash : Hash
  offset : Int
  blockReceived : Int
  thisRow : Nat
  deriving DecidableEq, Repr

namespace LedgerRow

/-- `mc_PermissionLedgerRow::Zero`. -/
def zero : LedgerRow where
  key := zeroKey
  prevRow := 0
  blockFrom := 0
  blockTo := 0
  consensus := 0
  flags := 0
  admin := 0
  grantFrom := 0
  grantTo := 0
  timestamp := 0
  commitHash := 0
  offset := 0
  blockReceived := 0
  thisRow := 0

/-- `mc_BlockLedgerRow::m_AdminCount`. -/
def adminCount (row : LedgerRow) : Nat := row.consensus

/-- `mc_BlockLedgerRow::m_MinerCount`. -/
def minerCount (row : LedgerRow) : Nat := row.flags

/-- `mc_BlockLedgerRow::m_BlockFlags`. -/
def blockFlags (row : LedgerRow) : Int := row.offset

/-- A block row with the counts of the committed block filled in. -/
def withCounts (row : LedgerRow) (adminCount minerCount : Nat) : LedgerRow :=
  { row with consensus := adminCount, flags := minerCount }

/-- The range check that ends `GetPermission`, for the block after `block`. -/
def inBlockRange (row : LedgerRow) (block : Int) : Bool :=
  row.blockFrom ≤ block + 1 ∧ block + 1 < row.blockTo

end LedgerRow

/-- The value part of `mc_PermissionDBRow`. -/
structure DBRow where
  blockFrom : Int
  blockTo : Int
  ledgerRow : Nat
  flags : Nat
  deriving DecidableEq, Repr

namespace DBRow

/-- `mc_PermissionDBRow::Zero`. -/
def zero : DBRow := ⟨0, 0, 0, 0⟩

/-- `mc_PermissionDBRow::InBlockRange`. -/
def inBlockRange (row : DBRow) (block : Int) : Bool :=
  row.blockFrom ≤ block + 1 ∧ block + 1 < row.blockTo

end DBRow

/-- The database keys: permission rows, the list of addresses that ever had an
admin or mine row, and the per-block records kept for the miner precheck. -/
inductive DBKey where
  | permission (key : Key)
  | adminMiner (address : Address) (type : Nat)
  | blockMiner (hash : Hash)
  | adminMinerGrant (hash : Hash) (recordID : Nat)
  deriving DecidableEq, Repr

/-- The first key of the admin and miner list. -/
def adminMinerHeader : DBKey := .adminMiner 0 mcPtpConnect

/-- The database values: `mc_PermissionDBRow`, `mc_BlockMinerDBRow` and
`mc_AdminMinerGrantDBRow`. -/
inductive DBValue where
  | row (row : DBRow)
  | blockMiner (address : Address) (adminMinerCount : Nat)
  | adminMinerGrant (offsets : List Int)
  deriving DecidableEq, Repr

/-- The key of a memory pool row: the whole ledger key. -/
structure MemPoolKey where
  key : Key
  prevRow : Nat
  deriving DecidableEq, Repr

/-- The leading bytes of a ledger row. -/
def memPoolKey (row : LedgerRow) : MemPoolKey := ⟨row.key, row.prevRow⟩

/-- The network parameters the permission store reads. -/
structure NetworkParams where
  anyoneCanAdmin : Bool
  anyoneCanActivate : Bool
  anyoneCanMine : Bool
  setupFirstBlocks : Int
  adminConsensusAdmin : Nat
  adminConsensusMine : Nat
  adminConsensusActivate : Nat
  adminConsensusIssue : Nat
  adminConsensusCreate : Nat
  adminConsensusUpgrade : Nat
  supportMinerPrecheck : Bool
  miningDiversity : Int := 300000

/-- The database and the ledger file. -/
structure PermissionFiles where
  database : WriteBatch.Store DBKey DBValue
  ledger : RowFile LedgerRow

/-- `mc_Permissions`. -/
structure Permissions extends PermissionFiles where
  memPool : RowBuffer MemPoolKey LedgerRow
  copiedMemPool : RowBuffer MemPoolKey LedgerRow
  block : Int
  row : Nat
  adminCount : Int
  minerCount : Int
  checkPointRow : Nat
  checkPointAdminCount : Int
  checkPointMinerCount : Int
  checkPointMemPoolSize : Nat
  copiedRow : Nat
  copiedBlock : Int
  forkBlock : Int
  copiedAdminCount : Int
  copiedMinerCount : Int
  clearedAdminCount : Int
  clearedMinerCount : Int
  clearedMinerCountForMinerVerification : Int

/-- `mc_Permissions::Zero`, with empty files and buffers. -/
def Permissions.zero : Permissions where
  database := ⟨∅, []⟩
  ledger := RowFile.empty .zero
  memPool := RowBuffer.initializeBuffer .zero true
  copiedMemPool := RowBuffer.initializeBuffer .zero false
  block := -1
  row := 0
  adminCount := 0
  minerCount := 0
  checkPointRow := 0
  checkPointAdminCount := 0
  checkPointMinerCount := 0
  checkPointMemPoolSize := 0
  copiedRow := 0
  copiedBlock := 0
  forkBlock := 0
  copiedAdminCount := 0
  copiedMinerCount := 0
  clearedAdminCount := 0
  clearedMinerCount := 0
  clearedMinerCountForMinerVerification := 0

/-- The conversion of an `int` to `uint32_t`. -/
def toUInt32 (value : Int) : Nat := (value % 2 ^ 32).toNat

/-- The conversion of a wider or unsigned value to `int`. -/
def wrapInt32 (value : Int) : Int := value.bmod (2 ^ 32)

namespace PermissionFiles

/-- The ledger row at a place; a failed read leaves the row zeroed. -/
def ledgerRowAt (files : PermissionFiles) (rowID : Nat) : LedgerRow :=
  (files.ledger.getRow rowID).getD .zero

/-- Read a permission row of the database. -/
def readRow (files : PermissionFiles) (key : Key) : Option DBRow :=
  match files.database.read (.permission key) with
  | some (.row row) => some row
  | _ => none

end PermissionFiles

end HdacNode
