import HdacNode.PermissionRows

/-!
# Queries of the permission store

The point query `GetPermission` takes the newest database row of a key and
then follows the memory pool rows that link to it.  The admin and miner counts
are recomputed by `UpdateCounts` from the list of addresses that ever had an
admin or mine row.
-/

namespace HdacNode

namespace Permissions

/-- The loop that looks for the newest row not behind the fork block. -/
def forkRow (s : Permissions) : Nat → LedgerRow → LedgerRow
  | 0, pldRow => pldRow
  | fuel + 1, pldRow =>
      if 0 < pldRow.prevRow ∧ s.forkBlock < pldRow.blockReceived then
        forkRow s fuel (s.ledgerRowAt pldRow.prevRow)
      else pldRow

/-- Whether the rows of a type are looked up as of the fork block. -/
def forkChecked (s : Permissions) (type : Nat) : Bool :=
  0 < s.copiedRow ∧ (type = mcPtpAdmin ∨ type = mcPtpMine ∨ type = mcPtpBlockMiner)

/-- The ledger view of a database row, and whether `GetPermission` still uses
it. -/
def loadRow (s : Permissions) (key : Key) (pdbRow : DBRow) : LedgerRow × Bool :=
  let pldRow := { LedgerRow.zero with
    key := key
    blockFrom := pdbRow.blockFrom
    blockTo := pdbRow.blockTo
    flags := pdbRow.flags
    thisRow := pdbRow.ledgerRow }
  let pldRow := if key.entity = .upgrade then s.ledgerRowAt pldRow.thisRow else pldRow
  if s.forkChecked key.type then
    let pldRow := s.forkRow s.ledger.size (s.ledgerRowAt pdbRow.ledgerRow)
    (pldRow, decide (¬ s.forkBlock < pldRow.blockReceived))
  else (pldRow, true)

/-- The row `GetPermission` has filled from the database, and the key and
previous row it goes on to seek in the memory pool. -/
def databaseRow (s : Permissions) (key : Key) : LedgerRow × MemPoolKey :=
  let row := { LedgerRow.zero with key := key }
  match s.readRow key with
  | none => (row, ⟨key, 0⟩)
  | some pdbRow =>
      let (pldRow, used) := s.loadRow key pdbRow
      if used then
        ({ row with
            blockFrom := pldRow.blockFrom
            blockTo := pldRow.blockTo
            thisRow := pldRow.thisRow
            flags := pldRow.flags
            blockReceived := pldRow.blockReceived }, ⟨pldRow.key, pldRow.thisRow⟩)
      else (row, ⟨pldRow.key, pldRow.prevRow⟩)

/-- The memory pool loop of `GetPermission`.  Every round finds another row,
so the number of rows is enough fuel. -/
def seekMemPool (s : Permissions) (key : Key) : Nat → Nat → LedgerRow → LedgerRow
  | 0, _, row => row
  | fuel + 1, prevRow, row =>
      match s.memPool.seek memPoolKey ⟨key, prevRow⟩ with
      | some mprow =>
          seekMemPool s key fuel (s.memPool.getRow mprow).thisRow (s.memPool.getRow mprow)
      | none => row

/-- The details `GetPermission` returns for a key. -/
def getPermissionRow (s : Permissions) (key : Key) (checkMempool : Bool) : LedgerRow :=
  let (row, sought) := s.databaseRow key
  if checkMempool then seekMemPool s sought.key s.memPool.count sought.prevRow row
  else row

/-- The value `GetPermission` returns for a key. -/
def getPermission (s : Permissions) (key : Key) (checkMempool : Bool) : Nat :=
  if (s.getPermissionRow key checkMempool).inBlockRange s.block then key.type else 0

/-- `IsApprovedInternal` without the check of the current block. -/
def isApproved (s : Permissions) (upgradeAddress : Address) : Bool :=
  let row := s.getPermissionRow ⟨.upgrade, .account upgradeAddress, mcPtpUpgrade⟩ true
  row.blockFrom < row.blockTo

section Parameters

variable (params : NetworkParams)

/-- `CanAdmin`. -/
def canAdmin (s : Permissions) (entity : Entity) (address : Address) : Bool :=
  s.block = -1 ∨ (entity = .null ∧ params.anyoneCanAdmin) ∨
    s.getPermission ⟨entity, .account address, mcPtpAdmin⟩ true ≠ 0

/-- `CanActivate`. -/
def canActivate (s : Permissions) (entity : Entity) (address : Address) : Bool :=
  (entity = .null ∧ params.anyoneCanActivate) ∨
    s.getPermission ⟨entity, .account address, mcPtpActivate⟩ true ≠ 0 ∨
    canAdmin params s entity address

/-- `GetAdminCount`. -/
def getAdminCount (s : Permissions) : Int :=
  if params.anyoneCanAdmin then 1 else s.adminCount

/-- `IsSetupPeriod`. -/
def isSetupPeriod (s : Permissions) : Bool :=
  s.block + 1 < params.setupFirstBlocks

end Parameters

/-- The walk of `FindLastAllowedMinerRow` through the memory pool. -/
def walkMinerRows (s : Permissions) (block : Int) : Nat → LedgerRow → LedgerRow
  | 0, pldRow => pldRow
  | fuel + 1, pldRow =>
      if s.row - s.memPool.count ≤ pldRow.thisRow ∧ block ≤ pldRow.blockReceived ∧
          0 < pldRow.prevRow then
        walkMinerRows s block fuel (s.memPool.getRow pldRow.prevRow)
      else pldRow

/-- `FindLastAllowedMinerRow`.  The loop looks up the number of a ledger row in the memory pool;
where the source reads behind the end of the pool, the model goes on with a row of zeros. -/
def findLastAllowedMinerRow (s : Permissions) (row : LedgerRow) (block : Int)
    (prevResult : Nat) : Nat :=
  if row.thisRow < s.row - s.memPool.count then prevResult
  else if row.blockReceived < block then prevResult
  else
    let pldRow := s.walkMinerRows block (s.row + 1) row
    if pldRow.prevRow = 0 then 0
    else
      let pldRow :=
        if pldRow.thisRow < s.row - s.memPool.count then s.ledgerRowAt pldRow.thisRow
        else pldRow
      if pldRow.blockFrom ≤ block ∧ block < pldRow.blockTo then mcPtpMine else 0

/-- A 32-bit word as `memcmp` compares it: lowest byte first. -/
def byteSwap32 (word : Nat) : Nat :=
  word % 2 ^ 8 * 2 ^ 24 + word / 2 ^ 8 % 2 ^ 8 * 2 ^ 16 +
    word / 2 ^ 16 % 2 ^ 8 * 2 ^ 8 + word / 2 ^ 24 % 2 ^ 8

/-- The place of an admin and miner list key in the order of the database. -/
def listKeyOrder (address : Address) (type : Nat) : Nat :=
  address.toNat * 2 ^ 32 + byteSwap32 type

/-- The list keys that the iteration of `UpdateCounts` reaches: those behind
the header it starts from. -/
def afterHeader (address : Address) (type : Nat) : Bool :=
  listKeyOrder 0 mcPtpConnect < listKeyOrder address type

/-- Whether `UpdateCounts` adds a database key to the admin count. -/
def countsAdmin (s : Permissions) : DBKey → Bool
  | .adminMiner address type =>
      afterHeader address type ∧ type = mcPtpAdmin ∧
        s.getPermission (nullKey address mcPtpAdmin) true ≠ 0
  | _ => false

/-- Whether `UpdateCounts` adds a database key to the miner count. -/
def countsMiner (s : Permissions) : DBKey → Bool
  | .adminMiner address type =>
      let row := s.getPermissionRow (nullKey address mcPtpMine) true
      let result := s.getPermission (nullKey address mcPtpMine) true
      afterHeader address type ∧ type = mcPtpMine ∧
        (if 0 < s.copiedRow then s.findLastAllowedMinerRow row (s.block + 1) result
          else result) ≠ 0
  | _ => false

/-- The admin and mine rows of the chain itself among the database keys. -/
def adminMinerOfKey : DBKey → Option (Address × Nat)
  | .permission ⟨.null, .account address, type⟩ =>
      if type = mcPtpAdmin ∨ type = mcPtpMine then some (address, type) else none
  | _ => none

/-- The first run of `UpdateCounts`: the list is built from the database. -/
def buildAdminMinerList (s : Permissions) : Permissions :=
  let database := s.database.write ⟨adminMinerHeader, some (.row .zero)⟩
  match s.readRow zeroKey with
  | none => { s with database := database, adminCount := 0, minerCount := 0 }
  | some _ =>
      let listed := s.database.committed.keys.filterMap adminMinerOfKey
      let allowed (type : Nat) (entry : Address × Nat) : Bool :=
        entry.2 = type ∧
          (s.readRow (nullKey entry.1 type)).any fun pdbRow => pdbRow.inBlockRange s.block
      { s with
        database := (listed.foldl (fun database entry =>
          database.write ⟨.adminMiner entry.1 entry.2, some (.row .zero)⟩) database).commit
        adminCount := listed.countP (allowed mcPtpAdmin)
        minerCount := listed.countP (allowed mcPtpMine) }

/-- `UpdateCounts`. -/
def updateCounts (s : Permissions) : Permissions :=
  match s.database.read adminMinerHeader with
  | some _ =>
      { s with
        adminCount := s.database.committed.keys.countP s.countsAdmin
        minerCount := s.database.committed.keys.countP s.countsMiner }
  | none => s.buildAdminMinerList

/-- `GetBlockMiner`: the row before the block row found by height. -/
def getBlockMiner (s : Permissions) (block : Int) : Except McError Address :=
  let lastBlockRow := (s.getPermissionRow (blockIndexKey block) true).thisRow
  if lastBlockRow ≤ 1 then .error .notFound
  else
    let pldRow := s.ledgerRowAt (lastBlockRow - 1)
    match pldRow.key.address with
    | .account address =>
        if pldRow.key.type = mcPtpBlockMiner then .ok address else .error .corrupted
    | .blockRow _ => .error .corrupted

/-- `VerifyBlockHash`. -/
def verifyBlockHash (s : Permissions) (block : Int) (hash : Hash) : Bool :=
  let lastBlockRow := (s.getPermissionRow (blockIndexKey block) true).thisRow
  if lastBlockRow = 0 then false
  else (s.ledgerRowAt lastBlockRow).commitHash = hash

end Permissions

end HdacNode
