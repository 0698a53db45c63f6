import HdacNode.PermissionLogRuns
import HdacNode.PermissionKeyRows

/-!
# Lists of permissions

`GetPermissionList` without an address goes through the database rows of an entity in the order
of their keys, behind the first one, and then through the rows of the memory pool, which replace
the rows that are listed already.  At last it fills the details of every row from its newest
ledger row.
-/

namespace HdacNode

open LinkedRowLog WriteBatch

def mcPflHavePending : Nat := 0x01000000

/-- `mc_PermissionDetails`. -/
structure PermissionDetails where
  key : Key
  blockFrom : Int
  blockTo : Int
  flags : Nat
  requiredAdmins : Nat
  lastAdmin : Address
  blockReceived : Int
  lastRow : Nat
  deriving DecidableEq, Repr

namespace PermissionDetails

/-- `mc_PermissionDetails::Zero`. -/
def zero : PermissionDetails := ⟨zeroKey, 0, 0, 0, 0, 0, 0, 0⟩

/-- The fields of a listed row that a row of the memory pool replaces. -/
def replaced (details : PermissionDetails) (row : LedgerRow) :
    PermissionDetails :=
  { details with
    blockFrom := row.blockFrom
    blockTo := row.blockTo
    flags := row.flags
    lastRow := row.thisRow }

/-- The listed row of a row of the memory pool. -/
def ofRow (row : LedgerRow) : PermissionDetails :=
  { zero with
    key := row.key
    blockFrom := row.blockFrom
    blockTo := row.blockTo
    flags := row.flags
    lastRow := row.thisRow
    blockReceived := row.blockReceived }

end PermissionDetails

/-- The bytes of the text `Block %08X row` as a number. -/
def blockRowOrder (height : Int) : Nat :=
  let digit := fun place => (height % 2 ^ 32).toNat / 16 ^ place % 16
  let digits := [7, 6, 5, 4, 3, 2, 1, 0].map fun place =>
    if digit place < 10 then 48 + digit place else 55 + digit place
  ([66, 108, 111, 99, 107, 32] ++ digits ++ [32, 114, 111, 119, 0, 0]).foldl
    (fun order byte => order * 256 + byte) 0

/-- The place of the address field in the order of the database. -/
def RowAddress.order : RowAddress → Nat
  | .account address => address.toNat
  | .blockRow height => blockRowOrder height

/-- The place of a key among those of its entity. -/
def Key.order (key : Key) : Nat :=
  key.address.order * 2 ^ 32 + Permissions.byteSwap32 key.type

/-- The permission key of a database key. -/
def DBKey.permissionKey? : DBKey → Option Key
  | .permission key => some key
  | _ => none

namespace Permissions

/-- The key that `GetPermissionList` starts from. -/
def firstListKey : Entity → Key
  | .null => zeroKey
  | entity => ⟨entity, .account 0, mcPtpConnect⟩

/-- The keys of an entity that `MoveNext` reaches behind the first one. -/
def keysBehind (s : Permissions) (entity : Entity) : List Key :=
  ((s.database.committed.keys.filterMap DBKey.permissionKey?).filter fun key =>
    key.entity = entity ∧ (firstListKey entity).order < key.order).mergeSort
      fun first second => first.order ≤ second.order

/-- The variables of `GetPermissionList`: of `pldRow`, only the block is read before it is
set. -/
structure ListScan where
  result : RowBuffer Key PermissionDetails
  first : Bool
  blockReceived : Int

/-- The loop's body for a row of the database. -/
def addDatabaseRow (s : Permissions) (mask : Nat) (scan : ListScan) (key : Key) : ListScan :=
  match s.readRow key with
  | none => scan
  | some pdbRow =>
      if mask &&& key.type = 0 then scan
      else
        let blockReceived :=
          if key.entity = .upgrade then (s.ledgerRowAt pdbRow.ledgerRow).blockReceived
          else scan.blockReceived
        { scan with
          result := scan.result.add PermissionDetails.key
            { PermissionDetails.zero with
              key := key
              blockFrom := pdbRow.blockFrom
              blockTo := pdbRow.blockTo
              flags := pdbRow.flags
              lastRow := pdbRow.ledgerRow
              blockReceived := blockReceived }
          blockReceived := blockReceived }

/-- The loop's body for a row of the memory pool. -/
def addWaitingRow (entity : Entity) (mask : Nat) (scan : ListScan) (row : LedgerRow) :
    ListScan :=
  if row.key.entity ≠ entity then scan
  else if mask &&& row.key.type = 0 then { scan with first := false }
  else
    match scan.result.seek PermissionDetails.key row.key with
    | some found =>
        { scan with
          result := scan.result.overwrite found
            ((scan.result.getRow found).replaced row) }
    | none =>
        if scan.first then { scan with first := false }
        else
          { scan with
            result := scan.result.add PermissionDetails.key (.ofRow row) }

/-- `FillPermissionDetails` without a buffer for the votes. -/
def fillPermissionDetails (params : NetworkParams) (s : Permissions)
    (plsRow : PermissionDetails) : PermissionDetails :=
  let consensus := adminConsensus params s plsRow.key.entity
    (if plsRow.key.entity = .upgrade then mcPtpUpgrade else plsRow.key.type)
  let plsRow := { plsRow with requiredAdmins := consensus }
  if plsRow.lastRow = 0 then plsRow
  else
    match s.readPrevRow { LedgerRow.zero with key := plsRow.key } plsRow.lastRow with
    | .error _ => plsRow
    | .ok pldRow =>
        if 0 < pldRow.consensus then
          let plsRow := { plsRow with lastAdmin := pldRow.admin }
          if consensus ≤ 1 then plsRow
          else { plsRow with blockReceived := pldRow.blockReceived }
        else
          { plsRow with
            flags := plsRow.flags ||| mcPflHavePending
            blockReceived := pldRow.blockReceived }

/-- `GetPermissionList` without an address, where `pldRow` holds a block that was never set. -/
def getPermissionList (params : NetworkParams) (s : Permissions) (entity : Entity) (mask : Nat)
    (unset : Int) : List PermissionDetails :=
  let opened : ListScan := ⟨RowBuffer.initializeBuffer .zero true, true, unset⟩
  let scan :=
    if (s.readRow (firstListKey entity)).isSome then
      (s.keysBehind entity).foldl (addDatabaseRow s mask) { opened with first := false }
    else opened
  let scan := s.memPool.rows.foldl (addWaitingRow entity mask) scan
  scan.result.rows.map (fillPermissionDetails params s)

end Permissions

end HdacNode
