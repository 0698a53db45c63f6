import HdacNode.PermissionConsensus

/-!
# Grants, checkpoints and copies of the memory pool

`SetPermission` appends one row for every permission type of its mask to the
memory pool and keeps the admin and miner counts up to date on the way.
Checkpoints and copies let a caller undo what it appended.
-/

namespace HdacNode

/-- The types `SetPermissionInternal` takes out of a mask, in its order. -/
def grantableTypes : List Nat :=
  [mcPtpConnect, mcPtpSend, mcPtpReceive, mcPtpWrite, mcPtpCreate, mcPtpIssue, mcPtpMine,
    mcPtpActivate, mcPtpAdmin, mcPtpUpgrade, mcPtpBanned]

/-- The arguments of `SetPermission`. -/
structure Grant where
  entity : Entity
  address : Address
  type : Nat
  admin : Address
  blockFrom : Int
  blockTo : Int
  timestamp : Nat
  flags : Nat
  updateMempool : Bool
  offset : Int

namespace Permissions

/-- `IsActivateEnough`. -/
def isActivateEnough (type : Nat) : Bool :=
  type &&& (mcPtpAdmin ||| mcPtpIssue ||| mcPtpMine ||| mcPtpActivate ||| mcPtpCreate) = 0

/-- The row `SetPermissionInternal` starts from, before the consensus check. -/
def newLedgerRow (s : Permissions) (grant : Grant) (type : Nat) (last : LedgerRow) :
    LedgerRow where
  key := ⟨grant.entity, .account grant.address, type⟩
  prevRow := last.thisRow
  blockFrom := grant.blockFrom
  blockTo := grant.blockTo
  consensus := 0
  flags := grant.flags
  admin := if s.adminCount ≠ 0 then grant.admin else grant.address
  grantFrom := grant.blockFrom
  grantTo := grant.blockTo
  timestamp := grant.timestamp
  commitHash := 0
  offset := grant.offset
  blockReceived := s.block + 1
  thisRow := s.row

/-- The counts that `ClearMemPool` goes back to are taken before the first row
of an empty memory pool. -/
def saveClearedCounts (s : Permissions) : Permissions :=
  if s.memPool.count = 0 ∧ s.copiedRow = 0 then
    { s with
      clearedAdminCount := s.adminCount
      clearedMinerCount := s.minerCount
      clearedMinerCountForMinerVerification := s.minerCount }
  else s

/-- Append a row to the memory pool. -/
def appendRow (s : Permissions) (row : LedgerRow) : Permissions :=
  { s with
    memPool := s.memPool.add memPoolKey row
    row := s.row + 1 }

/-- The change of a count when an address gains or loses a permission. -/
def countChange (lastAllowed thisAllowed : Nat) : Int :=
  if lastAllowed = thisAllowed then 0 else if lastAllowed ≠ 0 then -1 else 1

/-- Adjust the admin or miner count after a chain permission changed. -/
def adjustCounts (s : Permissions) (grant : Grant) (type lastAllowed : Nat) : Permissions :=
  if (type = mcPtpAdmin ∨ type = mcPtpMine) ∧ grant.entity = .null then
    let thisAllowed := s.getPermission ⟨grant.entity, .account grant.address, type⟩ true
    if type = mcPtpAdmin then
      { s with adminCount := s.adminCount + countChange lastAllowed thisAllowed }
    else { s with minerCount := s.minerCount + countChange lastAllowed thisAllowed }
  else s

/-- `SetPermissionInternal` for one type. -/
def setPermissionType (params : NetworkParams) (s : Permissions) (grant : Grant)
    (type : Nat) : Permissions × Option McError :=
  let key : Key := ⟨grant.entity, .account grant.address, type⟩
  let last := s.getPermissionRow key true
  let lastAllowed := s.getPermission key true
  match verifyConsensus params s false (s.newLedgerRow grant type last) last with
  | .error err => (s, some err)
  | .ok (row, _) =>
      if grant.updateMempool then
        ((s.saveClearedCounts.appendRow row).adjustCounts grant type lastAllowed, none)
      else (s, none)

/-- The loop of `SetPermissionInternal` over the types; for a mask the source
calls itself with each type the mask has. -/
def setPermissionTypes (params : NetworkParams) (grant : Grant) :
    List Nat → Permissions → Permissions × Option McError
  | [], s => (s, none)
  | type :: types, s =>
      if type &&& grant.type = 0 then setPermissionTypes params grant types s
      else
        match setPermissionType params s grant type with
        | (s, some err) => (s, some err)
        | (s, none) => setPermissionTypes params grant types s

/-- `SetPermissionInternal`. -/
def setPermissionInternal (params : NetworkParams) (s : Permissions) (grant : Grant) :
    Permissions × Option McError :=
  setPermissionTypes params grant grantableTypes s

/-- `SetPermission`. -/
def setPermission (params : NetworkParams) (s : Permissions) (grant : Grant) :
    Permissions × Option McError :=
  if (grant.entity = .null ∨ grant.flags &&& mcPflEntityGenesis = 0) ∧
      ¬ s.canAdmin params grant.entity grant.admin ∧
      ¬ (isActivateEnough grant.type ∧ s.canActivate params grant.entity grant.admin) then
    (s, some .notAllowed)
  else s.setPermissionInternal params grant

/-- The arguments of `SetApproval`; without an admin the upgrade itself is
created. -/
structure Approval where
  upgrade : BitVec 128
  approval : Bool
  admin : Option Address
  blockFrom : Int
  timestamp : Nat
  flags : Nat
  updateMempool : Bool
  offset : Int

/-- The address field of an upgrade: its short hash and four zero bytes. -/
def upgradeAddress (upgrade : BitVec 128) : Address := upgrade ++ (0 : BitVec 32)

/-- The upper end of an open range. -/
def openRange : Int := 2 ^ 32 - 1

/-- The first grant of `SetApproval`, for the upgrade list itself. -/
def upgradeListGrant (approval : Approval) : Grant where
  entity := .upgrade
  address := 0
  type := mcPtpConnect
  admin := 0
  blockFrom := 0
  blockTo := openRange
  timestamp := approval.timestamp
  flags := mcPflEntityGenesis
  updateMempool := approval.updateMempool
  offset := approval.offset

/-- The grant that creates an upgrade or votes for it. -/
def upgradeGrant (approval : Approval) (type : Nat) (admin : Address) : Grant where
  entity := .upgrade
  address := upgradeAddress approval.upgrade
  type := type
  admin := admin
  blockFrom := approval.blockFrom
  blockTo := if approval.approval then openRange else 0
  timestamp := approval.timestamp
  flags := approval.flags
  updateMempool := approval.updateMempool
  offset := approval.offset

/-- The first part of `SetApproval`: the upgrade list gets its own row once. -/
def createUpgradeList (params : NetworkParams) (s : Permissions) (approval : Approval) :
    Permissions × Option McError :=
  if s.getPermission ⟨.upgrade, .account 0, mcPtpConnect⟩ true = 0 then
    s.setPermissionInternal params (upgradeListGrant approval)
  else (s, none)

/-- `SetApproval`. -/
def setApproval (params : NetworkParams) (s : Permissions) (approval : Approval) :
    Permissions × Option McError :=
  match s.createUpgradeList params approval with
  | (s, some err) => (s, some err)
  | (s, none) =>
      match approval.admin with
      | none =>
          s.setPermissionInternal params
            (upgradeGrant approval mcPtpConnect (upgradeAddress approval.upgrade))
      | some admin =>
          if s.isApproved (upgradeAddress approval.upgrade) then (s, none)
          else s.setPermissionInternal params (upgradeGrant approval mcPtpUpgrade admin)

/-- `SetCheckPoint`. -/
def setCheckPoint (s : Permissions) : Permissions :=
  { s with
    checkPointRow := s.row
    checkPointAdminCount := s.adminCount
    checkPointMinerCount := s.minerCount
    checkPointMemPoolSize := s.memPool.count }

/-- `RollBackToCheckPoint`. -/
def rollBackToCheckPoint (s : Permissions) : Permissions :=
  { s with
    row := s.checkPointRow
    adminCount := s.checkPointAdminCount
    minerCount := s.checkPointMinerCount
    memPool := s.memPool.setCount memPoolKey s.checkPointMemPoolSize }

/-- `ClearMemPoolInternal`. -/
def clearMemPool (s : Permissions) : Permissions :=
  let s :=
    if s.memPool.count ≠ 0 then
      updateCounts
        { s with
          row := s.row - s.memPool.count
          memPool := s.memPool.clear
          adminCount := s.clearedAdminCount
          minerCount := s.clearedMinerCount }
    else s
  { s with
    clearedAdminCount := s.adminCount
    clearedMinerCount := s.minerCount
    clearedMinerCountForMinerVerification := s.minerCount }

/-- Add the rows of one buffer to another. -/
def addRows (buffer source : RowBuffer MemPoolKey LedgerRow) :
    RowBuffer MemPoolKey LedgerRow :=
  source.rows.foldl (fun buffer row => buffer.add memPoolKey row) buffer

/-- `CopyMemPool`. -/
def copyMemPool (s : Permissions) : Permissions :=
  { s with
    copiedMemPool := addRows s.copiedMemPool.clear s.memPool
    copiedAdminCount := s.adminCount
    copiedMinerCount := s.minerCount }

/-- `RestoreMemPool`. -/
def restoreMemPool (s : Permissions) : Permissions :=
  let s := s.clearMemPool
  { s with
    memPool := addRows s.memPool s.copiedMemPool
    row := s.row + s.copiedMemPool.count
    adminCount := s.copiedAdminCount
    minerCount := s.copiedMinerCount }

end Permissions

end HdacNode
