import HdacNode.PermissionJournal

/-!
# Looking at the permission store as of a fork

A miner of another branch is verified on the store of the active chain.  The
store is set back to the fork without touching its files, the grants of the
branch are appended to the memory pool, and afterwards everything is put back.
Miners are barred from mining again before enough others have mined.
-/

namespace HdacNode

namespace Permissions

section Miners

variable (params : NetworkParams)

/-- The number of blocks a miner has to leave to others, and one more. -/
def diversityOf (minerCount : Int) : Int :=
  let diversity := wrapInt32 params.miningDiversity
  let diversity :=
    if 0 < diversity then
      (wrapInt32 (minerCount * diversity - 1)).tdiv mcPrmDecimalGranularity
    else diversity
  min (max (diversity + 1) 1) minerCount

/-- `IsBarredByDiversity`. -/
def isBarredByDiversity (block last minerCount : Int) : Bool :=
  minerCount ≠ 0 ∧ params.setupFirstBlocks ≤ block ∧
    wrapInt32 (block - last) ≤ diversityOf params minerCount - 1

/-- `CanMine`. -/
def canMine (s : Permissions) (entity : Entity) (address : Address) : Nat :=
  if entity = .null ∧ params.anyoneCanMine then mcPtpMine
  else
    let result := s.getPermission ⟨entity, .account address, mcPtpMine⟩ false
    if result ≠ 0 ∧ entity = .null then
      let last := (s.getPermissionRow (blockMinerKey address) false).blockFrom
      if last ≠ 0 ∧ isBarredByDiversity params (s.block + 1) last s.clearedMinerCount then 0
      else result
    else result

/-- `CanMineBlockOnFork`. -/
def canMineBlockOnFork (s : Permissions) (address : Address) (block lastAfterFork : Int) :
    Nat :=
  if params.anyoneCanMine then mcPtpMine
  else if block = 0 then 0
  else
    let row := s.getPermissionRow (nullKey address mcPtpMine) true
    let result := s.getPermission (nullKey address mcPtpMine) true
    let result := s.findLastAllowedMinerRow row block result
    if result ≠ 0 then
      let minerRow := s.getPermissionRow (blockMinerKey address) false
      let last :=
        if lastAfterFork = 0 ∧ minerRow.thisRow ≠ 0 then minerRow.blockFrom else lastAfterFork
      if last ≠ 0 ∧
          isBarredByDiversity params block last s.clearedMinerCountForMinerVerification then 0
      else result
    else 0

end Miners

/-- Drop the memory pool with the counts of the committed rows. -/
def dropMemPool (s : Permissions) : Permissions :=
  if s.memPool.count ≠ 0 then
    { s with
      adminCount := s.clearedAdminCount
      minerCount := s.clearedMinerCount
      row := s.row - s.memPool.count
      memPool := s.memPool.clear }
  else s

/-- Keep what `RestoreAfterMinerVerification` goes back to. -/
def markFork (s : Permissions) (block : Int) : Permissions :=
  { s with
    copiedBlock := s.block
    copiedRow := s.row
    forkBlock := block
    clearedMinerCountForMinerVerification := s.minerCount }

/-- Point at the rows and the counts of an earlier block. -/
def pointToBlock (s : Permissions) (block : Int) : Permissions :=
  let s := { s with row := s.repairWalk block (s.row - 1) + 1, block := block }
  let blockRow := s.ledgerRowAt (s.getPermissionRow (blockIndexKey block) true).thisRow
  { s with
    adminCount := wrapInt32 blockRow.adminCount
    minerCount := wrapInt32 blockRow.minerCount
    clearedMinerCountForMinerVerification := wrapInt32 blockRow.minerCount }

/-- `RollBackBeforeMinerVerification`. -/
def rollBackBeforeMinerVerification (s : Permissions) (block : Int) :
    Permissions × Option McError :=
  if toUInt32 s.block < toUInt32 block then (s, some .internalError)
  else
    let s := s.copyMemPool.dropMemPool.markFork block
    if toUInt32 block = toUInt32 s.block then (s, none) else (s.pointToBlock block, none)

/-- `RestoreAfterMinerVerification`. -/
def restoreAfterMinerVerification (s : Permissions) : Permissions :=
  { s with
    memPool := addRows s.memPool.clear s.copiedMemPool
    block := s.copiedBlock
    forkBlock := 0
    row := s.copiedRow + s.copiedMemPool.count
    copiedRow := 0
    copiedBlock := 0
    adminCount := s.copiedAdminCount
    minerCount := s.copiedMinerCount }

/-- The counts `IncrementBlock` takes from a block record. -/
def unpackCounts (s : Permissions) (adminMinerCount : Nat) : Permissions :=
  { s with
    adminCount := (adminMinerCount / 2 ^ 16 % 2 ^ 16 : Nat)
    minerCount := (adminMinerCount % 2 ^ 16 : Nat) }

/-- `IncrementBlock`. -/
def incrementBlock (s : Permissions) (adminMinerCount : Nat) : Permissions :=
  let s := { s with block := s.block + 1 }
  let s := if adminMinerCount ≠ 0 then s.unpackCounts adminMinerCount else s.updateCounts
  if 0 < s.copiedRow then { s with clearedMinerCountForMinerVerification := s.minerCount }
  else s

end Permissions

/-- A call between `RollBackBeforeMinerVerification` and
`RestoreAfterMinerVerification`. -/
inductive ForkCall where
  | setPermission (grant : Grant)
  | incrementBlock (adminMinerCount : Nat)
  | storeBlockInfo (miner : Address) (hash : Hash)
  | canMineBlockOnFork (address : Address) (block lastAfterFork : Int)

namespace Permissions

variable (params : NetworkParams)

/-- The store after a call of the miner verification. -/
def forkCallStore (s : Permissions) : ForkCall → Permissions
  | .setPermission grant => (s.setPermission params grant).1
  | .incrementBlock adminMinerCount => s.incrementBlock adminMinerCount
  | .storeBlockInfo miner hash => s.storeBlock params miner hash
  | .canMineBlockOnFork _ _ _ => s

/-- The store after a whole miner verification. -/
def verifyMiners (s : Permissions) (block : Int) (calls : List ForkCall) : Permissions :=
  (calls.foldl (forkCallStore params)
    (s.rollBackBeforeMinerVerification block).1).restoreAfterMinerVerification

/-- The store after the memory pool was set aside for queries. -/
def setMemPoolAside (s : Permissions) : Permissions :=
  s.copyMemPool.clearMemPool.restoreMemPool

end Permissions

end HdacNode
