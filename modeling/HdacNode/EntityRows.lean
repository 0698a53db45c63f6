import HdacNode.DetailsScript
import HdacNode.ExtentFile
import HdacNode.WriteBatchTable

/-!
# Rows of the entity store

A ledger row describes an issued asset, a stream, an upgrade or a follow-on issue
of an asset.  The ledger is an extent file; the database maps up to four keys of an
entity to its ledger row and to the last row of its chain of follow-ons.
-/

namespace HdacNode

def mcEntTypeAsset : Nat := 0x01
def mcEntTypeStream : Nat := 0x02
def mcEntTypeUpgrade : Nat := 0x10

def mcEntMaxNameSize : Nat := 32
def mcEntRefPrefixSize : Nat := 2
def mcEntScriptAllocSize : Nat := 8192

/-- The size of `mc_EntityDetails::m_Name`. -/
def entityNameBufferSize : Nat := mcEntMaxNameSize + 6

/-- The keys of the store by their types.  A reference consists of the block, the
offset in the block and the last bytes of the transaction id.  `zero` is the key of
the header. -/
inductive EntityKey where
  | zero
  | txid (txid : Bytes) (followOn : Bool)
  | ref (block offset : Int) (suffix : Bytes)
  | name (name : Bytes)
  | shortTxid (shortTxid : Bytes)
  deriving DecidableEq, Repr

namespace EntityKey

/-- Whether the key type is `MC_ENT_KEYTYPE_TXID` under the mask. -/
def isTxid : EntityKey → Bool
  | .txid _ _ => true
  | _ => false

/-- Whether the key type is the one of follow-ons. -/
def isFollowOn : EntityKey → Bool
  | .txid _ followOn => followOn
  | _ => false

end EntityKey

/-- `mc_EntityLedgerRow`. -/
structure EntityRow where
  key : EntityKey
  block : Int
  offset : Int
  script : Bytes
  quantity : Int
  entityType : Nat
  prevPos : Int
  firstPos : Int
  lastPos : Int
  chainPos : Int
  deriving DecidableEq, Repr

/-- The value part of an `mc_EntityDBRow`. -/
structure EntityDBRow where
  block : Int
  ledgerPos : Int
  chainPos : Int
  entityType : Nat
  deriving DecidableEq, Repr

namespace EntityDBRow

def zero : EntityDBRow := ⟨0, 0, 0, 0⟩

end EntityDBRow

/-- `mc_AllocSize` for items of one byte. -/
def allocSize (items chunkSize : Int) : Int :=
  if items ≤ 0 then 0 else ((items - 1) / chunkSize + 1) * chunkSize

/-- `mc_EntityLedger::m_TotalSize`. -/
def entityTotalSize : Int := 96

theorem allocSize_totalSize_add {items : Int} (nonneg : 0 ≤ items) :
    allocSize (entityTotalSize + items) entityTotalSize =
      entityTotalSize + allocSize items entityTotalSize := by
  unfold allocSize entityTotalSize
  by_cases empty : items ≤ 0
  · obtain rfl : items = 0 := by omega
    decide
  · rw [if_neg (by omega), if_neg empty]
    omega

theorem allocSize_nonneg (items : Int) : 0 ≤ allocSize items entityTotalSize := by
  unfold allocSize entityTotalSize
  split <;> omega

namespace EntityRow

def zero : EntityRow := ⟨.zero, 0, 0, [], 0, 0, 0, 0, 0, 0⟩

def scriptSize (row : EntityRow) : Int := row.script.length

/-- The bytes that `mc_EntityLedger::SetRow` writes for a row. -/
def ledgerSize (row : EntityRow) : Int :=
  entityTotalSize + allocSize row.scriptSize entityTotalSize

/-- The transaction id in the key of a row. -/
def txid (row : EntityRow) : Bytes :=
  match row.key with
  | .txid txid _ => txid
  | _ => List.replicate 32 0

/-- Whether the row is one of a follow-on. -/
def isFollowOn (row : EntityRow) : Bool := row.key.isFollowOn

theorem scriptSize_nonneg (row : EntityRow) : 0 ≤ row.scriptSize :=
  Int.natCast_nonneg _

theorem allocSize_eq_ledgerSize (row : EntityRow) :
    allocSize (entityTotalSize + row.scriptSize) entityTotalSize = row.ledgerSize :=
  allocSize_totalSize_add row.scriptSize_nonneg

theorem totalSize_le_ledgerSize (row : EntityRow) : entityTotalSize ≤ row.ledgerSize := by
  have := allocSize_nonneg row.scriptSize
  unfold ledgerSize
  omega

end EntityRow

/-- The places of ledger rows.  `SetRow` finds the position of a row in its
`m_ChainPos`. -/
def entityShape : ExtentShape EntityRow where
  size := EntityRow.ledgerSize
  pos := EntityRow.chainPos
  prevPos := EntityRow.prevPos
  base := entityTotalSize
  base_pos := by decide
  base_le := EntityRow.totalSize_le_ledgerSize

/-- `mc_StringLowerCase`. -/
def lowerCase (bytes : Bytes) : Bytes :=
  bytes.map fun byte => if 0x40 < byte ∧ byte < 0x5b then byte + 0x20 else byte

/-- The key of a name: the first bytes of the buffer that holds it. -/
def nameKey (name : Bytes) : EntityKey :=
  .name ((lowerCase name ++ List.replicate mcEntMaxNameSize 0).take mcEntMaxNameSize)

/-- The name of the parameter that holds the name of an entity. -/
def nameParam : Bytes := [0xff, 0x6e, 0x61, 0x6d, 0x65]

/-- The name in a details script. -/
def detailsName (script : Bytes) : Option Bytes :=
  let special := DetailsScript.findSpecialParam script mcEntSprmName
  let param :=
    if special.1 = script.length then DetailsScript.findNamedParam script nameParam else special
  if script.length ≤ param.1 then none
  else if param.2 = 2 ∧ script[param.1]? = some 0x2a then none
  else some (DetailsScript.value script param)

/-- `mc_EntityDetails`: the row, and the reference and the name if their flags are
set. -/
structure EntityDetails where
  ledgerRow : EntityRow
  ref : Option EntityKey
  name : Option Bytes
  deriving DecidableEq, Repr

namespace EntityDetails

/-- The details of a row. -/
def ofRow (row : EntityRow) : EntityDetails where
  ledgerRow := row
  ref :=
    if row.offset = 0 then none
    else some (.ref row.block row.offset (row.txid.reverse.take mcEntRefPrefixSize))
  name := detailsName row.script

/-- The copy of the name stays within its buffer. -/
def NameFits (details : EntityDetails) : Prop :=
  ∀ name ∈ details.name, name.length ≤ entityNameBufferSize

instance (details : EntityDetails) : Decidable details.NameFits :=
  inferInstanceAs (Decidable (∀ name ∈ details.name, _))

/-- `mc_EntityDetails::Set`, without a result when the name does not fit. -/
def set (row : EntityRow) : Option EntityDetails :=
  if (ofRow row).NameFits then some (ofRow row) else none

def shortTxidKey (details : EntityDetails) : EntityKey :=
  .shortTxid ((details.ledgerRow.txid.drop mcAstShortTxidOffset).take mcAstShortTxidSize)

/-- The keys that only some entities have. -/
def optionalKeys (details : EntityDetails) : List EntityKey :=
  details.ref.toList ++ (details.name.map nameKey).toList

/-- The keys of a new entity, in the order in which they are inserted. -/
def newKeys (details : EntityDetails) : List EntityKey :=
  .txid details.ledgerRow.txid false :: details.optionalKeys ++ [details.shortTxidKey]

/-- The keys of an entity, in the order in which a follow-on rewrites them. -/
def entityKeys (details : EntityDetails) (txidKey : EntityKey) : List EntityKey :=
  txidKey :: details.shortTxidKey :: details.optionalKeys

end EntityDetails

end HdacNode
