import Mathlib.Data.Set.Card
import HdacNode.PermissionBlockIndex

/-!
# The admin and miner counts

The counts stand for the addresses with an effective admin or mine permission.
A grant moves them by the change of one address.  A recount goes through the
list of the database instead, and so misses the address whose list key comes
before the header of the list: the address of zero bytes.
-/

namespace HdacNode

open LinkedRowLog WriteBatch

namespace Permissions

/-- The addresses that `GetPermission` reports with a chain permission. -/
def holders (s : Permissions) (type : Nat) : Set Address :=
  {address | s.getPermission (nullKey address type) true ≠ 0}

/-- The addresses whose newest row in a log is in range. -/
def holdersIn (log : List LedgerRow) (block : Int) (type : Nat) : Set Address :=
  {address | (newestOf log (nullKey address type)).any fun row => row.inBlockRange block}

theorem finite_addresses (addresses : Set Address) : addresses.Finite := by
  have : Finite Address :=
    Finite.of_injective BitVec.toFin fun _ _ => BitVec.eq_of_toFin_eq
  exact Set.toFinite addresses

/-- The two types that are counted. -/
def IsCounted (type : Nat) : Prop := type = mcPtpAdmin ∨ type = mcPtpMine

namespace IsCounted

variable {type : Nat} (counted : IsCounted type)
include counted

theorem ne_zero : type ≠ 0 := by
  rcases counted with rfl | rfl <;> decide

theorem ne_blockIndex : type ≠ mcPtpBlockIndex := by
  rcases counted with rfl | rfl <;> decide

theorem ne_blockMiner : type ≠ mcPtpBlockMiner := by
  rcases counted with rfl | rfl <;> decide

theorem nullKey_ne_zeroKey (address : Address) : nullKey address type ≠ zeroKey := by
  rcases counted with rfl | rfl <;> simp [nullKey, zeroKey, mcPtpAdmin, mcPtpMine]

/-- The header of the list comes before all keys but those of the zero
address. -/
theorem afterHeader_iff (address : Address) : afterHeader address type = true ↔ address ≠ 0 := by
  have small : byteSwap32 type < byteSwap32 mcPtpConnect := by
    rcases counted with rfl | rfl <;> decide
  have bound : byteSwap32 mcPtpConnect < 2 ^ 32 := by decide
  have zero : (0 : Address).toNat = 0 := rfl
  simp only [afterHeader, listKeyOrder, zero, decide_eq_true_iff]
  constructor
  · rintro after rfl
    rw [zero] at after
    omega
  · intro nonzero
    have : address.toNat ≠ 0 := fun isZero => nonzero (BitVec.eq_of_toNat_eq isZero)
    omega

end IsCounted

theorem getPermission_ne_zero_iff {s : Permissions} {address : Address} {type : Nat}
    (counted : IsCounted type) {newest : Option LedgerRow}
    (reports : ReportsRow (s.getPermissionRow (nullKey address type) true) newest) :
    s.getPermission (nullKey address type) true ≠ 0 ↔
      newest.any fun row => row.inBlockRange s.block := by
  unfold getPermission
  rw [inBlockRange_of_reports reports]
  have := counted.ne_zero
  split
  · rename_i inRange
    simpa [nullKey, inRange] using this
  · rename_i notInRange
    simp [notInRange]

/-- The addresses a query reports are those of the log. -/
theorem Consistent.holders_eq {s : Permissions} {blocks : List (Address × Hash)} {top : Int}
    (consistent : Consistent s blocks top) {type : Nat} (counted : IsCounted type) :
    s.holders type = holdersIn s.fullLog s.block type := by
  ext address
  refine getPermission_ne_zero_iff counted
    (consistent.getPermissionRow_true (counted.nullKey_ne_zeroKey address) ?_)
  rintro ⟨height, -, keyEq⟩
  exact counted.ne_blockIndex (congrArg Key.type keyEq)

section Recount

/-- A recount of one type over the database keys. -/
theorem countP_eq_ncard {keys : List DBKey} (nodup : keys.Nodup) {type : Nat}
    {counts : DBKey → Bool} {addresses : Set Address}
    (counts_list : ∀ address otherType, counts (.adminMiner address otherType) = true ↔
      otherType = type ∧ address ∈ addresses)
    (counts_other : ∀ key, (∀ address otherType, key ≠ .adminMiner address otherType) →
      counts key = false)
    (listed : ∀ address ∈ addresses, .adminMiner address type ∈ keys) :
    keys.countP counts = addresses.ncard := by
  have injective : Function.Injective fun address => DBKey.adminMiner address type :=
    fun first second same => (DBKey.adminMiner.inj same).1
  have image : (fun address => DBKey.adminMiner address type) '' addresses =
      ↑(keys.filter counts).toFinset := by
    ext key
    simp only [Set.mem_image, List.coe_toFinset, Set.mem_ofPred_eq, List.mem_filter]
    constructor
    · rintro ⟨address, member, rfl⟩
      exact ⟨listed address member, (counts_list address type).2 ⟨rfl, member⟩⟩
    · rintro ⟨-, counted⟩
      cases key with
      | adminMiner address otherType =>
          obtain ⟨rfl, member⟩ := (counts_list address otherType).1 counted
          exact ⟨address, member, rfl⟩
      | _ => rw [counts_other _ (by simp)] at counted; cases counted
  rw [List.countP_eq_length_filter, ← List.toFinset_card_of_nodup (nodup.filter _),
    ← Set.ncard_coe_finset, ← image, Set.ncard_image_of_injective _ injective]

/-- What a recount needs to know: the rows queries report, and the list. -/
structure Recountable (s : Permissions) (log : List LedgerRow) : Prop where
  fork : s.copiedRow = 0
  reports : ∀ address type, IsCounted type →
    ReportsRow (s.getPermissionRow (nullKey address type) true)
      (newestOf log (nullKey address type))
  listed : ∀ address type, IsCounted type → newestOf log (nullKey address type) ≠ none →
    s.database.read (.adminMiner address type) ≠ none

namespace Recountable

variable {s : Permissions} {log : List LedgerRow}

private theorem mem_keys (recountable : Recountable s log) {type : Nat}
    (counted : IsCounted type) {address : Address}
    (holds : address ∈ holdersIn log s.block type \ {0}) :
    .adminMiner address type ∈ s.database.committed.keys := by
  rw [mem_keys_iff]
  refine recountable.listed address type counted fun absent => ?_
  have holds := holds.1
  rw [holdersIn, Set.mem_ofPred_eq, absent] at holds
  cases holds

/-- A recount of the admins finds all of them but the zero address. -/
theorem countP_countsAdmin (recountable : Recountable s log) :
    s.database.committed.keys.countP s.countsAdmin =
      (holdersIn log s.block mcPtpAdmin \ {0}).ncard := by
  refine countP_eq_ncard (AList.keys_nodup _) ?_ ?_
    fun address holds => recountable.mem_keys (.inl rfl) holds
  · intro address otherType
    have reported := getPermission_ne_zero_iff (.inl rfl)
      (recountable.reports address mcPtpAdmin (.inl rfl))
    simp only [countsAdmin, decide_eq_true_iff, reported, Set.mem_sdiff, Set.mem_singleton_iff,
      holdersIn, Set.mem_ofPred_eq]
    constructor
    · rintro ⟨after, rfl, inRange⟩
      exact ⟨rfl, inRange, (IsCounted.afterHeader_iff (.inl rfl) address).1 after⟩
    · rintro ⟨rfl, inRange, nonzero⟩
      exact ⟨(IsCounted.afterHeader_iff (.inl rfl) address).2 nonzero, rfl, inRange⟩
  · intro key notListed
    cases key with
    | adminMiner address type => exact absurd rfl (notListed address type)
    | _ => rfl

/-- A recount of the miners finds all of them but the zero address. -/
theorem countP_countsMiner (recountable : Recountable s log) :
    s.database.committed.keys.countP s.countsMiner =
      (holdersIn log s.block mcPtpMine \ {0}).ncard := by
  refine countP_eq_ncard (AList.keys_nodup _) ?_ ?_
    fun address holds => recountable.mem_keys (.inr rfl) holds
  · intro address otherType
    have reported := getPermission_ne_zero_iff (.inr rfl)
      (recountable.reports address mcPtpMine (.inr rfl))
    simp only [countsMiner, recountable.fork, Nat.lt_irrefl, if_false, decide_eq_true_iff,
      reported, Set.mem_sdiff, Set.mem_singleton_iff, holdersIn, Set.mem_ofPred_eq]
    constructor
    · rintro ⟨after, rfl, inRange⟩
      exact ⟨rfl, inRange, (IsCounted.afterHeader_iff (.inr rfl) address).1 after⟩
    · rintro ⟨rfl, inRange, nonzero⟩
      exact ⟨(IsCounted.afterHeader_iff (.inr rfl) address).2 nonzero, rfl, inRange⟩
  · intro key notListed
    cases key with
    | adminMiner address type => exact absurd rfl (notListed address type)
    | _ => rfl

end Recountable

end Recount

section Steps

/-- The counts leave out the zero address only. -/
def Recounted (s : Permissions) : Prop :=
  s.adminCount = (s.holders mcPtpAdmin \ {0}).ncard ∧
    s.minerCount = (s.holders mcPtpMine \ {0}).ncard

theorem newestOf_cons_of_ne {row : LedgerRow} {log : List LedgerRow} {key : Key}
    (otherKey : row.key ≠ key) : newestOf (row :: log) key = newestOf log key :=
  List.find?_cons_of_neg (by simpa using otherKey)

/-- Block rows are no rows of counted permissions. -/
theorem newestOf_blockRows {minerRow indexRow : LedgerRow} {miner : Address} {height : Int}
    (minerKey : minerRow.key = blockMinerKey miner)
    (indexKey : indexRow.key = blockIndexKey height) (log : List LedgerRow) {type : Nat}
    (counted : IsCounted type) (address : Address) :
    newestOf (indexRow :: minerRow :: log) (nullKey address type) =
      newestOf log (nullKey address type) := by
  have indexNe : indexRow.key ≠ nullKey address type := by
    intro sameKey
    rw [indexKey] at sameKey
    exact counted.ne_blockIndex (congrArg Key.type sameKey).symm
  have minerNe : minerRow.key ≠ nullKey address type := by
    intro sameKey
    rw [minerKey] at sameKey
    exact counted.ne_blockMiner (congrArg Key.type sameKey).symm
  rw [newestOf_cons_of_ne indexNe, newestOf_cons_of_ne minerNe]

theorem holdersIn_blockRows {minerRow indexRow : LedgerRow} {miner : Address} {height : Int}
    (minerKey : minerRow.key = blockMinerKey miner)
    (indexKey : indexRow.key = blockIndexKey height) (log : List LedgerRow) (block : Int)
    {type : Nat} (counted : IsCounted type) :
    holdersIn (indexRow :: minerRow :: log) block type = holdersIn log block type := by
  ext address
  simp only [holdersIn, Set.mem_ofPred_eq, newestOf_blockRows minerKey indexKey log counted]

namespace Consistent

variable {s : Permissions} {blocks : List (Address × Hash)} {top : Int}

private theorem not_aboveTip {type : Nat} (counted : IsCounted type) (s : Permissions)
    (address : Address) : ¬ s.AboveTip (nullKey address type) := by
  rintro ⟨height, -, keyEq⟩
  exact counted.ne_blockIndex (congrArg Key.type keyEq)

theorem readRow_ne_none (consistent : Consistent s blocks top) {address : Address} {type : Nat}
    (counted : IsCounted type) (present : newestOf s.liveLog (nullKey address type) ≠ none) :
    s.readRow (nullKey address type) ≠ none := by
  intro absent
  have matched := consistent.database _ (counted.nullKey_ne_zeroKey address)
    (not_aboveTip counted s address)
  rw [absent] at matched
  cases found : newestOf s.liveLog (nullKey address type) with
  | none => exact present found
  | some row =>
      rw [found] at matched
      exact matched

theorem recountable (consistent : Consistent s blocks top) (noRows : s.memPool.rows = []) :
    Recountable s s.fullLog where
  fork := consistent.fork
  reports := fun address _ counted =>
    consistent.getPermissionRow_true (counted.nullKey_ne_zeroKey address)
      (not_aboveTip counted s address)
  listed := by
    intro address type counted present
    rw [fullLog, noRows] at present
    exact consistent.listed address type counted (consistent.readRow_ne_none counted present)

/-- A recount on the committed rows. -/
theorem recounted (consistent : Consistent s blocks top) (noRows : s.memPool.rows = [])
    (adminCount : s.adminCount = s.database.committed.keys.countP s.countsAdmin)
    (minerCount : s.minerCount = s.database.committed.keys.countP s.countsMiner) :
    Recounted s := by
  have recountable := consistent.recountable noRows
  constructor
  · rw [adminCount, recountable.countP_countsAdmin, consistent.holders_eq (.inl rfl)]
  · rw [minerCount, recountable.countP_countsMiner, consistent.holders_eq (.inr rfl)]

private theorem recountable_commitDatabase (consistent : Consistent s blocks top)
    (params : NetworkParams) (miner : Address) (hash : Hash) :
    Recountable { s.commitDatabase miner hash with block := s.block + 1 }
      (s.indexRow miner hash :: s.minerRow miner hash :: s.fullLog) := by
  have result := consistent.commitResult params miner hash
  have committed := consistent.commit params miner hash
  have linked := consistent.linked_commitDatabase miner hash
  have log := ledgerLog_commitDatabase miner hash consistent.rows_pos consistent.rows_le
  have stored := ledgerRowAt_thisRow linked
  rw [log] at linked stored
  have sameNewest : ∀ address type, IsCounted type →
      newestOf (s.commit params miner hash).liveLog (nullKey address type) =
        newestOf (s.indexRow miner hash :: s.minerRow miner hash :: s.fullLog)
          (nullKey address type) := by
    intro address type counted
    rw [consistent.liveLog_commit, newestOf_blockRows rfl rfl _ counted,
      newestOf_blockRows rfl rfl _ counted]
  constructor
  · exact (copiedRow_appendBlockRows s miner hash).trans consistent.fork
  · intro address type counted
    have matched := committed.database _ (counted.nullKey_ne_zeroKey address)
      (not_aboveTip counted _ address)
    rw [sameNewest address type counted, result.readRow] at matched
    obtain ⟨reports, sought⟩ := databaseRow_reports
      (s := { s.commitDatabase miner hash with block := s.block + 1 })
      ((copiedRow_appendBlockRows s miner hash).trans consistent.fork) matched stored
    unfold getPermissionRow
    simp only [if_true, sought]
    rw [seekMemPool_of_absent]
    · exact reports
    · have coherent := RowBuffer.coherent_add (s.indexRow miner hash)
        (RowBuffer.coherent_add (s.minerRow miner hash) consistent.memCoherent)
      rw [show (s.memPool.add memPoolKey (s.minerRow miner hash)).add memPoolKey
          (s.indexRow miner hash) = (s.appendBlockRows miner hash).memPool by
        rw [appendBlockRows_eq]; rfl] at coherent
      exact coherent
    · -- the newest row of a key is the one no row links to
      intro row member sameKey prevRow
      have inPool : row ∈ s.memPool.rows ++ [s.minerRow miner hash, s.indexRow miner hash] := by
        rw [← rows_appendBlockRows]
        exact member
      have inLog : row ∈ s.indexRow miner hash :: s.minerRow miner hash :: s.fullLog := by
        simp only [List.mem_append, List.mem_cons, List.not_mem_nil, or_false] at inPool
        simp only [fullLog, List.mem_cons, List.mem_append, List.mem_reverse]
        tauto
      have notIndex : row.key.type ≠ mcPtpBlockIndex := by
        rw [sameKey]
        exact counted.ne_blockIndex
      have prevLt := linked.prevRow_lt_newest inLog
      change row.prevRow < ledgerShape.newest _ (linkKey row) at prevLt
      rw [linkKey_of_ne notIndex, newest_eq_thisRow linked notIndex, sameKey] at prevLt
      omega
  · intro address type counted present
    change (s.commitDatabase miner hash).database.read _ ≠ none
    rw [← result.readList]
    refine committed.listed address type counted (committed.readRow_ne_none counted ?_)
    rw [sameNewest address type counted]
    exact present

/-- A commit recounts for the height it closes. -/
theorem recounted_commit (consistent : Consistent s blocks top) (params : NetworkParams)
    (miner : Address) (hash : Hash) : Recounted (s.commit params miner hash) := by
  have result := consistent.commitResult params miner hash
  have committed := consistent.commit params miner hash
  have recountable := consistent.recountable_commitDatabase params miner hash
  have present := consistent.listHeader_commitDatabase miner hash
  have counts : ∀ type, IsCounted type → (s.commit params miner hash).holders type =
      holdersIn (s.indexRow miner hash :: s.minerRow miner hash :: s.fullLog) (s.block + 1)
        type := by
    intro type counted
    rw [committed.holders_eq counted, consistent.fullLog_commit, result.block,
      holdersIn_blockRows rfl rfl _ _ counted, holdersIn_blockRows rfl rfl _ _ counted]
  constructor
  · rw [result.adminCount, counts _ (.inl rfl), commitCounted, updateCounts_eq (by exact present)]
    exact congrArg Nat.cast recountable.countP_countsAdmin
  · rw [result.minerCount, counts _ (.inr rfl), commitCounted, updateCounts_eq (by exact present)]
    exact congrArg Nat.cast recountable.countP_countsMiner

/-- A rollback recounts for the height it goes back to. -/
theorem recounted_rollBack (consistent : Consistent s blocks top) {block : Int}
    (low : -1 ≤ block) (high : block ≤ s.block) : Recounted (s.rollBack block) := by
  obtain ⟨segment, rest, log, -, undone, kept⟩ := consistent.splitAt low high
  have result := consistent.rollBack_result log undone kept
  exact (consistent.rollBack low high).recounted result.rows result.adminCount result.minerCount

/-- Dropping rows of the memory pool recounts. -/
theorem recounted_clearMemPool (consistent : Consistent s blocks top)
    (someRows : s.memPool.count ≠ 0) : Recounted s.clearMemPool := by
  have result := consistent.clearMemPool_result
  obtain ⟨adminCount, minerCount⟩ := result.recounted someRows
  exact consistent.clearMemPool.recounted result.rows adminCount minerCount

end Consistent

end Steps

end Permissions

end HdacNode
