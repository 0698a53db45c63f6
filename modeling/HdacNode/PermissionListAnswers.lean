import HdacNode.PermissionListOpening

/-!
# Lists of permissions and point queries

The loops of `GetPermissionList` keep, under every key, the row of the memory pool seen last, or
else the row of the database.  The point query ends at the same row, so both report the same
range, and the newest ledger row of the key fills the rest of the details.
-/

namespace HdacNode

open LinkedRowLog WriteBatch

/-- The value that a ledger row has in the database. -/
def LedgerRow.dbRow (row : LedgerRow) : DBRow :=
  ⟨row.blockFrom, row.blockTo, row.thisRow, row.flags⟩

/-- The listed row of a key with a value. -/
def PermissionDetails.ofValue (key : Key) (blockReceived : Int) (value : DBRow) :
    PermissionDetails :=
  { PermissionDetails.zero with
    key := key
    blockFrom := value.blockFrom
    blockTo := value.blockTo
    flags := value.flags
    lastRow := value.ledgerRow
    blockReceived := blockReceived }

theorem PermissionDetails.key_ofValue (key : Key) (blockReceived : Int) (value : DBRow) :
    (ofValue key blockReceived value).key = key :=
  rfl

namespace Permissions

/-- The block that a key is listed with before its details are filled. -/
def listedBlock (s : Permissions) (unset : Int) (key : Key) : Int :=
  match s.readRow key with
  | none => s.block + 1
  | some pdbRow =>
      if key.entity = .upgrade then (s.ledgerRowAt pdbRow.ledgerRow).blockReceived else unset

/-- The value of a key behind the waiting rows seen so far. -/
def valueBehind (s : Permissions) (seen : List LedgerRow) (key : Key) : Option DBRow :=
  ((newestOf seen.reverse key).map LedgerRow.dbRow).or (s.readRow key)

/-- A key that a list of an entity is compared at.  The list skips the first keys of the index; of
an entity other than null all keys with the zero address are left out here. -/
structure ListKey (entity : Entity) (key : Key) : Prop where
  ofEntity : key.entity = entity
  account : ∃ address, key.address = .account address ∧ (entity = .null ∨ address ≠ 0)
  notIndex : key.type ≠ mcPtpBlockIndex

/-- The listed rows are those that are expected under their keys. -/
structure Listed (entity : Entity) (mask : Nat) (expected : Key → Option PermissionDetails)
    (result : RowBuffer Key PermissionDetails) : Prop where
  coherent : RowBuffer.Coherent PermissionDetails.key result
  nodup : (result.rows.map PermissionDetails.key).Nodup
  ofMask : ∀ details ∈ result.rows,
    details.key.entity = entity ∧ mask &&& details.key.type ≠ 0
  found : ∀ key, ListKey entity key → mask &&& key.type ≠ 0 →
    result.lookup PermissionDetails.key key = expected key

namespace Listed

variable {entity : Entity} {mask : Nat} {expected other : Key → Option PermissionDetails}
  {result : RowBuffer Key PermissionDetails} {details : PermissionDetails}

theorem initializeBuffer :
    Listed entity mask (fun _ => none) (RowBuffer.initializeBuffer .zero true) where
  coherent := RowBuffer.coherent_initializeBuffer _ _
  nodup := by simp
  ofMask := by simp
  found := fun _ _ _ => rfl

theorem congr (listed : Listed entity mask expected result)
    (same : ∀ key, ListKey entity key → mask &&& key.type ≠ 0 → expected key = other key) :
    Listed entity mask other result where
  coherent := listed.coherent
  nodup := listed.nodup
  ofMask := listed.ofMask
  found := fun key isKey inMask => (listed.found key isKey inMask).trans (same key isKey inMask)

/-- A row is added under a key that is not listed. -/
theorem add (listed : Listed entity mask expected result)
    (absent : result.lookup PermissionDetails.key details.key = none)
    (ofEntity : details.key.entity = entity) (inMask : mask &&& details.key.type ≠ 0) :
    Listed entity mask (fun key => if details.key = key then some details else expected key)
      (result.add PermissionDetails.key details) where
  coherent := RowBuffer.coherent_add _ listed.coherent
  nodup := by
    rw [RowBuffer.rows_add, List.map_append, List.map_singleton, List.nodup_append]
    refine ⟨listed.nodup, List.nodup_singleton _, ?_⟩
    rintro key member _ same rfl
    rw [List.mem_singleton] at same
    obtain ⟨row, inRows, rowKey⟩ := List.mem_map.mp member
    have found := (RowBuffer.mem_rows_iff listed.coherent listed.nodup).mp inRows
    rw [rowKey, same, absent] at found
    cases found
  ofMask := by
    rw [RowBuffer.rows_add]
    intro row member
    rcases List.mem_append.mp member with old | new
    · exact listed.ofMask row old
    · rw [List.mem_singleton.mp new]
      exact ⟨ofEntity, inMask⟩
  found := by
    intro key isKey keyInMask
    rw [RowBuffer.lookup_add listed.coherent absent, listed.found key isKey keyInMask]

/-- A listed row is replaced under its own key. -/
theorem overwrite (listed : Listed entity mask expected result) {rowID : Nat}
    (found : result.seek PermissionDetails.key details.key = some rowID) :
    Listed entity mask (fun key => if details.key = key then some details else expected key)
      (result.overwrite rowID details) := by
  obtain ⟨live, sameKey⟩ := RowBuffer.keyOf_getRow_of_seek found listed.coherent
  have keys := RowBuffer.keys_putRow_of_seek listed.coherent found
  rw [RowBuffer.overwrite_eq_putRow listed.coherent found]
  constructor
  · exact RowBuffer.coherent_putRow listed.coherent found
  · rw [keys]
    exact listed.nodup
  · intro row member
    have inKeys := List.mem_map_of_mem (f := PermissionDetails.key) member
    rw [keys] at inKeys
    obtain ⟨old, inRows, oldKey⟩ := List.mem_map.mp inKeys
    rw [← oldKey]
    exact listed.ofMask old inRows
  · intro key isKey keyInMask
    rw [RowBuffer.lookup_putRow listed.coherent found, listed.found key isKey keyInMask]

end Listed

section Scan

variable {s : Permissions} {entity : Entity} {mask : Nat} {unset : Int}

/-- The details expected behind the waiting rows seen so far. -/
def expectedBehind (s : Permissions) (unset : Int) (seen : List LedgerRow) (key : Key) :
    Option PermissionDetails :=
  (s.valueBehind seen key).map (.ofValue key (s.listedBlock unset key))

/-- The details expected after some keys of the database. -/
def expectedAmong (s : Permissions) (unset : Int) (keys : List Key) (key : Key) :
    Option PermissionDetails :=
  if key ∈ keys then (s.readRow key).map (.ofValue key (s.listedBlock unset key)) else none

/-- What the loop over the database keeps. -/
structure ListedAmong (s : Permissions) (entity : Entity) (mask : Nat) (unset : Int)
    (keys : List Key) (scan : ListScan) : Prop where
  listed : Listed entity mask (s.expectedAmong unset keys) scan.result
  inKeys : ∀ details ∈ scan.result.rows, details.key ∈ keys
  behindFirst : scan.first = false
  block : entity ≠ .upgrade → scan.blockReceived = unset

theorem ListedAmong.addDatabaseRow {keys : List Key} {key : Key} {scan : ListScan}
    (among : ListedAmong s entity mask unset keys scan) (ofEntity : key.entity = entity)
    (isNew : key ∉ keys) :
    ListedAmong s entity mask unset (keys ++ [key]) (addDatabaseRow s mask scan key) := by
  have skipped : (∀ other, ListKey entity other → mask &&& other.type ≠ 0 → other = key →
      s.readRow key = none) →
      ListedAmong s entity mask unset (keys ++ [key]) scan := by
    intro absent
    constructor
    · apply among.listed.congr
      intro other isKey inMask
      unfold expectedAmong
      by_cases same : other = key
      · rw [same, if_neg isNew, if_pos (by simp), absent other isKey inMask same]
        rfl
      · simp [same]
    · intro details member
      exact List.mem_append_left _ (among.inKeys details member)
    · exact among.behindFirst
    · exact among.block
  unfold Permissions.addDatabaseRow
  cases found : s.readRow key with
  | none => exact skipped fun _ _ _ _ => found
  | some pdbRow =>
      dsimp only
      by_cases outside : mask &&& key.type = 0
      · rw [if_pos outside]
        apply skipped
        rintro other - inMask rfl
        exact absurd outside inMask
      · rw [if_neg outside]
        have blockEq : (if key.entity = .upgrade then (s.ledgerRowAt pdbRow.ledgerRow).blockReceived
            else scan.blockReceived) = s.listedBlock unset key := by
          rw [listedBlock, found]
          dsimp only
          by_cases isUpgrade : key.entity = .upgrade
          · rw [if_pos isUpgrade, if_pos isUpgrade]
          · rw [if_neg isUpgrade, if_neg isUpgrade]
            apply among.block
            rw [← ofEntity]
            exact isUpgrade
        rw [blockEq]
        have absent : scan.result.lookup PermissionDetails.key key = none := by
          rw [RowBuffer.lookup_of_coherent among.listed.coherent, List.find?_eq_none]
          intro details member sameKey
          apply isNew
          rw [← of_decide_eq_true sameKey]
          exact among.inKeys details member
        constructor
        · apply Listed.congr
          · exact @Listed.add _ _ _ _ (.ofValue key (s.listedBlock unset key) pdbRow)
              among.listed absent ofEntity outside
          · intro other isKey inMask
            unfold expectedAmong
            by_cases same : key = other
            · simp [← same, found, PermissionDetails.key_ofValue]
            · have notKey : other ≠ key := fun sameKey => same sameKey.symm
              simp [same, notKey, PermissionDetails.key_ofValue]
        · intro details member
          change details ∈ (scan.result.add _ _).rows at member
          rw [RowBuffer.rows_add] at member
          rcases List.mem_append.mp member with old | new
          · exact List.mem_append_left _ (among.inKeys details old)
          · rw [List.mem_singleton.mp new]
            exact List.mem_append_right _ (List.mem_singleton.mpr rfl)
        · exact among.behindFirst
        · intro notUpgrade
          change s.listedBlock unset key = unset
          rw [← blockEq, if_neg (by rw [ofEntity]; exact notUpgrade)]
          exact among.block notUpgrade

theorem ListedAmong.foldl {keys rest : List Key} {scan : ListScan}
    (among : ListedAmong s entity mask unset keys scan)
    (ofEntity : ∀ key ∈ rest, key.entity = entity) (nodup : (keys ++ rest).Nodup) :
    ListedAmong s entity mask unset (keys ++ rest)
      (rest.foldl (Permissions.addDatabaseRow s mask) scan) := by
  induction rest generalizing keys scan with
  | nil =>
      rw [List.append_nil]
      exact among
  | cons key rest ih =>
      obtain ⟨here, later⟩ := List.forall_mem_cons.mp ofEntity
      have isNew : key ∉ keys := by
        intro member
        exact (List.nodup_append.mp nodup).2.2 key member key (List.mem_cons_self ..) rfl
      rw [List.append_cons] at nodup ⊢
      exact ih (among.addDatabaseRow here isNew) later nodup

theorem expectedBehind_append (seen : List LedgerRow) (row : LedgerRow) (key : Key) :
    s.expectedBehind unset (seen ++ [row]) key =
      if row.key = key then some (.ofValue key (s.listedBlock unset key) row.dbRow)
      else s.expectedBehind unset seen key := by
  unfold expectedBehind valueBehind
  rw [List.reverse_append, List.reverse_singleton, List.singleton_append]
  by_cases same : row.key = key
  · rw [newestOf, List.find?_cons_of_pos (by simpa using same), if_pos same]
    rfl
  · rw [newestOf_cons_of_ne same, if_neg same]

/-- What the loop over the memory pool keeps. -/
structure ListedBehind (s : Permissions) (entity : Entity) (mask : Nat) (unset : Int)
    (seen : List LedgerRow) (scan : ListScan) : Prop where
  listed : Listed entity mask (s.expectedBehind unset seen) scan.result
  unopened : scan.first = true → scan.result.rows = [] ∧ entity ≠ .null ∧
    (∀ row ∈ s.liveLog, row.key.entity ≠ entity) ∧ ∀ row ∈ seen, row.key.entity ≠ entity

namespace ListedBehind

variable {seen : List LedgerRow} {scan : ListScan} {row : LedgerRow}

private theorem isFirst (behind : ListedBehind s entity mask unset seen scan)
    (follows : row.key.entity ≠ .null → row.key = firstListKey row.key.entity ∨
      HasFirst (seen.reverse ++ s.liveLog) row.key.entity)
    (ofEntity : row.key.entity = entity) (unopened : scan.first = true) {key : Key}
    (isKey : ListKey entity key) : row.key ≠ key := by
  obtain ⟨-, notNull, noneLive, noneSeen⟩ := behind.unopened unopened
  rw [ofEntity] at follows
  rintro rfl
  obtain ⟨address, rowAddress, allowed⟩ := isKey.account
  rcases follows notNull with isFirst | ⟨first, member, firstKey⟩
  · rw [isFirst, firstListKey_of_ne notNull] at rowAddress
    exact allowed.elim notNull fun notZero => notZero (RowAddress.account.inj rowAddress).symm
  · have firstEntity : first.key.entity = entity := by
      rw [firstKey, firstListKey_of_ne notNull]
    rcases List.mem_append.mp member with inSeen | inLive
    · exact noneSeen first (List.mem_reverse.mp inSeen) firstEntity
    · exact noneLive first inLive firstEntity

theorem addWaitingRow (behind : ListedBehind s entity mask unset seen scan)
    (follows : row.key.entity ≠ .null → row.key = firstListKey row.key.entity ∨
      HasFirst (seen.reverse ++ s.liveLog) row.key.entity)
    (received : row.blockReceived = s.block + 1) :
    ListedBehind s entity mask unset (seen ++ [row]) (addWaitingRow entity mask scan row) := by
  unfold Permissions.addWaitingRow
  by_cases elsewhere : row.key.entity ≠ entity
  · rw [if_pos elsewhere]
    constructor
    · apply behind.listed.congr
      rintro key isKey -
      rw [expectedBehind_append, if_neg]
      rintro rfl
      exact elsewhere isKey.ofEntity
    · intro unopened
      obtain ⟨empty, notNull, noneLive, noneSeen⟩ := behind.unopened unopened
      refine ⟨empty, notNull, noneLive, ?_⟩
      intro other member
      rcases List.mem_append.mp member with old | new
      · exact noneSeen other old
      · rw [List.mem_singleton.mp new]
        exact elsewhere
  rw [if_neg elsewhere]
  have ofEntity := not_not.mp elsewhere
  by_cases outside : mask &&& row.key.type = 0
  · rw [if_pos outside]
    constructor
    · apply behind.listed.congr
      intro key _ inMask
      rw [expectedBehind_append, if_neg]
      rintro rfl
      exact inMask outside
    · intro absurdity
      cases absurdity
  rw [if_neg outside]
  cases found : scan.result.seek PermissionDetails.key row.key with
  | some rowID =>
      dsimp only
      obtain ⟨live, sameKey⟩ := RowBuffer.keyOf_getRow_of_seek found behind.listed.coherent
      have replacedKey : ((scan.result.getRow rowID).replaced row).key = row.key := sameKey
      constructor
      · apply Listed.congr
        · apply behind.listed.overwrite
          rw [replacedKey]
          exact found
        · intro key isKey inMask
          rw [expectedBehind_append, replacedKey]
          by_cases same : row.key = key
          · rw [if_pos same, if_pos same]
            have old : scan.result.lookup PermissionDetails.key key =
                some (scan.result.getRow rowID) := by
              rw [RowBuffer.lookup, ← same, found]
              rfl
            rw [behind.listed.found key isKey inMask] at old
            obtain ⟨value, -, oldRow⟩ := Option.map_eq_some_iff.mp old
            rw [← oldRow]
            rfl
          · rw [if_neg same, if_neg same]
      · intro unopened
        have empty := (behind.unopened unopened).1
        rw [← RowBuffer.rows_length, empty] at live
        cases live
  | none =>
      dsimp only
      cases unopened : scan.first with
      | true =>
          rw [if_pos rfl]
          constructor
          · apply behind.listed.congr
            intro key isKey _
            rw [expectedBehind_append, if_neg (behind.isFirst follows ofEntity unopened isKey)]
          · intro absurdity
            cases absurdity
      | false =>
          rw [if_neg Bool.false_ne_true]
          have absent : scan.result.lookup PermissionDetails.key row.key = none := by
            rw [RowBuffer.lookup, found]
            rfl
          constructor
          · apply Listed.congr
            · exact @Listed.add _ _ _ _ (.ofRow row) behind.listed absent ofEntity outside
            · intro key isKey inMask
              rw [expectedBehind_append]
              by_cases same : row.key = key
              · have noValue := behind.listed.found key isKey inMask
                rw [← same, absent] at noValue
                have noRow : s.readRow row.key = none :=
                  (Option.or_eq_none_iff.mp (Option.map_eq_none_iff.mp noValue.symm)).2
                subst same
                rw [if_pos rfl, if_pos (by rfl), listedBlock, noRow]
                dsimp only
                rw [← received]
                rfl
              · rw [if_neg same, if_neg (by exact same)]
          · intro absurdity
            cases absurdity

end ListedBehind

end Scan

section Database

variable {params : NetworkParams} {s : Permissions} {blocks : List (Address × Hash)} {top : Int}
  {entity : Entity} {mask : Nat} {unset : Int} {key : Key}

theorem mem_keysBehind_iff :
    key ∈ s.keysBehind entity ↔ DBKey.permission key ∈ s.database.committed.keys ∧
      key.entity = entity ∧ (firstListKey entity).order < key.order := by
  unfold keysBehind
  rw [List.mem_mergeSort, List.mem_filter, List.mem_filterMap, decide_eq_true_iff]
  apply and_congr_left
  intro _
  constructor
  · rintro ⟨dbKey, member, isKey⟩
    cases dbKey with
    | permission other =>
        obtain rfl := Option.some.inj isKey
        exact member
    | adminMiner | blockMiner | adminMinerGrant => cases isKey
  · intro member
    exact ⟨_, member, rfl⟩

theorem nodup_keysBehind (s : Permissions) (entity : Entity) : (s.keysBehind entity).Nodup := by
  unfold keysBehind
  rw [(List.mergeSort_perm _ _).nodup_iff]
  apply List.Nodup.filter
  apply List.Nodup.filterMap
  · intro first second key isFirst isSecond
    cases first with
    | permission firstKey =>
        cases second with
        | permission secondKey =>
            obtain rfl := Option.some.inj isFirst
            obtain rfl := Option.some.inj isSecond
            rfl
        | adminMiner | blockMiner | adminMinerGrant => cases isSecond
    | adminMiner | blockMiner | adminMinerGrant => cases isFirst
  · exact AList.keys_nodup _

theorem firstListKey_order_lt (isKey : ListKey entity key)
    (typed : key.type ∈ mcPtpBlockMiner :: grantableTypes) :
    (firstListKey entity).order < key.order := by
  obtain ⟨address, rowAddress, allowed⟩ := isKey.account
  by_cases isNull : entity = .null
  · subst isNull
    have zero : (firstListKey .null).order = 0 := by decide
    have positive : ∀ type ∈ mcPtpBlockMiner :: grantableTypes, 0 < byteSwap32 type := by decide
    rw [zero]
    exact Nat.add_pos_right _ (positive _ typed)
  · have notZero : address.toNat ≠ 0 := by
      intro isZero
      exact (allowed.resolve_left isNull) (BitVec.eq_of_toNat_eq isZero)
    have first : (firstListKey entity).order = 2 ^ 24 := by
      rw [firstListKey_of_ne isNull]
      simp [Key.order, RowAddress.order, byteSwap32, mcPtpConnect]
    rw [first, Key.order, rowAddress]
    change 2 ^ 24 < address.toNat * 2 ^ 32 + _
    omega

theorem ListKey.ne_zeroKey (inMask : mask &&& key.type ≠ 0) : key ≠ zeroKey := by
  rintro rfl
  exact inMask (Nat.and_zero mask)

theorem ListKey.not_aboveTip (isKey : ListKey entity key) : ¬ s.AboveTip key := by
  rintro ⟨height, -, rfl⟩
  exact isKey.notIndex rfl

namespace Consistent

/-- A listed key has a row in the database if it has one in the ledger. -/
theorem readRow_eq_none_iff (consistent : Consistent s blocks top) (notZero : key ≠ zeroKey)
    (notAbove : ¬ s.AboveTip key) : s.readRow key = none ↔ newestOf s.liveLog key = none := by
  have matched := consistent.database key notZero notAbove
  cases found : newestOf s.liveLog key with
  | none =>
      cases readEq : s.readRow key with
      | none => simp
      | some pdbRow =>
          rw [found, readEq] at matched
          exact matched.elim
  | some row =>
      cases readEq : s.readRow key with
      | none =>
          rw [found, readEq] at matched
          exact matched.elim
      | some pdbRow => simp

theorem mem_keysBehind (consistent : Consistent s blocks top) (isKey : ListKey entity key)
    (inMask : mask &&& key.type ≠ 0) (found : s.readRow key ≠ none) :
    key ∈ s.keysBehind entity := by
  have inLog := (consistent.readRow_eq_none_iff (ListKey.ne_zeroKey inMask)
    isKey.not_aboveTip).not.mp found
  obtain ⟨row, newest⟩ := Option.ne_none_iff_exists'.mp inLog
  have rowKey := key_of_newestOf newest
  rw [mem_keysBehind_iff, mem_keys_iff]
  refine ⟨?_, isKey.ofEntity, ?_⟩
  · intro absent
    apply found
    unfold PermissionFiles.readRow
    rw [WriteBatch.Store.read, absent]
  · apply firstListKey_order_lt isKey
    rcases consistent.blockLog.key_cases row (List.mem_of_find?_eq_some newest) with
      granted | ⟨miner, minerKey⟩ | isIndex
    · rw [← rowKey]
      exact List.mem_cons_of_mem _ granted
    · rw [← rowKey, minerKey]
      exact List.mem_cons_self ..
    · rw [rowKey] at isIndex
      exact absurd isIndex isKey.notIndex

theorem entity_ne_of_unopened (consistent : Consistent s blocks top)
    (opened : ListsOpened s.fullLog) (noFirst : s.readRow (firstListKey entity) = none) :
    entity ≠ .null ∧ ∀ row ∈ s.liveLog, row.key.entity ≠ entity := by
  have notNull : entity ≠ .null := by
    rintro rfl
    exact absurd (noFirst.symm.trans consistent.zeroRow) (Option.some_ne_none _).symm
  refine ⟨notNull, ?_⟩
  have notZero : firstListKey entity ≠ zeroKey := by
    rw [firstListKey_of_ne notNull]
    intro same
    exact notNull (congrArg Key.entity same)
  have notAbove : ¬ s.AboveTip (firstListKey entity) := by
    rintro ⟨height, -, isIndex⟩
    rw [firstListKey_of_ne notNull] at isIndex
    exact notNull (congrArg Key.entity isIndex)
  rw [consistent.readRow_eq_none_iff notZero notAbove, newestOf_eq_none] at noFirst
  rintro row member rfl
  obtain ⟨newer, older, split⟩ := List.append_of_mem member
  have live : ListsOpened s.liveLog := opened.of_append
  rcases live newer row older split notNull with isFirst | ⟨first, inOlder, firstKey⟩
  · exact noFirst row member isFirst
  · refine noFirst first ?_ firstKey
    rw [split]
    exact List.mem_append_right _ (List.mem_cons_of_mem _ inOlder)

end Consistent

end Database

end Permissions

end HdacNode
