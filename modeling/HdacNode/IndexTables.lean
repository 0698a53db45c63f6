import HdacNode.CoinsRoundTrip

/-!
# The indexes behind a block that was connected and disconnected

Each of the four indexes is a table that two batches were applied to, one write for each
mark of the block.  The address index keeps no record of a mark.  In the address-unspent
index the first mark of an output decides what is left of it, and in the spent index,
which `DisconnectBlock` does not write to, the last one.
-/

namespace HdacNode

open WriteBatch

/-- All indexes are kept. -/
def IndexOptions.all : IndexOptions := ⟨true, true, true⟩

namespace IndexMark

/-- The address that a mark is filed under. -/
def address : IndexMark → Option (Nat × Bytes)
  | .spends _ _ _ _ undo => CScript.indexedAddress undo.txout.scriptPubKey
  | .creates _ _ _ out => CScript.indexedAddress out.scriptPubKey

/-- The output that is marked. -/
def outPoint : IndexMark → COutPoint
  | .spends _ _ _ input _ => input.prevout
  | .creates _ tx k _ => ⟨tx.hash, k⟩

/-- The key of a mark in the address index. -/
def addressKey (address : Nat × Bytes) : IndexMark → CAddressIndexKey
  | .spends place tx j _ _ => spendingKey place tx address j
  | .creates place tx k _ => receivingKey place tx address k

/-- The amount of a mark in the address index. -/
def amount : IndexMark → Int
  | .spends _ _ _ _ undo => -undo.txout.nValue
  | .creates _ _ _ out => out.nValue

/-- What `ConnectBlock` puts into the address-unspent index. -/
def newUnspent : IndexMark → CAddressUnspentValue
  | .spends .. => .null
  | .creates place _ _ out => ⟨out.nValue, out.scriptPubKey, place.nHeight⟩

/-- What `DisconnectBlock` puts into the address-unspent index. -/
def oldUnspent : IndexMark → CAddressUnspentValue
  | .spends _ _ _ _ undo => ⟨undo.txout.nValue, undo.txout.scriptPubKey, undo.nHeight⟩
  | .creates .. => .null

/-- What `ConnectBlock` puts into the spent index. -/
def spentBy : IndexMark → Option CSpentIndexValue
  | .spends place tx j _ undo => some (spentRecord place tx undo.txout j)
  | .creates .. => none

theorem connectRecords_all (mark : IndexMark) :
    mark.connectRecords .all =
      ⟨(mark.address.map fun address => (mark.addressKey address, mark.amount)).toList,
        (mark.address.map fun address => (unspentKey address mark.outPoint,
          mark.newUnspent)).toList,
        (mark.spentBy.map fun value => (mark.outPoint, value)).toList⟩ := by
  cases mark with
  | spends place tx j input undo =>
      simp only [connectRecords, inputRecords, address]
      cases CScript.indexedAddress undo.txout.scriptPubKey <;> rfl
  | creates place tx k out =>
      simp only [connectRecords, connectOutputRecords, outputRecords, address]
      cases CScript.indexedAddress out.scriptPubKey <;> rfl

theorem addressRecords_disconnectRecords_all (mark : IndexMark) :
    (mark.disconnectRecords .all).addressIndex =
      (mark.address.map fun address => (mark.addressKey address, mark.amount)).toList ∧
    (mark.disconnectRecords .all).addressUnspentIndex =
      (mark.address.map fun address => (unspentKey address mark.outPoint,
        mark.oldUnspent)).toList := by
  cases mark with
  | spends place tx j input undo =>
      simp only [disconnectRecords, inputRecords, address]
      cases CScript.indexedAddress undo.txout.scriptPubKey <;> exact ⟨rfl, rfl⟩
  | creates place tx k out =>
      simp only [disconnectRecords, outputRecords, address]
      cases CScript.indexedAddress out.scriptPubKey <;> exact ⟨rfl, rfl⟩

end IndexMark

namespace CBlockTreeDB

/-- The four indexes hold the same records. -/
structure SameIndexes (first second : CBlockTreeDB) : Prop where
  addressIndex : ∀ key, get first.addressIndex key = get second.addressIndex key
  addressUnspentIndex : ∀ key,
    get first.addressUnspentIndex key = get second.addressUnspentIndex key
  spentIndex : ∀ key, get first.spentIndex key = get second.spentIndex key
  timestampIndex : ∀ key, get first.timestampIndex key = get second.timestampIndex key

end CBlockTreeDB

section Tables

variable (pindex : CBlockIndex) (db : CBlockTreeDB) (block : CBlock) (marks : List IndexMark)

/-- The indexes behind a block that was connected and disconnected. -/
def roundTrip : CBlockTreeDB :=
  disconnectIndexes .all
    (connectIndexes .all pindex db block (.collect (marks.map (IndexMark.connectRecords .all))))
    (.collect (marks.reverse.map (IndexMark.disconnectRecords .all)))

theorem map_flatMap_toList {Record Value : Type} (marks : List IndexMark)
    (recordOf : IndexMark → Option Record) (f : Record → Value) :
    (marks.flatMap fun mark => (recordOf mark).toList).map f =
      marks.flatMap fun mark => ((recordOf mark).map f).toList := by
  induction marks with
  | nil => rfl
  | cons mark marks ih =>
      rw [List.flatMap_cons, List.flatMap_cons, List.map_append, ih]
      cases recordOf mark <;> rfl

/-- The write of `ConnectBlock` to the address index. -/
def addressWrite (mark : IndexMark) : Option (Write CAddressIndexKey Int) :=
  mark.address.map fun address => ⟨mark.addressKey address, some mark.amount⟩

/-- The write of `DisconnectBlock` to the address index. -/
def addressErase (mark : IndexMark) : Option (Write CAddressIndexKey Int) :=
  mark.address.map fun address => ⟨mark.addressKey address, none⟩

/-- The write of a block to the address-unspent index. -/
def unspentMark (valueOf : IndexMark → CAddressUnspentValue) (mark : IndexMark) :
    Option (Write CAddressUnspentKey CAddressUnspentValue) :=
  mark.address.map fun address =>
    CBlockTreeDB.unspentWrite (unspentKey address mark.outPoint, valueOf mark)

/-- The write of `ConnectBlock` to the spent index. -/
def spentMark (mark : IndexMark) : Option (Write COutPoint CSpentIndexValue) :=
  mark.spentBy.map fun value => CBlockTreeDB.spentWrite (mark.outPoint, value)

theorem roundTrip_eq :
    roundTrip pindex db block marks =
      { addressIndex :=
          applyBatch (applyBatch db.addressIndex
              (marks.flatMap fun mark => (addressWrite mark).toList))
            (marks.reverse.flatMap fun mark => (addressErase mark).toList)
        addressUnspentIndex :=
          applyBatch (applyBatch db.addressUnspentIndex
              (marks.flatMap fun mark => (unspentMark IndexMark.newUnspent mark).toList))
            (marks.reverse.flatMap fun mark => (unspentMark IndexMark.oldUnspent mark).toList)
        spentIndex :=
          applyBatch db.spentIndex (marks.flatMap fun mark => (spentMark mark).toList)
        timestampIndex :=
          applyBatch db.timestampIndex [⟨⟨db.logicalTimestamp block pindex, block.hash⟩, some ()⟩]
        timestampBlockIndex :=
          applyBatch db.timestampBlockIndex
            [⟨block.hash, some (db.logicalTimestamp block pindex)⟩] } := by
  have connected := IndexRecords.collect_eq (marks.map (IndexMark.connectRecords .all))
  have disconnected :=
    IndexRecords.collect_eq (marks.reverse.map (IndexMark.disconnectRecords .all))
  simp only [List.flatMap_map, IndexMark.connectRecords_all] at connected
  simp only [List.flatMap_map, IndexMark.addressRecords_disconnectRecords_all] at disconnected
  unfold roundTrip disconnectIndexes connectIndexes
  rw [connected, disconnected]
  simp only [IndexOptions.all, if_true, CBlockTreeDB.writeAddressIndex,
    CBlockTreeDB.updateAddressUnspentIndex, CBlockTreeDB.updateSpentIndex,
    CBlockTreeDB.eraseAddressIndex, CBlockTreeDB.writeTimestamp, CBlockTreeDB.logicalTimestamp,
    map_flatMap_toList, Option.map_map]
  rfl

theorem addressIndex_roundTrip (key : CAddressIndexKey) :
    get (roundTrip pindex db block marks).addressIndex key =
      if ∃ mark ∈ marks, ∃ address, mark.address = some address ∧ mark.addressKey address = key
      then none else get db.addressIndex key := by
  rw [roundTrip_eq]
  simp only [get_applyBatch, lastWrite_flatMap, List.reverse_reverse]
  split
  · rename_i write found
    obtain ⟨mark, inMarks, isErase⟩ := List.exists_of_findSome?_eq_some found
    unfold addressErase at isErase
    rw [Option.filter_eq_some_iff, Option.map_eq_some_iff] at isErase
    obtain ⟨⟨address, hasAddress, rfl⟩, sameKey⟩ := isErase
    rw [if_pos ⟨mark, inMarks, address, hasAddress, by simpa using sameKey⟩]
  · rename_i notErased
    rw [List.findSome?_eq_none_iff] at notErased
    have untouched : ∀ mark ∈ marks, ∀ address, mark.address = some address →
        mark.addressKey address ≠ key := by
      intro mark inMarks address hasAddress
      simpa [addressErase, hasAddress] using notErased mark inMarks
    have notWritten : (marks.reverse.findSome? fun mark =>
        (addressWrite mark).filter fun write => write.key = key) = none := by
      rw [List.findSome?_eq_none_iff]
      intro mark inMarks
      cases hasAddress : mark.address with
      | none => simp [addressWrite, hasAddress]
      | some address =>
          simp [addressWrite, hasAddress,
            untouched mark (List.mem_reverse.mp inMarks) address hasAddress]
    rw [notWritten, if_neg]
    rintro ⟨mark, inMarks, address, hasAddress, sameKey⟩
    exact untouched mark inMarks address hasAddress sameKey

/-- The first mark of an output under an address decides what is left of it in the
address-unspent index. -/
def firstUnspent (address : Nat × Bytes) (outPoint : COutPoint) (marks : List IndexMark) :
    Option CAddressUnspentValue :=
  marks.findSome? fun mark =>
    if mark.address = some address ∧ mark.outPoint = outPoint then some mark.oldUnspent else none

theorem unspentKey_injective {address other : Nat × Bytes} {outPoint otherPoint : COutPoint} :
    unspentKey address outPoint = unspentKey other otherPoint ↔
      address = other ∧ outPoint = otherPoint := by
  obtain ⟨type, hashBytes⟩ := address
  obtain ⟨otherType, otherBytes⟩ := other
  obtain ⟨hash, n⟩ := outPoint
  obtain ⟨otherHash, m⟩ := otherPoint
  simp [unspentKey, and_assoc]

theorem filter_unspentMark (valueOf : IndexMark → CAddressUnspentValue)
    (address : Nat × Bytes) (outPoint : COutPoint) (mark : IndexMark) :
    (unspentMark valueOf mark).filter (fun write => write.key = unspentKey address outPoint) =
      (if mark.address = some address ∧ mark.outPoint = outPoint then some (valueOf mark)
        else none).map fun value =>
          CBlockTreeDB.unspentWrite (unspentKey address outPoint, value) := by
  unfold unspentMark
  cases hasAddress : mark.address with
  | none => simp
  | some other =>
      rw [Option.map_some, Option.filter_some]
      by_cases same : other = address ∧ mark.outPoint = outPoint
      · obtain ⟨rfl, rfl⟩ := same
        simp [CBlockTreeDB.unspentWrite]
      · have differentKey : unspentKey other mark.outPoint ≠ unspentKey address outPoint :=
          fun sameKey => same (unspentKey_injective.mp sameKey)
        simp [CBlockTreeDB.unspentWrite, differentKey, same]

theorem findSome_unspentMark (valueOf : IndexMark → CAddressUnspentValue)
    (address : Nat × Bytes) (outPoint : COutPoint) (marks : List IndexMark) :
    (marks.findSome? fun mark => (unspentMark valueOf mark).filter fun write =>
        write.key = unspentKey address outPoint) =
      (marks.findSome? fun mark =>
        if mark.address = some address ∧ mark.outPoint = outPoint then some (valueOf mark)
        else none).map fun value =>
          CBlockTreeDB.unspentWrite (unspentKey address outPoint, value) := by
  simp only [filter_unspentMark, List.map_findSome?]
  rfl

theorem addressUnspentIndex_roundTrip (address : Nat × Bytes) (outPoint : COutPoint) :
    get (roundTrip pindex db block marks).addressUnspentIndex (unspentKey address outPoint) =
      match firstUnspent address outPoint marks with
      | some value =>
          (CBlockTreeDB.unspentWrite (unspentKey address outPoint, value)).value
      | none => get db.addressUnspentIndex (unspentKey address outPoint) := by
  rw [roundTrip_eq]
  simp only [get_applyBatch, lastWrite_flatMap, List.reverse_reverse, findSome_unspentMark]
  unfold firstUnspent
  cases first : marks.findSome? fun mark =>
      if mark.address = some address ∧ mark.outPoint = outPoint then some mark.oldUnspent
      else none with
  | some value => rfl
  | none =>
      have notWritten : (marks.reverse.findSome? fun mark =>
          if mark.address = some address ∧ mark.outPoint = outPoint then some mark.newUnspent
          else none) = none := by
        rw [List.findSome?_eq_none_iff] at first ⊢
        intro mark inMarks
        have untouched := first mark (List.mem_reverse.mp inMarks)
        rw [ite_eq_right_iff] at untouched ⊢
        intro touched
        exact absurd (untouched touched) (by simp)
      rw [notWritten]
      rfl

theorem spentIndex_roundTrip (outPoint : COutPoint) :
    get (roundTrip pindex db block marks).spentIndex outPoint =
      match marks.reverse.findSome? fun mark =>
        (spentMark mark).filter fun write => write.key = outPoint with
      | some write => write.value
      | none => get db.spentIndex outPoint := by
  rw [roundTrip_eq]
  simp only [get_applyBatch, lastWrite_flatMap]
  cases marks.reverse.findSome? fun mark =>
    (spentMark mark).filter fun write => write.key = outPoint <;> rfl

theorem timestampIndex_roundTrip (key : CTimestampIndexKey) :
    get (roundTrip pindex db block marks).timestampIndex key =
      if (⟨db.logicalTimestamp block pindex, block.hash⟩ : CTimestampIndexKey) = key then some ()
      else get db.timestampIndex key := by
  rw [roundTrip_eq]
  simp only [get_applyBatch, lastWrite_singleton]
  by_cases same : (⟨db.logicalTimestamp block pindex, block.hash⟩ : CTimestampIndexKey) = key
  · simp [same]
  · simp [same]

end Tables

end HdacNode
