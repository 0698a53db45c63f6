import HdacNode.WriteBatchTable

/-!
# Indexes whose entries belong to owners

An index maps keys to values and keeps, for each owner, the list of the keys that were
entered for it.  Entries never replace others.  An owner's entries are taken out by its list.
As long as the keys of different owners differ, the index holds exactly the entries of its
owners.
-/

namespace WriteBatch

variable {Owner Key Value : Type} [DecidableEq Owner] [DecidableEq Key]

/-- Enter a value under a key, unless the key has one. -/
def insertNew (table : Table Key Value) (key : Key) (value : Value) : Table Key Value :=
  if (get table key).isSome then table else table.insert key value

/-- Write several values, first one first. -/
def insertAll (table : Table Key Value) (records : List (Key × Value)) : Table Key Value :=
  records.foldl (fun table record => table.insert record.1 record.2) table

/-- Enter several values, first one first. -/
def insertAllNew (table : Table Key Value) (records : List (Key × Value)) : Table Key Value :=
  records.foldl (fun table record => insertNew table record.1 record.2) table

/-- Erase several keys. -/
def eraseAll (table : Table Key Value) (keys : List Key) : Table Key Value :=
  keys.foldl (fun table key => table.erase key) table

theorem get_insert (table : Table Key Value) (key other : Key) (value : Value) :
    get (table.insert key value) other = if other = key then some value else get table other := by
  unfold get
  split
  · rename_i same
    rw [same, AList.lookup_insert]
  · rename_i differs
    exact AList.lookup_insert_ne differs

theorem get_erase (table : Table Key Value) (key other : Key) :
    get (table.erase key) other = if other = key then none else get table other := by
  unfold get
  split
  · rename_i same
    rw [same, AList.lookup_erase]
  · rename_i differs
    exact AList.lookup_erase_ne differs

theorem get_empty (key : Key) : get (∅ : Table Key Value) key = none :=
  AList.lookup_empty key

theorem get_insertNew (table : Table Key Value) (key other : Key) (value : Value) :
    get (insertNew table key value) other =
      if other = key then some ((get table key).getD value) else get table other := by
  unfold insertNew
  cases present : get table key with
  | none => exact get_insert table key other value
  | some old =>
    rw [Option.isSome_some, if_pos rfl]
    split
    · rename_i same
      rw [same]
      exact present
    · rfl

theorem get_eraseAll (table : Table Key Value) (keys : List Key) (key : Key) :
    get (eraseAll table keys) key = if key ∈ keys then none else get table key := by
  induction keys generalizing table with
  | nil => rfl
  | cons first keys ih =>
    change get (eraseAll (table.erase first) keys) key = _
    rw [ih, get_erase]
    by_cases among : key ∈ keys
    · simp [among]
    · by_cases same : key = first
      · simp [same]
      · simp [same, among]

/-- Values under different new keys are all entered. -/
theorem get_insertAllNew {table : Table Key Value} {records : List (Key × Value)}
    (fresh : ∀ record ∈ records, get table record.1 = none)
    (distinct : (records.map Prod.fst).Nodup) (key : Key) (value : Value) :
    get (insertAllNew table records) key = some value ↔
      get table key = some value ∨ (key, value) ∈ records := by
  induction records generalizing table with
  | nil => simp [insertAllNew]
  | cons record records ih =>
    rw [List.map_cons, List.nodup_cons] at distinct
    have freshFirst := fresh record List.mem_cons_self
    have freshRest : ∀ other ∈ records,
        get (insertNew table record.1 record.2) other.1 = none := by
      intro other among
      have differs : other.1 ≠ record.1 := by
        intro same
        exact distinct.1 (same ▸ List.mem_map_of_mem among)
      rw [get_insertNew, if_neg differs]
      exact fresh other (List.mem_cons_of_mem _ among)
    change get (insertAllNew (insertNew table record.1 record.2) records) key = some value ↔ _
    rw [ih freshRest distinct.2, get_insertNew, freshFirst, Option.getD_none]
    by_cases same : key = record.1
    · rw [if_pos same, same, freshFirst, List.mem_cons]
      constructor
      · rintro (found | among)
        · exact .inr (.inl (by rw [← Option.some.inj found]))
        · exact .inr (.inr among)
      · rintro (found | first | among)
        · cases found
        · exact .inl (by rw [← first])
        · exact .inr among
    · rw [if_neg same, List.mem_cons]
      constructor
      · rintro (found | among)
        · exact .inl found
        · exact .inr (.inr among)
      · rintro (found | first | among)
        · exact .inl found
        · exact absurd (congrArg Prod.fst first) same
        · exact .inr among

theorem get_insertAll {table : Table Key Value} {records : List (Key × Value)}
    (fresh : ∀ record ∈ records, get table record.1 = none)
    (distinct : (records.map Prod.fst).Nodup) (key : Key) (value : Value) :
    get (insertAll table records) key = some value ↔
      get table key = some value ∨ (key, value) ∈ records := by
  have asNew : insertAll table records = insertAllNew table records := by
    induction records generalizing table with
    | nil => rfl
    | cons record records ih =>
      rw [List.map_cons, List.nodup_cons] at distinct
      have freshFirst := fresh record List.mem_cons_self
      have notPresent : insertNew table record.1 record.2 = table.insert record.1 record.2 := by
        rw [insertNew, freshFirst]
        rfl
      change insertAll (table.insert record.1 record.2) records =
        insertAllNew (insertNew table record.1 record.2) records
      rw [notPresent]
      refine ih ?_ distinct.2
      intro other among
      have differs : other.1 ≠ record.1 := by
        intro same
        exact distinct.1 (same ▸ List.mem_map_of_mem among)
      rw [get_insert, if_neg differs]
      exact fresh other (List.mem_cons_of_mem _ among)
  rw [asNew]
  exact get_insertAllNew fresh distinct key value

/-- Entries, and the keys that were entered for each owner. -/
structure OwnerIndex (Owner Key Value : Type) where
  map : Table Key Value
  inserted : Table Owner (List Key)

namespace OwnerIndex

/-- An index without entries. -/
def empty : OwnerIndex Owner Key Value := ⟨∅, ∅⟩

/-- Enter the records of an owner. -/
def add (index : OwnerIndex Owner Key Value) (owner : Owner) (records : List (Key × Value)) :
    OwnerIndex Owner Key Value where
  map := insertAllNew index.map records
  inserted := insertNew index.inserted owner (records.map Prod.fst)

/-- Take out what was entered for an owner. -/
def remove (index : OwnerIndex Owner Key Value) (owner : Owner) : OwnerIndex Owner Key Value :=
  match get index.inserted owner with
  | none => index
  | some keys => ⟨eraseAll index.map keys, index.inserted.erase owner⟩

variable {index : OwnerIndex Owner Key Value} {recordsOf : Owner → Option (List (Key × Value))}

/-- Both tables are empty. -/
def IsEmpty (index : OwnerIndex Owner Key Value) : Prop :=
  (∀ key, get index.map key = none) ∧ ∀ owner, get index.inserted owner = none

/-- The entries are exactly the records of the owners, and the lists are those of their keys. -/
structure Holds (index : OwnerIndex Owner Key Value)
    (recordsOf : Owner → Option (List (Key × Value))) : Prop where
  entries : ∀ key value, get index.map key = some value ↔
    ∃ owner records, recordsOf owner = some records ∧ (key, value) ∈ records
  listed : ∀ owner, get index.inserted owner =
    (recordsOf owner).map fun records => records.map Prod.fst

/-- An index files the records of its owners: it holds exactly them, and each key belongs to one
owner. -/
structure Files (index : OwnerIndex Owner Key Value)
    (recordsOf : Owner → Option (List (Key × Value))) : Prop extends index.Holds recordsOf where
  apart : ∀ owner other records others, recordsOf owner = some records →
    recordsOf other = some others → owner ≠ other →
    ∀ record ∈ records, ∀ otherRecord ∈ others, record.1 ≠ otherRecord.1

theorem files_empty : (empty : OwnerIndex Owner Key Value).Files fun _ => none where
  entries := by
    intro key value
    rw [empty, get_empty]
    constructor
    · rintro ⟨⟩
    · rintro ⟨owner, records, ⟨⟩, _⟩
  listed owner := get_empty owner
  apart := by
    rintro owner other records others ⟨⟩

/-- An owner's records under new keys are filed. -/
theorem Files.add {owner : Owner} {records : List (Key × Value)} (files : index.Files recordsOf)
    (free : get index.inserted owner = none)
    (fresh : ∀ record ∈ records, get index.map record.1 = none)
    (distinct : (records.map Prod.fst).Nodup) :
    (index.add owner records).Files (Function.update recordsOf owner (some records)) := by
  have noRecords : recordsOf owner = none := by
    cases found : recordsOf owner with
    | none => rfl
    | some old =>
      rw [files.listed owner, found] at free
      cases free
  have freshFrom : ∀ other others, recordsOf other = some others →
      ∀ record ∈ records, ∀ otherRecord ∈ others, record.1 ≠ otherRecord.1 := by
    intro other others found record among otherRecord otherAmong same
    have taken := (files.entries otherRecord.1 otherRecord.2).mpr ⟨other, others, found, otherAmong⟩
    rw [← same, fresh record among] at taken
    cases taken
  refine ⟨⟨?_, ?_⟩, ?_⟩
  · intro key value
    rw [OwnerIndex.add, get_insertAllNew fresh distinct, files.entries]
    constructor
    · rintro (⟨other, others, found, among⟩ | among)
      · have differs : other ≠ owner := by
          rintro rfl
          rw [noRecords] at found
          cases found
        exact ⟨other, others, by rw [Function.update_of_ne differs]; exact found, among⟩
      · exact ⟨owner, records, Function.update_self .., among⟩
    · rintro ⟨other, others, found, among⟩
      by_cases same : other = owner
      · rw [same, Function.update_self] at found
        cases found
        exact .inr among
      · rw [Function.update_of_ne same] at found
        exact .inl ⟨other, others, found, among⟩
  · intro other
    change get (insertNew index.inserted owner _) other = _
    rw [get_insertNew, free]
    by_cases same : other = owner
    · rw [same, Function.update_self, if_pos rfl]
      rfl
    · rw [Function.update_of_ne same, if_neg same]
      exact files.listed other
  · intro one other oneRecords others foundOne foundOther differs record among otherRecord
      otherAmong
    by_cases isOne : one = owner
    · rw [isOne, Function.update_self] at foundOne
      cases foundOne
      rw [Function.update_of_ne (fun same => differs (isOne.trans same.symm))] at foundOther
      exact freshFrom other others foundOther record among otherRecord otherAmong
    · rw [Function.update_of_ne isOne] at foundOne
      by_cases isOther : other = owner
      · rw [isOther, Function.update_self] at foundOther
        cases foundOther
        exact (freshFrom one oneRecords foundOne otherRecord otherAmong record among).symm
      · rw [Function.update_of_ne isOther] at foundOther
        exact files.apart one other oneRecords others foundOne foundOther differs record among
          otherRecord otherAmong

/-- An owner's records are taken out, and no others. -/
theorem Files.remove (files : index.Files recordsOf) (owner : Owner) :
    (index.remove owner).Files (Function.update recordsOf owner none) := by
  have others : ∀ other otherRecords,
      Function.update recordsOf owner none other = some otherRecords ↔
        other ≠ owner ∧ recordsOf other = some otherRecords := by
    intro other otherRecords
    by_cases same : other = owner
    · rw [same, Function.update_self]
      simp
    · rw [Function.update_of_ne same]
      simp [same]
  rw [OwnerIndex.remove]
  cases listed : get index.inserted owner with
  | none =>
    have same : Function.update recordsOf owner none = recordsOf := by
      rw [Function.update_eq_self_iff]
      rw [files.listed owner, Option.map_eq_none_iff] at listed
      exact listed.symm
    rw [same]
    exact files
  | some keys =>
    have keysOf : ∀ key, key ∈ keys ↔ ∃ records value, recordsOf owner = some records ∧
        (key, value) ∈ records := by
      intro key
      rw [files.listed owner] at listed
      obtain ⟨records, found, rfl⟩ := Option.map_eq_some_iff.mp listed
      simp [found]
    refine ⟨⟨?_, ?_⟩, ?_⟩
    · intro key value
      change get (eraseAll index.map keys) key = some value ↔ _
      rw [get_eraseAll]
      constructor
      · intro kept
        split at kept
        · cases kept
        · rename_i notOwned
          obtain ⟨other, otherRecords, found, among⟩ := (files.entries key value).mp kept
          refine ⟨other, otherRecords, (others _ _).mpr ⟨?_, found⟩, among⟩
          rintro rfl
          exact notOwned ((keysOf key).mpr ⟨otherRecords, value, found, among⟩)
      · rintro ⟨other, otherRecords, found, among⟩
        obtain ⟨differs, found⟩ := (others _ _).mp found
        rw [if_neg]
        · exact (files.entries key value).mpr ⟨other, otherRecords, found, among⟩
        · intro owned
          obtain ⟨records, ownValue, foundOwn, amongOwn⟩ := (keysOf key).mp owned
          exact files.apart other owner otherRecords records found foundOwn differs _ among _
            amongOwn rfl
    · intro other
      change get (index.inserted.erase owner) other = _
      rw [get_erase]
      by_cases same : other = owner
      · rw [if_pos same, same, Function.update_self]
        rfl
      · rw [if_neg same, Function.update_of_ne same]
        exact files.listed other
    · intro one other oneRecords otherRecords foundOne foundOther
      exact files.apart one other oneRecords otherRecords ((others _ _).mp foundOne).2
        ((others _ _).mp foundOther).2

/-- An index without lists files nothing. -/
theorem Files.forget (files : index.Files recordsOf)
    (noLists : ∀ owner, get index.inserted owner = none) : index.Files fun _ => none := by
  have nobody : recordsOf = fun _ => none := by
    ext owner : 1
    rw [← Option.map_eq_none_iff, ← files.listed owner]
    exact noLists owner
  rw [← nobody]
  exact files

/-- An index holds nothing exactly when both its tables are empty. -/
theorem holds_none_iff : index.Holds (fun _ => none) ↔ index.IsEmpty := by
  constructor
  · intro holds
    refine ⟨fun key => ?_, holds.listed⟩
    cases taken : get index.map key with
    | none => rfl
    | some value =>
      obtain ⟨owner, records, found, -⟩ := (holds.entries key value).mp taken
      cases found
  · rintro ⟨noEntries, noLists⟩
    refine ⟨fun key value => ?_, noLists⟩
    rw [noEntries]
    simp

end OwnerIndex

end WriteBatch
