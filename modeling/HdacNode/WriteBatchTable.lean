import Mathlib.Data.List.AList
import Mathlib.Data.List.Induction

/-!
# Tables with an atomic write batch

A table maps keys to values.  Writes are either immediate or collected in a
batch that one commit applies in order.  Reads see the committed table only.
The value that a batch leaves under a key is the one of the last write to
that key, and a key that no write names keeps its value.
-/

namespace WriteBatch

/-- One write to a table; a write without a value deletes its key. -/
structure Write (Key Value : Type) where
  key : Key
  value : Option Value

/-- A finite map from keys to values. -/
abbrev Table (Key Value : Type) := AList fun _ : Key => Value

variable {Key Value : Type} [DecidableEq Key]

/-- The value stored under a key. -/
def get (table : Table Key Value) (key : Key) : Option Value :=
  table.lookup key

/-- Carry out one write. -/
def applyWrite (table : Table Key Value) (write : Write Key Value) :
    Table Key Value :=
  match write.value with
  | some value => table.insert write.key value
  | none => table.erase write.key

/-- Carry out a batch, first write first. -/
def applyBatch (table : Table Key Value) (writes : List (Write Key Value)) :
    Table Key Value :=
  writes.foldl applyWrite table

/-- The last write of a batch to a key. -/
def lastWrite (writes : List (Write Key Value)) (key : Key) :
    Option (Write Key Value) :=
  writes.reverse.find? fun write => write.key = key

theorem get_applyWrite (table : Table Key Value) (write : Write Key Value)
    (key : Key) :
    get (applyWrite table write) key =
      if write.key = key then write.value else get table key := by
  unfold applyWrite get
  by_cases sameKey : write.key = key
  · subst sameKey
    cases valueEq : write.value <;> simp
  · have otherKey : key ≠ write.key := fun h => sameKey h.symm
    cases valueEq : write.value with
    | none => simp [sameKey, AList.lookup_erase_ne otherKey]
    | some value => simp [sameKey, AList.lookup_insert_ne otherKey]

@[simp]
theorem applyBatch_nil (table : Table Key Value) : applyBatch table [] = table :=
  rfl

@[simp]
theorem applyBatch_append (table : Table Key Value)
    (first second : List (Write Key Value)) :
    applyBatch table (first ++ second) =
      applyBatch (applyBatch table first) second :=
  List.foldl_append

theorem lastWrite_append (first second : List (Write Key Value)) (key : Key) :
    lastWrite (first ++ second) key = (lastWrite second key).or (lastWrite first key) := by
  simp [lastWrite, List.find?_append]

theorem lastWrite_singleton (write : Write Key Value) (key : Key) :
    lastWrite [write] key = if write.key = key then some write else none := by
  by_cases sameKey : write.key = key <;> simp [lastWrite, sameKey]

theorem lastWrite_eq_none {writes : List (Write Key Value)} {key : Key} :
    lastWrite writes key = none ↔ ∀ write ∈ writes, write.key ≠ key := by
  simp [lastWrite]

/-- The last write of a batch that has at most one write for each of some items. -/
theorem lastWrite_flatMap {Item : Type} (items : List Item)
    (writeOf : Item → Option (Write Key Value)) (key : Key) :
    lastWrite (items.flatMap fun item => (writeOf item).toList) key =
      items.reverse.findSome? fun item => (writeOf item).filter fun write => write.key = key := by
  induction items using List.reverseRecOn with
  | nil => rfl
  | append_singleton items item ih =>
      rw [List.flatMap_append, lastWrite_append, ih, List.reverse_append, List.reverse_singleton,
        List.singleton_append, List.findSome?_cons, List.flatMap_singleton]
      cases written : writeOf item with
      | none => rfl
      | some write =>
          rw [Option.toList_some, lastWrite_singleton, Option.filter_some]
          by_cases sameKey : write.key = key
          · simp [sameKey]
          · simp [sameKey]

/-- The last write to a key decides what a batch leaves under it. -/
theorem get_applyBatch (table : Table Key Value)
    (writes : List (Write Key Value)) (key : Key) :
    get (applyBatch table writes) key =
      match lastWrite writes key with
      | some write => write.value
      | none => get table key := by
  induction writes using List.reverseRecOn with
  | nil => rfl
  | append_singleton writes write ih =>
      rw [applyBatch_append, lastWrite_append, lastWrite_singleton]
      change get (applyWrite (applyBatch table writes) write) key = _
      rw [get_applyWrite]
      by_cases sameKey : write.key = key
      · simp [sameKey]
      · simp [sameKey, ih]

theorem mem_keys_iff (table : Table Key Value) (key : Key) :
    key ∈ table.keys ↔ get table key ≠ none := by
  rw [← AList.mem_keys, get, ne_eq, AList.lookup_eq_none, not_not]

/-- A table together with the batch that waits for the next commit. -/
structure Store (Key Value : Type) where
  committed : Table Key Value
  pending : List (Write Key Value)

namespace Store

/-- Read a committed value. -/
def read (store : Store Key Value) (key : Key) : Option Value :=
  get store.committed key

/-- Collect a write in the batch. -/
def write (store : Store Key Value) (entry : Write Key Value) : Store Key Value :=
  { store with pending := store.pending ++ [entry] }

/-- Carry out a write at once, past the batch. -/
def writeNow (store : Store Key Value) (entry : Write Key Value) : Store Key Value :=
  { store with committed := applyWrite store.committed entry }

/-- Apply the batch as one step and start an empty one. -/
def commit (store : Store Key Value) : Store Key Value where
  committed := applyBatch store.committed store.pending
  pending := []

@[simp]
theorem pending_commit (store : Store Key Value) : store.commit.pending = [] :=
  rfl

@[simp]
theorem read_write (store : Store Key Value) (entry : Write Key Value) (key : Key) :
    (store.write entry).read key = store.read key :=
  rfl

omit [DecidableEq Key] in
/-- Writes collected one by one follow those already in the batch. -/
theorem foldl_write (store : Store Key Value) (entries : List (Write Key Value)) :
    entries.foldl write store = { store with pending := store.pending ++ entries } := by
  induction entries generalizing store with
  | nil => simp
  | cons entry entries ih => simp [ih, write]

/-- What a commit leaves under a key. -/
theorem read_commit (store : Store Key Value) (key : Key) :
    store.commit.read key =
      match lastWrite store.pending key with
      | some entry => entry.value
      | none => store.read key :=
  get_applyBatch _ _ _

/-- A batch without deletes keeps every key that was there. -/
theorem read_commit_ne_none {store : Store Key Value} {key : Key}
    (noDeletes : ∀ entry ∈ store.pending, entry.value ≠ none)
    (present : store.read key ≠ none) : store.commit.read key ≠ none := by
  rw [read_commit]
  cases found : lastWrite store.pending key with
  | none => exact present
  | some entry => exact noDeletes entry (by simpa using List.mem_of_find?_eq_some found)

theorem commit_eq_self {store : Store Key Value} (empty : store.pending = []) :
    store.commit = store := by
  obtain ⟨committed, pending⟩ := store
  subst empty
  rfl

theorem read_commit_write (store : Store Key Value) (entry : Write Key Value) (key : Key) :
    (store.write entry).commit.read key =
      if entry.key = key then entry.value else store.commit.read key := by
  change get (applyBatch store.committed (store.pending ++ [entry])) key = _
  rw [applyBatch_append]
  exact get_applyWrite _ _ _

/-- What a commit leaves after a series of deletes. -/
theorem read_commit_deletes (store : Store Key Value) (keys : List Key) (key : Key) :
    (keys.foldl (fun store key => store.write ⟨key, none⟩) store).commit.read key =
      if key ∈ keys then none else store.commit.read key := by
  induction keys generalizing store with
  | nil => simp
  | cons first keys ih =>
      rw [List.foldl_cons, ih, read_commit_write]
      by_cases atFirst : first = key
      · simp [atFirst]
      · have otherKey : key ≠ first := fun same => atFirst same.symm
        simp [atFirst, otherKey]

theorem read_writeNow (store : Store Key Value) (entry : Write Key Value)
    (key : Key) :
    (store.writeNow entry).read key =
      if entry.key = key then entry.value else store.read key :=
  get_applyWrite _ _ _

end Store

end WriteBatch
