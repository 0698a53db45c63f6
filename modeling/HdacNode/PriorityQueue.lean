import Mathlib.Data.List.Perm.Basic

/-!
# Priority queues

A heap of entries under a comparison: entries are pushed, and a greatest one is popped.  Which
of several greatest entries is popped is left open, as it is for `std::pop_heap`.
-/

/-- A heap of entries. -/
structure PriorityQueue (Entry : Type) (less : Entry → Entry → Bool) where
  Heap : Type
  entries : Heap → List Entry
  make : List Entry → Heap
  push : Heap → Entry → Heap
  pop : Heap → Option (Entry × Heap)
  entries_make : ∀ list, (entries (make list)).Perm list
  entries_push : ∀ heap entry, (entries (push heap entry)).Perm (entry :: entries heap)
  entries_of_pop_none : ∀ heap, pop heap = none → entries heap = []
  entries_of_pop : ∀ heap entry rest, pop heap = some (entry, rest) →
    (entries heap).Perm (entry :: entries rest)
  pop_greatest : ∀ heap entry rest, pop heap = some (entry, rest) →
    ∀ other ∈ entries rest, less entry other = false

namespace PriorityQueue

variable {Entry : Type} {less : Entry → Entry → Bool}

section Lists

/-- An entry that no entry of a list is greater than. -/
def greatestOf (less : Entry → Entry → Bool) (list : List Entry) : Option Entry :=
  list.find? fun entry => list.all fun other => !less entry other

variable (asymm : ∀ first second, less first second = true → less second first = false)
  (trans : ∀ first second third, less first second = true → less second third = true →
    less first third = true)

include asymm trans in
theorem exists_greatest {list : List Entry} (notEmpty : list ≠ []) :
    ∃ entry ∈ list, ∀ other ∈ list, less entry other = false := by
  induction list with
  | nil => exact absurd rfl notEmpty
  | cons first list ih =>
    have selfNotLess (entry : Entry) : less entry entry = false := by
      by_contra isLess
      have isLess : less entry entry = true := eq_true_of_ne_false isLess
      rw [asymm entry entry isLess] at isLess
      cases isLess
    by_cases empty : list = []
    · refine ⟨first, List.mem_cons_self, fun other among => ?_⟩
      rw [empty, List.mem_singleton] at among
      rw [among]
      exact selfNotLess first
    · obtain ⟨entry, inList, greatest⟩ := ih empty
      cases isLess : less entry first with
      | false =>
        refine ⟨entry, List.mem_cons_of_mem _ inList, fun other among => ?_⟩
        rcases List.mem_cons.mp among with rfl | among
        · exact isLess
        · exact greatest other among
      | true =>
        refine ⟨first, List.mem_cons_self, fun other among => ?_⟩
        rcases List.mem_cons.mp among with rfl | among
        · exact selfNotLess _
        · by_contra less'
          have less' := trans _ _ _ isLess (eq_true_of_ne_false less')
          rw [greatest other among] at less'
          cases less'

theorem greatestOf_spec {list : List Entry} {entry : Entry}
    (found : greatestOf less list = some entry) :
    entry ∈ list ∧ ∀ other ∈ list, less entry other = false := by
  refine ⟨List.mem_of_find?_eq_some found, fun other among => ?_⟩
  have all := List.find?_some found
  simpa using List.all_eq_true.mp all other among

variable [DecidableEq Entry]

/-- A list as a heap. -/
def ofLists : PriorityQueue Entry less where
  Heap := List Entry
  entries := id
  make := id
  push heap entry := entry :: heap
  pop heap := (greatestOf less heap).map fun entry => (entry, heap.erase entry)
  entries_make list := .refl list
  entries_push heap entry := .refl _
  entries_of_pop_none := by
    intro heap nothing
    by_contra notEmpty
    obtain ⟨entry, among, greatest⟩ := exists_greatest asymm trans notEmpty
    have found := List.find?_eq_none.mp (Option.map_eq_none_iff.mp nothing) entry among
    refine found (List.all_eq_true.mpr fun other isOther => ?_)
    rw [greatest other isOther]
    rfl
  entries_of_pop := by
    intro heap entry rest popped
    obtain ⟨first, found, same⟩ := Option.map_eq_some_iff.mp popped
    cases same
    exact List.perm_cons_erase (greatestOf_spec found).1
  pop_greatest := by
    intro heap entry rest popped other among
    obtain ⟨first, found, same⟩ := Option.map_eq_some_iff.mp popped
    cases same
    exact (greatestOf_spec found).2 other (List.mem_of_mem_erase among)

end Lists

end PriorityQueue
