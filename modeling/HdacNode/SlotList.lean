import Mathlib.Data.List.DropRight

/-!
# Lists of slots without empty slots at the end

A slot list is a vector of optional values that never ends with an empty slot.
It is determined by the values under its positions.  Emptying a slot may shorten
the list, and filling a slot behind the end lengthens it.
-/

namespace SlotList

variable {Value : Type}

/-- Drop the empty slots at the end. -/
def trim (slots : List (Option Value)) : List (Option Value) :=
  slots.rdropWhile Option.isNone

theorem trim_trim (slots : List (Option Value)) : trim (trim slots) = trim slots :=
  List.rdropWhile_idempotent Option.isNone slots

theorem trim_append_none (slots : List (Option Value)) :
    trim (slots ++ [none]) = trim slots :=
  List.rdropWhile_concat_pos _ _ _ rfl

theorem trim_append_some (slots : List (Option Value)) (value : Value) :
    trim (slots ++ [some value]) = slots ++ [some value] :=
  List.rdropWhile_concat_neg _ _ _ (by simp)

/-- The value in a slot of a list. -/
def slotAt (slots : List (Option Value)) (position : Nat) : Option Value :=
  (slots[position]?).join

theorem slotAt_trim (slots : List (Option Value)) (position : Nat) :
    slotAt (trim slots) position = slotAt slots position := by
  induction slots using List.reverseRecOn with
  | nil => rfl
  | append_singleton slots slot ih =>
      cases slot with
      | some value => rw [trim_append_some]
      | none =>
          rw [trim_append_none, ih]
          unfold slotAt
          rcases Nat.lt_trichotomy position slots.length with before | rfl | behind
          · rw [List.getElem?_append_left before]
          · simp
          · rw [List.getElem?_eq_none (by omega), List.getElem?_eq_none (by simp; omega)]

end SlotList

/-- A list of slots that does not end with an empty slot. -/
structure SlotList (Value : Type) where
  slots : List (Option Value)
  trimmed : SlotList.trim slots = slots
  deriving DecidableEq

namespace SlotList

variable {Value : Type}

/-- The list without values. -/
def empty : SlotList Value := ⟨[], rfl⟩

/-- The slot list of a list that may end with empty slots. -/
def ofSlots (slots : List (Option Value)) : SlotList Value := ⟨trim slots, trim_trim slots⟩

/-- The value under a position. -/
def get (list : SlotList Value) (position : Nat) : Option Value := slotAt list.slots position

/-- Empty a slot. -/
def clearAt (list : SlotList Value) (position : Nat) : SlotList Value :=
  ofSlots (list.slots.set position none)

/-- Lengthen a list of slots to a position, and fill the slot there. -/
def fill (list : SlotList Value) (position : Nat) (value : Value) : SlotList Value :=
  ofSlots ((list.slots ++ List.replicate (position + 1 - list.slots.length) none).set position
    (some value))

@[simp]
theorem get_empty (position : Nat) : (empty : SlotList Value).get position = none := rfl

@[simp]
theorem get_ofSlots (slots : List (Option Value)) (position : Nat) :
    (ofSlots slots).get position = slotAt slots position :=
  slotAt_trim slots position

theorem get_clearAt (list : SlotList Value) (position other : Nat) :
    (list.clearAt position).get other = if other = position then none else list.get other := by
  unfold clearAt
  rw [get_ofSlots]
  unfold get slotAt
  by_cases same : other = position
  · subst same
    rw [if_pos rfl, List.getElem?_set_self']
    cases list.slots[other]? <;> rfl
  · rw [if_neg same, List.getElem?_set_ne (Ne.symm same)]

theorem get_fill (list : SlotList Value) (position other : Nat) (value : Value) :
    (list.fill position value).get other =
      if other = position then some value else list.get other := by
  unfold fill
  rw [get_ofSlots]
  unfold get slotAt
  by_cases same : other = position
  · subst same
    rw [if_pos rfl, List.getElem?_set_self (by simp; omega)]
    rfl
  · rw [if_neg same, List.getElem?_set_ne (Ne.symm same)]
    by_cases inside : other < list.slots.length
    · rw [List.getElem?_append_left inside]
    · rw [List.getElem?_append_right (by omega), List.getElem?_replicate,
        List.getElem?_eq_none (by omega)]
      split <;> rfl

private theorem length_le_of_get_eq {first second : SlotList Value}
    (sameValues : ∀ position, first.get position = second.get position) :
    first.slots.length ≤ second.slots.length := by
  obtain ⟨slots, trimmed⟩ := first
  cases slots using List.reverseRecOn with
  | nil => exact Nat.zero_le _
  | append_singleton slots slot =>
      cases slot with
      | none =>
          have lastFilled := List.rdropWhile_eq_self_iff.mp trimmed (by simp)
          simp at lastFilled
      | some value =>
          have filled := sameValues slots.length
          by_contra shorter
          have missing : second.get slots.length = none := by
            unfold get slotAt
            rw [List.getElem?_eq_none (by simp at shorter; omega)]
            rfl
          rw [missing] at filled
          simp [get, slotAt] at filled

/-- A slot list is determined by its values. -/
@[ext]
theorem ext_get {first second : SlotList Value}
    (sameValues : ∀ position, first.get position = second.get position) : first = second := by
  have sameLength : first.slots.length = second.slots.length :=
    Nat.le_antisymm (length_le_of_get_eq sameValues)
      (length_le_of_get_eq fun position => (sameValues position).symm)
  have sameSlots : first.slots = second.slots := by
    apply List.ext_getElem sameLength
    intro position inFirst inSecond
    have same := sameValues position
    unfold get slotAt at same
    rw [List.getElem?_eq_getElem inFirst, List.getElem?_eq_getElem inSecond] at same
    simpa using same
  cases first
  cases second
  cases sameSlots
  rfl

theorem eq_empty_iff {list : SlotList Value} :
    list = empty ↔ ∀ position, list.get position = none := by
  constructor
  · rintro rfl position
    rfl
  · intro noValue
    ext1 position
    rw [noValue, get_empty]

theorem fill_clearAt {list : SlotList Value} {position : Nat} {value : Value}
    (filled : list.get position = some value) :
    (list.clearAt position).fill position value = list := by
  ext1 other
  rw [get_fill, get_clearAt]
  by_cases same : other = position
  · rw [if_pos same, same, filled]
  · rw [if_neg same, if_neg same]

end SlotList
