import Mathlib.Tactic.Ring
import Mathlib.Algebra.Order.BigOperators.Group.List

/-!
# Totals per key in wrapped arithmetic

Amounts are collected under keys.  The exact total of a key is a natural number.
A signed 64-bit accumulator only keeps it modulo `2 ^ 64`, so the accumulator is
the exact total as long as the total is below `2 ^ 63`.
-/

namespace HdacNode

namespace WrappedTotals

/-- The value that is left of an integer in a signed 64-bit word. -/
def toInt64 (value : Int) : Int :=
  value.bmod (2 ^ 64)

/-- The addition of signed 64-bit words. -/
def addInt64 (left right : Int) : Int :=
  toInt64 (left + right)

theorem toInt64_lt (value : Int) : toInt64 value < 2 ^ 63 := by
  rw [toInt64, Int.bmod_def]
  split <;> omega

theorem le_toInt64 (value : Int) : -2 ^ 63 ≤ toInt64 value := by
  rw [toInt64, Int.bmod_def]
  split <;> omega

theorem toInt64_of_lt {value : Int} (low : -2 ^ 63 ≤ value) (high : value < 2 ^ 63) :
    toInt64 value = value := by
  rw [toInt64, Int.bmod_def]
  split <;> omega

/-- A word that stays positive did not wrap. -/
theorem lt_of_toInt64_nonneg {value : Int} (low : 0 ≤ value) (high : value < 2 ^ 64)
    (nonneg : 0 ≤ toInt64 value) : value < 2 ^ 63 := by
  rw [toInt64, Int.bmod_def] at nonneg
  split at nonneg <;> omega

/-- Adding words is adding the numbers they stand for. -/
theorem addInt64_toInt64 (left right : Int) :
    addInt64 (toInt64 left) (toInt64 right) = toInt64 (left + right) := by
  simp [addInt64, toInt64]

section Totals

variable {Key : Type} [DecidableEq Key]

/-- The exact total of a key. -/
def total (entries : List (Key × Nat)) (key : Key) : Nat :=
  ((entries.filter fun entry => entry.1 = key).map Prod.snd).sum

@[simp]
theorem total_nil (key : Key) : total [] key = 0 :=
  rfl

@[simp]
theorem total_append (left right : List (Key × Nat)) (key : Key) :
    total (left ++ right) key = total left key + total right key := by
  simp [total]

theorem total_singleton (entry : Key × Nat) (key : Key) :
    total [entry] key = if entry.1 = key then entry.2 else 0 := by
  unfold total
  split
  · rename_i same
    simp [same]
  · rename_i different
    simp [different]

theorem total_eq_zero_of_absent {entries : List (Key × Nat)} {key : Key}
    (absent : key ∉ entries.map Prod.fst) : total entries key = 0 := by
  have noEntry : entries.filter (fun entry => entry.1 = key) = [] := by
    rw [List.filter_eq_nil_iff]
    intro entry member
    have different : entry.1 ≠ key := by
      rintro rfl
      exact absent (List.mem_map_of_mem member)
    simpa using different
  rw [total, noEntry]
  rfl

end Totals

/-- A loop that collects: what every round adds is added by the whole loop. -/
theorem foldlM_collects {State Item Entry Error : Type} (Holds : State → List Entry → Prop)
    (entriesOf : Item → List Entry) {step : State → Item → Except Error State}
    (collects : ∀ state entries item next, Holds state entries → step state item = .ok next →
      Holds next (entries ++ entriesOf item)) (items : List Item) {state after : State}
    {entries : List Entry} (holds : Holds state entries)
    (finished : items.foldlM step state = .ok after) :
    Holds after (entries ++ items.flatMap entriesOf) := by
  induction items generalizing state entries with
  | nil =>
      obtain rfl : state = after := by simpa [pure, Except.pure] using finished
      simpa using holds
  | cons item items ih =>
      rw [List.foldlM_cons] at finished
      cases stepped : step state item with
      | error err =>
          rw [stepped] at finished
          cases finished
      | ok next =>
          rw [stepped] at finished
          have rest := ih (collects state entries item next holds stepped) finished
          rwa [List.append_assoc, ← List.flatMap_cons] at rest

theorem passed_of_forM {Item Error : Type} {check : Item → Except Error Unit} {items : List Item}
    {result : Unit} (passed : forM items check = .ok result) {item : Item}
    (member : item ∈ items) : check item = .ok () := by
  induction items with
  | nil => simp at member
  | cons head items ih =>
      rw [List.forM_cons] at passed
      cases checked : check head with
      | error err =>
          rw [checked] at passed
          cases passed
      | ok _ =>
          rw [checked] at passed
          rcases List.mem_cons.1 member with rfl | inTail
          · exact checked
          · exact ih passed inTail

end WrappedTotals

end HdacNode
