import Mathlib.Data.Nat.Bitwise
import Mathlib.Data.Nat.Size
import Mathlib.Tactic.Ring

/-!
# Numbers in words

A number as a list of words of one width, the lowest word first: its value, its bits, and what
setting bits in one of the words does to it.
-/

namespace WordNumbers

variable {w : Nat}

/-- The number that the words stand for. -/
def value : List (BitVec w) → Nat
  | [] => 0
  | word :: words => word.toNat + 2 ^ w * value words

@[simp]
theorem value_nil : value ([] : List (BitVec w)) = 0 := rfl

@[simp]
theorem value_cons (word : BitVec w) (words : List (BitVec w)) :
    value (word :: words) = word.toNat + 2 ^ w * value words := rfl

@[simp]
theorem value_replicate_zero (count : Nat) : value (List.replicate count 0#w) = 0 := by
  induction count with
  | zero => rfl
  | succ count ih => simp [List.replicate_succ, ih]

theorem value_lt (words : List (BitVec w)) : value words < 2 ^ (w * words.length) := by
  induction words with
  | nil => simp
  | cons word words ih =>
    have top := word.isLt
    rw [value_cons, List.length_cons, Nat.mul_succ, Nat.pow_add]
    calc word.toNat + 2 ^ w * value words < 2 ^ w * (value words + 1) := by
          rw [Nat.mul_succ]
          omega
      _ ≤ 2 ^ w * 2 ^ (w * words.length) := Nat.mul_le_mul_left _ ih
      _ = 2 ^ (w * words.length) * 2 ^ w := Nat.mul_comm _ _

theorem value_append (first second : List (BitVec w)) :
    value (first ++ second) = value first + 2 ^ (w * first.length) * value second := by
  induction first with
  | nil => simp
  | cons word words ih =>
    rw [List.cons_append, value_cons, value_cons, ih, List.length_cons, Nat.mul_succ, Nat.pow_add]
    ring

theorem value_take_succ {words : List (BitVec w)} {place : Nat} (inside : place < words.length) :
    value (words.take (place + 1)) =
      value (words.take place) + 2 ^ (w * place) * (words.getD place 0).toNat := by
  rw [List.take_add_one, value_append, List.length_take, Nat.min_eq_left inside.le,
    List.getD_eq_getElem?_getD, List.getElem?_eq_getElem inside]
  simp

theorem value_take_lt (words : List (BitVec w)) (place : Nat) :
    value (words.take place) < 2 ^ (w * place) := by
  refine lt_of_lt_of_le (value_lt _) (Nat.pow_le_pow_right (by omega) ?_)
  exact Nat.mul_le_mul_left _ (List.length_take_le _ _)

theorem value_eq_zero_iff {words : List (BitVec w)} :
    value words = 0 ↔ ∀ word ∈ words, word = 0 := by
  induction words with
  | nil => simp
  | cons word words ih =>
    have positive : 2 ^ w ≠ 0 := (Nat.two_pow_pos w).ne'
    have zero : word.toNat = 0 ↔ word = 0 := by
      constructor
      · intro none
        exact BitVec.eq_of_toNat_eq (by simpa using none)
      · rintro rfl
        rfl
    rw [value_cons, Nat.add_eq_zero_iff, Nat.mul_eq_zero, or_iff_right positive, ih, zero,
      List.forall_mem_cons]

/-- Setting bits in one of the words. -/
theorem value_modify_or {words : List (BitVec w)} {place : Nat} (inside : place < words.length)
    (bits : BitVec w) :
    value (words.modify place (· ||| bits)) = value words ||| bits.toNat <<< (w * place) := by
  induction words generalizing place with
  | nil => exact absurd inside (by simp)
  | cons word words ih =>
    have join : ∀ (low high : Nat), low < 2 ^ w → low + 2 ^ w * high = high <<< w ||| low :=
      fun low high small => by
        rw [← Nat.shiftLeft_add_eq_or_of_lt small, Nat.shiftLeft_eq]
        ring
    cases place with
    | zero =>
      rw [List.modify_zero_cons, value_cons, value_cons, join _ _ (BitVec.isLt _),
        join _ _ word.isLt, BitVec.toNat_or, Nat.mul_zero, Nat.shiftLeft_zero, Nat.or_assoc]
    | succ place =>
      have shifted : bits.toNat <<< (w * (place + 1)) = bits.toNat <<< (w * place) <<< w := by
        rw [← Nat.shiftLeft_add, Nat.mul_succ]
      rw [List.modify_succ_cons, value_cons, value_cons, ih (Nat.lt_of_succ_lt_succ inside),
        join _ _ word.isLt, join _ _ word.isLt, shifted, Nat.shiftLeft_or_distrib, Nat.or_assoc,
        Nat.or_assoc, Nat.or_comm word.toNat]

end WordNumbers
