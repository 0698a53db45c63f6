import Mathlib.Data.Nat.Digits.Lemmas

/-!
# Digits in a buffer of fixed length

A number is kept as digits of a base in a buffer, the highest digit first.  Multiplying the
number and adding to it runs through the whole buffer from its end with a carry.  Nothing is
carried out of the buffer as long as the result has room in it, and without the zeros at the
front the buffer holds the digits of the number.
-/

namespace PositionalDigits

/-- The number that digits stand for, the highest one first. -/
def value (base : Nat) (digits : List Nat) : Nat := Nat.ofDigits base digits.reverse

/-- Multiply the number in a buffer and add to it.  The digits keep their places; what does not
fit is carried out. -/
def mulAdd (base factor carry : Nat) : List Nat → List Nat × Nat
  | [] => ([], carry)
  | digit :: digits =>
    let low := mulAdd base factor carry digits
    let sum := low.2 + factor * digit
    (sum % base :: low.1, sum / base)

section Value

variable {base : Nat} {digits : List Nat}

@[simp]
theorem value_nil : value base [] = 0 := rfl

theorem value_cons (digit : Nat) :
    value base (digit :: digits) = digit * base ^ digits.length + value base digits := by
  rw [value, List.reverse_cons, Nat.ofDigits_append, List.length_reverse, Nat.ofDigits_singleton,
    value]
  ring

theorem value_replicate_zero (count : Nat) : value base (List.replicate count 0) = 0 := by
  rw [value, List.reverse_replicate, Nat.ofDigits_replicate_zero]

theorem value_lt (large : 1 < base) (small : ∀ digit ∈ digits, digit < base) :
    value base digits < base ^ digits.length := by
  rw [value, ← List.length_reverse]
  exact Nat.ofDigits_lt_base_pow_length large fun digit member =>
    small digit (List.mem_reverse.mp member)

theorem value_dropWhile_zero : value base (digits.dropWhile (· = 0)) = value base digits := by
  induction digits with
  | nil => rfl
  | cons digit digits ih =>
    by_cases zero : digit = 0
    · rw [List.dropWhile_cons_of_pos (by simpa using zero), ih, value_cons, zero]
      simp
    · rw [List.dropWhile_cons_of_neg (by simpa using zero)]

/-- Without the zeros at the front a buffer holds the digits of its number. -/
theorem dropWhile_zero_eq_digits (large : 1 < base) (small : ∀ digit ∈ digits, digit < base) :
    digits.dropWhile (· = 0) = (Nat.digits base (value base digits)).reverse := by
  rw [← value_dropWhile_zero, value, Nat.digits_ofDigits _ large, List.reverse_reverse]
  · intro digit member
    exact small digit (List.dropWhile_sublist _ |>.subset (List.mem_reverse.mp member))
  · intro notEmpty
    rw [List.getLast_reverse]
    have filled : digits.dropWhile (· = 0) ≠ [] := by simpa using notEmpty
    simpa using List.head_dropWhile_not (fun digit => decide (digit = 0)) filled

/-- Digits without a zero at the front are the digits of their number. -/
theorem digits_value (large : 1 < base) (small : ∀ digit ∈ digits, digit < base)
    (noZero : digits.head? ≠ some 0) : (Nat.digits base (value base digits)).reverse = digits := by
  rw [← dropWhile_zero_eq_digits large small]
  cases digits with
  | nil => rfl
  | cons digit digits =>
    have first : digit ≠ 0 := fun zero => noZero (by rw [zero]; rfl)
    exact List.dropWhile_cons_of_neg (by simpa using first)

theorem value_digits (number : Nat) : value base (Nat.digits base number).reverse = number := by
  rw [value, List.reverse_reverse, Nat.ofDigits_digits]

/-- The digits of a number have no zero at the front. -/
theorem head?_digits_ne_zero (base number : Nat) :
    (Nat.digits base number).reverse.head? ≠ some 0 := by
  by_cases zero : number = 0
  · rw [zero, Nat.digits_zero]
    exact nofun
  · have notEmpty := Nat.digits_ne_nil_iff_ne_zero (b := base).mpr zero
    rw [List.head?_reverse, List.getLast?_eq_some_getLast notEmpty]
    intro same
    exact Nat.getLast_digit_ne_zero base zero (Option.some.inj same)

end Value

section MulAdd

variable {base factor carry : Nat}

@[simp]
theorem length_mulAdd (digits : List Nat) :
    (mulAdd base factor carry digits).1.length = digits.length := by
  induction digits with
  | nil => rfl
  | cons digit digits ih => rw [mulAdd, List.length_cons, List.length_cons, ih]

theorem mulAdd_lt (positive : 0 < base) (digits : List Nat) :
    ∀ digit ∈ (mulAdd base factor carry digits).1, digit < base := by
  induction digits with
  | nil => exact nofun
  | cons digit digits ih =>
    rw [mulAdd]
    intro other member
    rcases List.mem_cons.mp member with rfl | inRest
    · exact Nat.mod_lt _ positive
    · exact ih other inRest

/-- Together with the carry the buffer holds the result. -/
theorem value_mulAdd (digits : List Nat) :
    value base (mulAdd base factor carry digits).1 +
        base ^ digits.length * (mulAdd base factor carry digits).2 =
      factor * value base digits + carry := by
  induction digits with
  | nil => simp [mulAdd]
  | cons digit digits ih =>
    rw [mulAdd]
    simp only [value_cons, length_mulAdd, List.length_cons]
    generalize mulAdd base factor carry digits = low at *
    have whole := Nat.mod_add_div (low.2 + factor * digit) base
    generalize (low.2 + factor * digit) % base = rest at *
    generalize (low.2 + factor * digit) / base = carried at *
    calc rest * base ^ digits.length + value base low.1 + base ^ (digits.length + 1) * carried
        = base ^ digits.length * (rest + base * carried) + value base low.1 := by ring
      _ = factor * digit * base ^ digits.length +
            (value base low.1 + base ^ digits.length * low.2) := by rw [whole]; ring
      _ = factor * (digit * base ^ digits.length + value base digits) + carry := by rw [ih]; ring

/-- Nothing is carried out if the result has room. -/
theorem mulAdd_of_fits {digits : List Nat}
    (fits : factor * value base digits + carry < base ^ digits.length) :
    (mulAdd base factor carry digits).2 = 0 ∧
      value base (mulAdd base factor carry digits).1 = factor * value base digits + carry := by
  have result : value base (mulAdd base factor carry digits).1 +
      base ^ digits.length * (mulAdd base factor carry digits).2 = factor * value base digits + carry :=
    value_mulAdd digits
  have none : (mulAdd base factor carry digits).2 = 0 := by
    by_contra some
    have whole : base ^ digits.length ≤
        base ^ digits.length * (mulAdd base factor carry digits).2 :=
      Nat.le_mul_of_pos_right _ (Nat.pos_of_ne_zero some)
    omega
  refine ⟨none, ?_⟩
  rw [none, Nat.mul_zero, Nat.add_zero] at result
  exact result

end MulAdd

section Room

/-- Digits of one base have room in a share of digits of another base, if they have in the case
that the share is a whole number. -/
theorem pow_lt_pow_of_share {first second shares parts : Nat} (large : 1 < second)
    (positive : 0 < parts) (room : first ^ parts ≤ second ^ shares) (count : Nat) :
    first ^ count < second ^ (count * shares / parts + 1) := by
  have above : count * shares < parts * (count * shares / parts + 1) := by
    have split := Nat.div_add_mod (count * shares) parts
    have rest := Nat.mod_lt (count * shares) positive
    rw [Nat.mul_add, Nat.mul_one]
    omega
  apply lt_of_pow_lt_pow_left₀ parts (Nat.zero_le _)
  calc (first ^ count) ^ parts = (first ^ parts) ^ count := by rw [← pow_mul, ← pow_mul, mul_comm]
    _ ≤ (second ^ shares) ^ count := Nat.pow_le_pow_left room _
    _ = second ^ (count * shares) := by rw [← pow_mul, mul_comm]
    _ < second ^ (parts * (count * shares / parts + 1)) := Nat.pow_lt_pow_right large above
    _ = (second ^ (count * shares / parts + 1)) ^ parts := by rw [← pow_mul, mul_comm]

end Room

end PositionalDigits
