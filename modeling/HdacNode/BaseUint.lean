import HdacNode.CompactTarget
import HdacNode.WordNumbers

/-!
# Unsigned big integers

`uint256.cpp`: `base_uint` keeps a number of `WIDTH` words of 32 bits, the lowest word first, and
computes with the words one by one.
-/

namespace HdacNode

open WordNumbers

/-- `base_uint` of so many words. -/
structure BaseUint (width : Nat) where
  pn : List (BitVec 32)
  length_pn : pn.length = width
  deriving DecidableEq, Repr

namespace BaseUint

variable {width : Nat}

section Operators

/-- A word of the array. -/
def word (a : BaseUint width) (i : Nat) : BitVec 32 := a.pn.getD i 0#32

/-- `base_uint()`. -/
def zero : BaseUint width := ⟨List.replicate width 0#32, List.length_replicate⟩

/-- `base_uint(uint64_t)`. -/
def ofUint64 (b : Nat) : BaseUint (width + 2) :=
  ⟨BitVec.ofNat 32 b :: BitVec.ofNat 32 (b >>> 32) :: List.replicate width 0#32, by simp⟩

/-- `GetLow64`; its assertion holds of the type. -/
def getLow64 (a : BaseUint (width + 2)) : Nat := (a.word 0).toNat ||| (a.word 1).toNat <<< 32

/-- `operator~`. -/
def complement (a : BaseUint width) : BaseUint width :=
  ⟨a.pn.map (~~~·), by rw [List.length_map, a.length_pn]⟩

/-- The loop of `operator++`: the next word is counted up where one has become zero. -/
def incrementWords : List (BitVec 32) → List (BitVec 32)
  | [] => []
  | [word] => [word + 1]
  | word :: next :: words =>
    if word + 1 = 0 then (word + 1) :: incrementWords (next :: words)
    else (word + 1) :: next :: words

theorem length_incrementWords (words : List (BitVec 32)) :
    (incrementWords words).length = words.length := by
  induction words with
  | nil => rfl
  | cons word words ih =>
    cases words with
    | nil => rfl
    | cons next words =>
      rw [incrementWords]
      split
      · rw [List.length_cons, ih]
        rfl
      · rfl

/-- `operator++`. -/
def increment (a : BaseUint width) : BaseUint width :=
  ⟨incrementWords a.pn, (length_incrementWords a.pn).trans a.length_pn⟩

/-- The unary `operator-`. -/
def negate (a : BaseUint width) : BaseUint width := a.complement.increment

/-- The loop of `operator+=`. -/
def addWords : Nat → List (BitVec 32) → List (BitVec 32) → List (BitVec 32)
  | carry, word :: words, other :: others =>
    let n := carry + word.toNat + other.toNat
    BitVec.ofNat 32 n :: addWords (n >>> 32) words others
  | _, _, _ => []

theorem length_addWords {words others : List (BitVec 32)} (same : words.length = others.length)
    (carry : Nat) : (addWords carry words others).length = words.length := by
  induction words generalizing others carry with
  | nil => rfl
  | cons word words ih =>
    cases others with
    | nil => cases same
    | cons other others =>
      rw [addWords, List.length_cons, ih (Nat.succ.inj same), List.length_cons]

/-- `operator+=`. -/
def add (a b : BaseUint width) : BaseUint width :=
  ⟨addWords 0 a.pn b.pn,
    (length_addWords (a.length_pn.trans b.length_pn.symm) 0).trans a.length_pn⟩

/-- `operator-=`. -/
def subtract (a b : BaseUint width) : BaseUint width := a.add b.negate

/-- The loop of `CompareTo` over the words below a place, from the highest on. -/
def compareFrom (a b : BaseUint width) : Nat → Int
  | 0 => 0
  | i + 1 =>
    if a.word i < b.word i then -1
    else if a.word i > b.word i then 1
    else compareFrom a b i

/-- `CompareTo`. -/
def compareTo (a b : BaseUint width) : Int := compareFrom a b width

/-- `EqualTo`. -/
def equalTo (a : BaseUint (width + 2)) (b : Nat) : Bool :=
  (a.pn.drop 2).all (· = 0#32) && (a.word 1).toNat = b >>> 32 && (a.word 0).toNat = b &&& 0xffffffff

/-- The loop of `bits` over the bits of a word, from a bit on downwards. -/
def highestBit (word : BitVec 32) : Nat → Nat
  | 0 => 1
  | bit + 1 => if word &&& 1#32 <<< (bit + 1) ≠ 0#32 then bit + 2 else highestBit word bit

/-- The loop of `bits` over the words below a place, from the highest on. -/
def bitsFrom (a : BaseUint width) : Nat → Nat
  | 0 => 0
  | pos + 1 => if a.word pos ≠ 0#32 then 32 * pos + highestBit (a.word pos) 31 else bitsFrom a pos

/-- `bits`. -/
def bits (a : BaseUint width) : Nat := bitsFrom a width

/-- What `operator<<=` does with one word of its copy: it goes into two words of the result, `k`
words further up. -/
def shiftLeftWord (a : BaseUint width) (k shift : Nat) (pn : List (BitVec 32)) (i : Nat) :
    List (BitVec 32) :=
  let pn := if i + k + 1 < width ∧ shift ≠ 0 then
      pn.modify (i + k + 1) (· ||| a.word i >>> (32 - shift))
    else pn
  if i + k < width then pn.modify (i + k) (· ||| a.word i <<< shift) else pn

theorem length_shiftLeftWord (a : BaseUint width) (k shift : Nat) (pn : List (BitVec 32)) (i : Nat) :
    (shiftLeftWord a k shift pn i).length = pn.length := by
  unfold shiftLeftWord
  split <;> split <;> simp

/-- The words of the result of `operator<<=` after so many turns. -/
def shiftLeftWords (a : BaseUint width) (shift turns : Nat) : List (BitVec 32) :=
  (List.range turns).foldl (shiftLeftWord a (shift / 32) (shift % 32)) (List.replicate width 0#32)

theorem shiftLeftWords_succ (a : BaseUint width) (shift turns : Nat) :
    shiftLeftWords a shift (turns + 1) =
      shiftLeftWord a (shift / 32) (shift % 32) (shiftLeftWords a shift turns) turns := by
  rw [shiftLeftWords, List.range_succ, List.foldl_append]
  rfl

theorem length_shiftLeftWords (a : BaseUint width) (shift turns : Nat) :
    (shiftLeftWords a shift turns).length = width := by
  induction turns with
  | zero => exact List.length_replicate
  | succ turns ih => rw [shiftLeftWords_succ, length_shiftLeftWord, ih]

/-- `operator<<=`. -/
def shiftLeft (a : BaseUint width) (shift : Nat) : BaseUint width :=
  ⟨shiftLeftWords a shift width, length_shiftLeftWords a shift width⟩

/-- What `operator>>=` does with one word of its copy: it goes into two words of the result, `k`
words further down. -/
def shiftRightWord (a : BaseUint width) (k shift : Nat) (pn : List (BitVec 32)) (i : Nat) :
    List (BitVec 32) :=
  let pn := if k + 1 ≤ i ∧ shift ≠ 0 then
      pn.modify (i - k - 1) (· ||| a.word i <<< (32 - shift))
    else pn
  if k ≤ i then pn.modify (i - k) (· ||| a.word i >>> shift) else pn

theorem length_shiftRightWord (a : BaseUint width) (k shift : Nat) (pn : List (BitVec 32)) (i : Nat) :
    (shiftRightWord a k shift pn i).length = pn.length := by
  unfold shiftRightWord
  split <;> split <;> simp

/-- The words of the result of `operator>>=` after so many turns. -/
def shiftRightWords (a : BaseUint width) (shift turns : Nat) : List (BitVec 32) :=
  (List.range turns).foldl (shiftRightWord a (shift / 32) (shift % 32)) (List.replicate width 0#32)

theorem shiftRightWords_succ (a : BaseUint width) (shift turns : Nat) :
    shiftRightWords a shift (turns + 1) =
      shiftRightWord a (shift / 32) (shift % 32) (shiftRightWords a shift turns) turns := by
  rw [shiftRightWords, List.range_succ, List.foldl_append]
  rfl

theorem length_shiftRightWords (a : BaseUint width) (shift turns : Nat) :
    (shiftRightWords a shift turns).length = width := by
  induction turns with
  | zero => exact List.length_replicate
  | succ turns ih => rw [shiftRightWords_succ, length_shiftRightWord, ih]

/-- `operator>>=`. -/
def shiftRight (a : BaseUint width) (shift : Nat) : BaseUint width :=
  ⟨shiftRightWords a shift width, length_shiftRightWords a shift width⟩

/-- Set a bit of the quotient. -/
def setBit (a : BaseUint width) (bit : Nat) : BaseUint width :=
  ⟨a.pn.modify (bit / 32) (· ||| 1#32 <<< (bit &&& 31)), by rw [List.length_modify, a.length_pn]⟩

/-- The loop of `operator/=`: `shift` is one below the first argument, then come the quotient, what
is left of the dividend, and the divisor. -/
def divideLoop : Nat → BaseUint width → BaseUint width → BaseUint width →
    BaseUint width × BaseUint width
  | 0, quotient, num, _ => (quotient, num)
  | shift + 1, quotient, num, div =>
    if 0 ≤ num.compareTo div then
      divideLoop shift (quotient.setBit shift) (num.subtract div) (div.shiftRight 1)
    else divideLoop shift quotient num (div.shiftRight 1)

/-- `operator/=`: the quotient, and what `num` contains in the end. -/
def divide (a b : BaseUint width) : Except PowStop (BaseUint width × BaseUint width) :=
  let numBits := a.bits
  let divBits := b.bits
  if divBits = 0 then .error .divisionByZero
  else if numBits < divBits then .ok (zero, a)
  else
    let shift := numBits - divBits
    .ok (divideLoop (shift + 1) zero a (b.shiftLeft shift))

end Operators

/-- The number. -/
def toNat (a : BaseUint width) : Nat := value a.pn

theorem toNat_lt (a : BaseUint width) : a.toNat < 2 ^ (32 * width) := by
  have below := value_lt a.pn
  rwa [a.length_pn] at below

@[simp]
theorem toNat_zero : (zero : BaseUint width).toNat = 0 := value_replicate_zero width

section Sums

theorem value_addWords {words others : List (BitVec 32)} (same : words.length = others.length)
    (carry : Nat) :
    value (addWords carry words others) =
      (carry + value words + value others) % 2 ^ (32 * words.length) := by
  induction words generalizing others carry with
  | nil => simp [addWords, Nat.mod_one]
  | cons word words ih =>
    cases others with
    | nil => cases same
    | cons other others =>
      have split : carry + value (word :: words) + value (other :: others) =
          carry + word.toNat + other.toNat + 2 ^ 32 * (value words + value others) := by
        rw [value_cons, value_cons]
        ring
      have modulus : 2 ^ (32 * (word :: words).length) = 2 ^ 32 * 2 ^ (32 * words.length) := by
        rw [List.length_cons, Nat.mul_succ, Nat.pow_add, Nat.mul_comm]
      rw [addWords, value_cons, ih (Nat.succ.inj same), BitVec.toNat_ofNat, split, modulus,
        Nat.mod_mul, Nat.shiftRight_eq_div_pow, Nat.add_mul_mod_self_left,
        Nat.add_mul_div_left _ _ (Nat.two_pow_pos 32), Nat.add_assoc (_ / _)]

@[simp]
theorem toNat_add (a b : BaseUint width) :
    (a.add b).toNat = (a.toNat + b.toNat) % 2 ^ (32 * width) := by
  have sum := value_addWords (a.length_pn.trans b.length_pn.symm) 0
  rw [Nat.zero_add, a.length_pn] at sum
  exact sum

theorem value_complement (words : List (BitVec 32)) :
    value (words.map (~~~·)) + value words + 1 = 2 ^ (32 * words.length) := by
  induction words with
  | nil => simp
  | cons word words ih =>
    have low : (~~~word).toNat + word.toNat + 1 = 2 ^ 32 := by
      have below := word.isLt
      rw [BitVec.toNat_not]
      omega
    rw [List.map_cons, value_cons, value_cons, List.length_cons, Nat.mul_succ, Nat.pow_add, ← ih]
    calc (~~~word).toNat + 2 ^ 32 * value (words.map (~~~·)) + (word.toNat + 2 ^ 32 * value words) + 1
        = (~~~word).toNat + word.toNat + 1 + 2 ^ 32 * (value (words.map (~~~·)) + value words) := by
          ring
      _ = (value (words.map (~~~·)) + value words + 1) * 2 ^ 32 := by
          rw [low]
          ring

theorem toNat_complement (a : BaseUint width) :
    a.complement.toNat + a.toNat + 1 = 2 ^ (32 * width) := by
  have sum := value_complement a.pn
  rwa [a.length_pn] at sum

theorem value_incrementWords {words : List (BitVec 32)} (nonempty : words ≠ []) :
    value (incrementWords words) = (value words + 1) % 2 ^ (32 * words.length) := by
  induction words with
  | nil => exact absurd rfl nonempty
  | cons word words ih =>
    have below := word.isLt
    have next : (word + 1).toNat = (word.toNat + 1) % 2 ^ 32 := BitVec.toNat_add word 1
    cases words with
    | nil => simp only [incrementWords, value_cons, value_nil, next]; rfl
    | cons other words =>
      have modulus : 2 ^ (32 * (word :: other :: words).length) =
          2 ^ 32 * 2 ^ (32 * (other :: words).length) := by
        rw [List.length_cons (a := word), Nat.mul_succ, Nat.pow_add, Nat.mul_comm]
      have split : value (word :: other :: words) + 1 =
          word.toNat + 1 + 2 ^ 32 * value (other :: words) := by
        rw [value_cons word]
        ring
      rw [split, modulus, Nat.mod_mul, Nat.add_mul_mod_self_left,
        Nat.add_mul_div_left _ _ (Nat.two_pow_pos 32), incrementWords]
      by_cases carried : word + 1 = 0
      · have full : word.toNat + 1 = 2 ^ 32 := by
          rw [carried] at next
          have zero : (0 : BitVec 32).toNat = 0 := rfl
          omega
        rw [if_pos carried, value_cons, ih (List.cons_ne_nil _ _), next, full,
          Nat.div_self (Nat.two_pow_pos 32), Nat.add_comm 1]
      · have room : word.toNat + 1 < 2 ^ 32 := by
          by_contra large
          have full : word.toNat + 1 = 2 ^ 32 := by omega
          refine carried (BitVec.eq_of_toNat_eq ?_)
          rw [next, full]
          rfl
        rw [if_neg carried, value_cons, next, Nat.div_eq_of_lt room, Nat.zero_add,
          Nat.mod_eq_of_lt (value_lt (other :: words))]

theorem toNat_subtract {a b : BaseUint width} (notAbove : b.toNat ≤ a.toNat) :
    (a.subtract b).toNat = a.toNat - b.toNat := by
  have below := a.toNat_lt
  have sum := b.toNat_complement
  have negated : b.negate.toNat = (b.complement.toNat + 1) % 2 ^ (32 * width) := by
    cases width with
    | zero =>
      have none : b.negate.toNat < 2 ^ (32 * 0) := b.negate.toNat_lt
      rw [Nat.mul_zero, Nat.pow_zero, Nat.mod_one]
      omega
    | succ width =>
      have nonempty : b.complement.pn ≠ [] :=
        List.ne_nil_of_length_eq_add_one b.complement.length_pn
      have incremented := value_incrementWords nonempty
      rwa [b.complement.length_pn] at incremented
  rw [subtract, toNat_add, negated, Nat.add_mod_mod]
  have whole : a.toNat + (b.complement.toNat + 1) = a.toNat - b.toNat + 2 ^ (32 * width) := by omega
  rw [whole, Nat.add_mod_right, Nat.mod_eq_of_lt (by omega)]

end Sums

section Comparing

/-- The number that the words below a place stand for. -/
def below (a : BaseUint width) (place : Nat) : Nat := value (a.pn.take place)

theorem below_succ (a : BaseUint width) {place : Nat} (inside : place < width) :
    a.below (place + 1) = a.below place + 2 ^ (32 * place) * (a.word place).toNat :=
  value_take_succ (by rwa [a.length_pn])

theorem below_lt (a : BaseUint width) (place : Nat) : a.below place < 2 ^ (32 * place) :=
  value_take_lt a.pn place

theorem below_width (a : BaseUint width) : a.below width = a.toNat := by
  rw [below, List.take_of_length_le a.length_pn.le, toNat]

theorem compareFrom_nonneg_iff (a b : BaseUint width) {place : Nat} (inside : place ≤ width) :
    0 ≤ compareFrom a b place ↔ b.below place ≤ a.below place := by
  induction place with
  | zero => simp [compareFrom, below]
  | succ place ih =>
    have low := a.below_lt place
    have lowOther := b.below_lt place
    rw [a.below_succ inside, b.below_succ inside, compareFrom]
    split
    · rename_i less
      have step : (a.word place).toNat + 1 ≤ (b.word place).toNat := less
      have scaled := Nat.mul_le_mul_left (2 ^ (32 * place)) step
      rw [Nat.mul_succ] at scaled
      constructor
      · omega
      · intro notBelow
        omega
    · rename_i notLess
      split
      · rename_i more
        have step : (b.word place).toNat + 1 ≤ (a.word place).toNat := more
        have scaled := Nat.mul_le_mul_left (2 ^ (32 * place)) step
        rw [Nat.mul_succ] at scaled
        constructor
        · intro
          omega
        · intro
          omega
      · rename_i notMore
        have same : (a.word place).toNat = (b.word place).toNat :=
          Nat.le_antisymm (Nat.not_lt.mp notMore) (Nat.not_lt.mp notLess)
        rw [ih (by omega), same, Nat.add_le_add_iff_right]

/-- `CompareTo` compares the numbers. -/
theorem compareTo_nonneg_iff (a b : BaseUint width) : 0 ≤ a.compareTo b ↔ b.toNat ≤ a.toNat := by
  rw [compareTo, compareFrom_nonneg_iff a b le_rfl, below_width, below_width]

theorem toNat_ofUint64 {b : Nat} (fits : b < 2 ^ 64) :
    (ofUint64 b : BaseUint (width + 2)).toNat = b := by
  rw [ofUint64, toNat, value_cons, value_cons, value_replicate_zero, BitVec.toNat_ofNat,
    BitVec.toNat_ofNat, Nat.shiftRight_eq_div_pow]
  omega

/-- The lowest two words, and the others. -/
theorem toNat_words (a : BaseUint (width + 2)) :
    a.toNat = (a.word 0).toNat + 2 ^ 32 * (a.word 1).toNat + 2 ^ 64 * value (a.pn.drop 2) := by
  obtain ⟨pn, length⟩ := a
  match pn, length with
  | first :: second :: words, _ =>
    simp only [toNat, word, value_cons, List.getD_cons_zero, List.getD_cons_succ,
      List.drop_succ_cons, List.drop_zero]
    ring

theorem getLow64_eq (a : BaseUint (width + 2)) : a.getLow64 = a.toNat % 2 ^ 64 := by
  have first := (a.word 0).isLt
  have second := (a.word 1).isLt
  rw [getLow64, Nat.or_comm, ← Nat.shiftLeft_add_eq_or_of_lt first, Nat.shiftLeft_eq, toNat_words]
  omega

theorem equalTo_zero_iff (a : BaseUint (width + 2)) : a.equalTo 0 = true ↔ a.toNat = 0 := by
  have high : (a.pn.drop 2).all (· = 0#32) = true ↔ value (a.pn.drop 2) = 0 := by
    simp [value_eq_zero_iff]
  rw [equalTo, Bool.and_eq_true, Bool.and_eq_true, high, decide_eq_true_iff, decide_eq_true_iff,
    toNat_words]
  have positive : 0 < 2 ^ 64 := by decide
  simp only [Nat.zero_shiftRight, Nat.zero_and]
  omega

end Comparing

section Bits

theorem highestBit_eq {word : BitVec 32} {bit : Nat} (nonzero : word ≠ 0#32)
    (small : word.toNat < 2 ^ (bit + 1)) (inside : bit < 32) :
    highestBit word bit = word.toNat.size := by
  have positive : 0 < word.toNat := by
    apply Nat.pos_of_ne_zero
    intro zero
    exact nonzero (BitVec.eq_of_toNat_eq zero)
  induction bit with
  | zero =>
    have one : word.toNat = 1 := by omega
    rw [highestBit, one]
    rfl
  | succ bit ih =>
    have mask : (word &&& 1#32 <<< (bit + 1)).toNat =
        (word.toNat.testBit (bit + 1)).toNat * 2 ^ (bit + 1) := by
      have power : (1#32 <<< (bit + 1)).toNat = 2 ^ (bit + 1) := by
        rw [BitVec.toNat_shiftLeft, Nat.shiftLeft_eq]
        have room : 2 ^ (bit + 1) < 2 ^ 32 := Nat.pow_lt_pow_right (by omega) inside
        have one : (1#32).toNat = 1 := rfl
        rw [one, Nat.one_mul, Nat.mod_eq_of_lt room]
      rw [BitVec.toNat_and, power, Nat.and_two_pow]
    have zero : word &&& 1#32 <<< (bit + 1) = 0#32 ↔ word.toNat.testBit (bit + 1) = false := by
      constructor
      · intro none
        rw [none] at mask
        cases set : word.toNat.testBit (bit + 1) with
        | false => rfl
        | true =>
          rw [set] at mask
          have power := Nat.two_pow_pos (bit + 1)
          simp at mask
          exact absurd mask power.ne
      · intro none
        rw [none] at mask
        exact BitVec.eq_of_toNat_eq (by simpa using mask)
    rw [highestBit]
    cases set : word.toNat.testBit (bit + 1) with
    | false =>
      have smaller : word.toNat < 2 ^ (bit + 1) := by
        by_contra large
        have top := Nat.testBit_of_two_pow_le_and_two_pow_add_one_gt (Nat.not_lt.mp large) small
        rw [set] at top
        cases top
      rw [if_neg (by rw [not_not, zero, set]), ih smaller (by omega)]
    | true =>
      have large : 2 ^ (bit + 1) ≤ word.toNat := Nat.ge_two_pow_of_testBit set
      have atMost : word.toNat.size ≤ bit + 2 := Nat.size_le.mpr small
      have atLeast : bit + 1 < word.toNat.size := Nat.lt_size.mpr large
      have found : ¬ (word &&& 1#32 <<< (bit + 1) = 0#32) := by
        rw [zero, set]
        exact Bool.noConfusion
      rw [if_pos found]
      omega

theorem bitsFrom_eq (a : BaseUint width) {place : Nat} (inside : place ≤ width) :
    bitsFrom a place = (a.below place).size := by
  induction place with
  | zero => simp [bitsFrom, below]
  | succ place ih =>
    rw [bitsFrom, a.below_succ inside]
    by_cases zero : a.word place = 0#32
    · rw [if_neg (not_not.mpr zero), ih (by omega), zero]
      simp
    · have low := a.below_lt place
      have word := (a.word place).isLt
      have positive : 0 < (a.word place).toNat := by
        apply Nat.pos_of_ne_zero
        intro none
        exact zero (BitVec.eq_of_toNat_eq none)
      rw [if_pos zero, highestBit_eq zero word (by omega)]
      generalize (a.word place).toNat = top at positive
      -- the number lies between two powers, as the highest word does
      have above : top < 2 ^ top.size := Nat.lt_size_self top
      have least : 2 ^ (top.size - 1) ≤ top := by
        have bits : 0 < top.size := Nat.size_pos.mpr positive
        exact Nat.lt_size.mp (by omega)
      apply Nat.le_antisymm
      · have bits : 0 < top.size := Nat.size_pos.mpr positive
        have last : 32 * place + top.size = 32 * place + (top.size - 1) + 1 := by omega
        rw [last, Nat.succ_le_iff, Nat.lt_size, Nat.pow_add]
        exact (Nat.mul_le_mul_left _ least).trans (Nat.le_add_left _ _)
      · rw [Nat.size_le, Nat.pow_add]
        calc a.below place + 2 ^ (32 * place) * top
            < 2 ^ (32 * place) * (top + 1) := by
              rw [Nat.mul_succ]
              omega
          _ ≤ 2 ^ (32 * place) * 2 ^ top.size := Nat.mul_le_mul_left _ above

/-- `bits` is the position of the highest bit set plus one. -/
theorem bits_eq (a : BaseUint width) : a.bits = a.toNat.size := by
  rw [bits, bitsFrom_eq a le_rfl, below_width]

end Bits

section Shifts

/-- A bit of a word is within the word. -/
theorem lt_of_testBit_word {word : BitVec 32} {bit : Nat} (set : word.toNat.testBit bit = true) :
    bit < 32 :=
  BitVec.lt_of_getLsbD set

/-- Words where one may get more bits. -/
theorem value_modify_or_ite {words : List (BitVec 32)} {place : Nat} {condition : Prop}
    [Decidable condition] (inside : condition → place < words.length) (bits : BitVec 32) :
    value (if condition then words.modify place (· ||| bits) else words) =
      value words ||| if condition then bits.toNat <<< (32 * place) else 0 := by
  split
  · rename_i holds
    exact value_modify_or (inside holds) bits
  · exact (Nat.or_zero _).symm

/-- One turn of `operator<<=` sets the bits of its word further up. -/
theorem value_shiftLeftWord (a : BaseUint width) (shift : Nat) {pn : List (BitVec 32)} {i : Nat}
    (length : pn.length = width) :
    value (shiftLeftWord a (shift / 32) (shift % 32) pn i) =
      value pn ||| (a.word i).toNat <<< (32 * i + shift) % 2 ^ (32 * width) := by
  have whole : shift = 32 * (shift / 32) + shift % 32 := (Nat.div_add_mod shift 32).symm
  have rest : shift % 32 < 32 := Nat.mod_lt _ (by decide)
  unfold shiftLeftWord
  generalize shift / 32 = k at whole
  generalize shift % 32 = s at whole rest
  subst whole
  rw [value_modify_or_ite (by split <;> simp [length]), value_modify_or_ite (by omega), Nat.or_assoc]
  congr 1
  apply Nat.eq_of_testBit_eq
  intro place
  -- a bit goes up by the whole shift, into one word or the next
  have high : 32 * (i + k + 1) ≤ place →
      32 - s + (place - 32 * (i + k + 1)) = place - (32 * i + (32 * k + s)) := by omega
  have low : 32 * (i + k) ≤ place →
      place - 32 * (i + k) - s = place - (32 * i + (32 * k + s)) := by omega
  simp only [Nat.testBit_or, Nat.testBit_shiftLeft, apply_ite (fun n => Nat.testBit n place),
    BitVec.toNat_shiftLeft, BitVec.toNat_ushiftRight, Nat.testBit_mod_two_pow,
    Nat.testBit_shiftRight, Nat.zero_testBit, Bool.if_false_right]
  rw [Bool.eq_iff_iff]
  simp only [Bool.or_eq_true, Bool.and_eq_true, decide_eq_true_eq]
  constructor
  · rintro (⟨⟨room, -⟩, above, set⟩ | ⟨room, above, within, bit, set⟩)
    · rw [high above] at set
      have short := lt_of_testBit_word set
      exact ⟨by omega, by omega, set⟩
    · rw [low above] at set
      exact ⟨by omega, by omega, set⟩
  · rintro ⟨room, above, set⟩
    have short := lt_of_testBit_word set
    by_cases next : 32 * (i + k + 1) ≤ place
    · exact Or.inl ⟨⟨by omega, by omega⟩, next, by rwa [high next]⟩
    · have here : 32 * (i + k) ≤ place := by omega
      exact Or.inr ⟨by omega, here, by omega, by omega, by rwa [low here]⟩

/-- One turn of `operator>>=` sets the bits of its word further down. -/
theorem value_shiftRightWord (a : BaseUint width) (shift : Nat) {pn : List (BitVec 32)} {i : Nat}
    (length : pn.length = width) (inside : i < width) :
    value (shiftRightWord a (shift / 32) (shift % 32) pn i) =
      value pn ||| (a.word i).toNat <<< (32 * i) >>> shift := by
  have whole : shift = 32 * (shift / 32) + shift % 32 := (Nat.div_add_mod shift 32).symm
  have rest : shift % 32 < 32 := Nat.mod_lt _ (by decide)
  unfold shiftRightWord
  generalize shift / 32 = k at whole
  generalize shift % 32 = s at whole rest
  subst whole
  rw [value_modify_or_ite (by split <;> simp [length] <;> omega), value_modify_or_ite (by omega),
    Nat.or_assoc]
  congr 1
  apply Nat.eq_of_testBit_eq
  intro place
  have high : k ≤ i → 32 * (i - k) ≤ place →
      s + (place - 32 * (i - k)) = 32 * k + s + place - 32 * i := by omega
  have low : k + 1 ≤ i → 32 * (i - k - 1) + (32 - s) ≤ place →
      place - 32 * (i - k - 1) - (32 - s) = 32 * k + s + place - 32 * i := by omega
  simp only [Nat.testBit_or, Nat.testBit_shiftLeft, apply_ite (fun n => Nat.testBit n place),
    BitVec.toNat_shiftLeft, BitVec.toNat_ushiftRight, Nat.testBit_mod_two_pow,
    Nat.testBit_shiftRight, Nat.zero_testBit, Bool.if_false_right]
  rw [Bool.eq_iff_iff]
  simp only [Bool.or_eq_true, Bool.and_eq_true, decide_eq_true_eq]
  constructor
  · rintro (⟨⟨up, -⟩, above, within, bit, set⟩ | ⟨up, above, set⟩)
    · rw [low up (by omega)] at set
      exact ⟨by omega, set⟩
    · rw [high up above] at set
      exact ⟨by omega, set⟩
  · rintro ⟨above, set⟩
    have short := lt_of_testBit_word set
    by_cases next : k ≤ i ∧ 32 * (i - k) ≤ place
    · exact Or.inr ⟨next.1, next.2, by rwa [high next.1 next.2]⟩
    · have up : k + 1 ≤ i := by omega
      have here : 32 * (i - k - 1) + (32 - s) ≤ place := by omega
      exact Or.inl ⟨⟨up, by omega⟩, by omega, by omega, by omega, by rwa [low up here]⟩

theorem below_succ_or (a : BaseUint width) {place : Nat} (inside : place < width) :
    a.below (place + 1) = a.below place ||| (a.word place).toNat <<< (32 * place) := by
  rw [a.below_succ inside, Nat.or_comm, ← Nat.shiftLeft_add_eq_or_of_lt (a.below_lt place),
    Nat.shiftLeft_eq, Nat.mul_comm, Nat.add_comm]

theorem value_shiftLeftWords (a : BaseUint width) (shift : Nat) {turns : Nat}
    (inside : turns ≤ width) :
    value (shiftLeftWords a shift turns) = a.below turns <<< shift % 2 ^ (32 * width) := by
  induction turns with
  | zero => simp [shiftLeftWords, below]
  | succ turns ih =>
    rw [shiftLeftWords_succ, value_shiftLeftWord a shift (length_shiftLeftWords a shift turns),
      ih (by omega), a.below_succ_or inside, Nat.shiftLeft_or_distrib, ← Nat.shiftLeft_add,
      Nat.or_mod_two_pow]

theorem toNat_shiftLeft (a : BaseUint width) (shift : Nat) :
    (a.shiftLeft shift).toNat = a.toNat <<< shift % 2 ^ (32 * width) := by
  have words := value_shiftLeftWords a shift le_rfl
  rwa [below_width] at words

theorem value_shiftRightWords (a : BaseUint width) (shift : Nat) {turns : Nat}
    (inside : turns ≤ width) :
    value (shiftRightWords a shift turns) = a.below turns >>> shift := by
  induction turns with
  | zero => simp [shiftRightWords, below]
  | succ turns ih =>
    rw [shiftRightWords_succ, value_shiftRightWord a shift (length_shiftRightWords a shift turns)
      inside, ih (by omega), a.below_succ_or inside, Nat.shiftRight_or_distrib]

theorem toNat_shiftRight (a : BaseUint width) (shift : Nat) :
    (a.shiftRight shift).toNat = a.toNat >>> shift := by
  have words := value_shiftRightWords a shift le_rfl
  rwa [below_width] at words

theorem toNat_setBit {a : BaseUint width} {bit : Nat} (inside : bit < 32 * width)
    (clear : 2 ^ (bit + 1) ∣ a.toNat) : (a.setBit bit).toNat = a.toNat + 2 ^ bit := by
  have place : bit &&& 31 = bit % 32 := Nat.and_two_pow_sub_one_eq_mod bit 5
  have rest : bit % 32 < 32 := Nat.mod_lt _ (by decide)
  have power : (1#32 <<< (bit % 32)).toNat = 2 ^ (bit % 32) := by
    have one : (1#32).toNat = 1 := rfl
    rw [BitVec.toNat_shiftLeft, Nat.shiftLeft_eq, one, Nat.one_mul,
      Nat.mod_eq_of_lt (Nat.pow_lt_pow_right (by omega) rest)]
  have words : (a.setBit bit).toNat =
      a.toNat ||| (1#32 <<< (bit % 32)).toNat <<< (32 * (bit / 32)) := by
    rw [← place]
    exact value_modify_or (by rw [a.length_pn]; omega) _
  obtain ⟨high, multiple⟩ := clear
  have whole : bit % 32 + 32 * (bit / 32) = bit := Nat.mod_add_div bit 32
  have smaller : 2 ^ bit < 2 ^ (bit + 1) := Nat.pow_lt_pow_right (by omega) (by omega)
  rw [words, power, Nat.shiftLeft_eq, ← Nat.pow_add, whole, multiple, Nat.mul_comm,
    ← Nat.shiftLeft_eq, ← Nat.shiftLeft_add_eq_or_of_lt smaller]

end Shifts

section Division

/-- The loop of `operator/=`: with the divisor aligned to the shift, it adds the quotient to the
bits that are set, and leaves the remainder. -/
theorem divideLoop_spec {divisor : Nat} (positive : 0 < divisor) :
    ∀ (turns : Nat) (quotient num div : BaseUint width),
      (∀ shift, turns = shift + 1 → div.toNat = divisor * 2 ^ shift) → turns ≤ 32 * width →
      num.toNat < divisor * 2 ^ turns → 2 ^ turns ∣ quotient.toNat →
      (divideLoop turns quotient num div).1.toNat = quotient.toNat + num.toNat / divisor ∧
        (divideLoop turns quotient num div).2.toNat = num.toNat % divisor := by
  intro turns
  induction turns with
  | zero =>
    intro quotient num div _ _ small _
    rw [Nat.pow_zero, Nat.mul_one] at small
    rw [divideLoop, Nat.div_eq_of_lt small, Nat.mod_eq_of_lt small]
    exact ⟨rfl, rfl⟩
  | succ shift ih =>
    intro quotient num div aligned inside small clear
    have alignedNow := aligned shift rfl
    have alignedNext : ∀ next, shift = next + 1 →
        (div.shiftRight 1).toNat = divisor * 2 ^ next := by
      rintro next rfl
      rw [toNat_shiftRight, alignedNow, Nat.shiftRight_eq_div_pow, Nat.pow_one, Nat.pow_succ,
        ← Nat.mul_assoc, Nat.mul_div_cancel _ (by decide)]
    have halved : divisor * 2 ^ (shift + 1) = divisor * 2 ^ shift + divisor * 2 ^ shift := by
      rw [Nat.pow_succ]
      ring
    have clearNow : 2 ^ shift ∣ quotient.toNat := (pow_dvd_pow 2 (by omega)).trans clear
    rw [divideLoop]
    by_cases fits : 0 ≤ num.compareTo div
    · have notAbove := (compareTo_nonneg_iff num div).mp fits
      have left : (num.subtract div).toNat = num.toNat - divisor * 2 ^ shift := by
        rw [toNat_subtract notAbove, alignedNow]
      have bit : (quotient.setBit shift).toNat = quotient.toNat + 2 ^ shift :=
        toNat_setBit (by omega) clear
      rw [alignedNow] at notAbove
      have split : num.toNat = num.toNat - divisor * 2 ^ shift + divisor * 2 ^ shift := by omega
      rw [if_pos fits]
      obtain ⟨quotientIs, remainderIs⟩ := ih (quotient.setBit shift) (num.subtract div)
        (div.shiftRight 1) alignedNext (by omega) (by omega)
        (by rw [bit]; exact Nat.dvd_add clearNow dvd_rfl)
      rw [quotientIs, remainderIs, left, bit]
      constructor
      · conv_rhs => rw [split]
        rw [Nat.add_mul_div_left _ _ positive]
        omega
      · conv_rhs => rw [split]
        rw [Nat.add_mul_mod_self_left]
    · have notFits := mt (compareTo_nonneg_iff num div).mpr fits
      rw [alignedNow] at notFits
      rw [if_neg fits]
      exact ih quotient num (div.shiftRight 1) alignedNext (by omega) (by omega) clearNow

/-- `operator/=` throws on a zero divisor, and else is the division of the numbers. -/
theorem divide_spec (a b : BaseUint width) :
    (b.toNat = 0 → a.divide b = .error .divisionByZero) ∧
      (b.toNat ≠ 0 → ∃ quotient remainder, a.divide b = .ok (quotient, remainder) ∧
        quotient.toNat = a.toNat / b.toNat ∧ remainder.toNat = a.toNat % b.toNat) := by
  rw [divide, bits_eq, bits_eq]
  constructor
  · intro zero
    rw [zero]
    rfl
  · intro nonzero
    have positive : 0 < b.toNat := Nat.pos_of_ne_zero nonzero
    have bitsOfB : 0 < b.toNat.size := Nat.size_pos.mpr positive
    have belowA : a.toNat < 2 ^ a.toNat.size := Nat.lt_size_self _
    have belowB : b.toNat < 2 ^ b.toNat.size := Nat.lt_size_self _
    have leastB : 2 ^ (b.toNat.size - 1) ≤ b.toNat := Nat.lt_size.mp (by omega)
    have fitsA : a.toNat.size ≤ 32 * width := Nat.size_le.mpr a.toNat_lt
    simp only
    rw [if_neg bitsOfB.ne']
    by_cases shorter : a.toNat.size < b.toNat.size
    · have less : a.toNat < b.toNat := by
        refine lt_of_lt_of_le belowA (le_trans ?_ leastB)
        exact Nat.pow_le_pow_right (by omega) (by omega)
      rw [if_pos shorter]
      refine ⟨zero, a, rfl, ?_, (Nat.mod_eq_of_lt less).symm⟩
      rw [toNat_zero, Nat.div_eq_of_lt less]
    · rw [if_neg shorter]
      have aligned : (b.shiftLeft (a.toNat.size - b.toNat.size)).toNat =
          b.toNat * 2 ^ (a.toNat.size - b.toNat.size) := by
        rw [toNat_shiftLeft, Nat.shiftLeft_eq]
        apply Nat.mod_eq_of_lt
        calc b.toNat * 2 ^ (a.toNat.size - b.toNat.size)
            < 2 ^ b.toNat.size * 2 ^ (a.toNat.size - b.toNat.size) :=
              Nat.mul_lt_mul_of_pos_right belowB (Nat.two_pow_pos _)
          _ = 2 ^ a.toNat.size := by rw [← Nat.pow_add, Nat.add_sub_cancel' (by omega)]
          _ ≤ 2 ^ (32 * width) := Nat.pow_le_pow_right (by omega) fitsA
      have small : a.toNat < b.toNat * 2 ^ (a.toNat.size - b.toNat.size + 1) := by
        have places : b.toNat.size - 1 + (a.toNat.size - b.toNat.size + 1) = a.toNat.size := by omega
        calc a.toNat < 2 ^ a.toNat.size := belowA
          _ = 2 ^ (b.toNat.size - 1) * 2 ^ (a.toNat.size - b.toNat.size + 1) := by
              rw [← Nat.pow_add, places]
          _ ≤ b.toNat * 2 ^ (a.toNat.size - b.toNat.size + 1) := Nat.mul_le_mul_right _ leastB
      have run := divideLoop_spec positive (a.toNat.size - b.toNat.size + 1) zero a
        (b.shiftLeft (a.toNat.size - b.toNat.size))
        (by
          intro shift same
          rw [aligned, Nat.succ.inj same])
        (by omega) small (by rw [toNat_zero]; exact dvd_zero _)
      rw [toNat_zero, Nat.zero_add] at run
      exact ⟨_, _, rfl, run⟩

end Division

end BaseUint

end HdacNode
