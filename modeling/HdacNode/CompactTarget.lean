import HdacNode.BlockWindow
import Mathlib.Data.Nat.Bitwise
import Mathlib.Data.Nat.Size
import Mathlib.Tactic.IntervalCases
import Mathlib.Tactic.Positivity

/-!
# Compact targets

`uint256.cpp`: a target is a 256-bit number, and a block stores it as 32 bits, a size in bytes
over a mantissa of 23 bits and a sign.
-/

namespace HdacNode

/-- `uint256`. -/
abbrev Uint256 := BitVec 256

/-- How a retarget ends without a result. -/
inductive PowStop where
  | assertion
  | divisionByZero
  | nullPointer
  deriving DecidableEq, Repr

namespace Uint256

/-- The conversion of an `int64_t` to a `uint256`, by way of `uint64_t`. -/
def ofInt64 (n : Int) : Uint256 := .ofNat 256 (n % 2 ^ 64).toNat

/-- The factor that `operator*=` takes from an `int64_t`, the overload on `uint32_t`. -/
def factor (n : Int) : Uint256 := .ofNat 256 (n % 2 ^ 32).toNat

/-- `operator/`, which throws on a zero divisor. -/
def divide (a b : Uint256) : Except PowStop Uint256 :=
  if b = 0 then .error .divisionByZero else .ok (a / b)

/-- `bits`: the position of the highest bit set plus one. -/
def bits (n : Uint256) : Nat := n.toNat.size

/-- `GetLow64`. -/
def getLow64 (n : Uint256) : Nat := n.toNat % 2 ^ 64

end Uint256

/-- What `SetCompact` sets. -/
structure CompactValue where
  target : Uint256
  fNegative : Bool
  fOverflow : Bool
  deriving DecidableEq

/-- `SetCompact`. -/
def setCompact (compact : UInt32) : CompactValue :=
  let nSize := compact.toNat >>> 24
  let word := compact.toNat &&& 0x007fffff
  let nWord := if nSize ≤ 3 then word >>> (8 * (3 - nSize)) else word
  { target :=
      if nSize ≤ 3 then .ofNat 256 nWord else BitVec.ofNat 256 nWord <<< (8 * (nSize - 3))
    fNegative := nWord ≠ 0 ∧ compact.toNat &&& 0x00800000 ≠ 0
    fOverflow := nWord ≠ 0 ∧
      (34 < nSize ∨ (0xff < nWord ∧ 33 < nSize) ∨ (0xffff < nWord ∧ 32 < nSize)) }

namespace Uint256

/-- The size in bytes that `GetCompact` stores, before it looks at the sign bit. -/
def compactSize (n : Uint256) : Nat := (n.bits + 7) / 8

/-- The mantissa that `GetCompact` stores, before it looks at the sign bit. -/
def compactWord (n : Uint256) : Nat :=
  if n.compactSize ≤ 3 then n.getLow64 <<< (8 * (3 - n.compactSize)) % 2 ^ 32
  else getLow64 (n >>> (8 * (n.compactSize - 3))) % 2 ^ 32

end Uint256

/-- `GetCompact` without a sign. -/
def getCompact (n : Uint256) : Except PowStop UInt32 :=
  let signed := n.compactWord &&& 0x00800000 ≠ 0
  let nCompact := if signed then n.compactWord >>> 8 else n.compactWord
  let nSize := if signed then n.compactSize + 1 else n.compactSize
  if nCompact &&& 0xff800000 ≠ 0 then .error .assertion
  else if 256 ≤ nSize then .error .assertion
  else .ok (.ofNat (nCompact ||| nSize <<< 24))

section Masks

theorem and_signBit_eq_zero_iff {word : Nat} (fits : word < 2 ^ 24) :
    word &&& 0x00800000 = 0 ↔ word < 2 ^ 23 := by
  have mask : word &&& 0x00800000 = (word.testBit 23).toNat * 2 ^ 23 := Nat.and_two_pow word 23
  rw [mask, Nat.testBit_eq_decide_div_mod_eq]
  by_cases odd : word / 2 ^ 23 % 2 = 1
  · simp only [odd, decide_true, Bool.toNat_true]
    omega
  · simp only [odd, decide_false, Bool.toNat_false]
    omega

theorem and_highMask_eq_zero {word : Nat} (fits : word < 2 ^ 23) :
    word &&& 0xff800000 = 0 := by
  apply Nat.eq_of_testBit_eq
  intro place
  have mask : (0xff800000 : Nat) = 511 <<< 23 := rfl
  rw [Nat.testBit_and, mask, Nat.testBit_shiftLeft, Nat.zero_testBit]
  by_cases low : place < 23
  · simp [Nat.not_le.mpr low]
  · have above : word < 2 ^ place :=
      lt_of_lt_of_le fits (Nat.pow_le_pow_right (by omega) (by omega))
    simp [Nat.testBit_lt_two_pow above]

theorem packed_fields {word size : Nat} (fits : word < 2 ^ 23) (short : size < 256) :
    (UInt32.ofNat (word ||| size <<< 24)).toNat >>> 24 = size ∧
      (UInt32.ofNat (word ||| size <<< 24)).toNat &&& 0x007fffff = word ∧
      (UInt32.ofNat (word ||| size <<< 24)).toNat &&& 0x00800000 = 0 := by
  have joined : word ||| size <<< 24 = size * 2 ^ 24 + word := by
    rw [Nat.or_comm, ← Nat.shiftLeft_add_eq_or_of_lt (by omega), Nat.shiftLeft_eq]
  have value : (UInt32.ofNat (word ||| size <<< 24)).toNat = size * 2 ^ 24 + word := by
    rw [UInt32.toNat_ofNat', joined]
    omega
  rw [value]
  refine ⟨?_, ?_, ?_⟩
  · rw [Nat.shiftRight_eq_div_pow]
    omega
  · have mask : (size * 2 ^ 24 + word) &&& 0x007fffff = (size * 2 ^ 24 + word) % 2 ^ 23 :=
      Nat.and_two_pow_sub_one_eq_mod _ 23
    rw [mask]
    omega
  · have mask : (size * 2 ^ 24 + word) &&& 0x00800000
        = ((size * 2 ^ 24 + word).testBit 23).toNat * 2 ^ 23 := Nat.and_two_pow _ 23
    have even : ¬ (size * 2 ^ 24 + word) / 2 ^ 23 % 2 = 1 := by omega
    rw [mask, Nat.testBit_eq_decide_div_mod_eq, decide_eq_false even]
    rfl

end Masks

section Sizes

variable (n : Uint256)

theorem Uint256.lt_of_compactSize : n.toNat < 2 ^ (8 * n.compactSize) := by
  rw [← Nat.size_le]
  have rounded : n.compactSize = (n.toNat.size + 7) / 8 := rfl
  omega

theorem Uint256.two_pow_zero_le (positive : n ≠ 0) : 2 ^ 0 ≤ n.toNat := by
  have value : n.toNat ≠ 0 := fun zero => positive (BitVec.eq_of_toNat_eq zero)
  rw [pow_zero]
  exact Nat.pos_of_ne_zero value

theorem Uint256.compactSize_le : n.compactSize ≤ 32 := by
  have bits : n.toNat.size ≤ 256 := Nat.size_le.mpr n.isLt
  have rounded : n.compactSize = (n.toNat.size + 7) / 8 := rfl
  omega

/-- A target of at most three bytes is shifted to the top of the mantissa. -/
theorem Uint256.compactWord_short (short : n.compactSize ≤ 3) :
    n.compactWord = n.toNat * 2 ^ (8 * (3 - n.compactSize)) ∧ n.compactWord < 2 ^ 24 := by
  have below := n.lt_of_compactSize
  rw [compactWord, if_pos short, getLow64, Nat.shiftLeft_eq]
  generalize n.compactSize = size at short below
  interval_cases size <;> omega

/-- The top three bytes of a longer target are the mantissa. -/
theorem Uint256.compactWord_long (long : ¬ n.compactSize ≤ 3) :
    n.compactWord = n.toNat / 2 ^ (8 * (n.compactSize - 3)) ∧ n.compactWord < 2 ^ 24 := by
  have below : n.toNat / 2 ^ (8 * (n.compactSize - 3)) < 2 ^ 24 := by
    rw [Nat.div_lt_iff_lt_mul (by positivity), ← Nat.pow_add]
    have total : 24 + 8 * (n.compactSize - 3) = 8 * n.compactSize := by omega
    rw [total]
    exact n.lt_of_compactSize
  rw [compactWord, if_neg long, getLow64, BitVec.toNat_ushiftRight, Nat.shiftRight_eq_div_pow]
  generalize n.toNat / 2 ^ (8 * (n.compactSize - 3)) = word at below ⊢
  omega

theorem Uint256.compactWord_lt : n.compactWord < 2 ^ 24 := by
  by_cases short : n.compactSize ≤ 3
  · exact (n.compactWord_short short).2
  · exact (n.compactWord_long short).2

end Sizes

section RoundTrip

/-- What `SetCompact` reads of a size and a mantissa that were joined. -/
theorem setCompact_packed {word size : Nat} (fits : word < 2 ^ 23) (short : size < 256) :
    setCompact (.ofNat (word ||| size <<< 24)) =
      { target :=
          if size ≤ 3 then .ofNat 256 (word >>> (8 * (3 - size)))
          else BitVec.ofNat 256 word <<< (8 * (size - 3))
        fNegative := false
        fOverflow := (if size ≤ 3 then word >>> (8 * (3 - size)) else word) ≠ 0 ∧
          (34 < size ∨
            (0xff < (if size ≤ 3 then word >>> (8 * (3 - size)) else word) ∧ 33 < size) ∨
            (0xffff < (if size ≤ 3 then word >>> (8 * (3 - size)) else word) ∧ 32 < size)) } := by
  obtain ⟨sizeField, wordField, signField⟩ := packed_fields fits short
  simp only [setCompact, sizeField, wordField, signField]
  congr 1
  · split <;> rfl
  · simp

/-- A target without its lowest bits, which a mantissa and a shift give. -/
theorem toNat_shifted {word shift value : Nat} (below : value < 2 ^ 256)
    (cut : word = value / 2 ^ shift) :
    (BitVec.ofNat 256 word <<< shift).toNat = value / 2 ^ shift * 2 ^ shift := by
  have kept : value / 2 ^ shift * 2 ^ shift ≤ value := Nat.div_mul_le_self _ _
  have small : word ≤ value := cut ▸ Nat.div_le_self _ _
  have fits : word % 2 ^ 256 = word := Nat.mod_eq_of_lt (lt_of_le_of_lt small below)
  rw [BitVec.toNat_shiftLeft, BitVec.toNat_ofNat, fits, Nat.shiftLeft_eq, cut]
  exact Nat.mod_eq_of_lt (lt_of_le_of_lt kept below)

/-- A target of which the lowest bits are cut off is not larger, and not zero if a bit is
left. -/
theorem cutOff_bounds {n target : Uint256} {shift : Nat}
    (cut : target.toNat = n.toNat / 2 ^ shift * 2 ^ shift)
    (left : n ≠ 0 → 2 ^ shift ≤ n.toNat) :
    target ≤ n ∧ (n ≠ 0 → target ≠ 0) := by
  constructor
  · rw [BitVec.le_def, cut]
    exact Nat.div_mul_le_self _ _
  · intro positive zero
    have quotient : 0 < n.toNat / 2 ^ shift := Nat.div_pos (left positive) (by positivity)
    have product : 0 < n.toNat / 2 ^ shift * 2 ^ shift := Nat.mul_pos quotient (by positivity)
    rw [← cut, zero] at product
    exact absurd product (by simp)

/-- What `GetCompact` joins stands for its argument without the lowest bits. -/
theorem packedTarget_cutOff (n : Uint256) :
    (if n.compactSize ≤ 3 then
        BitVec.ofNat 256 (n.compactWord >>> (8 * (3 - n.compactSize)))
      else BitVec.ofNat 256 n.compactWord <<< (8 * (n.compactSize - 3))).toNat =
      n.toNat / 2 ^ (8 * (n.compactSize - 3)) * 2 ^ (8 * (n.compactSize - 3)) := by
  by_cases short : n.compactSize ≤ 3
  · obtain ⟨word, _⟩ := n.compactWord_short short
    have none : n.compactSize - 3 = 0 := by omega
    rw [if_pos short, word, Nat.shiftRight_eq_div_pow, Nat.mul_div_cancel _ (by positivity), none]
    simp
  · obtain ⟨word, _⟩ := n.compactWord_long short
    rw [if_neg short]
    exact toNat_shifted n.isLt word

theorem packedTarget_signed_cutOff (n : Uint256) :
    (if n.compactSize + 1 ≤ 3 then
        BitVec.ofNat 256 (n.compactWord >>> 8 >>> (8 * (3 - (n.compactSize + 1))))
      else BitVec.ofNat 256 (n.compactWord >>> 8) <<<
        (8 * (n.compactSize + 1 - 3))).toNat =
      n.toNat / 2 ^ (8 * (n.compactSize + 1 - 3)) * 2 ^ (8 * (n.compactSize + 1 - 3)) := by
  by_cases short : n.compactSize ≤ 3
  · obtain ⟨word, _⟩ := n.compactWord_short short
    by_cases shorter : n.compactSize + 1 ≤ 3
    · have none : n.compactSize + 1 - 3 = 0 := by omega
      have places : 8 * (3 - n.compactSize) = 8 + 8 * (3 - (n.compactSize + 1)) := by omega
      rw [if_pos shorter, word, places, ← Nat.shiftRight_add, Nat.shiftRight_eq_div_pow,
        Nat.mul_div_cancel _ (by positivity), none]
      simp
    · have exact3 : n.compactSize = 3 := by omega
      have value : n.compactWord = n.toNat := by rw [word, exact3]; simp
      rw [if_neg shorter, exact3]
      apply toNat_shifted n.isLt
      rw [value, Nat.shiftRight_eq_div_pow]
  · obtain ⟨word, _⟩ := n.compactWord_long short
    rw [if_neg (by omega)]
    apply toNat_shifted n.isLt
    have places : 8 * (n.compactSize + 1 - 3) = 8 * (n.compactSize - 3) + 8 := by omega
    rw [word, Nat.shiftRight_eq_div_pow, Nat.div_div_eq_div_mul, ← Nat.pow_add, places]

/-- How many low bits of a target its compact form leaves out. -/
def compactShift (n : Nat) : Nat := 8 * (n.size / 8 - 2)

/-- The target that the compact form of a target stands for. -/
def compactValue (n : Nat) : Nat := n / 2 ^ compactShift n * 2 ^ compactShift n

theorem Uint256.signed_iff (n : Uint256) :
    2 ^ 23 ≤ n.compactWord ↔ 8 * n.compactSize - 1 < n.toNat.size := by
  rw [Nat.lt_size]
  by_cases short : n.compactSize ≤ 3
  · have below := n.lt_of_compactSize
    rw [(n.compactWord_short short).1]
    generalize n.compactSize = size at short below
    interval_cases size <;> omega
  · have places : 23 + 8 * (n.compactSize - 3) = 8 * n.compactSize - 1 := by omega
    rw [(n.compactWord_long short).1, Nat.le_div_iff_mul_le (by positivity), ← Nat.pow_add, places]

/-- `GetCompact` succeeds, and its result stands for its argument without the lowest bits. -/
theorem getCompact_value (n : Uint256) :
    ∃ compact, getCompact n = .ok compact ∧ (setCompact compact).fNegative = false ∧
      (setCompact compact).fOverflow = false ∧
      (setCompact compact).target.toNat = compactValue n.toNat := by
  have wordFits := n.compactWord_lt
  have sizeFits := n.compactSize_le
  have rounded : n.compactSize = (n.toNat.size + 7) / 8 := rfl
  by_cases signed : n.compactWord &&& 0x00800000 = 0
  · have fits := (and_signBit_eq_zero_iff wordFits).mp signed
    have top := mt n.signed_iff.mpr (by omega)
    have shift : 8 * (n.compactSize - 3) = compactShift n.toNat := by
      rw [compactShift]
      omega
    refine ⟨.ofNat (n.compactWord ||| n.compactSize <<< 24), ?_, ?_⟩
    · simp only [getCompact, signed, ne_eq, not_true_eq_false, if_false]
      rw [and_highMask_eq_zero fits, if_neg (by simp), if_neg (by omega)]
    · have cut := packedTarget_cutOff n
      rw [setCompact_packed fits (by omega)]
      refine ⟨rfl, ?_, cut.trans (by rw [shift, compactValue])⟩
      simp only [decide_eq_false_iff_not]
      omega
  · have large : ¬ n.compactWord < 2 ^ 23 := fun fits =>
      signed ((and_signBit_eq_zero_iff wordFits).mpr fits)
    have top := n.signed_iff.mp (by omega)
    have halved : n.compactWord >>> 8 < 2 ^ 16 := by
      rw [Nat.shiftRight_eq_div_pow]
      omega
    have shift : 8 * (n.compactSize + 1 - 3) = compactShift n.toNat := by
      rw [compactShift]
      omega
    refine ⟨.ofNat (n.compactWord >>> 8 ||| (n.compactSize + 1) <<< 24), ?_, ?_⟩
    · simp only [getCompact, signed, ne_eq, not_false_eq_true, if_true]
      rw [and_highMask_eq_zero (by omega), if_neg (by simp), if_neg (by omega)]
    · have cut := packedTarget_signed_cutOff n
      rw [setCompact_packed (by omega) (by omega)]
      refine ⟨rfl, ?_, cut.trans (by rw [shift, compactValue])⟩
      simp only [decide_eq_false_iff_not]
      split <;> omega

/-- `GetCompact` succeeds, and its result stands for a target in range that is not larger than
the one given, and not zero unless that one is. -/
theorem getCompact_spec (n : Uint256) :
    ∃ compact, getCompact n = .ok compact ∧ (setCompact compact).fNegative = false ∧
      (setCompact compact).fOverflow = false ∧ (setCompact compact).target ≤ n ∧
      (n ≠ 0 → (setCompact compact).target ≠ 0) := by
  obtain ⟨compact, same, positive, fits, cut⟩ := getCompact_value n
  refine ⟨compact, same, positive, fits, cutOff_bounds cut ?_⟩
  intro given
  have bits : 0 < n.toNat.size := Nat.size_pos.mpr (n.two_pow_zero_le given)
  rw [← Nat.lt_size, compactShift]
  omega

end RoundTrip

end HdacNode
