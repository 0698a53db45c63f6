import HdacNode.BaseUint
import HdacNode.Retarget

/-!
# The work of a block

`GetBlockProof` and the compact form of a target, computed word by word.  The numbers that come
out are those of the target as one number of 256 bits.
-/

namespace HdacNode

namespace BaseUint

/-- What `SetCompact` sets. -/
structure Compact where
  target : BaseUint 8
  fNegative : Bool
  fOverflow : Bool
  deriving DecidableEq

/-- `SetCompact`. -/
def setCompact (compact : UInt32) : Compact :=
  let nSize := compact.toNat >>> 24
  let word := compact.toNat &&& 0x007fffff
  let nWord := if nSize ≤ 3 then word >>> (8 * (3 - nSize)) else word
  { target := if nSize ≤ 3 then ofUint64 nWord else (ofUint64 nWord).shiftLeft (8 * (nSize - 3))
    fNegative := nWord ≠ 0 ∧ compact.toNat &&& 0x00800000 ≠ 0
    fOverflow := nWord ≠ 0 ∧
      (34 < nSize ∨ (0xff < nWord ∧ 33 < nSize) ∨ (0xffff < nWord ∧ 32 < nSize)) }

/-- `GetCompact`. -/
def getCompact (a : BaseUint 8) (fNegative : Bool) : Except PowStop UInt32 :=
  let nSize := (a.bits + 7) / 8
  let nCompact := if nSize ≤ 3 then a.getLow64 <<< (8 * (3 - nSize)) % 2 ^ 32
    else (a.shiftRight (8 * (nSize - 3))).getLow64 % 2 ^ 32
  let signed := nCompact &&& 0x00800000 ≠ 0
  let nSize := if signed then nSize + 1 else nSize
  let nCompact := if signed then nCompact >>> 8 else nCompact
  if nCompact &&& 0xff800000 ≠ 0 then .error .assertion
  else if 256 ≤ nSize then .error .assertion
  else
    let nCompact := nCompact ||| nSize <<< 24
    let sign := if fNegative ∧ nCompact &&& 0x007fffff ≠ 0 then 0x00800000 else 0
    .ok (.ofNat (nCompact ||| sign))

/-- `GetBlockProof` of a block with these `nBits`. -/
def getBlockProof (nBits : UInt32) : Except PowStop (BaseUint 8) :=
  let bnTarget := setCompact nBits
  if bnTarget.fNegative || bnTarget.fOverflow || bnTarget.target.equalTo 0 then .ok (ofUint64 0)
  else
    (bnTarget.target.complement.divide (bnTarget.target.add (ofUint64 1))).map fun (quotient, _) =>
      quotient.add (ofUint64 1)

section Numbers

/-- The number as one number of 256 bits. -/
def toUint256 (a : BaseUint 8) : Uint256 := BitVec.ofNat 256 a.toNat

theorem toNat_toUint256 (a : BaseUint 8) : a.toUint256.toNat = a.toNat := by
  rw [toUint256, BitVec.toNat_ofNat, Nat.mod_eq_of_lt a.toNat_lt]

theorem toUint256_eq {a : BaseUint 8} {n : Uint256} (same : a.toNat = n.toNat) :
    a.toUint256 = n := BitVec.eq_of_toNat_eq (a.toNat_toUint256.trans same)

/-- The mantissa of a compact form is below the sign bit. -/
theorem compactMantissa_lt (compact : UInt32) (shift : Nat) :
    (if compact.toNat >>> 24 ≤ 3 then (compact.toNat &&& 0x007fffff) >>> shift
      else compact.toNat &&& 0x007fffff) < 2 ^ 23 := by
  have mantissa : compact.toNat &&& 0x007fffff < 2 ^ 23 := Nat.and_lt_two_pow _ (by decide)
  split
  · rw [Nat.shiftRight_eq_div_pow]
    exact (Nat.div_le_self _ _).trans_lt mantissa
  · exact mantissa

/-- `SetCompact` on words sets what it sets on numbers. -/
theorem setCompact_refines (compact : UInt32) :
    (setCompact compact).target.toNat = (HdacNode.setCompact compact).target.toNat ∧
      (setCompact compact).fNegative = (HdacNode.setCompact compact).fNegative ∧
      (setCompact compact).fOverflow = (HdacNode.setCompact compact).fOverflow := by
  refine ⟨?_, rfl, rfl⟩
  have small := compactMantissa_lt compact (8 * (3 - compact.toNat >>> 24))
  simp only [setCompact, HdacNode.setCompact]
  generalize (if compact.toNat >>> 24 ≤ 3 then
      (compact.toNat &&& 0x007fffff) >>> (8 * (3 - compact.toNat >>> 24))
    else compact.toNat &&& 0x007fffff) = nWord at small
  have fits : nWord < 2 ^ 64 := small.trans (by decide)
  split
  · rw [toNat_ofUint64 fits, BitVec.toNat_ofNat]
    omega
  · rw [toNat_shiftLeft, toNat_ofUint64 fits, BitVec.toNat_shiftLeft, BitVec.toNat_ofNat,
      Nat.mod_eq_of_lt (small.trans (by decide : 2 ^ 23 < 2 ^ 256))]

/-- `GetCompact` on words returns what it returns on numbers. -/
theorem getCompact_refines (a : BaseUint 8) :
    a.getCompact false = HdacNode.getCompact a.toUint256 := by
  have size : (a.bits + 7) / 8 = a.toUint256.compactSize := by
    rw [Uint256.compactSize, Uint256.bits, toNat_toUint256, bits_eq]
  have word : (if a.toUint256.compactSize ≤ 3 then
        a.getLow64 <<< (8 * (3 - a.toUint256.compactSize)) % 2 ^ 32
      else (a.shiftRight (8 * (a.toUint256.compactSize - 3))).getLow64 % 2 ^ 32) =
      a.toUint256.compactWord := by
    rw [Uint256.compactWord, getLow64_eq, getLow64_eq, toNat_shiftRight, Uint256.getLow64,
      Uint256.getLow64, BitVec.toNat_ushiftRight, toNat_toUint256]
  simp only [getCompact, HdacNode.getCompact, size, word, Bool.false_eq_true, false_and, if_false,
    Nat.or_zero]

/-- No compact form stands for the highest number. -/
theorem setCompact_succ_lt (compact : UInt32) :
    (setCompact compact).target.toNat + 1 < 2 ^ 256 := by
  have small := compactMantissa_lt compact (8 * (3 - compact.toNat >>> 24))
  simp only [setCompact]
  generalize (if compact.toNat >>> 24 ≤ 3 then
      (compact.toNat &&& 0x007fffff) >>> (8 * (3 - compact.toNat >>> 24))
    else compact.toNat &&& 0x007fffff) = nWord at small
  have fits : nWord < 2 ^ 64 := small.trans (by decide)
  split
  · rw [toNat_ofUint64 fits]
    have room : 2 ^ 23 < 2 ^ 256 := by decide
    omega
  · rename_i long
    -- the lowest byte is zero
    have places : 8 * (compact.toNat >>> 24 - 3) = 8 * (compact.toNat >>> 24 - 4) + 8 := by omega
    rw [toNat_shiftLeft, toNat_ofUint64 fits, Nat.shiftLeft_eq, places, Nat.pow_add, ← Nat.mul_assoc]
    generalize nWord * 2 ^ (8 * (compact.toNat >>> 24 - 4)) = high
    omega

end Numbers

section Work

/-- The compact forms that `GetBlockProof` computes with. -/
def IsPositiveTarget (nBits : UInt32) : Prop :=
  (setCompact nBits).fNegative = false ∧ (setCompact nBits).fOverflow = false ∧
    0 < (setCompact nBits).target.toNat

theorem div_succ_eq {t whole : Nat} (inside : t < whole) :
    (whole - 1 - t) / (t + 1) + 1 = whole / (t + 1) := by
  have rest : whole - 1 - t = whole - (t + 1) := by omega
  rw [rest, Nat.div_eq_sub_div (Nat.succ_pos t) inside]

/-- The work of a block is the quotient that its comment states. -/
theorem getBlockProof_eq {nBits : UInt32} (positive : IsPositiveTarget nBits) :
    ∃ proof, getBlockProof nBits = .ok proof ∧
      proof.toNat = 2 ^ 256 / ((setCompact nBits).target.toNat + 1) := by
  obtain ⟨notNegative, fits, nonzero⟩ := positive
  have notHighest := setCompact_succ_lt nBits
  have inverse := (setCompact nBits).target.toNat_complement
  have notZero : (setCompact nBits).target.equalTo 0 = false := by
    rw [Bool.eq_false_iff, ne_eq, equalTo_zero_iff]
    omega
  unfold getBlockProof
  simp only [notNegative, fits, notZero, Bool.or_false, Bool.false_eq_true, if_false]
  generalize (setCompact nBits).target = target at *
  have successor : (target.add (ofUint64 1)).toNat = target.toNat + 1 := by
    rw [toNat_add, toNat_ofUint64 (by decide), Nat.mod_eq_of_lt notHighest]
  obtain ⟨quotient, remainder, divided, quotientIs, -⟩ :=
    (divide_spec target.complement (target.add (ofUint64 1))).2 (by omega)
  refine ⟨quotient.add (ofUint64 1), by rw [divided]; rfl, ?_⟩
  have complement : target.complement.toNat = 2 ^ 256 - 1 - target.toNat := by
    have width : 32 * 8 = 256 := rfl
    rw [width] at inverse
    omega
  have whole := div_succ_eq (lt_of_le_of_lt (Nat.le_succ _) notHighest)
  have halved : 2 ^ 256 / (target.toNat + 1) ≤ 2 ^ 256 / 2 :=
    Nat.div_le_div_left (by omega) (by decide)
  have room : 2 ^ 256 / (target.toNat + 1) < 2 ^ (32 * 8) := halved.trans_lt (by decide)
  rw [toNat_add, toNat_ofUint64 (by decide), quotientIs, complement, successor, whole,
    Nat.mod_eq_of_lt room]

/-- The work on words is the work of the header. -/
theorem getBlockProof_refines (header : PowHeader) :
    (getBlockProof header.nBits).map toUint256 = .ok header.blockProof := by
  obtain ⟨target, negative, overflow⟩ := setCompact_refines header.nBits
  unfold PowHeader.blockProof
  simp only
  rw [← negative, ← overflow]
  by_cases positive : IsPositiveTarget header.nBits
  · obtain ⟨proof, run, proofIs⟩ := getBlockProof_eq positive
    obtain ⟨notNegative, fits, nonzero⟩ := positive
    have notHighest := setCompact_succ_lt header.nBits
    rw [target] at nonzero notHighest proofIs
    have notZero : ((HdacNode.setCompact header.nBits).target == 0) = false := by
      rw [beq_eq_false_iff_ne]
      intro zero
      rw [zero] at nonzero
      exact absurd nonzero (by decide)
    rw [run, Except.map, notNegative, fits, notZero]
    refine congrArg Except.ok (toUint256_eq ?_)
    generalize (HdacNode.setCompact header.nBits).target = t at *
    have successor : (t + 1).toNat = t.toNat + 1 := by
      rw [BitVec.toNat_add]
      exact Nat.mod_eq_of_lt notHighest
    have whole := div_succ_eq (lt_of_le_of_lt (Nat.le_succ _) notHighest)
    have halved : 2 ^ 256 / (t.toNat + 1) ≤ 2 ^ 256 / 2 := Nat.div_le_div_left (by omega) (by decide)
    have room : 2 ^ 256 / (t.toNat + 1) < 2 ^ 256 := halved.trans_lt (by decide)
    have one : (1 : Uint256).toNat = 1 := rfl
    simp only [Bool.or_false, Bool.false_eq_true, if_false]
    rw [proofIs, BitVec.toNat_add, BitVec.toNat_udiv, successor, BitVec.toNat_not, one, whole,
      Nat.mod_eq_of_lt room]
  · have stopped : ((setCompact header.nBits).fNegative || (setCompact header.nBits).fOverflow ||
        (setCompact header.nBits).target.equalTo 0) = true := by
      by_contra no
      simp only [Bool.or_eq_true, not_or, Bool.not_eq_true] at no
      refine positive ⟨no.1.1, no.1.2, Nat.pos_of_ne_zero fun zero => ?_⟩
      rw [(equalTo_zero_iff _).mpr zero] at no
      exact Bool.noConfusion no.2
    have sameZero : ((HdacNode.setCompact header.nBits).target == 0) =
        (setCompact header.nBits).target.equalTo 0 := by
      rw [Bool.eq_iff_iff, equalTo_zero_iff, target, beq_iff_eq]
      exact ⟨fun zero => by rw [zero]; rfl, fun zero => BitVec.eq_of_toNat_eq zero⟩
    rw [sameZero, stopped, if_pos rfl, getBlockProof]
    simp only [stopped, if_true]
    rfl

end Work

section Truncation

/-- The length of a number in bytes. -/
def byteLength (n : Nat) : Nat := (n.size + 7) / 8

/-- A number of which only so many of its highest bytes are left. -/
def topBytes (count n : Nat) : Nat :=
  n / 2 ^ (8 * (byteLength n - count)) * 2 ^ (8 * (byteLength n - count))

/-- The highest byte of a number. -/
def topByte (n : Nat) : Nat := n / 2 ^ (8 * (byteLength n - 1))

theorem topByte_lt_iff (n : Nat) : topByte n < 0x80 ↔ n.size < 8 * byteLength n ∨ n = 0 := by
  by_cases zero : n = 0
  · simp [topByte, zero]
  · have positive : 0 < n.size := Nat.size_pos.mpr (Nat.pos_of_ne_zero zero)
    have length : byteLength n = (n.size + 7) / 8 := rfl
    have places : 7 + 8 * (byteLength n - 1) = 8 * byteLength n - 1 := by omega
    have power : (0x80 : Nat) = 2 ^ 7 := rfl
    rw [topByte, Nat.div_lt_iff_lt_mul (Nat.two_pow_pos _), power, ← Nat.pow_add, places,
      ← Nat.size_le, or_iff_left zero]
    omega

theorem compactValue_eq (n : Nat) :
    compactValue n = topBytes (if topByte n < 0x80 then 3 else 2) n := by
  have length : byteLength n = (n.size + 7) / 8 := rfl
  have shift : compactShift n = 8 * (byteLength n - if topByte n < 0x80 then 3 else 2) := by
    rw [compactShift]
    split
    · rename_i low
      rcases (topByte_lt_iff n).mp low with less | rfl
      · omega
      · rfl
    · rename_i high
      have filled := mt (topByte_lt_iff n).mpr high
      omega
  rw [compactValue, topBytes, shift]

end Truncation

/-- A number whose highest byte is in the way of the sign keeps only two bytes. -/
theorem not_setCompact_getCompact_topThreeBytes :
    ¬ ∀ x : BaseUint 8, ∃ compact, x.getCompact false = .ok compact ∧
      (setCompact compact).fNegative = false ∧ (setCompact compact).fOverflow = false ∧
      (setCompact compact).target.toNat = topBytes 3 x.toNat := by
  intro all
  obtain ⟨compact, run, -, -, target⟩ := all (ofUint64 0x80ffff)
  have compactIs : (ofUint64 0x80ffff : BaseUint 8).getCompact false = .ok 0x040080ff := by
    decide +kernel
  rw [compactIs] at run
  cases run
  exact absurd target (by decide +kernel)

/-- The work of a block is `2 ^ 256` over its target plus one, and falls with the target; division
of words is division of numbers with remainder; and a compact form keeps the highest bytes, without
a sign and without overflow. -/
theorem blockProof_arithmetic :
    (∀ nBits, IsPositiveTarget nBits → ∃ proof, getBlockProof nBits = .ok proof ∧
      proof.toNat = 2 ^ 256 / ((setCompact nBits).target.toNat + 1)) ∧
      (∀ nBits harder proof harderProof, IsPositiveTarget nBits → IsPositiveTarget harder →
        (setCompact harder).target.toNat ≤ (setCompact nBits).target.toNat →
        getBlockProof nBits = .ok proof → getBlockProof harder = .ok harderProof →
        proof.toNat ≤ harderProof.toNat) ∧
      (∀ (width : Nat) (a b : BaseUint width), b.toNat ≠ 0 → ∃ quotient remainder,
        a.divide b = .ok (quotient, remainder) ∧ quotient.toNat = a.toNat / b.toNat ∧
        remainder.toNat = a.toNat % b.toNat) ∧
      ∀ x : BaseUint 8, ∃ compact, x.getCompact false = .ok compact ∧
        (setCompact compact).fNegative = false ∧ (setCompact compact).fOverflow = false ∧
        (setCompact compact).target.toNat =
          topBytes (if topByte x.toNat < 0x80 then 3 else 2) x.toNat := by
  refine ⟨fun nBits => getBlockProof_eq, ?_, fun width a b => (divide_spec a b).2, ?_⟩
  · intro nBits harder proof harderProof positive positiveHarder notAbove run runHarder
    obtain ⟨proof', run', proofIs⟩ := getBlockProof_eq positive
    obtain ⟨harderProof', runHarder', harderIs⟩ := getBlockProof_eq positiveHarder
    cases run.symm.trans run'
    cases runHarder.symm.trans runHarder'
    rw [proofIs, harderIs]
    exact Nat.div_le_div_left (by omega) (by omega)
  · intro x
    obtain ⟨compact, run, positive, fits, target⟩ := getCompact_value x.toUint256
    obtain ⟨targetIs, negativeIs, overflowIs⟩ := setCompact_refines compact
    refine ⟨compact, x.getCompact_refines.trans run, negativeIs.trans positive,
      overflowIs.trans fits, ?_⟩
    rw [targetIs, target, toNat_toUint256, compactValue_eq]

/-- Two targets next to each other, and a division. -/
theorem blockProof_arithmetic_smallTargets :
    (∃ proof, getBlockProof 0x03000002 = .ok proof ∧ proof.toNat = 2 ^ 256 / 3) ∧
      ∃ quotient remainder,
        (ofUint64 1000000007 : BaseUint 8).divide (ofUint64 13) = .ok (quotient, remainder) ∧
          quotient.toNat = 76923077 ∧ remainder.toNat = 6 := by
  obtain ⟨work, -, division, -⟩ := blockProof_arithmetic
  refine ⟨?_, ?_⟩
  · obtain ⟨proof, run, proofIs⟩ := work 0x03000002 (by unfold IsPositiveTarget; decide +kernel)
    have target : (setCompact 0x03000002).target.toNat = 2 := by decide +kernel
    rw [target] at proofIs
    exact ⟨proof, run, proofIs⟩
  · obtain ⟨quotient, remainder, run, quotientIs, remainderIs⟩ :=
      division 8 (ofUint64 1000000007) (ofUint64 13) (by decide +kernel)
    refine ⟨quotient, remainder, run, ?_, ?_⟩
    · rw [quotientIs, toNat_ofUint64 (by decide), toNat_ofUint64 (by decide)]
    · rw [remainderIs, toNat_ofUint64 (by decide), toNat_ofUint64 (by decide)]

end BaseUint

end HdacNode
