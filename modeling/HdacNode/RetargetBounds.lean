import HdacNode.Retarget
import Mathlib.Tactic.Linarith

/-!
# Ancestors, parameters and timespans of a retarget

Where the walks to an earlier block end, what the parameter ranges leave of the spacing and of
the interval, and which timespan a retarget divides by.
-/

namespace HdacNode

namespace PowIndex

/-- The block so many steps behind, or the genesis block. -/
def behind : PowIndex → Nat → PowIndex
  | index, 0 => index
  | genesis header, _ + 1 => genesis header
  | next pprev _, steps + 1 => pprev.behind steps

theorem stepsBack_eq_behind {index : PowIndex} {steps : Nat} (reached : steps ≤ index.nHeight) :
    index.stepsBack steps = some (index.behind steps) := by
  induction index generalizing steps with
  | genesis header =>
    cases steps with
    | zero => rfl
    | succ steps => simp [nHeight] at reached
  | next pprev header ih =>
    cases steps with
    | zero => rfl
    | succ steps =>
      rw [nHeight] at reached
      exact ih (by omega)

theorem nHeight_behind (index : PowIndex) (steps : Nat) :
    (index.behind steps).nHeight = index.nHeight - steps := by
  induction index generalizing steps with
  | genesis header => cases steps <;> simp [behind, nHeight]
  | next pprev header ih =>
    cases steps with
    | zero => rfl
    | succ steps =>
      rw [behind, ih, nHeight]
      omega

theorem getAncestor_eq_behind {index : PowIndex} {steps : Int} (back : 0 ≤ steps)
    (reached : steps ≤ index.nHeight) :
    index.getAncestor (index.nHeight - steps) = some (index.behind steps.toNat) := by
  have distance : ((index.nHeight : Int) - (index.nHeight - steps)).toNat = steps.toNat := by
    omega
  rw [getAncestor, if_neg (by omega), distance]
  exact stepsBack_eq_behind (by omega)

theorem walkBack_none (steps : Nat) : PowParams.walkBack steps none = none := by
  induction steps with
  | zero => rfl
  | succ steps ih => exact ih

theorem walkBack_eq_stepsBack (index : PowIndex) (steps : Nat) :
    PowParams.walkBack steps (some index) = index.stepsBack steps := by
  induction index generalizing steps with
  | genesis header =>
    cases steps with
    | zero => rfl
    | succ steps => exact walkBack_none steps
  | next pprev header ih =>
    cases steps with
    | zero => rfl
    | succ steps => exact ih steps

end PowIndex

namespace PowParams

variable (params : PowParams)

section Ranges

theorem proofOfWorkLimit_ne_zero : params.proofOfWorkLimit ≠ 0 := by
  intro zero
  have value := congrArg BitVec.toNat zero
  have small := Nat.pow_le_pow_right (by omega : 0 < 2) params.powMinimumBits_le
  have kept : 0 < (2 ^ 256 - 1) / 2 ^ params.powMinimumBits :=
    Nat.div_pos (by omega) (by positivity)
  simp [proofOfWorkLimit, Nat.shiftRight_eq_div_pow] at value
  omega

theorem targetSpacing_eq : params.targetSpacing = params.targetBlockTime := by
  have low := params.two_le_targetBlockTime
  have high := params.targetBlockTime_le
  rw [targetSpacing, asInt, Int.bmod_eq_of_le] <;> omega

theorem targetSpacing_range : 2 ≤ params.targetSpacing ∧ params.targetSpacing ≤ 86400 := by
  have low := params.two_le_targetBlockTime
  have high := params.targetBlockTime_le
  rw [targetSpacing_eq]
  omega

theorem targetTimespan_lt : params.targetTimespan < 2 ^ 31 := by
  have bound : params.targetTimespan < ((2 ^ 32 : Nat) + 1) / 2 := Int.bmod_lt (by omega)
  omega

/-- The timespan covers the blocks of an interval. -/
theorem interval_mul_spacing_le (positive : 0 < params.interval) :
    params.interval * params.targetSpacing ≤ params.targetTimespan ∧
      0 < params.targetTimespan := by
  obtain ⟨low, _⟩ := params.targetSpacing_range
  have enough : 0 < params.targetTimespan := by
    by_contra short
    have nonpositive : params.interval ≤ 0 := by
      have mirrored : 0 ≤ (-params.targetTimespan).tdiv params.targetSpacing :=
        Int.tdiv_nonneg (by omega) (by omega)
      rw [Int.neg_tdiv] at mirrored
      rw [interval]
      omega
    omega
  refine ⟨?_, enough⟩
  rw [interval, Int.tdiv_eq_ediv_of_nonneg (by omega)]
  exact Int.ediv_mul_le _ (by omega)

/-- The interval of the work by blocks. -/
theorem ldaTargetInterval_eq (positive : 0 < params.interval) :
    params.ldaTargetInterval timeXfactor = params.interval / 8 := by
  rw [ldaTargetInterval, timeXfactor, Int.tdiv_eq_ediv_of_nonneg (by omega)]

/-- Eight block times for each block of that interval fit in an `int`. -/
theorem ldaTargetInterval_mul_spacing_lt (positive : 0 < params.interval) :
    8 * (params.ldaTargetInterval timeXfactor * params.targetSpacing) < 2 ^ 31 := by
  obtain ⟨covered, _⟩ := params.interval_mul_spacing_le positive
  obtain ⟨low, _⟩ := params.targetSpacing_range
  have short := params.targetTimespan_lt
  have eighth : 8 * (params.interval / 8) ≤ params.interval := by omega
  have product := Int.mul_le_mul_of_nonneg_right eighth (by omega : 0 ≤ params.targetSpacing)
  rw [ldaTargetInterval_eq _ positive, ← mul_assoc]
  omega

end Ranges

section Timespans

variable {params}

/-- The time that a slow average over the last six blocks adds to a timespan. -/
def slowTime (pindexPrev : PowIndex) (interval span : Int) : Int :=
  let nAvgTime := (pindexPrev.blockTime - (pindexPrev.behind 6).blockTime).tdiv 6
  if nAvgTime < 600 ∨ nAvgTime ≤ span.tdiv interval then 0
  else if 3600 < nAvgTime then span / 2
  else if 1800 < nAvgTime then span / 4
  else span / 8

/-- A timespan between a quarter of a block time for each block of the interval and at most
eight block times; without a slow average at most six, and then in steps. -/
def pacedTimespan (interval spacing span slow : Int) : Int :=
  let total := span + slow
  let unit := interval * spacing
  let least := interval / 4 * spacing
  if 0 < slow then max least (min total (8 * unit))
  else if 6 * unit < total then 6 * unit
  else if 5 * unit < total then 5 * unit
  else max least (min total (4 * unit))

/-- The last blocks count from the twenty-fourth on. -/
theorem getSDAadjustedTime_eq (positive : 0 < params.ldaTargetInterval timeXfactor)
    {pindexPrev : PowIndex} (high : 24 ≤ pindexPrev.nHeight) (span : Int) :
    params.getSDAadjustedTime pindexPrev span timeXfactor =
      .ok (slowTime pindexPrev (params.ldaTargetInterval timeXfactor) span) := by
  have positive' : 0 < params.interval := by
    by_contra nonpositive
    have mirrored : 0 ≤ (-params.interval).tdiv timeXfactor :=
      Int.tdiv_nonneg (by omega) (by decide)
    rw [Int.neg_tdiv] at mirrored
    rw [ldaTargetInterval] at positive
    omega
  have short := params.ldaTargetInterval_mul_spacing_lt positive'
  obtain ⟨low, _⟩ := params.targetSpacing_range
  have fits : params.ldaTargetInterval timeXfactor < 2 ^ 31 := by nlinarith
  have range : asInt (params.ldaTargetInterval timeXfactor)
      = params.ldaTargetInterval timeXfactor := by
    rw [asInt, Int.bmod_eq_of_le] <;> omega
  have found : pindexPrev.getAncestor (pindexPrev.nHeight - 6) = some (pindexPrev.behind 6) :=
    PowIndex.getAncestor_eq_behind (by decide) (by omega)
  have tall : ¬ (pindexPrev.nHeight : Int) < 6 * 4 := by omega
  have half : span >>> (1 : Nat) = span / 2 := Int.shiftRight_eq_div_pow span 1
  have quarter : span >>> (2 : Nat) = span / 4 := Int.shiftRight_eq_div_pow span 2
  have eighth : span >>> (3 : Nat) = span / 8 := Int.shiftRight_eq_div_pow span 3
  have divided : quotient span (params.ldaTargetInterval timeXfactor)
      = .ok (span.tdiv (params.ldaTargetInterval timeXfactor)) := if_neg (by omega)
  simp only [getSDAadjustedTime, sdaBlockSize, sdaMaxTimeSpan, range, if_neg tall, found,
    follow, Option.elim_some, divided, slowTime, adjustedTime, half, quarter, eighth, bind,
    Except.bind]
  generalize (pindexPrev.blockTime - (pindexPrev.behind 6).blockTime).tdiv 6 = nAvgTime
  generalize span.tdiv (params.ldaTargetInterval timeXfactor) = average
  split_ifs <;> first | rfl | omega

/-- The bounds of `GetTargetPow` in closed form. -/
theorem boundTimespan_eq {interval : Int} (nonnegative : 0 ≤ interval)
    (fits : 8 * (interval * params.targetSpacing) < 2 ^ 31) (span slow : Int) :
    params.boundTimespan interval timeFactor (if 0 < slow then 2 else 1) (span + slow) =
      pacedTimespan interval params.targetSpacing span slow := by
  obtain ⟨low, _⟩ := params.targetSpacing_range
  have quarter : interval.tdiv timeFactor = interval / 4 := by
    rw [timeFactor, Int.tdiv_eq_ediv_of_nonneg nonnegative]
  have unitNonnegative : 0 ≤ interval * params.targetSpacing :=
    Int.mul_nonneg nonnegative (by omega)
  have leastLe : 4 * (interval / 4 * params.targetSpacing) ≤ interval * params.targetSpacing := by
    have part : 4 * (interval / 4) ≤ interval := by omega
    have product := Int.mul_le_mul_of_nonneg_right part (by omega : 0 ≤ params.targetSpacing)
    rw [← mul_assoc]
    exact product
  have lfactor : interval * timeFactor * params.targetSpacing
      = 4 * (interval * params.targetSpacing) := by
    rw [timeFactor]
    ring
  have small : asInt (4 * (interval * params.targetSpacing))
      = 4 * (interval * params.targetSpacing) := by
    rw [asInt, Int.bmod_eq_of_le] <;> omega
  have upper (factor : Int) : interval * timeFactor * factor * params.targetSpacing
      = factor * (4 * (interval * params.targetSpacing)) := by
    rw [timeFactor]
    ring
  rw [boundTimespan, pacedTimespan, upper, lfactor, small, quarter]
  generalize interval / 4 * params.targetSpacing = least at leastLe ⊢
  generalize interval * params.targetSpacing = unit at unitNonnegative fits leastLe ⊢
  by_cases slowed : 0 < slow
  · simp only [slowed, if_true, max_def, min_def]
    split_ifs <;> omega
  · simp only [slowed, if_false, if_true, max_def, min_def, Int.shiftRight_eq_div_pow]
    split_ifs <;> omega

theorem pacedTimespan_pos_iff {interval spacing span slow : Int} (positive : 0 < interval)
    (spaced : 0 < spacing) (bySlow : (0 < slow → 0 < span) ∧ (slow < 0 → span < 0)) :
    0 < pacedTimespan interval spacing span slow ↔ 4 ≤ interval ∨ 0 < span := by
  obtain ⟨fromSlow, fromFast⟩ := bySlow
  have unitPositive : 0 < interval * spacing := Int.mul_pos positive spaced
  have leastPositive : 0 < interval / 4 * spacing ↔ 4 ≤ interval := by
    constructor
    · intro product
      by_contra few
      have none : interval / 4 = 0 := by omega
      rw [none, zero_mul] at product
      omega
    · intro many
      exact Int.mul_pos (by omega) spaced
  have leastNonnegative : 0 ≤ interval / 4 * spacing := Int.mul_nonneg (by omega) (by omega)
  rw [pacedTimespan, ← leastPositive]
  generalize interval / 4 * spacing = least at leastNonnegative ⊢
  generalize interval * spacing = unit at unitPositive ⊢
  simp only [max_def, min_def]
  split_ifs <;> omega

theorem pacedTimespan_range {interval spacing : Int} (nonnegative : 0 ≤ interval)
    (spaced : 0 ≤ spacing) (span slow : Int) :
    0 ≤ pacedTimespan interval spacing span slow ∧
      pacedTimespan interval spacing span slow ≤ 8 * (interval * spacing) := by
  have unitNonnegative : 0 ≤ interval * spacing := Int.mul_nonneg nonnegative spaced
  have leastNonnegative : 0 ≤ interval / 4 * spacing := Int.mul_nonneg (by omega) spaced
  have leastLe : interval / 4 * spacing ≤ interval * spacing :=
    Int.mul_le_mul_of_nonneg_right (by omega) spaced
  rw [pacedTimespan]
  generalize interval / 4 * spacing = least at leastNonnegative leastLe ⊢
  generalize interval * spacing = unit at unitNonnegative leastLe ⊢
  simp only [max_def, min_def]
  split_ifs <;> omega

/-- A slow average adds to a timespan in its own direction. -/
theorem slowTime_direction (pindexPrev : PowIndex) (interval span : Int) :
    (0 < slowTime pindexPrev interval span → 0 < span) ∧
      (slowTime pindexPrev interval span < 0 → span < 0) := by
  rw [slowTime]
  generalize (pindexPrev.blockTime - (pindexPrev.behind 6).blockTime).tdiv 6 = nAvgTime
  generalize span.tdiv interval = average
  split_ifs <;> omega

end Timespans

end PowParams

end HdacNode
