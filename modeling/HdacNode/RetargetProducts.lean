import HdacNode.RetargetTimespan

/-!
# The products of a retarget

`GetBTCWorkRequired` multiplies a target by a timespan and `ReduceWorkTarget` by a fixed scale,
both modulo `2 ^ 256`.  Whether every product fits depends on the minimum bits of a target and on
the timespan that is aimed at.
-/

namespace HdacNode

namespace PowParams

variable (params : PowParams)

/-- The timespan that `GetBTCWorkRequired` multiplies by. -/
def retargetTimespan (pindexLast : PowIndex) : Int :=
  params.limitTimespan
    (pindexLast.blockTime - (pindexLast.behind (params.interval - 1).toNat).blockTime)

/-- A block after which the target changes, with a target in range. -/
def Retargeted (pindexLast : PowIndex) : Prop :=
  0 < params.interval ∧ params.interval ∣ (pindexLast.nHeight + 1 : Nat) ∧
    params.InRange pindexLast.nBits

/-- The target over the integers: the old one times the timespan over the timespan that is
aimed at, or the limit. -/
def integerTarget (pindexLast : PowIndex) : Nat :=
  min params.proofOfWorkLimit.toNat
    ((setCompact pindexLast.nBits).target.toNat * (params.retargetTimespan pindexLast).toNat /
      params.targetTimespan.toNat)

/-- Every retarget gives the compact form of the target over the integers, and no target is
scaled to a harder one. -/
def ResultsExact : Prop :=
  (∀ (pindexLast : PowIndex) (blockTime : UInt32), params.Retargeted pindexLast →
    params.getBTCWorkRequired pindexLast blockTime =
      getCompact (.ofNat 256 (params.integerTarget pindexLast))) ∧
  ∀ pindexPrev : PowIndex, params.InRange pindexPrev.nBits → ∀ scale ∈ [(100 : Int), 10],
    ∃ nBits, params.reduceWorkTarget pindexPrev scale = .ok nBits ∧
      (setCompact pindexPrev.nBits).target ≤ (setCompact nBits).target

/-- No product loses a bit, the timespan that was cut to 32 bits included. -/
def ProductsExact : Prop :=
  (∀ pindexLast : PowIndex, params.Retargeted pindexLast →
    ((setCompact pindexLast.nBits).target *
        Uint256.factor (params.retargetTimespan pindexLast)).toNat =
      (setCompact pindexLast.nBits).target.toNat * (params.retargetTimespan pindexLast).toNat) ∧
  ∀ pindexPrev : PowIndex, params.InRange pindexPrev.nBits → ∀ scale ∈ [(100 : Int), 10],
    ((setCompact pindexPrev.nBits).target * Uint256.factor scale).toNat =
      (setCompact pindexPrev.nBits).target.toNat * scale.toNat

/-- The longest timespan that the clamps and the times of 32 bits allow. -/
def longestTimespan : Int :=
  if params.interval = 1 then params.targetTimespan / 4
  else min (params.targetTimespan * 4) (2 ^ 32 - 1)

/-- The parameters leave room for the products: the largest target with a compact form fits
times the longest timespan, and the limit fits times a hundred. -/
def LeavesRoom : Prop :=
  7 ≤ params.powMinimumBits ∧
    (0 < params.interval →
      compactValue params.proofOfWorkLimit.toNat * params.longestTimespan.toNat < 2 ^ 256)

section Room

variable {params}

theorem toNat_proofOfWorkLimit :
    params.proofOfWorkLimit.toNat = (2 ^ 256 - 1) / 2 ^ params.powMinimumBits := by
  simp [proofOfWorkLimit, Nat.shiftRight_eq_div_pow]

theorem target_le_of_inRange {nBits : UInt32} (inRange : params.InRange nBits) :
    (setCompact nBits).target.toNat ≤ compactValue params.proofOfWorkLimit.toNat := by
  rw [← compactValue_target]
  exact compactValue_mono (BitVec.le_def.mp inRange.2.2.2)

theorem blockTime_range (index : PowIndex) : 0 ≤ index.blockTime ∧ index.blockTime < 2 ^ 32 := by
  have below := index.header.nTime.toNat_lt
  rw [PowIndex.blockTime]
  omega

/-- The timespan of a retarget is not negative and not above the longest. -/
theorem retargetTimespan_range (positive : 0 < params.interval) (pindexLast : PowIndex) :
    0 ≤ params.retargetTimespan pindexLast ∧
      params.retargetTimespan pindexLast ≤ params.longestTimespan ∧
      params.longestTimespan < 2 ^ 32 := by
  obtain ⟨_, aimPositive⟩ := params.interval_mul_spacing_le positive
  have aimShort := params.targetTimespan_lt
  have last := blockTime_range pindexLast
  have first := blockTime_range (pindexLast.behind (params.interval - 1).toNat)
  rw [retargetTimespan, limitTimespan_eq aimPositive, longestTimespan]
  by_cases single : params.interval = 1
  · have same : pindexLast.behind (params.interval - 1).toNat = pindexLast := by
      rw [single]
      cases pindexLast <;> rfl
    rw [if_pos single, same]
    omega
  · rw [if_neg single]
    omega

theorem toNat_limitTarget (target : Uint256) :
    (params.limitTarget target).toNat = min params.proofOfWorkLimit.toNat target.toNat := by
  rw [limitTarget]
  split_ifs with above
  · exact (Nat.min_eq_left (BitVec.lt_def.mp above).le).symm
  · exact (Nat.min_eq_right (BitVec.le_def.mp (BitVec.not_lt.mp above))).symm

theorem integerTarget_lt (pindexLast : PowIndex) : params.integerTarget pindexLast < 2 ^ 256 :=
  lt_of_le_of_lt (Nat.min_le_left _ _) params.proofOfWorkLimit.isLt

theorem productsExact_of_leavesRoom (room : params.LeavesRoom) : params.ProductsExact := by
  obtain ⟨bits, fits⟩ := room
  constructor
  · rintro pindexLast ⟨positive, _, inRange⟩
    obtain ⟨nonnegative, atMost, short⟩ := retargetTimespan_range positive pindexLast
    have kept : (params.retargetTimespan pindexLast % 2 ^ 32).toNat =
        (params.retargetTimespan pindexLast).toNat := by
      rw [Int.emod_eq_of_lt nonnegative (by omega)]
    have product : (setCompact pindexLast.nBits).target.toNat *
        (params.retargetTimespan pindexLast).toNat ≤
          compactValue params.proofOfWorkLimit.toNat * params.longestTimespan.toNat :=
      Nat.mul_le_mul (target_le_of_inRange inRange) (Int.toNat_le_toNat atMost)
    rw [BitVec.toNat_mul, toNat_factor, kept]
    exact Nat.mod_eq_of_lt (lt_of_le_of_lt product (fits positive))
  · intro pindexPrev inRange scale either
    have limit : (setCompact pindexPrev.nBits).target.toNat ≤ (2 ^ 256 - 1) / 2 ^ 7 := by
      apply le_trans (BitVec.le_def.mp inRange.2.2.2)
      rw [toNat_proofOfWorkLimit]
      exact Nat.div_le_div_left (Nat.pow_le_pow_right (by omega) bits) (by positivity)
    have small : 0 ≤ scale ∧ scale ≤ 100 := by
      rcases List.mem_pair.mp either with rfl | rfl <;> decide
    have kept : (scale % 2 ^ 32).toNat = scale.toNat := by omega
    have product : (setCompact pindexPrev.nBits).target.toNat * scale.toNat ≤
        (2 ^ 256 - 1) / 2 ^ 7 * 100 := Nat.mul_le_mul limit (by omega)
    rw [BitVec.toNat_mul, toNat_factor, kept]
    exact Nat.mod_eq_of_lt (lt_of_le_of_lt product (by decide))

theorem resultsExact_of_productsExact (products : params.ProductsExact) :
    params.ResultsExact := by
  obtain ⟨byTime, byScale⟩ := products
  constructor
  · rintro pindexLast blockTime given
    obtain ⟨bnNew, result, value, _⟩ := getBTCWorkRequired_eq given.1 given.2.1 blockTime
    have same : params.limitTarget bnNew = .ofNat 256 (params.integerTarget pindexLast) := by
      apply BitVec.eq_of_toNat_eq
      rw [BitVec.toNat_ofNat, Nat.mod_eq_of_lt (integerTarget_lt pindexLast), toNat_limitTarget,
        value, ← retargetTimespan, byTime pindexLast given, integerTarget]
    rw [result, same]
  · intro pindexPrev inRange scale either
    obtain ⟨compact, result, _, _, value⟩ := getCompact_value
      (params.limitTarget ((setCompact pindexPrev.nBits).target * Uint256.factor scale))
    refine ⟨compact, result, ?_⟩
    have larger : 1 ≤ scale.toNat := by
      rcases List.mem_pair.mp either with rfl | rfl <;> decide
    rw [BitVec.le_def, value, toNat_limitTarget, byScale pindexPrev inRange scale either,
      ← compactValue_target pindexPrev.nBits]
    apply compactValue_mono
    rw [compactValue_target]
    exact Nat.le_min.mpr ⟨BitVec.le_def.mp inRange.2.2.2, Nat.le_mul_of_pos_right _ larger⟩

end Room

section Wrapping

variable {params}

/-- A chain of blocks at time zero. -/
def stillChain (nBits : UInt32) : Nat → PowIndex
  | 0 => .genesis ⟨0, nBits⟩
  | n + 1 => .next (stillChain nBits n) ⟨0, nBits⟩

@[simp] theorem nHeight_stillChain (nBits : UInt32) (n : Nat) :
    (stillChain nBits n).nHeight = n := by
  induction n with
  | zero => rfl
  | succ n ih => rw [stillChain, PowIndex.nHeight, ih]

@[simp] theorem nBits_stillChain (nBits : UInt32) (n : Nat) :
    (stillChain nBits n).nBits = nBits := by
  cases n <;> rfl

@[simp] theorem blockTime_stillChain (nBits : UInt32) (n : Nat) :
    (stillChain nBits n).blockTime = 0 := by
  cases n <;> rfl

theorem behind_stillChain (nBits : UInt32) (n steps : Nat) :
    (stillChain nBits n).behind steps = stillChain nBits (n - steps) := by
  induction steps generalizing n with
  | zero => rw [PowIndex.behind, Nat.sub_zero]
  | succ steps ih =>
    cases n with
    | zero => rw [stillChain, PowIndex.behind, Nat.zero_sub, stillChain]
    | succ n => rw [stillChain, PowIndex.behind, ih, Nat.add_sub_add_right]

/-- A first interval whose last block comes after the longest timespan. -/
def longChain (params : PowParams) (nBits : UInt32) : PowIndex :=
  (stillChain nBits (params.interval - 1).toNat).stamped (.ofNat params.longestTimespan.toNat)

theorem retargetTimespan_longChain (positive : 0 < params.interval) (nBits : UInt32) :
    params.retargetTimespan (params.longChain nBits) = params.longestTimespan := by
  obtain ⟨_, aimPositive⟩ := params.interval_mul_spacing_le positive
  have aimShort := params.targetTimespan_lt
  rw [retargetTimespan, limitTimespan_eq aimPositive]
  by_cases single : params.interval = 1
  · have same : (params.longChain nBits).behind (params.interval - 1).toNat =
        params.longChain nBits := by
      rw [single]
      cases params.longChain nBits <;> rfl
    rw [same, longestTimespan, if_pos single]
    omega
  · have first : (params.longChain nBits).behind (params.interval - 1).toNat =
        stillChain nBits 0 := by
      rw [longChain, PowIndex.behind_stamped _ (by omega) (nHeight_stillChain nBits _).ge,
        behind_stillChain, Nat.sub_self]
    have kept : (min (params.targetTimespan * 4) (2 ^ 32 - 1)).toNat % 2 ^ 32 =
        (min (params.targetTimespan * 4) (2 ^ 32 - 1)).toNat := Nat.mod_eq_of_lt (by omega)
    rw [first, longChain, PowIndex.blockTime_stamped, blockTime_stillChain, UInt32.toNat_ofNat',
      longestTimespan, if_neg single, kept]
    omega

theorem retargeted_longChain (positive : 0 < params.interval) {nBits : UInt32}
    (inRange : params.InRange nBits) : params.Retargeted (params.longChain nBits) := by
  refine ⟨positive, ?_, ?_⟩
  · have height : (((params.longChain nBits).nHeight + 1 : Nat) : Int) = params.interval := by
      rw [longChain, PowIndex.nHeight_stamped, nHeight_stillChain]
      omega
    rw [height]
  · rw [longChain, PowIndex.nBits_stamped, nBits_stillChain]
    exact inRange

/-- With fewer than seven minimum bits a hundred times a target may be just above `2 ^ 256`. -/
theorem seven_le_of_resultsExact (results : params.ResultsExact) :
    7 ≤ params.powMinimumBits := by
  by_contra few
  have value : (setCompact 0x20028f5d).target.toNat = 0x028f5d * 2 ^ 232 := by decide +kernel
  have product : ((setCompact 0x20028f5d).target * Uint256.factor 100).toNat = 84 * 2 ^ 232 := by
    decide +kernel
  have below : 0x028f5d * 2 ^ 232 ≤ params.proofOfWorkLimit.toNat := by
    rw [toNat_proofOfWorkLimit]
    have bits : 2 ^ params.powMinimumBits ≤ 2 ^ 6 := Nat.pow_le_pow_right (by omega) (by omega)
    exact le_trans (by decide) (Nat.div_le_div_left bits (by positivity))
  have inRange : params.InRange 0x20028f5d :=
    ⟨by decide +kernel, by decide +kernel, by decide +kernel,
      BitVec.le_def.mpr (value.trans_le below)⟩
  obtain ⟨nBits, result, notHarder⟩ :=
    results.2 (.genesis ⟨0, 0x20028f5d⟩) inRange 100 List.mem_cons_self
  obtain ⟨compact, same, _, _, kept⟩ := getCompact_value
    (params.limitTarget ((setCompact 0x20028f5d).target * Uint256.factor 100))
  cases same.symm.trans result
  have cut := compactValue_le
    (params.limitTarget ((setCompact 0x20028f5d).target * Uint256.factor 100)).toNat
  rw [← kept, toNat_limitTarget, product] at cut
  have harder := BitVec.le_def.mp notHarder
  change (setCompact 0x20028f5d).target.toNat ≤ _ at harder
  rw [value] at harder
  omega

/-- The least target with a compact form whose product with a timespan does not fit exceeds
`2 ^ 256` by little. -/
theorem exists_wrappingTarget {timespan top : Nat} (short : timespan < 2 ^ 32)
    (kept : compactValue top = top) (wide : 2 ^ 256 ≤ top * timespan) :
    ∃ target rest, compactValue target = target ∧ target ≤ top ∧
      target * timespan = 2 ^ 256 + rest ∧ rest < 2 ^ 242 := by
  have positive : 0 < timespan := by
    by_contra zero
    rw [Nat.eq_zero_of_not_pos zero] at wide
    omega
  -- the least integer with a product that does not fit, and the compact form above it
  obtain ⟨least, enough, before⟩ : ∃ least, 2 ^ 256 ≤ least * timespan ∧
      least * timespan < 2 ^ 256 + timespan := by
    refine ⟨(2 ^ 256 + (timespan - 1)) / timespan, ?_, ?_⟩
    · have rest := Nat.mod_lt (2 ^ 256 + (timespan - 1)) positive
      have split := Nat.div_add_mod' (2 ^ 256 + (timespan - 1)) timespan
      omega
    · have part := Nat.div_mul_le_self (2 ^ 256 + (timespan - 1)) timespan
      omega
  obtain ⟨target, above, near, exact, below⟩ := exists_compactValue_above least
  have atMost : least ≤ top := by
    by_contra larger
    have product : (top + 1) * timespan ≤ least * timespan :=
      Nat.mul_le_mul_right _ (by omega)
    rw [Nat.succ_mul] at product
    omega
  have large : 2 ^ 224 ≤ least := by
    by_contra small
    have product : least * timespan ≤ 2 ^ 224 * 2 ^ 32 - 2 ^ 32 := by
      calc least * timespan ≤ (2 ^ 224 - 1) * 2 ^ 32 := Nat.mul_le_mul (by omega) short.le
        _ = 2 ^ 224 * 2 ^ 32 - 2 ^ 32 := by decide
    omega
  have long : compactShift least ≠ 0 := by
    intro none
    have few := lt_two_pow_compactShift least
    rw [none] at few
    omega
  have part : 2 ^ compactShift least * timespan * 2 ^ 15 ≤ least * timespan := by
    have bits := Nat.mul_le_mul_right timespan (two_pow_compactShift_le long)
    rw [Nat.pow_add] at bits
    linarith
  have product : target * timespan ≤ least * timespan + 2 ^ compactShift least * timespan := by
    rw [← Nat.add_mul]
    exact Nat.mul_le_mul_right _ near.le
  have reached : least * timespan ≤ target * timespan := Nat.mul_le_mul_right _ above
  exact ⟨target, target * timespan - 2 ^ 256, exact, below top kept atMost, by omega, by omega⟩

theorem room_of_resultsExact (results : params.ResultsExact) (positive : 0 < params.interval) :
    compactValue params.proofOfWorkLimit.toNat * params.longestTimespan.toNat < 2 ^ 256 := by
  by_contra wide
  obtain ⟨_, aimPositive⟩ := params.interval_mul_spacing_le positive
  obtain ⟨nonnegative, atMost, short⟩ :=
    retargetTimespan_range positive (params.longChain 0)
  have fourfold : params.longestTimespan.toNat ≤ 4 * params.targetTimespan.toNat := by
    rw [longestTimespan]
    split_ifs <;> omega
  obtain ⟨limitBits, _, _, _, limitKept⟩ := getCompact_value params.proofOfWorkLimit
  have limitFixed := compactValue_target limitBits
  rw [limitKept] at limitFixed
  obtain ⟨target, rest, fixed, below, product, small⟩ :=
    @exists_wrappingTarget params.longestTimespan.toNat _ (by omega) limitFixed (by omega)
  have limitLe := compactValue_le params.proofOfWorkLimit.toNat
  have fits := params.proofOfWorkLimit.isLt
  have read : (BitVec.ofNat 256 target).toNat = target := by
    rw [BitVec.toNat_ofNat, Nat.mod_eq_of_lt (by omega)]
  obtain ⟨nBits, _, notNegative, noOverflow, value⟩ := getCompact_value (.ofNat 256 target)
  rw [read, fixed] at value
  have inRange : params.InRange nBits := by
    refine ⟨notNegative, noOverflow, ?_, ?_⟩
    · intro zero
      rw [zero] at value
      have none : target = 0 := value.symm
      rw [none] at product
      omega
    · rw [BitVec.le_def, value]
      omega
  have result := results.1 _ 0 (retargeted_longChain positive inRange)
  obtain ⟨bnNew, computed, quotient, _⟩ := getBTCWorkRequired_eq positive
    (retargeted_longChain positive inRange).2.1 0
  have sameBits : (params.longChain nBits).nBits = nBits := by
    rw [longChain, PowIndex.nBits_stamped, nBits_stillChain]
  have wrapped : ((setCompact nBits).target * Uint256.factor params.longestTimespan).toNat =
      rest := by
    have kept : (params.longestTimespan % 2 ^ 32).toNat = params.longestTimespan.toNat := by
      rw [Int.emod_eq_of_lt (by omega) short]
    rw [BitVec.toNat_mul, toNat_factor, kept, value, product, Nat.add_mod_left]
    exact Nat.mod_eq_of_lt (by omega)
  rw [← retargetTimespan, retargetTimespan_longChain positive, sameBits, wrapped] at quotient
  have cut := compactValue_eq_of_getCompact (computed.symm.trans result)
  rw [toNat_limitTarget, quotient, BitVec.toNat_ofNat, Nat.mod_eq_of_lt (integerTarget_lt _),
    integerTarget, retargetTimespan_longChain positive, sameBits, value, product] at cut
  have more := le_two_mul_compactValue (min params.proofOfWorkLimit.toNat
    ((2 ^ 256 + rest) / params.targetTimespan.toNat))
  have less := compactValue_le (min params.proofOfWorkLimit.toNat
    (rest / params.targetTimespan.toNat))
  have hard : min params.proofOfWorkLimit.toNat ((2 ^ 256 + rest) / params.targetTimespan.toNat) ≤
      2 * (rest / params.targetTimespan.toNat) := by omega
  have part := Nat.div_mul_le_self rest params.targetTimespan.toNat
  have quotientEasier : 2 * (rest / params.targetTimespan.toNat) <
      (2 ^ 256 + rest) / params.targetTimespan.toNat := by
    have aimShort := params.targetTimespan_lt
    rw [← Nat.succ_le_iff, Nat.le_div_iff_mul_le (by omega), Nat.succ_mul, Nat.mul_assoc]
    omega
  have targetEasier : 2 * (rest / params.targetTimespan.toNat) < target := by
    by_contra harder
    have lower := Nat.mul_le_mul_right params.targetTimespan.toNat (not_lt.mp harder)
    have upper := Nat.mul_le_mul_left target fourfold
    rw [Nat.mul_assoc] at lower
    rw [product, Nat.mul_left_comm] at upper
    omega
  omega

theorem leavesRoom_of_resultsExact (results : params.ResultsExact) : params.LeavesRoom :=
  ⟨seven_le_of_resultsExact results, room_of_resultsExact results⟩

end Wrapping

/-- The results and the products of every retarget are exact for just the parameters that leave
room for the products. -/
theorem retargets_exact_iff :
    (params.ResultsExact ↔ params.LeavesRoom) ∧ (params.ProductsExact ↔ params.LeavesRoom) :=
  ⟨⟨leavesRoom_of_resultsExact, fun room =>
      resultsExact_of_productsExact (productsExact_of_leavesRoom room)⟩,
    ⟨fun products => leavesRoom_of_resultsExact (resultsExact_of_productsExact products),
      productsExact_of_leavesRoom⟩⟩

section TenMinutes

/-- Forty blocks of fifteen seconds in an interval, with the default minimum bits. -/
def tenMinuteInterval : PowParams where
  targetBlockTime := 15
  powMinimumBits := 8
  targetAdjustFreq := 600
  allowMinDifficultyBlocks := false
  two_le_targetBlockTime := shortInterval.two_le_targetBlockTime
  targetBlockTime_le := shortInterval.targetBlockTime_le
  one_le_powMinimumBits := shortInterval.one_le_powMinimumBits
  powMinimumBits_le := shortInterval.powMinimumBits_le
  neg_one_le_targetAdjustFreq := by decide
  targetAdjustFreq_le := by decide

/-- After an interval of forty minutes the target should be four times the old one, which is
far below the limit, and is about a millionth of the old one. -/
theorem wrapping_retarget :
    tenMinuteInterval.Retargeted ((stillChain 0x1f1b4e82 39).stamped 2400) ∧
      tenMinuteInterval.getBTCWorkRequired ((stillChain 0x1f1b4e82 39).stamped 2400) 2400 =
        .ok 0x1d012c5f ∧
      getCompact (.ofNat 256
        (tenMinuteInterval.integerTarget ((stillChain 0x1f1b4e82 39).stamped 2400))) =
          .ok 0x1f6d3a08 ∧
      ¬ tenMinuteInterval.ResultsExact := by
  have due : tenMinuteInterval.Retargeted ((stillChain 0x1f1b4e82 39).stamped 2400) :=
    ⟨by decide, by decide +kernel, by decide +kernel, by decide +kernel, by decide +kernel,
      by decide +kernel⟩
  have computed : tenMinuteInterval.getBTCWorkRequired
      ((stillChain 0x1f1b4e82 39).stamped 2400) 2400 = .ok 0x1d012c5f := by
    decide +kernel
  have overIntegers : getCompact (.ofNat 256 (tenMinuteInterval.integerTarget
      ((stillChain 0x1f1b4e82 39).stamped 2400))) = .ok 0x1f6d3a08 := by
    decide +kernel
  refine ⟨due, computed, overIntegers, fun results => ?_⟩
  have same := results.1 _ 2400 due
  rw [computed, overIntegers] at same
  exact absurd same (by decide)

end TenMinutes

end PowParams

end HdacNode
