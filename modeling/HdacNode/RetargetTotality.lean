import HdacNode.RetargetBounds

/-!
# Which blocks a retarget finds a target for

Whether `GetNextWorkRequired` ends with a target in range depends on the interval and, for a
retarget by work, on the work and the time of the last blocks.
-/

namespace HdacNode

namespace PowParams

variable (params : PowParams)

/-- The range check of `CheckProofOfWork`. -/
def InRange (nBits : UInt32) : Prop :=
  (setCompact nBits).fNegative = false ∧ (setCompact nBits).fOverflow = false ∧
    (setCompact nBits).target ≠ 0 ∧ (setCompact nBits).target ≤ params.proofOfWorkLimit

/-- No lower bound of a timespan is above the upper one. -/
def BoundsOrdered : Prop :=
  0 < params.interval →
    params.targetTimespan.tdiv 4 ≤ params.targetTimespan * 4 ∧
      ∀ sdaFactor : Int, sdaFactor = 1 ∨ sdaFactor = 2 →
        (params.ldaTargetInterval timeXfactor).tdiv timeFactor * params.targetSpacing ≤
          params.ldaTargetInterval timeXfactor * timeFactor * sdaFactor * params.targetSpacing

/-- A retarget that ends with a compact target in range. -/
def Ends (result : Except PowStop UInt32) : Prop :=
  ∃ nBits, result = .ok nBits ∧ params.InRange nBits

section Results

variable {params}

@[simp] theorem ends_ok {nBits : UInt32} : params.Ends (.ok nBits) ↔ params.InRange nBits :=
  ⟨fun ⟨_, same, inRange⟩ => Except.ok.inj same ▸ inRange, fun inRange => ⟨_, rfl, inRange⟩⟩

@[simp] theorem ends_error {stop : PowStop} : ¬ params.Ends (.error stop) :=
  fun ⟨_, differ, _⟩ => nomatch differ

theorem limitTarget_le (target : Uint256) :
    params.limitTarget target ≤ params.proofOfWorkLimit := by
  rw [limitTarget]
  split_ifs with above
  · exact BitVec.le_refl _
  · exact BitVec.not_lt.mp above

theorem limitTarget_eq_zero_iff {target : Uint256} :
    params.limitTarget target = 0 ↔ target = 0 := by
  rw [limitTarget]
  split_ifs with above
  · constructor
    · intro zero
      exact absurd zero params.proofOfWorkLimit_ne_zero
    · rintro rfl
      exact absurd above (by simp)
  · rfl

/-- The compact form of a limited target is in range unless the target is zero. -/
theorem ends_getCompact_iff {target : Uint256} :
    params.Ends (getCompact (params.limitTarget target)) ↔ target ≠ 0 := by
  obtain ⟨compact, same, positive, fits, kept, nonzero⟩ :=
    getCompact_spec (params.limitTarget target)
  rw [same, ends_ok]
  constructor
  · rintro ⟨_, _, inRange, _⟩ zero
    rw [limitTarget_eq_zero_iff.mpr zero] at kept
    exact inRange (BitVec.le_zero_iff.mp kept)
  · intro given
    exact ⟨positive, fits, nonzero (mt limitTarget_eq_zero_iff.mp given),
      BitVec.le_trans kept (limitTarget_le target)⟩

theorem limitTarget_limit : params.limitTarget params.proofOfWorkLimit
    = params.proofOfWorkLimit := by
  rw [limitTarget, if_neg (BitVec.lt_irrefl _)]

/-- The limit has a compact form in range. -/
theorem getCompact_limit :
    ∃ nBits, getCompact params.proofOfWorkLimit = .ok nBits ∧ params.InRange nBits := by
  have ends : params.Ends (getCompact (params.limitTarget params.proofOfWorkLimit)) :=
    ends_getCompact_iff.mpr params.proofOfWorkLimit_ne_zero
  rw [limitTarget_limit] at ends
  exact ends

end Results

section Conditions

/-- How the target of the block after one of this height is found from the work. -/
inductive WorkRule where
  | byWork
  | keep
  | scale (factor : Nat)
  deriving DecidableEq, Repr

/-- The rules by height: the target is raised at two fixed heights and then kept until an
interval has passed. -/
def workRule (nHeight : Int) : WorkRule :=
  if nHeight < 151879 then .byWork
  else if nHeight = 151879 then .scale 100
  else if nHeight < 151880 + params.interval / 8 then .keep
  else if nHeight < 183399 then .byWork
  else if nHeight = 183399 then .scale 10
  else if nHeight < 183400 + params.interval / 8 then .keep
  else .byWork

/-- The block before the last eighth of an interval. -/
def eighthBehind (pindexPrev : PowIndex) : PowIndex :=
  pindexPrev.behind (params.interval / 8).toNat

/-- The time of the last eighth of an interval. -/
def spanOf (pindexPrev : PowIndex) : Int :=
  pindexPrev.blockTime - (params.eighthBehind pindexPrev).blockTime

/-- That time with what a slow average adds, within its bounds. -/
def timespanOf (pindexPrev : PowIndex) : Int :=
  pacedTimespan (params.interval / 8) params.targetBlockTime (params.spanOf pindexPrev)
    (slowTime pindexPrev (params.interval / 8) (params.spanOf pindexPrev))

/-- The work of the last eighth of an interval, times the spacing. -/
def workOf (pindexPrev : PowIndex) : Nat :=
  ((pindexPrev.nChainWork - (params.eighthBehind pindexPrev).nChainWork).toNat *
    params.targetBlockTime) % 2 ^ 256

/-- What the rule of a height needs besides. -/
def RuleHolds (pindexPrev : PowIndex) : WorkRule → Prop
  | .byWork => params.timespanOf pindexPrev = 1 → params.workOf pindexPrev ≤ 2 ^ 255
  | .keep => params.InRange pindexPrev.nBits
  | .scale factor => ¬ 2 ^ 256 ∣ (setCompact pindexPrev.nBits).target.toNat * factor

/-- Retargeting by work: the interval has eight blocks, the timespan of its last eighth is not
zero, and their work is not below it. -/
def WorkMeasured (pindexPrev : PowIndex) : Prop :=
  8 ≤ params.interval ∧
    ((32 ≤ params.interval ∨ 0 < params.spanOf pindexPrev) ∧
      params.timespanOf pindexPrev ≤ params.workOf pindexPrev) ∧
    params.RuleHolds pindexPrev (params.workRule pindexPrev.nHeight)

/-- Retargeting by the time of a whole interval: the target times the timespan, in the low
bits that are kept of both, is not below the timespan that is aimed at. -/
def TimeMeasured (pindexLast : PowIndex) : Prop :=
  let pindexFirst := pindexLast.behind (params.interval - 1).toNat
  let aim := params.targetTimespan
  let timespan := max (aim / 4) (min (pindexLast.blockTime - pindexFirst.blockTime) (aim * 4))
  aim ≤ ((setCompact pindexLast.nBits).target.toNat * (timespan % 2 ^ 32).toNat % 2 ^ 256 : Nat)

/-- Between two retargets the bits of an earlier block are used, which must be in range. -/
def KeptInRange (pindexLast : PowIndex) (blockTime : UInt32) : Prop :=
  if params.allowMinDifficultyBlocks then
    params.minDifficultyAllowed pindexLast blockTime ∨
      ∀ nBits, getCompact params.proofOfWorkLimit = .ok nBits →
        params.InRange (params.lastNormalBlock nBits pindexLast).nBits
  else params.InRange pindexLast.nBits

/-- The states before a block in which its required work is found. -/
def Retargets (pindexLast : PowIndex) (blockTime : UInt32) : Prop :=
  0 < params.interval →
    if params.interval ≤ pindexLast.nHeight + 1 ∧ (112400 : Int) ≤ pindexLast.nHeight + 1 then
      params.minDifficultyAllowed pindexLast blockTime ∨ params.WorkMeasured pindexLast
    else if params.interval ∣ (pindexLast.nHeight + 1 : Nat) then params.TimeMeasured pindexLast
    else params.KeptInRange pindexLast blockTime

end Conditions

section ByTime

variable {params} {pindexLast : PowIndex}

theorem toNat_factor (n : Int) : (Uint256.factor n).toNat = (n % 2 ^ 32).toNat := by
  have small : (n % 2 ^ 32).toNat < 2 ^ 256 := by omega
  rw [Uint256.factor, BitVec.toNat_ofNat, Nat.mod_eq_of_lt small]

theorem toNat_ofInt64 {n : Int} (nonnegative : 0 ≤ n) (fits : n < 2 ^ 64) :
    (Uint256.ofInt64 n).toNat = n.toNat := by
  have small : (n % 2 ^ 64).toNat < 2 ^ 256 := by omega
  rw [Uint256.ofInt64, BitVec.toNat_ofNat, Nat.mod_eq_of_lt small, Int.emod_eq_of_lt nonnegative fits]

/-- A quotient is not zero if the dividend is not below the divisor. -/
theorem divide_eq {a b : Uint256} (nonzero : b.toNat ≠ 0) :
    ∃ c, a.divide b = .ok c ∧ c.toNat = a.toNat / b.toNat ∧ (c ≠ 0 ↔ b.toNat ≤ a.toNat) := by
  have divisor : b ≠ 0 := fun zero => nonzero (by rw [zero]; rfl)
  have value : (a / b).toNat = a.toNat / b.toNat := BitVec.toNat_udiv
  refine ⟨a / b, if_neg divisor, value, ?_⟩
  have reached : a.toNat / b.toNat ≠ 0 ↔ b.toNat ≤ a.toNat := by
    rw [Nat.div_ne_zero_iff]
    omega
  rw [← reached, ← value, not_iff_not]
  exact ⟨fun zero => by rw [zero]; rfl, fun zero => BitVec.eq_of_toNat_eq zero⟩

theorem limitTimespan_eq (positive : 0 < params.targetTimespan) (span : Int) :
    params.limitTimespan span =
      max (params.targetTimespan / 4) (min span (params.targetTimespan * 4)) := by
  have quarter : params.targetTimespan.tdiv 4 = params.targetTimespan / 4 :=
    Int.tdiv_eq_ediv_of_nonneg (by omega)
  simp only [limitTimespan, quarter, max_def, min_def]
  split_ifs <;> omega

/-- A whole interval is behind a block at which the target changes. -/
theorem found_of_dvd (positive : 0 < params.interval)
    (due : params.interval ∣ (pindexLast.nHeight + 1 : Nat)) :
    walkBack (params.interval - 1).toNat (some pindexLast) =
      some (pindexLast.behind (params.interval - 1).toNat) := by
  have reached := Int.le_of_dvd (by omega) due
  rw [PowIndex.walkBack_eq_stepsBack]
  exact PowIndex.stepsBack_eq_behind (by omega)

/-- `GetBTCWorkRequired` at a block at which the target changes. -/
theorem getBTCWorkRequired_eq (positive : 0 < params.interval)
    (due : params.interval ∣ (pindexLast.nHeight + 1 : Nat)) (blockTime : UInt32) :
    ∃ bnNew, params.getBTCWorkRequired pindexLast blockTime =
        getCompact (params.limitTarget bnNew) ∧
      bnNew.toNat = ((setCompact pindexLast.nBits).target * Uint256.factor (params.limitTimespan
        (pindexLast.blockTime -
          (pindexLast.behind (params.interval - 1).toNat).blockTime))).toNat /
        params.targetTimespan.toNat ∧
      (bnNew ≠ 0 ↔ params.targetTimespan.toNat ≤
        ((setCompact pindexLast.nBits).target * Uint256.factor (params.limitTimespan
          (pindexLast.blockTime -
            (pindexLast.behind (params.interval - 1).toNat).blockTime))).toNat) := by
  obtain ⟨_, aimPositive⟩ := params.interval_mul_spacing_le positive
  have aimShort := params.targetTimespan_lt
  obtain ⟨limitBits, limitCompact, _⟩ := @getCompact_limit params
  have remainder : ((pindexLast.nHeight : Int) + 1).tmod params.interval = 0 := by
    rw [Int.tmod_eq_emod_of_nonneg (by omega)]
    exact Int.emod_eq_zero_of_dvd (by exact_mod_cast due)
  have divisor : (Uint256.ofInt64 params.targetTimespan).toNat = params.targetTimespan.toNat :=
    toNat_ofInt64 (by omega) (by omega)
  obtain ⟨bnNew, divided, value, nonzero⟩ := divide_eq
    (a := (setCompact pindexLast.nBits).target * Uint256.factor (params.limitTimespan
      (pindexLast.blockTime -
        (pindexLast.behind (params.interval - 1).toNat).blockTime)))
    (b := Uint256.ofInt64 params.targetTimespan) (by omega)
  rw [divisor] at value nonzero
  refine ⟨bnNew, ?_, value, nonzero⟩
  simp only [getBTCWorkRequired, limitCompact, found_of_dvd positive due, remainder,
    if_neg (not_le.mpr positive), assertPow, follow, Option.elim_some, divided, bind,
    Except.bind]
  simp

theorem ends_byTime_iff (positive : 0 < params.interval)
    (due : params.interval ∣ (pindexLast.nHeight + 1 : Nat)) (blockTime : UInt32) :
    params.Ends (params.getBTCWorkRequired pindexLast blockTime) ↔
      params.TimeMeasured pindexLast := by
  obtain ⟨_, aimPositive⟩ := params.interval_mul_spacing_le positive
  obtain ⟨bnNew, result, _, nonzero⟩ := getBTCWorkRequired_eq positive due blockTime
  rw [result, ends_getCompact_iff, nonzero, TimeMeasured, BitVec.toNat_mul, toNat_factor,
    limitTimespan_eq aimPositive]
  exact Int.toNat_le

theorem ends_kept_iff (positive : 0 < params.interval)
    (between : ¬ params.interval ∣ (pindexLast.nHeight + 1 : Nat)) (blockTime : UInt32) :
    params.Ends (params.getBTCWorkRequired pindexLast blockTime) ↔
      params.KeptInRange pindexLast blockTime := by
  obtain ⟨limitBits, limitCompact, limitInRange⟩ := @getCompact_limit params
  have remainder : ¬ ((pindexLast.nHeight : Int) + 1).tmod params.interval = 0 := by
    rw [Int.tmod_eq_emod_of_nonneg (by omega)]
    intro zero
    exact between (by exact_mod_cast Int.dvd_of_emod_eq_zero zero)
  simp only [getBTCWorkRequired, limitCompact, if_neg (not_le.mpr positive), KeptInRange, ne_eq,
    remainder, not_false_eq_true, if_true, bind, Except.bind, Except.ok.injEq, forall_eq']
  by_cases testing : params.allowMinDifficultyBlocks = true
  · by_cases late : params.minDifficultyAllowed pindexLast blockTime
    · simp [testing, late, limitInRange]
    · simp [testing, late]
  · simp [testing]

end ByTime

section ByWork

variable {params} {pindexPrev : PowIndex}

theorem toNat_workOf :
    ((pindexPrev.nChainWork - (params.eighthBehind pindexPrev).nChainWork) *
      Uint256.factor params.targetSpacing).toNat = params.workOf pindexPrev := by
  have low := params.two_le_targetBlockTime
  have high := params.targetBlockTime_le
  have spacing : (params.targetSpacing % 2 ^ 32).toNat = params.targetBlockTime := by
    rw [params.targetSpacing_eq]
    omega
  rw [BitVec.toNat_mul, toNat_factor, spacing, workOf]

theorem divide_neg_eq {work : Uint256} (nonzero : work ≠ 0) :
    ∃ target, (-work).divide work = .ok target ∧ (target ≠ 0 ↔ work.toNat ≤ 2 ^ 255) := by
  have value : work.toNat ≠ 0 := fun zero => nonzero (BitVec.eq_of_toNat_eq zero)
  have below := work.isLt
  obtain ⟨target, divided, _, reached⟩ := divide_eq (a := -work) value
  refine ⟨target, divided, ?_⟩
  have complement : (-work).toNat = 2 ^ 256 - work.toNat := by
    rw [BitVec.toNat_neg, Nat.mod_eq_of_lt (by omega)]
  rw [reached, complement]
  omega

/-- The timespan that `GetTargetPow` divides by. -/
theorem timespanOf_spec (eight : 8 ≤ params.interval) :
    0 ≤ params.timespanOf pindexPrev ∧ params.timespanOf pindexPrev < 2 ^ 31 ∧
      (0 < params.timespanOf pindexPrev ↔
        32 ≤ params.interval ∨ 0 < params.spanOf pindexPrev) := by
  have low := params.two_le_targetBlockTime
  have fits := params.ldaTargetInterval_mul_spacing_lt (by omega)
  rw [params.ldaTargetInterval_eq (by omega), params.targetSpacing_eq] at fits
  obtain ⟨nonnegative, atMost⟩ := @pacedTimespan_range (params.interval / 8)
    params.targetBlockTime (by omega) (by omega) (params.spanOf pindexPrev)
    (slowTime pindexPrev (params.interval / 8) (params.spanOf pindexPrev))
  have passes := @pacedTimespan_pos_iff (params.interval / 8)
    params.targetBlockTime _ _ (by omega) (by omega)
    (slowTime_direction pindexPrev (params.interval / 8) (params.spanOf pindexPrev))
  refine ⟨nonnegative, lt_of_le_of_lt atMost fits, passes.trans ?_⟩
  omega

/-- `GetTargetPow` divides the work by the timespan and its complement by the quotient. -/
theorem getTargetPow_eq (eight : 8 ≤ params.interval) (high : 24 ≤ pindexPrev.nHeight) :
    params.getTargetPow (params.eighthBehind pindexPrev) pindexPrev timeXfactor timeFactor =
      (((pindexPrev.nChainWork - (params.eighthBehind pindexPrev).nChainWork) *
        Uint256.factor params.targetSpacing).divide
          (.ofInt64 (params.timespanOf pindexPrev))).bind fun work => (-work).divide work := by
  have blocks := params.ldaTargetInterval_eq (by omega)
  have height : (params.eighthBehind pindexPrev).nHeight =
      pindexPrev.nHeight - (params.interval / 8).toNat := PowIndex.nHeight_behind _ _
  have lower : (params.eighthBehind pindexPrev).nHeight < pindexPrev.nHeight := by omega
  have fits := params.ldaTargetInterval_mul_spacing_lt (by omega)
  have adjusted := @getSDAadjustedTime_eq params (by omega) _ high
    (params.spanOf pindexPrev)
  rw [blocks] at fits adjusted
  have bounded := @boundTimespan_eq params (params.interval / 8)
    (by omega) fits (params.spanOf pindexPrev)
    (slowTime pindexPrev (params.interval / 8) (params.spanOf pindexPrev))
  rw [getTargetPow, assertPow, if_pos lower, blocks]
  change (params.getSDAadjustedTime pindexPrev (params.spanOf pindexPrev) timeXfactor).bind _
    = _
  rw [adjusted]
  change (Uint256.divide _ (.ofInt64 (params.boundTimespan (params.interval / 8) timeFactor
    (if 0 < slowTime pindexPrev (params.interval / 8) (params.spanOf pindexPrev) then 2 else 1)
      (params.spanOf pindexPrev +
        slowTime pindexPrev (params.interval / 8) (params.spanOf pindexPrev))))).bind _ = _
  rw [bounded, params.targetSpacing_eq, ← timespanOf]

/-- `GetTargetPow` over the last eighth of an interval: it fails if the timespan is zero or
above the work, and the target is zero only for a work of more than half of all hashes. -/
theorem getTargetPow_spec (eight : 8 ≤ params.interval) (high : 24 ≤ pindexPrev.nHeight) :
    if (32 ≤ params.interval ∨ 0 < params.spanOf pindexPrev) ∧
        params.timespanOf pindexPrev ≤ params.workOf pindexPrev then
      ∃ target, params.getTargetPow (params.eighthBehind pindexPrev) pindexPrev timeXfactor
          timeFactor = .ok target ∧
        (target ≠ 0 ↔ (params.timespanOf pindexPrev = 1 → params.workOf pindexPrev ≤ 2 ^ 255))
    else ∃ stop, params.getTargetPow (params.eighthBehind pindexPrev) pindexPrev timeXfactor
      timeFactor = .error stop := by
  obtain ⟨nonnegative, below, passes⟩ := @timespanOf_spec params pindexPrev eight
  have workBelow : params.workOf pindexPrev < 2 ^ 256 := Nat.mod_lt _ (by omega)
  have divisor := toNat_ofInt64 nonnegative (by omega)
  rw [getTargetPow_eq eight high]
  by_cases passed : 0 < params.timespanOf pindexPrev
  · obtain ⟨rate, divided, value, nonzero⟩ := divide_eq
      (a := (pindexPrev.nChainWork - (params.eighthBehind pindexPrev).nChainWork) *
        Uint256.factor params.targetSpacing)
      (b := Uint256.ofInt64 (params.timespanOf pindexPrev)) (by omega)
    rw [toNat_workOf, divisor] at value nonzero
    rw [divided]
    by_cases enough : params.timespanOf pindexPrev ≤ params.workOf pindexPrev
    · obtain ⟨target, found, inRange⟩ := divide_neg_eq (nonzero.mpr (by omega))
      rw [if_pos ⟨passes.mp passed, enough⟩]
      refine ⟨target, found, inRange.trans ?_⟩
      rw [value]
      by_cases unit : params.timespanOf pindexPrev = 1
      · simp [unit]
      · have half : params.workOf pindexPrev / (params.timespanOf pindexPrev).toNat ≤
            params.workOf pindexPrev / 2 := Nat.div_le_div_left (by omega) (by omega)
        constructor
        · intro _ one
          exact absurd one unit
        · intro _
          omega
    · have zeroRate : rate = 0 := by
        by_contra given
        have reached := nonzero.mp given
        omega
      rw [if_neg fun both => enough both.2, zeroRate]
      exact ⟨.divisionByZero, rfl⟩
  · have zero : params.timespanOf pindexPrev = 0 := by omega
    rw [if_neg fun both => passed (passes.mpr both.1), zero]
    exact ⟨.divisionByZero, rfl⟩

/-- `GetLDAWorkRequired` once the block before the last eighth of an interval is found. -/
theorem getLDAWorkRequired_eq (positive : 0 < params.interval)
    (above : params.interval / 8 ≤ pindexPrev.nHeight) :
    params.getLDAWorkRequired pindexPrev =
      (params.getTargetPow (pindexPrev.behind (params.interval / 8).toNat) pindexPrev
        timeXfactor timeFactor).bind fun target =>
          match params.workRule pindexPrev.nHeight with
          | .byWork => getCompact (params.limitTarget target)
          | .keep => .ok pindexPrev.nBits
          | .scale factor => params.reduceWorkTarget pindexPrev factor := by
  have blocks := params.ldaTargetInterval_eq positive
  have found : pindexPrev.getAncestor (pindexPrev.nHeight - params.interval / 8)
      = some (pindexPrev.behind (params.interval / 8).toNat) :=
    PowIndex.getAncestor_eq_behind (by omega) (by omega)
  have newHash : startHeightNewHashAlog = 151880 := rfl
  have reward : startHeightBlockRewardAdj2nd = 183400 := rfl
  rw [getLDAWorkRequired, workRule]
  generalize startHeightNewHashAlog = newHashHeight at newHash ⊢
  generalize startHeightBlockRewardAdj2nd = rewardHeight at reward ⊢
  subst newHash reward
  simp only [assertPow, blocks, found, if_pos above, follow, Option.elim_some, bind,
    Except.bind, ne_eq, reduceCtorEq, not_false_eq_true, if_true]
  cases params.getTargetPow (pindexPrev.behind (params.interval / 8).toNat) pindexPrev
      timeXfactor timeFactor with
  | error stop => rfl
  | ok target => split_ifs <;> first | omega | rfl

/-- `ReduceWorkTarget` leaves a target unless the product is cut to zero. -/
theorem ends_reduceWorkTarget_iff {factor : Nat} (small : factor < 2 ^ 32) :
    params.Ends (params.reduceWorkTarget pindexPrev factor) ↔
      ¬ 2 ^ 256 ∣ (setCompact pindexPrev.nBits).target.toNat * factor := by
  have kept : ((factor : Int) % 2 ^ 32).toNat = factor := by omega
  have product : ((setCompact pindexPrev.nBits).target * Uint256.factor factor).toNat =
      (setCompact pindexPrev.nBits).target.toNat * factor % 2 ^ 256 := by
    rw [BitVec.toNat_mul, toNat_factor, kept]
  rw [reduceWorkTarget, ends_getCompact_iff, Nat.dvd_iff_mod_eq_zero, ← product, not_iff_not]
  exact ⟨fun zero => by rw [zero]; rfl, fun zero => BitVec.eq_of_toNat_eq zero⟩

theorem workRule_scale {nHeight : Int} {factor : Nat}
    (scaled : params.workRule nHeight = .scale factor) : factor < 2 ^ 32 := by
  rw [workRule] at scaled
  split_ifs at scaled <;> (injection scaled with same; omega)

theorem ends_byWork_iff (positive : 0 < params.interval)
    (reached : params.interval ≤ pindexPrev.nHeight + 1)
    (high : 112400 ≤ (pindexPrev.nHeight : Int) + 1) :
    params.Ends (params.getLDAWorkRequired pindexPrev) ↔ params.WorkMeasured pindexPrev := by
  rw [getLDAWorkRequired_eq positive (by omega), WorkMeasured]
  by_cases eight : 8 ≤ params.interval
  · have spec := @getTargetPow_spec params pindexPrev eight (by omega)
    split at spec
    · rename_i measured
      obtain ⟨target, found, inRange⟩ := spec
      rw [eighthBehind] at found
      rw [found, and_iff_right eight, and_iff_right measured, Except.bind]
      cases rule : params.workRule pindexPrev.nHeight with
      | byWork => exact ends_getCompact_iff.trans inRange
      | keep => exact ends_ok
      | scale factor => exact ends_reduceWorkTarget_iff (workRule_scale rule)
    · rename_i unmeasured
      obtain ⟨stop, failed⟩ := spec
      rw [eighthBehind] at failed
      rw [failed]
      constructor
      · intro ends
        exact absurd ends ends_error
      · rintro ⟨_, measured, _⟩
        exact absurd measured unmeasured
  · have same : (params.interval / 8).toNat = 0 := by omega
    have failed : params.getTargetPow (pindexPrev.behind (params.interval / 8).toNat) pindexPrev
        timeXfactor timeFactor = .error .assertion := by
      have level : ¬ (pindexPrev.behind (params.interval / 8).toNat).nHeight <
          pindexPrev.nHeight := by
        rw [same, PowIndex.behind]
        exact Nat.lt_irrefl pindexPrev.nHeight
      rw [getTargetPow, assertPow, if_neg level]
      rfl
    rw [failed]
    constructor
    · intro ends
      exact absurd ends ends_error
    · intro measured
      exact absurd measured.1 eight

end ByWork

section Totality

theorem boundsOrdered : params.BoundsOrdered := by
  intro positive
  obtain ⟨_, aimPositive⟩ := params.interval_mul_spacing_le positive
  obtain ⟨low, _⟩ := params.targetSpacing_range
  have quarter : params.targetTimespan.tdiv 4 = params.targetTimespan / 4 :=
    Int.tdiv_eq_ediv_of_nonneg (by omega)
  refine ⟨by omega, fun sdaFactor either => ?_⟩
  have few : (params.interval / 8).tdiv timeFactor = params.interval / 8 / 4 :=
    Int.tdiv_eq_ediv_of_nonneg (by omega)
  rw [params.ldaTargetInterval_eq positive, few, timeFactor]
  refine Int.mul_le_mul_of_nonneg_right ?_ (by omega)
  rcases either with rfl | rfl <;> omega

variable {params}

/-- The states before a block are those in which its required work is found. -/
theorem ends_getNextWorkRequired_iff (pindexLast : PowIndex) (blockTime : UInt32) :
    params.Ends (params.getNextWorkRequired pindexLast blockTime) ↔
      params.Retargets pindexLast blockTime := by
  obtain ⟨limitBits, limitCompact, limitInRange⟩ := @getCompact_limit params
  have newHeight : startHeightDiffAlg = 112400 := rfl
  rw [getNextWorkRequired, Retargets, newHeight]
  by_cases positive : 0 < params.interval
  · by_cases byWork : params.interval ≤ (pindexLast.nHeight : Int) + 1 ∧
        112400 ≤ (pindexLast.nHeight : Int) + 1
    · have target : params.getTargetWorkRequired pindexLast blockTime =
          if params.minDifficultyAllowed pindexLast blockTime then .ok limitBits
          else params.getLDAWorkRequired pindexLast := by
        simp only [getTargetWorkRequired, limitCompact, if_neg (not_le.mpr positive), bind,
          Except.bind]
      rw [if_pos byWork, if_pos byWork, target]
      by_cases late : params.minDifficultyAllowed pindexLast blockTime
      · simp [late, limitInRange]
      · rw [if_neg late, ends_byWork_iff positive byWork.1 byWork.2]
        simp [late, positive]
    · rw [if_neg byWork, if_neg byWork]
      by_cases due : params.interval ∣ (pindexLast.nHeight + 1 : Nat)
      · rw [if_pos due, ends_byTime_iff positive due]
        simp [positive]
      · rw [if_neg due, ends_kept_iff positive due]
        simp [positive]
  · have atLimit : params.Ends (.ok limitBits) := ends_ok.mpr limitInRange
    have without : params.getTargetWorkRequired pindexLast blockTime = .ok limitBits ∧
        params.getBTCWorkRequired pindexLast blockTime = .ok limitBits := by
      simp only [getTargetWorkRequired, getBTCWorkRequired, limitCompact,
        if_pos (not_lt.mp positive), bind, Except.bind, and_self]
    rw [without.1, without.2, ite_self]
    exact iff_of_true atLimit fun given => absurd given positive

/-- `GetNextWorkRequired` ends without a failed assertion, a division by zero or a bound below
another, and with a compact target in range, in just the states that `Retargets` describes. -/
theorem getNextWorkRequired_inRange_iff (pindexLast : PowIndex) (blockTime : UInt32) :
    (params.BoundsOrdered ∧ params.Ends (params.getNextWorkRequired pindexLast blockTime)) ↔
      params.Retargets pindexLast blockTime :=
  (and_iff_right params.boundsOrdered).trans (ends_getNextWorkRequired_iff pindexLast blockTime)

end Totality

section ShortInterval

/-- Four blocks of fifteen seconds in an interval. -/
def shortInterval : PowParams where
  targetBlockTime := 15
  powMinimumBits := 8
  targetAdjustFreq := 60
  allowMinDifficultyBlocks := false
  two_le_targetBlockTime := by decide
  targetBlockTime_le := by decide
  one_le_powMinimumBits := by decide
  powMinimumBits_le := by decide
  neg_one_le_targetAdjustFreq := by decide
  targetAdjustFreq_le := by decide

/-- A chain of blocks at the limit, one in twenty seconds. -/
def steadyChain : Nat → PowIndex
  | 0 => .genesis ⟨0, 0x2000ffff⟩
  | n + 1 => .next (steadyChain n) ⟨.ofNat (20 * (n + 1)), 0x2000ffff⟩

theorem nHeight_steadyChain (n : Nat) : (steadyChain n).nHeight = n := by
  induction n with
  | zero => rfl
  | succ n ih => rw [steadyChain, PowIndex.nHeight, ih]

theorem nBits_steadyChain (n : Nat) : (steadyChain n).nBits = 0x2000ffff := by
  cases n <;> rfl

theorem blockTime_steadyChain {n : Nat} (low : n < 2 ^ 20) :
    (steadyChain n).blockTime = 20 * n := by
  cases n with
  | zero => rfl
  | succ n =>
    change ((UInt32.ofNat (20 * (n + 1))).toNat : Int) = _
    rw [UInt32.toNat_ofNat']
    omega

theorem behind_steadyChain (n steps : Nat) :
    (steadyChain n).behind steps = steadyChain (n - steps) := by
  induction steps generalizing n with
  | zero => rw [PowIndex.behind, Nat.sub_zero]
  | succ steps ih =>
    cases n with
    | zero => rw [steadyChain, PowIndex.behind, Nat.zero_sub, steadyChain]
    | succ n => rw [steadyChain, PowIndex.behind, ih, Nat.add_sub_add_right]

theorem interval_shortInterval : shortInterval.interval = 4 := by decide

theorem required_steadyChain {n : Nat} (low : n < 112399) (blockTime : UInt32) :
    shortInterval.getNextWorkRequired (steadyChain n) blockTime = .ok 0x2000ffff := by
  have limitCompact : getCompact shortInterval.proofOfWorkLimit = .ok 0x2000ffff := by
    decide +kernel
  have old : ¬ (shortInterval.interval ≤ (steadyChain n).nHeight + 1 ∧
      startHeightDiffAlg ≤ (steadyChain n).nHeight + 1) := by
    rw [nHeight_steadyChain]
    have newHeight : startHeightDiffAlg = 112400 := rfl
    omega
  have some4 : ¬ (4 : Int) ≤ 0 := by decide
  rw [getNextWorkRequired, if_neg old]
  by_cases due : shortInterval.interval ∣ ((steadyChain n).nHeight + 1 : Nat)
  · have found := @found_of_dvd shortInterval _ (by decide) due
    have few : ((4 : Int) - 1).toNat = 3 := rfl
    rw [interval_shortInterval, behind_steadyChain, few] at found
    rw [nHeight_steadyChain, interval_shortInterval] at due
    have remainder : ((n : Int) + 1).tmod 4 = 0 := by
      rw [Int.tmod_eq_emod_of_nonneg (by omega)]
      omega
    have divided : ((setCompact 0x2000ffff).target *
        Uint256.factor (shortInterval.limitTimespan 60)).divide
          (.ofInt64 shortInterval.targetTimespan) = .ok (setCompact 0x2000ffff).target := by
      decide +kernel
    have same : getCompact (shortInterval.limitTarget (setCompact 0x2000ffff).target) =
        .ok 0x2000ffff := by
      decide +kernel
    have passed : (steadyChain n).blockTime - (steadyChain (n - 3)).blockTime = 60 := by
      rw [blockTime_steadyChain (by omega), blockTime_steadyChain (by omega)]
      omega
    simp only [getBTCWorkRequired, limitCompact, interval_shortInterval, if_neg some4,
      nHeight_steadyChain, remainder, few, found, assertPow, follow, Option.elim_some, passed,
      nBits_steadyChain, divided, same, bind, Except.bind, ne_eq, not_true_eq_false, if_false,
      reduceCtorEq, not_false_eq_true, if_true]
  · rw [nHeight_steadyChain, interval_shortInterval] at due
    have remainder : ¬ ((n : Int) + 1).tmod 4 = 0 := by
      rw [Int.tmod_eq_emod_of_nonneg (by omega)]
      omega
    have testing : shortInterval.allowMinDifficultyBlocks = false := rfl
    simp only [getBTCWorkRequired, limitCompact, interval_shortInterval, if_neg some4,
      nHeight_steadyChain, remainder, testing, nBits_steadyChain, bind, Except.bind, ne_eq,
      not_false_eq_true, if_true, Bool.false_eq_true, if_false]

/-- The interval has less than eight blocks, and the assertion of `GetTargetPow` fails. -/
theorem not_ends_of_shortInterval {pindexLast : PowIndex} (high : 112399 ≤ pindexLast.nHeight)
    (blockTime : UInt32) :
    ¬ shortInterval.Ends (shortInterval.getNextWorkRequired pindexLast blockTime) := by
  rw [ends_getNextWorkRequired_iff, Retargets, interval_shortInterval, if_pos (by omega)]
  intro given
  rcases given (by decide) with late | measured
  · exact absurd late.1 (by decide)
  · have eight := measured.1
    rw [interval_shortInterval] at eight
    omega

/-- A chain whose blocks all had the required work ends where the target is first found by
work. -/
theorem getNextWorkRequired_stops :
    (∀ n < 112399, shortInterval.getNextWorkRequired (steadyChain n) 0 = .ok 0x2000ffff) ∧
      ¬ (shortInterval.BoundsOrdered ∧
        shortInterval.Ends (shortInterval.getNextWorkRequired (steadyChain 112399) 0)) := by
  refine ⟨fun n low => required_steadyChain low 0, fun given => ?_⟩
  exact not_ends_of_shortInterval (nHeight_steadyChain 112399).ge 0 given.2

end ShortInterval

end PowParams

end HdacNode
