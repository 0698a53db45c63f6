import HdacNode.CompactOrder
import HdacNode.RetargetTotality

/-!
# The timespan of a retarget by work

`GetTargetPow` divides the work of the last eighth of an interval by the time it took, to which
slow last blocks add a part.  The timespan stays within its bounds, and a later last block leads
to an easier target as long as the added part is not lost.
-/

namespace HdacNode

namespace PowIndex

/-- The same chain with another time in its last block. -/
def stamped : PowIndex → UInt32 → PowIndex
  | genesis header, nTime => genesis { header with nTime := nTime }
  | next pprev header, nTime => next pprev { header with nTime := nTime }

variable (index : PowIndex) (nTime : UInt32)

@[simp] theorem nHeight_stamped : (index.stamped nTime).nHeight = index.nHeight := by
  cases index <;> rfl

@[simp] theorem nBits_stamped : (index.stamped nTime).nBits = index.nBits := by
  cases index <;> rfl

@[simp] theorem nChainWork_stamped : (index.stamped nTime).nChainWork = index.nChainWork := by
  cases index <;> rfl

@[simp] theorem blockTime_stamped : (index.stamped nTime).blockTime = nTime.toNat := by
  cases index <;> rfl

variable {index} in
theorem behind_stamped {steps : Nat} (positive : 0 < steps) (reached : steps ≤ index.nHeight) :
    (index.stamped nTime).behind steps = index.behind steps := by
  cases index with
  | genesis header =>
    rw [nHeight] at reached
    omega
  | next pprev header =>
    cases steps with
    | zero => omega
    | succ steps => rfl

end PowIndex

namespace PowParams

variable (params : PowParams)

/-- The timespan that `GetTargetPow` divides the work by. -/
def dividedTimespan (pindexFirst pindexPrev : PowIndex) (xfactor factor : Int) :
    Except PowStop Int := do
  let nActualTimespan := pindexPrev.blockTime - pindexFirst.blockTime
  let adjusttime ← params.getSDAadjustedTime pindexPrev nActualTimespan xfactor
  let sdaFactor := if 0 < adjusttime then 2 else 1
  .ok (params.boundTimespan (params.ldaTargetInterval xfactor) factor sdaFactor
    (nActualTimespan + adjusttime))

/-- `GetTargetPow` divides by that timespan. -/
theorem getTargetPow_dividedTimespan (pindexFirst pindexPrev : PowIndex) (xfactor factor : Int) :
    params.getTargetPow pindexFirst pindexPrev xfactor factor = (do
      assertPow (pindexFirst.nHeight < pindexPrev.nHeight)
      let timespan ← params.dividedTimespan pindexFirst pindexPrev xfactor factor
      let work ← Uint256.divide ((pindexPrev.nChainWork - pindexFirst.nChainWork) *
        Uint256.factor params.targetSpacing) (.ofInt64 timespan)
      (-work).divide work) := by
  simp only [getTargetPow, dividedTimespan, bind_assoc]
  rfl

/-- The time that slow last blocks add, which are looked at from the twenty-fourth on. -/
def boostOf (pindexPrev : PowIndex) (span : Int) : Int :=
  if (pindexPrev.nHeight : Int) < 24 then 0
  else slowTime pindexPrev (params.interval / 8) span

/-- Slow last blocks add to the timespan of the last eighth of an interval. -/
def Boosted (pindexPrev : PowIndex) : Prop :=
  ∃ adjusttime, params.getSDAadjustedTime pindexPrev (params.spanOf pindexPrev) timeXfactor =
    .ok adjusttime ∧ 0 < adjusttime

section Bounds

variable {params}

theorem interval_of_few (few : 0 < (params.ldaTargetInterval timeXfactor).tdiv timeFactor) :
    0 < params.interval ∧ params.ldaTargetInterval timeXfactor = params.interval / 8 ∧
      4 ≤ params.interval / 8 := by
  have positive : 0 < params.interval := by
    by_contra nonpositive
    have mirrored : 0 ≤ ((-params.interval).tdiv 8).tdiv 4 :=
      Int.tdiv_nonneg (Int.tdiv_nonneg (by omega) (by decide)) (by decide)
    rw [Int.neg_tdiv, Int.neg_tdiv] at mirrored
    rw [ldaTargetInterval, timeXfactor, timeFactor] at few
    omega
  have blocks := params.ldaTargetInterval_eq positive
  rw [blocks, timeFactor, Int.tdiv_eq_ediv_of_nonneg (by omega)] at few
  exact ⟨positive, blocks, by omega⟩

theorem getSDAadjustedTime_eq_boostOf (positive : 8 ≤ params.interval) (pindexPrev : PowIndex)
    (span : Int) :
    params.getSDAadjustedTime pindexPrev span timeXfactor =
      .ok (params.boostOf pindexPrev span) := by
  have blocks := params.ldaTargetInterval_eq (by omega)
  rw [boostOf]
  by_cases low : (pindexPrev.nHeight : Int) < 24
  · have few : (pindexPrev.nHeight : Int) < sdaBlockSize * 4 := low
    rw [if_pos low, getSDAadjustedTime]
    simp only [if_pos few]
  · rw [if_neg low, getSDAadjustedTime_eq (by omega) (by omega), blocks]

theorem boosted_iff (positive : 8 ≤ params.interval) {pindexPrev : PowIndex} :
    params.Boosted pindexPrev ↔
      0 < params.boostOf pindexPrev (params.spanOf pindexPrev) := by
  rw [Boosted, getSDAadjustedTime_eq_boostOf positive]
  simp

theorem boostOf_direction (pindexPrev : PowIndex) (span : Int) :
    (0 < params.boostOf pindexPrev span → 0 < span) ∧
      (params.boostOf pindexPrev span < 0 → span < 0) := by
  rw [boostOf]
  split_ifs
  · simp
  · exact slowTime_direction pindexPrev (params.interval / 8) span

theorem dividedTimespan_eq (positive : 8 ≤ params.interval) (pindexFirst pindexPrev : PowIndex) :
    params.dividedTimespan pindexFirst pindexPrev timeXfactor timeFactor =
      .ok (pacedTimespan (params.interval / 8) params.targetSpacing
        (pindexPrev.blockTime - pindexFirst.blockTime)
        (params.boostOf pindexPrev (pindexPrev.blockTime - pindexFirst.blockTime))) := by
  have blocks := params.ldaTargetInterval_eq (by omega)
  have fits := params.ldaTargetInterval_mul_spacing_lt (by omega)
  rw [blocks] at fits
  rw [dividedTimespan, getSDAadjustedTime_eq_boostOf positive, blocks]
  exact congrArg Except.ok (boundTimespan_eq (by omega) fits _ _)

/-- A timespan is not below a quarter of a block time for each block. -/
theorem least_le_pacedTimespan {interval spacing : Int} (nonnegative : 0 ≤ interval)
    (spaced : 0 ≤ spacing) (span slow : Int) :
    interval / 4 * spacing ≤ pacedTimespan interval spacing span slow := by
  have leastLe : interval / 4 * spacing ≤ interval * spacing :=
    Int.mul_le_mul_of_nonneg_right (by omega) spaced
  have unitNonnegative : 0 ≤ interval * spacing := Int.mul_nonneg nonnegative spaced
  rw [pacedTimespan]
  generalize interval / 4 * spacing = least at leastLe ⊢
  generalize interval * spacing = unit at leastLe unitNonnegative ⊢
  simp only [max_def, min_def]
  split_ifs <;> omega

theorem pacedTimespan_mono {interval spacing span span' slow slow' : Int}
    (nonnegative : 0 ≤ interval) (spaced : 0 ≤ spacing)
    (longer : 0 < span + slow → span + slow ≤ span' + slow') (boosted : 0 < slow → 0 < slow') :
    pacedTimespan interval spacing span slow ≤ pacedTimespan interval spacing span' slow' := by
  have leastLe : interval / 4 * spacing ≤ interval * spacing :=
    Int.mul_le_mul_of_nonneg_right (by omega) spaced
  have leastNonnegative : 0 ≤ interval / 4 * spacing := Int.mul_nonneg (by omega) spaced
  rw [pacedTimespan, pacedTimespan]
  generalize span + slow = total at longer ⊢
  generalize span' + slow' = total' at longer ⊢
  generalize interval / 4 * spacing = least at leastLe leastNonnegative ⊢
  generalize interval * spacing = unit at leastLe ⊢
  simp only [max_def, min_def]
  split_ifs <;> omega

end Bounds

section Later

variable {params}

theorem slowTime_mono {pindexPrev pindexPrev' : PowIndex} {interval span span' : Int}
    (slower : pindexPrev.blockTime - (pindexPrev.behind 6).blockTime ≤
      pindexPrev'.blockTime - (pindexPrev'.behind 6).blockTime)
    (positive : 0 < span) (longer : span ≤ span')
    (kept : 0 < slowTime pindexPrev interval span → 0 < slowTime pindexPrev' interval span') :
    slowTime pindexPrev interval span ≤ slowTime pindexPrev' interval span' := by
  have averages := Int.tdiv_le_tdiv (by decide : (0 : Int) < 6) slower
  rw [slowTime, slowTime] at kept ⊢
  generalize (pindexPrev.blockTime - (pindexPrev.behind 6).blockTime).tdiv 6 = nAvgTime
    at averages kept ⊢
  generalize (pindexPrev'.blockTime - (pindexPrev'.behind 6).blockTime).tdiv 6 = nAvgTime'
    at averages kept ⊢
  generalize span.tdiv interval = average at kept ⊢
  generalize span'.tdiv interval = average' at kept ⊢
  split_ifs at kept ⊢ <;> omega

theorem spanOf_stamped (eight : 8 ≤ params.interval) {pindexPrev : PowIndex}
    (above : params.interval / 8 ≤ pindexPrev.nHeight) (nTime : UInt32) :
    params.spanOf (pindexPrev.stamped nTime) =
      nTime.toNat - (params.eighthBehind pindexPrev).blockTime := by
  rw [spanOf, eighthBehind, eighthBehind, PowIndex.behind_stamped nTime (by omega) (by omega),
    PowIndex.blockTime_stamped]

theorem boostOf_mono (pindexPrev : PowIndex) {nTime : UInt32}
    (later : pindexPrev.blockTime ≤ nTime.toNat) {span span' : Int} (positive : 0 < span)
    (longer : span ≤ span')
    (kept : 0 < params.boostOf pindexPrev span →
      0 < params.boostOf (pindexPrev.stamped nTime) span') :
    params.boostOf pindexPrev span ≤ params.boostOf (pindexPrev.stamped nTime) span' := by
  rw [boostOf, boostOf, PowIndex.nHeight_stamped] at kept ⊢
  by_cases low : (pindexPrev.nHeight : Int) < 24
  · rw [if_pos low, if_pos low]
  · rw [if_neg low, if_neg low] at kept ⊢
    apply slowTime_mono _ positive longer kept
    rw [PowIndex.blockTime_stamped, PowIndex.behind_stamped nTime (by decide) (by omega)]
    omega

theorem timespan_mono (eight : 8 ≤ params.interval) {pindexPrev : PowIndex}
    (above : params.interval / 8 ≤ pindexPrev.nHeight) {nTime : UInt32}
    (later : pindexPrev.blockTime ≤ nTime.toNat)
    (kept : params.Boosted pindexPrev → params.Boosted (pindexPrev.stamped nTime)) :
    pacedTimespan (params.interval / 8) params.targetSpacing (params.spanOf pindexPrev)
        (params.boostOf pindexPrev (params.spanOf pindexPrev)) ≤
      pacedTimespan (params.interval / 8) params.targetSpacing
        (params.spanOf (pindexPrev.stamped nTime))
        (params.boostOf (pindexPrev.stamped nTime) (params.spanOf (pindexPrev.stamped nTime))) := by
  rw [boosted_iff eight, boosted_iff eight] at kept
  have longer : params.spanOf pindexPrev ≤ params.spanOf (pindexPrev.stamped nTime) := by
    rw [spanOf_stamped eight above, spanOf]
    omega
  obtain ⟨spaced, _⟩ := params.targetSpacing_range
  apply pacedTimespan_mono (by omega) (by omega) _ kept
  intro total
  obtain ⟨ahead, back⟩ := @boostOf_direction params pindexPrev (params.spanOf pindexPrev)
  have positive : 0 < params.spanOf pindexPrev := by omega
  have boost := boostOf_mono pindexPrev later positive longer kept
  omega

theorem complement_div_anti {work work' : Uint256} (nonzero : work' ≠ 0) (less : work' ≤ work) :
    -work / work ≤ -work' / work' := by
  have value : work'.toNat ≠ 0 := fun zero => nonzero (BitVec.eq_of_toNat_eq zero)
  have le := BitVec.le_def.mp less
  have complement (rate : Uint256) (given : rate.toNat ≠ 0) :
      (-rate).toNat = 2 ^ 256 - rate.toNat := by
    have below := rate.isLt
    rw [BitVec.toNat_neg, Nat.mod_eq_of_lt (by omega)]
  rw [BitVec.le_def, BitVec.toNat_udiv, BitVec.toNat_udiv, complement work (by omega),
    complement work' value]
  exact Nat.div_le_div (by omega) le value

theorem limitTarget_mono {target target' : Uint256} (le : target ≤ target') :
    params.limitTarget target ≤ params.limitTarget target' := by
  rw [BitVec.le_def] at le
  rw [limitTarget, limitTarget]
  split_ifs with above above'
  · exact BitVec.le_refl _
  · rw [BitVec.lt_def] at above above'
    rw [BitVec.le_def]
    omega
  · exact BitVec.not_lt.mp above
  · exact le

/-- What `GetTargetPow` returns. -/
theorem getTargetPow_ok {pindexFirst pindexPrev : PowIndex} {timespan : Int} {target : Uint256}
    (divided : params.dividedTimespan pindexFirst pindexPrev timeXfactor timeFactor =
      .ok timespan)
    (given : params.getTargetPow pindexFirst pindexPrev timeXfactor timeFactor = .ok target) :
    ∃ rate, rate = (pindexPrev.nChainWork - pindexFirst.nChainWork) *
        Uint256.factor params.targetSpacing / .ofInt64 timespan ∧
      rate ≠ 0 ∧ target = -rate / rate := by
  rw [getTargetPow_dividedTimespan, divided, assertPow] at given
  by_cases lower : pindexFirst.nHeight < pindexPrev.nHeight
  · simp only [if_pos lower, bind, Except.bind, Uint256.divide] at given
    by_cases instant : Uint256.ofInt64 timespan = 0
    · simp [instant] at given
    · simp only [if_neg instant] at given
      split_ifs at given with idle
      exact ⟨_, rfl, idle, (Except.ok.inj given).symm⟩
  · simp only [if_neg lower, bind, Except.bind] at given
    cases given

/-- With a later last block the target found from the work is not harder, unless the boost is
lost. -/
theorem getTargetPow_mono (eight : 32 ≤ params.interval) {pindexPrev : PowIndex}
    (above : params.interval / 8 ≤ pindexPrev.nHeight) {nTime : UInt32}
    (later : pindexPrev.blockTime ≤ nTime.toNat)
    (kept : params.Boosted pindexPrev → params.Boosted (pindexPrev.stamped nTime))
    {target target' : Uint256}
    (given : params.getTargetPow (params.eighthBehind pindexPrev) pindexPrev timeXfactor
      timeFactor = .ok target)
    (given' : params.getTargetPow (params.eighthBehind (pindexPrev.stamped nTime))
      (pindexPrev.stamped nTime) timeXfactor timeFactor = .ok target') :
    target ≤ target' := by
  obtain ⟨rate, value, _, rfl⟩ := getTargetPow_ok (dividedTimespan_eq (by omega) _ _) given
  obtain ⟨rate', value', idle, rfl⟩ := getTargetPow_ok (dividedTimespan_eq (by omega) _ _) given'
  have sameFirst : params.eighthBehind (pindexPrev.stamped nTime) =
      params.eighthBehind pindexPrev := PowIndex.behind_stamped nTime (by omega) (by omega)
  have longer := timespan_mono (by omega) above later kept
  obtain ⟨spaced, _⟩ := params.targetSpacing_range
  have fits := params.ldaTargetInterval_mul_spacing_lt (by omega)
  rw [params.ldaTargetInterval_eq (by omega)] at fits
  have few : 0 < params.interval / 8 / 4 * params.targetSpacing :=
    Int.mul_pos (by omega) (by omega)
  have least := least_le_pacedTimespan (by omega : 0 ≤ params.interval / 8)
    (by omega : 0 ≤ params.targetSpacing) (params.spanOf pindexPrev)
    (params.boostOf pindexPrev (params.spanOf pindexPrev))
  have most' := (pacedTimespan_range (by omega : 0 ≤ params.interval / 8)
    (by omega : 0 ≤ params.targetSpacing) (params.spanOf (pindexPrev.stamped nTime))
    (params.boostOf (pindexPrev.stamped nTime) (params.spanOf (pindexPrev.stamped nTime)))).2
  rw [← spanOf] at value
  rw [← spanOf, sameFirst, PowIndex.nChainWork_stamped] at value'
  apply complement_div_anti idle
  rw [BitVec.le_def, value, value', BitVec.toNat_udiv, BitVec.toNat_udiv,
    toNat_ofInt64 (by omega) (by omega), toNat_ofInt64 (by omega) (by omega)]
  exact Nat.div_le_div_left (by omega) (by omega)

theorem above_of_getLDAWorkRequired (positive : 0 < params.interval) {pindexPrev : PowIndex}
    {nBits : UInt32} (given : params.getLDAWorkRequired pindexPrev = .ok nBits) :
    params.interval / 8 ≤ pindexPrev.nHeight := by
  by_contra below
  rw [getLDAWorkRequired] at given
  rw [params.ldaTargetInterval_eq positive, assertPow, if_neg below] at given
  simp only [bind, Except.bind, reduceCtorEq] at given

theorem getLDAWorkRequired_ok (positive : 0 < params.interval) {pindexPrev : PowIndex}
    (above : params.interval / 8 ≤ pindexPrev.nHeight) {nBits : UInt32}
    (given : params.getLDAWorkRequired pindexPrev = .ok nBits) :
    ∃ target rule, params.getTargetPow (params.eighthBehind pindexPrev) pindexPrev timeXfactor
        timeFactor = .ok target ∧ params.workRule pindexPrev.nHeight = rule ∧
      match rule with
      | .byWork => getCompact (params.limitTarget target) = .ok nBits
      | .keep => pindexPrev.nBits = nBits
      | .scale factor => params.reduceWorkTarget pindexPrev factor = .ok nBits := by
  rw [getLDAWorkRequired_eq positive above] at given
  generalize params.workRule pindexPrev.nHeight = rule at given ⊢
  rw [eighthBehind]
  cases found : params.getTargetPow (pindexPrev.behind (params.interval / 8).toNat) pindexPrev
      timeXfactor timeFactor with
  | error stop =>
    rw [found] at given
    cases given
  | ok target =>
    rw [found, Except.bind] at given
    refine ⟨target, rule, rfl, rfl, ?_⟩
    cases rule with
    | byWork => exact given
    | keep => exact Except.ok.inj given
    | scale factor => exact given

/-- The timespan that `GetTargetPow` divides by is between a quarter of the blocks and eight
times the blocks of the last eighth of an interval, in block times.  With a later last block
`GetLDAWorkRequired` never finds a harder target, unless slow last blocks added to the timespan
and with the later one do not. -/
theorem getLDAWorkRequired_bounded_mono
    (few : 0 < (params.ldaTargetInterval timeXfactor).tdiv timeFactor) :
    (∀ pindexFirst pindexPrev : PowIndex, ∃ timespan,
      params.dividedTimespan pindexFirst pindexPrev timeXfactor timeFactor = .ok timespan ∧
        (params.ldaTargetInterval timeXfactor).tdiv timeFactor * params.targetSpacing ≤ timespan ∧
        timespan ≤
          2 * params.ldaTargetInterval timeXfactor * timeFactor * params.targetSpacing) ∧
      ∀ (pindexPrev : PowIndex) (nTime : UInt32), pindexPrev.header.nTime ≤ nTime →
        (params.Boosted pindexPrev → params.Boosted (pindexPrev.stamped nTime)) →
        ∀ nBits nBits', params.getLDAWorkRequired pindexPrev = .ok nBits →
          params.getLDAWorkRequired (pindexPrev.stamped nTime) = .ok nBits' →
          (setCompact nBits).target ≤ (setCompact nBits').target := by
  obtain ⟨positive, blocks, several⟩ := interval_of_few few
  obtain ⟨spaced, _⟩ := params.targetSpacing_range
  constructor
  · intro pindexFirst pindexPrev
    have quarter : (params.interval / 8).tdiv timeFactor = params.interval / 8 / 4 :=
      Int.tdiv_eq_ediv_of_nonneg (by omega)
    rw [blocks, quarter]
    refine ⟨_, dividedTimespan_eq (by omega) pindexFirst pindexPrev, ?_, ?_⟩
    · exact least_le_pacedTimespan (by omega) (by omega) _ _
    · have most := (@pacedTimespan_range (params.interval / 8) params.targetSpacing (by omega)
        (by omega) (pindexPrev.blockTime - pindexFirst.blockTime)
        (params.boostOf pindexPrev (pindexPrev.blockTime - pindexFirst.blockTime))).2
      apply le_trans most
      rw [timeFactor]
      linarith
  · intro pindexPrev nTime later kept nBits nBits' given given'
    have above := above_of_getLDAWorkRequired positive given
    obtain ⟨target, rule, found, isRule, result⟩ := getLDAWorkRequired_ok positive above given
    obtain ⟨target', rule', found', isRule', result'⟩ := getLDAWorkRequired_ok positive
      (above_of_getLDAWorkRequired positive given') given'
    rw [PowIndex.nHeight_stamped, isRule] at isRule'
    subst isRule'
    cases rule with
    | byWork =>
      have le := getTargetPow_mono (by omega) above
        (Int.ofNat_le.mpr (UInt32.le_iff_toNat_le.mp later)) kept found found'
      exact getCompact_mono (limitTarget_mono le) result result'
    | keep =>
      have same : nBits = nBits' :=
        result.symm.trans ((pindexPrev.nBits_stamped nTime).symm.trans result')
      rw [same]
      exact BitVec.le_refl _
    | scale factor =>
      simp only [reduceWorkTarget, PowIndex.nBits_stamped] at result result'
      rw [Except.ok.inj (result.symm.trans result')]
      exact BitVec.le_refl _

end Later

section HourlyInterval

/-- Thirty-two blocks of three minutes in an interval. -/
def hourlyInterval : PowParams where
  targetBlockTime := 180
  powMinimumBits := 8
  targetAdjustFreq := 5760
  allowMinDifficultyBlocks := false
  two_le_targetBlockTime := by decide
  targetBlockTime_le := by decide
  one_le_powMinimumBits := shortInterval.one_le_powMinimumBits
  powMinimumBits_le := shortInterval.powMinimumBits_le
  neg_one_le_targetAdjustFreq := by decide
  targetAdjustFreq_le := by decide

/-- Eighteen blocks in three minutes each, then one in about sixteen minutes. -/
def slowingChain (last : UInt32) : PowIndex :=
  [180, 360, 540, 720, 900, 1080, 1260, 1440, 1620, 1800, 1980, 2160, 2340, 2520, 2700, 2880,
    3060, 3240, 4240, 5240, 6240, 7240, 8240, last].foldl
      (fun pprev nTime => .next pprev ⟨nTime, 0x1e00ffff⟩) (.genesis ⟨0, 0x1e00ffff⟩)

/-- One second earlier the boost is there in both chains. -/
theorem getLDAWorkRequired_bounded_mono_slowingChain :
    (∃ timespan, hourlyInterval.dividedTimespan (slowingChain 0) (slowingChain 9235) timeXfactor
        timeFactor = .ok timespan ∧
      (hourlyInterval.ldaTargetInterval timeXfactor).tdiv timeFactor *
        hourlyInterval.targetSpacing ≤ timespan ∧
      timespan ≤ 2 * hourlyInterval.ldaTargetInterval timeXfactor * timeFactor *
        hourlyInterval.targetSpacing) ∧
      (setCompact 503725436).target ≤ (setCompact 503725527).target :=
  let general := @getLDAWorkRequired_bounded_mono hourlyInterval (by decide)
  ⟨general.1 _ _, general.2 (slowingChain 9234) 9235 (by decide)
    (fun _ => ⟨499, by decide +kernel, by decide⟩) _ _ (by decide +kernel) (by decide +kernel)⟩

/-- With the last block one second later the average of the last six blocks is not above that
of the last four any more, and the target is harder. -/
theorem later_block_harder :
    ∃ (params : PowParams) (pindexPrev : PowIndex) (nTime nBits nBits' : UInt32),
      0 < (params.ldaTargetInterval timeXfactor).tdiv timeFactor ∧
        pindexPrev.nHeight < startHeightNewHashAlog - 1 ∧ pindexPrev.header.nTime ≤ nTime ∧
        params.getLDAWorkRequired pindexPrev = .ok nBits ∧
        params.getLDAWorkRequired (pindexPrev.stamped nTime) = .ok nBits' ∧
        ¬ (setCompact nBits).target ≤ (setCompact nBits').target :=
  ⟨hourlyInterval, slowingChain 9235, 9236, 503725527, 503644155, by decide, by decide,
    by decide, by decide +kernel, by decide +kernel, by decide⟩

end HourlyInterval

end PowParams

end HdacNode
