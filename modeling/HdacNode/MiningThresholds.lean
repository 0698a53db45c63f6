import HdacNode.PermissionForks

/-!
# The thresholds of admins and miners

`AdminConsensus`, `IsBarredByDiversity` and `GetActiveMinerCount` take a share of the admins or
miners, in millionths, and compute it in 32-bit arithmetic.
-/

namespace HdacNode

namespace Permissions

section Counts

variable (params : NetworkParams)

/-- The share of the miners that `GetActiveMinerCount` leaves out, before it is bounded. -/
def rawDiversity (minerCount : Int) : Int :=
  let diversity := wrapInt32 params.miningDiversity
  if 0 < diversity then
    (wrapInt32 (minerCount * diversity - 1)).tdiv mcPrmDecimalGranularity
  else diversity

/-- `GetActiveMinerCount`. -/
def getActiveMinerCount (s : Permissions) : Int :=
  let minerCount :=
    if isSetupPeriod params s then s.minerCount
    else
      let diversity := rawDiversity params s.minerCount + 1
      let minerCount := wrapInt32 (s.minerCount - (diversity - 1))
      let minerCount := if minerCount < 1 then 1 else minerCount
      if s.minerCount < minerCount then s.minerCount else minerCount
  if s.minerCount ≤ 0 then 1 else minerCount

/-- The parameter that `AdminConsensus` takes a share with, if the entity and the type have one
and the setup is over. -/
def consensusRatio (s : Permissions) : Entity → Nat → Option Nat
  | .null, type =>
      if isSetupPeriod params s then none
      else if type = mcPtpAdmin then some params.adminConsensusAdmin
      else if type = mcPtpMine then some params.adminConsensusMine
      else if type = mcPtpActivate then some params.adminConsensusActivate
      else if type = mcPtpIssue then some params.adminConsensusIssue
      else if type = mcPtpCreate then some params.adminConsensusCreate
      else none
  | .upgrade, type =>
      if isSetupPeriod params s then none
      else if type = mcPtpUpgrade then some params.adminConsensusUpgrade
      else none
  | .genesis _, _ => none

end Counts

/-- A share of a count, rounded up. -/
def roundedShare (count ratio : Int) : Int := (count * ratio + 999999) / 1000000

/-- The shares in the parameters are at most one. -/
structure RatiosInRange (params : NetworkParams) : Prop where
  admin : params.adminConsensusAdmin ≤ 1000000
  mine : params.adminConsensusMine ≤ 1000000
  activate : params.adminConsensusActivate ≤ 1000000
  issue : params.adminConsensusIssue ≤ 1000000
  create : params.adminConsensusCreate ≤ 1000000
  upgrade : params.adminConsensusUpgrade ≤ 1000000
  diversity_nonneg : 0 ≤ params.miningDiversity
  diversity : params.miningDiversity ≤ 1000000

/-- The counts are not negative and fit an `int`. -/
structure CountsInRange (params : NetworkParams) (s : Permissions) : Prop where
  admins_nonneg : 0 ≤ getAdminCount params s
  admins : getAdminCount params s < 2 ^ 31
  miners_nonneg : 0 ≤ s.minerCount
  miners : s.minerCount < 2 ^ 31

/-- The thresholds are the rounded shares, from one up to the count. -/
structure ExactThresholds (params : NetworkParams) (s : Permissions) : Prop where
  consensus : ∀ entity type,
    (adminConsensus params s entity type : Int) =
        max 1 ((consensusRatio params s entity type).elim 1 fun ratio =>
          roundedShare (getAdminCount params s) ratio) ∧
      (adminConsensus params s entity type : Int) ≤ max 1 (getAdminCount params s)
  diversity : 0 < s.minerCount →
    diversityOf params s.minerCount =
        max 1 (roundedShare s.minerCount params.miningDiversity) ∧
      1 ≤ diversityOf params s.minerCount ∧ diversityOf params s.minerCount ≤ s.minerCount
  active : 0 < s.minerCount → isSetupPeriod params s = false →
    getActiveMinerCount params s =
        s.minerCount - (max 1 (roundedShare s.minerCount params.miningDiversity) - 1) ∧
      1 ≤ getActiveMinerCount params s ∧ getActiveMinerCount params s ≤ s.minerCount

section Consensus

variable {params : NetworkParams} {s : Permissions}

theorem adminConsensus_eq (params : NetworkParams) (s : Permissions) (entity : Entity)
    (type : Nat) :
    adminConsensus params s entity type =
      if getAdminCount params s = 0 then 1
      else (consensusRatio params s entity type).elim 1 (consensusShare params s) := by
  unfold adminConsensus consensusRatio
  cases entity with
  | null =>
      by_cases setup : isSetupPeriod params s = true
      · simp [setup]
      · by_cases isAdmin : type = mcPtpAdmin
        · simp [setup, isAdmin]
        by_cases isMine : type = mcPtpMine
        · have other : mcPtpMine ≠ mcPtpAdmin := by decide
          simp [setup, isMine, other]
        by_cases isActivate : type = mcPtpActivate
        · have others : mcPtpActivate ≠ mcPtpAdmin ∧ mcPtpActivate ≠ mcPtpMine := by decide
          simp [setup, isActivate, others]
        by_cases isIssue : type = mcPtpIssue
        · have others : mcPtpIssue ≠ mcPtpAdmin ∧ mcPtpIssue ≠ mcPtpMine ∧
              mcPtpIssue ≠ mcPtpActivate := by decide
          simp [setup, isIssue, others]
        by_cases isCreate : type = mcPtpCreate
        · have others : mcPtpCreate ≠ mcPtpAdmin ∧ mcPtpCreate ≠ mcPtpMine ∧
              mcPtpCreate ≠ mcPtpActivate ∧ mcPtpCreate ≠ mcPtpIssue := by decide
          simp [setup, isCreate, others]
        · simp [setup, isAdmin, isMine, isActivate, isIssue, isCreate]
  | upgrade =>
      by_cases setup : isSetupPeriod params s = true <;>
        by_cases isUpgrade : type = mcPtpUpgrade <;> simp [setup, isUpgrade]
  | genesis txid => simp

theorem RatiosInRange.consensusRatio (ratios : RatiosInRange params) {entity : Entity}
    {type ratio : Nat} (found : consensusRatio params s entity type = some ratio) :
    ratio ≤ 1000000 := by
  unfold Permissions.consensusRatio at found
  cases entity with
  | null =>
      simp only at found
      split_ifs at found <;> cases found
      · exact ratios.admin
      · exact ratios.mine
      · exact ratios.activate
      · exact ratios.issue
      · exact ratios.create
  | upgrade =>
      simp only at found
      split_ifs at found
      cases found
      exact ratios.upgrade
  | genesis txid => cases found

theorem consensusShare_eq_iff (counts : CountsInRange params s)
    (some : getAdminCount params s ≠ 0) (ratio : Nat) :
    (consensusShare params s ratio : Int) =
        max 1 (roundedShare (getAdminCount params s) ratio) ↔
      getAdminCount params s * ratio ≤ 2 ^ 32 := by
  obtain ⟨nonneg, short, -, -⟩ := counts
  unfold consensusShare roundedShare toUInt32 mcPrmDecimalGranularity
  generalize getAdminCount params s = count at some nonneg short ⊢
  by_cases none : ratio = 0
  · simp [none]
  · rw [if_neg none]
    obtain ⟨admins, rfl⟩ := Int.eq_ofNat_of_zero_le nonneg
    have whole : ((admins : Int) % 2 ^ 32).toNat = admins := by omega
    have positive : 0 < admins * ratio := Nat.mul_pos (by omega) (by omega)
    rw [whole]
    push_cast
    have cast : (admins : Int) * (ratio : Int) = ((admins * ratio : Nat) : Int) := by
      push_cast
      rfl
    rw [cast]
    generalize admins * ratio = product at positive ⊢
    omega

theorem roundedShare_le {count ratio : Int} (nonneg : 0 ≤ count) (ratioLe : ratio ≤ 1000000) :
    roundedShare count ratio ≤ count := by
  have product := Int.mul_le_mul_of_nonneg_left ratioLe nonneg
  unfold roundedShare
  generalize count * ratio = share at product ⊢
  omega

theorem consensus_exact_iff (counts : CountsInRange params s) (ratios : RatiosInRange params)
    (entity : Entity) (type : Nat) :
    ((adminConsensus params s entity type : Int) =
        max 1 ((consensusRatio params s entity type).elim 1 fun ratio =>
          roundedShare (getAdminCount params s) ratio) ∧
      (adminConsensus params s entity type : Int) ≤ max 1 (getAdminCount params s)) ↔
    ∀ ratio : Nat, consensusRatio params s entity type = some ratio →
      getAdminCount params s * ratio ≤ 2 ^ 32 := by
  rw [adminConsensus_eq]
  by_cases none : getAdminCount params s = 0
  · rw [if_pos none, none]
    refine iff_of_true ⟨?_, by simp⟩ fun ratio _ => by simp
    cases consensusRatio params s entity type <;> simp [roundedShare]
  · rw [if_neg none]
    cases found : consensusRatio params s entity type with
    | none => simp
    | some ratio =>
        have exact_iff := consensusShare_eq_iff counts none ratio
        have bound := roundedShare_le counts.admins_nonneg
          (Int.ofNat_le.mpr (ratios.consensusRatio found))
        simp only [Option.elim_some, Option.some.injEq, forall_eq']
        rw [exact_iff, and_iff_left_iff_imp]
        intro fits
        rw [exact_iff.mpr fits]
        exact max_le_max (le_refl 1) bound

end Consensus

section Diversity

variable {params : NetworkParams} {s : Permissions}

theorem diversityOf_eq (params : NetworkParams) (minerCount : Int) :
    diversityOf params minerCount = min (max (rawDiversity params minerCount + 1) 1) minerCount :=
  rfl

/-- The share of the miners as computed, for a product with the ratio that fits and for one
that does not. -/
theorem rawDiversity_cases (ratios : RatiosInRange params) {minerCount : Int}
    (positive : 0 < minerCount) :
    (minerCount * params.miningDiversity ≤ 2 ^ 31 ∧
      rawDiversity params minerCount =
        max 1 (roundedShare minerCount params.miningDiversity) - 1) ∨
    (2 ^ 31 < minerCount * params.miningDiversity ∧
      rawDiversity params minerCount + 1 < roundedShare minerCount params.miningDiversity ∧
      1 < roundedShare minerCount params.miningDiversity) := by
  obtain ⟨-, -, -, -, -, -, nonneg, bound⟩ := ratios
  have whole : wrapInt32 params.miningDiversity = params.miningDiversity := by
    rw [wrapInt32, Int.bmod_eq_of_le] <;> omega
  unfold rawDiversity roundedShare mcPrmDecimalGranularity
  rw [whole]
  by_cases none : params.miningDiversity = 0
  · simp [none]
  · have some : 0 < params.miningDiversity := by omega
    have product : 0 < minerCount * params.miningDiversity := Int.mul_pos positive some
    simp only [some, if_true]
    generalize minerCount * params.miningDiversity = share at product ⊢
    have wrapped : wrapInt32 (share - 1) = share - 1 - 2 ^ 32 * (share - 1).bdiv (2 ^ 32) :=
      Int.bmod_eq_self_sub_mul_bdiv (share - 1) (2 ^ 32)
    have low : -2 ^ 31 ≤ wrapInt32 (share - 1) := Int.le_bmod (by decide)
    have high : wrapInt32 (share - 1) < 2 ^ 31 := Int.bmod_lt (by decide)
    generalize (share - 1).bdiv (2 ^ 32) = rounds at wrapped
    generalize wrapInt32 (share - 1) = word at wrapped low high ⊢
    by_cases negative : word < 0
    · have small : 0 ≤ (-word).tdiv 1000000 := Int.tdiv_nonneg (by omega) (by decide)
      rw [Int.neg_tdiv] at small
      right
      push_cast
      omega
    · have quotient : word.tdiv 1000000 = word / 1000000 :=
        Int.tdiv_eq_ediv_of_nonneg (by omega)
      push_cast
      rw [quotient]
      omega

theorem diversity_exact_iff (ratios : RatiosInRange params) {minerCount : Int}
    (positive : 0 < minerCount) :
    (diversityOf params minerCount = max 1 (roundedShare minerCount params.miningDiversity) ∧
      1 ≤ diversityOf params minerCount ∧ diversityOf params minerCount ≤ minerCount) ↔
    minerCount * params.miningDiversity ≤ 2 ^ 31 := by
  have bound := roundedShare_le positive.le ratios.diversity
  rw [diversityOf_eq]
  rcases rawDiversity_cases ratios positive with ⟨fits, raw⟩ | ⟨tooLarge, less, more⟩
  · exact iff_of_true (by omega) fits
  · exact iff_of_false (by omega) (by omega)

/-- The number of active miners leaves out the rounded share if the product with the ratio
fits. -/
theorem active_exact (counts : CountsInRange params s) (ratios : RatiosInRange params)
    (positive : 0 < s.minerCount) (mining : isSetupPeriod params s = false)
    (fits : s.minerCount * params.miningDiversity ≤ 2 ^ 31) :
    getActiveMinerCount params s =
        s.minerCount - (max 1 (roundedShare s.minerCount params.miningDiversity) - 1) ∧
      1 ≤ getActiveMinerCount params s ∧ getActiveMinerCount params s ≤ s.minerCount := by
  have bound := roundedShare_le positive.le ratios.diversity
  have short := counts.miners
  have raw : rawDiversity params s.minerCount =
      max 1 (roundedShare s.minerCount params.miningDiversity) - 1 := by
    rcases rawDiversity_cases ratios positive with ⟨-, raw⟩ | ⟨tooLarge, -, -⟩
    · exact raw
    · omega
  have whole : wrapInt32 (s.minerCount - (rawDiversity params s.minerCount + 1 - 1)) =
      s.minerCount - rawDiversity params s.minerCount := by
    rw [wrapInt32, Int.bmod_eq_of_le] <;> omega
  unfold getActiveMinerCount
  simp only [mining, Bool.false_eq_true, if_false, whole]
  split_ifs <;> omega

end Diversity

section Thresholds

variable {params : NetworkParams} {s : Permissions}

/-- The thresholds are exact as long as the products of the counts and the ratios fit the words
that they are computed in: 32 bits without a sign for the admins, and an `int` for the miners.
A product of just 2 ^ 32 or 2 ^ 31 overflows as well, but gives the same threshold. -/
theorem exactThresholds_iff (counts : CountsInRange params s) (ratios : RatiosInRange params) :
    ExactThresholds params s ↔
      (∀ entity type ratio, consensusRatio params s entity type = some ratio →
        getAdminCount params s * ratio ≤ 2 ^ 32) ∧
      s.minerCount * params.miningDiversity ≤ 2 ^ 31 := by
  constructor
  · intro exact
    constructor
    · intro entity type
      exact (consensus_exact_iff counts ratios entity type).mp (exact.consensus entity type)
    · rcases counts.miners_nonneg.eq_or_lt with none | positive
      · rw [← none]
        simp
      · exact (diversity_exact_iff ratios positive).mp (exact.diversity positive)
  · rintro ⟨adminsFit, minersFit⟩
    exact
      { consensus := fun entity type =>
          (consensus_exact_iff counts ratios entity type).mpr (adminsFit entity type)
        diversity := fun positive => (diversity_exact_iff ratios positive).mpr minersFit
        active := fun positive mining => active_exact counts ratios positive mining minersFit }

/-- The parameters of a chain where all admins have to agree. -/
def allAdmins : NetworkParams where
  anyoneCanAdmin := false
  anyoneCanActivate := false
  anyoneCanMine := false
  setupFirstBlocks := 0
  adminConsensusAdmin := 1000000
  adminConsensusMine := 1000000
  adminConsensusActivate := 1000000
  adminConsensusIssue := 0
  adminConsensusCreate := 0
  adminConsensusUpgrade := 1000000
  supportMinerPrecheck := false

/-- A store with many admins and miners. -/
def crowdedStore (count : Int) : Permissions :=
  { initial with adminCount := count, minerCount := count }

theorem ratiosInRange_allAdmins : RatiosInRange allAdmins := by
  constructor <;> decide

theorem exactThresholds_iff_crowdedStore :
    ExactThresholds allAdmins (crowdedStore 4294) ↔
      (∀ entity type ratio, consensusRatio allAdmins (crowdedStore 4294) entity type = some ratio →
        getAdminCount allAdmins (crowdedStore 4294) * ratio ≤ 2 ^ 32) ∧
      (crowdedStore 4294).minerCount * allAdmins.miningDiversity ≤ 2 ^ 31 :=
  exactThresholds_iff ⟨by decide, by decide, by decide, by decide⟩ ratiosInRange_allAdmins

/-- With one admin more, one of 4295 is enough where all have to agree. -/
theorem crowdedStore_not_exactThresholds :
    adminConsensus allAdmins (crowdedStore 4295) .null mcPtpAdmin = 1 ∧
      ¬ ExactThresholds allAdmins (crowdedStore 4295) := by
  constructor
  · rfl
  · intro exact
    have consensus := (exact.consensus .null mcPtpAdmin).1
    revert consensus
    decide

end Thresholds

end Permissions

end HdacNode
