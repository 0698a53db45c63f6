import HdacNode.CompactTarget

/-!
# The order of compact targets

A compact form keeps the highest bits of a target.  A larger target has no smaller compact form,
a target that was read from a compact form is kept, and above every target there is one with a
compact form that is hardly larger.
-/

namespace HdacNode

section Shift

theorem compactShift_mono {n m : Nat} (le : n ≤ m) : compactShift n ≤ compactShift m := by
  have sizes := Nat.size_le_size le
  rw [compactShift, compactShift]
  omega

/-- At least fifteen bits are kept. -/
theorem two_pow_compactShift_le {n : Nat} (long : compactShift n ≠ 0) :
    2 ^ (compactShift n + 15) ≤ n := by
  rw [← Nat.lt_size]
  rw [compactShift] at long ⊢
  omega

/-- At most twenty-three bits are kept. -/
theorem lt_two_pow_compactShift (n : Nat) : n < 2 ^ (compactShift n + 23) := by
  rw [← Nat.size_le, compactShift]
  omega

/-- A target of few bits leaves out few bits. -/
theorem compactShift_le {n places : Nat} (below : n < 2 ^ (8 * places + 23)) :
    compactShift n ≤ 8 * places := by
  have bits := Nat.size_le.mpr below
  rw [compactShift]
  omega

end Shift

section Value

theorem compactValue_le (n : Nat) : compactValue n ≤ n := Nat.div_mul_le_self _ _

theorem compactValue_eq_iff {n : Nat} : compactValue n = n ↔ 2 ^ compactShift n ∣ n := by
  rw [compactValue]
  constructor
  · intro same
    exact Dvd.intro_left _ same
  · exact Nat.div_mul_cancel

theorem le_two_mul_compactValue (n : Nat) : n ≤ 2 * compactValue n := by
  by_cases long : compactShift n = 0
  · rw [compactValue, long]
    omega
  · have bound := two_pow_compactShift_le long
    have unit : 2 ^ compactShift n ≤ n :=
      le_trans (Nat.pow_le_pow_right (by omega) (by omega)) bound
    have whole : 2 ^ compactShift n ≤ compactValue n :=
      Nat.le_mul_of_pos_left _ (Nat.div_pos unit (by positivity))
    have rest := Nat.mod_lt n (Nat.two_pow_pos (compactShift n))
    have split := Nat.div_add_mod' n (2 ^ compactShift n)
    rw [← compactValue] at split
    omega

/-- A larger target has no smaller compact form. -/
theorem compactValue_mono {n m : Nat} (le : n ≤ m) : compactValue n ≤ compactValue m := by
  rcases Nat.eq_or_lt_of_le (compactShift_mono le) with same | longer
  · rw [compactValue, compactValue, same]
    exact Nat.mul_le_mul_right _ (Nat.div_le_div_right le)
  · -- the highest bit of the larger target is kept, and the smaller target is below it
    have kept : 2 ^ (compactShift m + 15) ≤ compactValue m := by
      rw [compactValue, Nat.add_comm, Nat.pow_add]
      apply Nat.mul_le_mul_right
      rw [Nat.le_div_iff_mul_le (by positivity), ← Nat.pow_add, Nat.add_comm]
      exact two_pow_compactShift_le (by omega)
    have below : n < 2 ^ (compactShift m + 15) := by
      rw [← Nat.size_le]
      rw [compactShift, compactShift] at longer
      rw [compactShift]
      omega
    exact le_trans (compactValue_le n) (le_trans below.le kept)

/-- A target that `SetCompact` read is kept by `GetCompact`. -/
theorem compactValue_target (compact : UInt32) :
    compactValue (setCompact compact).target.toNat = (setCompact compact).target.toNat := by
  rw [compactValue_eq_iff]
  have word : compact.toNat &&& 0x007fffff < 2 ^ 23 := Nat.and_lt_two_pow _ (by decide)
  by_cases short : compact.toNat >>> 24 ≤ 3
  · have value : (setCompact compact).target =
        .ofNat 256 ((compact.toNat &&& 0x007fffff) >>> (8 * (3 - compact.toNat >>> 24))) := by
      simp only [setCompact, if_pos short]
    have below : (setCompact compact).target.toNat < 2 ^ (8 * 0 + 23) := by
      rw [value, BitVec.toNat_ofNat]
      apply lt_of_le_of_lt (Nat.mod_le _ _)
      rw [Nat.shiftRight_eq_div_pow]
      exact lt_of_le_of_lt (Nat.div_le_self _ _) word
    have bits := compactShift_le below
    have none : compactShift (setCompact compact).target.toNat = 0 := by omega
    rw [none]
    exact Nat.one_dvd _
  · have value : (setCompact compact).target.toNat =
        (compact.toNat &&& 0x007fffff) * 2 ^ (8 * (compact.toNat >>> 24 - 3)) % 2 ^ 256 := by
      have fits : (compact.toNat &&& 0x007fffff) % 2 ^ 256 = compact.toNat &&& 0x007fffff :=
        Nat.mod_eq_of_lt (by omega)
      simp only [setCompact, if_neg short]
      rw [BitVec.toNat_shiftLeft, BitVec.toNat_ofNat, fits, Nat.shiftLeft_eq]
    generalize compact.toNat >>> 24 - 3 = places at value
    generalize compact.toNat &&& 0x007fffff = mantissa at word value
    have below : (setCompact compact).target.toNat < 2 ^ (8 * places + 23) := by
      rw [value, Nat.add_comm, Nat.pow_add]
      exact lt_of_le_of_lt (Nat.mod_le _ _) (Nat.mul_lt_mul_of_pos_right word (by positivity))
    apply dvd_trans (Nat.pow_dvd_pow 2 (compactShift_le below))
    rw [value]
    by_cases inside : 8 * places ≤ 256
    · exact (Nat.dvd_mod_iff (Nat.pow_dvd_pow 2 inside)).mpr (Nat.dvd_mul_left _ _)
    · have outside : 2 ^ 256 ∣ mantissa * 2 ^ (8 * places) :=
        Dvd.dvd.mul_left (Nat.pow_dvd_pow 2 (by omega)) _
      rw [Nat.mod_eq_zero_of_dvd outside]
      exact Nat.dvd_zero _

theorem exists_compactValue_above (n : Nat) :
    ∃ above, n ≤ above ∧ above < n + 2 ^ compactShift n ∧ compactValue above = above ∧
      ∀ top, compactValue top = top → n ≤ top → above ≤ top := by
  have unit : 0 < 2 ^ compactShift n := by positivity
  refine ⟨(n + (2 ^ compactShift n - 1)) / 2 ^ compactShift n * 2 ^ compactShift n, ?_, ?_, ?_, ?_⟩
  · have rest := Nat.mod_lt (n + (2 ^ compactShift n - 1)) unit
    have split := Nat.div_add_mod' (n + (2 ^ compactShift n - 1)) (2 ^ compactShift n)
    omega
  · have part := Nat.div_mul_le_self (n + (2 ^ compactShift n - 1)) (2 ^ compactShift n)
    omega
  · have below := lt_two_pow_compactShift n
    have count : (n + (2 ^ compactShift n - 1)) / 2 ^ compactShift n ≤ 2 ^ 23 := by
      rw [Nat.add_comm, Nat.pow_add] at below
      rw [← Nat.lt_succ_iff, Nat.div_lt_iff_lt_mul unit, Nat.succ_mul]
      omega
    rw [compactValue_eq_iff]
    have eight : 8 * (compactShift n / 8) = compactShift n := by
      rw [compactShift]
      omega
    generalize (n + (2 ^ compactShift n - 1)) / 2 ^ compactShift n = kept at count
    rcases Nat.eq_or_lt_of_le count with full | less
    · rw [full, ← Nat.pow_add]
      apply Nat.pow_dvd_pow
      have bits : compactShift (2 ^ (23 + compactShift n)) ≤ 8 * (compactShift n / 8 + 1) :=
        compactShift_le (Nat.pow_lt_pow_right (by omega) (by omega))
      omega
    · have short : compactShift (kept * 2 ^ compactShift n) ≤ 8 * (compactShift n / 8) := by
        apply compactShift_le
        rw [eight, Nat.add_comm, Nat.pow_add]
        exact Nat.mul_lt_mul_of_pos_right less unit
      rw [eight] at short
      exact dvd_trans (Nat.pow_dvd_pow 2 short) (Nat.dvd_mul_left _ _)
  · intro top kept le
    have dvd : 2 ^ compactShift n ∣ top :=
      dvd_trans (Nat.pow_dvd_pow 2 (compactShift_mono le)) (compactValue_eq_iff.mp kept)
    obtain ⟨count, rfl⟩ := dvd
    rw [Nat.mul_comm (2 ^ compactShift n) count] at le ⊢
    apply Nat.mul_le_mul_right
    rw [← Nat.lt_succ_iff, Nat.div_lt_iff_lt_mul unit, Nat.succ_mul]
    omega

end Value

theorem compactValue_eq_of_getCompact {n m : Uint256} (same : getCompact n = getCompact m) :
    compactValue n.toNat = compactValue m.toNat := by
  obtain ⟨compact, given, _, _, value⟩ := getCompact_value n
  obtain ⟨compact', given', _, _, value'⟩ := getCompact_value m
  cases given.symm.trans (same.trans given')
  exact value.symm.trans value'

/-- `GetCompact` keeps the order of targets. -/
theorem getCompact_mono {n m : Uint256} (le : n ≤ m) {nBits nBits' : UInt32}
    (given : getCompact n = .ok nBits) (given' : getCompact m = .ok nBits') :
    (setCompact nBits).target ≤ (setCompact nBits').target := by
  obtain ⟨compact, same, _, _, value⟩ := getCompact_value n
  obtain ⟨compact', same', _, _, value'⟩ := getCompact_value m
  cases same.symm.trans given
  cases same'.symm.trans given'
  rw [BitVec.le_def, value, value']
  exact compactValue_mono (BitVec.le_def.mp le)

end HdacNode
