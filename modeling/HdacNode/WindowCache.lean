import HdacNode.BlockWindow

/-!
# The cached window size

A size that is kept is coherent if it is the one that would be computed from the active
chain.  The functions that ask for it keep it so, apart from `GetBlockWindowSize` where
the second version of the window is in force.
-/

namespace HdacNode

open FailingActions

/-- How the computation of a size ends: the size is kept, only given back, or the
computation stops. -/
inductive ComputedSize where
  | kept (wz : Int)
  | passedOn (wz : Int)
  | stopped
  deriving DecidableEq, Repr

namespace ComputedSize

/-- The computation with its effect on the cache. -/
def run : ComputedSize → WindowM Int
  | kept wz => fun _ => .ok wz ⟨false, wz, wz⟩
  | passedOn wz => pure wz
  | stopped => throw .assertion

/-- The computed size. -/
def size : ComputedSize → Option Int
  | kept wz => some wz
  | passedOn wz => some wz
  | stopped => none

theorem answer_run (computed : ComputedSize) (cache : WindowCache) :
    answer (computed.run cache) = computed.size := by
  cases computed with
  | kept wz => rfl
  | passedOn wz => rfl
  | stopped => rfl

end ComputedSize

/-- An action gives back the kept size, or computes one if the cache was touched. -/
def AsksCache (act : WindowM Int) (computed : ComputedSize) : Prop :=
  ∀ cache : WindowCache, act cache =
    if cache.touched then computed.run cache else .ok cache.lastSize cache

namespace WindowChain

variable {chain : WindowChain}

theorem getBlockWindowSize_asksCache {tip : ActiveBlock} (hasTip : chain.tip = some tip) :
    AsksCache chain.getBlockWindowSize (.kept (chain.blockWindowSize tip)) := by
  intro cache
  unfold getBlockWindowSize
  rw [bind_apply, hasTip]
  change (if (!cache.touched) = true then pure cache.lastSize
    else storeSize (chain.blockWindowSize tip) : WindowM Int) cache = _
  cases cache.touched with
  | true => rfl
  | false => rfl

theorem computeWindowSize_eq_run (chain : WindowChain) (nDepth : Nat) :
    ∃ computed : ComputedSize, chain.computeWindowSize nDepth = computed.run := by
  unfold computeWindowSize
  cases chain.tip with
  | none => exact ⟨.stopped, rfl⟩
  | some tip =>
      dsimp only
      split
      · exact ⟨.stopped, rfl⟩
      · cases chain.getAncestor (tip.nHeight - nDepth) with
        | none => exact ⟨.stopped, rfl⟩
        | some ref =>
            dsimp only
            split
            · exact ⟨.passedOn _, rfl⟩
            · split
              · cases chain.getAncestor (tip.nHeight - (nDepth / 2 : Nat)) with
                | none => exact ⟨.stopped, rfl⟩
                | some refNext => exact ⟨.kept _, rfl⟩
              · exact ⟨.kept _, rfl⟩

theorem asksCache_of_computes {nDepth : Nat} {computed : ComputedSize}
    (isComputed : chain.computeWindowSize nDepth = computed.run) :
    AsksCache (chain.calculateWindowSize nDepth) computed := by
  intro cache
  unfold calculateWindowSize
  rw [bind_apply, isComputed]
  change (if (!cache.touched) = true then pure cache.lastSize else computed.run : WindowM Int)
    cache = _
  cases cache.touched with
  | true => rfl
  | false => rfl

theorem calculateWindowSize_asksCache (chain : WindowChain) (nDepth : Nat) :
    ∃ computed, AsksCache (chain.calculateWindowSize nDepth) computed := by
  obtain ⟨computed, isComputed⟩ := computeWindowSize_eq_run chain nDepth
  exact ⟨computed, asksCache_of_computes isComputed⟩

/-- At a tip the called function asks the cache. -/
theorem calledWindowSize_asksCache {tip : ActiveBlock} (hasTip : chain.tip = some tip) :
    ∃ computed, AsksCache chain.calledWindowSize computed := by
  unfold calledWindowSize
  rw [hasTip]
  dsimp only
  split
  · exact calculateWindowSize_asksCache chain defaultWindowDepth
  · exact ⟨_, getBlockWindowSize_asksCache hasTip⟩

/-- The size that the called function computes from the active chain. -/
def freshSize (chain : WindowChain) : Option Int :=
  answer (chain.calledWindowSize .initial)

/-- A size that is kept for a tip is the one of the active chain. -/
def Coherent (chain : WindowChain) (cache : WindowCache) : Prop :=
  cache.touched = false → chain.tip ≠ none → chain.freshSize = some cache.lastSize

theorem freshSize_eq {computed : ComputedSize} (asks : AsksCache chain.calledWindowSize computed) :
    chain.freshSize = computed.size := by
  unfold freshSize
  rw [asks]
  exact computed.answer_run _

/-- What an action does to the cache keeps a coherent size coherent. -/
def KeepsCoherent (chain : WindowChain) (before after : WindowCache) : Prop :=
  chain.Coherent before → chain.Coherent after

instance (chain : WindowChain) : IsPreorder WindowCache chain.KeepsCoherent where
  refl _ := id
  trans _ _ _ first second := second ∘ first

/-- A function that asks the cache for the size of the chain keeps it coherent. -/
theorem keepsCoherent_of_asksCache {act : WindowM Int} {computed : ComputedSize}
    (asks : AsksCache act computed) (fresh : chain.tip ≠ none → chain.freshSize = computed.size) :
    Moves chain.KeepsCoherent act := by
  intro cache coherent
  rw [asks]
  split
  · cases computed with
    | kept wz => exact fun _ hasTip => fresh hasTip
    | passedOn wz => exact coherent
    | stopped => exact coherent
  · exact coherent

theorem calledWindowSize_keepsCoherent (chain : WindowChain) :
    Moves chain.KeepsCoherent chain.calledWindowSize := by
  cases hasTip : chain.tip with
  | none =>
      unfold calledWindowSize
      rw [hasTip]
      exact moves_throw _
  | some tip =>
      obtain ⟨computed, asks⟩ := calledWindowSize_asksCache hasTip
      exact keepsCoherent_of_asksCache asks fun _ => freshSize_eq asks

theorem answer_calledWindowSize {cache : WindowCache} (coherent : chain.Coherent cache) :
    answer (chain.calledWindowSize cache) = chain.freshSize := by
  cases hasTip : chain.tip with
  | none =>
      unfold freshSize calledWindowSize
      rw [hasTip]
      rfl
  | some tip =>
      obtain ⟨computed, asks⟩ := calledWindowSize_asksCache hasTip
      rw [asks]
      split
      · rw [freshSize_eq asks]
        exact computed.answer_run cache
      · rename_i clean
        rw [coherent (Bool.eq_false_iff.mpr clean) (by simp [hasTip])]
        rfl

/-- Without the second version `GetBlockWindowSize` is the called function. -/
theorem getBlockWindowSize_keepsCoherent
    (firstVersion : ∀ tip, chain.tip = some tip → chain.isEnabledEpowV2 tip.nHeight = false) :
    Moves chain.KeepsCoherent chain.getBlockWindowSize := by
  cases hasTip : chain.tip with
  | none =>
      intro cache coherent _ isSome
      exact absurd hasTip isSome
  | some tip =>
      have asks := getBlockWindowSize_asksCache hasTip
      refine keepsCoherent_of_asksCache asks fun _ => freshSize_eq ?_
      unfold calledWindowSize
      rw [hasTip]
      dsimp only
      rw [firstVersion tip hasTip]
      exact asks

/-- The answer of `CheckBlockWindow` to a chain and a miner. -/
def windowVerdict (chain : WindowChain) (strMiner : List Char) : Option Bool :=
  chain.freshSize.map (outsideWindow (chain.getMiningDepth strMiner))

theorem answer_checkBlockWindow {cache : WindowCache} (coherent : chain.Coherent cache)
    (strMiner : List Char) :
    answer (chain.checkBlockWindow strMiner cache) = chain.windowVerdict strMiner := by
  unfold checkBlockWindow windowVerdict
  rw [← answer_calledWindowSize coherent, bind_apply]
  cases chain.calledWindowSize cache with
  | ok wz after => rfl
  | error stop after => rfl

theorem checkBlockWindow_keepsCoherent (chain : WindowChain) (strMiner : List Char) :
    Moves chain.KeepsCoherent (chain.checkBlockWindow strMiner) :=
  .bind (calledWindowSize_keepsCoherent chain) fun _ => moves_pure _

theorem isMiningBlackout_keepsCoherent
    (firstVersion : ∀ tip, chain.tip = some tip → chain.isEnabledEpowV2 tip.nHeight = false)
    (now : Int) : Moves chain.KeepsCoherent (chain.isMiningBlackout now) := by
  unfold isMiningBlackout
  cases chain.tip with
  | none => exact moves_pure _
  | some tip =>
      exact .ite (.bind (getBlockWindowSize_keepsCoherent firstVersion) fun _ => moves_pure _)
        (moves_pure _)

theorem verifyWindowWithEpow_keepsCoherent (chain : WindowChain)
    (now blkDifftime termTime : Int) (strAddr : List Char) (nfNew myTime count : Int) :
    Moves chain.KeepsCoherent
      (chain.verifyWindowWithEpow now blkDifftime termTime strAddr nfNew myTime count) := by
  have checks := checkBlockWindow_keepsCoherent chain strAddr
  unfold verifyWindowWithEpow
  cases chain.tip with
  | none => exact moves_pure _
  | some tip =>
      refine .ite (.ite (moves_pure _) (.ite (moves_pure _) (.ite checks (moves_pure _)))) ?_
      exact .ite (moves_pure _) (.ite (.ite (moves_pure _) checks) checks)

theorem verifyBlockWindow_keepsCoherent (chain : WindowChain) (fromPeer : Bool) (now : Int)
    (block : BlockFacts) :
    Moves chain.KeepsCoherent (chain.verifyBlockWindow fromPeer now block) := by
  unfold verifyBlockWindow
  refine .ite (moves_pure _) (.ite (moves_pure _) ?_)
  cases hasTip : chain.tip with
  | none => exact moves_pure _
  | some tip =>
      dsimp only
      cases version : chain.isEnabledEpowV2 tip.nHeight with
      | true =>
          rw [if_pos rfl]
          cases chain.getAncestor (tip.nHeight - miningMarginRate) with
          | none => exact moves_throw _
          | some ref =>
              exact verifyWindowWithEpow_keepsCoherent chain _ _ _ _ _ _ _
      | false =>
          rw [if_neg (by decide)]
          have firstVersion : ∀ other, chain.tip = some other →
              chain.isEnabledEpowV2 other.nHeight = false := by
            intro other isTip
            rw [hasTip] at isTip
            cases isTip
            exact version
          refine .bind (isMiningBlackout_keepsCoherent firstVersion now) fun _ => ?_
          exact .ite (moves_pure _) (checkBlockWindow_keepsCoherent chain _)

/-- `CheckePoWRule` comes to `GetBlockWindowSize` while `CheckBlockWindow` asks
`CalculateWindowSize`. -/
def MixesSizes (chain : WindowChain) (initialDownload : Bool) (now : Int)
    (strMiner : List Char) (cache : WindowCache) : Prop :=
  initialDownload = false ∧
    cache.currentSize < chain.getMiningContinuity strMiner maxMiningDepthOfBlockWindow ∧
      ∃ tip, chain.tip = some tip ∧ chain.isEnabledEpowV2 tip.nHeight = true ∧
        chain.params.targetBlockTime * hdacTargetBlockTimeMultiple < now - tip.blockTime

theorem checkePoWRule_keepsCoherent {initialDownload : Bool} {now : Int}
    {strMiner : List Char} {cache : WindowCache}
    (keepsApart : ¬ chain.MixesSizes initialDownload now strMiner cache)
    (coherent : chain.Coherent cache) :
    chain.Coherent (stateAfter (chain.checkePoWRule initialDownload now strMiner cache)) := by
  unfold checkePoWRule
  rw [bind_apply]
  change chain.Coherent (stateAfter ((if initialDownload = true then pure true else
    if cache.currentSize < chain.getMiningContinuity strMiner maxMiningDepthOfBlockWindow then
      chain.isMiningBlackout now >>= fun blackout => pure (!blackout) else pure true :
      WindowM Bool) cache))
  split
  · exact coherent
  · rename_i later
    split
    · rename_i continues
      suffices keeps : Moves chain.KeepsCoherent (chain.isMiningBlackout now) from
        keeps.bind (fun _ => moves_pure _) cache coherent
      by_cases version : ∀ tip, chain.tip = some tip → chain.isEnabledEpowV2 tip.nHeight = false
      · exact isMiningBlackout_keepsCoherent version now
      · push Not at version
        obtain ⟨tip, hasTip, secondVersion⟩ := version
        have early : ¬ chain.params.targetBlockTime * hdacTargetBlockTimeMultiple <
            now - tip.blockTime := fun late => keepsApart ⟨Bool.eq_false_iff.mpr later, continues,
          tip, hasTip, Bool.eq_true_of_not_eq_false secondVersion, late⟩
        unfold isMiningBlackout
        rw [hasTip]
        dsimp only
        rw [if_neg early]
        exact moves_pure _
    · exact coherent

end WindowChain

end HdacNode
