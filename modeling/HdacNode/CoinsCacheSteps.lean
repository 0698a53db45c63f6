import HdacNode.CoinsCacheFits

/-!
# What is called on caches of coins

A modifier may be opened when none is, an edit goes through the open modifier of its
coins, and a cache is flushed when neither it nor the view below has an open modifier.
Coins are edited while no cache above holds an entry for them, and a cache is flushed
while all entries of the cache above it are FRESH.  So called, no assertion fails, the
caches stay consistent, and the coins change as the plain overlay of the edits does.
-/

namespace HdacNode

open CoinsStack

namespace CoinsAction

/-- A modification that does not look at what pruned coins leave behind. -/
def IgnoresPruned (change : CCoins → CCoins) : Prop :=
  ∀ pruned : CCoins, pruned.isPruned → (change pruned).equal (change .clear)

/-- An edit of pruned coins takes them as clear ones. -/
def Tolerates : CoinsAction → (Hash → CCoins) → Prop
  | edit txid change, coins => (coins txid).isPruned → IgnoresPruned change
  | _, _ => True

/-- What an action asks of the view that it is called on. -/
def AllowedOn : CoinsAction → CoinsStack → Prop
  | getCoins _, _ | haveCoins _, _ | getBestBlock, _ => True
  | setBestBlock _, cache _ _ => True
  | modifyCoins _, cache top _ => top.modifier = none
  | edit txid _, cache top _ => top.modifier = some txid
  | closeModifier, cache top _ => top.modifier.isSome
  | flush order, cache top base =>
    top.modifier = none ∧ base.Unmodified ∧ top.cacheCoins.Enumerates order
  | _, db _ => False

/-- What an action asks of a cache that is above the view it is called on, with a
number of caches between them. -/
def AllowedUnder : CoinsAction → Nat → CCoinsViewCache → Prop
  | edit txid _, _, top => top.cacheCoins txid = none
  | flush _, 0, top => ∀ txid entry, top.cacheCoins txid = some entry → entry.fresh = true
  | _, _, _ => True

/-- What an action on the view under a number of caches asks. -/
def AllowedAt (action : CoinsAction) : Nat → CoinsStack → Prop
  | 0, stack => action.AllowedOn stack
  | depth + 1, cache top base => action.AllowedUnder depth top ∧ action.AllowedAt depth base
  | _ + 1, db _ => False

/-- What an action on the view under a number of caches does. -/
structure StepFits (action : CoinsAction) (depth : Nat) (stack next : CoinsStack) : Prop where
  consistent : next.Consistent
  view : ∀ txid, next.view txid = (action.overlay stack.view txid).settle
  held : ∀ txid, stack.Holds txid →
    next.Holds txid ∨ (stack.view txid).isPruned ∨ depth = 0 ∧ ∃ order, action = flush order
  unpruned : stack.Unpruned → next.Unpruned

/-- The actions that leave the coins as they are. -/
def Edits : CoinsAction → Prop
  | edit _ _ => True
  | _ => False

theorem overlay_of_not_edits {action : CoinsAction} (noEdit : ¬action.Edits)
    (coins : Hash → CCoins) : action.overlay coins = coins := by
  cases action with
  | edit txid change => exact absurd trivial noEdit
  | _ => rfl

theorem StepFits.of_keeps {action : CoinsAction} {depth : Nat} {stack next : CoinsStack}
    (noEdit : ¬action.Edits) (kept : Keeps stack next) : StepFits action depth stack next where
  consistent := kept.consistent
  view := by
    intro txid
    rw [overlay_of_not_edits noEdit, settle_view, kept.view]
  held := fun txid held => Or.inl (kept.held txid held)
  unpruned := kept.unpruned

end CoinsAction

namespace CoinsStack

/-! ## Modifiers -/

/-- A modifier can be opened for an entry that is DIRTY. -/
theorem Keeps.openModifier {top : CCoinsViewCache} {base : CoinsStack} {txid : Hash}
    {entry : CCoinsCacheEntry} (consistent : (cache top base).Consistent)
    (present : top.cacheCoins txid = some entry) (dirty : entry.dirty = true) :
    Keeps (cache top base)
      (cache { top with hasModifier := true, modifier := some txid } base) where
  consistent := by
    refine ⟨⟨consistent.1.entries, rfl, ?_⟩, consistent.2⟩
    intro other opened
    cases opened
    exact ⟨entry, present, dirty⟩
  view := fun _ => view_congr rfl fun _ => rfl
  held := fun _ held => held
  unpruned := fun unpruned => unpruned

theorem Keeps.trans {first second third : CoinsStack} (before : Keeps first second)
    (behind : Keeps second third) : Keeps first third where
  consistent := behind.consistent
  view := fun txid => (behind.view txid).trans (before.view txid)
  held := fun txid held => behind.held txid (before.held txid held)
  unpruned := fun unpruned => behind.unpruned (before.unpruned unpruned)

/-- `ModifyCoins` puts an entry into the cache that is DIRTY, with the coins that the
cache answers with. -/
theorem keeps_insertEntry {top : CCoinsViewCache} {base : CoinsStack}
    (consistent : (cache top base).Consistent) (txid : Hash) :
    ∃ entry base', insertEntry top base txid = (top.setEntry txid entry, base') ∧
      entry.dirty = true ∧ Keeps (cache top base) (cache (top.setEntry txid entry) base') := by
  obtain ⟨fits, baseConsistent⟩ := consistent
  unfold insertEntry
  cases entryCase : top.cacheCoins txid with
  | some entry =>
      refine ⟨_, _, rfl, rfl, ?_⟩
      have entryFits := fits.entries txid entry entryCase
      exact Keeps.setEntry fits (Keeps.refl baseConsistent)
        ⟨entryFits.fresh, by rintro ⟨⟩, entryFits.held⟩ (view_of_entry entryCase base).symm
        fun _ => rfl
  | none =>
      obtain ⟨keeps, answer, held⟩ := fetches baseConsistent txid
      have missView := view_of_noEntry entryCase base
      generalize below : base.getCoins txid = result at keeps answer held
      obtain ⟨found, base'⟩ := result
      cases found with
      | none =>
          refine ⟨_, _, rfl, rfl, Keeps.setEntry fits keeps ⟨?_, by rintro ⟨⟩, by rintro ⟨⟩⟩
            (answer.trans missView.symm) fun _ => rfl⟩
          -- the view below answers with no coins
          rw [keeps.view, ← answer, CCoins.isPruned_settle]
          rfl
      | some coins =>
          exact ⟨_, _, rfl, rfl, Keeps.setEntry fits keeps
            (entryFits_found true keeps answer (held coins rfl)) (answer.trans missView.symm)
            fun _ => rfl⟩

theorem modifyCoins_keeps {top : CCoinsViewCache} {base : CoinsStack}
    (consistent : (cache top base).Consistent) (unmodified : top.modifier = none)
    (txid : Hash) :
    ∃ next, modifyCoins top base txid = some next ∧ Keeps (cache top base) next := by
  have noModifier := consistent.1.hasModifier_eq_false unmodified
  obtain ⟨entry, base', inserted, dirty, kept⟩ := keeps_insertEntry consistent txid
  unfold modifyCoins
  rw [noModifier, inserted]
  have opened : (top.setEntry txid entry).openModifier txid =
      some { top.setEntry txid entry with hasModifier := true, modifier := some txid } := by
    unfold CCoinsViewCache.openModifier
    rw [if_neg]
    change ¬top.hasModifier = true
    rw [noModifier]
    simp
  refine ⟨_, ?_, kept.trans
    (Keeps.openModifier kept.consistent (Function.update_self _ _ _) dirty)⟩
  simp only [Bool.false_eq_true, if_false, opened, Option.map_some]

theorem edit_fits {top : CCoinsViewCache} {base : CoinsStack} {txid : Hash}
    {change : CCoins → CCoins} (consistent : (cache top base).Consistent)
    (opened : top.modifier = some txid)
    (tolerates : (CoinsAction.edit txid change).Tolerates (cache top base).view) :
    ∃ next, top.edit txid change = some next ∧
      (CoinsAction.edit txid change).StepFits 0 (cache top base) (cache next base) := by
  obtain ⟨fits, baseConsistent⟩ := consistent
  obtain ⟨entry, present, dirty⟩ := fits.modified txid opened
  have entryFits := fits.entries txid entry present
  have before := view_of_entry present base
  have edited : top.edit txid change =
      some (top.setEntry txid { entry with coins := change entry.coins }) := by
    unfold CCoinsViewCache.edit
    rw [if_pos opened, present]
    rfl
  refine ⟨_, edited, ⟨⟨fits.setEntry ⟨entryFits.fresh, ?_, entryFits.held⟩ fun _ => dirty,
    baseConsistent⟩, ?_, ?_, fun unpruned => unpruned⟩⟩
  · intro clean
    rw [dirty] at clean
    cases clean
  · intro other
    by_cases same : other = txid
    · subst same
      change _ = (Function.update (cache top base).view other _ other).settle
      rw [Function.update_self, view_setEntry_self, before]
      change (change entry.coins).settle = (change entry.coins.settle).settle
      by_cases pruned : entry.coins.isPruned
      · have ignores : CoinsAction.IgnoresPruned change := by
          apply tolerates
          rw [before, CCoins.isPruned_settle]
          exact pruned
        rw [CCoins.settle_of_isPruned pruned]
        exact CCoins.equal_iff_settle.mp (ignores entry.coins pruned)
      · rw [CCoins.settle_of_not_isPruned pruned]
    · change _ = (Function.update (cache top base).view txid _ other).settle
      rw [Function.update_of_ne same, settle_view]
      exact view_congr (Function.update_of_ne same _ _) fun _ => rfl
  · exact fun _ held => Or.inl (held.setEntry txid _ base)

/-- The destructor of a modifier drops the entry only if the view below answers with
pruned coins already. -/
theorem closeModifier_fits {top : CCoinsViewCache} {base : CoinsStack}
    (consistent : (cache top base).Consistent) (opened : top.modifier.isSome) :
    ∃ next, top.closeModifier = some next ∧
      CoinsAction.closeModifier.StepFits 0 (cache top base) (cache next base) := by
  obtain ⟨fits, baseConsistent⟩ := consistent
  obtain ⟨txid, openedAt⟩ := Option.isSome_iff_exists.mp opened
  obtain ⟨entry, present, dirty⟩ := fits.modified txid openedAt
  have hasModifier : top.hasModifier = true := fits.hasModifier.trans opened
  have closed : Keeps (cache top base)
      (cache { top with hasModifier := false, modifier := none } base) :=
    ⟨⟨⟨fits.entries, rfl, by rintro _ ⟨⟩⟩, baseConsistent⟩, fun _ => view_congr rfl fun _ => rfl,
      fun _ held => held, fun unpruned => unpruned⟩
  unfold CCoinsViewCache.closeModifier
  simp only [openedAt, present, hasModifier, Option.bind_eq_bind, Option.bind_some, if_true]
  by_cases dropped : (entry.fresh && entry.coins.isPruned) = true
  · rw [if_pos dropped]
    rw [Bool.and_eq_true] at dropped
    have basePruned : (base.view txid).isPruned :=
      (fits.entries txid entry present).fresh.symm.trans dropped.1
    have before := view_of_entry present base
    refine ⟨_, rfl, ⟨⟨⟨?_, rfl, by rintro _ ⟨⟩⟩, baseConsistent⟩, ?_, ?_,
      fun unpruned => unpruned⟩⟩
    · intro other found stays
      change Function.update top.cacheCoins txid none other = some found at stays
      by_cases same : other = txid
      · subst same
        rw [Function.update_self] at stays
        cases stays
      · rw [Function.update_of_ne same] at stays
        exact fits.entries other found stays
    · intro other
      change _ = ((cache top base).view other).settle
      rw [settle_view]
      by_cases same : other = txid
      · subst same
        rw [view_of_noEntry (Function.update_self _ _ _), before,
          CCoins.settle_of_isPruned dropped.2, ← settle_view,
          CCoins.settle_of_isPruned basePruned]
      · exact view_congr (Function.update_of_ne same _ _) fun _ => rfl
    · intro other held
      by_cases same : other = txid
      · subst same
        right
        left
        rw [before, CCoins.isPruned_settle]
        exact dropped.2
      · left
        change (Function.update top.cacheCoins txid none other).isSome
        rw [Function.update_of_ne same]
        exact held
  · rw [if_neg dropped]
    exact ⟨_, rfl, .of_keeps (fun edits => edits) closed⟩

/-! ## Flushing -/

/-- An iteration of `BatchWrite` of a cache: the assertion holds, and the own entry
becomes one that fits and has the coins of the cache above. -/
theorem writeEntry_fits {top us : CCoinsViewCache} {base : CoinsStack}
    (fits : CacheFits top (cache us base)) (usFits : CacheFits us base) (txid : Hash) :
    ∃ written, CCoinsViewCache.writeEntry top.cacheCoins txid (us.cacheCoins txid) = some written ∧
      (∀ entry, written = some entry → EntryFits base txid entry) ∧
      ∀ next : CCoinsViewCache, next.cacheCoins txid = written →
        (cache next base).view txid = (cache top (cache us base)).view txid := by
  unfold CCoinsViewCache.writeEntry
  cases entryCase : top.cacheCoins txid with
  | none =>
      refine ⟨us.cacheCoins txid, rfl, usFits.entries txid, ?_⟩
      intro next same
      rw [view_of_noEntry entryCase]
      exact view_congr same fun _ => rfl
  | some entry =>
      have entryFits := fits.entries txid entry entryCase
      have above := view_of_entry entryCase (cache us base)
      cases dirtyCase : entry.dirty with
      | false =>
          refine ⟨us.cacheCoins txid, ?_, usFits.entries txid, ?_⟩
          · simp only [dirtyCase, Bool.false_eq_true, if_false]
          · intro next same
            rw [above, entryFits.clean dirtyCase]
            exact view_congr same fun _ => rfl
      | true =>
          simp only [dirtyCase, if_true]
          cases usCase : us.cacheCoins txid with
          | none =>
              have below := view_of_noEntry usCase base
              -- the view below would hold an entry for one that is not FRESH
              have fresh : entry.fresh = true := by
                by_contra stale
                have held := entryFits.held (Bool.eq_false_iff.mpr stale)
                change (us.cacheCoins txid).isSome at held
                rw [usCase] at held
                cases held
              have basePruned : (base.view txid).isPruned := by
                rw [← below, ← entryFits.fresh, fresh]
              by_cases pruned : entry.coins.isPruned
              · refine ⟨none, ?_, by rintro _ ⟨⟩, ?_⟩
                · simp only [pruned, if_true]
                · intro next missing
                  rw [view_of_noEntry missing, above, CCoins.settle_of_isPruned pruned,
                    ← settle_view, CCoins.settle_of_isPruned basePruned]
              · refine ⟨some ⟨entry.coins, true, true⟩, ?_, ?_, ?_⟩
                · simp only [pruned, fresh, if_true, if_false, Bool.false_eq_true]
                · rintro _ ⟨⟩
                  exact ⟨basePruned.symm, by rintro ⟨⟩, by rintro ⟨⟩⟩
                · intro next present
                  rw [view_of_entry present, above]
          | some own =>
              have ownFits := usFits.entries txid own usCase
              by_cases dropped : (own.fresh && entry.coins.isPruned) = true
              · refine ⟨none, ?_, by rintro _ ⟨⟩, ?_⟩
                · simp only [dropped, if_true]
                · intro next missing
                  rw [Bool.and_eq_true] at dropped
                  have basePruned := ownFits.fresh.symm.trans dropped.1
                  rw [view_of_noEntry missing, above, CCoins.settle_of_isPruned dropped.2,
                    ← settle_view, CCoins.settle_of_isPruned basePruned]
              · refine ⟨some { own with coins := entry.coins, dirty := true }, ?_, ?_, ?_⟩
                · simp only [dropped, if_false, Bool.false_eq_true]
                · rintro _ ⟨⟩
                  exact ⟨ownFits.fresh, by rintro ⟨⟩, ownFits.held⟩
                · intro next present
                  rw [view_of_entry present, above]

theorem writeCoins_fits {top : CCoinsViewCache} {database : CCoinsViewDB}
    (fits : CacheFits top (db database)) (txid : Hash) :
    ((CCoinsViewDB.writeCoins top.cacheCoins txid (database.coins txid)).getD .clear).settle =
      (cache top (db database)).view txid := by
  unfold CCoinsViewDB.writeCoins
  cases entryCase : top.cacheCoins txid with
  | none =>
      rw [view_of_noEntry entryCase]
      rfl
  | some entry =>
      have entryFits := fits.entries txid entry entryCase
      rw [view_of_entry entryCase]
      cases dirtyCase : entry.dirty with
      | false =>
          simp only [dirtyCase, Bool.false_eq_true, if_false]
          exact (entryFits.clean dirtyCase).symm
      | true =>
          by_cases pruned : entry.coins.isPruned
          · simp only [dirtyCase, pruned, if_true]
            rw [CCoins.settle_of_isPruned pruned]
            rfl
          · simp only [dirtyCase, pruned, if_true, if_false, Bool.false_eq_true]
            rfl

/-- `BatchWrite` of the entries of a cache leaves the view below with the coins that the
cache answers with. -/
theorem batchWrite_fits {top : CCoinsViewCache} {base : CoinsStack} {order : List Hash}
    (consistent : (cache top base).Consistent) (unmodified : base.Unmodified)
    (enumerates : top.cacheCoins.Enumerates order) (hashBlock : Hash) :
    ∃ base', base.batchWrite top.cacheCoins order hashBlock = some base' ∧ base'.Consistent ∧
      (∀ txid, base'.view txid = (cache top base).view txid) ∧
      (base.Unpruned → base'.Unpruned) := by
  obtain ⟨fits, baseConsistent⟩ := consistent
  cases base with
  | db database =>
      refine ⟨_, rfl, trivial, ?_, ?_⟩
      · intro txid
        rw [← writeCoins_fits fits, ← CCoinsViewDB.coins_batchWrite enumerates hashBlock]
        rfl
      · exact fun unpruned => CCoinsViewDB.unpruned_batchWrite unpruned enumerates hashBlock
  | cache us base =>
      obtain ⟨usFits, baseConsistent⟩ := baseConsistent
      have noModifier := usFits.hasModifier_eq_false unmodified
      choose written writes entriesFit sameView using writeEntry_fits fits usFits
      have loop : order.foldlM (KeyedWrites.tryKey (CCoinsViewCache.writeEntry top.cacheCoins))
          us.cacheCoins = some written := by
        rw [KeyedWrites.foldlM_tryKey _ enumerates.1 fun txid _ => writes txid]
        congr 1
        funext txid
        split
        · rfl
        · rename_i notMet
          rw [enumerates.2, Option.not_isSome_iff_eq_none] at notMet
          have unwritten := writes txid
          unfold CCoinsViewCache.writeEntry at unwritten
          rw [notMet] at unwritten
          exact Option.some.inj unwritten
      refine ⟨cache { us with cacheCoins := written, hashBlock } base, ?_, ?_, ?_,
        fun unpruned => unpruned⟩
      · unfold batchWrite CCoinsViewCache.batchWrite
        simp only [noModifier, loop, Bool.false_eq_true, if_false, Option.map_some]
      · refine ⟨⟨entriesFit, usFits.hasModifier, ?_⟩, baseConsistent⟩
        intro txid opened
        have none : us.modifier = none := unmodified
        rw [none] at opened
        cases opened
      · exact fun txid => sameView txid _ rfl

/-- `Flush` leaves the base of a cache with the coins that the cache answers with, and
the cache without entries. -/
theorem flush_fits {top : CCoinsViewCache} {base : CoinsStack} {order : List Hash}
    (consistent : (cache top base).Consistent)
    (allowed : (CoinsAction.flush order).AllowedOn (cache top base)) :
    ∃ base', flush top base order =
        some (cache { top with cacheCoins := fun _ => none } base') ∧
      (∀ txid, base'.view txid = (cache top base).view txid) ∧
      (CoinsAction.flush order).StepFits 0 (cache top base)
        (cache { top with cacheCoins := fun _ => none } base') := by
  obtain ⟨unmodified, baseUnmodified, enumerates⟩ := allowed
  obtain ⟨base', wrote, baseConsistent, sameView, unpruned⟩ :=
    batchWrite_fits consistent baseUnmodified enumerates top.hashBlock
  refine ⟨base', ?_, sameView, ⟨⟨⟨by rintro _ _ ⟨⟩, consistent.1.hasModifier, ?_⟩,
    baseConsistent⟩, ?_, fun _ _ => Or.inr (Or.inr ⟨rfl, order, rfl⟩), unpruned⟩⟩
  · unfold flush
    rw [wrote]
    rfl
  · intro txid opened
    change top.modifier = some txid at opened
    rw [unmodified] at opened
    cases opened
  · intro txid
    change base'.view txid = ((cache top base).view txid).settle
    rw [settle_view, sameView]

end CoinsStack

namespace CoinsAction

/-! ## Every action -/

theorem perform_fits {action : CoinsAction} {stack : CoinsStack}
    (consistent : stack.Consistent) (allowed : action.AllowedOn stack)
    (tolerates : action.Tolerates stack.view) :
    ∃ next, action.perform stack = some next ∧ action.StepFits 0 stack next := by
  cases action with
  | getCoins txid => exact ⟨_, rfl, .of_keeps (fun edits => edits) (fetches consistent txid).keeps⟩
  | haveCoins txid =>
      exact ⟨_, rfl, .of_keeps (fun edits => edits) (keeps_haveCoins consistent txid)⟩
  | getBestBlock => exact ⟨_, rfl, .of_keeps (fun edits => edits) (keeps_getBestBlock consistent)⟩
  | setBestBlock hashBlock =>
      cases stack with
      | db database => exact allowed.elim
      | cache top base =>
          obtain ⟨fits, baseConsistent⟩ := consistent
          exact ⟨_, rfl, .of_keeps (fun edits => edits)
            ⟨⟨⟨fits.entries, fits.hasModifier, fits.modified⟩, baseConsistent⟩,
              fun _ => view_congr rfl fun _ => rfl, fun _ held => held,
              fun unpruned => unpruned⟩⟩
  | modifyCoins txid =>
      cases stack with
      | db database => exact allowed.elim
      | cache top base =>
          obtain ⟨next, performed, kept⟩ := modifyCoins_keeps consistent allowed txid
          exact ⟨next, performed, .of_keeps (fun edits => edits) kept⟩
  | edit txid change =>
      cases stack with
      | db database => exact allowed.elim
      | cache top base =>
          obtain ⟨next, edited, fits⟩ := edit_fits consistent allowed tolerates
          exact ⟨cache next base, by simp only [perform, edited, Option.map_some], fits⟩
  | closeModifier =>
      cases stack with
      | db database => exact allowed.elim
      | cache top base =>
          obtain ⟨next, closed, fits⟩ := closeModifier_fits consistent allowed
          exact ⟨cache next base, by simp only [perform, closed, Option.map_some], fits⟩
  | flush order =>
      cases stack with
      | db database => exact allowed.elim
      | cache top base =>
          obtain ⟨base', flushed, -, fits⟩ := flush_fits consistent allowed
          exact ⟨_, flushed, fits⟩

theorem overlay_of_entry {action : CoinsAction} {depth : Nat} {top : CCoinsViewCache}
    (allowed : action.AllowedUnder depth top) {txid : Hash} {entry : CCoinsCacheEntry}
    (present : top.cacheCoins txid = some entry) (coins : Hash → CCoins) :
    action.overlay coins txid = coins txid := by
  cases action with
  | edit edited change =>
      apply Function.update_of_ne
      rintro rfl
      have missing : top.cacheCoins txid = none := allowed
      rw [missing] at present
      cases present
  | _ => rfl

theorem overlay_congr (action : CoinsAction) {coins coins' : Hash → CCoins} {txid : Hash}
    (same : coins txid = coins' txid) :
    action.overlay coins txid = action.overlay coins' txid := by
  cases action with
  | edit edited change =>
      change Function.update coins edited _ txid = Function.update coins' edited _ txid
      by_cases isEdited : txid = edited
      · subst isEdited
        rw [Function.update_self, Function.update_self, same]
      · rw [Function.update_of_ne isEdited, Function.update_of_ne isEdited, same]
  | _ => exact same

/-- What an action does to a view, it does to the view of a cache above. -/
theorem StepFits.under {action : CoinsAction} {depth : Nat} {top : CCoinsViewCache}
    {base base' : CoinsStack} (topFits : CacheFits top base)
    (allowed : action.AllowedUnder depth top) (fits : action.StepFits depth base base') :
    action.StepFits (depth + 1) (cache top base) (cache top base') := by
  have sameBase : ∀ txid entry, top.cacheCoins txid = some entry →
      base'.view txid = base.view txid := by
    intro txid entry present
    rw [fits.view, overlay_of_entry allowed present, settle_view]
  refine ⟨⟨topFits.rebase sameBase ?_, fits.consistent⟩, ?_, fun _ held => Or.inl held,
    fits.unpruned⟩
  · intro txid entry present stale held
    have entryFresh := (topFits.entries txid entry present).fresh
    rcases fits.held txid held with stillHeld | pruned | ⟨rfl, order, rfl⟩
    · exact stillHeld
    · rw [stale, pruned] at entryFresh
      cases entryFresh
    · have fresh : entry.fresh = true := allowed txid entry present
      rw [stale] at fresh
      cases fresh
  · intro txid
    cases entryCase : top.cacheCoins txid with
    | none =>
        rw [view_of_noEntry entryCase, fits.view,
          overlay_congr action (view_of_noEntry entryCase base)]
    | some entry =>
        rw [overlay_of_entry allowed entryCase, settle_view]
        exact view_congr rfl fun _ => sameBase txid entry entryCase

/-- The coins that an edit under a cache meets are those that the cache answers with. -/
theorem Tolerates.below {action : CoinsAction} {depth : Nat} {top : CCoinsViewCache}
    {base : CoinsStack} (allowed : action.AllowedUnder depth top)
    (tolerates : action.Tolerates (cache top base).view) : action.Tolerates base.view := by
  cases action with
  | edit txid change =>
      intro pruned
      apply tolerates
      rw [view_of_noEntry allowed]
      exact pruned
  | _ => trivial

/-- An action on the view under a number of caches succeeds. -/
theorem performAt_fits {action : CoinsAction} {depth : Nat} {stack : CoinsStack}
    (consistent : stack.Consistent) (allowed : action.AllowedAt depth stack)
    (tolerates : action.Tolerates stack.view) :
    ∃ next, action.performAt depth stack = some next ∧ action.StepFits depth stack next := by
  induction depth generalizing stack with
  | zero => exact perform_fits consistent allowed tolerates
  | succ depth ih =>
      cases stack with
      | db database => exact allowed.elim
      | cache top base =>
          obtain ⟨fits, baseConsistent⟩ := consistent
          obtain ⟨allowedUnder, allowedBelow⟩ := allowed
          obtain ⟨next, performed, stepFits⟩ :=
            ih baseConsistent allowedBelow (Tolerates.below allowedUnder tolerates)
          refine ⟨cache top next, ?_, StepFits.under fits allowedUnder stepFits⟩
          rw [performAt, performed]
          rfl

/-! ## The view that blocks are connected on -/

/-- Caches on a database as a view with a best block. -/
def asView (stack : CoinsStack) (bestBlock : Hash) : CCoinsView where
  coins := stack.view
  bestBlock := bestBlock
  settled := by
    intro txid
    rw [← settle_view]
    exact CCoins.settled_settle _

end CoinsAction

end HdacNode
