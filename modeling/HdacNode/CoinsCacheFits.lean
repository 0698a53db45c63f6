import HdacNode.CoinsCache

/-!
# Consistent caches of coins

An entry is FRESH exactly if the view below answers with pruned coins or with none, and
an entry that is not DIRTY has the coins of the view below.  An entry that is not FRESH
was fetched from the view below, which holds an entry for it since.  These hold in all
caches on a database as long as nobody edits coins that a cache above holds, and nobody
flushes a cache under entries that are not FRESH.
-/

namespace HdacNode

namespace CCoins

theorem settle_of_not_isPruned {coins : CCoins} (unpruned : ¬coins.isPruned) :
    coins.settle = coins :=
  if_neg unpruned

@[simp]
theorem settle_settle (coins : CCoins) : coins.settle.settle = coins.settle :=
  settle_of_settled coins.settled_settle

/-- Coins are equal if the same remains of them. -/
theorem equal_iff_settle {first second : CCoins} :
    first.equal second ↔ first.settle = second.settle := by
  unfold equal
  rw [decide_eq_true_iff]
  constructor
  · rintro (⟨firstPruned, secondPruned⟩ | rfl)
    · rw [settle_of_isPruned firstPruned, settle_of_isPruned secondPruned]
    · rfl
  · intro same
    have samePruned : first.isPruned = second.isPruned := by
      rw [← isPruned_settle first, ← isPruned_settle second, same]
    by_cases pruned : first.isPruned
    · exact Or.inl ⟨pruned, samePruned ▸ pruned⟩
    · right
      rw [← settle_of_not_isPruned pruned, same, settle_of_not_isPruned (samePruned ▸ pruned)]

end CCoins

namespace CoinsStack

/-- The coins that a view answers with; pruned coins are cleared. -/
def view : CoinsStack → Hash → CCoins
  | db view, txid => ((view.coins txid).getD .clear).settle
  | cache top base, txid =>
    match top.cacheCoins txid with
    | some entry => entry.coins.settle
    | none => base.view txid

/-- A view can be asked to write coins as a normal modification: a database always, and
a cache if it has an entry for them. -/
def Holds : CoinsStack → Hash → Prop
  | db _, _ => True
  | cache top _, txid => (top.cacheCoins txid).isSome

/-- The entry of a cache, against the view that the cache is based on. -/
structure EntryFits (base : CoinsStack) (txid : Hash) (entry : CCoinsCacheEntry) : Prop where
  fresh : entry.fresh = (base.view txid).isPruned
  clean : entry.dirty = false → entry.coins.settle = base.view txid
  held : entry.fresh = false → base.Holds txid

/-- A cache, against the view that it is based on. -/
structure CacheFits (top : CCoinsViewCache) (base : CoinsStack) : Prop where
  entries : ∀ txid entry, top.cacheCoins txid = some entry → EntryFits base txid entry
  hasModifier : top.hasModifier = top.modifier.isSome
  modified : ∀ txid, top.modifier = some txid →
    ∃ entry, top.cacheCoins txid = some entry ∧ entry.dirty = true

/-- Each cache fits the view that it is based on. -/
def Consistent : CoinsStack → Prop
  | db _ => True
  | cache top base => CacheFits top base ∧ base.Consistent

/-- The database has no pruned coins. -/
def Unpruned : CoinsStack → Prop
  | db view => view.Unpruned
  | cache _ base => base.Unpruned

/-- No modifier of a view is open. -/
def Unmodified : CoinsStack → Prop
  | db _ => True
  | cache top _ => top.modifier = none

theorem view_of_entry {top : CCoinsViewCache} {txid : Hash} {entry : CCoinsCacheEntry}
    (present : top.cacheCoins txid = some entry) (base : CoinsStack) :
    (cache top base).view txid = entry.coins.settle := by
  simp only [view, present]

theorem view_of_noEntry {top : CCoinsViewCache} {txid : Hash}
    (missing : top.cacheCoins txid = none) (base : CoinsStack) :
    (cache top base).view txid = base.view txid := by
  simp only [view, missing]

@[simp]
theorem settle_view (stack : CoinsStack) (txid : Hash) :
    (stack.view txid).settle = stack.view txid := by
  induction stack with
  | db view => exact CCoins.settle_settle _
  | cache top base ih =>
      cases entryCase : top.cacheCoins txid with
      | none => rw [view_of_noEntry entryCase, ih]
      | some entry => rw [view_of_entry entryCase, CCoins.settle_settle]

theorem view_setEntry_self (top : CCoinsViewCache) (base : CoinsStack) (txid : Hash)
    (entry : CCoinsCacheEntry) :
    (cache (top.setEntry txid entry) base).view txid = entry.coins.settle :=
  view_of_entry (Function.update_self _ _ _) base

/-- Where two caches have the same entry and their bases answer the same, they do. -/
theorem view_congr {top top' : CCoinsViewCache} {base base' : CoinsStack} {txid : Hash}
    (sameEntry : top'.cacheCoins txid = top.cacheCoins txid)
    (sameBase : top.cacheCoins txid = none → base'.view txid = base.view txid) :
    (cache top' base').view txid = (cache top base).view txid := by
  cases entryCase : top.cacheCoins txid with
  | none =>
      rw [view_of_noEntry entryCase, view_of_noEntry (sameEntry.trans entryCase),
        sameBase entryCase]
  | some entry =>
      rw [view_of_entry entryCase, view_of_entry (sameEntry.trans entryCase)]

/-- An entry still fits when its coins look the same below and are still held there. -/
theorem EntryFits.rebase {base base' : CoinsStack} {txid : Hash} {entry : CCoinsCacheEntry}
    (fits : EntryFits base txid entry) (sameView : base'.view txid = base.view txid)
    (stillHeld : entry.fresh = false → base.Holds txid → base'.Holds txid) :
    EntryFits base' txid entry where
  fresh := sameView ▸ fits.fresh
  clean := fun clean => (fits.clean clean).trans sameView.symm
  held := fun stale => stillHeld stale (fits.held stale)

theorem CacheFits.rebase {top : CCoinsViewCache} {base base' : CoinsStack}
    (fits : CacheFits top base)
    (sameView : ∀ txid entry, top.cacheCoins txid = some entry →
      base'.view txid = base.view txid)
    (stillHeld : ∀ txid entry, top.cacheCoins txid = some entry → entry.fresh = false →
      base.Holds txid → base'.Holds txid) :
    CacheFits top base' where
  entries := fun txid entry present =>
    (fits.entries txid entry present).rebase (sameView txid entry present)
      (stillHeld txid entry present)
  hasModifier := fits.hasModifier
  modified := fits.modified

theorem CacheFits.setEntry {top : CCoinsViewCache} {base : CoinsStack} {txid : Hash}
    {entry : CCoinsCacheEntry} (fits : CacheFits top base) (entryFits : EntryFits base txid entry)
    (modified : top.modifier = some txid → entry.dirty = true) :
    CacheFits (top.setEntry txid entry) base where
  entries := by
    intro other found present
    change Function.update top.cacheCoins txid (some entry) other = some found at present
    by_cases same : other = txid
    · subst same
      rw [Function.update_self] at present
      cases present
      exact entryFits
    · rw [Function.update_of_ne same] at present
      exact fits.entries other found present
  hasModifier := fits.hasModifier
  modified := by
    intro other opened
    change ∃ found, Function.update top.cacheCoins txid (some entry) other = some found ∧ _
    by_cases same : other = txid
    · subst same
      exact ⟨entry, Function.update_self _ _ _, modified opened⟩
    · rw [Function.update_of_ne same]
      exact fits.modified other opened

/-- A cache without an open modifier is not marked to have one. -/
theorem CacheFits.hasModifier_eq_false {top : CCoinsViewCache} {base : CoinsStack}
    (fits : CacheFits top base) (unmodified : top.modifier = none) : top.hasModifier = false := by
  rw [fits.hasModifier, unmodified]
  rfl

theorem holds_setEntry_self (top : CCoinsViewCache) (base : CoinsStack) (txid : Hash)
    (entry : CCoinsCacheEntry) : (cache (top.setEntry txid entry) base).Holds txid := by
  change (Function.update top.cacheCoins txid (some entry) txid).isSome
  rw [Function.update_self]
  rfl

theorem Holds.setEntry {top : CCoinsViewCache} {base : CoinsStack} {other : Hash}
    (held : (cache top base).Holds other) (txid : Hash) (entry : CCoinsCacheEntry)
    (base' : CoinsStack) : (cache (top.setEntry txid entry) base').Holds other := by
  by_cases same : other = txid
  · subst same
    exact holds_setEntry_self top base' other entry
  · change (Function.update top.cacheCoins txid (some entry) other).isSome
    rw [Function.update_of_ne same]
    exact held

/-- What does not change the coins of a view, and takes no entry from it. -/
structure Keeps (stack next : CoinsStack) : Prop where
  consistent : next.Consistent
  view : ∀ txid, next.view txid = stack.view txid
  held : ∀ txid, stack.Holds txid → next.Holds txid
  unpruned : stack.Unpruned → next.Unpruned

theorem Keeps.refl {stack : CoinsStack} (consistent : stack.Consistent) : Keeps stack stack :=
  ⟨consistent, fun _ => rfl, fun _ held => held, fun unpruned => unpruned⟩

theorem CacheFits.keeps {top : CCoinsViewCache} {base base' : CoinsStack}
    (fits : CacheFits top base) (kept : Keeps base base') : CacheFits top base' :=
  fits.rebase (fun txid _ _ => kept.view txid) fun txid _ _ _ => kept.held txid

/-- A cache that stays as it is keeps its coins when the view below does. -/
theorem Keeps.under {top : CCoinsViewCache} {base base' : CoinsStack}
    (fits : CacheFits top base) (kept : Keeps base base') :
    Keeps (cache top base) (cache top base') where
  consistent := ⟨fits.keeps kept, kept.consistent⟩
  view := fun txid => view_congr rfl fun _ => kept.view txid
  held := fun _ held => held
  unpruned := kept.unpruned

/-- An entry with the coins that a cache answers with already can be put into it. -/
theorem Keeps.setEntry {top : CCoinsViewCache} {base base' : CoinsStack} {txid : Hash}
    {entry : CCoinsCacheEntry} (fits : CacheFits top base) (kept : Keeps base base')
    (entryFits : EntryFits base' txid entry)
    (sameCoins : entry.coins.settle = (cache top base).view txid)
    (modified : top.modifier = some txid → entry.dirty = true) :
    Keeps (cache top base) (cache (top.setEntry txid entry) base') where
  consistent := ⟨(fits.keeps kept).setEntry entryFits modified, kept.consistent⟩
  view := by
    intro other
    by_cases same : other = txid
    · subst same
      rw [view_setEntry_self, sameCoins]
    · exact view_congr (Function.update_of_ne same _ _) fun _ => kept.view other
  held := fun _ held => held.setEntry txid entry base'
  unpruned := kept.unpruned

/-- An entry with the coins that `GetCoins` found in the view below. -/
theorem entryFits_found {base base' : CoinsStack} {txid : Hash} {coins : CCoins} (dirty : Bool)
    (kept : Keeps base base') (answer : coins.settle = base.view txid)
    (held : base'.Holds txid) : EntryFits base' txid ⟨coins, dirty, coins.isPruned⟩ where
  fresh := by
    change coins.isPruned = _
    rw [kept.view, ← answer, CCoins.isPruned_settle]
  clean := fun _ => answer.trans (kept.view txid).symm
  held := fun _ => held

/-- What `GetCoins` answers with, and what it does to the caches. -/
structure Fetches (stack : CoinsStack) (txid : Hash) : Prop where
  keeps : Keeps stack (stack.getCoins txid).2
  answer : ((stack.getCoins txid).1.getD .clear).settle = stack.view txid
  held : ∀ coins, (stack.getCoins txid).1 = some coins → (stack.getCoins txid).2.Holds txid

theorem fetches {stack : CoinsStack} (consistent : stack.Consistent) (txid : Hash) :
    Fetches stack txid := by
  induction stack with
  | db view => exact ⟨Keeps.refl trivial, rfl, fun _ _ => trivial⟩
  | cache top base ih =>
      obtain ⟨fits, baseConsistent⟩ := consistent
      obtain ⟨keeps, answer, held⟩ := ih baseConsistent
      cases entryCase : top.cacheCoins txid with
      | some entry =>
          have fetched : (cache top base).getCoins txid =
              (some entry.coins, cache top base) := by
            simp only [getCoins, entryCase]
          refine ⟨?_, ?_, ?_⟩
          · rw [fetched]
            exact Keeps.refl ⟨fits, baseConsistent⟩
          · rw [fetched]
            exact (view_of_entry entryCase base).symm
          · rw [fetched]
            intro _ _
            change (top.cacheCoins txid).isSome
            rw [entryCase]
            rfl
      | none =>
          have missView := view_of_noEntry entryCase base
          generalize below : base.getCoins txid = result at keeps answer held
          obtain ⟨found, base'⟩ := result
          cases found with
          | none =>
              have fetched : (cache top base).getCoins txid = (none, cache top base') := by
                simp only [getCoins, entryCase, below]
              refine ⟨?_, ?_, ?_⟩
              · rw [fetched]
                exact Keeps.under fits keeps
              · rw [fetched, missView]
                exact answer
              · rw [fetched]
                rintro _ ⟨⟩
          | some coins =>
              have fetched : (cache top base).getCoins txid =
                  (some coins,
                    cache (top.setEntry txid ⟨coins, false, coins.isPruned⟩) base') := by
                simp only [getCoins, entryCase, below]
              have unmodified : top.modifier ≠ some txid := by
                intro opened
                obtain ⟨_, present, _⟩ := fits.modified txid opened
                rw [entryCase] at present
                cases present
              refine ⟨?_, ?_, ?_⟩
              · rw [fetched]
                exact Keeps.setEntry fits keeps
                  (entryFits_found false keeps answer (held coins rfl))
                  (answer.trans missView.symm) fun opened => absurd opened unmodified
              · rw [fetched, missView]
                exact answer
              · rw [fetched]
                exact fun _ _ => holds_setEntry_self top base' txid _

theorem keeps_haveCoins {stack : CoinsStack} (consistent : stack.Consistent) (txid : Hash) :
    Keeps stack (stack.haveCoins txid).2 := by
  cases stack with
  | db view => exact Keeps.refl trivial
  | cache top base => exact (fetches consistent txid).keeps

/-- `HaveCoins` of a cache looks for outputs in what `GetCoins` answers with. -/
theorem haveCoins_cache {top : CCoinsViewCache} {base : CoinsStack}
    (consistent : (cache top base).Consistent) (txid : Hash) :
    ((cache top base).haveCoins txid).1 = !((cache top base).view txid).isPruned := by
  rw [← (fetches consistent txid).answer, CCoins.isPruned_settle]
  change ((cache top base).getCoins txid).1.any _ = _
  cases ((cache top base).getCoins txid).1 with
  | none => rfl
  | some coins =>
      change decide (coins.vout ≠ .empty) = !coins.isPruned
      unfold CCoins.isPruned
      rw [decide_not]

theorem keeps_getBestBlock {stack : CoinsStack} (consistent : stack.Consistent) :
    Keeps stack stack.getBestBlock.2 := by
  induction stack with
  | db view => exact Keeps.refl trivial
  | cache top base ih =>
      obtain ⟨fits, baseConsistent⟩ := consistent
      unfold getBestBlock
      split
      · have kept := Keeps.under fits (ih baseConsistent)
        have keptFits := kept.consistent.1
        exact ⟨⟨⟨keptFits.entries, keptFits.hasModifier, keptFits.modified⟩, kept.consistent.2⟩,
          kept.view, kept.held, kept.unpruned⟩
      · exact Keeps.refl ⟨fits, baseConsistent⟩

end CoinsStack

end HdacNode
