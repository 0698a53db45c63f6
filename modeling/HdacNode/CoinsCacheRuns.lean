import HdacNode.CoinsCacheSteps

/-!
# Runs on caches of coins

A run on new caches over a database leaves the view at the top with the coins that the
plain overlay of the edits has, and flushing a cache leaves them in the view below.
-/

namespace HdacNode

open CoinsStack CoinsAction

namespace CCoinsViewDB

/-- The coins of a database; those that it does not have are clear. -/
def coinsOf (view : CCoinsViewDB) (txid : Hash) : CCoins := (view.coins txid).getD .clear

end CCoinsViewDB

namespace CoinsStack

/-- Each action of a run is allowed where it is performed. -/
def AllowedRun : List (Nat × CoinsAction) → CoinsStack → Prop
  | [], _ => True
  | (depth, action) :: rest, stack =>
    action.AllowedAt depth stack ∧ action.Tolerates stack.view ∧
      ∀ next, action.performAt depth stack = some next → AllowedRun rest next

/-- The view under a number of caches. -/
def beneath : Nat → CoinsStack → CoinsStack
  | 0, stack => stack
  | depth + 1, cache _ base => beneath depth base
  | _ + 1, db view => db view

/-- A cache above the view under a number of caches has an entry. -/
def HeldAbove : Nat → Hash → CoinsStack → Prop
  | 0, _, _ => False
  | depth + 1, txid, cache top base =>
    (top.cacheCoins txid).isSome ∨ HeldAbove depth txid base
  | _ + 1, _, db _ => False

/-- The view is a cache. -/
def IsCache : CoinsStack → Prop
  | cache _ _ => True
  | db _ => False

/-- The view answers as coins do, and so does the base of a cache that is flushed. -/
structure Follows (stack : CoinsStack) (view : CCoinsViewDB) (coins : Hash → CCoins) :
    Prop where
  getCoins : ∀ txid, ((stack.getCoins txid).1.getD .clear).equal (coins txid)
  haveCoins : ∀ txid, (stack.haveCoins txid).1 = !(coins txid).isPruned
  flush : ∀ depth order, (CoinsAction.flush order).AllowedAt depth stack →
    ∃ flushed, (CoinsAction.flush order).performAt depth stack = some flushed ∧
      ∀ txid, ¬stack.HeldAbove depth txid →
        (((flushed.beneath (depth + 1)).getCoins txid).1.getD .clear).equal (coins txid) ∧
        ∀ database, flushed.beneath (depth + 1) = db database → view.Unpruned →
          database.coins txid = if (coins txid).isPruned then none else some (coins txid)

theorem consistent_constructed (view : CCoinsViewDB) (layers : Nat) :
    (constructed view layers).Consistent := by
  induction layers with
  | zero => trivial
  | succ layers ih =>
      refine ⟨⟨?_, rfl, ?_⟩, ih⟩
      · rintro _ _ ⟨⟩
      · rintro _ ⟨⟩

theorem view_constructed (view : CCoinsViewDB) (layers : Nat) (txid : Hash) :
    (constructed view layers).view txid = (view.coinsOf txid).settle := by
  induction layers with
  | zero => rfl
  | succ layers ih => exact (view_of_noEntry rfl _).trans ih

theorem unpruned_constructed {view : CCoinsViewDB} (unpruned : view.Unpruned) (layers : Nat) :
    (constructed view layers).Unpruned := by
  induction layers with
  | zero => exact unpruned
  | succ layers ih => exact ih

theorem isCache_getCoins (top : CCoinsViewCache) (base : CoinsStack) (txid : Hash) :
    ((cache top base).getCoins txid).2.IsCache := by
  unfold getCoins
  split
  · trivial
  · split <;> trivial

theorem isCache_modifyCoins {top : CCoinsViewCache} {base next : CoinsStack} {txid : Hash}
    (performed : modifyCoins top base txid = some next) : next.IsCache := by
  unfold modifyCoins at performed
  split at performed
  · cases performed
  · obtain ⟨opened, -, rfl⟩ := Option.map_eq_some_iff.mp performed
    trivial

theorem isCache_performAt {action : CoinsAction} {depth : Nat} {stack next : CoinsStack}
    (isCache : stack.IsCache) (performed : action.performAt depth stack = some next) :
    next.IsCache := by
  cases stack with
  | db view => exact isCache.elim
  | cache top base =>
      cases depth with
      | succ depth =>
          obtain ⟨below, -, rfl⟩ := Option.map_eq_some_iff.mp performed
          trivial
      | zero =>
          cases action with
          | getCoins txid =>
              cases performed
              exact isCache_getCoins top base txid
          | haveCoins txid =>
              cases performed
              exact isCache_getCoins top base txid
          | getBestBlock =>
              cases performed
              unfold CoinsStack.getBestBlock
              split <;> trivial
          | setBestBlock hashBlock =>
              cases performed
              trivial
          | modifyCoins txid => exact isCache_modifyCoins performed
          | edit txid change =>
              obtain ⟨edited, -, rfl⟩ := Option.map_eq_some_iff.mp performed
              trivial
          | closeModifier =>
              obtain ⟨closed, -, rfl⟩ := Option.map_eq_some_iff.mp performed
              trivial
          | flush order =>
              obtain ⟨written, -, rfl⟩ := Option.map_eq_some_iff.mp performed
              trivial

/-- An edit that the coins of a view tolerate does the same to coins that settle to
them. -/
theorem settle_overlay {action : CoinsAction} {stack : CoinsStack} {coins : Hash → CCoins}
    (tolerates : action.Tolerates stack.view)
    (follows : ∀ txid, stack.view txid = (coins txid).settle) (txid : Hash) :
    (action.overlay stack.view txid).settle = (action.overlay coins txid).settle := by
  cases action with
  | edit edited change =>
      change (Function.update stack.view edited (change (stack.view edited)) txid).settle =
        (Function.update coins edited (change (coins edited)) txid).settle
      by_cases same : txid = edited
      · subst same
        rw [Function.update_self, Function.update_self, follows]
        by_cases pruned : (coins txid).isPruned
        · have ignores : IgnoresPruned change := by
            apply tolerates
            rw [follows, CCoins.isPruned_settle]
            exact pruned
          rw [CCoins.settle_of_isPruned pruned]
          exact (CCoins.equal_iff_settle.mp (ignores (coins txid) pruned)).symm
        · rw [CCoins.settle_of_not_isPruned pruned]
      · rw [Function.update_of_ne same, Function.update_of_ne same, follows,
          CCoins.settle_settle]
  | _ =>
      change (stack.view txid).settle = (coins txid).settle
      rw [follows, CCoins.settle_settle]

/-- What a run keeps: consistent caches, and a view that answers as the overlay. -/
structure RunFits (view : CCoinsViewDB) (coins : Hash → CCoins) (stack : CoinsStack) : Prop where
  consistent : stack.Consistent
  follows : ∀ txid, stack.view txid = (coins txid).settle
  isCache : stack.IsCache
  unpruned : view.Unpruned → stack.Unpruned

theorem runFits_constructed (view : CCoinsViewDB) (layers : Nat) :
    RunFits view view.coinsOf (constructed view (layers + 1)) where
  consistent := consistent_constructed view (layers + 1)
  follows := view_constructed view (layers + 1)
  isCache := trivial
  unpruned := fun unpruned => unpruned_constructed unpruned (layers + 1)

/-- A step of a run. -/
theorem RunFits.step {view : CCoinsViewDB} {coins : Hash → CCoins} {stack : CoinsStack}
    {action : CoinsAction} {depth : Nat} (fits : RunFits view coins stack)
    (allowed : action.AllowedAt depth stack) (tolerates : action.Tolerates stack.view) :
    ∃ next, action.performAt depth stack = some next ∧
      RunFits view (action.overlay coins) next := by
  obtain ⟨next, performed, stepFits⟩ := performAt_fits fits.consistent allowed tolerates
  refine ⟨next, performed, ⟨stepFits.consistent, ?_, isCache_performAt fits.isCache performed,
    fun unpruned => stepFits.unpruned (fits.unpruned unpruned)⟩⟩
  intro txid
  rw [stepFits.view, settle_overlay tolerates fits.follows]

/-- A run succeeds, and the view at its end answers as the overlay. -/
theorem RunFits.run {view : CCoinsViewDB} {coins : Hash → CCoins} {stack : CoinsStack}
    {actions : List (Nat × CoinsAction)} (fits : RunFits view coins stack)
    (allowed : AllowedRun actions stack) :
    ∃ next, stack.run actions = some next ∧ RunFits view (overlayOf actions coins) next := by
  induction actions generalizing stack coins with
  | nil => exact ⟨stack, rfl, fits⟩
  | cons first rest ih =>
      obtain ⟨allowedFirst, tolerates, allowedRest⟩ := allowed
      obtain ⟨between, performed, betweenFits⟩ := fits.step allowedFirst tolerates
      obtain ⟨next, ran, nextFits⟩ := ih betweenFits (allowedRest between performed)
      refine ⟨next, ?_, nextFits⟩
      change (first.2.performAt first.1 stack).bind (fun stack => stack.run rest) = some next
      rw [performed]
      exact ran

/-- A flush under a number of caches leaves the base of the flushed cache with the coins
of the view at the top, where no cache in between has an entry. -/
theorem flush_beneath {depth : Nat} {stack : CoinsStack} {order : List Hash}
    (consistent : stack.Consistent)
    (allowed : (CoinsAction.flush order).AllowedAt depth stack) :
    ∃ flushed, (CoinsAction.flush order).performAt depth stack = some flushed ∧
      (flushed.beneath (depth + 1)).Consistent ∧
      (stack.Unpruned → (flushed.beneath (depth + 1)).Unpruned) ∧
      ∀ txid, ¬stack.HeldAbove depth txid →
        (flushed.beneath (depth + 1)).view txid = stack.view txid := by
  induction depth generalizing stack with
  | zero =>
      cases stack with
      | db database => exact allowed.elim
      | cache top base =>
          obtain ⟨base', flushed, sameView, fits⟩ := flush_fits consistent allowed
          exact ⟨_, flushed, fits.consistent.2, fits.unpruned, fun txid _ => sameView txid⟩
  | succ depth ih =>
      cases stack with
      | db database => exact allowed.elim
      | cache top base =>
          obtain ⟨flushed, performed, baseConsistent, unpruned, sameView⟩ :=
            ih consistent.2 allowed.2
          refine ⟨cache top flushed, ?_, baseConsistent, unpruned, ?_⟩
          · rw [performAt, performed]
            rfl
          · intro txid notHeld
            obtain ⟨notInTop, notHeldBelow⟩ := not_or.mp notHeld
            rw [view_of_noEntry (Option.not_isSome_iff_eq_none.mp notInTop)]
            exact sameView txid notHeldBelow

theorem coins_of_view {database : CCoinsViewDB} (unpruned : database.Unpruned) {txid : Hash}
    {coins : CCoins} (sameView : (db database).view txid = coins.settle) :
    database.coins txid = if coins.isPruned then none else some coins := by
  change ((database.coins txid).getD .clear).settle = coins.settle at sameView
  have samePruned : ((database.coins txid).getD .clear).isPruned = coins.isPruned := by
    rw [← CCoins.isPruned_settle, sameView, CCoins.isPruned_settle]
  cases stored : database.coins txid with
  | none =>
      rw [stored] at samePruned
      have pruned : coins.isPruned := samePruned.symm
      rw [if_pos pruned]
  | some found =>
      have notPruned := unpruned txid found stored
      rw [stored] at samePruned sameView
      change found.isPruned = coins.isPruned at samePruned
      change found.settle = coins.settle at sameView
      rw [notPruned] at samePruned
      rw [← samePruned, if_neg Bool.false_ne_true]
      rw [CCoins.settle_of_not_isPruned (Bool.eq_false_iff.mp notPruned),
        CCoins.settle_of_not_isPruned (Bool.eq_false_iff.mp samePruned.symm)] at sameView
      rw [sameView]

theorem RunFits.follows_coins {view : CCoinsViewDB} {coins : Hash → CCoins} {stack : CoinsStack}
    (fits : RunFits view coins stack) : stack.Follows view coins where
  getCoins := by
    intro txid
    rw [CCoins.equal_iff_settle, (fetches fits.consistent txid).answer, fits.follows]
  haveCoins := by
    intro txid
    have isCache := fits.isCache
    have consistent := fits.consistent
    have follows := fits.follows txid
    cases stack with
    | db database => exact isCache.elim
    | cache top base => rw [haveCoins_cache consistent, follows, CCoins.isPruned_settle]
  flush := by
    intro depth order allowed
    obtain ⟨flushed, performed, consistent, unpruned, sameView⟩ :=
      flush_beneath fits.consistent allowed
    refine ⟨flushed, performed, ?_⟩
    intro txid notHeld
    have answers := (sameView txid notHeld).trans (fits.follows txid)
    refine ⟨?_, ?_⟩
    · rw [CCoins.equal_iff_settle, (fetches consistent txid).answer, answers]
    · intro database isDatabase viewUnpruned
      have databaseUnpruned := unpruned (fits.unpruned viewUnpruned)
      rw [isDatabase] at answers databaseUnpruned
      exact coins_of_view databaseUnpruned answers

/-- Caches on a database answer as the plain overlay of the edits on it. -/
theorem run_follows_overlay (view : CCoinsViewDB) (layers : Nat)
    (actions : List (Nat × CoinsAction))
    (allowed : AllowedRun actions (constructed view (layers + 1))) :
    ∃ stack, (constructed view (layers + 1)).run actions = some stack ∧
      stack.Follows view (overlayOf actions view.coinsOf) := by
  obtain ⟨stack, ran, fits⟩ := (runFits_constructed view layers).run allowed
  exact ⟨stack, ran, fits.follows_coins⟩

/-- Coins with one output. -/
def oneOutput : CCoins := ⟨false, .ofSlots [some ⟨5, []⟩], 7, 1⟩

/-- A database with these coins under one hash. -/
def oneRecord : CCoinsViewDB := ⟨fun txid => if txid = 1 then some oneOutput else none, 0⟩

/-- Spend all outputs. -/
def spendAll (coins : CCoins) : CCoins := { coins with vout := .empty }

/-- Add an output to coins, and leave the rest of them. -/
def addOutput (coins : CCoins) : CCoins := { coins with vout := oneOutput.vout }

/-- The calls of a modification in the cache under a number of caches. -/
def modification (depth : Nat) (txid : Hash) (change : CCoins → CCoins) :
    List (Nat × CoinsAction) :=
  [(depth, .modifyCoins txid), (depth, .edit txid change), (depth, .closeModifier)]

private theorem enumerates_one {mapCoins : CCoinsMap} (present : (mapCoins 1).isSome)
    (alone : ∀ txid, txid ≠ 1 → mapCoins txid = none) : mapCoins.Enumerates [1] := by
  refine ⟨List.nodup_singleton 1, ?_⟩
  intro txid
  by_cases same : txid = 1
  · subst same
    simp only [List.mem_singleton, present]
  · simp only [List.mem_singleton, same, alone txid same, Option.isSome_none,
      Bool.false_eq_true]

/-- The deletion of the coins reaches the database through both caches. -/
theorem run_follows_overlay_spendAll :
    ∃ stack,
      (constructed oneRecord 2).run ((0, .getCoins 1) :: modification 0 1 spendAll ++
        [(0, .flush [1]), (1, .flush [1])]) = some stack ∧
      stack.Follows oneRecord (overlayOf ((0, .getCoins 1) :: modification 0 1 spendAll ++
        [(0, .flush [1]), (1, .flush [1])]) oneRecord.coinsOf) := by
  apply run_follows_overlay oneRecord 1
  refine ⟨trivial, trivial, ?_⟩
  rintro _ ⟨⟩
  refine ⟨rfl, trivial, ?_⟩
  rintro _ ⟨⟩
  refine ⟨rfl, fun pruned => absurd pruned (by decide), ?_⟩
  rintro _ ⟨⟩
  refine ⟨rfl, trivial, ?_⟩
  rintro _ ⟨⟩
  refine ⟨⟨rfl, rfl, enumerates_one rfl ?_⟩, trivial, ?_⟩
  · intro txid different
    simp only [CCoinsViewCache.setEntry, Function.update_idem]
    exact Function.update_of_ne different _ _
  rintro _ ⟨⟩
  refine ⟨⟨by rintro _ _ ⟨⟩, rfl, trivial, enumerates_one rfl ?_⟩, trivial, ?_⟩
  · intro txid different
    simp only [CCoinsViewCache.setEntry, Function.update_idem]
    exact Function.update_of_ne different _ _
  · exact fun _ _ => trivial

/-- The assertion on FRESH fails for coins that were fetched through a cache that is
flushed meanwhile.  A cache does not see an edit under its entry.  Coins that are pruned
in an entry that is FRESH forget their height. -/
theorem not_run_follows_overlay_anyCalls :
    (((constructed oneRecord 2).run
        ([(0, .getCoins 1), (1, .flush [1])] ++ modification 0 1 id)).isSome ∧
      (constructed oneRecord 2).run
        ([(0, .getCoins 1), (1, .flush [1])] ++ modification 0 1 id ++ [(0, .flush [1])]) =
          none) ∧
    (((constructed oneRecord 2).run ((0, .getCoins 1) :: modification 1 1 spendAll)).map
        (fun stack => (stack.getCoins 1).1) = some (some oneOutput) ∧
      (overlayOf ((0, .getCoins 1) :: modification 1 1 spendAll) oneRecord.coinsOf 1).isPruned) ∧
    (((constructed oneRecord 1).run (modification 0 2 (fun _ => oneOutput) ++
          modification 0 2 spendAll ++ modification 0 2 addOutput)).map
        (fun stack => (stack.getCoins 2).1) = some (some (addOutput .clear)) ∧
      overlayOf (modification 0 2 (fun _ => oneOutput) ++ modification 0 2 spendAll ++
        modification 0 2 addOutput) oneRecord.coinsOf 2 = oneOutput ∧
      ¬(addOutput .clear).equal oneOutput) := by
  decide

end CoinsStack

end HdacNode
