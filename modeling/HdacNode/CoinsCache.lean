import HdacNode.Coins
import HdacNode.KeyedWrites

/-!
# Caches of coins

A `CCoinsViewCache` keeps entries of coins over the view that it is based on: the coin
database, or another cache.  An entry has the flags DIRTY and FRESH, and `Flush` hands
the entries to the view below.  `ModifyCoins` hands out a modifier for an entry; one
modifier at a time is open in a cache, and its destructor erases the entry when nothing
of it needs to reach the view below.

Coins are kept without spent outputs at their end, so `Cleanup` has nothing left to do
on them.  An assertion that fails is `none`.
-/

namespace HdacNode

/-- `CCoinsCacheEntry`, with the bits of its flags. -/
structure CCoinsCacheEntry where
  coins : CCoins
  /-- The coins are potentially different from those of the parent view. -/
  dirty : Bool
  /-- The parent view does not have these coins, or they are pruned there. -/
  fresh : Bool
  deriving DecidableEq

/-- `CCoinsMap`. -/
abbrev CCoinsMap := Hash → Option CCoinsCacheEntry

/-- The iterators of a map meet the keys of its entries once, in any order. -/
def CCoinsMap.Enumerates (mapCoins : CCoinsMap) (order : List Hash) : Prop :=
  order.Nodup ∧ ∀ txid, txid ∈ order ↔ (mapCoins txid).isSome

/-- `CCoinsViewDB`: the coins and the best block in the database. -/
structure CCoinsViewDB where
  coins : Hash → Option CCoins
  bestBlock : Hash

namespace CCoinsViewDB

/-- `BatchWriteCoins` on a record, for an entry that is DIRTY. -/
def writeCoins (mapCoins : CCoinsMap) (txid : Hash) (record : Option CCoins) : Option CCoins :=
  match mapCoins txid with
  | none => record
  | some entry =>
    if entry.dirty then
      if entry.coins.isPruned then none else some entry.coins
    else record

/-- `CCoinsViewDB::BatchWrite`. -/
def batchWrite (view : CCoinsViewDB) (mapCoins : CCoinsMap) (order : List Hash)
    (hashBlock : Hash) : CCoinsViewDB where
  coins := order.foldl (KeyedWrites.writeKey (writeCoins mapCoins)) view.coins
  bestBlock := if hashBlock ≠ 0 then hashBlock else view.bestBlock

/-- Only unpruned coins can be serialized. -/
def Unpruned (view : CCoinsViewDB) : Prop :=
  ∀ txid coins, view.coins txid = some coins → coins.isPruned = false

theorem coins_batchWrite {view : CCoinsViewDB} {mapCoins : CCoinsMap} {order : List Hash}
    (enumerates : mapCoins.Enumerates order) (hashBlock txid : Hash) :
    (view.batchWrite mapCoins order hashBlock).coins txid =
      writeCoins mapCoins txid (view.coins txid) := by
  change order.foldl (KeyedWrites.writeKey (writeCoins mapCoins)) view.coins txid = _
  rw [KeyedWrites.foldl_writeKey _ enumerates.1]
  simp only [enumerates.2]
  split
  · rfl
  · rename_i noEntry
    rw [Option.not_isSome_iff_eq_none] at noEntry
    unfold writeCoins
    rw [noEntry]

theorem unpruned_batchWrite {view : CCoinsViewDB} (unpruned : view.Unpruned)
    {mapCoins : CCoinsMap} {order : List Hash} (enumerates : mapCoins.Enumerates order)
    (hashBlock : Hash) : (view.batchWrite mapCoins order hashBlock).Unpruned := by
  intro txid coins stored
  rw [coins_batchWrite enumerates] at stored
  unfold writeCoins at stored
  split at stored
  · exact unpruned txid coins stored
  · split at stored
    · split at stored
      · cases stored
      · rename_i notPruned
        cases stored
        exact Bool.eq_false_iff.mpr notPruned
    · exact unpruned txid coins stored

end CCoinsViewDB

/-- `CCoinsViewCache`.  The modifier is the one that `ModifyCoins` handed out and that
is not destroyed yet. -/
structure CCoinsViewCache where
  cacheCoins : CCoinsMap
  hasModifier : Bool
  modifier : Option Hash
  hashBlock : Hash

namespace CCoinsViewCache

/-- A cache that is just constructed. -/
def constructed : CCoinsViewCache where
  cacheCoins := fun _ => none
  hasModifier := false
  modifier := none
  hashBlock := 0

/-- Put an entry into the map, in the place of the one that is there. -/
def setEntry (cache : CCoinsViewCache) (txid : Hash) (entry : CCoinsCacheEntry) :
    CCoinsViewCache :=
  { cache with cacheCoins := Function.update cache.cacheCoins txid (some entry) }

/-- An iteration of `CCoinsViewCache::BatchWrite`: what becomes of the own entry. -/
def writeEntry (mapCoins : CCoinsMap) (txid : Hash) (own : Option CCoinsCacheEntry) :
    Option (Option CCoinsCacheEntry) :=
  match mapCoins txid with
  | none => some own
  | some entry =>
    if entry.dirty then
      match own with
      | none =>
        if entry.coins.isPruned then some none
        -- assert(it->second.flags & CCoinsCacheEntry::FRESH)
        else if entry.fresh then some (some ⟨entry.coins, true, true⟩)
        else none
      | some us =>
        if us.fresh && entry.coins.isPruned then some none
        else some (some { us with coins := entry.coins, dirty := true })
    else some own

/-- `CCoinsViewCache::BatchWrite`. -/
def batchWrite (cache : CCoinsViewCache) (mapCoins : CCoinsMap) (order : List Hash)
    (hashBlock : Hash) : Option CCoinsViewCache :=
  if cache.hasModifier then none
  else
    (order.foldlM (KeyedWrites.tryKey (writeEntry mapCoins)) cache.cacheCoins).map fun written =>
      { cache with cacheCoins := written, hashBlock }

/-- The constructor of `CCoinsModifier`. -/
def openModifier (cache : CCoinsViewCache) (txid : Hash) : Option CCoinsViewCache :=
  if cache.hasModifier then none
  else some { cache with hasModifier := true, modifier := some txid }

/-- What is written through an open modifier. -/
def edit (cache : CCoinsViewCache) (txid : Hash) (change : CCoins → CCoins) :
    Option CCoinsViewCache :=
  if cache.modifier = some txid then
    (cache.cacheCoins txid).map fun entry =>
      cache.setEntry txid { entry with coins := change entry.coins }
  else none

/-- `CCoinsModifier::~CCoinsModifier`. -/
def closeModifier (cache : CCoinsViewCache) : Option CCoinsViewCache := do
  let txid ← cache.modifier
  -- without this entry the iterator of the modifier dangles
  let entry ← cache.cacheCoins txid
  if cache.hasModifier then
    let closed := { cache with hasModifier := false, modifier := none }
    if entry.fresh && entry.coins.isPruned then
      some { closed with cacheCoins := Function.update closed.cacheCoins txid none }
    else some closed
  else none

end CCoinsViewCache

/-- A view of coins: the database, or a cache on a view. -/
inductive CoinsStack where
  | db (view : CCoinsViewDB)
  | cache (top : CCoinsViewCache) (base : CoinsStack)

namespace CoinsStack

/-- New caches on a database. -/
def constructed (view : CCoinsViewDB) : Nat → CoinsStack
  | 0 => db view
  | layers + 1 => cache .constructed (constructed view layers)

/-- `GetCoins`, with the entries that `FetchCoins` puts into the caches. -/
def getCoins : CoinsStack → Hash → Option CCoins × CoinsStack
  | db view, txid => (view.coins txid, db view)
  | cache top base, txid =>
    match top.cacheCoins txid with
    | some entry => (some entry.coins, cache top base)
    | none =>
      match getCoins base txid with
      | (none, base) => (none, cache top base)
      | (some coins, base) =>
        (some coins, cache (top.setEntry txid ⟨coins, false, coins.isPruned⟩) base)

/-- `HaveCoins`. -/
def haveCoins : CoinsStack → Hash → Bool × CoinsStack
  | db view, txid => ((view.coins txid).isSome, db view)
  | cache top base, txid =>
    let (found, stack) := getCoins (cache top base) txid
    (found.any fun coins => coins.vout ≠ .empty, stack)

/-- `GetBestBlock`. -/
def getBestBlock : CoinsStack → Hash × CoinsStack
  | db view => (view.bestBlock, db view)
  | cache top base =>
    if top.hashBlock = 0 then
      let (hashBlock, base) := getBestBlock base
      (hashBlock, cache { top with hashBlock } base)
    else (top.hashBlock, cache top base)

/-- The cache and its base behind the insertion of `ModifyCoins`. -/
def insertEntry (top : CCoinsViewCache) (base : CoinsStack) (txid : Hash) :
    CCoinsViewCache × CoinsStack :=
  match top.cacheCoins txid with
  | some entry => (top.setEntry txid { entry with dirty := true }, base)
  | none =>
    match base.getCoins txid with
    | (none, base) => (top.setEntry txid ⟨.clear, true, true⟩, base)
    | (some coins, base) => (top.setEntry txid ⟨coins, true, coins.isPruned⟩, base)

/-- `ModifyCoins`. -/
def modifyCoins (top : CCoinsViewCache) (base : CoinsStack) (txid : Hash) : Option CoinsStack :=
  if top.hasModifier then none
  else
    let (top, base) := insertEntry top base txid
    (top.openModifier txid).map fun top => cache top base

/-- `BatchWrite` of a view. -/
def batchWrite (stack : CoinsStack) (mapCoins : CCoinsMap) (order : List Hash)
    (hashBlock : Hash) : Option CoinsStack :=
  match stack with
  | db view => some (db (view.batchWrite mapCoins order hashBlock))
  | cache top base =>
    (top.batchWrite mapCoins order hashBlock).map fun top => cache top base

/-- `Flush`. -/
def flush (top : CCoinsViewCache) (base : CoinsStack) (order : List Hash) : Option CoinsStack :=
  (base.batchWrite top.cacheCoins order top.hashBlock).map fun base =>
    cache { top with cacheCoins := fun _ => none } base

end CoinsStack

/-- What is called on a view. -/
inductive CoinsAction where
  | getCoins (txid : Hash)
  | haveCoins (txid : Hash)
  | getBestBlock
  | setBestBlock (hashBlock : Hash)
  | modifyCoins (txid : Hash)
  | edit (txid : Hash) (change : CCoins → CCoins)
  | closeModifier
  | flush (order : List Hash)

namespace CoinsAction

open CoinsStack

/-- Perform an action on a view. -/
def perform : CoinsAction → CoinsStack → Option CoinsStack
  | getCoins txid, stack => some (stack.getCoins txid).2
  | haveCoins txid, stack => some (stack.haveCoins txid).2
  | getBestBlock, stack => some stack.getBestBlock.2
  | setBestBlock hashBlock, cache top base => some (cache { top with hashBlock } base)
  | modifyCoins txid, cache top base => CoinsStack.modifyCoins top base txid
  | edit txid change, cache top base => (top.edit txid change).map fun top => cache top base
  | closeModifier, cache top base => top.closeModifier.map fun top => cache top base
  | flush order, cache top base => CoinsStack.flush top base order
  | _, db _ => none

/-- Perform an action on the view under a number of caches. -/
def performAt (action : CoinsAction) : Nat → CoinsStack → Option CoinsStack
  | 0, stack => action.perform stack
  | depth + 1, cache top base => (action.performAt depth base).map (cache top)
  | _ + 1, db _ => none

/-- What an action does to coins that nothing caches. -/
def overlay : CoinsAction → (Hash → CCoins) → Hash → CCoins
  | edit txid change, coins => Function.update coins txid (change (coins txid))
  | _, coins => coins

end CoinsAction

/-- Perform actions, each on the view under a number of caches. -/
def CoinsStack.run (actions : List (Nat × CoinsAction)) (stack : CoinsStack) :
    Option CoinsStack :=
  actions.foldlM (fun stack action => action.2.performAt action.1 stack) stack

/-- The plain overlay of the edits on coins. -/
def overlayOf (actions : List (Nat × CoinsAction)) (coins : Hash → CCoins) : Hash → CCoins :=
  actions.foldl (fun coins action => action.2.overlay coins) coins

end HdacNode
