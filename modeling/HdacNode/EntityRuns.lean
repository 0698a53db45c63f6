import HdacNode.EntityInsertions

/-!
# Runs of the entity store

A run is careful if its commits come without unconfirmed rows and its follow-ons go to
entities whose first position names them.  Every store that a careful run reaches tracks a
log.
-/

namespace HdacNode

namespace AssetDB

/-- A condition on the calls of a run and on the stores before them. -/
def Along (condition : AssetDB → EntityCall → Prop) (s : AssetDB) : List EntityCall → Prop
  | [] => True
  | call :: calls => condition s call ∧
      match s.callOutcome call with
      | .fault => True
      | .ended _ next => next.Along condition calls

/-- The rows of the ledger, newest first. -/
def ledgerLog (s : AssetDB) : List EntityRow :=
  entityShape.rowsFrom s.ledger (s.prevPos.toNat + 1) s.prevPos

/-- A commit comes without unconfirmed rows, and a follow-on goes to an entity whose first
position names it. -/
def CarefulCall (s : AssetDB) : EntityCall → Prop
  | .insertAssetFollowOn _ _ _ _ _ originalTxid _ => s.FollowsOwnChain originalTxid
  | .commit => s.Confirmed
  | _ => True

/-- The rows that a rollback undoes have kept the keys of the rows that stay. -/
def KeepsKeysTo (s : AssetDB) (block : Int) : Prop :=
  KeepsKeys (fun _ => True) (rowsUpTo block s.ledgerLog) (rowsAbove block s.ledgerLog)

/-- A rollback keeps the keys of the rows that stay. -/
def KeepingCall (s : AssetDB) : EntityCall → Prop
  | .rollBack block => s.KeepsKeysTo block
  | _ => True

instance (s : AssetDB) : ∀ call, Decidable (s.CarefulCall call)
  | .insertEntity .. => isTrue trivial
  | .insertAsset .. => isTrue trivial
  | .insertAssetFollowOn _ _ _ _ _ originalTxid _ =>
      inferInstanceAs (Decidable (s.FollowsOwnChain originalTxid))
  | .clearMemPool => isTrue trivial
  | .commit => inferInstanceAs (Decidable s.Confirmed)
  | .rollBack _ => isTrue trivial

instance decidableAlong (condition : AssetDB → EntityCall → Prop)
    [∀ s call, Decidable (condition s call)] :
    ∀ (calls : List EntityCall) (s : AssetDB), Decidable (s.Along condition calls)
  | [], _ => isTrue trivial
  | call :: calls, s =>
      match ended : s.callOutcome call with
      | .fault => decidable_of_iff (condition s call) (by simp [Along, ended])
      | .ended _ next =>
          have := decidableAlong condition calls next
          decidable_of_iff (condition s call ∧ next.Along condition calls) (by simp [Along, ended])

variable {s next : AssetDB} {log : List EntityRow} {items : List EntityItem}

theorem after_cons (call : EntityCall) (calls : List EntityCall) (s : AssetDB) :
    s.after (call :: calls) =
      match s.callOutcome call with
      | .fault => none
      | .ended _ next => next.after calls :=
  rfl

theorem after_append (first second : List EntityCall) (s : AssetDB) :
    s.after (first ++ second) = (s.after first).bind fun middle => middle.after second := by
  induction first generalizing s with
  | nil => rfl
  | cons call first ih =>
      rw [List.cons_append, after_cons, after_cons]
      cases s.callOutcome call with
      | fault => rfl
      | ended err next => exact ih next

theorem Along.of_append {condition : AssetDB → EntityCall → Prop} {first second : List EntityCall}
    (along : s.Along condition (first ++ second)) :
    s.Along condition first ∧
      ∀ middle, s.after first = some middle → middle.Along condition second := by
  induction first generalizing s with
  | nil => exact ⟨trivial, fun middle reached => Option.some.inj reached ▸ along⟩
  | cons call first ih =>
      obtain ⟨here, rest⟩ := along
      rw [after_cons]
      cases ended : s.callOutcome call with
      | fault =>
          refine ⟨⟨here, ?_⟩, fun middle reached => by cases reached⟩
          rw [ended]
          trivial
      | ended err next =>
          rw [ended] at rest
          refine ⟨⟨here, ?_⟩, (ih rest).2⟩
          rw [ended]
          exact (ih rest).1

theorem Tracks.ledgerLog_eq (tracks : s.Tracks log items) : s.ledgerLog = log := by
  unfold ledgerLog
  rw [tracks.prevPos]
  exact tracks.chain.rowsFrom_lastPos tracks.chain.length_lt_lastPos

theorem Inserts.tracks {item : EntityItem} {updateMemPool : Bool} {err : Option McError}
    (tracks : s.Tracks log items) (inserts : s.Inserts next log items item updateMemPool err) :
    next.toEntityFiles = s.toEntityFiles ∧ ∃ newItems, next.Tracks log newItems := by
  rcases inserts with ⟨-, rfl⟩ | ⟨-, -, ⟨-, rfl⟩ | ⟨-, sameFiles, -, nextTracks⟩⟩
  · exact ⟨rfl, items, tracks⟩
  · exact ⟨rfl, items, tracks⟩
  · exact ⟨sameFiles, item :: items, nextTracks⟩

/-- What a call of a careful run does to the log. -/
inductive LogStep (s next : AssetDB) (log : List EntityRow) : EntityCall → List EntityRow → Prop
  | stays (call : EntityCall) (sameFiles : next.toEntityFiles = s.toEntityFiles) :
      LogStep s next log call log
  | commits (newer : List EntityRow) (blocks : ∀ row ∈ newer, row.block = s.block + 1)
      (block : next.block = s.block + 1)
      (knows : ∀ keys, KnowsKeys keys s.database.read log →
        KnowsKeys keys next.database.read (newer ++ log)) :
      LogStep s next log .commit (newer ++ log)
  | rollsBack (block : Int) (reached : next.block = block) (namesFit : NamesFit block log)
      (knows : ∀ keys, KnowsKeys keys s.database.read log →
        (KnowsKeys keys next.database.read (rowsUpTo block log) ↔
          KeepsKeys keys (rowsUpTo block log) (rowsAbove block log))) :
      LogStep s next log (.rollBack block) (rowsUpTo block log)

/-- Every call of a careful run leaves a store that tracks a log. -/
theorem Tracks.callOutcome (tracks : s.Tracks log items) {call : EntityCall}
    (careful : s.CarefulCall call) {err : Option McError}
    (ended : s.callOutcome call = .ended err next) :
    ∃ newLog newItems, next.Tracks newLog newItems ∧ LogStep s next log call newLog := by
  cases call with
  | insertEntity txid offset entityType script specialScript updateMemPool =>
      rcases tracks.insertEntity ended with ⟨-, rfl, -⟩ |
        ⟨item, -, -, -, inserts⟩
      · exact ⟨log, items, tracks, .stays _ rfl⟩
      · obtain ⟨sameFiles, newItems, nextTracks⟩ := inserts.tracks tracks
        exact ⟨log, newItems, nextTracks, .stays _ sameFiles⟩
  | insertAsset txid offset quantity name multiple script specialScript updateMemPool =>
      obtain ⟨item, -, -, inserts⟩ := tracks.insertAsset ended
      obtain ⟨sameFiles, newItems, nextTracks⟩ := inserts.tracks tracks
      exact ⟨log, newItems, nextTracks, .stays _ sameFiles⟩
  | insertAssetFollowOn txid offset quantity script specialScript originalTxid updateMemPool =>
      rcases tracks.insertAssetFollowOn careful ended with ⟨-, rfl⟩ |
        ⟨genesis, item, -, -, -, -, -, inserts⟩
      · exact ⟨log, items, tracks, .stays _ rfl⟩
      · obtain ⟨sameFiles, newItems, nextTracks⟩ := inserts.tracks tracks
        exact ⟨log, newItems, nextTracks, .stays _ sameFiles⟩
  | clearMemPool =>
      obtain ⟨cleared, sameFiles, -⟩ := tracks.clearMemPool
      injection ended with _ nextEq
      rw [← nextEq]
      exact ⟨log, [], cleared, .stays _ sameFiles⟩
  | commit =>
      obtain ⟨committed, commitEq, nextTracks, block, knows⟩ := tracks.commit careful
      change s.commit = .ended err next at ended
      rw [commitEq] at ended
      injection ended with _ nextEq
      rw [← nextEq]
      exact ⟨_, [], nextTracks, .commits _ (fun row member => tracks.block_of_mem_places member)
        block knows⟩
  | rollBack block =>
      change s.rollBack block = .ended err next at ended
      rcases tracks.rollBack block with ⟨fault, -⟩ | ⟨kept, rollEq, fits, nextTracks, reached, knows⟩
      · rw [fault] at ended
        cases ended
      · rw [rollEq] at ended
        injection ended with _ nextEq
        rw [← nextEq]
        exact ⟨_, [], nextTracks, .rollsBack block reached fits knows⟩

/-- Every careful run leaves a store that tracks a log. -/
theorem Tracks.after (tracks : s.Tracks log items) {calls : List EntityCall}
    (careful : s.Along CarefulCall calls) (reached : s.after calls = some next) :
    ∃ newLog newItems, next.Tracks newLog newItems := by
  induction calls generalizing s log items with
  | nil => exact ⟨log, items, Option.some.inj reached ▸ tracks⟩
  | cons call calls ih =>
      obtain ⟨carefulCall, carefulRest⟩ := careful
      unfold AssetDB.after at reached
      cases ended : s.callOutcome call with
      | fault =>
          rw [ended] at reached
          cases reached
      | ended err middle =>
          rw [ended] at reached carefulRest
          obtain ⟨middleLog, middleItems, middleTracks, -⟩ := tracks.callOutcome carefulCall ended
          exact ih middleTracks carefulRest reached

theorem Tracks.after_knows (tracks : s.Tracks log items)
    (known : KnowsKeys (fun _ => True) s.database.read log) {calls : List EntityCall}
    (careful : s.Along CarefulCall calls) (keeping : s.Along KeepingCall calls)
    (reached : s.after calls = some next) :
    ∃ newLog newItems, next.Tracks newLog newItems ∧
      KnowsKeys (fun _ => True) next.database.read newLog := by
  induction calls generalizing s log items with
  | nil => exact ⟨log, items, Option.some.inj reached ▸ ⟨tracks, known⟩⟩
  | cons call calls ih =>
      obtain ⟨carefulCall, carefulRest⟩ := careful
      obtain ⟨keepingCall, keepingRest⟩ := keeping
      unfold AssetDB.after at reached
      cases ended : s.callOutcome call with
      | fault =>
          rw [ended] at reached
          cases reached
      | ended err middle =>
          rw [ended] at reached carefulRest keepingRest
          obtain ⟨middleLog, middleItems, middleTracks, step⟩ := tracks.callOutcome carefulCall ended
          have middleKnown : KnowsKeys (fun _ => True) middle.database.read middleLog := by
            cases step with
            | stays _ sameFiles =>
                rw [sameFiles]
                exact known
            | commits newer _ _ knows => exact knows _ known
            | rollsBack block _ _ knows =>
                change KeepsKeysTo s block at keepingCall
                unfold KeepsKeysTo at keepingCall
                rw [tracks.ledgerLog_eq] at keepingCall
                exact (knows _ known).2 keepingCall
          exact ih middleTracks middleKnown carefulRest keepingRest reached

theorem knowsKeys_initial (keys : EntityKey → Prop) :
    KnowsKeys keys initial.database.read [] :=
  ⟨fun _ member => absurd member List.not_mem_nil, fun _ member => absurd member List.not_mem_nil⟩

end AssetDB

end HdacNode
