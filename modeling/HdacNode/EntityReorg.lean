import HdacNode.EntityRuns

/-!
# Reorganisations of the entity store

A rollback takes the store back to what it was right after the commit of a block, if the
names in the undone scripts fit and the undone rows keep the keys of the rows that stay.  A
follow-on whose details hold the name of another entity does not: the name of that entity is
gone after its rollback.
-/

namespace HdacNode

namespace EntityCall

/-- The calls that connect blocks: insertions and commits. -/
def connects : EntityCall → Bool
  | .clearMemPool => false
  | .rollBack _ => false
  | _ => true

end EntityCall

namespace AssetDB

/-- All that a query or a later call sees is what it was in another store. -/
structure RestoredTo (next s : AssetDB) : Prop where
  records : ∀ key, next.database.read key = s.database.read key
  entities : ∀ key, key ≠ .zero → next.getEntity key = s.getEntity key
  findable : ∀ key, key ≠ .zero →
    (next.getEntity key ≠ none ↔ ∃ row ∈ s.ledgerLog, key ∈ row.ownKeys)
  ledgerLog : next.ledgerLog = s.ledgerLog
  block : next.block = s.block
  prevPos : next.prevPos = s.prevPos
  pos : next.pos = s.pos

variable {s next : AssetDB} {log : List EntityRow} {items : List EntityItem}

theorem Tracks.after_connects (tracks : s.Tracks log items)
    (known : KnowsKeys (fun _ => True) s.database.read log) {calls : List EntityCall}
    (connects : ∀ call ∈ calls, call.connects = true) (careful : s.Along CarefulCall calls)
    (reached : s.after calls = some next) :
    ∃ newer newItems, next.Tracks (newer ++ log) newItems ∧
      KnowsKeys (fun _ => True) next.database.read (newer ++ log) ∧
      s.block ≤ next.block ∧ ∀ row ∈ newer, s.block < row.block := by
  induction calls generalizing s log items with
  | nil =>
      obtain rfl := Option.some.inj reached
      exact ⟨[], items, tracks, known, le_rfl, fun _ member => absurd member List.not_mem_nil⟩
  | cons call calls ih =>
      obtain ⟨carefulCall, carefulRest⟩ := careful
      have connectsCall := connects call (List.mem_cons_self ..)
      have connectsRest : ∀ other ∈ calls, other.connects = true := fun other member =>
        connects other (List.mem_cons_of_mem _ member)
      unfold AssetDB.after at reached
      cases ended : s.callOutcome call with
      | fault =>
          rw [ended] at reached
          cases reached
      | ended err middle =>
          rw [ended] at reached carefulRest
          obtain ⟨middleLog, middleItems, middleTracks, step⟩ := tracks.callOutcome carefulCall ended
          cases step with
          | stays _ sameFiles =>
              have sameBlock : middle.block = s.block := by
                have zeroRow := middleTracks.zeroRow
                rw [sameFiles, tracks.zeroRow] at zeroRow
                exact (EntityDBRow.mk.inj (Option.some.inj zeroRow)).1.symm
              have middleKnown : KnowsKeys (fun _ => True) middle.database.read log := by
                rw [sameFiles]
                exact known
              rw [← sameBlock]
              exact ih middleTracks middleKnown connectsRest carefulRest reached
          | commits placed blocks block knows =>
              obtain ⟨newer, newItems, newTracks, newKnown, blockLe, above⟩ :=
                ih middleTracks (knows _ known) connectsRest carefulRest reached
              refine ⟨newer ++ placed, newItems, ?_, ?_, by omega, ?_⟩
              · rw [List.append_assoc]
                exact newTracks
              · rw [List.append_assoc]
                exact newKnown
              · intro row member
                rcases List.mem_append.1 member with inNewer | inPlaced
                · have := above row inNewer
                  omega
                · have := blocks row inPlaced
                  omega
          | rollsBack block _ _ _ => cases connectsCall

theorem rowsAbove_append {block : Int} {newer : List EntityRow}
    (above : ∀ row ∈ newer, block < row.block) (low : ∀ row ∈ log, row.block ≤ block) :
    rowsAbove block (newer ++ log) = newer ∧ rowsUpTo block (newer ++ log) = log := by
  have allAbove : ∀ row ∈ newer, decide (block < row.block) = true := fun row member =>
    decide_eq_true (above row member)
  unfold rowsAbove rowsUpTo
  rw [List.takeWhile_append_of_pos allAbove, List.dropWhile_append_of_pos allAbove]
  cases log with
  | nil => exact ⟨List.append_nil _, rfl⟩
  | cons row log =>
      have notAbove : ¬ decide (block < row.block) = true := by
        have := low row (List.mem_cons_self ..)
        rw [decide_eq_true_eq]
        omega
      rw [List.takeWhile_cons, List.dropWhile_cons, if_neg notAbove, if_neg notAbove,
        List.append_nil]
      exact ⟨rfl, rfl⟩

theorem Tracks.restoredTo (tracks : next.Tracks log []) (known : KnowsKeys (fun _ => True)
    next.database.read log) (other : s.Tracks log []) (otherKnown : KnowsKeys (fun _ => True)
    s.database.read log) (block : next.block = s.block) : next.RestoredTo s := by
  have records : ∀ key, key ≠ .zero → next.database.read key = s.database.read key := by
    intro key notZero
    by_cases owned : ∃ row ∈ log, key ∈ row.ownKeys
    · obtain ⟨row, inLog, own⟩ := owned
      rw [tracks.sound.eq_some tracks.rows known.complete known.distinct inLog own trivial,
        other.sound.eq_some other.rows otherKnown.complete otherKnown.distinct inLog own trivial]
    · push Not at owned
      rw [tracks.sound.eq_none notZero owned, other.sound.eq_none notZero owned]
  have found : ∀ {store : AssetDB}, store.Tracks log [] →
      KnowsKeys (fun _ => True) store.database.read log → ∀ {key}, key ≠ .zero →
      ∀ row ∈ log, key ∈ row.ownKeys →
        store.getEntity key = some { row with chainPos := chainEnd log row.chainPos } :=
    fun storeTracks storeKnown _ _ row inLog own =>
      storeTracks.getEntity_of_known storeKnown inLog own trivial
  have notFound : ∀ {store : AssetDB}, store.Tracks log [] → ∀ {key}, key ≠ .zero →
      (∀ row ∈ log, key ∉ row.ownKeys) → store.getEntity key = none := by
    intro store storeTracks key notZero unowned
    rcases storeTracks.getEntity_cases notZero with ⟨-, row, inLog, own, -⟩ |
      ⟨-, item, member, -, -⟩ | ⟨-, -, answer⟩
    · exact absurd own (unowned row inLog)
    · cases member
    · exact answer
  refine ⟨?_, ?_, ?_, ?_, block, tracks.prevPos.trans other.prevPos.symm,
    tracks.endPos.trans other.endPos.symm⟩
  · intro key
    by_cases isZero : key = .zero
    · rw [isZero, tracks.zeroRow, other.zeroRow, block]
    · exact records key isZero
  · intro key notZero
    by_cases owned : ∃ row ∈ log, key ∈ row.ownKeys
    · obtain ⟨row, inLog, own⟩ := owned
      rw [found tracks known notZero row inLog own, found other otherKnown notZero row inLog own]
    · push Not at owned
      rw [notFound tracks notZero owned, notFound other notZero owned]
  · intro key notZero
    rw [other.ledgerLog_eq]
    constructor
    · intro isFound
      by_contra unowned
      push Not at unowned
      exact isFound (notFound tracks notZero unowned)
    · rintro ⟨row, inLog, own⟩
      rw [found tracks known notZero row inLog own]
      exact Option.some_ne_none _
  · rw [tracks.ledgerLog_eq, other.ledgerLog_eq]

/-- After every run that connects blocks with any details scripts, a rollback to the height of
an earlier block restores the store that its commit had left, exactly when the names that it
reads fit and the undone rows keep the keys of the rows that stay. -/
theorem entityRollBack_restores_iff (earlier later : List EntityCall) (committed s : AssetDB)
    (connects : ∀ call ∈ earlier ++ later, call.connects = true)
    (reached : initial.after (earlier ++ [.commit]) = some committed)
    (careful : initial.Along CarefulCall (earlier ++ [.commit]))
    (continued : committed.after later = some s) (carefulLater : committed.Along CarefulCall later) :
    (∃ next, s.rollBack committed.block = .ended none next ∧ next.RestoredTo committed) ↔
      NamesFit committed.block s.ledgerLog ∧ s.KeepsKeysTo committed.block := by
  rw [after_append] at reached
  obtain ⟨middle, reachedMiddle, last⟩ := Option.bind_eq_some_iff.1 reached
  obtain ⟨carefulEarlier, carefulCommit⟩ := careful.of_append
  obtain ⟨log, items, middleTracks, middleKnown, -, -⟩ :=
    tracks_initial.after_connects (knowsKeys_initial _)
      (fun call member => connects call (List.mem_append_left _ member)) carefulEarlier reachedMiddle
  obtain ⟨next, commitEq, tracks, -, knows⟩ :=
    middleTracks.commit (carefulCommit middle reachedMiddle).1
  obtain rfl : next = committed := by
    unfold AssetDB.after callOutcome at last
    rw [commitEq] at last
    exact Option.some.inj last
  have known := knows _ middleKnown
  rw [List.append_nil] at tracks known
  generalize places items ++ log = base at tracks known
  obtain ⟨newer, newItems, newTracks, newKnown, -, above⟩ :=
    tracks.after_connects known
      (fun call member => connects call (List.mem_append_right _ member)) carefulLater continued
  obtain ⟨aboveEq, upToEq⟩ := rowsAbove_append above tracks.blocks_le
  unfold KeepsKeysTo
  rw [newTracks.ledgerLog_eq, aboveEq, upToEq]
  rcases newTracks.rollBack next.block with ⟨fault, notFits⟩ |
    ⟨restored, rollEq, fits, restoredTracks, block, knows⟩
  · constructor
    · rintro ⟨restored, ended, -⟩
      rw [fault] at ended
      cases ended
    · rintro ⟨fits, -⟩
      exact absurd fits notFits
  · have knowsAgain := knows _ newKnown
    rw [aboveEq, upToEq] at knowsAgain
    rw [upToEq] at restoredTracks
    constructor
    · rintro ⟨other, ended, restoredTo⟩
      rw [rollEq] at ended
      injection ended with _ same
      subst same
      refine ⟨fits, knowsAgain.1 ⟨?_, known.distinct⟩⟩
      intro row inLog key own _
      rw [restoredTo.records]
      exact known.complete row inLog key own trivial
    · rintro ⟨-, keeps⟩
      exact ⟨restored, rollEq, restoredTracks.restoredTo (knowsAgain.2 keeps) tracks known block⟩

/-- A block with an asset that allows follow-ons and a stream. -/
def namedBlock : List EntityCall :=
  [.insertAsset (List.replicate 32 1) 81 5 [] 1 (specialParamValue mcEntSprmFollowOns [1]) [] true,
    .insertEntity (List.replicate 32 2) 181 mcEntTypeStream
      (specialParamValue mcEntSprmName [0x62, 0]) [] true]

/-- A block with a follow-on of the asset whose details hold a name. -/
def followOnBlock (name : Bytes) : List EntityCall :=
  [.insertAssetFollowOn (List.replicate 32 3) 81 7 (specialParamValue mcEntSprmName name) []
    (List.replicate 32 1) true, .commit]

/-- The rollback to a committed store loses a key that this store finds. -/
private def losesKey (committed s : AssetDB) (key : EntityKey) : Bool :=
  match s.rollBack committed.block with
  | .ended none next => (committed.getEntity key).isSome && (next.getEntity key).isNone
  | _ => false

/-- The rollback of a follow-on whose details hold the name of a stream takes the name of the
stream away. -/
theorem followOnName_is_lost :
    DetailsScript.verify (specialParamValue mcEntSprmName [0x62, 0]) = true ∧
    ∃ committed s next, initial.after (namedBlock ++ [.commit]) = some committed ∧
      committed.after (followOnBlock [0x62, 0]) = some s ∧
      s.rollBack committed.block = .ended none next ∧
      committed.getEntity (nameKey [0x62, 0]) ≠ none ∧
      next.getEntity (nameKey [0x62, 0]) = none ∧ ¬ next.RestoredTo committed := by
  have lost : ((initial.after (namedBlock ++ [.commit])).bind fun committed =>
      (committed.after (followOnBlock [0x62, 0])).map fun s =>
        losesKey committed s (nameKey [0x62, 0])) = some true := by
    decide +kernel
  obtain ⟨committed, reached, lost⟩ := Option.bind_eq_some_iff.1 lost
  obtain ⟨s, continued, lost⟩ := Option.map_eq_some_iff.1 lost
  refine ⟨by decide +kernel, committed, s, ?_⟩
  unfold losesKey at lost
  split at lost
  · rename_i next rolledBack
    obtain ⟨known, gone⟩ := Bool.and_eq_true_iff.1 lost
    rw [Option.isNone_iff_eq_none] at gone
    have wasKnown : committed.getEntity (nameKey [0x62, 0]) ≠ none :=
      Option.isSome_iff_ne_none.1 known
    refine ⟨next, reached, continued, rolledBack, wasKnown, gone, fun restored => ?_⟩
    rw [restored.entities _ (fun impossible => by cases impossible)] at gone
    exact wasKnown gone
  · cases lost

/-- The rollback of a follow-on whose details hold a name of their own restores the store. -/
theorem rollBack_restores_followOnBlock :
    ∃ committed s, initial.after (namedBlock ++ [.commit]) = some committed ∧
      committed.after (followOnBlock [0x63, 0]) = some s ∧
      ((∃ next, s.rollBack committed.block = .ended none next ∧ next.RestoredTo committed) ↔
        NamesFit committed.block s.ledgerLog ∧ s.KeepsKeysTo committed.block) := by
  have ends : ((initial.after (namedBlock ++ [.commit])).bind fun committed =>
      (committed.after (followOnBlock [0x63, 0])).map fun _ =>
        decide (committed.Along CarefulCall (followOnBlock [0x63, 0]))) = some true := by
    decide +kernel
  obtain ⟨committed, reached, ends⟩ := Option.bind_eq_some_iff.1 ends
  obtain ⟨s, continued, careful⟩ := Option.map_eq_some_iff.1 ends
  exact ⟨committed, s, reached, continued, entityRollBack_restores_iff namedBlock
    (followOnBlock [0x63, 0]) committed s (by decide) reached (by decide +kernel) continued
    (of_decide_eq_true careful)⟩

end AssetDB

end HdacNode
