import HdacNode.EntityRuns

/-!
# Unique keys of the entity store

In every careful run an insertion is refused with the store unchanged, or makes all keys of
the new entity lead to it and leaves what all other keys lead to.  As long as the rollbacks
of the run keep the keys of the rows that stay, no two live entities share a key.
-/

namespace HdacNode

namespace AssetDB

/-- The entities of the memory pool and of the ledger. -/
def liveEntities (s : AssetDB) : List EntityRow :=
  (s.memPool.rows ++ s.ledgerLog).filter fun row => row.key.isTxid && !row.isFollowOn

/-- How the insertion of an entity ends: it is refused because a key is known, it is a test
that finds no key, or the keys lead to the new row and all other keys where they led. -/
def InsertsAtomically (s next : AssetDB) (row : EntityRow) (updateMemPool : Bool)
    (err : Option McError) : Prop :=
  (err = some .found ∧ next = s) ∨
  (err = none ∧ updateMemPool = false ∧ next = s ∧
    ∀ key ∈ (EntityDetails.ofRow row).newKeys, s.getEntity key = none) ∨
  (err = none ∧ updateMemPool = true ∧
    (∀ key ∈ (EntityDetails.ofRow row).newKeys, next.getEntity key = some row) ∧
    ∀ key, key ∉ (EntityDetails.ofRow row).newKeys → next.getEntity key = s.getEntity key)

/-- No two live entities share a key, and each of their keys leads to them. -/
structure UniqueKeys (s : AssetDB) : Prop where
  nodup : (s.liveEntities.flatMap fun row => (EntityDetails.ofRow row).newKeys).Nodup
  resolves : ∀ row ∈ s.liveEntities, ∀ key ∈ (EntityDetails.ofRow row).newKeys,
    ∃ found, s.getEntity key = some found ∧ { found with chainPos := row.chainPos } = row

variable {s next : AssetDB} {log : List EntityRow} {items : List EntityItem}

theorem Inserts.atomically {item : EntityItem} {updateMemPool : Bool} {err : Option McError}
    (tracks : s.Tracks log items) (inserts : s.Inserts next log items item updateMemPool err)
    {txid : Bytes} (key : item.row.key = .txid txid false) :
    s.InsertsAtomically next item.row updateMemPool err := by
  have isEntity : item.row.isFollowOn = false := by
    unfold EntityRow.isFollowOn
    rw [key]
    rfl
  have keysEq := EntityRow.ownKeys_of_entity isEntity
  rcases inserts with ⟨errEq, same⟩ |
    ⟨errEq, unknown, ⟨update, same⟩ | ⟨update, sameFiles, -, nextTracks⟩⟩
  · exact .inl ⟨errEq, same⟩
  · rw [keysEq] at unknown
    exact .inr (.inl ⟨errEq, update, same, unknown⟩)
  · refine .inr (.inr ⟨errEq, update, ?_, ?_⟩) <;> rw [← keysEq]
    · exact fun key own => nextTracks.getEntity_of_item (List.mem_cons_self ..) own
    · exact fun key notOwn => tracks.getEntity_frame nextTracks sameFiles notOwn

theorem Tracks.mem_liveEntities (tracks : s.Tracks log items) {row : EntityRow}
    (live : row ∈ s.liveEntities) :
    row.isFollowOn = false ∧ (row ∈ log ∨ ∃ item ∈ items, item.row = row) := by
  unfold liveEntities at live
  rw [tracks.ledgerLog_eq, tracks.poolEq] at live
  obtain ⟨member, filtered⟩ := List.mem_filter.1 live
  obtain ⟨isTxid, notFollowOn⟩ := Bool.and_eq_true_iff.1 filtered
  rw [Bool.not_eq_true'] at notFollowOn
  refine ⟨notFollowOn, ?_⟩
  rcases List.mem_append.1 member with inPool | inLog
  · right
    obtain ⟨item, inItems, key, own, rowEq⟩ := mem_poolRows.1 inPool
    refine ⟨item, inItems, ?_⟩
    have itemTxid := (tracks.forecast.waits_of_mem inItems).isTxid
    obtain ⟨otherKeys, ownKeys, noTxid⟩ := ownKeys_eq_cons itemTxid
    rw [ownKeys] at own
    rcases List.mem_cons.1 own with same | other
    · rw [← rowEq, same]
    · rw [← rowEq] at isTxid
      exact absurd ((noTxid key other).symm.trans isTxid) Bool.false_ne_true
  · exact .inl inLog

theorem Tracks.nodup_liveEntities (tracks : s.Tracks log items) : s.liveEntities.Nodup := by
  unfold liveEntities
  apply List.Nodup.filter
  rw [tracks.ledgerLog_eq]
  refine List.Nodup.append tracks.nodup_keys.of_map tracks.rows.nodup ?_
  intro row inPool inLog
  rw [tracks.poolEq] at inPool
  obtain ⟨item, inItems, key, -, rowEq⟩ := mem_poolRows.1 inPool
  have unplaced := (tracks.forecast.waits_of_mem inItems).unplaced
  have placed := (tracks.rows.place_of_mem inLog).1
  have positive : 0 < entityTotalSize := entityShape.base_pos
  rw [← rowEq] at placed
  change _ ≤ item.row.chainPos at placed
  omega

theorem Tracks.uniqueKeys (tracks : s.Tracks log items)
    (known : KnowsKeys (fun _ => True) s.database.read log) : s.UniqueKeys := by
  have resolves : ∀ row ∈ s.liveEntities, ∀ key ∈ (EntityDetails.ofRow row).newKeys,
      (row ∈ log ∧ key ∈ row.ownKeys ∧
        s.getEntity key = some { row with chainPos := chainEnd log row.chainPos }) ∨
      (s.database.read key = none ∧ s.getEntity key = some row) := by
    intro row live key own
    obtain ⟨isEntity, inLog | ⟨item, inItems, rfl⟩⟩ := tracks.mem_liveEntities live
    · rw [← EntityRow.ownKeys_of_entity isEntity] at own
      exact .inl ⟨inLog, own, tracks.getEntity_of_known known inLog own trivial⟩
    · rw [← EntityRow.ownKeys_of_entity isEntity] at own
      exact .inr ⟨tracks.fresh.unrecorded item inItems key own,
        tracks.getEntity_of_item inItems own⟩
  refine ⟨List.nodup_flatMap.2 ⟨?_, ?_⟩, ?_⟩
  · exact fun row _ => EntityDetails.nodup_newKeys _ fun ref found => EntityDetails.ref_ofRow found
  · apply tracks.nodup_liveEntities.pairwise_of_forall_ne
    intro row live other otherLive different key own otherOwn
    rcases resolves row live key own with ⟨inLog, ownKey, found⟩ | ⟨unrecorded, found⟩ <;>
      rcases resolves other otherLive key otherOwn with ⟨otherIn, otherKey, otherFound⟩ |
        ⟨otherUnrecorded, otherFound⟩
    · exact different (known.distinct row inLog other otherIn key ownKey otherKey trivial)
    · exact known.complete row inLog key ownKey trivial otherUnrecorded
    · exact known.complete other otherIn key otherKey trivial unrecorded
    · exact different (Option.some.inj (found.symm.trans otherFound))
  · intro row live key own
    rcases resolves row live key own with ⟨-, -, found⟩ | ⟨-, found⟩
    · exact ⟨_, found, rfl⟩
    · exact ⟨_, found, rfl⟩

instance decidableKeepsKeys (rest : List EntityRow) :
    ∀ segment, Decidable (KeepsKeys (fun _ => True) rest segment)
  | [] => isTrue trivial
  | _ :: segment =>
      have := decidableKeepsKeys rest segment
      inferInstanceAs (Decidable (_ ∧ _))

instance (s : AssetDB) : ∀ call, Decidable (s.KeepingCall call)
  | .rollBack _ => inferInstanceAs (Decidable (KeepsKeys _ _ _))
  | .insertEntity .. => isTrue trivial
  | .insertAsset .. => isTrue trivial
  | .insertAssetFollowOn .. => isTrue trivial
  | .clearMemPool => isTrue trivial
  | .commit => isTrue trivial

/-- Two streams and an asset of which a rollback leaves the first stream, and a waiting asset. -/
def insertingRun : List EntityCall :=
  [.insertEntity (List.replicate 32 1) 81 mcEntTypeStream
      (specialParamValue mcEntSprmName [0x65, 0]) [] true, .commit,
    .insertEntity (List.replicate 32 2) 81 mcEntTypeStream [] [] true,
    .insertAsset (List.replicate 32 3) 181 5 [0x42, 0x62] 1 [] [] true, .commit, .rollBack 0,
    .insertAsset (List.replicate 32 4) 81 5 [0x62, 0x62] 1 [] [] true]

end AssetDB

end HdacNode
