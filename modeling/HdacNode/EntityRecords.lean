import HdacNode.EntityBlocks
import HdacNode.EntityLogs

/-!
# Records of a log of entity rows

Records are sound for a log if each of them belongs to a row of the log that has its key,
and complete if each key of a row has one.  Placing a row behind a log and undoing the
newest row of a log both keep the records sound.  Undoing a follow-on takes all keys away
that its own script names, so the records of the rows that stay are complete again only
under a condition on those keys.
-/

namespace HdacNode

open AssetDB

/-- The records of a database, by their keys. -/
abbrev EntityRecords := EntityKey → Option EntityDBRow

/-- Each record belongs to a row with its key. -/
def SoundRecords (records : EntityRecords) (log : List EntityRow) : Prop :=
  ∀ key record, key ≠ .zero → records key = some record →
    ∃ row ∈ log, key ∈ row.ownKeys ∧ record = recordOf log row

/-- Each key of a row has a record, as far as the key is one of `keys`. -/
def CompleteRecords (keys : EntityKey → Prop) (records : EntityRecords) (log : List EntityRow) :
    Prop :=
  ∀ row ∈ log, ∀ key ∈ row.ownKeys, keys key → records key ≠ none

/-- No two rows share one of `keys`. -/
def DistinctKeys (keys : EntityKey → Prop) (log : List EntityRow) : Prop :=
  ∀ row ∈ log, ∀ other ∈ log, ∀ key ∈ row.ownKeys, key ∈ other.ownKeys → keys key → row = other

/-- The records after a row got its place behind a log. -/
def PlacedRecords (log : List EntityRow) (row genesis : EntityRow)
    (before records : EntityRecords) : Prop :=
  ∀ key, key ≠ .zero → records key =
    if key ∈ genesis.ownKeys then some (recordOf (row :: log) genesis)
    else if key ∈ row.ownKeys then some (recordOf (row :: log) row)
    else before key

/-- The keys of which the undo of a row takes the records away. -/
def takenKeys (row : EntityRow) : List EntityKey :=
  undoneKeys (EntityDetails.ofRow row)

/-- The records after the newest row of a log was undone. -/
def UndoneRecords (log : List EntityRow) (row genesis : EntityRow)
    (before records : EntityRecords) : Prop :=
  ∀ key, key ≠ .zero → records key =
    if row.isFollowOn = true ∧ key ∈ genesis.ownKeys then some (recordOf log genesis)
    else if key ∈ takenKeys row then none
    else before key

theorem mem_takenKeys_of_mem_ownKeys {row : EntityRow} (isTxid : row.key.isTxid = true)
    {key : EntityKey} (own : key ∈ row.ownKeys) : key ∈ takenKeys row := by
  cases followOn : row.isFollowOn with
  | true =>
      rw [EntityRow.ownKeys_of_followOn followOn] at own
      rw [List.mem_singleton.1 own]
      exact List.mem_cons_self ..
  | false =>
      rw [EntityRow.ownKeys_of_entity followOn] at own
      exact (EntityDetails.mem_entityKeys_iff (EntityRow.key_eq_txid isTxid followOn)).2 own

theorem ne_zero_of_mem_ownKeys {row : EntityRow} (isTxid : row.key.isTxid = true)
    {key : EntityKey} (own : key ∈ row.ownKeys) : key ≠ .zero :=
  EntityDetails.ne_zero_of_mem_entityKeys isTxid (mem_takenKeys_of_mem_ownKeys isTxid own)

namespace EntityLog

variable {log : List EntityRow} {row genesis : EntityRow}

/-- Rows of other entities keep their records when a row is placed or undone. -/
theorem recordOf_cons_of_notMem (rows : EntityLog (row :: log)) (inRows : genesis ∈ row :: log)
    (firstPos : row.firstPos = genesis.chainPos) {other : EntityRow} (inLog : other ∈ log)
    {key : EntityKey} (own : key ∈ other.ownKeys) (notOwn : key ∉ genesis.ownKeys) :
    recordOf (row :: log) other = recordOf log other := by
  apply recordOf_cons_of_ne
  intro same
  have equal := rows.chainPos_injective inRows (List.mem_cons_of_mem _ inLog)
    (firstPos.symm.trans same)
  rw [equal] at notOwn
  exact notOwn own

end EntityLog

section Placing

variable {log : List EntityRow} {row genesis : EntityRow} {before records : EntityRecords}

theorem SoundRecords.placed (sound : SoundRecords before log) (rows : EntityLog (row :: log))
    (inRows : genesis ∈ row :: log) (firstPos : row.firstPos = genesis.chainPos)
    (placed : PlacedRecords log row genesis before records) :
    SoundRecords records (row :: log) := by
  intro key record notZero found
  rw [placed key notZero] at found
  by_cases ofGenesis : key ∈ genesis.ownKeys
  · rw [if_pos ofGenesis] at found
    exact ⟨genesis, inRows, ofGenesis, (Option.some.inj found).symm⟩
  · rw [if_neg ofGenesis] at found
    by_cases own : key ∈ row.ownKeys
    · rw [if_pos own] at found
      exact ⟨row, List.mem_cons_self .., own, (Option.some.inj found).symm⟩
    · rw [if_neg own] at found
      obtain ⟨other, inLog, otherOwn, recordEq⟩ := sound key record notZero found
      refine ⟨other, List.mem_cons_of_mem _ inLog, otherOwn, ?_⟩
      rw [rows.recordOf_cons_of_notMem inRows firstPos inLog otherOwn ofGenesis]
      exact recordEq

theorem CompleteRecords.placed {keys : EntityKey → Prop} (complete : CompleteRecords keys before log)
    (rows : EntityLog (row :: log)) (placed : PlacedRecords log row genesis before records) :
    CompleteRecords keys records (row :: log) := by
  intro other inRows key own isKey
  rw [placed key (ne_zero_of_mem_ownKeys (rows.isTxid_of_mem inRows) own)]
  by_cases ofGenesis : key ∈ genesis.ownKeys
  · rw [if_pos ofGenesis]
    exact Option.some_ne_none _
  · rw [if_neg ofGenesis]
    by_cases ofRow : key ∈ row.ownKeys
    · rw [if_pos ofRow]
      exact Option.some_ne_none _
    · rw [if_neg ofRow]
      rcases List.mem_cons.1 inRows with rfl | inLog
      · exact absurd own ofRow
      · exact complete other inLog key own isKey

theorem DistinctKeys.cons {keys : EntityKey → Prop} (distinct : DistinctKeys keys log)
    (fresh : ∀ key ∈ row.ownKeys, keys key → ∀ other ∈ log, key ∉ other.ownKeys) :
    DistinctKeys keys (row :: log) := by
  intro first inRows second otherIn key own otherOwn isKey
  rcases List.mem_cons.1 inRows with rfl | inLog <;> rcases List.mem_cons.1 otherIn with rfl | inLog'
  · rfl
  · exact absurd otherOwn (fresh key own isKey second inLog')
  · exact absurd own (fresh key otherOwn isKey first inLog)
  · exact distinct first inLog second inLog' key own otherOwn isKey

theorem DistinctKeys.of_append {keys : EntityKey → Prop} {newer : List EntityRow}
    (distinct : DistinctKeys keys (newer ++ log)) : DistinctKeys keys log :=
  fun row inLog other otherIn => distinct row (List.mem_append_right _ inLog) other
    (List.mem_append_right _ otherIn)

/-- Records that are sound and complete for distinct keys are known exactly. -/
theorem SoundRecords.eq_some {keys : EntityKey → Prop} (sound : SoundRecords records log)
    (rows : EntityLog log) (complete : CompleteRecords keys records log)
    (distinct : DistinctKeys keys log) (inLog : row ∈ log) {key : EntityKey}
    (own : key ∈ row.ownKeys) (isKey : keys key) : records key = some (recordOf log row) := by
  cases found : records key with
  | none => exact absurd found (complete row inLog key own isKey)
  | some record =>
      obtain ⟨other, otherIn, otherOwn, recordEq⟩ :=
        sound key record (ne_zero_of_mem_ownKeys (rows.isTxid_of_mem inLog) own) found
      rw [recordEq, distinct row inLog other otherIn key own otherOwn isKey]

/-- A key that no row has is not in sound records. -/
theorem SoundRecords.eq_none (sound : SoundRecords records log) {key : EntityKey}
    (notZero : key ≠ .zero) (unowned : ∀ row ∈ log, key ∉ row.ownKeys) : records key = none := by
  cases found : records key with
  | none => rfl
  | some record =>
      obtain ⟨row, inLog, own, -⟩ := sound key record notZero found
      exact absurd own (unowned row inLog)

end Placing

section Undoing

variable {log : List EntityRow} {row genesis : EntityRow} {before records : EntityRecords}

theorem EntityLog.exists_undone_genesis (rows : EntityLog (row :: log)) :
    ∃ genesis ∈ row :: log, genesis.isFollowOn = false ∧ row.firstPos = genesis.chainPos ∧
      (row.isFollowOn = true → genesis ∈ log ∧ row.lastPos = chainEnd log genesis.chainPos) ∧
      (row.isFollowOn = false → genesis = row) := by
  cases followOn : row.isFollowOn with
  | true =>
      obtain ⟨genesis, inLog, isEntity, firstPos, lastPos⟩ := rows.exists_older_genesis followOn
      exact ⟨genesis, List.mem_cons_of_mem _ inLog, isEntity, firstPos, fun _ => ⟨inLog, lastPos⟩,
        fun impossible => absurd impossible.symm Bool.false_ne_true⟩
  | false =>
      exact ⟨row, List.mem_cons_self .., followOn,
        rows.firstPos_of_entity (List.mem_cons_self ..) followOn,
        fun impossible => absurd impossible Bool.false_ne_true, fun _ => rfl⟩

theorem SoundRecords.undone (sound : SoundRecords before (row :: log))
    (rows : EntityLog (row :: log)) (inRows : genesis ∈ row :: log)
    (firstPos : row.firstPos = genesis.chainPos)
    (ofFollowOn : row.isFollowOn = true → genesis ∈ log)
    (ofEntity : row.isFollowOn = false → genesis = row)
    (undone : UndoneRecords log row genesis before records) : SoundRecords records log := by
  intro key record notZero found
  have rowTxid := rows.isTxid_of_mem (List.mem_cons_self ..)
  rw [undone key notZero] at found
  by_cases restored : row.isFollowOn = true ∧ key ∈ genesis.ownKeys
  · rw [if_pos restored] at found
    exact ⟨genesis, ofFollowOn restored.1, restored.2, (Option.some.inj found).symm⟩
  · rw [if_neg restored] at found
    by_cases taken : key ∈ takenKeys row
    · rw [if_pos taken] at found
      cases found
    · rw [if_neg taken] at found
      obtain ⟨other, inRows', own, recordEq⟩ := sound key record notZero found
      rcases List.mem_cons.1 inRows' with rfl | inLog
      · exact absurd (mem_takenKeys_of_mem_ownKeys rowTxid own) taken
      · have notOwn : key ∉ genesis.ownKeys := by
          intro ofGenesis
          cases followOn : row.isFollowOn with
          | true => exact restored ⟨followOn, ofGenesis⟩
          | false =>
              rw [ofEntity followOn] at ofGenesis
              exact taken (mem_takenKeys_of_mem_ownKeys rowTxid ofGenesis)
        refine ⟨other, inLog, own, ?_⟩
        rw [recordEq, rows.recordOf_cons_of_notMem inRows firstPos inLog own notOwn]

/-- Undoing the rows `segment` behind `rest`, newest first, keeps the records of `rest`: a
row that names a key of an entity of `rest` belongs to that entity, or an older one of the
segment does. -/
def KeepsKeys (keys : EntityKey → Prop) (rest : List EntityRow) : List EntityRow → Prop
  | [] => True
  | row :: segment =>
      (∀ kept ∈ rest, ∀ key ∈ kept.ownKeys, keys key → key ∈ takenKeys row →
        ∃ later ∈ row :: segment, later.firstPos = kept.chainPos) ∧
      KeepsKeys keys rest segment

/-- Every key of `rest` has a record, or gets one by a row that is still to be undone. -/
def RecordsAhead (keys : EntityKey → Prop) (records : EntityRecords)
    (rest segment : List EntityRow) : Prop :=
  ∀ kept ∈ rest, ∀ key ∈ kept.ownKeys, keys key →
    records key ≠ none ∨ ∃ later ∈ segment, later.firstPos = kept.chainPos

variable {keys : EntityKey → Prop} {rest segment : List EntityRow}

theorem EntityLog.eq_genesis (rows : EntityLog (row :: segment ++ rest))
    (inRows : genesis ∈ row :: segment ++ rest) (firstPos : row.firstPos = genesis.chainPos)
    {kept : EntityRow} (inRest : kept ∈ rest) (same : row.firstPos = kept.chainPos) :
    genesis = kept ∧ row.isFollowOn = true := by
  have equal := rows.chainPos_injective inRows (List.mem_append_right _ inRest)
    (firstPos.symm.trans same)
  refine ⟨equal, ?_⟩
  cases followOn : row.isFollowOn with
  | true => rfl
  | false =>
      have own := rows.firstPos_of_entity (List.mem_cons_self ..) followOn
      have before := EntityLog.chainPos_lt_head rows (List.mem_append_right segment inRest)
      omega

theorem RecordsAhead.undone (ahead : RecordsAhead keys before rest (row :: segment))
    (rows : EntityLog (row :: segment ++ rest)) (inRows : genesis ∈ row :: segment ++ rest)
    (firstPos : row.firstPos = genesis.chainPos) (keeps : KeepsKeys keys rest (row :: segment))
    (undone : UndoneRecords (segment ++ rest) row genesis before records) :
    RecordsAhead keys records rest segment := by
  intro kept inRest key own isKey
  have keptTxid := rows.isTxid_of_mem (List.mem_append_right _ inRest)
  rw [undone key (ne_zero_of_mem_ownKeys keptTxid own)]
  by_cases same : row.firstPos = kept.chainPos
  · obtain ⟨rfl, followOn⟩ := rows.eq_genesis inRows firstPos inRest same
    rw [if_pos ⟨followOn, own⟩]
    exact .inl (Option.some_ne_none _)
  · have further : (∃ later ∈ row :: segment, later.firstPos = kept.chainPos) →
        ∃ later ∈ segment, later.firstPos = kept.chainPos := by
      rintro ⟨later, inSegment, belongs⟩
      rcases List.mem_cons.1 inSegment with rfl | older
      · exact absurd belongs same
      · exact ⟨later, older, belongs⟩
    by_cases taken : key ∈ takenKeys row
    · exact .inr (further (keeps.1 kept inRest key own isKey taken))
    · rw [if_neg taken]
      split
      · exact .inl (Option.some_ne_none _)
      · exact (ahead kept inRest key own isKey).imp_right further

/-- A key that is missing and has no row ahead to bring it back stays missing. -/
theorem UndoneRecords.eq_none (rows : EntityLog (row :: segment ++ rest))
    (inRows : genesis ∈ row :: segment ++ rest) (firstPos : row.firstPos = genesis.chainPos)
    (distinct : DistinctKeys keys (row :: segment ++ rest))
    (undone : UndoneRecords (segment ++ rest) row genesis before records)
    {kept : EntityRow} (inRest : kept ∈ rest) {key : EntityKey} (own : key ∈ kept.ownKeys)
    (isKey : keys key) (missing : key ∈ takenKeys row ∨ before key = none)
    (notOf : row.firstPos ≠ kept.chainPos) : records key = none := by
  have keptTxid := rows.isTxid_of_mem (List.mem_append_right _ inRest)
  rw [undone key (ne_zero_of_mem_ownKeys keptTxid own), if_neg]
  · split
    · rfl
    · rename_i notTaken
      exact missing.resolve_left notTaken
  · rintro ⟨-, ofGenesis⟩
    have equal := distinct genesis inRows kept (List.mem_append_right _ inRest) key ofGenesis own
      isKey
    exact notOf (firstPos.trans (by rw [equal]))

theorem keepsKeys_isTxid (rows : EntityLog (segment ++ rest))
    (distinct : DistinctKeys (fun key => key.isTxid = true) (segment ++ rest)) :
    KeepsKeys (fun key => key.isTxid = true) rest segment := by
  induction segment with
  | nil => trivial
  | cons row segment ih =>
      refine ⟨?_, ih rows.tail (@DistinctKeys.of_append _ _ [row] distinct)⟩
      intro kept inRest key own isTxid taken
      have rowTxid := rows.isTxid_of_mem (List.mem_cons_self ..)
      have keptTxid := rows.isTxid_of_mem (List.mem_append_right (row :: segment) inRest)
      have rowKey : key = row.key := by
        unfold takenKeys undoneKeys at taken
        rcases List.mem_cons.1 taken with same | other
        · exact same
        · have member : key ∈ (EntityDetails.ofRow row).newKeys := by
            unfold EntityDetails.newKeys
            simp only [List.cons_append, List.mem_cons, List.mem_append, List.not_mem_nil,
              or_false]
            rcases List.mem_cons.1 other with short | optional
            · exact .inr (.inr short)
            · exact .inr (.inl optional)
          rw [EntityDetails.eq_of_mem_newKeys isTxid member] at other ⊢
          exfalso
          rcases List.mem_cons.1 other with short | optional
          · cases short
          · unfold EntityDetails.optionalKeys at optional
            simp only [List.mem_append, Option.mem_toList, Option.map_eq_some_iff] at optional
            rcases optional with found | ⟨name, -, isName⟩
            · obtain ⟨block, offset, suffix, isRef⟩ := EntityDetails.ref_ofRow found
              cases isRef
            · cases isName
      rw [rowKey] at own
      have equal := distinct row (List.mem_cons_self ..) kept
        (List.mem_append_right (row :: segment) inRest) row.key
        (EntityRow.key_mem_ownKeys rowTxid) own rowTxid
      have before := EntityLog.chainPos_lt_head rows (List.mem_append_right segment inRest)
      rw [equal] at before
      exact absurd before (lt_irrefl _)

end Undoing

end HdacNode
