import HdacNode.EntityRows

/-!
# Logs of entity rows

The ledger rows of a store, newest first, form a log.  Every row stands where the rows
before it end.  An entity starts a chain at its own place, and a follow-on goes to the end
of the chain of its entity.  A database that fits a log has one record for each key of a
row: it names the place of the row and the end of its chain.
-/

namespace HdacNode

namespace EntityRow

/-- The keys under which the database knows a row. -/
def ownKeys (row : EntityRow) : List EntityKey :=
  if row.isFollowOn then [row.key] else (EntityDetails.ofRow row).newKeys

/-- A row with a place behind a log. -/
def placedBehind (row : EntityRow) (log : List EntityRow) (firstPos lastPos : Int) : EntityRow :=
  { row with
    prevPos := entityShape.lastPos log
    firstPos := firstPos
    lastPos := lastPos
    chainPos := entityShape.endPos log }

variable {row : EntityRow}

theorem key_eq_txid (isTxid : row.key.isTxid = true) (entity : row.isFollowOn = false) :
    row.key = .txid row.txid false := by
  unfold isFollowOn at entity
  unfold txid
  cases keyEq : row.key with
  | txid txid followOn =>
      rw [keyEq] at entity
      change followOn = false at entity
      rw [entity]
  | _ => rw [keyEq] at isTxid; cases isTxid

theorem isTxid_of_isFollowOn (followOn : row.isFollowOn = true) : row.key.isTxid = true := by
  unfold isFollowOn at followOn
  cases keyEq : row.key with
  | txid txid flag => rfl
  | _ => rw [keyEq] at followOn; cases followOn

theorem ownKeys_of_followOn (followOn : row.isFollowOn = true) : row.ownKeys = [row.key] :=
  if_pos followOn

theorem ownKeys_of_entity (entity : row.isFollowOn = false) :
    row.ownKeys = (EntityDetails.ofRow row).newKeys :=
  if_neg (by rw [entity]; exact Bool.false_ne_true)

theorem key_mem_ownKeys (isTxid : row.key.isTxid = true) : row.key ∈ row.ownKeys := by
  cases followOn : row.isFollowOn with
  | true =>
      rw [ownKeys_of_followOn followOn]
      exact List.mem_singleton_self _
  | false =>
      rw [ownKeys_of_entity followOn, key_eq_txid isTxid followOn]
      exact List.mem_cons_self ..

/-- Only entities have the key of a transaction id. -/
theorem isFollowOn_of_mem_ownKeys {txid : Bytes} (own : .txid txid false ∈ row.ownKeys) :
    row.isFollowOn = false := by
  cases followOn : row.isFollowOn with
  | false => rfl
  | true =>
      rw [ownKeys_of_followOn followOn, List.mem_singleton] at own
      unfold isFollowOn at followOn
      rw [← own] at followOn
      cases followOn

end EntityRow

namespace EntityDetails

variable {row : EntityRow} {key : EntityKey}

/-- The keys of a new entity are all different. -/
theorem nodup_newKeys (details : EntityDetails)
    (isRef : ∀ ref ∈ details.ref, ∃ block offset suffix, ref = .ref block offset suffix) :
    details.newKeys.Nodup := by
  unfold newKeys optionalKeys
  cases refEq : details.ref with
  | none => cases details.name <;> simp [nameKey, shortTxidKey]
  | some ref =>
      obtain ⟨block, offset, suffix, rfl⟩ := isRef ref refEq
      cases details.name <;> simp [nameKey, shortTxidKey]

theorem ref_ofRow {ref : EntityKey} (found : ref ∈ (ofRow row).ref) :
    ∃ block offset suffix, ref = .ref block offset suffix := by
  unfold ofRow at found
  dsimp only at found
  split at found
  · cases found
  · exact ⟨_, _, _, (Option.some.inj found).symm⟩

theorem mem_entityKeys_iff (entity : row.key = .txid row.txid false) :
    key ∈ (ofRow row).entityKeys row.key ↔ key ∈ (ofRow row).newKeys := by
  unfold entityKeys newKeys
  rw [entity]
  change _ ↔ key ∈ EntityKey.txid row.txid false :: ((ofRow row).optionalKeys ++ _)
  simp only [List.mem_cons, List.mem_append, List.not_mem_nil, or_false]
  tauto

theorem ne_zero_of_mem_entityKeys (isTxid : row.key.isTxid = true)
    (member : key ∈ (ofRow row).entityKeys row.key) : key ≠ .zero := by
  unfold entityKeys optionalKeys at member
  simp only [List.mem_cons, List.mem_append, Option.mem_toList,
    Option.map_eq_some_iff] at member
  rintro rfl
  rcases member with zero | zero | found | ⟨name, -, zero⟩
  · rw [← zero] at isTxid
    cases isTxid
  · cases zero
  · obtain ⟨block, offset, suffix, zero⟩ := ref_ofRow found
    cases zero
  · cases zero

/-- Only the first key of an entity is a transaction id. -/
theorem eq_of_mem_newKeys (isTxid : key.isTxid = true) (member : key ∈ (ofRow row).newKeys) :
    key = .txid row.txid false := by
  unfold newKeys optionalKeys at member
  simp only [List.cons_append, List.mem_cons, List.mem_append, Option.mem_toList,
    Option.map_eq_some_iff, List.not_mem_nil, or_false] at member
  rcases member with rfl | (found | ⟨name, -, rfl⟩) | rfl
  · rfl
  · obtain ⟨block, offset, suffix, rfl⟩ := ref_ofRow found
    cases isTxid
  · cases isTxid
  · cases isTxid

end EntityDetails

/-- The end of the chain that starts at a position; the position itself for a place
without a chain. -/
def chainEnd : List EntityRow → Int → Int
  | [], firstPos => firstPos
  | row :: log, firstPos => if row.firstPos = firstPos then row.chainPos else chainEnd log firstPos

theorem chainEnd_cons (row : EntityRow) (log : List EntityRow) (firstPos : Int) :
    chainEnd (row :: log) firstPos =
      if row.firstPos = firstPos then row.chainPos else chainEnd log firstPos :=
  rfl

/-- The database record of a row. -/
def recordOf (log : List EntityRow) (row : EntityRow) : EntityDBRow :=
  ⟨row.block, row.chainPos, chainEnd log row.chainPos, row.entityType⟩

/-- The rows of a ledger, newest first. -/
inductive EntityLog : List EntityRow → Prop
  | nil : EntityLog []
  | entity {log : List EntityRow} {row : EntityRow} (older : EntityLog log)
      (isEntity : row.isFollowOn = false) (isTxid : row.key.isTxid = true)
      (nameFits : (EntityDetails.ofRow row).NameFits)
      (prevPos : row.prevPos = entityShape.lastPos log)
      (chainPos : row.chainPos = entityShape.endPos log) (firstPos : row.firstPos = row.chainPos) :
      EntityLog (row :: log)
  | followOn {log : List EntityRow} {row genesis : EntityRow} (older : EntityLog log)
      (isFollowOn : row.isFollowOn = true) (inLog : genesis ∈ log)
      (isEntity : genesis.isFollowOn = false) (prevPos : row.prevPos = entityShape.lastPos log)
      (chainPos : row.chainPos = entityShape.endPos log) (firstPos : row.firstPos = genesis.chainPos)
      (lastPos : row.lastPos = chainEnd log genesis.chainPos) :
      EntityLog (row :: log)

namespace EntityLog

variable {log : List EntityRow} {row other : EntityRow}

theorem tail (rows : EntityLog (row :: log)) : EntityLog log := by
  cases rows with
  | entity older _ _ _ _ _ _ => exact older
  | followOn older _ _ _ _ _ _ _ => exact older

theorem of_append {segment : List EntityRow} (rows : EntityLog (segment ++ log)) :
    EntityLog log := by
  induction segment with
  | nil => exact rows
  | cons row segment ih => exact ih rows.tail

theorem chainPos_head (rows : EntityLog (row :: log)) : row.chainPos = entityShape.endPos log := by
  cases rows with
  | entity _ _ _ _ _ chainPos _ => exact chainPos
  | followOn _ _ _ _ _ chainPos _ _ => exact chainPos

theorem prevPos_head (rows : EntityLog (row :: log)) : row.prevPos = entityShape.lastPos log := by
  cases rows with
  | entity _ _ _ _ prevPos _ _ => exact prevPos
  | followOn _ _ _ _ prevPos _ _ _ => exact prevPos

theorem isTxid_of_mem (rows : EntityLog log) (member : row ∈ log) : row.key.isTxid = true := by
  induction rows with
  | nil => cases member
  | entity _ _ isTxid _ _ _ _ ih =>
      rcases List.mem_cons.1 member with rfl | inOlder
      · exact isTxid
      · exact ih inOlder
  | followOn _ isFollowOn _ _ _ _ _ _ ih =>
      rcases List.mem_cons.1 member with rfl | inOlder
      · exact EntityRow.isTxid_of_isFollowOn isFollowOn
      · exact ih inOlder

theorem nameFits_of_mem (rows : EntityLog log) (member : row ∈ log)
    (isEntity : row.isFollowOn = false) : (EntityDetails.ofRow row).NameFits := by
  induction rows with
  | nil => cases member
  | entity _ _ _ nameFits _ _ _ ih =>
      rcases List.mem_cons.1 member with rfl | inOlder
      · exact nameFits
      · exact ih inOlder
  | followOn _ isFollowOn _ _ _ _ _ _ ih =>
      rcases List.mem_cons.1 member with rfl | inOlder
      · rw [isFollowOn] at isEntity
        cases isEntity
      · exact ih inOlder

theorem base_le_endPos (rows : EntityLog log) : entityTotalSize ≤ entityShape.endPos log := by
  induction log with
  | nil => exact le_rfl
  | cons row log ih =>
      have older := ih rows.tail
      have place := rows.chainPos_head
      have sizeLe := row.totalSize_le_ledgerSize
      have positive := entityShape.base_pos
      change 0 < entityTotalSize at positive
      change _ ≤ row.chainPos + row.ledgerSize
      omega

/-- The rows stand behind the header and in front of the end. -/
theorem place_of_mem (rows : EntityLog log) (member : row ∈ log) :
    entityTotalSize ≤ row.chainPos ∧ row.chainPos < entityShape.endPos log := by
  have positive : 0 < entityTotalSize := entityShape.base_pos
  induction log with
  | nil => cases member
  | cons head log ih =>
      have place := rows.chainPos_head
      have sizeLe := head.totalSize_le_ledgerSize
      have base := rows.tail.base_le_endPos
      change _ ∧ _ < head.chainPos + head.ledgerSize
      rcases List.mem_cons.1 member with rfl | inOlder
      · omega
      · have older := ih rows.tail inOlder
        omega

theorem chainPos_lt_head (rows : EntityLog (row :: log)) (member : other ∈ log) :
    other.chainPos < row.chainPos := by
  rw [rows.chainPos_head]
  exact (rows.tail.place_of_mem member).2

/-- A log ends in front of the rows behind it. -/
theorem endPos_le_append {newer : List EntityRow} (rows : EntityLog (newer ++ log)) :
    entityShape.endPos log ≤ entityShape.endPos (newer ++ log) := by
  induction newer with
  | nil => exact le_rfl
  | cons row newer ih =>
      have place := rows.chainPos_head
      have sizeLe := row.totalSize_le_ledgerSize
      have positive : 0 < entityTotalSize := entityShape.base_pos
      have older := ih rows.tail
      change _ ≤ row.chainPos + row.ledgerSize
      rw [place]
      change _ ≤ entityShape.endPos (newer ++ log) + _
      omega

theorem chainPos_injective (rows : EntityLog log) (member : row ∈ log) (otherMember : other ∈ log)
    (same : row.chainPos = other.chainPos) : row = other := by
  induction log with
  | nil => cases member
  | cons head log ih =>
      rcases List.mem_cons.1 member with rfl | inOlder <;>
        rcases List.mem_cons.1 otherMember with rfl | otherInOlder
      · rfl
      · have := rows.chainPos_lt_head otherInOlder
        omega
      · have := rows.chainPos_lt_head inOlder
        omega
      · exact ih rows.tail inOlder otherInOlder

theorem nodup (rows : EntityLog log) : log.Nodup := by
  induction log with
  | nil => exact List.nodup_nil
  | cons row log ih =>
      refine List.nodup_cons.2 ⟨fun again => ?_, ih rows.tail⟩
      exact absurd (rows.chainPos_lt_head again) (lt_irrefl _)

/-- Every row belongs to an entity of the log. -/
theorem exists_genesis (rows : EntityLog log) (member : row ∈ log) :
    ∃ genesis ∈ log, genesis.isFollowOn = false ∧ row.firstPos = genesis.chainPos := by
  induction rows with
  | nil => cases member
  | entity _ isEntity _ _ _ _ firstPos ih =>
      rcases List.mem_cons.1 member with rfl | inOlder
      · exact ⟨row, member, isEntity, firstPos⟩
      · obtain ⟨genesis, inLog, found⟩ := ih inOlder
        exact ⟨genesis, List.mem_cons_of_mem _ inLog, found⟩
  | followOn _ _ inLog isEntity _ _ firstPos _ ih =>
      rcases List.mem_cons.1 member with rfl | inOlder
      · exact ⟨_, List.mem_cons_of_mem _ inLog, isEntity, firstPos⟩
      · obtain ⟨genesis, inLog, found⟩ := ih inOlder
        exact ⟨genesis, List.mem_cons_of_mem _ inLog, found⟩

theorem firstPos_of_entity (rows : EntityLog log) (member : row ∈ log)
    (isEntity : row.isFollowOn = false) : row.firstPos = row.chainPos := by
  induction rows with
  | nil => cases member
  | entity _ _ _ _ _ _ firstPos ih =>
      rcases List.mem_cons.1 member with rfl | inOlder
      · exact firstPos
      · exact ih inOlder
  | followOn _ isFollowOn _ _ _ _ _ _ ih =>
      rcases List.mem_cons.1 member with rfl | inOlder
      · rw [isFollowOn] at isEntity
        cases isEntity
      · exact ih inOlder

theorem firstPos_lt_endPos (rows : EntityLog log) (member : row ∈ log) :
    row.firstPos < entityShape.endPos log := by
  obtain ⟨genesis, inLog, -, firstPos⟩ := rows.exists_genesis member
  rw [firstPos]
  exact (rows.place_of_mem inLog).2

/-- A follow-on stands behind its entity. -/
theorem exists_older_genesis (rows : EntityLog (row :: log)) (isFollowOn : row.isFollowOn = true) :
    ∃ genesis ∈ log, genesis.isFollowOn = false ∧ row.firstPos = genesis.chainPos ∧
      row.lastPos = chainEnd log genesis.chainPos := by
  cases rows with
  | entity _ isEntity _ _ _ _ _ =>
      rw [isEntity] at isFollowOn
      cases isFollowOn
  | followOn _ _ inLog isEntity _ _ firstPos lastPos =>
      exact ⟨_, inLog, isEntity, firstPos, lastPos⟩

theorem chainEnd_of_endPos_le (rows : EntityLog log) {pos : Int}
    (behind : entityShape.endPos log ≤ pos) : chainEnd log pos = pos := by
  have absent : ∀ row ∈ log, row.firstPos ≠ pos := fun row member =>
    ((rows.firstPos_lt_endPos member).trans_le behind).ne
  clear rows behind
  induction log with
  | nil => rfl
  | cons row log ih =>
      rw [chainEnd_cons, if_neg (absent row (List.mem_cons_self ..))]
      exact ih fun other member => absent other (List.mem_cons_of_mem _ member)

/-- A new row ends its own chain and leaves the chains of other entities. -/
theorem chainEnd_head (rows : EntityLog (row :: log)) :
    chainEnd (row :: log) row.chainPos = row.chainPos := by
  rw [chainEnd_cons]
  split
  · rfl
  · exact rows.tail.chainEnd_of_endPos_le rows.chainPos_head.ge

theorem recordOf_cons_of_ne (firstPos : row.firstPos ≠ other.chainPos) :
    recordOf (row :: log) other = recordOf log other := by
  unfold recordOf
  rw [chainEnd_cons, if_neg firstPos]

theorem recordOf_head (rows : EntityLog (row :: log)) :
    recordOf (row :: log) row = ⟨row.block, row.chainPos, row.chainPos, row.entityType⟩ := by
  unfold recordOf
  rw [rows.chainEnd_head]

theorem recordOf_genesis {genesis : EntityRow} (firstPos : row.firstPos = genesis.chainPos) :
    recordOf (row :: log) genesis =
      ⟨genesis.block, genesis.chainPos, row.chainPos, genesis.entityType⟩ := by
  unfold recordOf
  rw [chainEnd_cons, if_pos firstPos]

end EntityLog

end HdacNode
