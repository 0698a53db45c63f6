import HdacNode.PermissionListing
import HdacNode.UpgradeApprovals

/-!
# The first row of an entity

`GetPermissionList` takes the connect permission of the zero address as the first row of an
entity.  `SetApproval` sets it before any row of an upgrade, and the callers of `SetPermission`
set it when they create an entity, so in every run no other row of an entity comes before it.
-/

namespace HdacNode

open LinkedRowLog

namespace Permissions

/-- Behind every row of an entity, other than its first one, the log has its first row. -/
def ListsOpened (log : List LedgerRow) : Prop :=
  ∀ newer row older, log = newer ++ row :: older → row.key.entity ≠ .null →
    row.key = firstListKey row.key.entity ∨
      ∃ first ∈ older, first.key = firstListKey row.key.entity

/-- A caller that sets permissions of an entity sets its first row first. -/
def OpensList (s : Permissions) : StoreCall → Prop
  | .call (.setPermission grant) =>
      grant.updateMempool = true → grant.entity = .null ∨
        grant.address = 0 ∧ grant.type = mcPtpConnect ∨
        s.newestRow (firstListKey grant.entity) ≠ none
  | _ => True

namespace ListsOpened

variable {log : List LedgerRow} {row : LedgerRow}

/-- A row may follow the first one of its entity. -/
theorem cons (opened : ListsOpened log)
    (mayFollow : row.key.entity = .null ∨ row.key = firstListKey row.key.entity ∨
      ∃ first ∈ log, first.key = firstListKey row.key.entity) :
    ListsOpened (row :: log) := by
  intro newer other older split notNull
  cases newer with
  | nil =>
      obtain ⟨rfl, rfl⟩ := List.cons.inj split
      exact mayFollow.resolve_left notNull
  | cons newest newer => exact opened newer other older (List.cons.inj split).2 notNull

theorem of_append {newer older : List LedgerRow} (opened : ListsOpened (newer ++ older)) :
    ListsOpened older := by
  intro others row rest split notNull
  apply opened (newer ++ others) row rest
  · rw [split, List.append_assoc]
  · exact notNull

end ListsOpened

section Grants

variable {params : NetworkParams} {s : Permissions} {blocks : List (Address × Hash)} {top : Int}

theorem firstListKey_of_ne {entity : Entity} (notNull : entity ≠ .null) :
    firstListKey entity = ⟨entity, .account 0, mcPtpConnect⟩ := by
  cases entity with
  | null => exact absurd rfl notNull
  | upgrade => rfl
  | genesis txid => rfl

/-- The log has the first row of an entity. -/
def HasFirst (log : List LedgerRow) (entity : Entity) : Prop :=
  ∃ first ∈ log, first.key = firstListKey entity

theorem hasFirst_of_newestOf {log : List LedgerRow} {entity : Entity}
    (found : newestOf log (firstListKey entity) ≠ none) : HasFirst log entity := by
  obtain ⟨first, newest⟩ := Option.ne_none_iff_exists'.mp found
  exact ⟨first, List.mem_of_find?_eq_some newest, key_of_newestOf newest⟩

/-- Grants behind the first row of their entity keep the rule. -/
theorem ListsOpened.setPermissionType (opened : ListsOpened s.fullLog) (grant : Grant)
    (type : Nat) (mayFollow : grant.entity = .null ∨ HasFirst s.fullLog grant.entity) :
    ListsOpened (s.setPermissionType params grant type).1.fullLog ∧
      (grant.entity = .null ∨
        HasFirst (s.setPermissionType params grant type).1.fullLog grant.entity) := by
  rcases fullLog_setPermissionType params s grant type with same | ⟨row, rowKey, log⟩
  · rw [same]
    exact ⟨opened, mayFollow⟩
  · rw [log]
    constructor
    · apply opened.cons
      rw [rowKey]
      exact mayFollow.imp_right .inr
    · apply mayFollow.imp_right
      rintro ⟨first, member, firstKey⟩
      exact ⟨first, List.mem_cons_of_mem _ member, firstKey⟩

theorem ListsOpened.setPermissionInternal (opened : ListsOpened s.fullLog) {grant : Grant}
    (mayFollow : grant.entity = .null ∨ HasFirst s.fullLog grant.entity) :
    ListsOpened (s.setPermissionInternal params grant).1.fullLog :=
  (setPermissionInternal_induction
    (motive := fun s => ListsOpened s.fullLog ∧
      (grant.entity = .null ∨ HasFirst s.fullLog grant.entity))
    (fun _ type _ holds => holds.1.setPermissionType grant type holds.2)
    ⟨opened, mayFollow⟩).1

private theorem onlyConnect {grant : Grant} (connect : grant.type = mcPtpConnect) :
    grantableTypes.filter (fun type => type &&& grant.type ≠ 0) = [mcPtpConnect] := by
  rw [connect]
  decide

/-- The first row of an entity may always be set. -/
theorem ListsOpened.setFirst (opened : ListsOpened s.fullLog) {grant : Grant}
    (noAddress : grant.address = 0) (connect : grant.type = mcPtpConnect) :
    ListsOpened (s.setPermissionInternal params grant).1.fullLog := by
  by_cases isNull : grant.entity = .null
  · exact opened.setPermissionInternal (.inl isNull)
  rw [Permissions.setPermissionInternal, setPermissionTypes_of_one (onlyConnect connect)]
  rcases fullLog_setPermissionType params s grant mcPtpConnect with same | ⟨row, rowKey, log⟩
  · rw [same]
    exact opened
  · rw [log]
    apply opened.cons
    right
    left
    rw [rowKey, firstListKey_of_ne isNull, noAddress]

/-- A grant outside the memory pool leaves the store as it is. -/
theorem setPermissionInternal_of_not_update {grant : Grant} (noUpdate : grant.updateMempool = false)
    (s : Permissions) : (s.setPermissionInternal params grant).1 = s := by
  apply setPermissionInternal_induction (motive := fun after => after = s)
  · rintro _ type - rfl
    unfold setPermissionType
    dsimp only
    split
    · rfl
    · rw [if_neg (by rw [noUpdate]; decide)]
  · rfl

theorem ListsOpened.setPermission (opened : ListsOpened s.fullLog)
    (consistent : Consistent s blocks top) {grant : Grant}
    (made : OpensList s (.call (.setPermission grant))) :
    ListsOpened (s.setPermission params grant).1.fullLog := by
  unfold Permissions.setPermission
  split
  · exact opened
  · cases update : grant.updateMempool with
    | false =>
        rw [setPermissionInternal_of_not_update update]
        exact opened
    | true =>
        rcases made update with isNull | ⟨noAddress, connect⟩ | hasRow
        · exact opened.setPermissionInternal (.inl isNull)
        · exact opened.setFirst noAddress connect
        · apply opened.setPermissionInternal
          right
          rw [consistent.newestRow_eq] at hasRow
          exact hasFirst_of_newestOf hasRow

theorem exists_row_of_setPermissionType {grant : Grant} {type : Nat} {after : Permissions}
    (update : grant.updateMempool = true)
    (done : s.setPermissionType params grant type = (after, none)) :
    ∃ row ∈ after.fullLog, row.key = ⟨grant.entity, .account grant.address, type⟩ := by
  unfold setPermissionType at done
  dsimp only at done
  split at done
  · cases done
  · rename_i row votes verified
    have rowKey := (verifyConsensus_decided verified).key
    rw [if_pos update] at done
    obtain ⟨rfl, -⟩ := Prod.mk.inj done
    refine ⟨row, ?_, rowKey⟩
    rw [(sameStore_adjustCounts _ _ _ _).fullLog, fullLog_appendRow]
    exact List.mem_cons_self ..

namespace Consistent

/-- The list of upgrades that `SetApproval` finds or creates has its first row. -/
theorem hasFirst_of_createUpgradeList (consistent : Consistent s blocks top)
    {approval : Approval} (update : approval.updateMempool = true) {after : Permissions}
    (done : s.createUpgradeList params approval = (after, none)) :
    HasFirst after.fullLog .upgrade := by
  unfold createUpgradeList at done
  split at done
  · rw [setPermissionInternal, setPermissionTypes_of_one (onlyConnect rfl)] at done
    obtain ⟨first, member, firstKey⟩ := exists_row_of_setPermissionType update done
    exact ⟨first, member, firstKey⟩
  · rename_i allowed
    obtain ⟨rfl, -⟩ := Prod.mk.inj done
    apply hasFirst_of_newestOf
    intro noRow
    apply allowed
    have notZero : firstListKey .upgrade ≠ zeroKey := by decide
    have notAbove : ¬ s.AboveTip (firstListKey .upgrade) := by
      rintro ⟨height, -, isIndex⟩
      cases congrArg Key.entity isIndex
    have reports := consistent.getPermissionRow_true notZero notAbove
    rw [noRow] at reports
    obtain ⟨noFrom, noTo, -⟩ := reports
    change s.getPermission (firstListKey .upgrade) true = 0
    unfold getPermission
    rw [if_neg]
    simp only [LedgerRow.inBlockRange, noFrom, noTo, decide_eq_true_eq]
    omega

theorem listsOpened_setApproval (consistent : Consistent s blocks top)
    (opened : ListsOpened s.fullLog) (approval : Approval) :
    ListsOpened (s.setApproval params approval).1.fullLog := by
  have created : ListsOpened (s.createUpgradeList params approval).1.fullLog := by
    unfold createUpgradeList
    split
    · exact opened.setFirst rfl rfl
    · exact opened
  unfold Permissions.setApproval
  cases result : s.createUpgradeList params approval with
  | mk next err =>
      rw [result] at created
      cases err with
      | some err => exact created
      | none =>
          have mayFollow : ∀ grant : Grant, grant.entity = .upgrade →
              grant.updateMempool = approval.updateMempool →
              ListsOpened (next.setPermissionInternal params grant).1.fullLog := by
            intro grant isUpgrade sameUpdate
            cases update : approval.updateMempool with
            | false =>
                rw [setPermissionInternal_of_not_update (sameUpdate.trans update)]
                exact created
            | true =>
                apply created.setPermissionInternal
                right
                rw [isUpgrade]
                exact consistent.hasFirst_of_createUpgradeList update result
          cases approval.admin with
          | none => exact mayFollow _ rfl rfl
          | some admin =>
              dsimp only
              split
              · exact created
              · exact mayFollow _ rfl rfl

end Consistent

end Grants

end Permissions

end HdacNode
