import HdacNode.AcceptQueries
import HdacNode.MetadataRecords

/-!
# Names of permissions

`GetPermissionType` reads a list of permission names with commas between them and returns the
permission types of the names, one bit each.
-/

namespace HdacNode

def mcEntTypeStreamMax : Nat := 0x0F

/-- Permission types, one bit each. -/
abbrev PermissionMask := BitVec 32

/-- The bytes of a string literal. -/
def literal (text : String) : Bytes := text.toList.map fun c => UInt8.ofNat c.toNat

/-- The comma. -/
def comma : UInt8 := 0x2C

/-- `GetPossiblePermissionTypes`. -/
def getPossiblePermissionTypes (entityType : Nat) : PermissionMask :=
  let ofEntity : PermissionMask := .ofNat 32 (mcPtpWrite ||| mcPtpActivate ||| mcPtpAdmin)
  if entityType = mcEntTypeAsset then .ofNat 32 (mcPtpIssue ||| mcPtpAdmin)
  else if entityType = mcEntTypeStream then ofEntity
  else if entityType = mcEntTypeNone then .ofNat 32 mcPtpGlobalAll
  else if entityType ≤ mcEntTypeStreamMax then ofEntity
  else 0

/-- The names that `GetPermissionType` compares with one after the other. -/
def permissionNames : List (Bytes × Nat) :=
  [(literal "connect", mcPtpConnect), (literal "send", mcPtpSend),
    (literal "receive", mcPtpReceive), (literal "issue", mcPtpIssue),
    (literal "mine", mcPtpMine), (literal "admin", mcPtpAdmin),
    (literal "activate", mcPtpActivate), (literal "create", mcPtpCreate),
    (literal "write", mcPtpWrite), (literal "banned", mcPtpBanned)]

/-- `perm_type` of one name, where `all` and `*` stand for all possible types. -/
def nameType (fullType : PermissionMask) (name : Bytes) : PermissionMask :=
  permissionNames.foldl
    (fun permType named => if name = named.1 then .ofNat 32 named.2 else permType)
    (if name = literal "all" ∨ name = literal "*" then fullType else 0)

/-- The variables of the loop, with the bytes from `start` up to `ptr`. -/
structure NameScan where
  slice : Bytes
  permType : PermissionMask
  result : PermissionMask
  deriving DecidableEq, Repr

namespace NameScan

/-- The type of the last name and the types of all names. -/
def types (scan : NameScan) : PermissionMask × PermissionMask := (scan.permType, scan.result)

/-- The loop's body for the byte `c`; it stops at an unknown name.  After a separator that
follows `start` directly, `start` stays where it is. -/
def readByte (fullType : PermissionMask) (scan : NameScan) (c : UInt8) : Option NameScan :=
  if (c = comma ∨ c = 0) ∧ scan.slice ≠ [] then
    if nameType fullType scan.slice = 0 then none
    else some
      { slice := []
        permType := nameType fullType scan.slice
        result := scan.result ||| nameType fullType scan.slice }
  else some { scan with slice := scan.slice ++ [c] }

end NameScan

/-- `GetPermissionType`, for any value that `perm_type` has before the loop. -/
def getPermissionType (initial : PermissionMask) (str : CString) (entityType : Nat) :
    PermissionMask :=
  let fullType := getPossiblePermissionTypes entityType
  match (str.bytes ++ [0]).foldlM (NameScan.readByte fullType) ⟨[], initial, 0⟩ with
  | none => 0
  | some scan =>
      let fullType :=
        if scan.permType = .ofNat 32 mcPtpBanned then fullType ||| .ofNat 32 mcPtpBanned
        else fullType
      if scan.result &&& ~~~fullType ≠ 0 then 0 else scan.result

/-- The names in a string, with the empty ones. -/
def CString.names (str : CString) : List Bytes := str.bytes.splitOn comma

/-- A name of permissions of an entity; every entity's list may name the ban. -/
def IsPermissionName (entityType : Nat) (name : Bytes) : Prop :=
  nameType (getPossiblePermissionTypes entityType) name ≠ 0 ∧
    nameType (getPossiblePermissionTypes entityType) name &&&
      ~~~(getPossiblePermissionTypes entityType ||| .ofNat 32 mcPtpBanned) = 0

instance (entityType : Nat) (name : Bytes) : Decidable (IsPermissionName entityType name) :=
  inferInstanceAs (Decidable (_ ∧ _))

/-- The types of a set of names: none if one of them is not a name, and otherwise the union. -/
structure IsTypeOfNames (entityType : Nat) (names : Set Bytes) (mask : PermissionMask) : Prop where
  eq_zero_iff : mask = 0 ↔ ∃ name ∈ names, ¬ IsPermissionName entityType name
  union : mask ≠ 0 → ∀ bit, mask.getLsbD bit = true ↔
    ∃ name ∈ names, (nameType (getPossiblePermissionTypes entityType) name).getLsbD bit = true

section Types

/-- The possible types of an entity are one of four masks. -/
theorem getPossiblePermissionTypes_cases (entityType : Nat) :
    getPossiblePermissionTypes entityType = 0x1010 ∨
      getPossiblePermissionTypes entityType = 0x3008 ∨
      getPossiblePermissionTypes entityType = 0x3137 ∨
      getPossiblePermissionTypes entityType = 0 := by
  unfold getPossiblePermissionTypes
  dsimp only
  split_ifs <;> decide

theorem foldl_named (name : Bytes) (table : List (Bytes × Nat)) (permType : PermissionMask) :
    (∃ named ∈ table, name = named.1 ∧
      table.foldl (fun permType named => if name = named.1 then .ofNat 32 named.2 else permType)
        permType = .ofNat 32 named.2) ∨
    ((∀ named ∈ table, name ≠ named.1) ∧
      table.foldl (fun permType named => if name = named.1 then .ofNat 32 named.2 else permType)
        permType = permType) := by
  induction table generalizing permType with
  | nil => exact .inr ⟨by simp, rfl⟩
  | cons first table ih =>
      rw [List.foldl_cons]
      rcases ih (if name = first.1 then .ofNat 32 first.2 else permType) with
        ⟨named, inTable, same, found⟩ | ⟨unlisted, kept⟩
      · exact .inl ⟨named, List.mem_cons_of_mem _ inTable, same, found⟩
      · rw [kept]
        by_cases isFirst : name = first.1
        · rw [if_pos isFirst]
          exact .inl ⟨first, List.mem_cons_self .., isFirst, rfl⟩
        · rw [if_neg isFirst]
          exact .inr ⟨List.forall_mem_cons.mpr ⟨isFirst, unlisted⟩, rfl⟩

theorem nameType_cases (fullType : PermissionMask) (name : Bytes) :
    (∃ named ∈ permissionNames, name = named.1 ∧
      nameType fullType name = .ofNat 32 named.2) ∨
    ((∀ named ∈ permissionNames, name ≠ named.1) ∧
      nameType fullType name =
        if name = literal "all" ∨ name = literal "*" then fullType else 0) :=
  foldl_named name permissionNames _

theorem nameType_of_comma {fullType : PermissionMask} {name : Bytes} (separator : comma ∈ name) :
    nameType fullType name = 0 := by
  have free : ∀ named ∈ permissionNames, comma ∉ named.1 := by decide
  rcases nameType_cases fullType name with ⟨named, inTable, same, -⟩ | ⟨-, unlisted⟩
  · exact absurd (same ▸ separator) (free named inTable)
  · rw [unlisted, if_neg]
    rintro (rfl | rfl) <;> revert separator <;> decide

theorem nameType_eq_banned_iff (entityType : Nat) (name : Bytes) :
    nameType (getPossiblePermissionTypes entityType) name = .ofNat 32 mcPtpBanned ↔
      name = literal "banned" := by
  have fullTypes := getPossiblePermissionTypes_cases entityType
  generalize getPossiblePermissionTypes entityType = fullType at fullTypes ⊢
  rcases nameType_cases fullType name with ⟨named, inTable, rfl, type⟩ | ⟨unlisted, type⟩
  · rw [type]
    clear type
    revert named
    decide
  · have notBanned : name ≠ literal "banned" := unlisted (literal "banned", mcPtpBanned) (by decide)
    refine iff_of_false ?_ notBanned
    rw [type]
    clear type
    split <;> rcases fullTypes with rfl | rfl | rfl | rfl <;> decide

/-- Without the ban, the types of a name pass the test for the possible types if they pass the
test that the ban passes too. -/
theorem nameType_and_eq_zero_iff (entityType : Nat) (name : Bytes) :
    nameType (getPossiblePermissionTypes entityType) name &&&
        ~~~(getPossiblePermissionTypes entityType) = 0 ↔
      name ≠ literal "banned" ∧ nameType (getPossiblePermissionTypes entityType) name &&&
        ~~~(getPossiblePermissionTypes entityType ||| .ofNat 32 mcPtpBanned) = 0 := by
  have fullTypes := getPossiblePermissionTypes_cases entityType
  generalize getPossiblePermissionTypes entityType = fullType at fullTypes ⊢
  rcases nameType_cases fullType name with ⟨named, inTable, rfl, type⟩ | ⟨unlisted, type⟩
  · rw [type]
    clear type
    revert named
    rcases fullTypes with rfl | rfl | rfl | rfl <;> decide +kernel
  · have notBanned : name ≠ literal "banned" := unlisted (literal "banned", mcPtpBanned) (by decide)
    rw [and_iff_right notBanned, type]
    clear type
    split <;> rcases fullTypes with rfl | rfl | rfl | rfl <;> decide

end Types

section Scan

variable {fullType : PermissionMask}

/-- The loop over whole names: an empty one at the end is passed over. -/
def readNames (fullType : PermissionMask) :
    PermissionMask × PermissionMask → List Bytes → Option (PermissionMask × PermissionMask)
  | scan, [] | scan, [[]] => some scan
  | (_, result), name :: names =>
      if nameType fullType name = 0 then none
      else readNames fullType (nameType fullType name, result ||| nameType fullType name) names

theorem readNames_cons {scan : PermissionMask × PermissionMask} {name : Bytes}
    {names : List Bytes} (inside : name :: names ≠ [[]]) :
    readNames fullType scan (name :: names) =
      if nameType fullType name = 0 then none
      else readNames fullType (nameType fullType name, scan.2 ||| nameType fullType name)
        names := by
  rw [readNames]
  intro empty last
  exact inside (by rw [empty, last])

/-- A separator behind a name. -/
theorem readByte_behind {scan : NameScan} {c : UInt8} (separator : c = comma ∨ c = 0)
    (inside : scan.slice ≠ []) :
    scan.readByte fullType c =
      if nameType fullType scan.slice = 0 then none
      else some ⟨[], nameType fullType scan.slice, scan.result ||| nameType fullType scan.slice⟩ :=
  if_pos ⟨separator, inside⟩

/-- A byte that goes on with the slice. -/
theorem readByte_moved {scan : NameScan} {c : UInt8}
    (moves : ¬ ((c = comma ∨ c = 0) ∧ scan.slice ≠ [])) :
    scan.readByte fullType c = some { scan with slice := scan.slice ++ [c] } :=
  if_neg moves

theorem foldlM_readByte_of_comma {text : Bytes} (scan : NameScan)
    (separator : comma ∈ scan.slice) :
    (text ++ [0]).foldlM (NameScan.readByte fullType) scan = none := by
  induction text generalizing scan with
  | nil =>
      rw [List.nil_append, List.foldlM_cons,
        readByte_behind (.inr rfl) (List.ne_nil_of_mem separator),
        if_pos (nameType_of_comma separator)]
      rfl
  | cons c text ih =>
      rw [List.cons_append, List.foldlM_cons]
      by_cases behind : (c = comma ∨ c = 0) ∧ scan.slice ≠ []
      · rw [readByte_behind behind.1 behind.2, if_pos (nameType_of_comma separator)]
        rfl
      · rw [readByte_moved behind]
        exact ih { scan with slice := scan.slice ++ [c] } (List.mem_append_left _ separator)

/-- The empty name is unknown. -/
theorem nameType_nil : nameType fullType [] = 0 := by
  rcases nameType_cases fullType [] with ⟨named, inTable, same, -⟩ | ⟨-, type⟩
  · have noName : ∀ named ∈ permissionNames, [] ≠ named.1 := by decide
    exact absurd same (noName named inTable)
  · exact type

theorem foldlM_readByte {text : Bytes} (noZero : 0 ∉ text) (scan : NameScan)
    (whole : comma ∉ scan.slice) :
    ((text ++ [0]).foldlM (NameScan.readByte fullType) scan).map NameScan.types =
      readNames fullType scan.types ((scan.slice ++ text).splitOn comma) := by
  induction text generalizing scan with
  | nil =>
      rw [List.append_nil, List.splitOn_eq_singleton whole, List.nil_append, List.foldlM_cons]
      by_cases empty : scan.slice = []
      · rw [readByte_moved fun behind => behind.2 empty, empty]
        rfl
      · have inside : [scan.slice] ≠ [[]] := by simpa using empty
        rw [readNames_cons inside, readByte_behind (.inr rfl) empty]
        split <;> rfl
  | cons c text ih =>
      rw [List.mem_cons, not_or] at noZero
      rw [List.cons_append, List.foldlM_cons]
      by_cases separator : c = comma
      · subst separator
        have inside : scan.slice :: text.splitOn comma ≠ [[]] := by
          intro alone
          exact List.splitOn_ne_nil comma text (List.cons.inj alone).2
        rw [List.splitOn_append_cons_self_of_not_mem whole, readNames_cons inside]
        by_cases empty : scan.slice = []
        · rw [readByte_moved fun behind => behind.2 empty, empty, if_pos nameType_nil]
          change Option.map _ (List.foldlM _ _ _) = _
          rw [foldlM_readByte_of_comma _ (List.mem_singleton_self comma)]
          rfl
        · rw [readByte_behind (.inl rfl) empty]
          split
          · rfl
          · exact ih noZero.2 ⟨[], _, _⟩ List.not_mem_nil
      · have isSlice : ¬ ((c = comma ∨ c = 0) ∧ scan.slice ≠ []) := by
          rintro ⟨isComma | isZero, -⟩
          · exact separator isComma
          · exact noZero.1 isZero.symm
        have longer : comma ∉ scan.slice ++ [c] := by
          simp [whole, Ne.symm separator]
        have rest := ih noZero.2 { scan with slice := scan.slice ++ [c] } longer
        rw [List.append_assoc] at rest
        rw [readByte_moved isSlice]
        exact rest

/-- The names that are read: an empty one at the end is not. -/
def readPart (names : List Bytes) : List Bytes :=
  if names.getLast? = some [] then names.dropLast else names

/-- The union of the types of names. -/
def unionType (fullType : PermissionMask) (names : List Bytes) : PermissionMask :=
  names.foldr (fun name mask => nameType fullType name ||| mask) 0

theorem getLsbD_unionType (names : List Bytes) (bit : Nat) :
    (unionType fullType names).getLsbD bit = true ↔
      ∃ name ∈ names, (nameType fullType name).getLsbD bit = true := by
  induction names with
  | nil => simp [unionType]
  | cons name names ih =>
      have split : unionType fullType (name :: names) =
          nameType fullType name ||| unionType fullType names := rfl
      simp [split, ih]

theorem unionType_and_eq_zero_iff {names : List Bytes} {others : PermissionMask} :
    unionType fullType names &&& others = 0 ↔
      ∀ name ∈ names, nameType fullType name &&& others = 0 := by
  induction names with
  | nil => simp [unionType]
  | cons name names ih =>
      have split : unionType fullType (name :: names) =
          nameType fullType name ||| unionType fullType names := rfl
      rw [List.forall_mem_cons, ← ih, split, BitVec.and_or_distrib_right]
      exact BitVec.or_eq_zero_iff

theorem readPart_cons {name : Bytes} {names : List Bytes} (inside : name :: names ≠ [[]]) :
    readPart (name :: names) = name :: readPart names := by
  cases names with
  | nil =>
      have named : name ≠ [] := by simpa using inside
      simp [readPart, named]
  | cons next names =>
      rw [readPart, readPart, List.getLast?_cons_cons]
      split <;> rfl

theorem readNames_of_known {scan : PermissionMask × PermissionMask} {names : List Bytes}
    (known : ∀ name ∈ readPart names, nameType fullType name ≠ 0) :
    readNames fullType scan names =
      some (((readPart names).getLast?.map (nameType fullType)).getD scan.1,
        scan.2 ||| unionType fullType (readPart names)) := by
  induction names generalizing scan with
  | nil => simp [readNames, readPart, unionType]
  | cons name names ih =>
      by_cases alone : name :: names = [[]]
      · rw [alone]
        simp [readNames, readPart, unionType]
      · rw [readPart_cons alone] at known ⊢
        rw [List.forall_mem_cons] at known
        have union : unionType fullType (name :: readPart names) =
            nameType fullType name ||| unionType fullType (readPart names) := rfl
        rw [readNames_cons alone, if_neg known.1, ih known.2, union, BitVec.or_assoc,
          List.getLast?_cons]
        cases (readPart names).getLast? <;> rfl

theorem readNames_of_unknown {scan : PermissionMask × PermissionMask} {names : List Bytes}
    (unknown : ¬ ∀ name ∈ readPart names, nameType fullType name ≠ 0) :
    readNames fullType scan names = none := by
  induction names generalizing scan with
  | nil => simp [readPart] at unknown
  | cons name names ih =>
      by_cases alone : name :: names = [[]]
      · rw [alone] at unknown
        simp [readPart] at unknown
      · rw [readPart_cons alone, List.forall_mem_cons] at unknown
        rw [readNames_cons alone]
        by_cases first : nameType fullType name = 0
        · rw [if_pos first]
        · rw [if_neg first]
          exact ih fun known => unknown ⟨first, known⟩

end Scan

section Result

/-- The ban is named last if it is named. -/
def BannedLast (names : List Bytes) : Prop :=
  literal "banned" ∈ names → names.getLast? = some (literal "banned")

instance (names : List Bytes) : Decidable (BannedLast names) :=
  inferInstanceAs (Decidable (_ → _))

variable {entityType : Nat}

theorem unionType_possible_iff {names : List Bytes} {permType : PermissionMask}
    (last : ∀ name, names.getLast? = some name →
      permType = nameType (getPossiblePermissionTypes entityType) name) :
    unionType (getPossiblePermissionTypes entityType) names &&&
        ~~~(if permType = .ofNat 32 mcPtpBanned then
          getPossiblePermissionTypes entityType ||| .ofNat 32 mcPtpBanned
          else getPossiblePermissionTypes entityType) = 0 ↔
      (∀ name ∈ names, nameType (getPossiblePermissionTypes entityType) name &&&
        ~~~(getPossiblePermissionTypes entityType ||| .ofNat 32 mcPtpBanned) = 0) ∧
        BannedLast names := by
  rw [unionType_and_eq_zero_iff]
  cases isLast : names.getLast? with
  | none =>
      rw [List.getLast?_eq_none_iff] at isLast
      simp [isLast, BannedLast]
  | some name =>
      have bannedIff := nameType_eq_banned_iff entityType name
      rw [← last name isLast] at bannedIff
      by_cases isBanned : name = literal "banned"
      · rw [if_pos (bannedIff.mpr isBanned), and_iff_left]
        intro _
        rw [isLast, isBanned]
      · rw [if_neg (mt bannedIff.mp isBanned)]
        have notNamed : BannedLast names ↔ literal "banned" ∉ names := by
          constructor
          · intro bannedLast named
            rw [bannedLast named] at isLast
            exact isBanned (Option.some.inj isLast).symm
          · exact fun absent named => absurd named absent
        rw [notNamed]
        constructor
        · intro possible
          constructor
          · exact fun other isIn => ((nameType_and_eq_zero_iff entityType other).mp
              (possible other isIn)).2
          · intro named
            exact ((nameType_and_eq_zero_iff entityType _).mp (possible _ named)).1 rfl
        · rintro ⟨possible, absent⟩ other isIn
          refine (nameType_and_eq_zero_iff entityType other).mpr ⟨?_, possible other isIn⟩
          rintro rfl
          exact absent isIn

/-- What `GetPermissionType` returns: the union of the types of the names that are read, if all
are names of permissions and the ban is named last. -/
theorem getPermissionType_eq (initial : PermissionMask) (str : CString) (entityType : Nat) :
    getPermissionType initial str entityType =
      if (∀ name ∈ readPart str.names, IsPermissionName entityType name) ∧
          BannedLast (readPart str.names) then
        unionType (getPossiblePermissionTypes entityType) (readPart str.names)
      else 0 := by
  have run := @foldlM_readByte (getPossiblePermissionTypes entityType) _ str.noZero
    ⟨[], initial, 0⟩ List.not_mem_nil
  rw [List.nil_append] at run
  change _ = readNames _ _ str.names at run
  rw [getPermissionType]
  by_cases known : ∀ name ∈ readPart str.names,
      nameType (getPossiblePermissionTypes entityType) name ≠ 0
  · rw [readNames_of_known known, Option.map_eq_some_iff] at run
    obtain ⟨scan, ran, types⟩ := run
    obtain ⟨permType, result⟩ := Prod.mk.inj types
    rw [ran]
    have union : scan.result =
        unionType (getPossiblePermissionTypes entityType) (readPart str.names) :=
      result.trans BitVec.zero_or
    change (if _ then 0 else scan.result) = _
    rw [union]
    have valid : (∀ name ∈ readPart str.names, IsPermissionName entityType name) ↔
        ∀ name ∈ readPart str.names, nameType (getPossiblePermissionTypes entityType) name &&&
          ~~~(getPossiblePermissionTypes entityType ||| .ofNat 32 mcPtpBanned) = 0 :=
      forall₂_congr fun name isIn => and_iff_right (known name isIn)
    have possible := @unionType_possible_iff entityType (readPart str.names) scan.permType
      fun name isLast => by
        rw [permType, isLast]
        rfl
    rw [← valid] at possible
    rw [ite_not]
    exact if_congr possible rfl rfl
  · rw [readNames_of_unknown known, Option.map_eq_none_iff] at run
    rw [run, if_neg]
    exact fun both => known fun name isIn => (both.1 name isIn).1

/-- The union of the types of names has a bit if one of them is a name. -/
theorem unionType_ne_zero {names : List Bytes} (some : names ≠ [])
    (valid : ∀ name ∈ names, IsPermissionName entityType name) :
    unionType (getPossiblePermissionTypes entityType) names ≠ 0 := by
  cases names with
  | nil => exact absurd rfl some
  | cons name names =>
      intro none
      have first : nameType (getPossiblePermissionTypes entityType) name = 0 :=
        (BitVec.or_eq_zero_iff.mp none).1
      exact (valid name (List.mem_cons_self ..)).1 first

theorem not_isPermissionName_nil : ¬ IsPermissionName entityType [] :=
  fun named => named.1 nameType_nil

/-- The mask of a set of names. -/
theorem isTypeOfNames_iff {names : List Bytes} (some : names ≠ []) {mask : PermissionMask} :
    IsTypeOfNames entityType {name | name ∈ names} mask ↔
      mask = if ∀ name ∈ names, IsPermissionName entityType name then
        unionType (getPossiblePermissionTypes entityType) names else 0 := by
  by_cases valid : ∀ name ∈ names, IsPermissionName entityType name
  · rw [if_pos valid]
    have noneUnknown : ¬ ∃ name ∈ {name | name ∈ names}, ¬ IsPermissionName entityType name := by
      rintro ⟨name, isIn, unknown⟩
      exact unknown (valid name isIn)
    constructor
    · intro isType
      have nonzero : mask ≠ 0 := fun zero => noneUnknown (isType.eq_zero_iff.mp zero)
      ext bit inside
      have same := (isType.union nonzero bit).trans (getLsbD_unionType names bit).symm
      exact Bool.eq_iff_iff.mpr same
    · rintro rfl
      exact ⟨iff_of_false (unionType_ne_zero some valid) noneUnknown,
        fun _ bit => getLsbD_unionType names bit⟩
  · rw [if_neg valid]
    have unknown : ∃ name ∈ {name | name ∈ names}, ¬ IsPermissionName entityType name := by
      by_contra allKnown
      refine valid fun name isIn => ?_
      by_contra notName
      exact allKnown ⟨name, isIn, notName⟩
    constructor
    · exact fun isType => isType.eq_zero_iff.mpr unknown
    · rintro rfl
      exact ⟨iff_of_true rfl unknown, fun nonzero => absurd rfl nonzero⟩

theorem CString.names_ne_nil (str : CString) : str.names ≠ [] :=
  List.splitOn_ne_nil comma str.bytes

/-- The types of a list of names are the ones of the set of its names, unless an empty name
stands behind names that are read, or the ban is named but not last. -/
theorem getPermissionType_isTypeOfNames_iff (initial : PermissionMask) (str : CString)
    (entityType : Nat) :
    IsTypeOfNames entityType {name | name ∈ str.names}
        (getPermissionType initial str entityType) ↔
      (∀ front, str.names = front ++ [[]] → front ≠ [] →
        (∀ name ∈ front, IsPermissionName entityType name) → ¬ BannedLast front) ∧
      ((∀ name ∈ str.names, IsPermissionName entityType name) → BannedLast str.names) := by
  rw [isTypeOfNames_iff str.names_ne_nil, getPermissionType_eq]
  by_cases trailing : str.names.getLast? = some []
  · have emptyIn : [] ∈ str.names := List.mem_of_getLast? trailing
    have notValid : ¬ ∀ name ∈ str.names, IsPermissionName entityType name := fun valid =>
      not_isPermissionName_nil (valid [] emptyIn)
    have frontEq : str.names = str.names.dropLast ++ [[]] :=
      (List.dropLast_append_getLast? [] trailing).symm
    have part : readPart str.names = str.names.dropLast := if_pos trailing
    rw [part, if_neg notValid, ite_eq_right_iff, and_iff_left fun valid => absurd valid notValid]
    constructor
    · intro zero front isFront some valid bannedLast
      obtain rfl : front = str.names.dropLast := by rw [isFront, List.dropLast_concat]
      exact unionType_ne_zero some valid (zero ⟨valid, bannedLast⟩)
    · rintro fails ⟨valid, bannedLast⟩
      by_cases empty : str.names.dropLast = []
      · rw [empty]
        rfl
      · exact absurd bannedLast (fails _ frontEq empty valid)
  · have part : readPart str.names = str.names := if_neg trailing
    have noFront : ∀ front, str.names ≠ front ++ [[]] := by
      intro front isFront
      rw [isFront, List.getLast?_concat] at trailing
      exact trailing rfl
    rw [part, and_iff_right fun front isFront => absurd isFront (noFront front)]
    by_cases valid : ∀ name ∈ str.names, IsPermissionName entityType name
    · rw [if_pos valid]
      by_cases bannedLast : BannedLast str.names
      · rw [if_pos ⟨valid, bannedLast⟩]
        exact iff_of_true rfl fun _ => bannedLast
      · rw [if_neg fun both => bannedLast both.2]
        have nonzero := unionType_ne_zero str.names_ne_nil valid
        exact iff_of_false (fun zero => nonzero zero.symm) fun last => bannedLast (last valid)
    · rw [if_neg valid, if_neg fun both => valid both.1]
      exact iff_of_true rfl fun both => absurd both valid

/-- A ban before another permission makes the list invalid, and an empty name at the end of a
list does not. -/
theorem getPermissionType_not_isTypeOfNames :
    ¬ IsTypeOfNames mcEntTypeNone {name | name ∈ (CString.ofBytes (literal "banned,connect")).names}
        (getPermissionType 0 (CString.ofBytes (literal "banned,connect")) mcEntTypeNone) ∧
      ¬ IsTypeOfNames mcEntTypeNone {name | name ∈ (CString.ofBytes (literal "connect,")).names}
        (getPermissionType 0 (CString.ofBytes (literal "connect,")) mcEntTypeNone) := by
  constructor <;>
  · rw [isTypeOfNames_iff (CString.names_ne_nil _)]
    decide +kernel

end Result

end HdacNode
