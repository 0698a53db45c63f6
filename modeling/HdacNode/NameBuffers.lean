import HdacNode.AcceptIssues
import HdacNode.DetailsParams

/-!
# Copies of names and reads of numbers

The scan of a new asset, `InsertEntity`, `InsertAsset` and `mc_EntityDetails::Set` copy the
value of a name parameter into buffers for names, and read numbers from other parameters.  The
sizes come from the details script, and not every consumer tests them.
-/

namespace HdacNode

open DetailsScript

/-- A use of a value of a details script: the copy of a name, or the read of a number with
`mc_GetLE`. -/
inductive BufferUse where
  | nameCopy (size : Nat)
  | numberRead (size : Nat)
  deriving DecidableEq, Repr

/-- The size that the use is made for. -/
def BufferUse.Fits : BufferUse → Prop
  | .nameCopy size => size ≤ mcEntMaxNameSize
  | .numberRead size => size ≤ 8

instance (use : BufferUse) : Decidable use.Fits := by
  cases use <;> exact Nat.decLe _ _

/-- The name of an asset that `InsertAsset` is called with. -/
structure AssetName where
  bytes : Bytes
  noZero : 0 ∉ bytes
  fits : bytes.length ≤ mcEntMaxNameSize

namespace BufferUse

section Uses

/-- The uses in the scan of a new asset. -/
def ofNewAsset (script : Bytes) : List BufferUse :=
  let name := findSpecialParam script mcEntSprmName
  let multiple := findSpecialParam script mcEntSprmAssetMultiple
  (if name.1 < script.length then [.nameCopy name.2] else []) ++
    (if multiple.1 < script.length then [.numberRead multiple.2] else [])

/-- The uses in the scan of an element of `AcceptAssetGenesisFromPredefinedIssuers`. -/
def ofScan (scan : IssueScan) (element : Bytes) : List BufferUse :=
  match getNewEntityType element with
  | .error _ => []
  | .ok found =>
    if found.type = mcEntTypeAsset ∧ scan.detailsType = none ∧ found.isUpdate = false then
      ofNewAsset found.script
    else []

/-- The copy of the name in `mc_EntityDetails::Set`. -/
def ofSet (script : Bytes) : List BufferUse :=
  let special := findSpecialParam script mcEntSprmName
  let param := if special.1 = script.length then findNamedParam script nameParam else special
  if script.length ≤ param.1 then []
  else if param.2 = 2 ∧ script[param.1]? = some 0x2a then []
  else [.nameCopy param.2]

/-- The copy of the name of a stream in `InsertEntity`. -/
def ofStreamName (script : Bytes) : List BufferUse :=
  let param := findSpecialParam script mcEntSprmName
  if param.1 ≠ script.length ∧ param.2 ≠ 0 ∧ script[param.1 + param.2 - 1]? ≠ some 0 then
    [.nameCopy param.2]
  else []

/-- The reads of the start block of an upgrade. -/
def ofStartBlock (script : Bytes) : List BufferUse :=
  let startBlock := findSpecialParam script mcEntSprmUpgradeStartBlock
  if startBlock.1 = script.length ∨ startBlock.2 = 0 ∨ 4 < startBlock.2 then []
  else [.numberRead startBlock.2]

/-- The reads of the checks of an upgrade. -/
def ofUpgrade (script : Bytes) : List BufferUse :=
  let version := findSpecialParam script mcEntSprmUpgradeProtocolVersion
  if version.1 = script.length ∨ version.2 = 0 ∨ 4 < version.2 then []
  else .numberRead version.2 ::
    if toInt32 (getLE (value script version)) < 0 then [] else ofStartBlock script

/-- The uses in `InsertEntity`. -/
def ofInsertEntity (entityType : Nat) (script specialScript : Bytes) : List BufferUse :=
  ofStreamName script ++
    (if entityType = mcEntTypeUpgrade then ofUpgrade script else []) ++
    (if entityType = mcEntTypeUpgrade ∧ AssetDB.upgradeScriptFails script then []
      else ofSet (specialScript ++ (AssetDB.streamNameParam script).getD [] ++ script))

/-- The uses in `InsertAsset`. -/
def ofInsertAsset (name : Bytes) (multiple : Nat) (script specialScript : Bytes) :
    List BufferUse :=
  ofSet (specialScript ++ AssetDB.assetParams name multiple script ++ script)

end Uses

end BufferUse

/-- A call that uses values of a details script. -/
inductive BufferCall where
  | scanDetails (scan : IssueScan) (element : Bytes)
  | insertEntity (entityType : Nat) (owners : List (Address × Nat)) (script : Bytes)
  | insertAsset (name : AssetName) (multiple : Nat) (owners : List (Address × Nat))
      (script : Bytes)

namespace BufferCall

/-- The uses that a call makes. -/
def uses : BufferCall → List BufferUse
  | .scanDetails scan element => BufferUse.ofScan scan element
  | .insertEntity entityType owners script =>
    BufferUse.ofInsertEntity entityType script (AcceptCall.ownersScript owners)
  | .insertAsset name multiple owners script =>
    BufferUse.ofInsertAsset name.bytes multiple script (AcceptCall.ownersScript owners)

end BufferCall

namespace DetailsScript

/-- The first name in a details script. -/
def firstName (script : Bytes) : Option Bytes := specialValue script mcEntSprmName

/-- The name that an entity with a details script gets. -/
def entityName (script : Bytes) : Option Bytes :=
  (firstName script).or (namedValue script nameParam)

/-- A value is at most as long as a name. -/
def Short (value : Option Bytes) : Prop := ∀ bytes ∈ value, bytes.length ≤ mcEntMaxNameSize

/-- The first name of a script ends with a zero byte. -/
def EndsName (script : Bytes) : Prop := ∃ name ∈ firstName script, name.getLast? = some 0

/-- The first name of a script has to be stored once more. -/
def Restored (script name : Bytes) : Prop :=
  firstName script = some name ∧ name ≠ [] ∧ name.getLast? ≠ some 0

end DetailsScript

namespace BufferCall

/-- The names and the numbers of a call are short enough for it: the name that the call
copies, with the zero byte that it puts behind a name that it stores itself. -/
def ShortValues : BufferCall → Prop
  | .scanDetails scan element =>
    ∀ found, getNewEntityType element = .ok found → found.type = mcEntTypeAsset →
      scan.detailsType = none → found.isUpdate = false →
      Short (firstName found.script) ∧
        ∀ multiple ∈ specialValue found.script mcEntSprmAssetMultiple, multiple.length ≤ 8
  | .insertEntity entityType _ script =>
    (∀ name, Restored script name → name.length ≤ mcEntMaxNameSize) ∧
      (¬ (entityType = mcEntTypeUpgrade ∧ AssetDB.upgradeScriptFails script) →
        (∀ name, Restored script name →
          (name.takeWhile (· ≠ 0)).length < mcEntMaxNameSize) ∧
        ((∀ name, ¬ Restored script name) → Short (entityName script)))
  | .insertAsset name _ _ script =>
    (name.bytes = [] ∨ EndsName script → Short (entityName script)) ∧
      (name.bytes ≠ [] → ¬ EndsName script → name.bytes.length < mcEntMaxNameSize)

end BufferCall

namespace BufferUse

section Single

theorem nameCopy_fits_iff {size : Nat} :
    (∀ use ∈ [nameCopy size], use.Fits) ↔ size ≤ mcEntMaxNameSize := by
  rw [List.forall_mem_singleton]
  rfl

theorem ofSet_fits_iff (script : Bytes) :
    (∀ use ∈ ofSet script, use.Fits) ↔ Short (entityName script) := by
  have copied {param : Nat × Nat} {found : Option Bytes} (finds : Finds script param found) :
      (∀ use ∈ (if script.length ≤ param.1 then []
        else if param.2 = 2 ∧ script[param.1]? = some 0x2a then []
        else [nameCopy param.2]), use.Fits) ↔ Short found := by
    have inside := finds.inside_iff
    cases found with
    | none =>
      have outside : script.length ≤ param.1 := by simpa using inside
      rw [if_pos outside]
      simp [Short]
    | some name =>
      have short : Short (some name) ↔ name.length ≤ mcEntMaxNameSize := by simp [Short]
      rw [if_neg (by simpa using inside), short, ← finds.length_eq]
      split_ifs with star
      · have small : param.2 ≤ mcEntMaxNameSize := by
          rw [star.1]
          decide
        simp [small]
      · exact nameCopy_fits_iff
  have special := findSpecialParam_finds script mcEntSprmName
  rw [ofSet, entityName]
  cases name : firstName script with
  | none =>
    have nowhere : findSpecialParam script mcEntSprmName = (script.length, 0) := by
      rw [← firstName, name] at special
      exact special
    simp only [nowhere, if_true, Option.none_or]
    exact copied (findNamedParam_finds script nameParam)
  | some bytes =>
    rw [← firstName, name] at special
    have inside : (findSpecialParam script mcEntSprmName).1 < script.length :=
      special.inside_iff.mpr rfl
    simp only [inside.ne, if_false, Option.some_or]
    exact copied special

theorem restored_iff (script : Bytes) :
    ((findSpecialParam script mcEntSprmName).1 ≠ script.length ∧
      (findSpecialParam script mcEntSprmName).2 ≠ 0 ∧
      script[(findSpecialParam script mcEntSprmName).1 +
        (findSpecialParam script mcEntSprmName).2 - 1]? ≠ some 0) ↔
      ∃ name, Restored script name := by
  have special := findSpecialParam_finds script mcEntSprmName
  cases found : firstName script with
  | none =>
    rw [← firstName, found] at special
    have nowhere : findSpecialParam script mcEntSprmName = (script.length, 0) := special
    simp [nowhere, Restored, found]
  | some name =>
    rw [← firstName, found] at special
    have inside := special.inside_iff.mpr rfl
    have length := special.length_eq
    by_cases empty : name = []
    · simp [Restored, found, length, empty]
    · rw [special.last_eq empty, length]
      simp [Restored, found, empty, inside.ne]

theorem ofStreamName_fits_iff (script : Bytes) :
    (∀ use ∈ ofStreamName script, use.Fits) ↔
      ∀ name, Restored script name → name.length ≤ mcEntMaxNameSize := by
  have special := findSpecialParam_finds script mcEntSprmName
  rw [ofStreamName]
  split_ifs with again
  · obtain ⟨name, restored⟩ := (restored_iff script).mp again
    rw [← firstName, restored.1] at special
    rw [nameCopy_fits_iff, special.length_eq]
    constructor
    · intro short other otherRestored
      have same : other = name := Option.some.inj (otherRestored.1.symm.trans restored.1)
      rwa [same]
    · exact fun short => short name restored
  · rw [restored_iff] at again
    simp only [List.not_mem_nil, false_implies, implies_true, true_iff]
    exact fun name restored => absurd ⟨name, restored⟩ again

theorem ofUpgrade_fits (script : Bytes) : ∀ use ∈ ofUpgrade script, use.Fits := by
  have startBlock : ∀ use ∈ ofStartBlock script, use.Fits := by
    rw [ofStartBlock]
    split_ifs with guarded
    · simp
    · rw [List.forall_mem_singleton, Fits]
      omega
  rw [ofUpgrade]
  split_ifs with guarded negative
  · simp
  · rw [List.forall_mem_singleton, Fits]
    omega
  · rw [List.forall_mem_cons, Fits]
    exact ⟨by omega, startBlock⟩

theorem ofNewAsset_fits_iff (script : Bytes) :
    (∀ use ∈ ofNewAsset script, use.Fits) ↔ Short (firstName script) ∧
      ∀ multiple ∈ specialValue script mcEntSprmAssetMultiple, multiple.length ≤ 8 := by
  have used {param : Nat × Nat} {found : Option Bytes} (finds : Finds script param found)
      (use : Nat → BufferUse) (bound : Nat) (fits : ∀ size, (use size).Fits ↔ size ≤ bound) :
      (∀ single ∈ (if param.1 < script.length then [use param.2] else []), single.Fits) ↔
        ∀ bytes ∈ found, bytes.length ≤ bound := by
    have inside := finds.inside_iff
    cases found with
    | none =>
      rw [if_neg (by simpa using inside)]
      simp
    | some bytes =>
      rw [if_pos (inside.mpr rfl), List.forall_mem_singleton, fits, finds.length_eq]
      simp
  rw [ofNewAsset]
  rw [List.forall_mem_append,
    used (findSpecialParam_finds script mcEntSprmName) nameCopy mcEntMaxNameSize
      (fun size => Iff.rfl),
    used (findSpecialParam_finds script mcEntSprmAssetMultiple) numberRead 8
      (fun size => Iff.rfl)]
  rfl

end Single

end BufferUse

namespace DetailsScript

section Added

/-- The issuers that are stored in front of a script hide none of its parameters. -/
theorem lookup_ownersScript (owners : List (Address × Nat)) (script : Bytes)
    {isKey : ParamKey → Bool} (other : isKey (.special mcEntSprmIssuer) = false) :
    lookup (AcceptCall.ownersScript owners ++ script) isKey = lookup script isKey := by
  have single (value : Bytes) (fits : value.length < 2 ^ 31) (rest : Bytes) :
      lookup (specialParamValue mcEntSprmIssuer value ++ rest) isKey = lookup rest isKey := by
    rw [lookup_specialParamValue isKey mcEntSprmIssuer fits, other]
    rfl
  rw [AcceptCall.ownersScript, List.append_assoc]
  induction (AcceptCall.distinctOwners owners).filter _ with
  | nil => exact single [0] (by decide) script
  | cons entry entries ih =>
    rw [List.flatMap_cons, List.append_assoc, single _ _ _, ih]
    rw [List.length_append, addressBytes, List.length_reverse, length_putLE,
      length_putLE]
    decide

theorem firstName_ownersScript (owners : List (Address × Nat)) (script : Bytes) :
    firstName (AcceptCall.ownersScript owners ++ script) = firstName script := by
  rw [firstName, specialValue, lookup_ownersScript owners script (by decide)]
  rfl

theorem entityName_ownersScript (owners : List (Address × Nat)) (script : Bytes) :
    entityName (AcceptCall.ownersScript owners ++ script) = entityName script := by
  rw [entityName, firstName_ownersScript, entityName, namedValue,
    lookup_ownersScript owners script rfl]
  rfl

theorem entityName_otherParam {code : UInt8} (other : code ≠ mcEntSprmName) {value : Bytes}
    (fits : value.length < 2 ^ 31) (script : Bytes) :
    entityName (specialParamValue code value ++ script) = entityName script := by
  have notName : decide (ParamKey.special code = .special mcEntSprmName) = false := by
    simpa using other
  rw [entityName, firstName, specialValue, lookup_specialParamValue _ _ fits, notName, namedValue,
    lookup_specialParamValue _ _ fits]
  rfl

/-- A name that is stored in front of a script is the one of the entity. -/
theorem entityName_storedName {name : Bytes} (fits : name.length ≤ mcEntMaxNameSize)
    (script : Bytes) :
    entityName (specialParamValue mcEntSprmName (name ++ [0]) ++ script) =
      some (name ++ [0]) := by
  have small : (name ++ [0]).length < 2 ^ 31 := by
    have bound : mcEntMaxNameSize = 32 := rfl
    rw [List.length_append]
    simp only [List.length_singleton]
    omega
  rw [entityName, firstName, specialValue, lookup_specialParamValue _ _ small]
  simp

end Added

end DetailsScript

namespace BufferCall

section Calls

theorem short_storedName {name : Bytes} :
    Short (some (name ++ [0])) ↔ name.length < mcEntMaxNameSize := by
  have length : (name ++ [0]).length = name.length + 1 := List.length_append
  constructor
  · intro short
    have bound := short _ rfl
    omega
  · intro bound bytes found
    cases found
    omega

theorem insertAsset_fits_iff (name : AssetName) (multiple : Nat)
    (owners : List (Address × Nat)) (script : Bytes) :
    (∀ use ∈ (insertAsset name multiple owners script).uses, use.Fits) ↔
      (insertAsset name multiple owners script).ShortValues := by
  have ends : ((findSpecialParam script mcEntSprmName).1 ≠ script.length ∧
      (findSpecialParam script mcEntSprmName).2 ≠ 0 ∧
      script[(findSpecialParam script mcEntSprmName).1 +
        (findSpecialParam script mcEntSprmName).2 - 1]? = some 0) ↔ EndsName script := by
    have special := findSpecialParam_finds script mcEntSprmName
    cases found : firstName script with
    | none =>
      rw [← firstName, found] at special
      have nowhere : findSpecialParam script mcEntSprmName = (script.length, 0) := special
      simp [nowhere, EndsName, found]
    | some value =>
      rw [← firstName, found] at special
      have inside := special.inside_iff.mpr rfl
      by_cases empty : value = []
      · simp [EndsName, found, special.length_eq, empty]
      · rw [special.last_eq empty, special.length_eq]
        simp [EndsName, found, empty, inside.ne]
  have multipleParam (script' : Bytes) :
      entityName ((if (findSpecialParam script mcEntSprmAssetMultiple).1 ≠ script.length then []
        else specialParamValue mcEntSprmAssetMultiple (putLE multiple 4)) ++ script') =
      entityName script' := by
    split_ifs
    · rfl
    · exact entityName_otherParam (by decide) (by rw [length_putLE]; decide) script'
  rw [uses, BufferUse.ofInsertAsset, BufferUse.ofSet_fits_iff, List.append_assoc,
    entityName_ownersScript, AssetDB.assetParams, List.append_assoc, multipleParam, ShortValues]
  by_cases asIs : name.bytes = [] ∨ EndsName script
  · rw [if_pos (asIs.symm.imp_left ends.mpr), List.nil_append]
    constructor
    · exact fun short => ⟨fun _ => short,
        fun named notEnding => absurd asIs (by simp [named, notEnding])⟩
    · exact fun short => short.1 asIs
  · rw [if_neg fun either => asIs (either.imp_left ends.mp).symm, entityName_storedName name.fits, short_storedName]
    push Not at asIs
    constructor
    · exact fun short => ⟨fun either => absurd either (by simp [asIs]), fun _ _ => short⟩
    · exact fun short => short.2 asIs.1 asIs.2

theorem insertEntity_fits_iff (entityType : Nat) (owners : List (Address × Nat))
    (script : Bytes) :
    (∀ use ∈ (insertEntity entityType owners script).uses, use.Fits) ↔
      (insertEntity entityType owners script).ShortValues := by
  have upgrade : ∀ use ∈ (if entityType = mcEntTypeUpgrade then BufferUse.ofUpgrade script
      else []), use.Fits := by
    split_ifs
    · exact BufferUse.ofUpgrade_fits script
    · simp
  have stored (short : ∀ name, Restored script name → name.length ≤ mcEntMaxNameSize) :
      (∀ use ∈ BufferUse.ofSet (AcceptCall.ownersScript owners ++
        (AssetDB.streamNameParam script).getD [] ++ script), use.Fits) ↔
      (∀ name, Restored script name →
        (name.takeWhile (· ≠ 0)).length < mcEntMaxNameSize) ∧
        ((∀ name, ¬ Restored script name) → Short (entityName script)) := by
    rw [BufferUse.ofSet_fits_iff, List.append_assoc, entityName_ownersScript,
      AssetDB.streamNameParam]
    by_cases again : ∃ name, Restored script name
    · rw [if_pos ((BufferUse.restored_iff script).mpr again)]
      obtain ⟨name, restored⟩ := again
      have special := findSpecialParam_finds script mcEntSprmName
      rw [← firstName, restored.1] at special
      have cString : (name.takeWhile (· ≠ 0)).length ≤ mcEntMaxNameSize :=
        (List.takeWhile_sublist _).length_le.trans (short name restored)
      rw [special.length_eq, if_neg (Nat.not_lt.mpr (short name restored)), special.value_eq,
        Option.getD_some, entityName_storedName cString, short_storedName]
      constructor
      · intro fits
        refine ⟨fun other otherRestored => ?_, fun none => absurd restored (none name)⟩
        have same : other = name := Option.some.inj (otherRestored.1.symm.trans restored.1)
        rwa [same]
      · exact fun fits => fits.1 name restored
    · rw [if_neg (fun restored => again ((BufferUse.restored_iff script).mp restored)),
        Option.getD_some, List.nil_append]
      push Not at again
      constructor
      · exact fun fits => ⟨fun name restored => absurd restored (again name), fun _ => fits⟩
      · exact fun fits => fits.2 again
  rw [uses, BufferUse.ofInsertEntity, ShortValues, List.forall_mem_append,
    List.forall_mem_append, BufferUse.ofStreamName_fits_iff]
  rw [and_iff_left upgrade]
  refine and_congr_right fun short => ?_
  split_ifs with fails
  · simp [fails]
  · rw [stored short]
    simp [fails]

theorem scanDetails_fits_iff (scan : IssueScan) (element : Bytes) :
    (∀ use ∈ (scanDetails scan element).uses, use.Fits) ↔
      (scanDetails scan element).ShortValues := by
  rw [uses, BufferUse.ofScan, ShortValues]
  cases read : getNewEntityType element with
  | error err => simp
  | ok found =>
    dsimp only
    split_ifs with isNew
    · rw [BufferUse.ofNewAsset_fits_iff]
      constructor
      · rintro fits _ ⟨rfl⟩ _ _ _
        exact fits
      · exact fun fits => fits found rfl isNew.1 isNew.2.1 isNew.2.2
    · simp only [List.not_mem_nil, false_implies, implies_true, true_iff]
      rintro _ ⟨rfl⟩ isAsset first notUpdate
      exact absurd ⟨isAsset, first, notUpdate⟩ isNew

/-- The copies of names and the reads of numbers in a call stay within their sizes if and
only if its names and numbers are short. -/
theorem fits_iff_shortValues (call : BufferCall) :
    (∀ use ∈ call.uses, use.Fits) ↔ call.ShortValues := by
  cases call with
  | scanDetails scan element => exact scanDetails_fits_iff scan element
  | insertEntity entityType owners script => exact insertEntity_fits_iff entityType owners script
  | insertAsset name multiple owners script =>
    exact insertAsset_fits_iff name multiple owners script

/-- The scan of a new asset copies a name of 40 bytes. -/
theorem scan_copies_longName :
    ¬ ∀ call : BufferCall, ∀ use ∈ call.uses, use.Fits := by
  intro fits
  have longName : BufferUse.nameCopy 40 ∈ (scanDetails AcceptCall.scanIssueStart
      ([0x73, 0x70, 0x6b, 0x6e, 1, 0, 1, 40] ++ List.replicate 40 0x41)).uses := by
    decide +kernel
  exact absurd (fits _ _ longName) (by decide)

end Calls

end BufferCall

end HdacNode
