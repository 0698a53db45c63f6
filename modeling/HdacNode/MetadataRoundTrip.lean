import HdacNode.DetailsParams
import HdacNode.MetadataRecords
import Mathlib.Data.List.TakeWhile

/-!
# Metadata records are read back

The identifier and the letter of an element decide which Get functions look at it.  A record
that survives its format is read back by the Get function of its kind; the other Get functions
refuse it, but for the ones that share its letter on purpose.
-/

namespace HdacNode

section Headers

variable {identifier : Bytes} (size : identifier.length = mcDctScriptIdentifierLen)

include size

/-- The body of an element behind its identifier and letter. -/
theorem body_append (wanted : Bytes) (letter kind : UInt8) (body : Bytes) :
    (if (identifier ++ letter :: body).length < mcDctScriptIdentifierLen + 1 then none
      else if (identifier ++ letter :: body).take mcDctScriptIdentifierLen ≠ wanted then none
      else if (identifier ++ letter :: body)[mcDctScriptIdentifierLen]? ≠ some kind then none
      else some ((identifier ++ letter :: body).drop (mcDctScriptIdentifierLen + 1))) =
      if identifier = wanted ∧ letter = kind then some body else none := by
  have whole : (identifier ++ letter :: body).length = mcDctScriptIdentifierLen + 1 +
      body.length := by
    rw [List.length_append, List.length_cons, size]
    omega
  have start : (identifier ++ letter :: body).take mcDctScriptIdentifierLen = identifier := by
    rw [← size, List.take_left]
  have next : (identifier ++ letter :: body)[mcDctScriptIdentifierLen]? = some letter := by
    rw [List.getElem?_append_right size.le, size, Nat.sub_self]
    rfl
  have behind : (identifier ++ letter :: body).drop (mcDctScriptIdentifierLen + 1) = body := by
    rw [← List.drop_drop, ← size, List.drop_left]
    rfl
  rw [if_neg (by omega), start, next, behind]
  by_cases same : identifier = wanted
  · by_cases kinds : letter = kind <;> simp [same, kinds]
  · simp [same]

theorem elementBody_append (letter kind : UInt8) (body : Bytes) :
    elementBody (identifier ++ letter :: body) kind =
      if identifier = mcDctScriptMultichainIdentifier ∧ letter = kind then some body else none :=
  body_append size mcDctScriptMultichainIdentifier letter kind body

theorem freeDataBody_append (letter kind : UInt8) (body : Bytes) :
    freeDataBody (identifier ++ letter :: body) kind =
      if identifier = mcDctScriptFreeDataIdentifier ∧ letter = kind then some body else none :=
  body_append size mcDctScriptFreeDataIdentifier letter kind body

omit size in
/-- `GetBlockSignature` behind the checks of the identifier and the letter. -/
theorem getBlockSignature_eq (element : Bytes) :
    getBlockSignature element =
      if element.length < mcDctScriptIdentifierLen + 1 + 3 then none
      else (freeDataBody element mcDctScriptMultichainBlockSignaturePrefix).bind fun body =>
        match takeCounted body with
        | some (sig, hashType :: rest) =>
          match takeCounted rest with
          | some (key, []) => some ⟨sig.1, hashType, key.1, key.2⟩
          | _ => none
        | _ => none := by
  rw [getBlockSignature, freeDataBody]
  by_cases short : element.length < mcDctScriptIdentifierLen + 1 + 3
  · rw [if_pos short, if_pos short]
  · have enough : ¬ element.length < mcDctScriptIdentifierLen + 1 := by omega
    rw [if_neg short, if_neg short, if_neg enough]
    split_ifs <;> rfl

namespace MetadataKind

/-- The identifiers and letters that a Get function looks at. -/
def headers : MetadataKind → List (Bytes × UInt8)
  | .permission => [(mcDctScriptMultichainIdentifier, mcDctScriptMultichainPermissionsPrefix)]
  | .blockSignature => [(mcDctScriptFreeDataIdentifier, mcDctScriptMultichainBlockSignaturePrefix)]
  | .assetGenesis => [(mcDctScriptMultichainIdentifier, mcDctScriptMultichainAssetGenesisPrefix)]
  | .assetDetails =>
    [(mcDctScriptFreeDataIdentifier, mcDctScriptMultichainGeneralDetailsPrefix),
      (mcDctScriptFreeDataIdentifier, mcDctScriptMultichainAssetDetailsPrefix)]
  | .generalDetails => [(mcDctScriptFreeDataIdentifier, mcDctScriptMultichainGeneralDetailsPrefix)]
  | .approval => [(mcDctScriptMultichainIdentifier, mcDctScriptMultichainApprovePrefix)]
  | .newEntity =>
    [(mcDctScriptMultichainIdentifier, mcDctScriptMultichainNewEntityPrefix),
      (mcDctScriptMultichainIdentifier, mcDctScriptMultichainUpdateEntityPrefix)]
  | .newEntityType => [(mcDctScriptMultichainIdentifier, mcDctScriptMultichainNewEntityPrefix)]
  | .itemKey => [(mcDctScriptMultichainIdentifier, mcDctScriptMultichainKeyPrefix)]
  | .entity => [(mcDctScriptMultichainIdentifier, mcDctScriptMultichainEntityPrefix)]
  | .cachedScripts => [(mcDctScriptMultichainIdentifier, mcDctScriptMultichainCashedScriptPrefix)]

theorem read_eq_none (kind : MetadataKind) {letter : UInt8}
    (other : (identifier, letter) ∉ kind.headers) (body : Bytes) :
    kind.read (identifier ++ letter :: body) = none := by
  cases kind <;>
    simp only [headers, List.mem_cons, List.not_mem_nil, or_false, Prod.mk.injEq, not_or] at other
  case permission =>
    simp [read, getPermissionElement, elementBody_append size, other]
  case blockSignature =>
    simp [read, getBlockSignature_eq, freeDataBody_append size, other]
  case assetGenesis =>
    simp [read, getAssetGenesis, elementBody_append size, other]
  case assetDetails =>
    simp [read, getAssetDetails, getGeneralDetails, freeDataBody_append size, other]
  case generalDetails =>
    simp [read, getGeneralDetails, freeDataBody_append size, other]
  case approval =>
    simp [read, getApproval, elementBody_append size, other]
  case newEntity =>
    simp [read, getNewEntityType, newEntityElement, elementBody_append size, other]
  case newEntityType =>
    simp [read, getNewEntityTypeOnly, elementBody_append size, other]
  case itemKey =>
    simp [read, getItemKey, elementBody_append size, other]
  case entity =>
    simp [read, getEntityElement, elementBody_append size, other]
  case cachedScripts =>
    simp [read, getCachedScripts, holdsCachedScripts, elementBody_append size, other]

end MetadataKind

end Headers

section Fields

/-- The first field of a body. -/
theorem getLE_take_putLE {value size : Nat} (fits : value < 2 ^ (8 * size)) (rest : Bytes) :
    getLE ((putLE value size ++ rest).take size) = value := by
  have first : (putLE value size ++ rest).take size = putLE value size := by
    have whole : (putLE value size ++ rest).take (putLE value size).length = putLE value size :=
      List.take_left
    rwa [length_putLE] at whole
  rw [first, getLE_putLE fits]

theorem drop_putLE (value size count : Nat) (rest : Bytes) :
    (putLE value size ++ rest).drop (count + size) = rest.drop count := by
  have whole : (putLE value size ++ rest).drop (putLE value size).length = rest := List.drop_left
  rw [length_putLE] at whole
  rw [Nat.add_comm, ← List.drop_drop, whole]

theorem drop_word (value : UInt32) (count : Nat) (rest : Bytes) :
    (putLE value.toNat 4 ++ rest).drop (count + 4) = rest.drop count :=
  drop_putLE value.toNat 4 count rest

theorem drop_byte (value : UInt32) (count : Nat) (rest : Bytes) :
    (putLE value.toNat 1 ++ rest).drop (count + 1) = rest.drop count :=
  drop_putLE value.toNat 1 count rest

theorem getLE_word (value : UInt32) (rest : Bytes) :
    getLE ((putLE value.toNat 4 ++ rest).take 4) = value.toNat :=
  getLE_take_putLE value.toNat_lt rest

/-- The last field of a body. -/
theorem getLE_lastWord (value : UInt32) : getLE ((putLE value.toNat 4).take 4) = value.toNat := by
  have whole := getLE_word value []
  rwa [List.append_nil] at whole

/-- A value of one byte. -/
theorem byte_eq {value : UInt32} (fits : value.toNat < 2 ^ 8) :
    UInt32.ofNat (value &&& 0xff).toUInt8.toNat = value := by
  have masked : value.toNat &&& (2 ^ 8 - 1) = value.toNat := by
    rw [Nat.and_two_pow_sub_one_eq_mod, Nat.mod_eq_of_lt fits]
  rw [← UInt32.toNat_inj]
  simp only [UInt32.toNat_ofNat', UInt32.toNat_toUInt8, UInt32.toNat_and]
  change (value.toNat &&& (2 ^ 8 - 1)) % 2 ^ 8 % 2 ^ 32 = value.toNat
  rw [masked]
  omega

end Fields

section Records

open MetadataRecord

theorem read_permission (type blockFrom blockTo timestamp : UInt32) :
    MetadataKind.permission.read (setPermissionElement type blockFrom blockTo timestamp) =
      some (.permission type blockFrom blockTo timestamp) := by
  rw [MetadataKind.read, setPermissionElement, getPermissionElement, elementBody_append rfl,
    if_neg (by simp [length_putLE]; decide), if_pos ⟨rfl, rfl⟩]
  simp only [List.append_assoc, Option.map_some, getLE_word, drop_word,
    List.drop_zero, getLE_lastWord, UInt32.ofNat_toNat]

theorem takeCounted_append {bytes : Bytes} (fits : bytes.length < 2 ^ 8) (rest : Bytes) :
    takeCounted (putLE bytes.length 1 ++ (bytes ++ rest)) = some (⟨bytes, fits⟩, rest) := by
  have count : (UInt8.ofNat bytes.length).toNat = bytes.length := by
    rw [UInt8.toNat_ofNat', Nat.mod_eq_of_lt fits]
  simp [putLE_one, takeCounted, count]

theorem read_blockSignature {sig key element : Bytes} {hashType : UInt32}
    (written : (blockSignature sig hashType key).element = some element)
    (survives : hashType.toNat < 2 ^ 8) :
    MetadataKind.blockSignature.read element = some (.blockSignature sig hashType key) := by
  rw [MetadataRecord.element] at written
  split_ifs at written with keyFits
  rw [setBlockSignature] at written
  dsimp only at written
  by_cases sigFits : 0xff < sig.length
  · rw [if_pos sigFits] at written
    cases written
  rw [if_neg sigFits] at written
  have shape : mcDctScriptFreeDataIdentifier ++ mcDctScriptMultichainBlockSignaturePrefix ::
      (putLE sig.length 1 ++ (sig ++ hashType.toUInt8 :: (putLE key.length 1 ++ key))) =
      element := by
    simpa using written
  have length : ¬ element.length < mcDctScriptIdentifierLen + 1 + 3 := by
    rw [← shape]
    have identifier : mcDctScriptFreeDataIdentifier.length = mcDctScriptIdentifierLen := rfl
    simp only [List.length_append, List.length_cons, length_putLE, identifier]
    omega
  have keyRead : takeCounted (putLE key.length 1 ++ key) = some (⟨key, keyFits⟩, []) := by
    have whole := takeCounted_append keyFits []
    rwa [List.append_nil] at whole
  have hashTypeRead : hashType.toUInt8.toUInt32 = hashType := by
    rw [← UInt32.toNat_inj, UInt8.toNat_toUInt32, UInt32.toNat_toUInt8, Nat.mod_eq_of_lt survives]
  rw [MetadataKind.read, getBlockSignature_eq, if_neg length, ← shape, freeDataBody_append rfl,
    if_pos (And.intro rfl rfl), Option.bind_some, takeCounted_append (by omega)]
  dsimp only
  rw [keyRead, Option.map_some, hashTypeRead]

theorem toInt64_toUInt64 (quantity : Int64) :
    WrappedTotals.toInt64 (quantity.toUInt64.toNat : Int) = quantity.toInt := by
  rw [Int64.toInt, BitVec.toInt_eq_toNat_bmod, Int64.toNat_toBitVec]
  rfl

theorem getLE_quantity (quantity : Int64) :
    getLE ((putLE quantity.toUInt64.toNat 8).take 8) = quantity.toUInt64.toNat := by
  have small : quantity.toUInt64.toNat < 2 ^ (8 * 8) := by
    have bound := quantity.toUInt64.toNat_lt
    omega
  have whole : (putLE quantity.toUInt64.toNat 8).take 8 = putLE quantity.toUInt64.toNat 8 :=
    List.take_of_length_le (length_putLE _ 8).le
  rw [whole, getLE_putLE small]

theorem read_assetGenesis {quantity : Int64} {element : Bytes}
    (written : setAssetGenesis quantity = some element) :
    MetadataKind.assetGenesis.read element = some (.assetGenesis quantity) := by
  rw [setAssetGenesis] at written
  obtain ⟨nonneg, written⟩ := Option.ite_none_left_eq_some.mp written
  cases written
  have notNegative : ¬ quantity.toInt < 0 := fun negative =>
    nonneg (Int64.lt_iff_toInt_lt.mpr negative)
  have read : getAssetGenesis (mcDctScriptMultichainIdentifier ++
      mcDctScriptMultichainAssetGenesisPrefix :: putLE quantity.toUInt64.toNat 8) =
      .ok quantity.toInt := by
    rw [getAssetGenesis, elementBody_append rfl, if_neg (by simp [length_putLE]; decide),
      if_pos ⟨rfl, rfl⟩]
    dsimp only
    rw [getLE_quantity, toInt64_toUInt64, if_neg notNegative]
  rw [MetadataKind.read, read]
  dsimp only
  rw [Int64.ofInt_toInt]

theorem read_approval {approves timestamp : UInt32} (survives : approves.toNat < 2 ^ 8) :
    MetadataKind.approval.read (setApprovalElement approves timestamp) =
      some (.approval approves timestamp) := by
  rw [MetadataKind.read, setApprovalElement, getApproval, elementBody_append rfl,
    if_neg (by simp [length_putLE]; decide), if_pos ⟨rfl, rfl⟩]
  have first : getLE ((putLE approves.toNat 1 ++ putLE timestamp.toNat 4).take 1) =
      approves.toNat := getLE_take_putLE survives _
  simp only [Option.map_some, first, drop_byte, List.drop_zero,
    getLE_lastWord, UInt32.ofNat_toNat]

theorem read_generalDetails {script element : Bytes}
    (written : setGeneralDetails script = some element) :
    getGeneralDetails element = some script := by
  rw [setGeneralDetails] at written
  obtain ⟨fits, written⟩ := Option.ite_none_left_eq_some.mp written
  cases written
  rw [getGeneralDetails, freeDataBody_append rfl, if_neg, if_pos ⟨rfl, rfl⟩]
  simp [mcDctScriptFreeDataIdentifier, mcDctScriptIdentifierLen]
  omega

theorem takeName_append {name : Bytes} (noZero : 0 ∉ name) {room : Nat}
    (fits : name.length ≤ room) (rest : Bytes) :
    takeName room (name ++ 0 :: rest) = some (name, rest) := by
  induction name generalizing room with
  | nil => cases room <;> rfl
  | cons byte name ih =>
    rw [List.mem_cons, not_or] at noZero
    cases room with
    | zero => simp at fits
    | succ room =>
      rw [List.cons_append, takeName, if_neg (Ne.symm noZero.1), ih noZero.2 (by simpa using fits)]
      rfl

theorem CString.ofBytes_bytes (name : CString) : CString.ofBytes name.bytes = name := by
  have whole : name.bytes.takeWhile (· ≠ 0) = name.bytes := by
    rw [List.takeWhile_eq_self_iff]
    intro byte inside
    have notZero : byte ≠ 0 := fun zero => name.noZero (zero ▸ inside)
    simpa using notZero
  cases name
  simpa [CString.ofBytes] using whole

theorem read_assetDetails {name : CString} {multiple : Int32} {script element : Bytes}
    (written : setAssetDetails name multiple script = some element)
    (survives : name.bytes.length ≤ mcEntMaxNameSize) :
    MetadataKind.assetDetails.read element = some (.assetDetails name multiple script) := by
  rw [setAssetDetails] at written
  obtain ⟨fits, written⟩ := Option.ite_none_left_eq_some.mp written
  cases written
  have notGeneral : getGeneralDetails (mcDctScriptFreeDataIdentifier ++
      mcDctScriptMultichainAssetDetailsPrefix ::
        (putLE multiple.toUInt32.toNat 4 ++ (name.bytes ++ [0]) ++ script)) = none := by
    rw [getGeneralDetails, freeDataBody_append rfl]
    split_ifs with long general
    · rfl
    · exact absurd general.2 (by decide)
    · rfl
  have length : (mcDctScriptFreeDataIdentifier ++ mcDctScriptMultichainAssetDetailsPrefix ::
      (putLE multiple.toUInt32.toNat 4 ++ (name.bytes ++ [0]) ++ script)).length =
      mcDctScriptIdentifierLen + 1 + 4 + 1 + name.bytes.length + script.length := by
    have identifier : mcDctScriptFreeDataIdentifier.length = mcDctScriptIdentifierLen := rfl
    simp only [List.length_append, List.length_cons, List.length_nil, length_putLE, identifier]
    omega
  rw [MetadataKind.read, getAssetDetails, notGeneral]
  dsimp only
  rw [length, if_neg (by omega), if_neg (by omega), freeDataBody_append rfl, if_pos ⟨rfl, rfl⟩]
  dsimp only
  rw [List.append_assoc, getLE_word, drop_word multiple.toUInt32 0, List.drop_zero,
    List.append_assoc, List.singleton_append, takeName_append name.noZero survives]
  simp [CString.ofBytes_bytes]

theorem length_typedElement (kind type : UInt8) (script : Bytes) :
    (mcDctScriptMultichainIdentifier ++ kind :: type :: script).length =
      mcDctScriptIdentifierLen + 1 + 1 + script.length := by
  have identifier : mcDctScriptMultichainIdentifier.length = mcDctScriptIdentifierLen := rfl
  simp only [List.length_append, List.length_cons, identifier]
  omega

theorem read_newEntity {type : UInt32} {update : Bool} {script element : Bytes}
    (written : setNewEntity type update script = some element) (survives : type.toNat < 2 ^ 8) :
    MetadataKind.newEntity.read element = some (.newEntity type update script) := by
  rw [setNewEntity] at written
  obtain ⟨long, written⟩ := Option.ite_none_left_eq_some.mp written
  obtain ⟨unverified, written⟩ := Option.ite_none_left_eq_some.mp written
  cases written
  have verified : DetailsScript.verify script = true := by simpa using unverified
  have found : newEntityElement (mcDctScriptMultichainIdentifier ++
      (if update then mcDctScriptMultichainUpdateEntityPrefix
        else mcDctScriptMultichainNewEntityPrefix) :: (type &&& 0xff).toUInt8 :: script) =
      some ⟨(type &&& 0xff).toUInt8.toNat, update, script⟩ := by
    have sizeFits : mcDctScriptIdentifierLen + 1 + 1 ≤
        mcDctScriptIdentifierLen + 1 + 1 + script.length ∧
        mcDctScriptIdentifierLen + 1 + 1 + script.length ≤
          mcDctScriptIdentifierLen + 1 + 1 + mcEntMaxScriptSize := by omega
    rw [newEntityElement, length_typedElement, elementBody_append rfl, elementBody_append rfl]
    simp only [sizeFits, and_self, decide_true, true_and]
    cases update
    · rfl
    · rfl
  rw [MetadataKind.read, getNewEntityType, found]
  dsimp only
  rw [if_pos verified]
  dsimp only
  rw [byte_eq survives]

theorem read_newEntity_type {type : UInt32} (script : Bytes) (survives : type.toNat < 2 ^ 8) :
    MetadataKind.newEntityType.read (mcDctScriptMultichainIdentifier ++
      mcDctScriptMultichainNewEntityPrefix :: (type &&& 0xff).toUInt8 :: script) =
      some (.newEntityType type) := by
  rw [MetadataKind.read, getNewEntityTypeOnly, length_typedElement, elementBody_append rfl,
    if_neg (by omega), if_pos ⟨rfl, rfl⟩]
  dsimp only [Option.map_some]
  rw [byte_eq survives]

theorem read_itemKey {key element : Bytes} (written : setItemKey key = some element) :
    MetadataKind.itemKey.read element = some (.itemKey key) := by
  rw [setItemKey] at written
  obtain ⟨fits, written⟩ := Option.ite_none_left_eq_some.mp written
  cases written
  have length : (mcDctScriptMultichainIdentifier ++ mcDctScriptMultichainKeyPrefix :: key).length =
      mcDctScriptIdentifierLen + 1 + key.length := by
    have identifier : mcDctScriptMultichainIdentifier.length = mcDctScriptIdentifierLen := rfl
    rw [List.length_append, List.length_cons, identifier]
    omega
  rw [MetadataKind.read, getItemKey, length, if_neg (by omega), elementBody_append rfl,
    if_pos ⟨rfl, rfl⟩]
  rfl

theorem read_entity (shortTxid : ShortTxid) :
    MetadataKind.entity.read (setEntityElement shortTxid) = some (.entity shortTxid) := by
  have length : (setEntityElement shortTxid).length =
      mcDctScriptIdentifierLen + 1 + mcAstShortTxidSize := by
    have identifier : mcDctScriptMultichainIdentifier.length = mcDctScriptIdentifierLen := rfl
    rw [setEntityElement, List.length_append, List.length_cons, identifier, shortTxid.size]
    omega
  rw [MetadataKind.read, getEntityElement, if_neg (by omega), setEntityElement,
    elementBody_append rfl, if_pos ⟨rfl, rfl⟩, Option.bind_some, dif_pos shortTxid.size]

section CachedScripts

theorem toInt32_vin {vin : Int32} (nonneg : 0 ≤ vin) :
    toInt32 vin.toUInt32.toNat = vin.toInt ∧ 0 ≤ vin.toInt := by
  have positive : 0 ≤ vin.toInt := by simpa using Int32.le_iff_toInt_le.mp nonneg
  have word : vin.toInt =
      if 2 * vin.toUInt32.toNat < 2 ^ 32 then (vin.toUInt32.toNat : Int)
      else vin.toUInt32.toNat - (2 ^ 32 : Nat) := by
    rw [Int32.toInt, BitVec.toInt_eq_toNat_cond, Int32.toNat_toBitVec]
  have bound := vin.toUInt32.toNat_lt
  refine ⟨?_, positive⟩
  rw [word] at positive ⊢
  rw [toInt32, Nat.mod_eq_of_lt bound]
  split_ifs at positive ⊢ <;> omega

/-- What `GetCachedScript` finds of an input that is not negative. -/
def CachedInput.found (input : CachedInput) : Nat × Bytes := (input.vin.toInt.toNat, input.script)

theorem cachedScriptAt_append (start : Bytes) {input : CachedInput} (nonneg : 0 ≤ input.vin)
    (rest : Bytes) :
    cachedScriptAt (start ++ (cachedScriptBytes input ++ rest)) start.length =
      some ⟨input.vin.toInt.toNat, input.script,
        start.length + (cachedScriptBytes input).length⟩ := by
  obtain ⟨vinRead, positive⟩ := toInt32_vin nonneg
  have entry : cachedScriptBytes input ++ rest = putLE input.vin.toUInt32.toNat 4 ++
      (putVarInt input.script.length ++ (input.script ++ rest)) := by
    simp [cachedScriptBytes]
  have entrySize : (cachedScriptBytes input).length =
      4 + (putVarInt input.script.length).length + input.script.length := by
    simp only [cachedScriptBytes, List.length_append, length_putLE]
  have whole : (start ++ (cachedScriptBytes input ++ rest)).length =
      start.length + (cachedScriptBytes input).length + rest.length := by
    simp only [List.length_append]
    omega
  have first : (start ++ (cachedScriptBytes input ++ rest)).drop start.length =
      cachedScriptBytes input ++ rest := List.drop_left
  have second : (start ++ (cachedScriptBytes input ++ rest)).drop (start.length + 4) =
      putVarInt input.script.length ++ (input.script ++ rest) := by
    rw [← List.drop_drop, first, entry, drop_word input.vin.toUInt32 0, List.drop_zero]
  have third : (start ++ (cachedScriptBytes input ++ rest)).drop
      (start.length + 4 + (putVarInt input.script.length).length) = input.script ++ rest := by
    rw [← List.drop_drop, second, List.drop_left]
  rw [cachedScriptAt, if_neg (by omega), first, second, entry, getLE_word, vinRead,
    DetailsScript.getVarInt_putVarInt input.fits, ← entry]
  dsimp only
  rw [if_neg (by omega), if_neg (by omega), third, Int.toNat_natCast, List.take_left, entrySize]
  congr 2
  omega

theorem cachedScriptsFrom_append {element start : Bytes} {inputs : List CachedInput}
    (shape : element = start ++ inputs.flatMap cachedScriptBytes)
    (holds : holdsCachedScripts element = true) (behind : start ≠ [])
    (nonneg : ∀ input ∈ inputs, 0 ≤ input.vin) {rounds : Nat} (enough : inputs.length < rounds) :
    cachedScriptsFrom element rounds start.length = some (inputs.map CachedInput.found) := by
  have positive : start.length ≠ 0 := fun zero => behind (List.eq_nil_of_length_eq_zero zero)
  induction inputs generalizing start rounds with
  | nil =>
    cases rounds with
    | zero => omega
    | succ rounds =>
      have atEnd : element.length = start.length := by rw [shape]; simp
      rw [cachedScriptsFrom, getCachedScript, holds, if_neg positive, if_pos atEnd]
      rfl
  | cons input inputs ih =>
    cases rounds with
    | zero => omega
    | succ rounds =>
      rw [List.flatMap_cons] at shape
      have entrySize : 0 < (cachedScriptBytes input).length := by
        simp only [cachedScriptBytes, List.length_append, length_putLE]
        omega
      have notEnd : element.length ≠ start.length := by
        rw [shape, List.length_append, List.length_append]
        omega
      have found := cachedScriptAt_append start (nonneg input List.mem_cons_self)
        (inputs.flatMap cachedScriptBytes)
      rw [← shape] at found
      have laterShape : element =
          (start ++ cachedScriptBytes input) ++ inputs.flatMap cachedScriptBytes := by
        rw [shape, List.append_assoc]
      have enoughLater : inputs.length < rounds := by simpa using enough
      have next := ih laterShape (by simp [behind])
        (fun other later => nonneg other (List.mem_cons_of_mem _ later)) enoughLater
        (by rw [List.length_append]; omega)
      rw [List.length_append] at next
      rw [cachedScriptsFrom, getCachedScript, holds, if_neg positive, if_neg notEnd, found]
      change (cachedScriptsFrom element rounds
        (start.length + (cachedScriptBytes input).length)).map _ = _
      rw [next]
      rfl

theorem read_cachedScripts {inputs : List CachedInput}
    (nonneg : ∀ input ∈ inputs, 0 ≤ input.vin) :
    MetadataKind.cachedScripts.read (setCachedScripts inputs) = some (.cachedScripts inputs) := by
  have holds : holdsCachedScripts (setCachedScripts inputs) = true := by
    rw [holdsCachedScripts, setCachedScripts, elementBody_append rfl, if_pos ⟨rfl, rfl⟩]
    rfl
  have entries : inputs.length ≤ (inputs.flatMap cachedScriptBytes).length := by
    rw [List.length_flatMap]
    have counted : inputs.length =
        (inputs.map fun input => (cachedScriptBytes input).length).length :=
      (List.length_map _).symm
    refine counted.le.trans (List.length_le_sum_of_one_le _ fun size sized => ?_)
    obtain ⟨input, _, rfl⟩ := List.mem_map.mp sized
    simp only [cachedScriptBytes, List.length_append, length_putLE]
    omega
  have shape : setCachedScripts inputs =
      (mcDctScriptMultichainIdentifier ++ [mcDctScriptMultichainCashedScriptPrefix]) ++
        inputs.flatMap cachedScriptBytes := by
    simp [setCachedScripts]
  have enough : inputs.length < (setCachedScripts inputs).length := by
    rw [shape, List.length_append]
    exact Nat.lt_add_left_iff_pos.mpr (by decide) |>.trans_le (Nat.add_le_add_left entries _)
  have scripts : getCachedScripts (setCachedScripts inputs) =
      some (inputs.map CachedInput.found) := by
    rw [getCachedScripts, if_pos holds, cachedScriptsFrom, getCachedScript, holds]
    exact cachedScriptsFrom_append shape holds (by simp) nonneg enough
  have back (input : CachedInput) (vinNonneg : 0 ≤ input.vin) :
      Int32.ofNat input.found.1 = input.vin := by
    obtain ⟨_, positive⟩ := toInt32_vin vinNonneg
    rw [CachedInput.found, ← Int32.ofInt_eq_ofNat, Int.toNat_of_nonneg positive, Int32.ofInt_toInt]
  have all : ((inputs.map CachedInput.found).mapM fun found =>
      if fits : found.2.length < 2 ^ 31 then some (⟨.ofNat found.1, found.2, fits⟩ : CachedInput)
      else none) = some inputs := by
    clear holds scripts enough shape entries
    induction inputs with
    | nil => rfl
    | cons input inputs ih =>
      have first : (if fits : input.found.2.length < 2 ^ 31 then
          some (⟨.ofNat input.found.1, input.found.2, fits⟩ : CachedInput) else none) =
          some input := by
        rw [dif_pos (show input.found.2.length < 2 ^ 31 from input.fits)]
        simp only [back input (nonneg input List.mem_cons_self)]
        rfl
      rw [List.map_cons, List.mapM_cons, first,
        ih fun other later => nonneg other (List.mem_cons_of_mem _ later)]
      rfl
  rw [MetadataKind.read, scripts, Option.bind_some, all, Option.map_some]

end CachedScripts

end Records

namespace MetadataRecord

/-- The identifier and the letter of the element of a record. -/
def header : MetadataRecord → Bytes × UInt8
  | .permission .. => (mcDctScriptMultichainIdentifier, mcDctScriptMultichainPermissionsPrefix)
  | .blockSignature .. => (mcDctScriptFreeDataIdentifier, mcDctScriptMultichainBlockSignaturePrefix)
  | .assetGenesis _ => (mcDctScriptMultichainIdentifier, mcDctScriptMultichainAssetGenesisPrefix)
  | .assetDetails .. => (mcDctScriptFreeDataIdentifier, mcDctScriptMultichainAssetDetailsPrefix)
  | .generalDetails _ => (mcDctScriptFreeDataIdentifier, mcDctScriptMultichainGeneralDetailsPrefix)
  | .approval .. => (mcDctScriptMultichainIdentifier, mcDctScriptMultichainApprovePrefix)
  | .newEntity _ update _ =>
    (mcDctScriptMultichainIdentifier, if update then mcDctScriptMultichainUpdateEntityPrefix
      else mcDctScriptMultichainNewEntityPrefix)
  | .newEntityType _ => (mcDctScriptMultichainIdentifier, mcDctScriptMultichainNewEntityPrefix)
  | .itemKey _ => (mcDctScriptMultichainIdentifier, mcDctScriptMultichainKeyPrefix)
  | .entity _ => (mcDctScriptMultichainIdentifier, mcDctScriptMultichainEntityPrefix)
  | .cachedScripts _ => (mcDctScriptMultichainIdentifier, mcDctScriptMultichainCashedScriptPrefix)

theorem header_size (record : MetadataRecord) :
    record.header.1.length = mcDctScriptIdentifierLen := by
  cases record <;> rfl

theorem element_eq {record : MetadataRecord} {element : Bytes}
    (written : record.element = some element) :
    ∃ body, element = record.header.1 ++ record.header.2 :: body := by
  cases record with
  | permission type blockFrom blockTo timestamp =>
    cases written
    exact ⟨_, rfl⟩
  | blockSignature sig hashType key =>
    rw [MetadataRecord.element] at written
    split_ifs at written with keyFits
    rw [setBlockSignature] at written
    split_ifs at written with sigFits
    · cases written
    · cases written
      exact ⟨_, by simp [header]; rfl⟩
  | assetGenesis quantity =>
    obtain ⟨_, written⟩ := Option.ite_none_left_eq_some.mp written
    cases written
    exact ⟨_, rfl⟩
  | assetDetails name multiple script =>
    obtain ⟨_, written⟩ := Option.ite_none_left_eq_some.mp written
    cases written
    exact ⟨_, rfl⟩
  | generalDetails script =>
    obtain ⟨_, written⟩ := Option.ite_none_left_eq_some.mp written
    cases written
    exact ⟨_, rfl⟩
  | approval approves timestamp =>
    cases written
    exact ⟨_, rfl⟩
  | newEntity type update script =>
    obtain ⟨_, written⟩ := Option.ite_none_left_eq_some.mp written
    obtain ⟨_, written⟩ := Option.ite_none_left_eq_some.mp written
    cases written
    exact ⟨_, rfl⟩
  | newEntityType type =>
    cases written
    exact ⟨_, rfl⟩
  | itemKey key =>
    obtain ⟨_, written⟩ := Option.ite_none_left_eq_some.mp written
    cases written
    exact ⟨_, rfl⟩
  | entity shortTxid =>
    cases written
    exact ⟨_, rfl⟩
  | cachedScripts inputs =>
    cases written
    exact ⟨_, rfl⟩

theorem seenAs_eq_none {record : MetadataRecord} {kind : MetadataKind}
    (other : record.header ∉ kind.headers) : record.seenAs kind = none := by
  cases record with
  | newEntity type update script =>
    cases update <;> cases kind <;> first | rfl | exact absurd (by rw [header]; decide) other
  | _ => cases kind <;> first | rfl | exact absurd (by rw [header]; decide) other

theorem read_of_header {record : MetadataRecord} {element : Bytes} {kind : MetadataKind}
    (written : record.element = some element) (survives : record.Survives)
    (looks : record.header ∈ kind.headers) : kind.read element = record.seenAs kind := by
  cases record with
  | permission type blockFrom blockTo timestamp =>
    cases written
    cases kind with
    | permission => exact read_permission type blockFrom blockTo timestamp
    | _ => exact absurd looks (by rw [header]; decide)
  | blockSignature sig hashType key =>
    cases kind with
    | blockSignature => exact read_blockSignature written survives
    | _ => exact absurd looks (by rw [header]; decide)
  | assetGenesis quantity =>
    cases kind with
    | assetGenesis => exact read_assetGenesis written
    | _ => exact absurd looks (by rw [header]; decide)
  | assetDetails name multiple script =>
    cases kind with
    | assetDetails => exact read_assetDetails written survives
    | _ => exact absurd looks (by rw [header]; decide)
  | generalDetails script =>
    have read := read_generalDetails written
    cases kind with
    | assetDetails =>
      rw [MetadataKind.read, getAssetDetails, read]
      rfl
    | generalDetails =>
      rw [MetadataKind.read, read]
      rfl
    | _ => exact absurd looks (by rw [header]; decide)
  | approval approves timestamp =>
    cases written
    cases kind with
    | approval => exact read_approval survives
    | _ => exact absurd looks (by rw [header]; decide)
  | newEntity type update script =>
    cases kind with
    | newEntity => exact read_newEntity written survives
    | newEntityType =>
      cases update with
      | true => exact absurd looks (by rw [header]; decide)
      | false =>
        obtain ⟨_, written⟩ := Option.ite_none_left_eq_some.mp written
        obtain ⟨_, written⟩ := Option.ite_none_left_eq_some.mp written
        cases written
        exact read_newEntity_type script survives
    | _ => cases update <;> exact absurd looks (by rw [header]; decide)
  | newEntityType type =>
    cases kind with
    | newEntity =>
      have noScript : setNewEntity type false [] = some (setNewEntityType type) := rfl
      cases written
      exact read_newEntity noScript survives
    | newEntityType =>
      cases written
      exact read_newEntity_type [] survives
    | _ => exact absurd looks (by rw [header]; decide)
  | itemKey key =>
    cases kind with
    | itemKey => exact read_itemKey written
    | _ => exact absurd looks (by rw [header]; decide)
  | entity shortTxid =>
    cases written
    cases kind with
    | entity => exact read_entity shortTxid
    | _ => exact absurd looks (by rw [header]; decide)
  | cachedScripts inputs =>
    cases written
    cases kind with
    | cachedScripts => exact read_cachedScripts survives
    | _ => exact absurd looks (by rw [header]; decide)

/-- A record that survives its format is read back by the Get function of its kind, and all
others refuse it, but for the ones that read its letter on purpose. -/
theorem read_eq_seenAs {record : MetadataRecord} {element : Bytes}
    (written : record.element = some element) (survives : record.Survives)
    (kind : MetadataKind) : kind.read element = record.seenAs kind := by
  by_cases looks : record.header ∈ kind.headers
  · exact read_of_header written survives looks
  · obtain ⟨body, rfl⟩ := element_eq written
    have notLooking : (record.header.1, record.header.2) ∉ kind.headers := looks
    rw [kind.read_eq_none record.header_size notLooking, seenAs_eq_none looks]

/-- The Get function for approvals and a block signature of an empty signature and key. -/
theorem read_approval_of_blockSignature :
    MetadataKind.approval.read [0x53, 0x50, 0x4b, 0x62, 0, 1, 0] =
      (blockSignature [] 1 []).seenAs .approval :=
  have written : (blockSignature [] 1 []).element = some [0x53, 0x50, 0x4b, 0x62, 0, 1, 0] := by
    decide
  have survives : (blockSignature [] 1 []).Survives := by
    rw [Survives]
    decide
  read_eq_seenAs written survives .approval

/-- A new entity type of more than one byte is cut to a byte. -/
theorem newEntityType_cut :
    ¬ ∀ record : MetadataRecord, ∀ element, record.element = some element →
      record.kind.read element = some record := by
  intro roundTrip
  have back := roundTrip (newEntityType 256) _ rfl
  exact absurd back (by decide)

end MetadataRecord

end HdacNode
