import HdacNode.AssetConservation
import HdacNode.DetailsScript

/-!
# Writing and reading asset quantities

`mc_Script::SetAssetQuantities` writes the rows of an amount buffer as one
element of a script, and `mc_Script::GetAssetQuantities` adds the items of an
element to a buffer.  Elements that are written one after the other are read
back as the exact totals of all rows, and an element is refused at the first item
that is negative or takes the total of its asset beyond a signed 64-bit word.
-/

namespace HdacNode

open WrappedTotals

/-- What a round of the loop in `mc_Script::SetAssetQuantities` appends: a part of the
reference, and the quantity as a signed 64-bit word. -/
def AmountRow.itemBytes (row : AmountRow) : Bytes :=
  (row.fullRef.drop mcAstShortTxidOffset).take assetRefSize ++
    putLE (row.quantity % 2 ^ 64).toNat mcAstAssetQuantitySize

/-- The letter for a script type in `mc_Script::SetAssetQuantities`. -/
def assetQuantityLetter (scriptType : Nat) : Option UInt8 :=
  if scriptType = mcScrAssetScriptTypeTransfer then some mcDctScriptMultichainAssetQuantityPrefix
  else if scriptType = mcScrAssetScriptTypeFollowon then
    some mcDctScriptMultichainAssetFollowonPrefix
  else none

/-- `mc_Script::SetAssetQuantities`: the element that it writes. -/
def setAssetQuantities (amounts : AmountBuffer) (scriptType : Nat) : Option Bytes :=
  (assetQuantityLetter scriptType).map fun letter =>
    mcDctScriptMultichainIdentifier ++ letter :: amounts.rows.flatMap AmountRow.itemBytes

/-- A loop that stops at the first error, with the state that it leaves behind. -/
def runUntilError {State Item Error : Type} (step : State → Item → Except Error State) :
    State → List Item → Option Error × State
  | state, [] => (none, state)
  | state, item :: items =>
      match step state item with
      | .error err => (some err, state)
      | .ok next => runUntilError step next items

/-- `mc_Script::GetAssetQuantities` with the buffer that it leaves behind, also when it ends with
an error. -/
def getAssetQuantitiesInto (amounts : AmountBuffer) (element : Bytes) (scriptTypes : Nat) :
    Option ElementError × AmountBuffer :=
  match assetQuantityItems element scriptTypes with
  | none => (some .wrongScript, amounts)
  | some (foundScriptType, items) =>
      let (err, after) := runUntilError addAssetItem (amounts, foundScriptType) items
      (err, after.1)

namespace AmountRow

/-- A row that can be written: an asset reference and a positive quantity. -/
def Written (row : AmountRow) : Prop :=
  (∃ shortTxid : Bytes, shortTxid.length = mcAstShortTxidSize ∧
    row.fullRef = fullRefOfShortTxid shortTxid) ∧ 0 < row.quantity ∧ row.quantity < 2 ^ 63

/-- The amount of a row. -/
def amount (row : AmountRow) : FullRef × Nat :=
  (row.fullRef, row.quantity.toNat)

end AmountRow

/-- A call of `mc_Script::SetAssetQuantities`. -/
structure QuantityCall where
  scriptType : Nat
  amounts : AmountBuffer
  isType : scriptType = mcScrAssetScriptTypeTransfer ∨ scriptType = mcScrAssetScriptTypeFollowon
  written : ∀ row ∈ amounts.rows, row.Written

namespace QuantityCall

/-- The amounts that a call writes. -/
def entries (call : QuantityCall) : List (FullRef × Nat) :=
  call.amounts.rows.map AmountRow.amount

/-- The references that a call writes, in their order. -/
def refs (call : QuantityCall) : List FullRef :=
  call.amounts.rows.map AmountRow.fullRef

end QuantityCall

/-- The script types of the calls that write a reference. -/
def typesOf (calls : List QuantityCall) (fullRef : FullRef) : Nat :=
  calls.foldl (fun types call =>
    if call.refs.contains fullRef then types ||| call.scriptType else types) 0

/-- No call writes, in front of a reference, one that has a type that neither this call nor an
earlier one gives to the reference behind it. -/
def KeepsTypes (calls : List QuantityCall) : Prop :=
  ∀ earlier call later, calls = earlier ++ call :: later →
    call.refs.Pairwise fun front behind =>
      typesOf earlier front ||| (call.scriptType ||| typesOf earlier behind) =
        call.scriptType ||| typesOf earlier behind

section Elements

theorem fullRefOfShortTxid_drop {shortTxid : Bytes}
    (length : shortTxid.length = mcAstShortTxidSize) :
    ((fullRefOfShortTxid shortTxid).drop mcAstShortTxidOffset).take assetRefSize = shortTxid := by
  have front : (List.replicate mcAstShortTxidOffset (0 : UInt8)).length = mcAstShortTxidOffset :=
    List.length_replicate
  rw [fullRefOfShortTxid, List.append_assoc, List.drop_left' front, assetRefSize, ← length,
    List.take_left]

namespace AmountRow

theorem length_itemBytes {row : AmountRow} (written : row.Written) :
    row.itemBytes.length = assetRefSize + mcAstAssetQuantitySize := by
  obtain ⟨⟨shortTxid, length, isRef⟩, -, -⟩ := written
  rw [itemBytes, isRef, fullRefOfShortTxid_drop length, List.length_append, length_putLE, length]
  rfl

theorem getLE_itemBytes {row : AmountRow} (written : row.Written) (rest : Bytes) :
    getLE (((row.itemBytes ++ rest).drop assetRefSize).take mcAstAssetQuantitySize) =
      row.quantity.toNat := by
  obtain ⟨⟨shortTxid, length, isRef⟩, positive, fits⟩ := written
  have word : (row.quantity % 2 ^ 64).toNat = row.quantity.toNat := by
    rw [Int.emod_eq_of_lt positive.le (by omega)]
  have sized : (putLE row.quantity.toNat mcAstAssetQuantitySize).length =
      mcAstAssetQuantitySize := length_putLE _ _
  have whole : ((row.itemBytes ++ rest).drop assetRefSize).take mcAstAssetQuantitySize =
      putLE row.quantity.toNat mcAstAssetQuantitySize := by
    rw [itemBytes, isRef, fullRefOfShortTxid_drop length, word, List.append_assoc, assetRefSize,
      ← length, List.drop_left, List.take_left' sized]
  rw [whole, getLE_putLE]
  rw [mcAstAssetQuantitySize]
  omega

theorem fullRef_itemBytes {row : AmountRow} (written : row.Written) (rest : Bytes) :
    fullRefOfShortTxid ((row.itemBytes ++ rest).take assetRefSize) = row.fullRef := by
  obtain ⟨⟨shortTxid, length, isRef⟩, -, -⟩ := written
  rw [itemBytes, isRef, fullRefOfShortTxid_drop length, List.append_assoc, assetRefSize, ← length,
    List.take_left]

end AmountRow

theorem drop_flatMap_itemBytes {rows : List AmountRow} (written : ∀ row ∈ rows, row.Written)
    (count : Nat) :
    (rows.flatMap AmountRow.itemBytes).drop (count * (assetRefSize + mcAstAssetQuantitySize)) =
      (rows.drop count).flatMap AmountRow.itemBytes := by
  induction rows generalizing count with
  | nil => simp
  | cons row rows ih =>
      cases count with
      | zero => simp
      | succ count =>
          have size := AmountRow.length_itemBytes (written row (by simp))
          have rest := ih (fun other member => written other (by simp [member])) count
          rw [Nat.succ_mul, Nat.add_comm, ← List.drop_drop, List.flatMap_cons, ← size,
            List.drop_left, size, rest, List.drop_succ_cons]

theorem length_flatMap_itemBytes {rows : List AmountRow}
    (written : ∀ row ∈ rows, row.Written) :
    (rows.flatMap AmountRow.itemBytes).length =
      rows.length * (assetRefSize + mcAstAssetQuantitySize) := by
  induction rows with
  | nil => simp
  | cons row rows ih =>
      have size := AmountRow.length_itemBytes (written row (by simp))
      have rest := ih fun other member => written other (by simp [member])
      rw [List.flatMap_cons, List.length_append, size, rest, List.length_cons, Nat.succ_mul,
        Nat.add_comm]

theorem assetItems_flatMap {rows : List AmountRow} (written : ∀ row ∈ rows, row.Written) :
    ∃ items, assetItems (rows.flatMap AmountRow.itemBytes) = some items ∧
      items.map AssetItem.amount = rows.map AmountRow.amount := by
  have positive : 0 < assetRefSize + mcAstAssetQuantitySize := by decide
  have count : (rows.flatMap AmountRow.itemBytes).length /
      (assetRefSize + mcAstAssetQuantitySize) = rows.length := by
    rw [length_flatMap_itemBytes written, Nat.mul_div_cancel _ positive]
  rw [assetItems, count, length_flatMap_itemBytes written, if_neg (by simp)]
  refine ⟨_, rfl, ?_⟩
  rw [List.map_map]
  apply List.ext_getElem?
  intro index
  rw [List.getElem?_map, List.getElem?_map]
  by_cases inside : index < rows.length
  · have rowWritten := written rows[index] (List.getElem_mem inside)
    have behind : rows.drop index = rows[index] :: rows.drop (index + 1) :=
      List.drop_eq_getElem_cons inside
    have body := drop_flatMap_itemBytes written index
    rw [behind, List.flatMap_cons] at body
    rw [List.getElem?_range inside, List.getElem?_eq_getElem inside, Option.map_some,
      Option.map_some, Function.comp_apply, AssetItem.amount, AmountRow.amount]
    dsimp only
    rw [← List.drop_drop, body, AmountRow.getLE_itemBytes rowWritten,
      AmountRow.fullRef_itemBytes rowWritten]
  · rw [List.getElem?_eq_none (by simp; omega), List.getElem?_eq_none (by omega)]
    rfl

/-- The types that are asked for when all elements are read. -/
def anyAssetScriptType : Nat :=
  mcScrAssetScriptTypeTransfer ||| mcScrAssetScriptTypeFollowon

theorem elementBody_written (letter kind : UInt8) (body : Bytes) :
    elementBody (mcDctScriptMultichainIdentifier ++ letter :: body) kind =
      if letter = kind then some body else none := by
  simp [elementBody, mcDctScriptMultichainIdentifier, mcDctScriptIdentifierLen]

theorem assetQuantityItems_setAssetQuantities (call : QuantityCall) :
    ∃ element items, setAssetQuantities call.amounts call.scriptType = some element ∧
      assetQuantityItems element anyAssetScriptType = some (call.scriptType, items) ∧
      items.map AssetItem.amount = call.entries := by
  obtain ⟨items, read, amounts⟩ := assetItems_flatMap call.written
  rcases call.isType with isType | isType
  · refine ⟨_, items, by rw [setAssetQuantities, isType]; rfl, ?_, amounts⟩
    rw [assetQuantityItems, assetQuantitiesBody, elementBody_written, elementBody_written, isType]
    have asked : anyAssetScriptType &&& mcScrAssetScriptTypeTransfer ≠ 0 := by decide
    have other : mcDctScriptMultichainAssetQuantityPrefix ≠
        mcDctScriptMultichainAssetFollowonPrefix := by decide
    rw [if_neg other, if_pos rfl, if_neg asked]
    simp [read]
  · refine ⟨_, items, by rw [setAssetQuantities, isType]; rfl, ?_, amounts⟩
    rw [assetQuantityItems, assetQuantitiesBody, elementBody_written, elementBody_written, isType]
    have asked : anyAssetScriptType &&& mcScrAssetScriptTypeFollowon ≠ 0 := by decide
    rw [if_neg asked, if_pos rfl]
    simp [read]

end Elements

section Reading

variable {entries : List (FullRef × Nat)}

theorem foldlM_eq_runUntilError {State Item Error : Type}
    (step : State → Item → Except Error State) (state : State) (items : List Item) :
    items.foldlM step state =
      match runUntilError step state items with
      | (none, after) => .ok after
      | (some err, _) => .error err := by
  induction items generalizing state with
  | nil => rfl
  | cons item items ih =>
      rw [List.foldlM_cons, runUntilError]
      cases step state item with
      | error err => rfl
      | ok next => exact ih next

theorem getAssetQuantities_eq (amounts : AmountBuffer) (element : Bytes) (scriptTypes : Nat) :
    getAssetQuantities amounts element scriptTypes =
      match getAssetQuantitiesInto amounts element scriptTypes with
      | (none, after) => .ok after
      | (some err, _) => .error err := by
  rw [getAssetQuantities, getAssetQuantitiesInto]
  cases assetQuantityItems element scriptTypes with
  | none => rfl
  | some found =>
      dsimp only
      rw [foldlM_eq_runUntilError]
      cases runUntilError addAssetItem (amounts, found.1) found.2 with
      | mk err after => cases err <;> rfl

theorem addAssetItem_fails_iff {state : AmountBuffer × Nat} {item : AssetItem}
    (exactly : AccumulatesExactly state.1 entries) :
    addAssetItem state item = .error .notAllowed ↔
      2 ^ 63 ≤ total entries (fullRefOfShortTxid item.assetRef) + item.quantity := by
  obtain ⟨amounts, scriptType⟩ := state
  have itemFits := item.fits
  have lastFits := exactly.fits (fullRefOfShortTxid item.assetRef)
  rw [addAssetItem]
  dsimp only
  by_cases negative : toInt64 item.quantity < 0
  · have large : ¬ (item.quantity : Int) < 2 ^ 63 := by
      intro small
      rw [toInt64_of_lt (by omega) small] at negative
      omega
    rw [if_pos negative]
    constructor
    · intro _
      omega
    · intro _
      rfl
  · have small := lt_of_toInt64_nonneg (by omega) (by omega) (not_lt.1 negative)
    rw [if_neg negative]
    cases found : amounts.seekRow (fullRefOfShortTxid item.assetRef) with
    | none =>
        rw [total_eq_zero_of_absent (exactly.absent _ (lookup_of_seekRow_none found))]
        constructor
        · intro failed
          cases failed
        · intro large
          omega
    | some rowID =>
        have last := exactly.quantity _ _ (lookup_of_seekRow found)
        dsimp only
        rw [last, addInt64_toInt64, toInt64_of_lt (by omega) (by omega)]
        constructor
        · intro failed
          split at failed
          · rename_i checked
            by_contra fits
            rw [toInt64_of_lt (by omega) (by omega)] at checked
            omega
          · cases failed
        · intro large
          rw [if_pos]
          refine ⟨by omega, ?_⟩
          by_contra nonneg
          have fits := lt_of_toInt64_nonneg (by omega) (by omega) (not_lt.1 nonneg)
          omega

/-- An item is refused with `MC_ERR_NOT_ALLOWED` only. -/
theorem addAssetItem_error {state : AmountBuffer × Nat} {item : AssetItem} {err : ElementError}
    (failed : addAssetItem state item = .error err) : err = .notAllowed := by
  cases err with
  | notAllowed => rfl
  | wrongScript =>
      have wrong := addAssetItems_ne_wrongScript [item] state
      rw [List.foldlM_cons, failed] at wrong
      exact absurd rfl wrong

/-- The script type that a buffer holds for a reference. -/
def typeIn (amounts : AmountBuffer) (fullRef : FullRef) : Nat :=
  ((amounts.lookup AmountRow.fullRef fullRef).map AmountRow.scriptType).getD 0

/-- What an item does to the rows: that of its reference is written anew. -/
theorem lookup_addAssetItem {state after : AmountBuffer × Nat} {item : AssetItem}
    (coherent : RowBuffer.Coherent AmountRow.fullRef state.1)
    (added : addAssetItem state item = .ok after) :
    after.2 = state.2 ||| typeIn state.1 (fullRefOfShortTxid item.assetRef) ∧
      ∃ quantity, ∀ fullRef, after.1.lookup AmountRow.fullRef fullRef =
        if fullRefOfShortTxid item.assetRef = fullRef then
          some ⟨fullRefOfShortTxid item.assetRef, quantity, after.2⟩
        else state.1.lookup AmountRow.fullRef fullRef := by
  obtain ⟨amounts, scriptType⟩ := state
  rw [addAssetItem] at added
  dsimp only at added coherent
  split at added
  · cases added
  · cases found : amounts.seekRow (fullRefOfShortTxid item.assetRef) with
    | none =>
        rw [found] at added
        cases added
        have absent := lookup_of_seekRow_none found
        constructor
        · simp [typeIn, absent]
        · refine ⟨toInt64 item.quantity, fun fullRef => ?_⟩
          exact RowBuffer.lookup_add coherent absent fullRef
    | some rowID =>
        have sameRef := (RowBuffer.keyOf_getRow_of_seek found coherent).2
        have lookup := lookup_of_seekRow found
        rw [found] at added
        dsimp only at added
        split at added
        · cases added
        · cases added
          constructor
          · simp [typeIn, lookup]
          · refine ⟨addInt64 (toInt64 item.quantity) (amounts.getRow rowID).quantity,
              fun fullRef => ?_⟩
            dsimp only
            rw [RowBuffer.lookup_overwrite coherent found, sameRef]
            exact sameRef

theorem typeIn_addAssetItem {state after : AmountBuffer × Nat} {item : AssetItem}
    (coherent : RowBuffer.Coherent AmountRow.fullRef state.1)
    (added : addAssetItem state item = .ok after) (fullRef : FullRef) :
    typeIn after.1 fullRef =
      if fullRefOfShortTxid item.assetRef = fullRef then
        state.2 ||| typeIn state.1 fullRef
      else typeIn state.1 fullRef := by
  obtain ⟨found, quantity, rows⟩ := lookup_addAssetItem coherent added
  rw [typeIn, rows]
  split
  · rename_i same
    rw [← same, ← found]
    rfl
  · rfl

/-- How the loop of an element ends: either all items are added, or the first one that cannot be
added stops it, with those in front of it added. -/
theorem runUntilError_addAssetItem {state : AmountBuffer × Nat} {items : List AssetItem}
    (exactly : AccumulatesExactly state.1 entries) :
    ∃ err after, runUntilError addAssetItem state items = (err, after) ∧
      ((err = none ∧ AccumulatesExactly after.1 (entries ++ items.map AssetItem.amount) ∧
        ∀ fullRef, fullRef ∉ items.map (fun item => fullRefOfShortTxid item.assetRef) →
          after.1.lookup AmountRow.fullRef fullRef =
            state.1.lookup AmountRow.fullRef fullRef) ∨
      ∃ front bad behind, err = some .notAllowed ∧ items = front ++ bad :: behind ∧
        AccumulatesExactly after.1 (entries ++ front.map AssetItem.amount) ∧
        2 ^ 63 ≤ total (entries ++ front.map AssetItem.amount)
          (fullRefOfShortTxid bad.assetRef) + bad.quantity ∧
        ∀ fullRef, fullRef ∉ front.map (fun item => fullRefOfShortTxid item.assetRef) →
          after.1.lookup AmountRow.fullRef fullRef =
            state.1.lookup AmountRow.fullRef fullRef) := by
  induction items generalizing state entries with
  | nil =>
      refine ⟨none, state, rfl, Or.inl ⟨rfl, ?_, fun _ _ => rfl⟩⟩
      rw [List.map_nil, List.append_nil]
      exact exactly
  | cons item items ih =>
      rw [runUntilError]
      cases added : addAssetItem state item with
      | error err =>
          obtain rfl := addAssetItem_error added
          refine ⟨_, _, rfl, Or.inr ⟨[], item, items, rfl, rfl, ?_, ?_, fun _ _ => rfl⟩⟩
          · rw [List.map_nil, List.append_nil]
            exact exactly
          · rw [List.map_nil, List.append_nil]
            exact (addAssetItem_fails_iff exactly).1 added
      | ok next =>
          have nextExactly := accumulatesExactly_addAssetItem exactly added
          obtain ⟨-, quantity, rows⟩ := lookup_addAssetItem exactly.coherent added
          obtain ⟨err, after, read, ends⟩ := ih nextExactly
          refine ⟨err, after, read, ?_⟩
          rcases ends with ⟨isNone, whole, others⟩ |
            ⟨front, bad, behind, isErr, rfl, kept, large, others⟩
          · refine Or.inl ⟨isNone, ?_, ?_⟩
            · rwa [List.append_assoc, List.singleton_append] at whole
            · intro fullRef notIn
              rw [List.map_cons, List.mem_cons, not_or] at notIn
              rw [others fullRef notIn.2, rows, if_neg (Ne.symm notIn.1)]
          · refine Or.inr ⟨item :: front, bad, behind, isErr, rfl, ?_, ?_, ?_⟩
            · rwa [List.append_assoc, List.singleton_append] at kept
            · rwa [List.append_assoc, List.singleton_append] at large
            · intro fullRef notIn
              rw [List.map_cons, List.mem_cons, not_or] at notIn
              rw [others fullRef notIn.2, rows, if_neg (Ne.symm notIn.1)]

end Reading

section Codec

variable {entries : List (FullRef × Nat)}

/-- An item of a list counts in the total of its asset. -/
theorem total_items {items front behind : List AssetItem} {bad : AssetItem}
    (isItems : items = front ++ bad :: behind) :
    total (entries ++ front.map AssetItem.amount) (fullRefOfShortTxid bad.assetRef) +
        bad.quantity ≤
      total (entries ++ items.map AssetItem.amount) (fullRefOfShortTxid bad.assetRef) := by
  have parts : entries ++ items.map AssetItem.amount =
      (entries ++ front.map AssetItem.amount) ++ ([bad.amount] ++
        behind.map AssetItem.amount) := by
    rw [isItems, List.map_append, List.map_cons, List.append_assoc, List.singleton_append]
  have alone : total [bad.amount] (fullRefOfShortTxid bad.assetRef) = bad.quantity := by
    rw [total_singleton, AssetItem.amount, if_pos rfl]
  rw [parts, total_append (_ ++ _), total_append [_], alone]
  omega

theorem toInt64_nonneg_of_total {items : List AssetItem}
    (fits : ∀ fullRef, total (entries ++ items.map AssetItem.amount) fullRef < 2 ^ 63) :
    ∀ item ∈ items, 0 ≤ toInt64 item.quantity := by
  intro item member
  obtain ⟨front, behind, isItems⟩ := List.append_of_mem member
  have counted := @total_items entries items front behind item isItems
  have small := fits (fullRefOfShortTxid item.assetRef)
  rw [toInt64_of_lt (by omega) (by omega)]
  omega

/-- What reading an element does to a buffer with exact totals. -/
structure ReadsElement (entries : List (FullRef × Nat)) (items : List AssetItem)
    (amounts after : AmountBuffer) (err : Option ElementError) : Prop where
  accepted_iff : err = none ↔ (∀ item ∈ items, 0 ≤ toInt64 item.quantity) ∧
    ∀ fullRef, total (entries ++ items.map AssetItem.amount) fullRef < 2 ^ 63
  accepted : err = none → AccumulatesExactly after (entries ++ items.map AssetItem.amount) ∧
    ∀ fullRef, fullRef ∉ items.map (fun item => fullRefOfShortTxid item.assetRef) →
      after.lookup AmountRow.fullRef fullRef = amounts.lookup AmountRow.fullRef fullRef
  refused : err ≠ none → err = some .notAllowed ∧
    ∃ front bad behind, items = front ++ bad :: behind ∧
      AccumulatesExactly after (entries ++ front.map AssetItem.amount) ∧
      2 ^ 63 ≤ total (entries ++ front.map AssetItem.amount)
        (fullRefOfShortTxid bad.assetRef) + bad.quantity ∧
      ∀ fullRef, fullRef ∉ front.map (fun item => fullRefOfShortTxid item.assetRef) →
        after.lookup AmountRow.fullRef fullRef = amounts.lookup AmountRow.fullRef fullRef

theorem readsElement {amounts : AmountBuffer} {element : Bytes} {scriptTypes scriptType : Nat}
    {items : List AssetItem} (exactly : AccumulatesExactly amounts entries)
    (isElement : assetQuantityItems element scriptTypes = some (scriptType, items)) :
    ∃ err after, getAssetQuantitiesInto amounts element scriptTypes = (err, after) ∧
      ReadsElement entries items amounts after err := by
  obtain ⟨err, after, read, ends⟩ :=
    @runUntilError_addAssetItem entries (amounts, scriptType) items exactly
  refine ⟨err, after.1, by rw [getAssetQuantitiesInto, isElement]; dsimp only; rw [read], ?_⟩
  rcases ends with ⟨rfl, whole, others⟩ | ⟨front, bad, behind, rfl, isItems, kept, large, others⟩
  · have nonneg := toInt64_nonneg_of_total whole.fits
    constructor
    · simp only [true_iff]
      exact ⟨nonneg, whole.fits⟩
    · intro _
      exact ⟨whole, others⟩
    · intro notNone
      exact absurd rfl notNone
  · constructor
    · constructor
      · intro isNone
        cases isNone
      · rintro ⟨-, fits⟩
        have counted := @total_items entries items front behind bad isItems
        have small := fits (fullRefOfShortTxid bad.assetRef)
        omega
    · intro isNone
      cases isNone
    · intro _
      exact ⟨rfl, front, bad, behind, isItems, kept, large, others⟩

end Codec

section Types

/-- The script types after an element.  The type in the variable takes in the type of each row
that is met, so the rows behind it keep to their own types only when they have that type too. -/
theorem typeIn_runUntilError {entries : List (FullRef × Nat)} {scriptType : Nat}
    {types : FullRef → Nat} {state after : AmountBuffer × Nat} {items : List AssetItem}
    (exactly : AccumulatesExactly state.1 entries)
    (read : runUntilError addAssetItem state items = (none, after))
    (before : ∀ fullRef, typeIn state.1 fullRef = types fullRef ∨
      typeIn state.1 fullRef = scriptType ||| types fullRef)
    (held : scriptType ||| state.2 = state.2)
    (bounded : ∀ fullRef ∈ items.map (fun item => fullRefOfShortTxid item.assetRef),
      state.2 ||| (scriptType ||| types fullRef) = scriptType ||| types fullRef)
    (keeps : (items.map fun item => fullRefOfShortTxid item.assetRef).Pairwise fun front behind =>
      types front ||| (scriptType ||| types behind) = scriptType ||| types behind)
    (fullRef : FullRef) :
    typeIn after.1 fullRef =
      if fullRef ∈ items.map (fun item => fullRefOfShortTxid item.assetRef) then
        scriptType ||| types fullRef
      else typeIn state.1 fullRef := by
  induction items generalizing state entries with
  | nil =>
      cases read
      simp
  | cons item items ih =>
      rw [runUntilError] at read
      cases added : addAssetItem state item with
      | error err =>
          rw [added] at read
          cases read
      | ok next =>
          rw [added] at read
          dsimp only at read
          rw [List.map_cons, List.pairwise_cons] at keeps
          have nextExactly := accumulatesExactly_addAssetItem exactly added
          have typeEq := typeIn_addAssetItem exactly.coherent added
          obtain ⟨foundEq, -⟩ := lookup_addAssetItem exactly.coherent added
          have headBounded := bounded (fullRefOfShortTxid item.assetRef) (by simp)
          have found : next.2 = scriptType ||| types (fullRefOfShortTxid item.assetRef) := by
            rw [foundEq]
            rcases before (fullRefOfShortTxid item.assetRef) with old | old
            · rw [old, ← headBounded, ← Nat.lor_assoc, Nat.lor_comm state.2 scriptType, held]
            · rw [old, headBounded]
          have headType : typeIn next.1 (fullRefOfShortTxid item.assetRef) =
              scriptType ||| types (fullRefOfShortTxid item.assetRef) := by
            rw [typeEq, if_pos rfl, ← foundEq, found]
          have otherType : ∀ other, fullRefOfShortTxid item.assetRef ≠ other →
              typeIn next.1 other = typeIn state.1 other := by
            intro other different
            rw [typeEq, if_neg different]
          have rest := ih nextExactly read (by
              intro other
              by_cases same : fullRefOfShortTxid item.assetRef = other
              · rw [← same]
                exact Or.inr headType
              · rw [otherType other same]
                exact before other)
            (by rw [found, ← Nat.lor_assoc, Nat.or_self])
            (by
              intro other member
              rw [found, Nat.lor_assoc, keeps.1 other member, ← Nat.lor_assoc, Nat.or_self])
            keeps.2
          rw [rest, List.map_cons]
          by_cases later : fullRef ∈ items.map fun item => fullRefOfShortTxid item.assetRef
          · rw [if_pos later, if_pos (List.mem_cons_of_mem _ later)]
          · rw [if_neg later]
            by_cases same : fullRefOfShortTxid item.assetRef = fullRef
            · rw [if_pos (by simp [same]), ← same, headType]
            · rw [if_neg (by simp [later, Ne.symm same]), otherType fullRef same]

theorem typesOf_append (calls : List QuantityCall) (call : QuantityCall) (fullRef : FullRef) :
    typesOf (calls ++ [call]) fullRef =
      if fullRef ∈ call.refs then call.scriptType ||| typesOf calls fullRef
      else typesOf calls fullRef := by
  rw [typesOf, List.foldl_append, List.foldl_cons, List.foldl_nil, Nat.lor_comm]
  exact if_congr List.contains_iff_mem rfl rfl

theorem keepsTypes_of_append {earlier later : List QuantityCall}
    (keeps : KeepsTypes (earlier ++ later)) : KeepsTypes earlier := by
  intro front call behind isEarlier
  apply keeps front call (behind ++ later)
  rw [isEarlier, List.append_assoc, List.cons_append]

end Types

section RoundTrip

/-- What is in a buffer after the elements of calls are read. -/
structure ReadBack (calls : List QuantityCall) (amounts : AmountBuffer) : Prop where
  exactly : AccumulatesExactly amounts (calls.flatMap QuantityCall.entries)
  unlisted : ∀ fullRef, fullRef ∉ calls.flatMap QuantityCall.refs →
    amounts.lookup AmountRow.fullRef fullRef = none
  types : KeepsTypes calls → ∀ fullRef, typeIn amounts fullRef = typesOf calls fullRef

theorem readBack_initABufferMap : ReadBack [] AmountBuffer.initABufferMap where
  exactly := accumulatesExactly_initABufferMap
  unlisted := by
    intro fullRef _
    rfl
  types := by
    intro _ fullRef
    rfl

theorem refs_eq_of_amounts {call : QuantityCall} {items : List AssetItem}
    (amounts : items.map AssetItem.amount = call.entries) :
    items.map (fun item => fullRefOfShortTxid item.assetRef) = call.refs := by
  have firsts := congrArg (List.map Prod.fst) amounts
  rw [List.map_map, QuantityCall.entries, List.map_map] at firsts
  exact firsts

/-- Reading what one more call writes. -/
theorem ReadBack.step {earlier : List QuantityCall} {amounts : AmountBuffer}
    (readBack : ReadBack earlier amounts) (call : QuantityCall)
    (fits : ∀ fullRef,
      total ((earlier ++ [call]).flatMap QuantityCall.entries) fullRef < 2 ^ 63) :
    ∃ element after, setAssetQuantities call.amounts call.scriptType = some element ∧
      getAssetQuantities amounts element anyAssetScriptType = .ok after ∧
      ReadBack (earlier ++ [call]) after := by
  obtain ⟨element, items, written, isElement, isEntries⟩ :=
    assetQuantityItems_setAssetQuantities call
  have isRefs := refs_eq_of_amounts isEntries
  have joined : (earlier ++ [call]).flatMap QuantityCall.entries =
      earlier.flatMap QuantityCall.entries ++ items.map AssetItem.amount := by
    rw [List.flatMap_append, List.flatMap_singleton, isEntries]
  rw [joined] at fits
  obtain ⟨err, after, run, ends⟩ := @runUntilError_addAssetItem _ (amounts, call.scriptType) items
    readBack.exactly
  rcases ends with ⟨rfl, whole, others⟩ | ⟨front, bad, behind, -, isItems, -, large, -⟩
  · refine ⟨element, after.1, written, ?_, ?_, ?_, ?_⟩
    · rw [getAssetQuantities_eq, getAssetQuantitiesInto, isElement]
      dsimp only
      rw [run]
    · rw [joined]
      exact whole
    · intro fullRef notListed
      rw [List.flatMap_append, List.flatMap_singleton, List.mem_append, not_or] at notListed
      rw [isRefs] at others
      rw [others fullRef notListed.2]
      exact readBack.unlisted fullRef notListed.1
    · intro keeps fullRef
      have earlierTypes := readBack.types (keepsTypes_of_append keeps)
      have pairs := keeps earlier call [] rfl
      rw [← isRefs] at pairs
      rw [typeIn_runUntilError readBack.exactly run (fun other => Or.inl (earlierTypes other))
        (Nat.or_self _) ?_ pairs, isRefs, typesOf_append, earlierTypes]
      intro other _
      rw [← Nat.lor_assoc, Nat.or_self]
  · have counted := @total_items (earlier.flatMap QuantityCall.entries) items front behind bad
      isItems
    have small := fits (fullRefOfShortTxid bad.assetRef)
    omega

/-- Reading what calls write, one element after the other. -/
theorem ReadBack.run {earlier calls : List QuantityCall} {amounts : AmountBuffer}
    (readBack : ReadBack earlier amounts)
    (fits : ∀ fullRef,
      total ((earlier ++ calls).flatMap QuantityCall.entries) fullRef < 2 ^ 63) :
    ∃ elements after, calls.mapM (fun call => setAssetQuantities call.amounts call.scriptType) =
        some elements ∧
      elements.foldlM (fun amounts element =>
        getAssetQuantities amounts element anyAssetScriptType) amounts = .ok after ∧
      ReadBack (earlier ++ calls) after := by
  induction calls generalizing earlier amounts with
  | nil =>
      refine ⟨[], amounts, rfl, rfl, ?_⟩
      rw [List.append_nil]
      exact readBack
  | cons call calls ih =>
      have joined : earlier ++ call :: calls = earlier ++ [call] ++ calls := by simp
      rw [joined] at fits ⊢
      have firstFits : ∀ fullRef,
          total ((earlier ++ [call]).flatMap QuantityCall.entries) fullRef < 2 ^ 63 := by
        intro fullRef
        have all := fits fullRef
        rw [List.flatMap_append, total_append] at all
        omega
      obtain ⟨element, next, written, read, nextBack⟩ := readBack.step call firstFits
      obtain ⟨elements, after, restWritten, restRead, afterBack⟩ := ih nextBack fits
      refine ⟨element :: elements, after, ?_, ?_, afterBack⟩
      · rw [List.mapM_cons, written, restWritten]
        rfl
      · rw [List.foldlM_cons, read]
        exact restRead

/-- A row of what was read. -/
theorem ReadBack.row {calls : List QuantityCall} {amounts : AmountBuffer}
    (readBack : ReadBack calls amounts) {fullRef : FullRef}
    (listed : fullRef ∈ calls.flatMap QuantityCall.refs) :
    ∃ row, amounts.lookup AmountRow.fullRef fullRef = some row ∧
      row.quantity = total (calls.flatMap QuantityCall.entries) fullRef ∧
      (KeepsTypes calls → row.scriptType = typesOf calls fullRef) := by
  cases found : amounts.lookup AmountRow.fullRef fullRef with
  | none =>
      have absent := readBack.exactly.absent fullRef found
      have firsts : (calls.flatMap QuantityCall.entries).map Prod.fst =
          calls.flatMap QuantityCall.refs := by
        rw [List.map_flatMap]
        simp only [QuantityCall.entries, List.map_map]
        rfl
      rw [firsts] at absent
      exact absurd listed absent
  | some row =>
      have fits := readBack.exactly.fits fullRef
      have quantity := readBack.exactly.quantity fullRef row found
      rw [toInt64_of_lt (by omega) (by omega)] at quantity
      refine ⟨row, rfl, quantity, fun keeps => ?_⟩
      have typeEq := readBack.types keeps fullRef
      rw [typeIn, found] at typeEq
      exact typeEq

/-- Elements that `SetAssetQuantities` writes are read back by `GetAssetQuantities`, one after the
other, as the exact total of each asset, with the script types that it was written with.  Any
element is refused exactly when it has a negative quantity or takes the total of an asset beyond a
signed 64-bit word; then only the assets in front of the refused item have changed. -/
theorem assetQuantities_readBack :
    (∀ calls : List QuantityCall,
      (∀ fullRef, total (calls.flatMap QuantityCall.entries) fullRef < 2 ^ 63) →
      ∃ elements amounts,
        calls.mapM (fun call => setAssetQuantities call.amounts call.scriptType) =
          some elements ∧
        elements.foldlM (fun amounts element =>
          getAssetQuantities amounts element anyAssetScriptType)
          AmountBuffer.initABufferMap = .ok amounts ∧
        (∀ fullRef ∈ calls.flatMap QuantityCall.refs,
          ∃ row, amounts.lookup AmountRow.fullRef fullRef = some row ∧
            row.quantity = total (calls.flatMap QuantityCall.entries) fullRef ∧
            (KeepsTypes calls → row.scriptType = typesOf calls fullRef)) ∧
        ∀ fullRef, fullRef ∉ calls.flatMap QuantityCall.refs →
          amounts.lookup AmountRow.fullRef fullRef = none) ∧
    ∀ (amounts : AmountBuffer) (entries : List (FullRef × Nat)) (element : Bytes)
      (scriptType : Nat) (items : List AssetItem), AccumulatesExactly amounts entries →
      assetQuantityItems element anyAssetScriptType = some (scriptType, items) →
      ∃ err after, getAssetQuantitiesInto amounts element anyAssetScriptType = (err, after) ∧
        ReadsElement entries items amounts after err := by
  constructor
  · intro calls fits
    obtain ⟨elements, amounts, written, read, readBack⟩ :=
      @ReadBack.run [] calls _ readBack_initABufferMap fits
    refine ⟨elements, amounts, written, read, ?_, readBack.unlisted⟩
    intro fullRef listed
    exact readBack.row listed
  · intro amounts entries element scriptType items exactly isElement
    exact readsElement exactly isElement

/-- A buffer with one asset. -/
def oneAsset (letter : UInt8) (quantity : Int) : AmountBuffer :=
  AmountBuffer.initABufferMap.add AmountRow.fullRef
    ⟨fullRefOfShortTxid (List.replicate mcAstShortTxidSize letter), quantity, 0⟩

/-- A transfer and a follow-on of one asset. -/
theorem assetQuantities_readBack_twice :
    ∃ calls : List QuantityCall, calls.length = 2 ∧ ∃ elements amounts,
      calls.mapM (fun call => setAssetQuantities call.amounts call.scriptType) = some elements ∧
      elements.foldlM (fun amounts element =>
        getAssetQuantities amounts element anyAssetScriptType)
        AmountBuffer.initABufferMap = .ok amounts ∧
      ∃ err after, getAssetQuantitiesInto AmountBuffer.initABufferMap
        (mcDctScriptMultichainIdentifier ++ [mcDctScriptMultichainAssetQuantityPrefix])
        anyAssetScriptType = (err, after) ∧
        ReadsElement [] [] AmountBuffer.initABufferMap after err := by
  have written : ∀ row ∈ (oneAsset 7 5).rows, row.Written := by
    have isRow : (oneAsset 7 5).rows =
        [⟨fullRefOfShortTxid (List.replicate mcAstShortTxidSize 7), 5, 0⟩] := rfl
    rw [isRow]
    intro row member
    obtain rfl := List.mem_singleton.1 member
    exact ⟨⟨_, by decide, rfl⟩, by decide, by decide⟩
  have entriesEq : ∀ scriptType isType,
      (QuantityCall.mk scriptType (oneAsset 7 5) isType written).entries =
        [(fullRefOfShortTxid (List.replicate mcAstShortTxidSize 7), 5)] := by
    intro scriptType isType
    rfl
  have fits : ∀ fullRef, total (List.flatMap QuantityCall.entries
      [⟨mcScrAssetScriptTypeTransfer, oneAsset 7 5, Or.inl rfl, written⟩,
        ⟨mcScrAssetScriptTypeFollowon, oneAsset 7 5, Or.inr rfl, written⟩]) fullRef < 2 ^ 63 := by
    intro fullRef
    rw [List.flatMap_cons, List.flatMap_singleton, entriesEq, entriesEq, total_append,
      total_singleton]
    split <;> decide
  obtain ⟨elements, amounts, isWritten, read, -⟩ := assetQuantities_readBack.1 _ fits
  obtain ⟨err, after, isRead, reads⟩ := assetQuantities_readBack.2 _ _
    (mcDctScriptMultichainIdentifier ++ [mcDctScriptMultichainAssetQuantityPrefix]) _ _
    accumulatesExactly_initABufferMap rfl
  exact ⟨_, rfl, elements, amounts, isWritten, read, err, after, isRead, reads⟩

/-- The element that rows are written to. -/
def elementOf (rows : List AmountRow) : Bytes :=
  mcDctScriptMultichainIdentifier ++ mcDctScriptMultichainAssetQuantityPrefix ::
    rows.flatMap AmountRow.itemBytes

/-- A quantity of zero is accepted, and a negative quantity leaves the row of the asset in front
of it. -/
theorem zeroQuantity_accepted :
    (getAssetQuantitiesInto AmountBuffer.initABufferMap
      (elementOf [⟨fullRefOfShortTxid (List.replicate mcAstShortTxidSize 7), 0, 0⟩])
      anyAssetScriptType).1 = none ∧
    (getAssetQuantitiesInto AmountBuffer.initABufferMap
      (elementOf [⟨fullRefOfShortTxid (List.replicate mcAstShortTxidSize 7), 5, 0⟩,
        ⟨fullRefOfShortTxid (List.replicate mcAstShortTxidSize 8), -1, 0⟩])
      anyAssetScriptType).1 = some .notAllowed ∧
    (getAssetQuantitiesInto AmountBuffer.initABufferMap
      (elementOf [⟨fullRefOfShortTxid (List.replicate mcAstShortTxidSize 7), 5, 0⟩,
        ⟨fullRefOfShortTxid (List.replicate mcAstShortTxidSize 8), -1, 0⟩])
      anyAssetScriptType).2.lookup AmountRow.fullRef
        (fullRefOfShortTxid (List.replicate mcAstShortTxidSize 7)) =
      some ⟨fullRefOfShortTxid (List.replicate mcAstShortTxidSize 7), 5,
        mcScrAssetScriptTypeTransfer⟩ := by
  refine ⟨?_, ?_, ?_⟩ <;> decide +kernel

end RoundTrip

end HdacNode
