import HdacNode.AssetAmounts

/-!
# Which accepted transactions conserve assets

The exact amounts of a transaction are the sums of the quantities in the
elements of its spent and of its new outputs.  A buffer holds them modulo
`2 ^ 64`.  The loop over new outputs refuses every overflow; the loop over spent
outputs does not look at the sum of an issue, nor at any sum behind it that starts
from a negative word.  So an accepted transaction conserves all assets exactly when
what it spends of each asset fits into a signed 64-bit word.
-/

namespace HdacNode

open WrappedTotals

/-- The amount of an item. -/
def AssetItem.amount (item : AssetItem) : FullRef × Nat :=
  (fullRefOfShortTxid item.assetRef, item.quantity)

/-- The amounts in an element with asset quantities. -/
def quantityAmounts (scriptTypes : Nat) (element : Bytes) : List (FullRef × Nat) :=
  match assetQuantityItems element scriptTypes with
  | none => []
  | some (_, items) => items.map AssetItem.amount

/-- The amount of an issue. -/
def genesisAmounts (txid element : Bytes) : List (FullRef × Nat) :=
  match getAssetGenesis element with
  | .ok quantity => [(fullRefOfTxid txid, quantity.toNat)]
  | .error _ => []

/-- The amounts in a spent element: transfers, follow-ons and issues. -/
def spentAmounts (txid element : Bytes) : List (FullRef × Nat) :=
  quantityAmounts (mcScrAssetScriptTypeTransfer ||| mcScrAssetScriptTypeFollowon) element ++
    genesisAmounts txid element

namespace TxIn

/-- The amounts in the output that an input spends. -/
def amounts (input : TxIn) : List (FullRef × Nat) :=
  input.prevScript.elements.flatMap (spentAmounts input.prevHash)

end TxIn

namespace TxOut

/-- The amounts that an output transfers. -/
def amounts (output : TxOut) : List (FullRef × Nat) :=
  if output.script.isOpReturnScript then []
  else output.script.elements.flatMap (quantityAmounts mcScrAssetScriptTypeTransfer)

end TxOut

namespace AssetTransaction

/-- All that a transaction spends of an asset. -/
def totalIn (tx : AssetTransaction) (fullRef : FullRef) : Nat :=
  total (tx.vin.flatMap TxIn.amounts) fullRef

/-- All that a transaction transfers of an asset. -/
def totalOut (tx : AssetTransaction) (fullRef : FullRef) : Nat :=
  total (tx.vout.flatMap TxOut.amounts) fullRef

/-- The amounts that come in are the amounts that go out. -/
def ConservesAssets (tx : AssetTransaction) : Prop :=
  ∀ fullRef, tx.totalIn fullRef = tx.totalOut fullRef

end AssetTransaction

/-- A buffer that holds the totals of amounts as signed 64-bit words. -/
structure Accumulates (amounts : AmountBuffer) (entries : List (FullRef × Nat)) : Prop where
  coherent : RowBuffer.Coherent AmountRow.fullRef amounts
  quantity : ∀ fullRef row, amounts.lookup AmountRow.fullRef fullRef = some row →
    row.quantity = toInt64 (total entries fullRef)
  absent : ∀ fullRef, amounts.lookup AmountRow.fullRef fullRef = none →
    fullRef ∉ entries.map Prod.fst

/-- A buffer whose totals never left the signed 64-bit words. -/
structure AccumulatesExactly (amounts : AmountBuffer) (entries : List (FullRef × Nat)) : Prop
    extends Accumulates amounts entries where
  fits : ∀ fullRef, total entries fullRef < 2 ^ 63

section Buffers

variable {amounts : AmountBuffer} {entries : List (FullRef × Nat)} {fullRef : FullRef}

theorem lookup_of_seekRow {rowID : Nat} (found : amounts.seekRow fullRef = some rowID) :
    amounts.lookup AmountRow.fullRef fullRef = some (amounts.getRow rowID) := by
  unfold AmountBuffer.seekRow at found
  rw [RowBuffer.lookup, found]
  rfl

theorem lookup_of_seekRow_none (absent : amounts.seekRow fullRef = none) :
    amounts.lookup AmountRow.fullRef fullRef = none := by
  unfold AmountBuffer.seekRow at absent
  rw [RowBuffer.lookup, absent]
  rfl

theorem total_append_amount (entries : List (FullRef × Nat)) (fullRef other : FullRef)
    (quantity : Nat) : total (entries ++ [(fullRef, quantity)]) other =
      total entries other + if fullRef = other then quantity else 0 := by
  rw [total_append, total_singleton]

namespace Accumulates

/-- A row for a new reference. -/
theorem add (accumulates : Accumulates amounts entries)
    (absent : amounts.seekRow fullRef = none) (quantity scriptType : Nat) :
    Accumulates (amounts.add AmountRow.fullRef ⟨fullRef, toInt64 quantity, scriptType⟩)
      (entries ++ [(fullRef, quantity)]) := by
  have noRow := lookup_of_seekRow_none absent
  let row : AmountRow := ⟨fullRef, toInt64 quantity, scriptType⟩
  have found := fun other => RowBuffer.lookup_add accumulates.coherent
    (show amounts.lookup AmountRow.fullRef row.fullRef = none from noRow) other
  refine ⟨RowBuffer.coherent_add _ accumulates.coherent, ?_, ?_⟩
  · intro other row lookup
    rw [found] at lookup
    rw [total_append_amount]
    split at lookup
    · rename_i same
      obtain rfl : fullRef = other := same
      obtain rfl := Option.some.inj lookup
      rw [if_pos rfl, total_eq_zero_of_absent (accumulates.absent _ noRow), Nat.zero_add]
    · rename_i different
      rw [if_neg different, Nat.add_zero]
      exact accumulates.quantity other row lookup
  · intro other lookup
    rw [found] at lookup
    split at lookup
    · cases lookup
    · rename_i different
      have old := accumulates.absent other lookup
      simpa [old] using fun same : other = fullRef => different same.symm

/-- An amount for a reference that has a row. -/
theorem overwrite (accumulates : Accumulates amounts entries) {rowID : Nat}
    (found : amounts.seekRow fullRef = some rowID) (quantity scriptType : Nat) :
    Accumulates (amounts.overwrite rowID { amounts.getRow rowID with
        quantity := addInt64 (toInt64 quantity) (amounts.getRow rowID).quantity
        scriptType := scriptType }) (entries ++ [(fullRef, quantity)]) := by
  have sameRef := (RowBuffer.keyOf_getRow_of_seek found accumulates.coherent).2
  have lookup := lookup_of_seekRow found
  have newQuantity : addInt64 (toInt64 quantity) (amounts.getRow rowID).quantity =
      toInt64 (total (entries ++ [(fullRef, quantity)]) fullRef : Nat) := by
    rw [accumulates.quantity _ _ lookup, addInt64_toInt64, total_append_amount, if_pos rfl]
    congr 1
    push_cast
    omega
  let row : AmountRow := ⟨fullRef, toInt64 (total (entries ++ [(fullRef, quantity)]) fullRef : Nat),
    scriptType⟩
  have rowEq : { amounts.getRow rowID with
      quantity := addInt64 (toInt64 quantity) (amounts.getRow rowID).quantity
      scriptType := scriptType } = row := by
    rw [newQuantity, AmountRow.mk.injEq]
    exact ⟨sameRef, rfl, rfl⟩
  have foundRow : amounts.seekRow row.fullRef = some rowID := found
  rw [rowEq, RowBuffer.overwrite_eq_putRow accumulates.coherent foundRow]
  have after := RowBuffer.lookup_putRow accumulates.coherent foundRow
  refine ⟨RowBuffer.coherent_putRow accumulates.coherent foundRow, ?_, ?_⟩
  · intro other otherRow otherLookup
    rw [after] at otherLookup
    split at otherLookup
    · rename_i same
      obtain rfl : fullRef = other := same
      obtain rfl := Option.some.inj otherLookup
      simp only [row]
    · rename_i different
      have otherRef : ¬ fullRef = other := different
      rw [total_append_amount, if_neg otherRef, Nat.add_zero]
      exact accumulates.quantity other otherRow otherLookup
  · intro other otherLookup
    rw [after] at otherLookup
    split at otherLookup
    · cases otherLookup
    · rename_i different
      have old := accumulates.absent other otherLookup
      simpa [old] using fun same : other = fullRef => different same.symm

theorem toInt64_total (accumulates : Accumulates amounts entries)
    (positive : 0 < toInt64 (total entries fullRef)) :
    ∃ row ∈ amounts.rows, row.fullRef = fullRef ∧
      row.quantity = toInt64 (total entries fullRef) := by
  cases found : amounts.lookup AmountRow.fullRef fullRef with
  | none =>
      rw [total_eq_zero_of_absent (accumulates.absent _ found)] at positive
      simp [toInt64] at positive
  | some row =>
      have quantity := accumulates.quantity _ _ found
      rw [RowBuffer.lookup_of_coherent accumulates.coherent] at found
      exact ⟨row, List.mem_of_find?_eq_some found, by simpa using List.find?_some found, quantity⟩

end Accumulates

theorem accumulates_initABufferMap : Accumulates AmountBuffer.initABufferMap [] where
  coherent := RowBuffer.coherent_initializeBuffer _ _
  quantity := by
    intro fullRef row found
    unfold AmountBuffer.initABufferMap at found
    rw [RowBuffer.lookup_of_coherent (RowBuffer.coherent_initializeBuffer _ _)] at found
    simp at found
  absent := by simp

theorem accumulatesExactly_initABufferMap :
    AccumulatesExactly AmountBuffer.initABufferMap [] where
  toAccumulates := accumulates_initABufferMap
  fits := by simp

end Buffers

section Elements

variable {entries : List (FullRef × Nat)}

/-- What an item adds to a buffer. -/
theorem accumulates_addAssetItem {state after : AmountBuffer × Nat} {item : AssetItem}
    (accumulates : Accumulates state.1 entries) (added : addAssetItem state item = .ok after) :
    Accumulates after.1 (entries ++ [item.amount]) := by
  obtain ⟨amounts, scriptType⟩ := state
  unfold addAssetItem at added
  dsimp only at added accumulates
  split at added
  · cases added
  · cases found : amounts.seekRow (fullRefOfShortTxid item.assetRef) with
    | none =>
        rw [found] at added
        cases added
        exact accumulates.add found _ _
    | some rowID =>
        rw [found] at added
        dsimp only at added
        split at added
        · cases added
        · cases added
          exact accumulates.overwrite found _ _

/-- The checks of the quantity loop keep every total within a word. -/
theorem accumulatesExactly_addAssetItem {state after : AmountBuffer × Nat} {item : AssetItem}
    (exactly : AccumulatesExactly state.1 entries) (added : addAssetItem state item = .ok after) :
    AccumulatesExactly after.1 (entries ++ [item.amount]) := by
  have accumulates := accumulates_addAssetItem exactly.toAccumulates added
  refine ⟨accumulates, fun fullRef => ?_⟩
  rw [AssetItem.amount, total_append_amount]
  by_cases same : fullRefOfShortTxid item.assetRef = fullRef
  · subst same
    obtain ⟨amounts, scriptType⟩ := state
    have itemFits := item.fits
    have lastFits := exactly.fits (fullRefOfShortTxid item.assetRef)
    unfold addAssetItem at added
    dsimp only at added
    split at added
    · cases added
    · rename_i nonneg
      have small := lt_of_toInt64_nonneg (by omega) (by omega) (not_lt.1 nonneg)
      cases found : amounts.seekRow (fullRefOfShortTxid item.assetRef) with
      | none =>
          rw [total_eq_zero_of_absent (exactly.absent _ (lookup_of_seekRow_none found)),
            if_pos rfl]
          omega
      | some rowID =>
          have last := exactly.quantity _ _ (lookup_of_seekRow found)
          rw [found] at added
          dsimp only at added
          split at added
          · cases added
          · rename_i checked
            rw [last, addInt64_toInt64, toInt64_of_lt (by omega) (by omega)] at checked
            have kept := lt_of_toInt64_nonneg (by omega) (by omega)
              (not_lt.1 fun negative => checked ⟨by omega, negative⟩)
            simp only [if_true]
            omega
  · rw [if_neg same, Nat.add_zero]
    exact exactly.fits fullRef

/-- The quantity loop does not end with `MC_ERR_WRONG_SCRIPT`. -/
theorem addAssetItems_ne_wrongScript (items : List AssetItem) (state : AmountBuffer × Nat) :
    items.foldlM addAssetItem state ≠ .error .wrongScript := by
  induction items generalizing state with
  | nil => simp [pure, Except.pure]
  | cons item items ih =>
      intro wrong
      rw [List.foldlM_cons] at wrong
      cases added : addAssetItem state item with
      | ok next =>
          rw [added] at wrong
          exact ih next wrong
      | error err =>
          rw [added] at wrong
          obtain rfl : err = .wrongScript := by simpa [bind, Except.bind] using wrong
          unfold addAssetItem at added
          dsimp only at added
          split at added
          · cases added
          · split at added
            · split at added <;> cases added
            · cases added

section Collect

variable {Holds : AmountBuffer → List (FullRef × Nat) → Prop}
  (collects : ∀ {entries : List (FullRef × Nat)} {state after : AmountBuffer × Nat}
    {item : AssetItem}, Holds state.1 entries → addAssetItem state item = .ok after →
    Holds after.1 (entries ++ [item.amount]))

include collects

/-- What an element with asset quantities adds to a buffer. -/
theorem collects_getAssetQuantities {amounts after : AmountBuffer} {element : Bytes}
    {scriptTypes : Nat} (holds : Holds amounts entries)
    (read : getAssetQuantities amounts element scriptTypes = .ok after) :
    Holds after (entries ++ quantityAmounts scriptTypes element) := by
  unfold getAssetQuantities at read
  unfold quantityAmounts
  cases found : assetQuantityItems element scriptTypes with
  | none =>
      rw [found] at read
      cases read
  | some typedItems =>
      obtain ⟨scriptType, items⟩ := typedItems
      rw [found] at read
      dsimp only at read
      cases added : items.foldlM addAssetItem (amounts, scriptType) with
      | error err =>
          rw [added] at read
          cases read
      | ok last =>
          rw [added] at read
          cases read
          have collected := foldlM_collects (fun state => Holds state.1)
            (fun item : AssetItem => [item.amount])
            (fun _ _ _ _ holds added => collects holds added) items holds added
          rwa [← List.map_eq_flatMap] at collected

end Collect

/-- An element that is refused with `MC_ERR_WRONG_SCRIPT` has no amounts. -/
theorem quantityAmounts_of_wrongScript {amounts : AmountBuffer} {element : Bytes}
    {scriptTypes : Nat}
    (wrong : getAssetQuantities amounts element scriptTypes = .error .wrongScript) :
    quantityAmounts scriptTypes element = [] := by
  unfold getAssetQuantities at wrong
  unfold quantityAmounts
  cases found : assetQuantityItems element scriptTypes with
  | none => rfl
  | some typedItems =>
      obtain ⟨scriptType, items⟩ := typedItems
      rw [found] at wrong
      dsimp only at wrong
      cases added : items.foldlM addAssetItem (amounts, scriptType) with
      | ok last =>
          rw [added] at wrong
          cases wrong
      | error err =>
          rw [added] at wrong
          obtain rfl : err = .wrongScript := by simpa [Except.map] using wrong
          exact absurd added (addAssetItems_ne_wrongScript _ _)

theorem getAssetGenesis_nonneg {element : Bytes} {quantity : Int}
    (read : getAssetGenesis element = .ok quantity) :
    toInt64 (quantity.toNat : Nat) = quantity := by
  unfold getAssetGenesis at read
  split at read
  · cases read
  · split at read
    · cases read
    · dsimp only at read
      split at read
      · cases read
      · rename_i body _ nonneg
        rw [Except.ok.injEq] at read
        subst read
        have high := toInt64_lt (getLE (body.take 8))
        rw [Int.toNat_of_nonneg (not_lt.1 nonneg)]
        exact toInt64_of_lt (by omega) high

theorem accumulates_addGenesisAmount {answers : AssetAnswers} {prevHash : Bytes}
    {amounts after : AmountBuffer} {quantity : Int}
    (accumulates : Accumulates amounts entries)
    (word : toInt64 (quantity.toNat : Nat) = quantity)
    (added : addGenesisAmount answers prevHash amounts quantity = .ok after) :
    Accumulates after (entries ++ [(fullRefOfTxid prevHash, quantity.toNat)]) := by
  unfold addGenesisAmount at added
  split at added
  · dsimp only at added
    cases found : amounts.seekRow (fullRefOfTxid prevHash) with
    | none =>
        rw [found] at added
        cases added
        have add := accumulates.add found quantity.toNat 0
        rwa [word] at add
    | some rowID =>
        rw [found] at added
        cases added
        have overwrite := accumulates.overwrite found quantity.toNat
          (amounts.getRow rowID).scriptType
        rwa [word] at overwrite
  · cases added

theorem accumulates_extractInputTransfers {amounts after : AmountBuffer} {element : Bytes}
    (accumulates : Accumulates amounts entries)
    (extracted : extractInputTransfers amounts element = .ok after) :
    Accumulates after (entries ++ quantityAmounts
      (mcScrAssetScriptTypeTransfer ||| mcScrAssetScriptTypeFollowon) element) := by
  unfold extractInputTransfers at extracted
  dsimp only at extracted
  split at extracted
  · rename_i read
    cases extracted
    exact collects_getAssetQuantities accumulates_addAssetItem accumulates read
  · rename_i wrong
    cases extracted
    rwa [quantityAmounts_of_wrongScript wrong, List.append_nil]
  · cases extracted

theorem accumulates_extractInputElement {answers : AssetAnswers} {prevHash element : Bytes}
    {amounts after : AmountBuffer} (accumulates : Accumulates amounts entries)
    (extracted : extractInputElement answers prevHash amounts element = .ok after) :
    Accumulates after (entries ++ spentAmounts prevHash element) := by
  unfold extractInputElement at extracted
  rw [spentAmounts, genesisAmounts, ← List.append_assoc]
  cases transferred : extractInputTransfers amounts element with
  | error reason =>
      rw [transferred] at extracted
      cases extracted
  | ok next =>
      have accumulatesNext := accumulates_extractInputTransfers accumulates transferred
      rw [transferred] at extracted
      dsimp only at extracted
      split at extracted
      · rename_i quantity read
        rw [read]
        exact accumulates_addGenesisAmount accumulatesNext (getAssetGenesis_nonneg read) extracted
      · rename_i wrong
        cases extracted
        rwa [wrong, List.append_nil]
      · cases extracted

theorem accumulatesExactly_extractOutputElement {element : Bytes} {amounts after : AmountBuffer}
    (exactly : AccumulatesExactly amounts entries)
    (extracted : extractOutputElement amounts element = .ok after) :
    AccumulatesExactly after
      (entries ++ quantityAmounts mcScrAssetScriptTypeTransfer element) := by
  unfold extractOutputElement at extracted
  split at extracted
  · rename_i read
    cases extracted
    exact collects_getAssetQuantities accumulatesExactly_addAssetItem exactly read
  · rename_i wrong
    cases extracted
    rwa [quantityAmounts_of_wrongScript wrong, List.append_nil]
  · cases extracted

end Elements

section Transactions

variable {answers : AssetAnswers} {entries : List (FullRef × Nat)}

theorem accumulates_extractInput {input : TxIn} {amounts after : AmountBuffer}
    (accumulates : Accumulates amounts entries)
    (extracted : extractInputAssetQuantities answers amounts input = .ok after) :
    Accumulates after (entries ++ input.amounts) :=
  foldlM_collects Accumulates (spentAmounts input.prevHash)
    (fun _ _ _ _ holds step => accumulates_extractInputElement holds step) _ accumulates extracted

theorem accumulatesExactly_extractOutput {output : TxOut} {amounts after : AmountBuffer}
    (exactly : AccumulatesExactly amounts entries)
    (extracted : extractOutputAssetQuantities amounts output = .ok after) :
    AccumulatesExactly after (entries ++ output.amounts) := by
  unfold extractOutputAssetQuantities at extracted
  unfold TxOut.amounts
  split at extracted
  · rename_i isOpReturn
    cases extracted
    rwa [if_pos isOpReturn, List.append_nil]
  · rename_i notOpReturn
    rw [if_neg notOpReturn]
    exact foldlM_collects AccumulatesExactly (quantityAmounts mcScrAssetScriptTypeTransfer)
      (fun _ _ _ _ holds step => accumulatesExactly_extractOutputElement holds step) _ exactly
      extracted

/-- A row that passed the comparison has a row with its quantity on the other
side. -/
theorem quantity_of_compared {others : AmountBuffer} {row : AmountRow}
    (accumulates : Accumulates others entries) (positive : 0 < row.quantity)
    (compared : compareAmountRow others row = .ok ()) :
    row.quantity = toInt64 (total entries row.fullRef) := by
  unfold compareAmountRow at compared
  rw [if_pos positive] at compared
  cases found : others.seekRow row.fullRef with
  | none =>
      rw [found] at compared
      cases compared
  | some rowID =>
      rw [found] at compared
      dsimp only at compared
      split at compared
      · rename_i same
        rw [same.2]
        exact accumulates.quantity _ _ (lookup_of_seekRow found)
      · cases compared

/-- What an accepted transaction leaves in the two buffers. -/
structure Accepted (tx : AssetTransaction) : Prop where
  spentAgrees : ∀ fullRef, 0 < toInt64 (tx.totalIn fullRef) →
    toInt64 (tx.totalIn fullRef) = toInt64 (tx.totalOut fullRef)
  newAgrees : ∀ fullRef, 0 < toInt64 (tx.totalOut fullRef) →
    toInt64 (tx.totalOut fullRef) = toInt64 (tx.totalIn fullRef)
  newFits : ∀ fullRef, tx.totalOut fullRef < 2 ^ 63

theorem accepted_of_checkAssetAmounts {tx : AssetTransaction} (notCoinBase : tx.isCoinBase = false)
    (checked : checkAssetAmounts answers tx = .ok ()) : Accepted tx := by
  unfold checkAssetAmounts at checked
  simp only [notCoinBase, Bool.false_eq_true, if_false] at checked
  cases extractedIn : tx.vin.foldlM (extractInputAssetQuantities answers)
      AmountBuffer.initABufferMap with
  | error reason =>
      rw [extractedIn] at checked
      cases checked
  | ok assetsIn =>
      rw [extractedIn] at checked
      dsimp only at checked
      cases extractedOut : tx.vout.foldlM extractOutputAssetQuantities
          AmountBuffer.initABufferMap with
      | error reason =>
          rw [extractedOut] at checked
          cases checked
      | ok assetsOut =>
          rw [extractedOut] at checked
          dsimp only at checked
          have spent := foldlM_collects Accumulates TxIn.amounts
            (fun _ _ _ _ holds step => accumulates_extractInput holds step) _
            accumulates_initABufferMap extractedIn
          have new := foldlM_collects AccumulatesExactly TxOut.amounts
            (fun _ _ _ _ holds step => accumulatesExactly_extractOutput holds step) _
            accumulatesExactly_initABufferMap extractedOut
          rw [List.nil_append] at spent new
          unfold compareAssetQuantities at checked
          split at checked
          · cases checked
          · rename_i comparedIn
            refine ⟨fun fullRef positive => ?_, fun fullRef positive => ?_, new.fits⟩
            · obtain ⟨row, inRows, rfl, quantity⟩ := spent.toInt64_total positive
              have compared := passed_of_forM comparedIn inRows
              have positiveRow : 0 < row.quantity := by rwa [quantity]
              exact quantity.symm.trans
                (quantity_of_compared new.toAccumulates positiveRow compared)
            · obtain ⟨row, inRows, rfl, quantity⟩ := new.toInt64_total positive
              have compared := passed_of_forM checked inRows
              have positiveRow : 0 < row.quantity := by rwa [quantity]
              split at compared
              · exact quantity.symm.trans (quantity_of_compared spent positiveRow compared)
              · cases compared

/-- An accepted transaction that is not a coinbase conserves all assets exactly
when what it spends of each asset fits into a signed 64-bit word. -/
theorem conservesAssets_iff_spentFits (answers : AssetAnswers) (tx : AssetTransaction)
    (notCoinBase : tx.isCoinBase = false)
    (checked : checkAssetAmounts answers tx = .ok ()) :
    tx.ConservesAssets ↔ ∀ fullRef, tx.totalIn fullRef < 2 ^ 63 := by
  have accepted := accepted_of_checkAssetAmounts notCoinBase checked
  constructor
  · intro conserves fullRef
    rw [conserves fullRef]
    exact accepted.newFits fullRef
  · intro fits fullRef
    have spentFits := fits fullRef
    have newFits := accepted.newFits fullRef
    have spentAgrees := accepted.spentAgrees fullRef
    have newAgrees := accepted.newAgrees fullRef
    rw [toInt64_of_lt (by omega) (by omega), toInt64_of_lt (by omega) (by omega)] at spentAgrees
    rw [toInt64_of_lt (by omega) (by omega), toInt64_of_lt (by omega) (by omega)] at newAgrees
    omega

end Transactions

section Overflow

/-- The id of the transaction that issued the asset. -/
def issueTxid : Bytes := List.replicate 32 5

/-- An element with one quantity of the issued asset. -/
def quantityElement (kind : UInt8) (quantity : Bytes) : Bytes :=
  mcDctScriptMultichainIdentifier ++ [kind] ++ List.replicate 16 5 ++ quantity

/-- The largest signed 64-bit word. -/
def maxQuantity : Bytes := List.replicate 7 0xff ++ [0x7f]

/-- Spends a follow-on of the largest quantity, the issue of the largest quantity
and a follow-on of 7, and transfers 5. -/
def overflowTransaction : AssetTransaction where
  isCoinBase := false
  vin :=
    [⟨List.replicate 32 6, ⟨[quantityElement mcDctScriptMultichainAssetFollowonPrefix
        maxQuantity], mcDctScriptTypeRegular⟩⟩,
      ⟨issueTxid, ⟨[mcDctScriptMultichainIdentifier ++
        [mcDctScriptMultichainAssetGenesisPrefix] ++ maxQuantity], mcDctScriptTypeRegular⟩⟩,
      ⟨List.replicate 32 7, ⟨[quantityElement mcDctScriptMultichainAssetFollowonPrefix
        [7, 0, 0, 0, 0, 0, 0, 0]], mcDctScriptTypeRegular⟩⟩]
  vout :=
    [⟨⟨[quantityElement mcDctScriptMultichainAssetQuantityPrefix [5, 0, 0, 0, 0, 0, 0, 0]],
      mcDctScriptTypeRegular⟩⟩]

/-- The issue makes the sum wrap to -2, and the follow-on behind it makes it 5. -/
theorem overflowTransaction_not_conserved :
    checkAssetAmounts ⟨fun _ => true, fun _ => true⟩ overflowTransaction = .ok () ∧
      ¬ overflowTransaction.ConservesAssets := by
  refine ⟨by decide +kernel, fun conserves => ?_⟩
  have wrong := conserves (fullRefOfTxid issueTxid)
  revert wrong
  decide +kernel

/-- A transaction that moves 5. -/
def transferTransaction : AssetTransaction where
  isCoinBase := false
  vin :=
    [⟨List.replicate 32 6, ⟨[quantityElement mcDctScriptMultichainAssetQuantityPrefix
        [5, 0, 0, 0, 0, 0, 0, 0]], mcDctScriptTypeRegular⟩⟩]
  vout := overflowTransaction.vout

theorem conservesAssets_iff_spentFits_transfer :
    transferTransaction.ConservesAssets ↔
      ∀ fullRef, transferTransaction.totalIn fullRef < 2 ^ 63 :=
  conservesAssets_iff_spentFits ⟨fun _ => true, fun _ => true⟩ transferTransaction rfl
    (by decide +kernel)

end Overflow

end HdacNode
