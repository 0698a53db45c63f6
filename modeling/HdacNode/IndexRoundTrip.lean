import HdacNode.IndexTables

/-!
# Disconnecting a block gives its indexes back

`DisconnectBlock` erases what `ConnectBlock` wrote to the address index, and goes over
the address-unspent index in the opposite order.  It leaves the spent index and the
timestamp index alone, and the height that it writes back for an unspent output is the
one in the undo data: 0 unless no other output of the transaction was left.
-/

namespace HdacNode

open WriteBatch

/-- The output that is named by an outpoint behind some transactions of a block. -/
def prevoutOf (view : CCoinsView) (before : List CTransaction) (outPoint : COutPoint) :
    Option CTxOut :=
  match before.reverse.find? fun tx => tx.hash = outPoint.hash with
  | some tx => tx.vout[outPoint.n]?
  | none => view.getOutputFor outPoint

/-- A block spends an output before any of its transactions has the id of it. -/
def spendsHeld : List CTransaction → COutPoint → Bool
  | [], _ => false
  | tx :: vtx, outPoint =>
      (tx.spendingInputs.map CTxIn.prevout).contains outPoint ||
        (tx.hash ≠ outPoint.hash && spendsHeld vtx outPoint)

/-- The height in the undo data of an output, when the outputs in `spent` are spent
before it: 0 if other outputs of its transaction are left. -/
def undoHeight (view : CCoinsView) (spent : List COutPoint) (outPoint : COutPoint) : Nat :=
  let coins := view.coins outPoint.hash
  if (List.range coins.vout.slots.length).all fun n =>
      !coins.isAvailable n || n = outPoint.n || spent.contains ⟨outPoint.hash, n⟩ then
    coins.nHeight
  else 0

/-- The address that an output of a view is filed under. -/
def heldAddress (view : CCoinsView) (outPoint : COutPoint) : Option (Nat × Bytes) :=
  (view.getOutputFor outPoint).bind fun out => CScript.indexedAddress out.scriptPubKey

/-- The indexes that connecting and disconnecting a block does not change. -/
structure IndexesUndoable (pindex : CBlockIndex) (db : CBlockTreeDB) (view : CCoinsView)
    (block : CBlock) : Prop where
  /-- The address index has no record of an input of the block. -/
  spendingUnknown : ∀ before tx after, block.vtx = before ++ tx :: after →
    ∀ j input, tx.spendingInputs[j]? = some input →
    ∀ out, prevoutOf view before input.prevout = some out →
    ∀ address, CScript.indexedAddress out.scriptPubKey = some address →
      get db.addressIndex (spendingKey ⟨pindex.nHeight, before.length⟩ tx address j) = none
  /-- The address index has no record of an output of the block. -/
  receivingUnknown : ∀ before tx after, block.vtx = before ++ tx :: after →
    ∀ k out, tx.vout[k]? = some out →
    ∀ address, CScript.indexedAddress out.scriptPubKey = some address →
      get db.addressIndex (receivingKey ⟨pindex.nHeight, before.length⟩ tx address k) = none
  /-- The address-unspent index has what the undo data says of a held output. -/
  heldUnspent : ∀ outPoint, spendsHeld block.vtx outPoint →
    ∀ out, view.getOutputFor outPoint = some out →
    ∀ address, CScript.indexedAddress out.scriptPubKey = some address →
      get db.addressUnspentIndex (unspentKey address outPoint) =
        (CBlockTreeDB.unspentWrite (unspentKey address outPoint,
          ⟨out.nValue, out.scriptPubKey,
            undoHeight view ((spentOutPoints block.vtx).takeWhile (· ≠ outPoint)) outPoint⟩)).value
  /-- The address-unspent index has no record of another output of the block. -/
  createdUnknown : ∀ tx ∈ block.vtx, ∀ k out, tx.vout[k]? = some out →
    ∀ address, CScript.indexedAddress out.scriptPubKey = some address →
    ¬(spendsHeld block.vtx ⟨tx.hash, k⟩ ∧ heldAddress view ⟨tx.hash, k⟩ = some address) →
      get db.addressUnspentIndex (unspentKey address ⟨tx.hash, k⟩) = none
  /-- The spent index has the record of the last input that spends an output. -/
  spentKnown : ∀ before tx after, block.vtx = before ++ tx :: after →
    ∀ j input, tx.spendingInputs[j]? = some input → input.prevout ∉ spentOutPoints after →
    ∀ out, prevoutOf view before input.prevout = some out →
      get db.spentIndex input.prevout =
        (CBlockTreeDB.spentWrite (input.prevout,
          spentRecord ⟨pindex.nHeight, before.length⟩ tx out j)).value
  /-- The timestamp index has the record of the block. -/
  timestampKnown :
    get db.timestampIndex ⟨db.logicalTimestamp block pindex, block.hash⟩ = some ()

section Heights

variable {view last : CCoinsView} {outPoint : COutPoint} {spent : List COutPoint}

theorem lt_length_of_isAvailable {coins : CCoins} {n : Nat} (available : coins.isAvailable n) :
    n < coins.vout.slots.length := by
  by_contra outside
  unfold CCoins.isAvailable SlotList.get SlotList.slotAt at available
  rw [List.getElem?_eq_none (Nat.le_of_not_lt outside)] at available
  contradiction

/-- The last output of a transaction keeps its height. -/
theorem undoHeight_of_last
    (noneLeft : ∀ n, (view.coins outPoint.hash).isAvailable n → n = outPoint.n ∨
      (⟨outPoint.hash, n⟩ : COutPoint) ∈ spent) :
    undoHeight view spent outPoint = (view.coins outPoint.hash).nHeight := by
  unfold undoHeight
  rw [if_pos]
  rw [List.all_eq_true]
  intro n _
  cases available : (view.coins outPoint.hash).isAvailable n with
  | false => rfl
  | true =>
      rcases noneLeft n available with same | inSpent
      · simp [same]
      · simp [inSpent]

/-- An output that leaves another one behind has height 0. -/
theorem undoHeight_of_left {n : Nat} (available : (view.coins outPoint.hash).isAvailable n)
    (different : n ≠ outPoint.n) (unspent : (⟨outPoint.hash, n⟩ : COutPoint) ∉ spent) :
    undoHeight view spent outPoint = 0 := by
  unfold undoHeight
  rw [if_neg]
  rw [List.all_eq_true]
  intro noneLeft
  have gone := noneLeft n (List.mem_range.mpr (lt_length_of_isAvailable available))
  simp [available, different, unspent] at gone

/-- The height in the undo data does not change when other outputs are spent first. -/
theorem undoHeight_congr (spent : List COutPoint) {other : CCoinsView} {before : List COutPoint}
    (sameAvailable : ∀ n, (other.coins outPoint.hash).isAvailable n ↔
      (view.coins outPoint.hash).isAvailable n ∧ (⟨outPoint.hash, n⟩ : COutPoint) ∉ before)
    (sameHeight : (other.coins outPoint.hash).nHeight = (view.coins outPoint.hash).nHeight) :
    undoHeight view (before ++ spent) outPoint = undoHeight other spent outPoint := by
  by_cases noneLeft : ∀ n, (other.coins outPoint.hash).isAvailable n → n = outPoint.n ∨
      (⟨outPoint.hash, n⟩ : COutPoint) ∈ spent
  · rw [undoHeight_of_last noneLeft, sameHeight]
    apply undoHeight_of_last
    intro n available
    by_cases inBefore : (⟨outPoint.hash, n⟩ : COutPoint) ∈ before
    · exact .inr (List.mem_append_left _ inBefore)
    · rcases noneLeft n ((sameAvailable n).mpr ⟨available, inBefore⟩) with same | inSpent
      · exact .inl same
      · exact .inr (List.mem_append_right _ inSpent)
  · simp only [not_forall, not_or] at noneLeft
    obtain ⟨n, available, different, unspent⟩ := noneLeft
    obtain ⟨held, notBefore⟩ := (sameAvailable n).mp available
    rw [undoHeight_of_left available different unspent]
    apply undoHeight_of_left held different
    rw [List.mem_append, not_or]
    exact ⟨notBefore, unspent⟩

end Heights

section Inputs

variable {view last : CCoinsView} {inputs : List CTxIn} {txundo : CTxUndo}
variable {address : Nat × Bytes} {outPoint : COutPoint} {place : TxPlace} {tx : CTransaction}

/-- The record that is restored for an output that a view holds. -/
def restoredUnspent (view : CCoinsView) (spent : List COutPoint) (outPoint : COutPoint) :
    Option CAddressUnspentValue :=
  (view.getOutputFor outPoint).map fun out =>
    ⟨out.nValue, out.scriptPubKey, undoHeight view (spent.takeWhile (· ≠ outPoint)) outPoint⟩

theorem undo_eq {coins : CCoins} {undo : CTxInUndo} {input : CTxIn}
    (spends : (view.coins input.prevout.hash).spend input.prevout.n = some (coins, undo)) :
    view.getOutputFor input.prevout = some undo.txout ∧
      undo.nHeight = undoHeight view [] input.prevout := by
  obtain ⟨out, found, spentEq, undoEq⟩ := CCoins.spend_eq_some spends
  have txoutEq : undo.txout = out := by
    rw [undoEq]
    split <;> rfl
  refine ⟨by rw [txoutEq]; exact found, ?_⟩
  by_cases pruned : coins.isPruned
  · rw [undoEq, if_pos pruned]
    symm
    apply undoHeight_of_last
    intro n available
    left
    by_contra different
    have remains := (CCoins.isAvailable_spend spends n).mpr ⟨available, different⟩
    rw [CCoins.isPruned_eq_false_iff.mpr ⟨n, remains⟩] at pruned
    contradiction
  · rw [undoEq, if_neg pruned]
    obtain ⟨n, remains⟩ := CCoins.isPruned_eq_false_iff.mp (Bool.eq_false_iff.mpr pruned)
    obtain ⟨available, different⟩ := (CCoins.isAvailable_spend spends n).mp remains
    exact (undoHeight_of_left available different (by simp)).symm

theorem firstUnspent_append (first second : List IndexMark) :
    firstUnspent address outPoint (first ++ second) =
      (firstUnspent address outPoint first).or (firstUnspent address outPoint second) :=
  List.findSome?_append

theorem getOutputFor_of_mem (run : SpendRun view inputs txundo last)
    (spends : outPoint ∈ inputs.map CTxIn.prevout) : ∃ out, view.getOutputFor outPoint = some out := by
  induction run with
  | nil => simp at spends
  | @cons view last input inputs coins undo txundo spendsFirst rest ih =>
      rw [List.map_cons, List.mem_cons] at spends
      rcases spends with rfl | spendsLater
      · exact ⟨undo.txout, (undo_eq spendsFirst).1⟩
      · obtain ⟨out, found⟩ := ih spendsLater
        exact ⟨out, SpendRun.getOutputFor_step spendsFirst found⟩

theorem getOutputFor_iff_isAvailable (view : CCoinsView) (outPoint : COutPoint) :
    (∃ out, view.getOutputFor outPoint = some out) ↔
      (view.coins outPoint.hash).isAvailable outPoint.n := by
  unfold CCoinsView.getOutputFor CCoins.isAvailable
  rw [Option.isSome_iff_exists]

/-- What the inputs of a transaction do not spend stays as it is. -/
theorem getOutputFor_of_notMem (run : SpendRun view inputs txundo last)
    (notSpent : outPoint ∉ inputs.map CTxIn.prevout) :
    last.getOutputFor outPoint = view.getOutputFor outPoint := by
  cases found : last.getOutputFor outPoint with
  | some out => exact (run.getOutputFor_eq found).symm
  | none =>
      have gone : ¬(last.coins outPoint.hash).isAvailable outPoint.n := by
        rw [← getOutputFor_iff_isAvailable, found]
        simp
      rw [run.isAvailable_iff] at gone
      cases held : view.getOutputFor outPoint with
      | none => rfl
      | some out =>
          exact absurd ⟨(getOutputFor_iff_isAvailable view outPoint).mp ⟨out, held⟩, notSpent⟩ gone

theorem nHeight_eq_of_getOutputFor (run : SpendRun view inputs txundo last) {out : CTxOut}
    (held : last.getOutputFor outPoint = some out) :
    (last.coins outPoint.hash).nHeight = (view.coins outPoint.hash).nHeight :=
  run.nHeight_eq (CCoins.isPruned_eq_false_iff.mpr
    ⟨outPoint.n, (getOutputFor_iff_isAvailable last outPoint).mp ⟨out, held⟩⟩)

theorem firstUnspent_inputMarks (first : Nat) (run : SpendRun view inputs txundo last) :
    firstUnspent address outPoint (inputMarks place tx (inputs.zipIdx first) txundo) =
      if outPoint ∈ inputs.map CTxIn.prevout ∧ heldAddress view outPoint = some address then
        restoredUnspent view (inputs.map CTxIn.prevout) outPoint
      else none := by
  induction run generalizing first with
  | nil => rfl
  | @cons view last input inputs coins undo txundo spends rest ih =>
      obtain ⟨found, heightEq⟩ := undo_eq spends
      have step := SpendRun.cons spends (.nil _)
      change firstUnspent address outPoint (.spends place tx first input undo ::
        inputMarks place tx (inputs.zipIdx (first + 1)) txundo) = _
      unfold firstUnspent at ih ⊢
      rw [List.findSome?_cons, ih (first + 1), List.map_cons]
      by_cases same : outPoint = input.prevout
      · subst same
        have gone : heldAddress (view.setCoins input.prevout.hash coins) input.prevout = none := by
          have notHeld : ¬∃ out, (view.setCoins input.prevout.hash coins).getOutputFor
              input.prevout = some out := by
            rw [getOutputFor_iff_isAvailable, step.isAvailable_iff]
            simp
          unfold heldAddress
          rw [Option.eq_none_iff_forall_ne_some.mpr fun out held => notHeld ⟨out, held⟩]
          rfl
        have addressEq : heldAddress view input.prevout =
            CScript.indexedAddress undo.txout.scriptPubKey := by
          unfold heldAddress
          rw [found]
          rfl
        rw [gone, addressEq]
        by_cases sameAddress : CScript.indexedAddress undo.txout.scriptPubKey = some address
        · simp [IndexMark.address, IndexMark.outPoint, IndexMark.oldUnspent, sameAddress,
            restoredUnspent, found, heightEq]
        · simp [IndexMark.address, sameAddress]
      · have notMarked : ¬((IndexMark.spends place tx first input undo).address = some address ∧
            (IndexMark.spends place tx first input undo).outPoint = outPoint) :=
          fun marked => same marked.2.symm
        rw [if_neg notMarked]
        have heldEq := getOutputFor_of_notMem step (by simpa using same)
        have sameHeld : heldAddress (view.setCoins input.prevout.hash coins) outPoint =
            heldAddress view outPoint := by
          unfold heldAddress
          rw [heldEq]
        rw [sameHeld]
        by_cases spent : outPoint ∈ inputs.map CTxIn.prevout ∧ heldAddress view outPoint = some address
        · rw [if_pos spent, if_pos ⟨List.mem_cons_of_mem _ spent.1, spent.2⟩]
          unfold restoredUnspent
          rw [heldEq, List.takeWhile_cons_of_pos (by simpa using Ne.symm same)]
          cases held : view.getOutputFor outPoint with
          | none => rfl
          | some out =>
              have sameHeight := nHeight_eq_of_getOutputFor step (heldEq.trans held)
              have heights := undoHeight_congr ((inputs.map CTxIn.prevout).takeWhile (· ≠ outPoint))
                (fun n => step.isAvailable_iff ⟨outPoint.hash, n⟩) sameHeight
              simp only [Option.map_some]
              rw [← heights]
              rfl
        · rw [if_neg spent, if_neg fun later =>
            spent ⟨(List.mem_cons.mp later.1).resolve_left same, later.2⟩]

/-- A transaction creates an output under an address. -/
def createsUnder (address : Nat × Bytes) (outPoint : COutPoint) (tx : CTransaction) : Bool :=
  tx.hash = outPoint.hash ∧
    (tx.vout[outPoint.n]?).bind (fun out => CScript.indexedAddress out.scriptPubKey) = some address

theorem mem_outputMarks {mark : IndexMark} :
    mark ∈ outputMarks place tx ↔ ∃ k out, tx.vout[k]? = some out ∧ mark = .creates place tx k out := by
  unfold outputMarks
  rw [List.mem_map]
  constructor
  · rintro ⟨⟨out, k⟩, inOutputs, rfl⟩
    exact ⟨k, out, List.mem_zipIdx_iff_getElem?.mp inOutputs, rfl⟩
  · rintro ⟨k, out, found, rfl⟩
    exact ⟨(out, k), List.mem_zipIdx_iff_getElem?.mpr found, rfl⟩

theorem firstUnspent_outputMarks :
    firstUnspent address outPoint (outputMarks place tx) =
      if createsUnder address outPoint tx then some .null else none := by
  unfold firstUnspent
  cases first : (outputMarks place tx).findSome? fun mark =>
      if mark.address = some address ∧ mark.outPoint = outPoint then some mark.oldUnspent
      else none with
  | some value =>
      obtain ⟨mark, inMarks, marked⟩ := List.exists_of_findSome?_eq_some first
      obtain ⟨k, out, found, rfl⟩ := mem_outputMarks.mp inMarks
      obtain ⟨⟨sameAddress, rfl⟩, valueEq⟩ := Option.ite_none_right_eq_some.mp marked
      rw [if_pos]
      · exact valueEq.symm
      · have addressEq : CScript.indexedAddress out.scriptPubKey = some address := sameAddress
        simp [createsUnder, IndexMark.outPoint, found, addressEq]
  | none =>
      rw [List.findSome?_eq_none_iff] at first
      rw [if_neg]
      intro creates
      obtain ⟨sameHash, sameAddress⟩ := of_decide_eq_true creates
      obtain ⟨out, found, addressEq⟩ := Option.bind_eq_some_iff.mp sameAddress
      have unmarked := first _ (mem_outputMarks.mpr ⟨outPoint.n, out, found, rfl⟩)
      rw [if_pos ⟨addressEq, by simp [IndexMark.outPoint, sameHash]⟩] at unmarked
      contradiction

theorem firstUnspent_txMarks (run : SpendRun view tx.spendingInputs txundo last) :
    firstUnspent address outPoint (txMarks place tx txundo) =
      if outPoint ∈ tx.spendingInputs.map CTxIn.prevout ∧
          heldAddress view outPoint = some address then
        restoredUnspent view (tx.spendingInputs.map CTxIn.prevout) outPoint
      else if createsUnder address outPoint tx then some .null else none := by
  unfold txMarks
  rw [firstUnspent_append, firstUnspent_inputMarks 0 run, firstUnspent_outputMarks]
  by_cases spent : outPoint ∈ tx.spendingInputs.map CTxIn.prevout ∧
      heldAddress view outPoint = some address
  · rw [if_pos spent, if_pos spent]
    obtain ⟨out, found⟩ := getOutputFor_of_mem run spent.1
    simp [restoredUnspent, found]
  · rw [if_neg spent, if_neg spent, Option.none_or]

end Inputs

section Blocks

variable {isUnspendable : Bytes → Bool} {nHeight : Nat} {view last : CCoinsView}
variable {vtx : List CTransaction} {undos : List CTxUndo} {tx : CTransaction}
variable {txundo : CTxUndo} {address : Nat × Bytes} {outPoint : COutPoint}

theorem getOutputFor_addTx_of_ne (view : CCoinsView) (different : outPoint.hash ≠ tx.hash) :
    (view.addTx isUnspendable nHeight tx).getOutputFor outPoint = view.getOutputFor outPoint := by
  unfold CCoinsView.getOutputFor CCoinsView.addTx
  rw [CCoinsView.coins_setCoins_of_ne _ _ different]

theorem getOutputFor_addTx_self (view : CCoinsView) (same : outPoint.hash = tx.hash) {out : CTxOut}
    (held : (view.addTx isUnspendable nHeight tx).getOutputFor outPoint = some out) :
    tx.vout[outPoint.n]? = some out := by
  unfold CCoinsView.getOutputFor CCoinsView.addTx at held
  rw [same, CCoinsView.coins_setCoins_self, CCoins.vout_settle, get_fromTx] at held
  obtain ⟨created, found, kept⟩ := Option.bind_eq_some_iff.mp held
  rw [found]
  unfold CCoins.slotOf at kept
  split at kept
  · contradiction
  · exact kept

theorem restoredUnspent_addTx (run : SpendRun view tx.spendingInputs txundo last)
    (notSpent : outPoint ∉ tx.spendingInputs.map CTxIn.prevout)
    (different : outPoint.hash ≠ tx.hash) (spent : List COutPoint) :
    restoredUnspent view (tx.spendingInputs.map CTxIn.prevout ++ spent) outPoint =
      restoredUnspent (last.addTx isUnspendable nHeight tx) spent outPoint := by
  have heldEq : (last.addTx isUnspendable nHeight tx).getOutputFor outPoint =
      view.getOutputFor outPoint := by
    rw [getOutputFor_addTx_of_ne last different, getOutputFor_of_notMem run notSpent]
  have takeEq : (tx.spendingInputs.map CTxIn.prevout ++ spent).takeWhile (· ≠ outPoint) =
      tx.spendingInputs.map CTxIn.prevout ++ spent.takeWhile (· ≠ outPoint) := by
    rw [List.takeWhile_append_of_pos]
    intro other inInputs
    have notSame : other ≠ outPoint := by
      rintro rfl
      exact notSpent inInputs
    simpa using notSame
  unfold restoredUnspent
  rw [heldEq, takeEq]
  cases held : view.getOutputFor outPoint with
  | none => rfl
  | some out =>
      have stillHeld : last.getOutputFor outPoint = some out := by
        rw [getOutputFor_of_notMem run notSpent, held]
      have coinsEq : (last.addTx isUnspendable nHeight tx).coins outPoint.hash =
          last.coins outPoint.hash := by
        unfold CCoinsView.addTx
        rw [CCoinsView.coins_setCoins_of_ne _ _ different]
      have heights : undoHeight view (tx.spendingInputs.map CTxIn.prevout ++
          spent.takeWhile (· ≠ outPoint)) outPoint =
            undoHeight (last.addTx isUnspendable nHeight tx) (spent.takeWhile (· ≠ outPoint))
              outPoint := by
        apply undoHeight_congr
        · intro n
          rw [coinsEq]
          exact run.isAvailable_iff ⟨outPoint.hash, n⟩
        · rw [coinsEq]
          exact nHeight_eq_of_getOutputFor run stillHeld
      simp only [Option.map_some, heights]

theorem takeWhile_append_of_mem (spent others : List COutPoint) (inSpent : outPoint ∈ spent) :
    (spent ++ others).takeWhile (· ≠ outPoint) = spent.takeWhile (· ≠ outPoint) := by
  induction spent with
  | nil => contradiction
  | cons head spent ih =>
      by_cases same : head = outPoint
      · simp [same]
      · have later : outPoint ∈ spent := (List.mem_cons.mp inSpent).resolve_left (Ne.symm same)
        rw [List.cons_append, List.takeWhile_cons_of_pos (by simpa using same),
          List.takeWhile_cons_of_pos (by simpa using same), ih later]

/-- Behind a transaction that spends an output or has the id of it, the output is held
only if the transaction creates it. -/
theorem createsUnder_of_heldAddress (run : SpendRun view tx.spendingInputs txundo last)
    (touched : outPoint ∈ tx.spendingInputs.map CTxIn.prevout ∨ tx.hash = outPoint.hash)
    (held : heldAddress (last.addTx isUnspendable nHeight tx) outPoint = some address) :
    createsUnder address outPoint tx := by
  obtain ⟨out, found, sameAddress⟩ := Option.bind_eq_some_iff.mp held
  by_cases same : tx.hash = outPoint.hash
  · have created := getOutputFor_addTx_self last same.symm found
    simp [createsUnder, same, created, sameAddress]
  · rw [getOutputFor_addTx_of_ne last (Ne.symm same)] at found
    have available := (getOutputFor_iff_isAvailable last outPoint).mp ⟨out, found⟩
    exact absurd (touched.resolve_right same) ((run.isAvailable_iff outPoint).mp available).2

theorem firstUnspent_blockMarks (first : Nat)
    (run : TxRun isUnspendable nHeight view vtx undos last) :
    firstUnspent address outPoint (blockMarks nHeight first vtx undos) =
      if spendsHeld vtx outPoint ∧ heldAddress view outPoint = some address then
        restoredUnspent view (spentOutPoints vtx) outPoint
      else if vtx.any (createsUnder address outPoint) then some .null else none := by
  induction run generalizing first with
  | nil => rfl
  | @cons view spent last tx txundo vtx undos inputs rest ih =>
      change firstUnspent address outPoint (txMarks ⟨nHeight, first⟩ tx txundo ++
        blockMarks nHeight (first + 1) vtx undos) = _
      rw [firstUnspent_append, firstUnspent_txMarks inputs, ih (first + 1), List.any_cons,
        spentOutPoints_cons]
      by_cases inInputs : outPoint ∈ tx.spendingInputs.map CTxIn.prevout
      · have held : spendsHeld (tx :: vtx) outPoint := by simp [spendsHeld, inInputs]
        by_cases sameAddress : heldAddress view outPoint = some address
        · have spends : outPoint ∈ tx.spendingInputs.map CTxIn.prevout ∧
              heldAddress view outPoint = some address := ⟨inInputs, sameAddress⟩
          have spendsFirst : spendsHeld (tx :: vtx) outPoint ∧
              heldAddress view outPoint = some address := ⟨held, sameAddress⟩
          rw [if_pos spends, if_pos spendsFirst]
          obtain ⟨out, found⟩ := getOutputFor_of_mem inputs inInputs
          unfold restoredUnspent
          rw [takeWhile_append_of_mem _ _ inInputs, found]
          rfl
        · have notSpent : ¬(outPoint ∈ tx.spendingInputs.map CTxIn.prevout ∧
              heldAddress view outPoint = some address) := fun spends => sameAddress spends.2
          have notSpentFirst : ¬(spendsHeld (tx :: vtx) outPoint ∧
              heldAddress view outPoint = some address) := fun spends => sameAddress spends.2
          rw [if_neg notSpent, if_neg notSpentFirst]
          by_cases creates : createsUnder address outPoint tx
          · simp [creates]
          · have notHeld : heldAddress (spent.addTx isUnspendable nHeight tx) outPoint ≠
                some address :=
              fun isHeld => creates (createsUnder_of_heldAddress inputs (.inl inInputs) isHeld)
            simp [creates, notHeld]
      · rw [if_neg fun spends => inInputs spends.1]
        by_cases same : tx.hash = outPoint.hash
        · have notHeld : spendsHeld (tx :: vtx) outPoint = false := by
            simpa [spendsHeld, same] using inInputs
          by_cases creates : createsUnder address outPoint tx
          · simp [creates, notHeld]
          · have gone : heldAddress (spent.addTx isUnspendable nHeight tx) outPoint ≠
                some address :=
              fun isHeld => creates (createsUnder_of_heldAddress inputs (.inr same) isHeld)
            simp [creates, gone, notHeld]
        · have notCreated : createsUnder address outPoint tx = false := by
            simp [createsUnder, same]
          have heldIff : spendsHeld (tx :: vtx) outPoint = spendsHeld vtx outPoint := by
            have notContained :
                (tx.spendingInputs.map CTxIn.prevout).contains outPoint = false := by
              simpa using inInputs
            rw [spendsHeld, notContained, Bool.false_or, decide_eq_true same, Bool.true_and]
          have sameHeld : heldAddress (spent.addTx isUnspendable nHeight tx) outPoint =
              heldAddress view outPoint := by
            unfold heldAddress
            rw [getOutputFor_addTx_of_ne spent (Ne.symm same), getOutputFor_of_notMem inputs inInputs]
          have restoredEq : restoredUnspent view
              (tx.spendingInputs.map CTxIn.prevout ++ spentOutPoints vtx) outPoint =
                restoredUnspent (spent.addTx isUnspendable nHeight tx) (spentOutPoints vtx)
                  outPoint :=
            restoredUnspent_addTx inputs inInputs (Ne.symm same) (spentOutPoints vtx)
          rw [notCreated, heldIff, sameHeld, restoredEq]
          simp

end Blocks

end HdacNode
