import HdacNode.IndexRoundTrip

/-!
# Which blocks give the indexes back

The marks of a block are those of its transactions, each at its position and with the
undo data of the coins behind the transactions before it.  From the marks follows, for
each index, what its records have to be before a block that connecting and
disconnecting leaves no trace of.
-/

namespace HdacNode

open WriteBatch

section Marks

variable {isUnspendable : Bytes → Bool} {nHeight first : Nat} {view last : CCoinsView}
variable {vtx before after : List CTransaction} {undos : List CTxUndo} {tx : CTransaction}
variable {txundo : CTxUndo} {place : TxPlace} {mark : IndexMark}

theorem blockMarks_append (undosBefore undosAfter : List CTxUndo)
    (sameLength : undosBefore.length = before.length) :
    blockMarks nHeight first (before ++ after) (undosBefore ++ undosAfter) =
      blockMarks nHeight first before undosBefore ++
        blockMarks nHeight (first + before.length) after undosAfter := by
  induction before generalizing first undosBefore with
  | nil =>
      obtain rfl := List.eq_nil_of_length_eq_zero sameLength
      rfl
  | cons tx before ih =>
      cases undosBefore with
      | nil => simp at sameLength
      | cons txundo undosBefore =>
          have restLength : undosBefore.length = before.length := by simpa using sameLength
          have nextFirst : first + 1 + before.length = first + (tx :: before).length := by
            simp only [List.length_cons]
            omega
          simp only [List.cons_append, blockMarks, ih undosBefore restLength, List.append_assoc,
            nextFirst]

/-- The run up to a transaction, the inputs of it, and the run behind it. -/
theorem TxRun.split
    (run : TxRun isUnspendable nHeight view (before ++ tx :: after) undos last) :
    ∃ undosBefore txundo undosAfter middle spent, undos = undosBefore ++ txundo :: undosAfter ∧
      TxRun isUnspendable nHeight view before undosBefore middle ∧
      SpendRun middle tx.spendingInputs txundo spent ∧
      TxRun isUnspendable nHeight (spent.addTx isUnspendable nHeight tx) after undosAfter last := by
  induction before generalizing view undos with
  | nil =>
      cases run with
      | @cons _ spent _ _ txundo _ undosAfter inputs rest =>
          exact ⟨[], txundo, undosAfter, view, spent, rfl, .nil view, inputs, rest⟩
  | cons other before ih =>
      cases run with
      | @cons _ spentBefore _ _ otherUndo _ _ inputs rest =>
          obtain ⟨undosBefore, txundo, undosAfter, middle, spent, rfl, runBefore, spends,
            runAfter⟩ := ih rest
          exact ⟨otherUndo :: undosBefore, txundo, undosAfter, middle, spent, rfl,
            .cons inputs runBefore, spends, runAfter⟩

/-- What the coins behind some transactions hold is named by its outpoint. -/
theorem prevoutOf_of_txRun {outPoint : COutPoint} {out : CTxOut}
    (run : TxRun isUnspendable nHeight view vtx undos last)
    (held : last.getOutputFor outPoint = some out) : prevoutOf view vtx outPoint = some out := by
  induction run with
  | nil => exact held
  | @cons view spent last tx txundo vtx undos inputs rest ih =>
      have foundLater := ih held
      unfold prevoutOf at foundLater ⊢
      rw [List.reverse_cons, List.find?_append]
      cases later : vtx.reverse.find? fun tx => tx.hash = outPoint.hash with
      | some other =>
          rw [later] at foundLater
          exact foundLater
      | none =>
          rw [later] at foundLater
          by_cases same : tx.hash = outPoint.hash
          · simpa [same] using getOutputFor_addTx_self spent same.symm foundLater
          · rw [getOutputFor_addTx_of_ne spent (Ne.symm same)] at foundLater
            simpa [same] using inputs.getOutputFor_eq foundLater

theorem exists_split_of_mem_blockMarks
    (run : TxRun isUnspendable nHeight view vtx undos last)
    (inMarks : mark ∈ blockMarks nHeight first vtx undos) :
    ∃ before tx after undosBefore txundo middle spent, vtx = before ++ tx :: after ∧
      TxRun isUnspendable nHeight view before undosBefore middle ∧
      SpendRun middle tx.spendingInputs txundo spent ∧
      mark ∈ txMarks ⟨nHeight, first + before.length⟩ tx txundo := by
  induction run generalizing first with
  | nil => simp [blockMarks] at inMarks
  | @cons view spent last tx txundo vtx undos inputs rest ih =>
      rw [blockMarks, List.mem_append] at inMarks
      rcases inMarks with inFirst | inRest
      · exact ⟨[], tx, vtx, [], txundo, view, spent, rfl, .nil view, inputs, inFirst⟩
      · obtain ⟨before, other, after, undosBefore, otherUndo, middle, otherSpent, rfl, runBefore,
          spends, inTx⟩ := ih inRest
        refine ⟨tx :: before, other, after, txundo :: undosBefore, otherUndo, middle, otherSpent,
          rfl, .cons inputs runBefore, spends, ?_⟩
        have position : first + 1 + before.length = first + (tx :: before).length := by
          simp only [List.length_cons]
          omega
        rwa [← position]

/-- The undo data of an input has the output that it spends. -/
theorem SpendRun.exists_undo {inputs : List CTxIn} {j : Nat} {input : CTxIn}
    (run : SpendRun view inputs txundo last) (found : inputs[j]? = some input) :
    ∃ undo, txundo[j]? = some undo ∧ view.getOutputFor input.prevout = some undo.txout := by
  induction run generalizing j with
  | nil => simp at found
  | @cons view last head inputs coins undo txundo spends rest ih =>
      cases j with
      | zero =>
          obtain rfl : head = input := by simpa using found
          exact ⟨undo, rfl, (undo_eq spends).1⟩
      | succ j =>
          obtain ⟨later, laterFound, held⟩ := ih (by simpa using found)
          exact ⟨later, laterFound, SpendRun.getOutputFor_step spends held⟩

theorem mem_inputMarks {inputs : List CTxIn} :
    mark ∈ inputMarks place tx inputs.zipIdx txundo ↔
      ∃ j input undo, inputs[j]? = some input ∧ txundo[j]? = some undo ∧
        mark = .spends place tx j input undo := by
  unfold inputMarks
  rw [List.mem_map]
  constructor
  · rintro ⟨⟨⟨input, j⟩, undo⟩, inZip, rfl⟩
    obtain ⟨position, foundZip⟩ := List.mem_iff_getElem?.mp inZip
    obtain ⟨foundInput, foundUndo⟩ := List.getElem?_zip_eq_some.mp foundZip
    rw [List.getElem?_zipIdx, Option.map_eq_some_iff] at foundInput
    obtain ⟨other, foundOther, pairEq⟩ := foundInput
    obtain ⟨rfl, rfl⟩ := Prod.mk.inj pairEq
    simp only [Nat.zero_add]
    exact ⟨position, other, undo, foundOther, foundUndo, rfl⟩
  · rintro ⟨j, input, undo, foundInput, foundUndo, rfl⟩
    refine ⟨((input, j), undo), List.mem_iff_getElem?.mpr ⟨j, ?_⟩, rfl⟩
    rw [List.getElem?_zip_eq_some, List.getElem?_zipIdx, foundInput, Nat.zero_add]
    exact ⟨rfl, foundUndo⟩

theorem spends_mem_blockMarks {j : Nat} {input : CTxIn}
    (run : TxRun isUnspendable nHeight view (before ++ tx :: after) undos last)
    (found : tx.spendingInputs[j]? = some input) :
    ∃ undo, prevoutOf view before input.prevout = some undo.txout ∧
      .spends ⟨nHeight, first + before.length⟩ tx j input undo ∈
        blockMarks nHeight first (before ++ tx :: after) undos := by
  obtain ⟨undosBefore, txundo, undosAfter, middle, spent, rfl, runBefore, spends, -⟩ := run.split
  obtain ⟨undo, foundUndo, held⟩ := spends.exists_undo found
  refine ⟨undo, prevoutOf_of_txRun runBefore held, ?_⟩
  rw [blockMarks_append _ _ runBefore.length_eq, List.mem_append, blockMarks, List.mem_append,
    txMarks, List.mem_append]
  exact .inr (.inl (.inl (mem_inputMarks.mpr ⟨j, input, undo, found, foundUndo, rfl⟩)))

theorem creates_mem_blockMarks {k : Nat} {out : CTxOut}
    (run : TxRun isUnspendable nHeight view (before ++ tx :: after) undos last)
    (found : tx.vout[k]? = some out) :
    .creates ⟨nHeight, first + before.length⟩ tx k out ∈
      blockMarks nHeight first (before ++ tx :: after) undos := by
  obtain ⟨undosBefore, txundo, undosAfter, middle, spent, rfl, runBefore, -, -⟩ := run.split
  rw [blockMarks_append _ _ runBefore.length_eq, List.mem_append, blockMarks, List.mem_append,
    txMarks, List.mem_append]
  exact .inr (.inl (.inr (mem_outputMarks.mpr ⟨k, out, found, rfl⟩)))

/-- The marks of a block are those of its inputs and those of its outputs. -/
theorem forall_mem_blockMarks (property : IndexMark → Prop)
    (run : TxRun isUnspendable nHeight view vtx undos last)
    (spending : ∀ before tx after, vtx = before ++ tx :: after →
      ∀ j input, tx.spendingInputs[j]? = some input →
      ∀ undo, prevoutOf view before input.prevout = some undo.txout →
        property (.spends ⟨nHeight, first + before.length⟩ tx j input undo))
    (creating : ∀ before tx after, vtx = before ++ tx :: after →
      ∀ k out, tx.vout[k]? = some out →
        property (.creates ⟨nHeight, first + before.length⟩ tx k out)) :
    ∀ mark ∈ blockMarks nHeight first vtx undos, property mark := by
  intro mark inMarks
  obtain ⟨before, tx, after, undosBefore, txundo, middle, spent, splitEq, runBefore, spends,
    inTx⟩ := exists_split_of_mem_blockMarks run inMarks
  rw [txMarks, List.mem_append, mem_inputMarks, mem_outputMarks] at inTx
  rcases inTx with ⟨j, input, undo, found, foundUndo, rfl⟩ | ⟨k, out, found, rfl⟩
  · obtain ⟨other, foundOther, held⟩ := spends.exists_undo found
    obtain rfl : undo = other := Option.some.inj (foundUndo.symm.trans foundOther)
    exact spending before tx after splitEq j input found undo (prevoutOf_of_txRun runBefore held)
  · exact creating before tx after splitEq k out found

end Marks

section Indexes

variable {isUnspendable : Bytes → Bool} {pindex : CBlockIndex} {db : CBlockTreeDB}
variable {view last : CCoinsView} {block : CBlock} {undos : List CTxUndo}

theorem addressIndex_same_iff (marks : List IndexMark) :
    (∀ key, get (roundTrip pindex db block marks).addressIndex key = get db.addressIndex key) ↔
      ∀ mark ∈ marks, ∀ address, mark.address = some address →
        get db.addressIndex (mark.addressKey address) = none := by
  constructor
  · intro same mark inMarks address hasAddress
    rw [← same, addressIndex_roundTrip, if_pos ⟨mark, inMarks, address, hasAddress, rfl⟩]
  · intro unknown key
    rw [addressIndex_roundTrip]
    split
    · rename_i marked
      obtain ⟨mark, inMarks, address, hasAddress, rfl⟩ := marked
      exact (unknown mark inMarks address hasAddress).symm
    · rfl

/-- The address-unspent index is given back if the first mark of each output says what
the index has. -/
theorem addressUnspentIndex_same_iff (marks : List IndexMark) :
    (∀ key, get (roundTrip pindex db block marks).addressUnspentIndex key =
        get db.addressUnspentIndex key) ↔
      ∀ address outPoint value, firstUnspent address outPoint marks = some value →
        get db.addressUnspentIndex (unspentKey address outPoint) =
          (CBlockTreeDB.unspentWrite (unspentKey address outPoint, value)).value := by
  constructor
  · intro same address outPoint value first
    rw [← same, addressUnspentIndex_roundTrip, first]
  · intro known key
    obtain ⟨address, outPoint, rfl⟩ : ∃ address outPoint, key = unspentKey address outPoint :=
      ⟨(key.type, key.hashBytes), ⟨key.txhash, key.index⟩, rfl⟩
    rw [addressUnspentIndex_roundTrip]
    cases first : firstUnspent address outPoint marks with
    | none => rfl
    | some value => exact (known address outPoint value first).symm

theorem exists_last_spending {vtx : List CTransaction} {outPoint : COutPoint}
    (spent : outPoint ∈ spentOutPoints vtx) :
    ∃ before, ∃ tx : CTransaction, ∃ after, vtx = before ++ tx :: after ∧
      outPoint ∉ spentOutPoints after ∧
      ∃ j : Nat, ∃ input : CTxIn, tx.spendingInputs[j]? = some input ∧ input.prevout = outPoint := by
  induction vtx with
  | nil => simp at spent
  | cons tx vtx ih =>
      by_cases later : outPoint ∈ spentOutPoints vtx
      · obtain ⟨before, other, after, rfl, notLater, input⟩ := ih later
        exact ⟨tx :: before, other, after, rfl, notLater, input⟩
      · rw [spentOutPoints_cons, List.mem_append] at spent
        obtain ⟨input, inInputs, sameOutPoint⟩ := List.mem_map.mp (spent.resolve_right later)
        obtain ⟨j, found⟩ := List.mem_iff_getElem?.mp inInputs
        exact ⟨[], tx, vtx, rfl, later, j, input, found, sameOutPoint⟩

/-- No input of a transaction spends what another one spends. -/
theorem SpendRun.nodup {inputs : List CTxIn} {txundo : CTxUndo}
    (run : SpendRun view inputs txundo last) : (inputs.map CTxIn.prevout).Nodup := by
  induction run with
  | nil => exact List.nodup_nil
  | @cons view last input inputs coins undo txundo spends rest ih =>
      rw [List.map_cons, List.nodup_cons]
      refine ⟨fun again => ?_, ih⟩
      have step := SpendRun.cons spends (.nil _)
      have held := (getOutputFor_iff_isAvailable _ _).mp (getOutputFor_of_mem rest again)
      have kept := ((step.isAvailable_iff input.prevout).mp held).2
      simp at kept

theorem findSome_eq_of_unique {Item Value : Type} {items : List Item} {f : Item → Option Value}
    {item : Item} {value : Value} (inItems : item ∈ items) (found : f item = some value)
    (unique : ∀ other ∈ items, ∀ otherValue, f other = some otherValue → otherValue = value) :
    items.findSome? f = some value := by
  cases first : items.findSome? f with
  | none =>
      rw [List.findSome?_eq_none_iff] at first
      rw [first item inItems] at found
      contradiction
  | some otherValue =>
      obtain ⟨other, inOthers, otherFound⟩ := List.exists_of_findSome?_eq_some first
      rw [unique other inOthers otherValue otherFound]

/-- The writes of marks to the spent index under an outpoint. -/
def spentUnder (outPoint : COutPoint) (mark : IndexMark) : Option (Write COutPoint CSpentIndexValue) :=
  (spentMark mark).filter fun write => write.key = outPoint

theorem spentUnder_creates (outPoint : COutPoint) (place : TxPlace) (tx : CTransaction) (k : Nat)
    (out : CTxOut) : spentUnder outPoint (.creates place tx k out) = none := rfl

theorem spentUnder_spends (outPoint : COutPoint) (place : TxPlace) (tx : CTransaction) (j : Nat)
    (input : CTxIn) (undo : CTxInUndo) :
    spentUnder outPoint (.spends place tx j input undo) =
      if input.prevout = outPoint then
        some (CBlockTreeDB.spentWrite (outPoint, spentRecord place tx undo.txout j))
      else none := by
  by_cases same : input.prevout = outPoint
  · subst same
    simp [spentUnder, spentMark, IndexMark.spentBy, IndexMark.outPoint, CBlockTreeDB.spentWrite]
  · simp [spentUnder, spentMark, IndexMark.spentBy, IndexMark.outPoint, CBlockTreeDB.spentWrite,
      same]

/-- An output that is not spent is not written to the spent index. -/
theorem spentUnder_of_notSpent {nHeight first : Nat} {vtx : List CTransaction}
    {outPoint : COutPoint} (run : TxRun isUnspendable nHeight view vtx undos last)
    (notSpent : outPoint ∉ spentOutPoints vtx) :
    ∀ mark ∈ blockMarks nHeight first vtx undos, spentUnder outPoint mark = none := by
  refine forall_mem_blockMarks (fun mark => spentUnder outPoint mark = none) run ?_ ?_
  · rintro before tx after rfl j input found undo -
    rw [spentUnder_spends, if_neg]
    rintro rfl
    apply notSpent
    rw [spentOutPoints, List.mem_flatMap]
    exact ⟨tx, by simp, List.mem_map_of_mem (List.mem_of_getElem? found)⟩
  · intros
    rfl

theorem spentUnder_last {nHeight first j : Nat} {before after : List CTransaction}
    {tx : CTransaction} {input : CTxIn}
    (run : TxRun isUnspendable nHeight view (before ++ tx :: after) undos last)
    (found : tx.spendingInputs[j]? = some input)
    (notLater : input.prevout ∉ spentOutPoints after) :
    ∃ out, prevoutOf view before input.prevout = some out ∧
      (blockMarks nHeight first (before ++ tx :: after) undos).reverse.findSome?
          (spentUnder input.prevout) =
        some (CBlockTreeDB.spentWrite (input.prevout,
          spentRecord ⟨nHeight, first + before.length⟩ tx out j)) := by
  obtain ⟨undosBefore, txundo, undosAfter, middle, spent, rfl, runBefore, spends, runAfter⟩ :=
    run.split
  obtain ⟨undo, foundUndo, held⟩ := spends.exists_undo found
  refine ⟨undo.txout, prevoutOf_of_txRun runBefore held, ?_⟩
  have noneLater : (blockMarks nHeight (first + before.length + 1) after
      undosAfter).reverse.findSome? (spentUnder input.prevout) = none := by
    rw [List.findSome?_eq_none_iff]
    intro mark inMarks
    exact spentUnder_of_notSpent runAfter notLater mark (List.mem_reverse.mp inMarks)
  have inTx : (txMarks ⟨nHeight, first + before.length⟩ tx txundo).reverse.findSome?
      (spentUnder input.prevout) =
        some (CBlockTreeDB.spentWrite (input.prevout,
          spentRecord ⟨nHeight, first + before.length⟩ tx undo.txout j)) := by
    have isMark : .spends ⟨nHeight, first + before.length⟩ tx j input undo ∈
        (txMarks ⟨nHeight, first + before.length⟩ tx txundo).reverse := by
      rw [List.mem_reverse, txMarks, List.mem_append]
      exact .inl (mem_inputMarks.mpr ⟨j, input, undo, found, foundUndo, rfl⟩)
    apply findSome_eq_of_unique isMark
    · rw [spentUnder_spends, if_pos rfl]
    · intro mark inMarks value isValue
      rw [List.mem_reverse, txMarks, List.mem_append, mem_inputMarks, mem_outputMarks] at inMarks
      rcases inMarks with ⟨i, other, otherUndo, foundOther, otherFoundUndo, rfl⟩ |
        ⟨k, out, -, rfl⟩
      · rw [spentUnder_spends, Option.ite_none_right_eq_some] at isValue
        obtain ⟨sameOutPoint, valueEq⟩ := isValue
        have samePosition : i = j := by
          refine (List.getElem?_inj ?_ spends.nodup).mp ?_
          · rw [List.length_map]
            exact (List.getElem?_eq_some_iff.mp foundOther).1
          · rw [List.getElem?_map, List.getElem?_map, foundOther, found, Option.map_some,
              Option.map_some, sameOutPoint]
        subst samePosition
        obtain rfl : otherUndo = undo := Option.some.inj (otherFoundUndo.symm.trans foundUndo)
        exact (Option.some.inj valueEq).symm
      · rw [spentUnder_creates] at isValue
        contradiction
  rw [blockMarks_append _ _ runBefore.length_eq, blockMarks, List.reverse_append,
    List.reverse_append, List.findSome?_append, List.findSome?_append, noneLater, inTx]
  rfl

/-- The spent index is given back if it has the record of the last input that spends an
output. -/
theorem spentIndex_same_iff (run : TxRun isUnspendable pindex.nHeight view block.vtx undos last) :
    (∀ key, get (roundTrip pindex db block (blockMarks pindex.nHeight 0 block.vtx
        undos)).spentIndex key = get db.spentIndex key) ↔
      ∀ before tx after, block.vtx = before ++ tx :: after →
        ∀ j input, tx.spendingInputs[j]? = some input → input.prevout ∉ spentOutPoints after →
        ∀ out, prevoutOf view before input.prevout = some out →
          get db.spentIndex input.prevout = (CBlockTreeDB.spentWrite (input.prevout,
            spentRecord ⟨pindex.nHeight, before.length⟩ tx out j)).value := by
  constructor
  · intro same before tx after splitEq j input found notLater out names
    rw [splitEq] at run
    obtain ⟨other, otherNames, lastWritten⟩ := spentUnder_last run found notLater
    obtain rfl : out = other := Option.some.inj (names.symm.trans otherNames)
    rw [← same, spentIndex_roundTrip, splitEq]
    unfold spentUnder at lastWritten
    rw [lastWritten, Nat.zero_add]
  · intro known outPoint
    rw [spentIndex_roundTrip]
    by_cases spent : outPoint ∈ spentOutPoints block.vtx
    · obtain ⟨before, tx, after, splitEq, notLater, j, input, found, rfl⟩ :=
        exists_last_spending spent
      rw [splitEq] at run
      obtain ⟨out, names, lastWritten⟩ := spentUnder_last run found notLater
      unfold spentUnder at lastWritten
      rw [splitEq, lastWritten, known before tx after splitEq j input found notLater out names,
        Nat.zero_add]
    · have noneWritten : (blockMarks pindex.nHeight 0 block.vtx undos).reverse.findSome?
          (spentUnder outPoint) = none := by
        rw [List.findSome?_eq_none_iff]
        intro mark inMarks
        exact spentUnder_of_notSpent run spent mark (List.mem_reverse.mp inMarks)
      unfold spentUnder at noneWritten
      rw [noneWritten]

theorem timestampIndex_same_iff (marks : List IndexMark) :
    (∀ key, get (roundTrip pindex db block marks).timestampIndex key =
        get db.timestampIndex key) ↔
      get db.timestampIndex ⟨db.logicalTimestamp block pindex, block.hash⟩ = some () := by
  constructor
  · intro same
    rw [← same, timestampIndex_roundTrip, if_pos rfl]
  · intro known key
    rw [timestampIndex_roundTrip]
    split
    · rename_i sameKey
      rw [← sameKey, known]
    · rfl

theorem addressIndex_same_iff_unknown
    (run : TxRun isUnspendable pindex.nHeight view block.vtx undos last) :
    (∀ key, get (roundTrip pindex db block (blockMarks pindex.nHeight 0 block.vtx
        undos)).addressIndex key = get db.addressIndex key) ↔
      (∀ before tx after, block.vtx = before ++ tx :: after →
        ∀ j input, tx.spendingInputs[j]? = some input →
        ∀ out, prevoutOf view before input.prevout = some out →
        ∀ address, CScript.indexedAddress out.scriptPubKey = some address →
          get db.addressIndex (spendingKey ⟨pindex.nHeight, before.length⟩ tx address j) = none) ∧
      (∀ before tx after, block.vtx = before ++ tx :: after →
        ∀ k out, tx.vout[k]? = some out →
        ∀ address, CScript.indexedAddress out.scriptPubKey = some address →
          get db.addressIndex (receivingKey ⟨pindex.nHeight, before.length⟩ tx address k) =
            none) := by
  rw [addressIndex_same_iff]
  constructor
  · intro unknown
    constructor
    · intro before tx after splitEq j input found out names address hasAddress
      rw [splitEq] at run unknown
      obtain ⟨undo, undoNames, isMark⟩ := spends_mem_blockMarks run found
      obtain rfl : out = undo.txout := Option.some.inj (names.symm.trans undoNames)
      simpa [IndexMark.addressKey] using unknown _ isMark address hasAddress
    · intro before tx after splitEq k out found address hasAddress
      rw [splitEq] at run unknown
      simpa [IndexMark.addressKey] using
        unknown _ (creates_mem_blockMarks run found) address hasAddress
  · rintro ⟨spendingUnknown, receivingUnknown⟩
    refine forall_mem_blockMarks (fun mark => ∀ address, mark.address = some address →
      get db.addressIndex (mark.addressKey address) = none) run ?_ ?_
    · intro before tx after splitEq j input found undo names address hasAddress
      simpa [IndexMark.addressKey] using
        spendingUnknown before tx after splitEq j input found undo.txout names address hasAddress
    · intro before tx after splitEq k out found address hasAddress
      simpa [IndexMark.addressKey] using
        receivingUnknown before tx after splitEq k out found address hasAddress

theorem addressUnspentIndex_same_iff_known
    (run : TxRun isUnspendable pindex.nHeight view block.vtx undos last) :
    (∀ key, get (roundTrip pindex db block (blockMarks pindex.nHeight 0 block.vtx
        undos)).addressUnspentIndex key = get db.addressUnspentIndex key) ↔
      (∀ outPoint, spendsHeld block.vtx outPoint →
        ∀ out, view.getOutputFor outPoint = some out →
        ∀ address, CScript.indexedAddress out.scriptPubKey = some address →
          get db.addressUnspentIndex (unspentKey address outPoint) =
            (CBlockTreeDB.unspentWrite (unspentKey address outPoint,
              ⟨out.nValue, out.scriptPubKey, undoHeight view
                ((spentOutPoints block.vtx).takeWhile (· ≠ outPoint)) outPoint⟩)).value) ∧
      (∀ tx ∈ block.vtx, ∀ k out, tx.vout[k]? = some out →
        ∀ address, CScript.indexedAddress out.scriptPubKey = some address →
        ¬(spendsHeld block.vtx ⟨tx.hash, k⟩ ∧ heldAddress view ⟨tx.hash, k⟩ = some address) →
          get db.addressUnspentIndex (unspentKey address ⟨tx.hash, k⟩) = none) := by
  rw [addressUnspentIndex_same_iff]
  constructor
  · intro known
    constructor
    · intro outPoint spends out held address hasAddress
      apply known
      have underAddress : heldAddress view outPoint = some address := by
        unfold heldAddress
        rw [held]
        exact hasAddress
      rw [firstUnspent_blockMarks 0 run, if_pos ⟨spends, underAddress⟩, restoredUnspent, held]
      rfl
    · intro tx inBlock k out found address hasAddress notHeld
      have created : block.vtx.any (createsUnder address ⟨tx.hash, k⟩) := by
        rw [List.any_eq_true]
        exact ⟨tx, inBlock, by simp [createsUnder, found, hasAddress]⟩
      rw [known address ⟨tx.hash, k⟩ .null
        (by rw [firstUnspent_blockMarks 0 run, if_neg notHeld, if_pos created])]
      rfl
  · rintro ⟨heldKnown, createdUnknown⟩ address outPoint value first
    rw [firstUnspent_blockMarks 0 run] at first
    by_cases spends : spendsHeld block.vtx outPoint ∧ heldAddress view outPoint = some address
    · rw [if_pos spends, restoredUnspent, Option.map_eq_some_iff] at first
      obtain ⟨out, held, rfl⟩ := first
      obtain ⟨other, otherHeld, hasAddress⟩ := Option.bind_eq_some_iff.mp spends.2
      obtain rfl : out = other := Option.some.inj (held.symm.trans otherHeld)
      exact heldKnown outPoint spends.1 out held address hasAddress
    · rw [if_neg spends, Option.ite_none_right_eq_some, List.any_eq_true] at first
      obtain ⟨⟨tx, inBlock, creates⟩, valueEq⟩ := first
      obtain rfl : value = .null := (Option.some.inj valueEq).symm
      obtain ⟨sameHash, underAddress⟩ := of_decide_eq_true creates
      obtain ⟨out, found, hasAddress⟩ := Option.bind_eq_some_iff.mp underAddress
      have samePoint : outPoint = ⟨tx.hash, outPoint.n⟩ := by rw [sameHash]
      rw [samePoint] at spends ⊢
      exact createdUnknown tx inBlock outPoint.n out found address hasAddress spends

/-- Connecting and disconnecting a block changes no index if and only if the indexes were
undoable before it. -/
theorem sameIndexes_roundTrip_iff
    (run : TxRun isUnspendable pindex.nHeight view block.vtx undos last) :
    CBlockTreeDB.SameIndexes (roundTrip pindex db block (blockMarks pindex.nHeight 0 block.vtx
        undos)) db ↔
      IndexesUndoable pindex db view block := by
  constructor
  · intro same
    obtain ⟨spendingUnknown, receivingUnknown⟩ :=
      (addressIndex_same_iff_unknown run).mp same.addressIndex
    obtain ⟨heldUnspent, createdUnknown⟩ :=
      (addressUnspentIndex_same_iff_known run).mp same.addressUnspentIndex
    exact ⟨spendingUnknown, receivingUnknown, heldUnspent, createdUnknown,
      (spentIndex_same_iff run).mp same.spentIndex,
      (timestampIndex_same_iff _).mp same.timestampIndex⟩
  · intro undoable
    exact ⟨(addressIndex_same_iff_unknown run).mpr
        ⟨undoable.spendingUnknown, undoable.receivingUnknown⟩,
      (addressUnspentIndex_same_iff_known run).mpr
        ⟨undoable.heldUnspent, undoable.createdUnknown⟩,
      (spentIndex_same_iff run).mpr undoable.spentKnown,
      (timestampIndex_same_iff _).mpr undoable.timestampKnown⟩

/-- With all indexes kept, disconnecting the block that was connected last gives the four
indexes back if and only if they were undoable before it. -/
theorem disconnectBlock_restoresIndexes_iff (isUnspendable : Bytes → Bool) (pindex : CBlockIndex)
    (db nextDB : CBlockTreeDB) (view next : CCoinsView) (vtxundo : List CTxUndo) (block : CBlock)
    (connects : connectBlock isUnspendable .all pindex db view block =
      some (nextDB, next, vtxundo)) :
    (∃ resultDB result fClean,
      disconnectBlock isUnspendable .all pindex nextDB next vtxundo block =
        some (resultDB, result, fClean) ∧ CBlockTreeDB.SameIndexes resultDB db) ↔
      IndexesUndoable pindex db view block := by
  obtain ⟨-, last, -, run, nextEq⟩ := connectBlock_eq_some connects
  obtain ⟨resultDB, result, fClean, disconnects, resultEq, -, -⟩ :=
    disconnectBlock_of_connectBlock .inMemory (fun _ _ => rfl) connects
  rw [List.map_id_fun, List.map_id] at disconnects resultEq
  have isRoundTrip : resultDB =
      roundTrip pindex db block (blockMarks pindex.nHeight 0 block.vtx ([] :: vtxundo)) := by
    rw [resultEq, nextEq]
    rfl
  rw [← sameIndexes_roundTrip_iff run, ← isRoundTrip]
  constructor
  · rintro ⟨otherDB, other, otherClean, otherDisconnects, same⟩
    rw [disconnects] at otherDisconnects
    cases otherDisconnects
    exact same
  · intro same
    exact ⟨resultDB, result, fClean, disconnects, same⟩

end Indexes

/-- A script that pays to a public key hash. -/
def hashPayment : Bytes :=
  [0x76, 0xa9, 0x14] ++ List.replicate 20 1 ++ [0x88, 0xac]

/-- Coins with two payments of a transaction at height 1. -/
def twoPayments : CCoinsView :=
  (CCoinsView.empty 2).setCoins 5
    (CCoins.fromTx (fun _ => false) ⟨5, 1, [], [⟨8, hashPayment⟩, ⟨9, hashPayment⟩]⟩ 1)

/-- A block that spends the first payment. -/
def spendingBlock : CBlock where
  hash := 3
  nTime := 100
  coinbase := ⟨7, 1, [⟨⟨0, 2 ^ 32 - 1⟩, []⟩], [⟨1, hashPayment⟩]⟩
  txs := [⟨6, 1, [⟨⟨5, 0⟩, []⟩], [⟨7, hashPayment⟩]⟩]
  isCoinBase := rfl
  othersAreNot := by decide

/-- Indexes with the record of the first payment in the address-unspent index. -/
def firstPaymentIndexed : CBlockTreeDB where
  addressIndex := ∅
  addressUnspentIndex :=
    applyBatch ∅ [⟨⟨1, List.replicate 20 1, 5, 0⟩, some ⟨8, hashPayment, 1⟩⟩]
  spentIndex := ∅
  timestampIndex := ∅
  timestampBlockIndex := ∅

/-- The record of the unspent output comes back with height 0, and the records of the
block in the spent index and in the timestamp index stay. -/
theorem spendingBlock_not_undone :
    ∃ nextDB next vtxundo resultDB result,
      connectBlock (fun _ => false) .all ⟨2, 2⟩ firstPaymentIndexed twoPayments spendingBlock =
        some (nextDB, next, vtxundo) ∧
      disconnectBlock (fun _ => false) .all ⟨2, 2⟩ nextDB next vtxundo spendingBlock =
        some (resultDB, result, true) ∧
      get firstPaymentIndexed.addressUnspentIndex ⟨1, List.replicate 20 1, 5, 0⟩ =
        some ⟨8, hashPayment, 1⟩ ∧
      get resultDB.addressUnspentIndex ⟨1, List.replicate 20 1, 5, 0⟩ =
        some ⟨8, hashPayment, 0⟩ ∧
      get firstPaymentIndexed.spentIndex ⟨5, 0⟩ = none ∧
      get resultDB.spentIndex ⟨5, 0⟩ = some ⟨6, 0, 3, 8, 1, List.replicate 20 1⟩ ∧
      get firstPaymentIndexed.timestampIndex ⟨100, 3⟩ = none ∧
      get resultDB.timestampIndex ⟨100, 3⟩ = some () := by
  refine ⟨_, _, _, _, _, rfl, rfl, ?_⟩
  decide +kernel

theorem disconnectBlock_restoresIndexes_iff_spendingBlock :
    ∃ nextDB next vtxundo,
      connectBlock (fun _ => false) .all ⟨2, 2⟩ firstPaymentIndexed twoPayments spendingBlock =
        some (nextDB, next, vtxundo) ∧
      ((∃ resultDB result fClean,
        disconnectBlock (fun _ => false) .all ⟨2, 2⟩ nextDB next vtxundo spendingBlock =
          some (resultDB, result, fClean) ∧
        CBlockTreeDB.SameIndexes resultDB firstPaymentIndexed) ↔
        IndexesUndoable ⟨2, 2⟩ firstPaymentIndexed twoPayments spendingBlock) :=
  ⟨_, _, _, rfl, disconnectBlock_restoresIndexes_iff _ _ _ _ _ _ _ _ rfl⟩

end HdacNode
