import HdacNode.CoinsUndo

/-!
# The marks that a block leaves in the indexes

Every input of a block marks the output that it spends, and every output marks itself.
`ConnectBlock` goes over the marks of a block in their order, and `DisconnectBlock` in
the opposite order; what either does to an index is determined by the marks.
-/

namespace HdacNode

open WriteBatch

/-- An input of a transaction with its undo data, or an output. -/
inductive IndexMark where
  | spends (place : TxPlace) (tx : CTransaction) (j : Nat) (input : CTxIn) (undo : CTxInUndo)
  | creates (place : TxPlace) (tx : CTransaction) (k : Nat) (out : CTxOut)

namespace IndexMark

/-- The records of `ConnectBlock` for a mark. -/
def connectRecords (options : IndexOptions) : IndexMark → IndexRecords
  | .spends place tx j input undo =>
      inputRecords options place tx undo.txout .null (spentRecord place tx undo.txout j) (input, j)
  | .creates place tx k out => connectOutputRecords options place tx (out, k)

/-- The records of `DisconnectBlock` for a mark. -/
def disconnectRecords (options : IndexOptions) : IndexMark → IndexRecords
  | .spends place tx j input undo =>
      inputRecords options place tx undo.txout
        ⟨undo.txout.nValue, undo.txout.scriptPubKey, undo.nHeight⟩ .null (input, j)
  | .creates place tx k out => outputRecords options place tx .null (out, k)

end IndexMark

/-- The marks of the inputs of a transaction. -/
def inputMarks (place : TxPlace) (tx : CTransaction) (inputs : List (CTxIn × Nat))
    (txundo : CTxUndo) : List IndexMark :=
  (inputs.zip txundo).map fun entry => .spends place tx entry.1.2 entry.1.1 entry.2

/-- The marks of the outputs of a transaction. -/
def outputMarks (place : TxPlace) (tx : CTransaction) : List IndexMark :=
  tx.vout.zipIdx.map fun entry => .creates place tx entry.2 entry.1

/-- The marks of a transaction. -/
def txMarks (place : TxPlace) (tx : CTransaction) (txundo : CTxUndo) : List IndexMark :=
  inputMarks place tx tx.spendingInputs.zipIdx txundo ++ outputMarks place tx

/-- The marks of transactions from a position of the block on. -/
def blockMarks (nHeight : Nat) : Nat → List CTransaction → List CTxUndo → List IndexMark
  | first, tx :: vtx, txundo :: undos =>
      txMarks ⟨nHeight, first⟩ tx txundo ++ blockMarks nHeight (first + 1) vtx undos
  | _, _, _ => []

namespace IndexRecords

/-- Records one behind the other. -/
def collect (records : List IndexRecords) : IndexRecords := records.foldl append none

theorem append_none (records : IndexRecords) : records.append none = records := by
  simp [append, none]

theorem none_append (records : IndexRecords) : none.append records = records := by
  simp [append, none]

theorem append_assoc (first second third : IndexRecords) :
    (first.append second).append third = first.append (second.append third) := by
  simp [append]

theorem foldl_append (records : IndexRecords) (others : List IndexRecords) :
    others.foldl append records = records.append (collect others) := by
  induction others generalizing records with
  | nil => exact (append_none records).symm
  | cons other others ih =>
      unfold collect
      rw [List.foldl_cons, List.foldl_cons, ih, ih (none.append other), none_append, append_assoc]

theorem collect_append (first second : List IndexRecords) :
    collect (first ++ second) = (collect first).append (collect second) := by
  unfold collect
  rw [List.foldl_append, foldl_append]
  rfl

theorem collect_cons (first : IndexRecords) (others : List IndexRecords) :
    collect (first :: others) = first.append (collect others) := by
  unfold collect
  rw [List.foldl_cons, foldl_append, none_append]
  rfl

theorem collect_eq (records : List IndexRecords) :
    collect records =
      ⟨records.flatMap addressIndex, records.flatMap addressUnspentIndex,
        records.flatMap spentIndex⟩ := by
  induction records with
  | nil => rfl
  | cons first others ih =>
      rw [collect_cons, ih]
      rfl

end IndexRecords

section Records

variable {isUnspendable : Bytes → Bool} {options : IndexOptions} {pindex : CBlockIndex}
variable {view last : CCoinsView} {vtx : List CTransaction} {vtxundo undos : List CTxUndo}
variable {tx : CTransaction} {txundo : CTxUndo}

theorem SpendRun.getOutputFor_step {coins : CCoins} {undo : CTxInUndo} {input : CTxIn}
    {outPoint : COutPoint} {txout : CTxOut}
    (spends : (view.coins input.prevout.hash).spend input.prevout.n = some (coins, undo))
    (held : (view.setCoins input.prevout.hash coins).getOutputFor outPoint = some txout) :
    view.getOutputFor outPoint = some txout := by
  unfold CCoinsView.getOutputFor at held ⊢
  by_cases same : outPoint.hash = input.prevout.hash
  · obtain ⟨spentOut, found, rfl, -⟩ := CCoins.spend_eq_some spends
    rw [same, CCoinsView.coins_setCoins_self, CCoins.vout_settle, SlotList.get_clearAt] at held
    split at held
    · contradiction
    · rwa [same]
  · rwa [CCoinsView.coins_setCoins_of_ne _ _ same] at held

/-- What is held behind inputs was held before them. -/
theorem SpendRun.getOutputFor_eq {inputs : List CTxIn} {outPoint : COutPoint} {txout : CTxOut}
    (run : SpendRun view inputs txundo last) (held : last.getOutputFor outPoint = some txout) :
    view.getOutputFor outPoint = some txout := by
  induction run with
  | nil => exact held
  | cons spends rest ih => exact getOutputFor_step spends (ih held)

theorem SpendRun.connectInputRecords_eq (place : TxPlace) (tx : CTransaction) (first : Nat)
    {inputs : List CTxIn} (run : SpendRun view inputs txundo last) :
    (inputs.zipIdx first).map (connectInputRecords options place tx view) =
      (inputMarks place tx (inputs.zipIdx first) txundo).map
        (IndexMark.connectRecords options) := by
  have held : ∀ other : CCoinsView,
      (∀ outPoint txout, view.getOutputFor outPoint = some txout →
        other.getOutputFor outPoint = some txout) →
      (inputs.zipIdx first).map (connectInputRecords options place tx other) =
        (inputMarks place tx (inputs.zipIdx first) txundo).map
          (IndexMark.connectRecords options) := by
    induction run generalizing first with
    | nil => intro other _; rfl
    | @cons view last input inputs coins undo txundo spends rest ih =>
        intro other covers
        obtain ⟨spentOut, found, -, undoEq⟩ := CCoins.spend_eq_some spends
        have txoutEq : undo.txout = spentOut := by
          rw [undoEq]
          split <;> rfl
        have heldOut := covers input.prevout spentOut found
        rw [List.zipIdx_cons, List.map_cons, ih (first + 1) other fun outPoint txout remains =>
          covers outPoint txout (SpendRun.getOutputFor_step spends remains)]
        unfold connectInputRecords inputMarks
        rw [heldOut, List.zip_cons_cons, List.map_cons, List.map_cons]
        simp only [IndexMark.connectRecords, txoutEq]
  exact held view fun _ _ found => found

theorem SpendRun.connectRecords_eq (place : TxPlace)
    (run : SpendRun view tx.spendingInputs txundo last) :
    connectRecords options place tx view =
      .collect ((txMarks place tx txundo).map (IndexMark.connectRecords options)) := by
  unfold connectRecords txMarks
  rw [run.connectInputRecords_eq place tx 0, List.map_append, outputMarks, List.map_map]
  rfl

theorem records_disconnectInputs (place : TxPlace) (tx : CTransaction)
    (inputs : List (CTxIn × Nat)) (txundo : CTxUndo) (state : DisconnectState) :
    (disconnectInputs options place tx inputs txundo state).records =
      state.records.append (.collect
        ((inputMarks place tx inputs txundo).reverse.map
          (IndexMark.disconnectRecords options))) := by
  unfold disconnectInputs inputMarks
  induction inputs.zip txundo with
  | nil => exact (IndexRecords.append_none _).symm
  | cons entry entries ih =>
      rw [List.foldr_cons, List.map_cons, List.reverse_cons, List.map_append,
        IndexRecords.collect_append, ← IndexRecords.append_assoc, ← ih]
      rfl

theorem records_disconnectOutputs (place : TxPlace) (tx : CTransaction)
    (state : DisconnectState) :
    (disconnectOutputs isUnspendable options place tx state).records =
      state.records.append (.collect
        ((outputMarks place tx).reverse.map (IndexMark.disconnectRecords options))) := by
  unfold disconnectOutputs outputMarks
  rw [← List.map_reverse, List.map_map, ← IndexRecords.foldl_append]
  rfl

/-- A transaction in the loop of `DisconnectBlock`, with its undo data. -/
def undoTx (isUnspendable : Bytes → Bool) (options : IndexOptions) (place : TxPlace)
    (tx : CTransaction) (txundo : CTxUndo) (state : DisconnectState) : DisconnectState :=
  disconnectInputs options place tx tx.spendingInputs.zipIdx txundo
    (disconnectOutputs isUnspendable options place tx state)

/-- `DisconnectBlock` goes over the marks of a transaction in the opposite order. -/
theorem records_undoTx (place : TxPlace) (tx : CTransaction) (txundo : CTxUndo)
    (state : DisconnectState) :
    (undoTx isUnspendable options place tx txundo state).records =
      state.records.append (.collect
        ((txMarks place tx txundo).reverse.map (IndexMark.disconnectRecords options))) := by
  unfold undoTx txMarks
  rw [records_disconnectInputs, records_disconnectOutputs, IndexRecords.append_assoc,
    ← IndexRecords.collect_append, ← List.map_append, List.reverse_append]

end Records

end HdacNode
