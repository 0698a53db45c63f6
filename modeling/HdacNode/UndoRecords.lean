import HdacNode.CoinsRecord
import HdacNode.CoinsRoundTrip

/-!
# The undo data of a block on disk

`DisconnectBlock` reads the undo data of a block from the file to which `ConnectBlock` wrote
it.  The record of an input has a version only if it has a height, and of a version below 0
only the seven lowest bits are written.  Coins of such a version come back with another one
if a block empties them; all others come back as they were.
-/

namespace HdacNode

/-- What the record of an input makes of a version. -/
def storedVersion (version : Int) : Int := if version < 0 then version % 128 else version

/-- Undo data as it comes back from its record. -/
def CTxInUndo.stored (undo : CTxInUndo) : CTxInUndo :=
  { undo with nVersion := if undo.nHeight = 0 then 0 else storedVersion undo.nVersion }

section Records

variable (curve : KeyCurve)

/-- `CTxInUndo::Serialize`. -/
def CTxInUndo.serialize (undo : CTxInUndo) : Except RecordStop Bytes :=
  (serializeOut curve undo.txout).map fun out =>
    writeVarInt 32 ((undo.nHeight * 2 + if undo.fCoinBase then 1 else 0) % 2 ^ 32) ++
      ((if 0 < undo.nHeight then writeVarInt32 (Int32.ofInt undo.nVersion) else []) ++ out)

/-- `CTxInUndo::Unserialize` over `CTxInUndo()`. -/
def CTxInUndo.unserialize (s : Bytes) : Except RecordStop (CTxInUndo × Bytes) := do
  let (nCode, s) ← readVarInt 32 0 s
  let (nVersion, s) ← if 0 < nCode / 2 then readVarInt32 s else .ok (0, s)
  let (txout, s) ← unserializeOut curve s
  return (⟨txout, nCode &&& 1 ≠ 0, nCode / 2, nVersion.toInt⟩, s)

/-- The records of a transaction. -/
def CTxUndo.serialize : CTxUndo → Except RecordStop Bytes
  | [] => .ok []
  | undo :: txundo => do
    let first ← undo.serialize curve
    let rest ← CTxUndo.serialize txundo
    return first ++ rest

/-- Read so many records. -/
def CTxUndo.unserialize : Nat → Bytes → Except RecordStop (CTxUndo × Bytes)
  | 0, s => .ok ([], s)
  | size + 1, s => do
    let (undo, s) ← CTxInUndo.unserialize curve s
    let (txundo, s) ← CTxUndo.unserialize size s
    return (undo :: txundo, s)

/-- `CBlockUndo::WriteToDisk`: the records of a block.  The sizes that stand in front of each
vector and the checksum behind the last one are not part of it. -/
def CBlockUndo.writeToDisk : List CTxUndo → Except RecordStop Bytes
  | [] => .ok []
  | txundo :: vtxundo => do
    let first ← CTxUndo.serialize curve txundo
    let rest ← CBlockUndo.writeToDisk vtxundo
    return first ++ rest

/-- `CBlockUndo::ReadFromDisk` of vectors of these sizes. -/
def CBlockUndo.readFromDisk : List Nat → Bytes → Except RecordStop (List CTxUndo)
  | [], _ => .ok []
  | size :: sizes, s => do
    let (txundo, s) ← CTxUndo.unserialize curve size s
    let vtxundo ← CBlockUndo.readFromDisk sizes s
    return txundo :: vtxundo

end Records

/-- Outputs as `CheckTransaction` accepts them, in a block of fewer than `2 ^ 32` bytes. -/
def CTxOut.Fits (out : CTxOut) : Prop :=
  (0 ≤ out.nValue ∧ out.nValue ≤ maxMoney) ∧ out.scriptPubKey.length + nSpecialScripts < 2 ^ 32

/-- A version has 32 bits. -/
def FitsInt32 (version : Int) : Prop := -2 ^ 31 ≤ version ∧ version < 2 ^ 31

/-- Undo data that has room in its record. -/
structure CTxInUndo.Fits (undo : CTxInUndo) : Prop where
  txout : undo.txout.Fits
  nHeight : undo.nHeight < 2 ^ 31
  nVersion : FitsInt32 undo.nVersion

/-- Coins with heights and versions of 32 bits. -/
structure CCoins.Fits (coins : CCoins) : Prop where
  vout : ∀ n out, coins.vout.get n = some out → out.Fits
  nHeight : coins.nHeight < 2 ^ 31
  nVersion : FitsInt32 coins.nVersion

/-- Transactions as `CheckTransaction` accepts them. -/
structure CTransaction.Fits (tx : CTransaction) : Prop where
  vout : ∀ out ∈ tx.vout, out.Fits
  nVersion : FitsInt32 tx.nVersion

theorem readsBack_stored : ReadsBack storedVersion CTxInUndo.stored where
  txout _ := rfl
  fCoinBase _ := rfl
  nHeight _ := rfl
  nVersion _ withHeight := if_neg withHeight

theorem storedVersion_of_nonneg (version : Int) (notBelow : 0 ≤ version) :
    storedVersion version = version :=
  if_neg (not_lt.mpr notBelow)

/-- A version that was written is read back as its stored form. -/
theorem readVarInt32_stored {version : Int} (fits : FitsInt32 version) (s : Bytes) :
    (readVarInt32 (writeVarInt32 (Int32.ofInt version) ++ s)).map
        (fun read => (read.1.toInt, read.2)) = .ok (storedVersion version, s) := by
  have value : (Int32.ofInt version).toInt = version :=
    Int32.toInt_ofInt_of_le fits.1 fits.2
  by_cases below : version < 0
  · have negative : Int32.ofInt version < 0 := by
      rw [Int32.lt_iff_toInt_lt, value]
      exact below
    have small : (version % 128).toNat < 128 := by omega
    have back : (Int32.ofNat (version % 128).toNat).toInt = version % 128 := by
      rw [← Int32.ofInt_eq_ofNat, Int32.toInt_ofInt_of_le (by omega) (by omega)]
      omega
    rw [writeVarInt32, if_pos negative, value, readVarInt32, List.singleton_append,
      readVarInt_last small (by omega), storedVersion, if_pos below]
    simp only [Except.map, Nat.mul_zero, Nat.zero_add, back]
  · have notNegative : 0 ≤ Int32.ofInt version := by
      rw [Int32.le_iff_toInt_le, value]
      exact not_lt.mp below
    rw [readVarInt32_write notNegative, storedVersion, if_neg below]
    simp only [Except.map, value]

section Written

variable {curve : KeyCurve}

theorem CTxInUndo.unserialize_serialize (lawful : curve.Lawful) {undo : CTxInUndo}
    (fits : undo.Fits) :
    ∃ bytes, undo.serialize curve = .ok bytes ∧
      ∀ s, CTxInUndo.unserialize curve (bytes ++ s) = .ok (undo.stored, s) := by
  obtain ⟨out, written, read⟩ := unserializeOut_serialize lawful fits.txout.1 fits.txout.2
  have height := fits.nHeight
  have flagOne : (if undo.fCoinBase then 1 else 0) < 2 := by split <;> decide
  have codeFits : undo.nHeight * 2 + (if undo.fCoinBase then 1 else 0) < 2 ^ 32 := by omega
  have codeHeight : (undo.nHeight * 2 + if undo.fCoinBase then 1 else 0) / 2 = undo.nHeight := by
    omega
  have codeFlag : decide ((undo.nHeight * 2 + if undo.fCoinBase then 1 else 0) &&& 1 ≠ 0) =
      undo.fCoinBase := by
    rw [Nat.and_one_is_mod]
    cases undo.fCoinBase <;> simp
  have positive : 0 < 32 := by decide
  refine ⟨_, by rw [serialize, written]; rfl, fun s => ?_⟩
  rw [unserialize, List.append_assoc, Nat.mod_eq_of_lt codeFits, readVarInt_write positive codeFits]
  simp only [bind, Except.bind, codeHeight, codeFlag]
  by_cases zero : undo.nHeight = 0
  · rw [if_neg (by omega), if_neg (by omega), List.nil_append]
    simp only [read, pure, Except.pure, stored, if_pos zero]
    rfl
  · rw [if_pos (by omega), if_pos (by omega), List.append_assoc]
    have version := readVarInt32_stored fits.nVersion (out ++ s)
    cases back : readVarInt32 (writeVarInt32 (Int32.ofInt undo.nVersion) ++ (out ++ s)) with
    | error stop =>
        rw [back] at version
        contradiction
    | ok result =>
        rw [back] at version
        obtain ⟨sameVersion, sameRest⟩ := Prod.mk.inj (Except.ok.inj version)
        simp only [sameVersion, sameRest, read, pure, Except.pure, stored, if_neg zero]

theorem CTxUndo.unserialize_serialize (lawful : curve.Lawful) {txundo : CTxUndo}
    (fits : ∀ undo ∈ txundo, undo.Fits) :
    ∃ bytes, CTxUndo.serialize curve txundo = .ok bytes ∧
      ∀ s, CTxUndo.unserialize curve txundo.length (bytes ++ s) =
        .ok (txundo.map CTxInUndo.stored, s) := by
  induction txundo with
  | nil => exact ⟨[], rfl, fun s => rfl⟩
  | cons undo txundo ih =>
      obtain ⟨fitsFirst, fitsRest⟩ := List.forall_mem_cons.mp fits
      obtain ⟨first, writesFirst, readsFirst⟩ := undo.unserialize_serialize lawful fitsFirst
      obtain ⟨rest, writesRest, readsRest⟩ := ih fitsRest
      refine ⟨first ++ rest, ?_, fun s => ?_⟩
      · simp only [CTxUndo.serialize, writesFirst, writesRest, bind, Except.bind]
        rfl
      · rw [List.length_cons, CTxUndo.unserialize, List.append_assoc]
        simp only [readsFirst, readsRest, bind, Except.bind]
        rfl

/-- What `ReadFromDisk` makes of the records that `WriteToDisk` wrote. -/
theorem CBlockUndo.readFromDisk_writeToDisk (lawful : curve.Lawful) {vtxundo : List CTxUndo}
    (fits : ∀ txundo ∈ vtxundo, ∀ undo ∈ txundo, undo.Fits) :
    ∃ file, CBlockUndo.writeToDisk curve vtxundo = .ok file ∧
      ∀ s, CBlockUndo.readFromDisk curve (vtxundo.map List.length) (file ++ s) =
        .ok (vtxundo.map (List.map CTxInUndo.stored)) := by
  induction vtxundo with
  | nil => exact ⟨[], rfl, fun s => rfl⟩
  | cons txundo vtxundo ih =>
      obtain ⟨fitsFirst, fitsRest⟩ := List.forall_mem_cons.mp fits
      obtain ⟨first, writesFirst, readsFirst⟩ := CTxUndo.unserialize_serialize lawful fitsFirst
      obtain ⟨rest, writesRest, readsRest⟩ := ih fitsRest
      refine ⟨first ++ rest, ?_, fun s => ?_⟩
      · simp only [CBlockUndo.writeToDisk, writesFirst, writesRest, bind, Except.bind]
        rfl
      · rw [List.map_cons, CBlockUndo.readFromDisk, List.append_assoc]
        simp only [readsFirst, readsRest, bind, Except.bind]
        rfl

end Written

section Fits

variable {isUnspendable : Bytes → Bool} {nHeight : Nat} {view last : CCoinsView}

theorem CCoins.fits_clear : CCoins.clear.Fits where
  vout n out found := by simp [CCoins.clear] at found
  nHeight := by decide
  nVersion := ⟨by decide, by decide⟩

theorem CCoins.Fits.settle {coins : CCoins} (fits : coins.Fits) : coins.settle.Fits := by
  unfold CCoins.settle
  split
  · exact CCoins.fits_clear
  · exact fits

theorem CCoins.fits_fromTx {tx : CTransaction} (fits : tx.Fits) (low : nHeight < 2 ^ 31) :
    (CCoins.fromTx isUnspendable tx nHeight).Fits where
  vout n out found := by
    rw [get_fromTx, Option.bind_eq_some_iff] at found
    obtain ⟨slot, inside, kept⟩ := found
    have same : slot = out := by
      unfold CCoins.slotOf at kept
      split at kept
      · contradiction
      · exact Option.some.inj kept
    exact same ▸ fits.vout slot (List.mem_of_getElem? inside)
  nHeight := low
  nVersion := fits.nVersion

theorem CCoins.Fits.spend {coins spent : CCoins} {n : Nat} {undo : CTxInUndo} (fits : coins.Fits)
    (spends : coins.spend n = some (spent, undo)) : spent.Fits ∧ undo.Fits := by
  obtain ⟨txout, found, rfl, undoEq⟩ := CCoins.spend_eq_some spends
  refine ⟨⟨fun m out remains => ?_, fits.nHeight, fits.nVersion⟩, ?_⟩
  · rw [SlotList.get_clearAt] at remains
    split at remains
    · contradiction
    · exact fits.vout m out remains
  · rw [undoEq]
    split
    · exact ⟨fits.vout n txout found, fits.nHeight, fits.nVersion⟩
    · exact ⟨fits.vout n txout found, Nat.two_pow_pos 31, fits_clear.nVersion⟩

theorem fits_setCoins (viewFits : ∀ hash, (view.coins hash).Fits) (hash : Hash) {coins : CCoins}
    (fits : coins.Fits) (other : Hash) : ((view.setCoins hash coins).coins other).Fits := by
  by_cases same : other = hash
  · subst same
    rw [CCoinsView.coins_setCoins_self]
    exact fits.settle
  · rw [CCoinsView.coins_setCoins_of_ne _ _ same]
    exact viewFits other

theorem SpendRun.fits {inputs : List CTxIn} {txundo : CTxUndo}
    (run : SpendRun view inputs txundo last) (viewFits : ∀ hash, (view.coins hash).Fits) :
    (∀ hash, (last.coins hash).Fits) ∧ ∀ undo ∈ txundo, undo.Fits := by
  induction run with
  | nil => exact ⟨viewFits, by simp⟩
  | cons spends rest ih =>
      obtain ⟨coinsFit, undoFits⟩ := (viewFits _).spend spends
      obtain ⟨lastFits, restFits⟩ := ih (fits_setCoins viewFits _ coinsFit)
      exact ⟨lastFits, List.forall_mem_cons.mpr ⟨undoFits, restFits⟩⟩

/-- The undo data of a block has room in its records. -/
theorem TxRun.fits {vtx : List CTransaction} {undos : List CTxUndo} (low : nHeight < 2 ^ 31)
    (run : TxRun isUnspendable nHeight view vtx undos last)
    (viewFits : ∀ hash, (view.coins hash).Fits) (txsFit : ∀ tx ∈ vtx, tx.Fits) :
    ∀ txundo ∈ undos, ∀ undo ∈ txundo, undo.Fits := by
  induction run with
  | nil => simp
  | cons inputs rest ih =>
      obtain ⟨txFits, restFit⟩ := List.forall_mem_cons.mp txsFit
      obtain ⟨spentFits, undosFit⟩ := inputs.fits viewFits
      exact List.forall_mem_cons.mpr
        ⟨undosFit, ih (fits_setCoins spentFits _ (CCoins.fits_fromTx txFits low)) restFit⟩

end Fits

/-- Some output of every coins of a version below 0 is left by the transactions. -/
def VersionKept (view : CCoinsView) (spent : List COutPoint) : Prop :=
  ∀ hash, (view.coins hash).isPruned = false → (view.coins hash).nVersion < 0 →
    ∃ n, (view.coins hash).isAvailable n ∧ (⟨hash, n⟩ : COutPoint) ∉ spent

theorem keepVersions_eq_iff {view : CCoinsView} {spent : List COutPoint} :
    view.keepVersions storedVersion spent = view ↔ VersionKept view spent := by
  constructor
  · intro same hash held below
    by_contra noneLeft
    have sameCoins : (view.coins hash).keepVersion storedVersion spent hash = view.coins hash :=
      congrArg (CCoinsView.coins · hash) same
    rw [CCoins.keepVersion_of_held held, CCoins.keptVersion, if_neg noneLeft] at sameCoins
    have sameVersion : storedVersion (view.coins hash).nVersion = (view.coins hash).nVersion :=
      congrArg CCoins.nVersion sameCoins
    rw [storedVersion, if_pos below] at sameVersion
    omega
  · intro kept
    refine CCoinsView.ext_coins (fun hash => ?_) rfl
    by_cases pruned : (view.coins hash).isPruned
    · exact (CCoins.keepVersion_of_isPruned pruned).trans (view.settled hash pruned).symm
    · have held := Bool.eq_false_iff.mpr pruned
      have sameVersion : (view.coins hash).keptVersion storedVersion spent hash =
          (view.coins hash).nVersion := by
        unfold CCoins.keptVersion
        split
        · rfl
        · rename_i noneLeft
          by_cases below : (view.coins hash).nVersion < 0
          · exact absurd (kept hash held below) noneLeft
          · exact storedVersion_of_nonneg _ (not_lt.mp below)
      refine (CCoins.keepVersion_of_held held).trans ?_
      rw [sameVersion]

/-- `DisconnectBlock` with the undo data that it reads back gives the coins before a block
back, and finds them as it expects, if and only if the block overwrites no output and empties
no coins of height 0 or of a version below 0. -/
theorem disconnectBlock_restores_iff (curve : KeyCurve) (lawful : curve.Lawful)
    (isUnspendable : Bytes → Bool) (options : IndexOptions) (pindex : CBlockIndex)
    (low : pindex.nHeight < 2 ^ 31) (db nextDB : CBlockTreeDB) (view next : CCoinsView)
    (viewFits : ∀ hash, (view.coins hash).Fits) (vtxundo : List CTxUndo) (block : CBlock)
    (txsFit : ∀ tx ∈ block.vtx, tx.Fits)
    (connects : connectBlock isUnspendable options pindex db view block =
      some (nextDB, next, vtxundo)) :
    (∃ file blockUndo resultDB, CBlockUndo.writeToDisk curve vtxundo = .ok file ∧
        CBlockUndo.readFromDisk curve (vtxundo.map List.length) file = .ok blockUndo ∧
        disconnectBlock isUnspendable options pindex nextDB next blockUndo block =
          some (resultDB, view, true)) ↔
      Undoable isUnspendable pindex.nHeight view block.vtx ∧
        VersionKept view (spentOutPoints block.vtx) := by
  obtain ⟨-, last, -, run, -⟩ := connectBlock_eq_some connects
  have undosFit : ∀ txundo ∈ vtxundo, ∀ undo ∈ txundo, undo.Fits :=
    (List.forall_mem_cons.mp (run.fits low viewFits txsFit)).2
  obtain ⟨file, writes, reads⟩ := CBlockUndo.readFromDisk_writeToDisk lawful undosFit
  have readsFile := reads []
  rw [List.append_nil] at readsFile
  obtain ⟨resultDB, result, fClean, disconnects, -, restored, notRestored⟩ :=
    disconnectBlock_of_connectBlock readsBack_stored storedVersion_of_nonneg connects
  rw [← keepVersions_eq_iff]
  constructor
  · rintro ⟨otherFile, blockUndo, sameDB, otherWrites, otherReads, disconnectsTo⟩
    rw [writes] at otherWrites
    cases otherWrites
    rw [readsFile] at otherReads
    cases otherReads
    rw [disconnects] at disconnectsTo
    cases disconnectsTo
    have undoable : Undoable isUnspendable pindex.nHeight view block.vtx := by
      by_contra notUndoable
      rcases notRestored notUndoable with unclean | ⟨hash, n, available, lost⟩
      · contradiction
      · exact lost available
    exact ⟨undoable, (restored undoable).1.symm⟩
  · rintro ⟨undoable, sameVersions⟩
    obtain ⟨rfl, rfl⟩ := restored undoable
    rw [sameVersions] at disconnects
    exact ⟨file, _, resultDB, writes, readsFile, disconnects⟩

/-- Connecting and disconnecting the block takes the earlier output out of the coins. -/
theorem repeatedCoinbase_not_restored :
    ∃ nextDB next vtxundo file blockUndo resultDB result,
      connectBlock (fun _ => false) ⟨false, false, false⟩ ⟨2, 2⟩ ⟨∅, ∅, ∅, ∅, ∅⟩
        repeatedCoinbaseView repeatedCoinbaseBlock = some (nextDB, next, vtxundo) ∧
      CBlockUndo.writeToDisk StoredCoins.generatorCurve vtxundo = .ok file ∧
      CBlockUndo.readFromDisk StoredCoins.generatorCurve (vtxundo.map List.length) file =
        .ok blockUndo ∧
      disconnectBlock (fun _ => false) ⟨false, false, false⟩ ⟨2, 2⟩ nextDB next blockUndo
        repeatedCoinbaseBlock = some (resultDB, result, true) ∧
      (repeatedCoinbaseView.coins 7).isAvailable 0 = true ∧
      (result.coins 7).isAvailable 0 = false :=
  ⟨_, _, _, _, _, _, _, rfl, rfl, rfl, rfl, rfl, rfl⟩

/-- The coins of a transaction of version -1 with two outputs. -/
def negativeVersionView : CCoinsView :=
  (CCoinsView.empty 2).setCoins 9 ⟨false, .ofSlots [some ⟨5, [0x51]⟩, some ⟨7, [0x51]⟩], 1, -1⟩

/-- A block that spends both outputs, in two transactions. -/
def negativeVersionBlock : CBlock where
  hash := 3
  nTime := 0
  coinbase := { repeatedCoinbase with hash := 12 }
  txs := [⟨10, 1, [⟨⟨9, 0⟩, []⟩], [⟨5, [0x51]⟩]⟩, ⟨11, 1, [⟨⟨9, 1⟩, []⟩], [⟨7, [0x51]⟩]⟩]
  isCoinBase := rfl
  othersAreNot := by decide

theorem fits_negativeVersionView (hash : Hash) : (negativeVersionView.coins hash).Fits := by
  refine fits_setCoins (fun _ => CCoins.fits_clear) 9
    ⟨fun n out found => ?_, by decide, by decide, by decide⟩ hash
  rw [SlotList.get_ofSlots] at found
  match n with
  | 0 =>
      cases found
      exact ⟨⟨by decide, by decide⟩, by decide⟩
  | 1 =>
      cases found
      exact ⟨⟨by decide, by decide⟩, by decide⟩
  | n + 2 => simp [SlotList.slotAt] at found

theorem disconnectBlock_restores_iff_negativeVersion :
    ∃ nextDB next vtxundo,
      connectBlock (fun _ => false) ⟨false, false, false⟩ ⟨2, 2⟩ ⟨∅, ∅, ∅, ∅, ∅⟩
        negativeVersionView negativeVersionBlock = some (nextDB, next, vtxundo) ∧
      ((∃ file blockUndo resultDB,
          CBlockUndo.writeToDisk StoredCoins.generatorCurve vtxundo = .ok file ∧
          CBlockUndo.readFromDisk StoredCoins.generatorCurve (vtxundo.map List.length) file =
            .ok blockUndo ∧
          disconnectBlock (fun _ => false) ⟨false, false, false⟩ ⟨2, 2⟩ nextDB next blockUndo
            negativeVersionBlock = some (resultDB, negativeVersionView, true)) ↔
        Undoable (fun _ => false) 3 negativeVersionView negativeVersionBlock.vtx ∧
          VersionKept negativeVersionView (spentOutPoints negativeVersionBlock.vtx)) := by
  have txsFit : ∀ tx ∈ negativeVersionBlock.vtx, tx.Fits := by
    have each : ∀ tx ∈ negativeVersionBlock.vtx, (∀ out ∈ tx.vout,
        ((0 ≤ out.nValue ∧ out.nValue ≤ maxMoney) ∧
          out.scriptPubKey.length + nSpecialScripts < 2 ^ 32)) ∧
        (-2 ^ 31 ≤ tx.nVersion ∧ tx.nVersion < 2 ^ 31) := by decide
    exact fun tx member => ⟨(each tx member).1, (each tx member).2⟩
  exact ⟨_, _, _, rfl, disconnectBlock_restores_iff StoredCoins.generatorCurve
    StoredCoins.lawful_generatorCurve _ _ ⟨2, 2⟩ (by decide) _ _ _ _ fits_negativeVersionView _ _
    txsFit rfl⟩

end HdacNode
