import Mathlib.Data.BitVec
import HdacNode.BlockIdentity

/-!
# Signing and verifying a block

The signature that `CreateBlockSignature` puts into a template is the one that `FindSigner`
finds in it, and both sides hash the same header: the outputs that cannot be spent are left
out of both trees.
-/

namespace HdacNode

section Roundtrip

theorem takeCounted_putLE (bytes rest : Bytes) (fits : bytes.length < 2 ^ 8) :
    takeCounted (putLE bytes.length 1 ++ (bytes ++ rest)) = some (⟨bytes, fits⟩, rest) := by
  have count : (UInt8.ofNat bytes.length).toNat = bytes.length := UInt8.toNat_ofNat_of_lt' fits
  unfold takeCounted
  rw [putLE_one]
  simp only [List.cons_append, List.nil_append, count, List.length_append]
  rw [if_neg (by omega)]
  simp

/-- `GetBlockSignature` reads back what `SetBlockSignature` writes. -/
theorem getBlockSignature_setBlockSignature (signature : BlockSignature)
    (short : signature.sig.length ≤ 72) :
    ∃ element, setBlockSignature signature = [element] ∧
      getBlockSignature element = some signature ∧ element ≠ [] ∧ element.length ≤ 400 := by
  have keyFits := signature.key.fits
  refine ⟨_, if_neg (by omega), ?_, by simp, ?_⟩
  · unfold getBlockSignature
    rw [if_neg, if_neg, if_neg]
    · have body : List.drop (mcDctScriptIdentifierLen + 1) (mcDctScriptFreeDataIdentifier ++
          [mcDctScriptMultichainBlockSignaturePrefix] ++ putLE signature.sig.length 1 ++
          signature.sig ++ [signature.hashType] ++ putLE signature.key.bytes.length 1 ++
          signature.key.bytes) = putLE signature.sig.length 1 ++ (signature.sig ++
            (signature.hashType :: (putLE signature.key.bytes.length 1 ++
              (signature.key.bytes ++ [])))) := by
        simp [mcDctScriptIdentifierLen, mcDctScriptFreeDataIdentifier]
      rw [body, takeCounted_putLE _ _ (by omega)]
      dsimp only
      rw [takeCounted_putLE _ _ keyFits]
    · simp [mcDctScriptIdentifierLen, mcDctScriptFreeDataIdentifier]
    · simp [mcDctScriptIdentifierLen, mcDctScriptFreeDataIdentifier]
    · simp [mcDctScriptIdentifierLen, mcDctScriptFreeDataIdentifier, putLE_one]
      omega
  · simp [mcDctScriptFreeDataIdentifier, putLE_one]
    omega

/-- A length and the data it counts are read within a script that ends with them. -/
theorem checkEnd_readLengthBytes {front data : Bytes} {size : Nat}
    (fits : data.length < 2 ^ (8 * size)) (short : data.length < 2 ^ 31) :
    ScriptParser.checkEnd (front ++ putLE data.length size ++ data)
        (ScriptParser.readLengthBytes (front ++ putLE data.length size ++ data) front.length
          size) = .ok (data.length, front.length + size) := by
  have counted : ((front ++ putLE data.length size ++ data).drop (front.length : Int).toNat).take
      size = putLE data.length size := by
    rw [Int.toNat_natCast, List.append_assoc, List.drop_left,
      List.take_left' (length_putLE data.length size)]
  unfold ScriptParser.readLengthBytes ScriptParser.checkEnd
  rw [counted, getLE_putLE fits, ScriptParser.toInt32_of_lt short,
    if_neg (by simp [length_putLE])]
  dsimp only
  rw [if_neg (by simp [length_putLE]; omega)]

theorem readPush_pushData (data : Bytes) (short : data.length ≤ 400) :
    ∃ opcode header, pushData data = opcode :: header ++ data ∧
      ScriptParser.readPush (UInt8.ofNat mcDctScriptOpReturn :: pushData data) opcode.toNat 2 =
        .ok (data.length, 2 + header.length) := by
  unfold pushData ScriptParser.readPush
  by_cases direct : data.length < mcDctScriptOpPushData1
  · have isOpcode : (UInt8.ofNat data.length).toNat = data.length :=
      UInt8.toNat_ofNat_of_lt' (Nat.lt_trans direct (by decide))
    refine ⟨UInt8.ofNat data.length, [], by rw [if_pos direct]; rfl, ?_⟩
    rw [if_pos direct, isOpcode, if_pos (Nat.le_trans (Nat.le_of_lt direct) (by decide))]
    unfold ScriptParser.readLength
    rw [if_pos direct]
    unfold ScriptParser.checkEnd
    dsimp only
    rw [if_neg (by simp [putLE_one]; omega)]
    rfl
  · rw [if_neg direct]
    by_cases oneByte : data.length ≤ 0xff
    · refine ⟨UInt8.ofNat mcDctScriptOpPushData1, putLE data.length 1,
        by rw [if_pos oneByte], ?_⟩
      rw [if_pos oneByte, if_pos (by decide)]
      unfold ScriptParser.readLength
      rw [if_neg (by decide), if_pos (by decide)]
      exact @checkEnd_readLengthBytes
        [UInt8.ofNat mcDctScriptOpReturn, UInt8.ofNat mcDctScriptOpPushData1] data 1
        (Nat.lt_of_le_of_lt oneByte (by decide)) (Nat.lt_of_le_of_lt short (by decide))
    · rw [if_neg oneByte, if_pos (by omega)]
      refine ⟨UInt8.ofNat mcDctScriptOpPushData2, putLE data.length 2, rfl, ?_⟩
      rw [if_pos (by decide)]
      unfold ScriptParser.readLength
      rw [if_neg (by decide), if_neg (by decide), if_pos (by decide)]
      exact @checkEnd_readLengthBytes
        [UInt8.ofNat mcDctScriptOpReturn, UInt8.ofNat mcDctScriptOpPushData2] data 2
        (Nat.lt_of_le_of_lt short (by decide)) (Nat.lt_of_le_of_lt short (by decide))

namespace ScriptParser

theorem elements_setTypeIf (script : Script) (condition : Bool) (flag : Nat) :
    (script.setTypeIf condition flag).elements = script.elements := by
  cases condition <;> rfl

theorem elements_advance (taken : Taken) (opcode : Nat) :
    (advance taken opcode).script.elements = taken.script.elements :=
  elements_setTypeIf ..

theorem isOpReturn_advance (taken : Taken) (opcode : Nat) :
    (advance taken opcode).isOpReturn = taken.isOpReturn := rfl

/-- Without an OP_RETURN at the end the elements are those of the loop. -/
theorem elements_finish {state : ScanState} (closed : state.isOpReturn = false) :
    (finish state).elements = state.script.elements := by
  have unchanged : (if state.isOpReturn then state.script.addElement [] else state.script) =
      state.script := if_neg (by simp [closed])
  unfold finish
  rw [unchanged]
  dsimp only
  split <;> rfl

end ScriptParser

theorem scriptElements_pushData (data : Bytes) (notEmpty : data ≠ []) (short : data.length ≤ 400)
    (more : Nat) :
    scriptElements (more + 3) (UInt8.ofNat mcDctScriptOpReturn :: pushData data) =
      some [data] := by
  obtain ⟨opcode, header, isPush, reads⟩ := readPush_pushData data short
  have positive : 0 < data.length := List.length_pos_of_ne_nil notEmpty
  set script := UInt8.ofNat mcDctScriptOpReturn :: pushData data with isScript
  have split : script = (UInt8.ofNat mcDctScriptOpReturn :: opcode :: header) ++ data := by
    rw [isScript, isPush]
    rfl
  have length : (script.length : Int) = 2 + header.length + data.length := by
    rw [split]
    simp
    omega
  have opReturn : ScriptParser.scanStep script .scriptPubKey ScriptParser.scanStart =
      .next ⟨1, 1, 0, true, ⟨[], mcDctScriptTypeOpReturn⟩⟩ := by
    unfold ScriptParser.scanStep
    rw [if_pos (by rw [length]; change (0 : Int) < _; omega)]
    rfl
  have copied : copyFrom script (2 + header.length) data.length = some data := by
    unfold copyFrom
    rw [if_pos ⟨by omega, by omega, by rw [length]⟩, split]
    have start : ((2 : Int) + header.length).toNat =
        (UInt8.ofNat mcDctScriptOpReturn :: opcode :: header).length := by
      simp
      omega
    rw [start, List.drop_left, Int.toNat_natCast, List.take_length]
  have pushed : ScriptParser.scanStep script .scriptPubKey
      ⟨1, 1, 0, true, ⟨[], mcDctScriptTypeOpReturn⟩⟩ =
      .next (ScriptParser.advance ⟨⟨[data], mcDctScriptTypeOpReturn⟩, false, script.length,
        data.length⟩ opcode.toNat) := by
    unfold ScriptParser.scanStep
    rw [if_pos (by rw [length]; change (1 : Int) < _; omega)]
    have isOpcode : byteAt script 1 = some opcode := by
      rw [split]
      rfl
    rw [isOpcode]
    dsimp only
    rw [show (1 : Int) + 1 = 2 from rfl, reads]
    dsimp only
    rw [if_neg (by simp)]
    have taken : ScriptParser.takeElement script .scriptPubKey
        ⟨1, 1, 0, true, ⟨[], mcDctScriptTypeOpReturn⟩⟩ data.length (2 + header.length) =
        some ⟨⟨[data], mcDctScriptTypeOpReturn⟩, false, script.length, data.length⟩ := by
      unfold ScriptParser.takeElement
      rw [if_neg (by simp [ScriptParser.isRedeemScript])]
      dsimp only
      have nonzero : (data.length : Int) ≠ 0 := by omega
      rw [if_pos nonzero, copied]
      rfl
    rw [taken]
  unfold scriptElements
  rw [if_neg (by rw [isScript]; exact List.cons_ne_nil _ _)]
  unfold elementsFrom
  rw [opReturn]
  dsimp only
  unfold elementsFrom
  rw [pushed]
  dsimp only
  unfold elementsFrom
  unfold ScriptParser.scanStep
  have atEnd : ¬ (ScriptParser.advance ⟨⟨[data], mcDctScriptTypeOpReturn⟩, false, script.length,
      data.length⟩ opcode.toNat).ptr < script.length := by
    unfold ScriptParser.advance
    dsimp only
    omega
  rw [if_neg atEnd]
  dsimp only
  rw [ScriptParser.elements_finish (ScriptParser.isOpReturn_advance _ _)]
  exact congrArg some (ScriptParser.elements_advance _ _)

end Roundtrip

namespace FullBlock

variable {functions : BlockFunctions}

section Signing

theorem exists_split_of_findIdx? {Item : Type} {isIt : Item → Bool} {items : List Item} {i : Nat}
    (found : items.findIdx? isIt = some i) :
    ∃ before item after, items = before ++ item :: after ∧ before.length = i ∧
      isIt item = true ∧ ∀ other ∈ before, isIt other = false := by
  induction items generalizing i with
  | nil => cases found
  | cons first rest ih =>
      rw [List.findIdx?_cons] at found
      by_cases isFirst : isIt first = true
      · rw [if_pos isFirst] at found
        cases found
        exact ⟨[], first, rest, rfl, rfl, isFirst, by simp⟩
      · rw [if_neg isFirst] at found
        obtain ⟨j, foundRest, isNext⟩ := Option.map_eq_some_iff.mp found
        obtain ⟨before, item, after, isRest, length, isItem, others⟩ := ih foundRest
        refine ⟨first :: before, item, after, by rw [isRest]; rfl, by simp [length, isNext],
          isItem, ?_⟩
        intro other member
        rcases List.mem_cons.mp member with isOther | inBefore
        · rw [isOther]
          exact Bool.eq_false_iff.mpr isFirst
        · exact others other inBefore

/-- The first coinbase transaction of a block, with the ones in front of it and behind
it. -/
structure CoinbaseAt (block : FullBlock) (before : List FullTransaction) (tx : FullTransaction)
    (after : List FullTransaction) : Prop where
  vtx : block.vtx = before ++ tx :: after
  isCoinBase : tx.isCoinBase = true
  isFirst : ∀ other ∈ before, other.isCoinBase = false

/-- The root over a list of transactions without the outputs of coinbase transactions that
cannot be spent. -/
def strippedRoot (functions : BlockFunctions) (block : FullBlock) (vtx : List FullTransaction) :
    Hash :=
  { block with nMerkleTreeType := .noCoinbaseOpReturn, vtx := vtx }.merkleRoot functions

/-- The header that is signed. -/
def signedHeader (functions : BlockFunctions) (block : FullBlock) (vtx : List FullTransaction) :
    BlockHeader :=
  { block.toBlockHeader with hashMerkleRoot := strippedRoot functions block vtx, nNonce := 0 }

theorem strippedRoot_congr (functions : BlockFunctions) (block block' : FullBlock)
    {vtx vtx' : List FullTransaction}
    (same : vtx.map (committedTx functions .noCoinbaseOpReturn) =
      vtx'.map (committedTx functions .noCoinbaseOpReturn)) :
    strippedRoot functions block vtx = strippedRoot functions block' vtx' := by
  have sameLength : vtx.length = vtx'.length := by simpa using congrArg List.length same
  have sameLeaves := congrArg (List.map functions.txHash) same
  rw [List.map_map, List.map_map] at sameLeaves
  unfold strippedRoot merkleRoot merkleTree merkleLeaves
  dsimp only
  rw [sameLength]
  exact congrArg (fun leaves => ((MerkleTree.build functions.nodeHash vtx'.length
    leaves).1.getLast?).getD 0) sameLeaves

theorem build_ne_nil {Node : Type} [DecidableEq Node] (combine : Node → Node → Node)
    (fuel : Nat) {row : List Node} (notEmpty : row ≠ []) :
    (MerkleTree.build combine fuel row).1 ≠ [] := by
  cases fuel with
  | zero => exact notEmpty
  | succ fuel =>
      unfold MerkleTree.build
      split
      · exact notEmpty
      · simp [notEmpty]

/-- What `CreateBlockSignature` has done when it returns true. -/
theorem createBlockSignature_ok {wallet : SigningWallet functions} {firstBlocks : Bool}
    {block signed : FullBlock}
    (created : block.createBlockSignature functions wallet firstBlocks .noSignatureAndNonce =
      (true, signed)) :
    ∃ before tx after sign, block.CoinbaseAt before tx after ∧ block.vSigner.bytes ≠ [] ∧
      wallet.getKey block.vSigner.bytes = some sign ∧
      (let kept := { tx with vout := keptOutputs functions firstBlocks tx }
       let signature : BlockSignature := ⟨sign (functions.headerHash
          (signedHeader functions block (before ++ kept :: after))),
        blockSigHashNoSignatureAndNonce, block.vSigner⟩
       signed.vtx = before ++ { kept with vout := kept.vout ++ [signatureOutput signature] } ::
        after) ∧
      signed.toBlockHeader = { block.toBlockHeader with
        hashMerkleRoot := signed.hashMerkleRoot
        nNonce := 0 } ∧ signed.vMerkleTree ≠ [] := by
  unfold createBlockSignature at created
  dsimp only at created
  split at created
  · cases created
  · rename_i hasSigner
    split at created
    · cases created
    · rename_i i found
      obtain ⟨before, tx, after, isVtx, length, isCoinBase, isFirst⟩ :=
        exists_split_of_findIdx? found
      have atIndex : block.vtx[i]? = some tx := by
        rw [isVtx, ← length]
        simp
      rw [atIndex] at created
      dsimp only at created
      rw [if_neg (fun both => by cases both.1)] at created
      unfold hashToSign at created
      dsimp only at created
      have setAt : ∀ other, block.vtx.set i other = before ++ other :: after := by
        intro other
        rw [isVtx, ← length]
        simp
      split at created
      · cases created
      · rename_i sign isKey
        rw [if_pos rfl] at created
        have isSigned := congrArg Prod.snd created
        dsimp only at isSigned
        let kept : FullTransaction := { tx with vout := keptOutputs functions firstBlocks tx }
        have keptVtx : block.vtx.set i kept = before ++ kept :: after := setAt kept
        refine ⟨before, tx, after, sign, ⟨isVtx, isCoinBase, isFirst⟩, hasSigner, isKey, ?_, ?_, ?_⟩
        · rw [← isSigned]
          unfold signedHeader strippedRoot
          dsimp only
          rw [← keptVtx]
          change (block.vtx.set i kept).set i _ = _
          rw [List.set_set, setAt]
          rfl
        · rw [← isSigned]
          rfl
        · rw [← isSigned]
          refine build_ne_nil _ _ ?_
          have notEmpty : (block.vtx.set i kept).set i { kept with vout := kept.vout ++
              [signatureOutput ⟨sign (functions.headerHash (signedHeader functions block
                (block.vtx.set i kept))), blockSigHashNoSignatureAndNonce, block.vSigner⟩] } ≠ [] := by
            rw [List.set_set, setAt]
            simp
          intro isNil
          exact notEmpty (List.map_eq_nil_iff.mp isNil)

end Signing

section Verifying

/-- A template that the verifier reads as the signer does: nothing but zeros follows the
flags in the first input, no output that is kept holds a block signature, and all scripts of
coinbase transactions are read within the rounds. -/
structure SignableTemplate (functions : BlockFunctions) (firstBlocks : Bool) (rounds : Nat)
    (block : FullBlock) : Prop where
  flags : ∃ first rest input inputs, block.vtx = first :: rest ∧ first.vin = input :: inputs ∧
    zeroBehindFlags input.scriptSig = input.scriptSig
  kept : ∀ before tx after, block.CoinbaseAt before tx after →
    ∀ out ∈ keptOutputs functions firstBlocks tx, ∃ elements,
      scriptElements rounds out.scriptPubKey = some elements ∧ firstSignature elements = none
  others : ∀ before tx after, block.CoinbaseAt before tx after →
    ∀ other ∈ after, other.isCoinBase = true → ∀ out ∈ other.vout, ∃ elements,
      scriptElements rounds out.scriptPubKey = some elements

theorem exists_mapM_eq_some {Item Result : Type} (read : Item → Option Result)
    {items : List Item} {isGood : Result → Prop}
    (reads : ∀ item ∈ items, ∃ result, read item = some result ∧ isGood result) :
    ∃ results, items.mapM read = some results ∧ ∀ result ∈ results, isGood result := by
  induction items with
  | nil => exact ⟨[], rfl, by simp⟩
  | cons item items ih =>
      obtain ⟨result, isResult, good⟩ := reads item (List.mem_cons_self ..)
      obtain ⟨results, areResults, allGood⟩ :=
        ih fun other member => reads other (List.mem_cons_of_mem _ member)
      refine ⟨result :: results, ?_, ?_⟩
      · rw [List.mapM_cons, isResult, areResults]
        rfl
      · intro other member
        rcases List.mem_cons.mp member with isFirst | inRest
        · rw [isFirst]
          exact good
        · exact allGood other inRest

theorem scriptElements_signatureOutput (signature : BlockSignature)
    (short : signature.sig.length ≤ 72) (hasKey : signature.key.bytes ≠ []) (more : Nat) :
    ∃ elements, scriptElements (more + 3) (signatureOutput signature).scriptPubKey =
      some elements ∧ firstSignature elements = some signature := by
  obtain ⟨element, isElement, reads, notEmpty, length⟩ :=
    getBlockSignature_setBlockSignature signature short
  refine ⟨[element], ?_, ?_⟩
  · unfold signatureOutput
    dsimp only
    rw [isElement, List.flatMap_singleton]
    exact scriptElements_pushData element notEmpty length more
  · unfold firstSignature
    simp [reads, hasKey]

theorem committedTx_signed (functions : BlockFunctions) {tx : FullTransaction}
    (isCoinBase : tx.isCoinBase = true) (signature : BlockSignature) :
    committedTx functions .noCoinbaseOpReturn
        { tx with vout := tx.vout ++ [signatureOutput signature] } =
      committedTx functions .noCoinbaseOpReturn tx := by
  have isCoinBase' : FullTransaction.isCoinBase
      { tx with vout := tx.vout ++ [signatureOutput signature] } = true := isCoinBase
  have unspendable : functions.isUnspendable (signatureOutput signature).scriptPubKey = true :=
    functions.isUnspendable_opReturn _
  unfold committedTx
  rw [if_pos ⟨rfl, isCoinBase'⟩, if_pos ⟨rfl, isCoinBase⟩]
  simp [unspendable]

/-- `FindSigner` finds the signature behind outputs without one. -/
theorem findSigner_signed {block : FullBlock} {before after : List FullTransaction}
    {tx : FullTransaction} {kept : List CTxOut} {signature : BlockSignature} {more : Nat}
    (place : block.CoinbaseAt before tx after)
    (isVout : tx.vout = kept ++ [signatureOutput signature])
    (short : signature.sig.length ≤ 72) (hasKey : signature.key.bytes ≠ [])
    (unsigned : ∀ out ∈ kept, ∃ elements,
      scriptElements (more + 3) out.scriptPubKey = some elements ∧
        firstSignature elements = none)
    (others : ∀ other ∈ after, other.isCoinBase = true → ∀ out ∈ other.vout, ∃ elements,
      scriptElements (more + 3) out.scriptPubKey = some elements) :
    block.findSigner (more + 3) = some (some signature) := by
  let read (out : CTxOut) := scriptElements (more + 3) out.scriptPubKey
  obtain ⟨keptParsed, keptReads, keptUnsigned⟩ := exists_mapM_eq_some read unsigned
  obtain ⟨own, ownReads, ownSigned⟩ := scriptElements_signatureOutput signature short hasKey more
  have othersRead : ∀ out ∈ (after.filter FullTransaction.isCoinBase).flatMap FullTransaction.vout,
      ∃ elements, read out = some elements ∧ True := by
    intro out member
    obtain ⟨other, isOther, inVout⟩ := List.mem_flatMap.mp member
    obtain ⟨inAfter, isCoinBase⟩ := List.mem_filter.mp isOther
    obtain ⟨elements, reads⟩ := others other inAfter isCoinBase out inVout
    exact ⟨elements, reads, trivial⟩
  obtain ⟨otherParsed, otherReads, -⟩ := exists_mapM_eq_some read othersRead
  have isOutputs : block.coinbaseOutputs = kept ++ signatureOutput signature ::
      (after.filter FullTransaction.isCoinBase).flatMap FullTransaction.vout := by
    have noneBefore : before.filter FullTransaction.isCoinBase = [] :=
      List.filter_eq_nil_iff.mpr fun other member => by simp [place.isFirst other member]
    unfold coinbaseOutputs
    rw [place.vtx, List.filter_append, noneBefore, List.filter_cons_of_pos place.isCoinBase]
    simp [isVout]
  have parsed : block.coinbaseOutputs.mapM read = some (keptParsed ++ own :: otherParsed) := by
    have ownFirst : read (signatureOutput signature) = some own := ownReads
    rw [isOutputs, List.mapM_append, keptReads, List.mapM_cons, ownFirst, otherReads]
    rfl
  have noneKept : keptParsed.findSome? firstSignature = none :=
    List.findSome?_eq_none_iff.mpr keptUnsigned
  unfold findSigner
  change (block.coinbaseOutputs.mapM read >>= fun parsed =>
    pure (parsed.findSome? firstSignature)) = _
  rw [parsed]
  change some ((keptParsed ++ own :: otherParsed).findSome? firstSignature) = _
  rw [List.findSome?_append, noneKept, List.findSome?_cons, ownSigned]
  rfl

theorem hashWithoutSignature_signed {found : FullBlock} {first : FullTransaction}
    {rest : List FullTransaction} {input : FullTxIn} {inputs : List FullTxIn}
    (isVtx : found.vtx = first :: rest) (isVin : first.vin = input :: inputs)
    (zeros : zeroBehindFlags input.scriptSig = input.scriptSig) :
    (found.hashWithoutSignature functions first input inputs rest).1 =
      functions.headerHash (signedHeader functions found found.vtx) := by
  have sameInput : { input with scriptSig := zeroBehindFlags input.scriptSig } = input := by
    rw [zeros]
  have sameFirst : { first with
      vin := { input with scriptSig := zeroBehindFlags input.scriptSig } :: inputs } = first := by
    rw [sameInput, ← isVin]
  unfold hashWithoutSignature signedHeader strippedRoot
  dsimp only
  rw [sameFirst, ← isVtx]
  rfl

theorem verifyBlockSignature_signed {wallet : SigningWallet functions} {firstBlocks : Bool}
    {block signed : FullBlock} {more : Nat}
    (created : block.createBlockSignature functions wallet firstBlocks .noSignatureAndNonce =
      (true, signed))
    (template : SignableTemplate functions firstBlocks (more + 3) block) (nNonce : UInt32) :
    ∃ signature after, signature.key = block.vSigner ∧
      FullBlock.findSigner (more + 3) { signed with nNonce := nNonce } = some (some signature) ∧
      verifyBlockSignature functions (more + 3) true { signed with nNonce := nNonce } =
        some (true, after) ∧ after.vSigner = block.vSigner := by
  obtain ⟨before, tx, after, sign, place, hasKey, isKey, isVtx, isHeader, hasTree⟩ :=
    createBlockSignature_ok created
  dsimp only at isVtx
  set kept : FullTransaction := { tx with vout := keptOutputs functions firstBlocks tx }
    with isKept
  set signature : BlockSignature := ⟨sign (functions.headerHash
    (signedHeader functions block (before ++ kept :: after))), blockSigHashNoSignatureAndNonce,
    block.vSigner⟩ with isSignature
  set final : FullTransaction := { kept with vout := kept.vout ++ [signatureOutput signature] }
    with isFinal
  set found : FullBlock := { signed with nNonce := nNonce } with isFound
  have short : signature.sig.length ≤ 72 := wallet.short isKey _
  have finalPlace : found.CoinbaseAt before final after :=
    ⟨isVtx, place.isCoinBase, place.isFirst⟩
  have signer : found.findSigner (more + 3) = some (some signature) :=
    findSigner_signed finalPlace rfl short hasKey (template.kept before tx after place)
      (template.others before tx after place)
  have firstInput : ∃ first rest input inputs, found.vtx = first :: rest ∧
      first.vin = input :: inputs ∧ zeroBehindFlags input.scriptSig = input.scriptSig := by
    obtain ⟨first, rest, input, inputs, blockVtx, isVin, zeros⟩ := template.flags
    rw [place.vtx] at blockVtx
    cases before with
    | nil =>
        obtain ⟨isFirst, -⟩ := List.cons.inj blockVtx
        refine ⟨final, after, input, inputs, isVtx, ?_, zeros⟩
        rw [← isVin, ← isFirst]
    | cons other before =>
        obtain ⟨isFirst, -⟩ := List.cons.inj blockVtx
        refine ⟨other, _, input, inputs, isVtx, ?_, zeros⟩
        rw [← isVin, ← isFirst]
  obtain ⟨first, rest, input, inputs, foundVtx, isVin, zeros⟩ := firstInput
  have sameHash : functions.headerHash (signedHeader functions found found.vtx) =
      functions.headerHash (signedHeader functions block (before ++ kept :: after)) := by
    have sameRoot : strippedRoot functions found found.vtx =
        strippedRoot functions block (before ++ kept :: after) := by
      refine strippedRoot_congr functions found block ?_
      rw [show found.vtx = before ++ final :: after from isVtx, List.map_append, List.map_append,
        List.map_cons, List.map_cons, isFinal,
        committedTx_signed functions (show kept.isCoinBase = true from place.isCoinBase)]
    unfold signedHeader
    rw [sameRoot]
    have sameOthers : found.toBlockHeader = { block.toBlockHeader with
        hashMerkleRoot := signed.hashMerkleRoot
        nNonce := nNonce } := by
      rw [isFound]
      dsimp only
      rw [isHeader]
    rw [sameOthers]
  let opened : FullBlock := { found with
    nMerkleTreeType := .full
    nSigHashType := .none
    vSigner := signature.key }
  have isHash : (opened.hashWithoutSignature functions first input inputs rest).1 =
      functions.headerHash (signedHeader functions block (before ++ kept :: after)) := by
    rw [← sameHash]
    exact hashWithoutSignature_signed foundVtx isVin zeros
  have keepsSigner : (opened.hashWithoutSignature functions first input inputs rest).2.vSigner =
      block.vSigner := by
    unfold hashWithoutSignature
    dsimp only
    split <;> rfl
  have checks : (opened.hashWithoutSignature functions first input inputs rest).2.checkSignature
      functions signature (opened.hashWithoutSignature functions first input inputs rest).1 =
      (true, (opened.hashWithoutSignature functions first input inputs rest).2) := by
    unfold checkSignature
    rw [keepsSigner, wallet.valid isKey, isHash, wallet.verified isKey]
    rfl
  refine ⟨signature, (opened.hashWithoutSignature functions first input inputs rest).2, rfl,
    signer, ?_, keepsSigner⟩
  unfold verifyBlockSignature
  rw [foundVtx]
  dsimp only
  rw [if_neg (by simp)]
  have sameSigner : FullBlock.findSigner (more + 3)
      { found with nMerkleTreeType := .full, nSigHashType := .none } = some (some signature) :=
    signer
  rw [foundVtx] at sameSigner
  rw [sameSigner]
  dsimp only
  have isType : signature.hashType = blockSigHashNoSignatureAndNonce := rfl
  have notHeader : signature.hashType ≠ blockSigHashHeader := by
    rw [isType]
    decide
  rw [if_neg notHeader, if_pos isType, isVin]
  dsimp only
  rw [← checks]
  simp only [opened, foundVtx]

/-- `VerifyBlockSignature` restores a block, forced or not. -/
theorem verifyBlockSignature_restores {block after : FullBlock} {rounds : Nat}
    {force passes : Bool}
    (verified : block.verifyBlockSignature functions rounds force = some (passes, after)) :
    Restored functions block after := by
  by_cases asked : (!force) = true ∧ block.nMerkleTreeType ≠ .unknown
  · unfold verifyBlockSignature at verified
    split at verified
    · cases verified
    · rw [if_pos asked] at verified
      cases verified
      exact .refl block
  · exact (verifyBlockSignature_forced asked verified).2.1

/-- A template that was signed without signature and nonce passes with every nonce, and its
signer is found; the verification of any block restores it. -/
theorem signer_and_verifier_agree (functions : BlockFunctions) :
    (∀ (wallet : SigningWallet functions) firstBlocks (block signed : FullBlock) more,
      block.createBlockSignature functions wallet firstBlocks .noSignatureAndNonce =
        (true, signed) →
      SignableTemplate functions firstBlocks (more + 3) block → ∀ nNonce : UInt32,
        ∃ signature after, signature.key = block.vSigner ∧
          FullBlock.findSigner (more + 3) { signed with nNonce := nNonce } =
            some (some signature) ∧
          verifyBlockSignature functions (more + 3) true { signed with nNonce := nNonce } =
            some (true, after) ∧ after.vSigner = block.vSigner) ∧
    ∀ (block after : FullBlock) rounds force passes,
      block.verifyBlockSignature functions rounds force = some (passes, after) →
        Restored functions block after :=
  ⟨fun _ _ _ _ _ created template nNonce => verifyBlockSignature_signed created template nNonce,
    fun _ _ _ _ _ verified => verifyBlockSignature_restores verified⟩

end Verifying

section Sample

/-- Hashes that add up bytes, and signatures of one byte. -/
def addingFunctions : BlockFunctions :=
  { countingFunctions with
    txHash := fun tx => BitVec.ofNat 256 (1000 * tx.vout.length +
      (tx.vin.map fun input => (input.scriptSig.map UInt8.toNat).sum).sum)
    headerHash := fun header => header.hashMerkleRoot + 7 * BitVec.ofNat 256 header.nNonce.toNat
    verifies := fun _ hash sig => decide (sig = [UInt8.ofNat hash.toNat]) }

/-- A wallet with the key of one miner. -/
def minerWallet : SigningWallet addingFunctions where
  getKey key := if key = [2] then some fun hash => [UInt8.ofNat hash.toNat] else none
  valid {key sign} found := by
    split at found
    · rename_i isKey
      exact decide_eq_true isKey
    · cases found
  verified {key sign} found hash := by
    split at found
    · cases found
      exact decide_eq_true rfl
    · cases found
  short {key sign} found hash := by
    split at found
    · cases found
      exact Nat.le_of_ble_eq_true rfl
    · cases found

/-- A template of the miner with a coinbase transaction only. -/
def minerTemplate (scriptSig : Bytes) (outputs : List CTxOut) : FullBlock :=
  { rewardBlock outputs with
    vtx := [⟨1, [⟨⟨⟨0, 2 ^ 32 - 1⟩, scriptSig⟩, 0⟩], ⟨50, []⟩ :: outputs, 0⟩]
    vSigner := headerSignature.key }

/-- The flags at the end of the input, as the internal miner writes them. -/
def plainTemplate : FullBlock := minerTemplate (1 :: p2shFlags) []

theorem signableTemplate_plain : SignableTemplate addingFunctions false 9 plainTemplate := by
  have onlyOne : ∀ before tx after, plainTemplate.CoinbaseAt before tx after →
      keptOutputs addingFunctions false tx = [⟨50, []⟩] ∧ after = [] := by
    intro before tx after place
    have isVtx := place.vtx
    cases before with
    | nil =>
        obtain ⟨isTx, isAfter⟩ := List.cons.inj isVtx
        rw [← isTx, ← isAfter]
        exact ⟨by decide +kernel, rfl⟩
    | cons other before =>
        have tooMany := congrArg List.length isVtx
        simp [plainTemplate, minerTemplate] at tooMany
  refine ⟨⟨_, _, _, _, rfl, rfl, by decide +kernel⟩, ?_, ?_⟩
  · intro before tx after place out member
    rw [(onlyOne before tx after place).1] at member
    rw [List.mem_singleton.mp member]
    exact ⟨[], by decide +kernel, by decide +kernel⟩
  · intro before tx after place other member
    rw [(onlyOne before tx after place).2] at member
    cases member

/-- The plain template passes with the nonce 77. -/
theorem plainTemplate_agrees :
    ∃ signature after, signature.key = plainTemplate.vSigner ∧
      FullBlock.findSigner 9 { (plainTemplate.createBlockSignature addingFunctions minerWallet
        false .noSignatureAndNonce).2 with nNonce := 77 } = some (some signature) ∧
      verifyBlockSignature addingFunctions 9 true { (plainTemplate.createBlockSignature
        addingFunctions minerWallet false .noSignatureAndNonce).2 with nNonce := 77 } =
        some (true, after) ∧ after.vSigner = plainTemplate.vSigner :=
  (signer_and_verifier_agree addingFunctions).1 minerWallet false plainTemplate _ 6
    (Prod.ext (by decide +kernel) rfl) signableTemplate_plain 77

/-- A byte behind the flags. -/
def trailingTemplate : FullBlock := minerTemplate (1 :: p2shFlags ++ [9]) []

/-- An output with a value and the signature of another key in front of an OP_RETURN. -/
def countersignedTemplate : FullBlock := minerTemplate (1 :: p2shFlags)
  [{ signatureOutput ⟨[0], blockSigHashNoSignatureAndNonce, ⟨[3], by decide⟩⟩ with nValue := 10 },
    ⟨0, [UInt8.ofNat mcDctScriptOpReturn]⟩]

/-- Two signed templates fail the verification, for another hash and for another signer, and
an empty Merkle tree does not stay empty. -/
theorem templates_not_agree :
    ((trailingTemplate.createBlockSignature addingFunctions minerWallet false
        .noSignatureAndNonce).1 = true ∧
      (verifyBlockSignature addingFunctions 9 true (trailingTemplate.createBlockSignature
        addingFunctions minerWallet false .noSignatureAndNonce).2).map Prod.fst = some false) ∧
    ((countersignedTemplate.createBlockSignature addingFunctions minerWallet false
        .noSignatureAndNonce).1 = true ∧
      ((FullBlock.findSigner 9 (countersignedTemplate.createBlockSignature addingFunctions
        minerWallet false .noSignatureAndNonce).2).map fun found =>
          found.map fun signature => signature.key.bytes) = some (some [3])) ∧
    ∃ block : FullBlock, block.vMerkleTree = [] ∧
      ((verifyBlockSignature addingFunctions 9 true block).map fun verified =>
        verified.2.vMerkleTree) ≠ some [] := by
  refine ⟨⟨by decide +kernel, by decide +kernel⟩, ⟨by decide +kernel, by decide +kernel⟩,
    { (plainTemplate.createBlockSignature addingFunctions minerWallet false
      .noSignatureAndNonce).2 with vMerkleTree := [] }, rfl, by decide +kernel⟩

end Sample

end FullBlock

end HdacNode
