import HdacNode.AcceptTransaction
import HdacNode.DetailsCodec
import HdacNode.PayloadScripts

/-!
# The payload of a metadata output

`AcceptAssetGenesisFromPredefinedIssuers` looks for the update of an entity in the second
element of an OP_RETURN output, without counting the elements.  Behind fewer than two
elements that drop data this one is the payload of the output.
-/

namespace HdacNode

open FailingActions Accept

/-- The reader leaves the elements and flags of a script that `SetScript` parses to the
end. -/
def ScriptReader.Parses (reader : ScriptReader) : Prop :=
  ∀ script parsed, ScriptParser.setScript script .scriptPubKey (script.length + 1) =
    some (.ok parsed) → reader.setScript script = parsed

namespace Script

variable {front : List Bytes} {i scriptType : Nat}

theorem elementAt_front (inFront : i < front.length) (payload payload' : Bytes) :
    (Script.mk (front ++ [payload]) scriptType).elementAt i =
      (Script.mk (front ++ [payload']) scriptType).elementAt i := by
  simp [elementAt, List.getElem?_append_left inFront, List.getElem?_eq_getElem inFront]

/-- `SetElement` leaves the payload the current element when the number is too large. -/
theorem elementAt_payload (behind : front.length ≤ i) (payload : Bytes) :
    (Script.mk (front ++ [payload]) scriptType).elementAt i = payload := by
  unfold elementAt
  dsimp only
  rw [List.getElem?_append_right behind, List.getLast?_concat]
  cases i - front.length with
  | zero => rfl
  | succ _ => rfl

theorem getNumElements_payload (payload : Bytes) :
    (Script.mk (front ++ [payload]) scriptType).getNumElements = front.length + 1 := by
  simp [getNumElements]

end Script

/-- Two OP_RETURN outputs that differ in the bytes of their payloads. -/
structure PayloadPair where
  first : CTxOut
  second : CTxOut
  front : List Bytes
  scriptType : Nat
  payload : Bytes
  payload' : Bytes
  sameValue : first.nValue = second.nValue
  isOpReturn : (Script.mk (front ++ [payload]) scriptType).isOpReturnScript = true
  sameSize : payload.length = payload'.length
  parsedFirst : ScriptParser.setScript first.scriptPubKey .scriptPubKey
    (first.scriptPubKey.length + 1) = some (.ok ⟨front ++ [payload], scriptType⟩)
  parsedSecond : ScriptParser.setScript second.scriptPubKey .scriptPubKey
    (second.scriptPubKey.length + 1) = some (.ok ⟨front ++ [payload'], scriptType⟩)

namespace AcceptCall

/-- The call with other outputs in the transaction, under the same transaction id. -/
def withOutputs (call : AcceptCall) (outputs : List CTxOut) : AcceptCall :=
  { call with tx := { call.tx with vout := outputs } }

variable {call : AcceptCall} {outputs others : List CTxOut}

theorem acceptAssetGenesis_congr (accept : Bool)
    (sameScan : outputs.foldlM call.scanOutput scanIssueStart =
      others.foldlM call.scanOutput scanIssueStart) :
    (call.withOutputs outputs).acceptAssetGenesis accept =
      (call.withOutputs others).acceptAssetGenesis accept := by
  have sameIssue : (call.withOutputs outputs).findIssue = (call.withOutputs others).findIssue := by
    change outputs.foldlM call.scanOutput scanIssueStart >>= _ =
      others.foldlM call.scanOutput scanIssueStart >>= _
    rw [sameScan]
    rfl
  unfold acceptAssetGenesis
  rw [sameIssue]
  rfl

theorem foldlM_scanOutput_congr (before after : List CTxOut) {out other : CTxOut}
    (alike : ∀ scan, call.scanOutput scan out = call.scanOutput scan other)
    (scan : IssueScan) :
    (before ++ out :: after).foldlM call.scanOutput scan =
      (before ++ other :: after).foldlM call.scanOutput scan := by
  rw [List.foldlM_append, List.foldlM_append]
  congr 1
  funext reached
  rw [List.foldlM_cons, List.foldlM_cons, alike]

end AcceptCall

namespace PayloadPair

variable (pair : PayloadPair)

/-- Neither payload reads as the record of a new entity or of an update. -/
def Unread : Prop :=
  newEntityElement pair.payload = none ∧ newEntityElement pair.payload' = none

/-- Whatever the rest of the transaction and the state of the node are,
`AcceptAssetGenesisFromPredefinedIssuers` reaches the same verdict and the same state. -/
def SameRuns : Prop :=
  ∀ call : AcceptCall, call.env.reader.Parses → ∀ before after accept,
    (call.withOutputs (before ++ pair.first :: after)).acceptAssetGenesis accept =
      (call.withOutputs (before ++ pair.second :: after)).acceptAssetGenesis accept

variable {pair}

theorem scanOutput_eq {call : AcceptCall} (parses : call.env.reader.Parses)
    (hidden : 2 ≤ pair.front.length ∨ pair.Unread) (scan : IssueScan) :
    call.scanOutput scan pair.first = call.scanOutput scan pair.second := by
  have update (scan : IssueScan) :
      AcceptCall.scanUpdate scan ⟨pair.front ++ [pair.payload], pair.scriptType⟩ =
        AcceptCall.scanUpdate scan ⟨pair.front ++ [pair.payload'], pair.scriptType⟩ := by
    rcases hidden with enough | ⟨unread, unread'⟩
    · unfold AcceptCall.scanUpdate
      rw [Script.elementAt_front (i := 1) enough pair.payload pair.payload',
        Script.elementAt_front (i := 0) (by omega) pair.payload pair.payload']
    · rcases Nat.lt_or_ge 1 pair.front.length with inFront | behind
      · unfold AcceptCall.scanUpdate
        rw [Script.elementAt_front (i := 1) inFront pair.payload pair.payload',
          Script.elementAt_front (i := 0) (by omega) pair.payload pair.payload']
      · unfold AcceptCall.scanUpdate
        rw [Script.elementAt_payload behind, Script.elementAt_payload behind, unread, unread']
  have second : (Script.mk (pair.front ++ [pair.payload']) pair.scriptType).isOpReturnScript =
      true := pair.isOpReturn
  unfold AcceptCall.scanOutput
  rw [parses _ _ pair.parsedFirst, parses _ _ pair.parsedSecond]
  dsimp only
  rw [if_pos pair.isOpReturn, if_pos second, Script.getNumElements_payload,
    Script.getNumElements_payload]
  by_cases two : pair.front.length + 1 = 2
  · rw [if_pos two, if_pos two,
      Script.elementAt_front (i := 0) (by omega) pair.payload pair.payload']
    congr 1
    funext reached
    rw [update]
  · rw [if_neg two, if_neg two]
    congr 1
    funext reached
    rw [update]

theorem sameRuns_of_hidden (hidden : 2 ≤ pair.front.length ∨ pair.Unread) : pair.SameRuns :=
  fun _ parses before after accept =>
    AcceptCall.acceptAssetGenesis_congr accept
      (AcceptCall.foldlM_scanOutput_congr before after (scanOutput_eq parses hidden) _)

end PayloadPair

section Records

/-- A payload that reads as the record of a new asset. -/
def recordPayload (details : Bytes) : Bytes :=
  mcDctScriptMultichainIdentifier ++
    [mcDctScriptMultichainNewEntityPrefix, UInt8.ofNat mcEntTypeAsset] ++ details

/-- The number of bytes of a record in front of its details. -/
def recordHeadSize : Nat := mcDctScriptIdentifierLen + 1 + 1

/-- A payload of zeros. -/
def zeroPayload (size : Nat) : Bytes := List.replicate size 0

theorem length_recordPayload (details : Bytes) :
    (recordPayload details).length = recordHeadSize + details.length := by
  simp [recordPayload, recordHeadSize, mcDctScriptMultichainIdentifier, mcDctScriptIdentifierLen]
  omega

theorem recordPayload_ne_nil (details : Bytes) : recordPayload details ≠ [] :=
  List.cons_ne_nil _ _

theorem newEntityElement_record {details : Bytes} (short : details.length ≤ mcEntMaxScriptSize) :
    newEntityElement (recordPayload details) = some ⟨mcEntTypeAsset, false, details⟩ := by
  have length := length_recordPayload details
  have sizeFits : decide (mcDctScriptIdentifierLen + 1 + 1 ≤ (recordPayload details).length ∧
      (recordPayload details).length ≤ mcDctScriptIdentifierLen + 1 + 1 + mcEntMaxScriptSize) =
      true := by
    rw [length]
    exact decide_eq_true ⟨Nat.le_add_right _ _, Nat.add_le_add_left short _⟩
  have created : elementBody (recordPayload details) mcDctScriptMultichainNewEntityPrefix =
      some (UInt8.ofNat mcEntTypeAsset :: details) := by
    unfold elementBody
    rw [if_neg (by rw [length, recordHeadSize]; omega), if_neg (by simp [recordPayload]; rfl), if_neg]
    · rfl
    · exact fun other => other rfl
  unfold newEntityElement
  dsimp only
  rw [sizeFits, created]
  rfl

theorem newEntityElement_zeros (size : Nat) : newEntityElement (zeroPayload size) = none := by
  have noBody (kind : UInt8) : elementBody (zeroPayload size) kind = none := by
    unfold elementBody
    by_cases short : (zeroPayload size).length < mcDctScriptIdentifierLen + 1
    · rw [if_pos short]
    · have others : (zeroPayload size).take mcDctScriptIdentifierLen ≠
          mcDctScriptMultichainIdentifier := by
        have bound : mcDctScriptIdentifierLen ≤ size := by
          simp only [zeroPayload, List.length_replicate] at short
          omega
        rw [zeroPayload, List.take_replicate, Nat.min_eq_left bound]
        decide
      rw [if_neg short, if_pos others]
  unfold newEntityElement
  dsimp only
  rw [noBody, noBody]
  split
  · rename_i found
    cases found
  · rfl

theorem newEntityElement_of_size {element : Bytes}
    (outside : element.length < recordHeadSize ∨
      recordHeadSize + mcEntMaxScriptSize < element.length) :
    newEntityElement element = none := by
  have sizeFits : decide (mcDctScriptIdentifierLen + 1 + 1 ≤ element.length ∧
      element.length ≤ mcDctScriptIdentifierLen + 1 + 1 + mcEntMaxScriptSize) = false := by
    apply decide_eq_false
    rintro ⟨atLeast, atMost⟩
    rw [recordHeadSize] at outside
    omega
  unfold newEntityElement
  dsimp only
  rw [sizeFits]

/-- Details of a size: a parameter without a value whose name takes up the size, or bytes
that are too few for a parameter. -/
def filledDetails (size : Nat) : Bytes :=
  if size < 3 then List.replicate size 1
  else detailsScript [.named (List.replicate (size - 2) 1) []]

theorem length_filledDetails (size : Nat) : (filledDetails size).length = size := by
  unfold filledDetails
  split_ifs with few
  · exact List.length_replicate
  · simp [detailsScript, ParamCall.bytes, paramValue, putVarInt, length_putLE]
    omega

/-- A record of details that are not too long fits into a push with a size of two bytes. -/
theorem length_recordPayload_lt {size : Nat} (short : size ≤ mcEntMaxScriptSize) :
    (recordPayload (filledDetails size)).length < 2 ^ 16 := by
  rw [length_recordPayload, length_filledDetails]
  exact Nat.lt_of_le_of_lt (Nat.add_le_add_left short _) (by decide)

theorem verify_filledDetails {size : Nat} (formed : size = 0 ∨ 3 ≤ size) :
    DetailsScript.verify (filledDetails size) = true := by
  rcases formed with rfl | enough
  · rfl
  · have readable : ∀ call ∈ [ParamCall.named (List.replicate (size - 2) 1) []],
        call.Readable := by
      simp [ParamCall.Readable]
      omega
    have fits : ∀ call ∈ [ParamCall.named (List.replicate (size - 2) 1) []],
        call.value.length < 2 ^ 31 := by
      simp [ParamCall.value]
    unfold filledDetails
    rw [if_neg (by omega)]
    exact DetailsScript.verifyFrom_detailsScript [] readable fits

end Records

namespace PayloadPair

section Telling

theorem isOpReturn_payloadElements (dropped : Bool) (payload : Bytes) :
    (payloadElements dropped payload).isOpReturnScript = true := by
  cases dropped <;>
    simp [Script.isOpReturnScript, payloadElements, mcDctScriptTypeOpReturn, mcDctScriptTypeOpDrop]

/-- Two outputs with payloads of a size, behind a byte that is dropped or not. -/
def ofPayloads (dropped : Bool) (payload payload' : Bytes) (notEmpty : payload ≠ [])
    (sameSize : payload.length = payload'.length) (fits : payload.length < 2 ^ 16) :
    PayloadPair where
  first := ⟨0, payloadScript dropped payload⟩
  second := ⟨0, payloadScript dropped payload'⟩
  front := if dropped then [[0]] else []
  scriptType := (payloadElements dropped payload).scriptType
  payload := payload
  payload' := payload'
  sameValue := rfl
  isOpReturn := isOpReturn_payloadElements dropped payload
  sameSize := sameSize
  parsedFirst := ScriptParser.setScript_payloadScript dropped notEmpty fits
  parsedSecond := by
    have notEmpty' : payload' ≠ [] := by
      rintro rfl
      exact notEmpty (List.eq_nil_of_length_eq_zero sameSize)
    exact ScriptParser.setScript_payloadScript dropped notEmpty' (sameSize ▸ fits)

/-- A payload that reads as a record, and zeros. -/
def recordAndZeros (dropped : Bool) {size : Nat} (short : size ≤ mcEntMaxScriptSize) :
    PayloadPair :=
  ofPayloads dropped (recordPayload (filledDetails size)) (zeroPayload (recordHeadSize + size))
    (recordPayload_ne_nil _)
    (by rw [length_recordPayload, length_filledDetails, zeroPayload, List.length_replicate])
    (length_recordPayload_lt short)

variable {call : AcceptCall} {dropped : Bool} {size : Nat}
  {short : size ≤ mcEntMaxScriptSize}

/-- Behind a byte that is dropped, or behind nothing, the payload is taken for the update of
an entity. -/
theorem scanOutput_payloadScript {payload : Bytes} (parses : call.env.reader.Parses)
    (notEmpty : payload ≠ []) (fits : payload.length < 2 ^ 16) (scan : IssueScan) :
    call.scanOutput scan ⟨0, payloadScript dropped payload⟩ =
      AcceptCall.scanUpdate scan (payloadElements dropped payload) := by
  have parsed := parses _ _ (ScriptParser.setScript_payloadScript dropped notEmpty fits)
  unfold AcceptCall.scanOutput
  dsimp only
  rw [parsed, if_pos (isOpReturn_payloadElements dropped payload)]
  cases dropped <;> rfl

theorem elementAt_payloadElements (dropped : Bool) (payload : Bytes) :
    (payloadElements dropped payload).elementAt 1 = payload := by
  cases dropped <;> rfl

/-- The loop over the outputs refuses the payload that reads as a record. -/
theorem scanOutput_record (parses : call.env.reader.Parses) (formed : size = 0 ∨ 3 ≤ size)
    (scan : IssueScan) :
    call.scanOutput scan (recordAndZeros dropped short).first =
      reject "Metadata script rejected - wrong element, should be entity update" := by
  have read : newEntityElement (recordPayload (filledDetails size)) =
      some ⟨mcEntTypeAsset, false, filledDetails size⟩ :=
    newEntityElement_record (by rwa [length_filledDetails])
  have scanned := @scanOutput_payloadScript call dropped _ parses
    (recordPayload_ne_nil (filledDetails size)) (length_recordPayload_lt short) scan
  refine scanned.trans ?_
  unfold AcceptCall.scanUpdate
  rw [elementAt_payloadElements, read]
  dsimp only
  rw [if_pos (verify_filledDetails formed)]
  rfl

/-- It passes over zeros. -/
theorem scanOutput_zeros (parses : call.env.reader.Parses) (scan : IssueScan) :
    call.scanOutput scan (recordAndZeros dropped short).second = pure scan := by
  have fits : (zeroPayload (recordHeadSize + size)).length < 2 ^ 16 := by
    rw [zeroPayload, List.length_replicate]
    exact Nat.lt_of_le_of_lt (Nat.add_le_add_left short _) (by decide)
  have notEmpty : zeroPayload (recordHeadSize + size) ≠ [] := by
    simp [zeroPayload, recordHeadSize]
  have scanned := @scanOutput_payloadScript call dropped _ parses notEmpty fits scan
  refine scanned.trans ?_
  unfold AcceptCall.scanUpdate
  rw [elementAt_payloadElements, newEntityElement_zeros]

/-- An output that the loop refuses. -/
theorem acceptAssetGenesis_refused {out : CTxOut} {text : String}
    (spends : call.tx.isCoinBase = false)
    (refused : ∀ scan, call.scanOutput scan out = reject text) (accept : Bool) :
    (call.withOutputs [out]).acceptAssetGenesis accept = reject text := by
  have notCoinBase : (call.withOutputs [out]).tx.isCoinBase = false := spends
  have scanned : [out].foldlM call.scanOutput AcceptCall.scanIssueStart = reject text := by
    rw [List.foldlM_cons, refused]
    rfl
  have issue : (call.withOutputs [out]).findIssue = reject text := by
    change [out].foldlM call.scanOutput AcceptCall.scanIssueStart >>= _ = _
    rw [scanned]
    rfl
  unfold AcceptCall.acceptAssetGenesis
  rw [notCoinBase, if_neg Bool.false_ne_true, issue]
  rfl

/-- An output that the loop passes over. -/
theorem acceptAssetGenesis_passed {out : CTxOut} (spends : call.tx.isCoinBase = false)
    (passed : ∀ scan, call.scanOutput scan out = pure scan) (accept : Bool) :
    (call.withOutputs [out]).acceptAssetGenesis accept = pure () := by
  have notCoinBase : (call.withOutputs [out]).tx.isCoinBase = false := spends
  have scanned : [out].foldlM call.scanOutput AcceptCall.scanIssueStart =
      pure AcceptCall.scanIssueStart := by
    rw [List.foldlM_cons, passed]
    rfl
  have issue : (call.withOutputs [out]).findIssue = pure none := by
    change [out].foldlM call.scanOutput AcceptCall.scanIssueStart >>= _ = _
    rw [scanned]
    rfl
  unfold AcceptCall.acceptAssetGenesis
  rw [notCoinBase, if_neg Bool.false_ne_true, issue]
  rfl

/-- A call for a transaction that spends a coin, on a network where everyone may issue. -/
def spendingCall : AcceptCall where
  env := replayEnv
  tx := ⟨9, 1, [⟨⟨5, 0⟩, []⟩], []⟩
  offset := -1
  scan := ⟨[⟨.pubKeyHash, 7, sigHashAll⟩], false, false, .initABufferMap⟩
  checksCachedScript := false

theorem parses_keyHashReader : keyHashReader.Parses := by
  intro script parsed read
  unfold keyHashReader
  dsimp only
  rw [read]

theorem not_sameRuns_of_formed (formed : size = 0 ∨ 3 ≤ size) :
    ¬ (recordAndZeros dropped short).SameRuns := by
  intro same
  have parses : spendingCall.env.reader.Parses := parses_keyHashReader
  have spends : spendingCall.tx.isCoinBase = false := rfl
  have runs := same spendingCall parses [] [] true
  rw [List.nil_append, List.nil_append,
    acceptAssetGenesis_refused spends (scanOutput_record parses formed) true,
    acceptAssetGenesis_passed spends (scanOutput_zeros parses) true] at runs
  cases congrFun runs (spendingCall.startState firstBlockState)

/-- The scripts of the entities that a call has entered into the memory pool. -/
def enteredScripts (outputs : List CTxOut) : List Bytes :=
  (stateAfter ((spendingCall.withOutputs outputs).acceptAssetGenesis true
    (spendingCall.startState firstBlockState))).assets.memPool.rows.map EntityRow.script

/-- The issue of a hundred units of an asset. -/
def genesisOutput : CTxOut := ⟨0, keyHashScript 7 [genesisElement]⟩

set_option maxRecDepth 10000 in
theorem enteredScripts_differ : ∀ dropped,
    enteredScripts [genesisOutput, ⟨0, payloadScript dropped (recordPayload (filledDetails 1))⟩] ≠
      enteredScripts [genesisOutput, ⟨0, payloadScript dropped (zeroPayload 6)⟩] ∧
    enteredScripts [genesisOutput, ⟨0, payloadScript dropped (recordPayload (filledDetails 2))⟩] ≠
      enteredScripts [genesisOutput, ⟨0, payloadScript dropped (zeroPayload 7)⟩] := by
  decide +kernel

/-- Details too short for a parameter are stored with an asset that is issued in the same
transaction. -/
theorem not_sameRuns_of_unformed (unformed : size = 1 ∨ size = 2) :
    ¬ (recordAndZeros dropped short).SameRuns := by
  intro same
  have parses : spendingCall.env.reader.Parses := parses_keyHashReader
  have runs := same spendingCall parses [genesisOutput] [] true
  have entered := congrArg (fun run => (stateAfter (run (spendingCall.startState
    firstBlockState))).assets.memPool.rows.map EntityRow.script) runs
  obtain ⟨one, two⟩ := enteredScripts_differ dropped
  rcases unformed with rfl | rfl
  · exact one entered
  · exact two entered

/-- A size that has room for a record tells two payloads apart. -/
theorem not_sameRuns_recordAndZeros : ¬ (recordAndZeros dropped short).SameRuns := by
  by_cases formed : size = 0 ∨ 3 ≤ size
  · exact not_sameRuns_of_formed formed
  · exact not_sameRuns_of_unformed (by omega)

end Telling

section Opaque

variable {pair : PayloadPair}

theorem unread_of_size (outside : pair.payload.length < recordHeadSize ∨
    recordHeadSize + mcEntMaxScriptSize < pair.payload.length) : pair.Unread := by
  constructor
  · exact newEntityElement_of_size outside
  · rw [pair.sameSize] at outside
    exact newEntityElement_of_size outside

/-- A pair whose outputs have as many elements, and payloads of the same size. -/
def SameShape (pair other : PayloadPair) : Prop :=
  other.front.length = pair.front.length ∧ other.payload.length = pair.payload.length

/-- The outputs have two elements in front of the payload, or payloads of a size that no
record has. -/
def NoRecordFits (pair : PayloadPair) : Prop :=
  2 ≤ pair.front.length ∨ pair.payload.length < recordHeadSize ∨
    recordHeadSize + mcEntMaxScriptSize < pair.payload.length

theorem exists_told_of_recordFits (fits : ¬ pair.NoRecordFits) :
    ∃ other, pair.SameShape other ∧ ¬ other.SameRuns := by
  unfold NoRecordFits at fits
  push Not at fits
  obtain ⟨few, enough, short⟩ := fits
  have inRange : pair.payload.length - recordHeadSize ≤ mcEntMaxScriptSize := by omega
  refine ⟨recordAndZeros (decide (pair.front.length = 1)) inRange, ⟨?_, ?_⟩,
    not_sameRuns_recordAndZeros⟩
  · change (if decide (pair.front.length = 1) then [[0]] else [] : List Bytes).length = _
    by_cases one : pair.front.length = 1
    · simp [one]
    · simp [one]
      omega
  · change (recordPayload (filledDetails (pair.payload.length - recordHeadSize))).length = _
    rw [length_recordPayload, length_filledDetails]
    omega

/-- The payload of an OP_RETURN output is opaque behind two elements that drop data, and
where no payload reads as a record.  All payloads of an output of this shape are opaque if and
only if no record fits there. -/
theorem payloads_opaque_iff (pair : PayloadPair) :
    (2 ≤ pair.front.length ∨ pair.Unread → pair.SameRuns) ∧
      ((∀ other, pair.SameShape other → other.SameRuns) ↔ pair.NoRecordFits) := by
  refine ⟨sameRuns_of_hidden, fun opaqueShape => ?_, ?_⟩
  · by_contra fits
    obtain ⟨other, sameShape, told⟩ := exists_told_of_recordFits fits
    exact told (opaqueShape other sameShape)
  · rintro (enough | outside) other ⟨sameFront, sameSize⟩
    · exact sameRuns_of_hidden (.inl (sameFront.symm ▸ enough))
    · exact sameRuns_of_hidden (.inr (unread_of_size (sameSize.symm ▸ outside)))

/-- Two letters in the payload of an output without other elements. -/
def letters : PayloadPair :=
  ofPayloads false [0x61, 0x62] [0x63, 0x64] (List.cons_ne_nil _ _) rfl (by decide)

theorem payloads_opaque_letters : letters.SameRuns :=
  (payloads_opaque_iff letters).1 (.inr ⟨rfl, rfl⟩)

/-- Five letters that read as the record of a new asset without details, and five zeros. -/
def bareRecord : PayloadPair := @recordAndZeros false 0 (Nat.zero_le _)

/-- The one transaction is refused for its payload, the other one is accepted. -/
theorem bareRecord_told_from_zeros :
    (spendingCall.withOutputs [bareRecord.first]).acceptAssetGenesis true =
        reject "Metadata script rejected - wrong element, should be entity update" ∧
      (spendingCall.withOutputs [bareRecord.second]).acceptAssetGenesis true = pure () ∧
      ¬ bareRecord.SameRuns :=
  ⟨acceptAssetGenesis_refused rfl (scanOutput_record parses_keyHashReader (.inl rfl)) true,
    acceptAssetGenesis_passed rfl (scanOutput_zeros parses_keyHashReader) true,
    not_sameRuns_recordAndZeros⟩

end Opaque

end PayloadPair

end HdacNode
