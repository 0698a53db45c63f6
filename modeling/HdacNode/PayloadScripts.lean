import HdacNode.SignedTemplates

/-!
# Scripts with a payload

A payload is the element behind the OP_RETURN of a script.  Here it is pushed with its
size in two bytes, behind one element in front of an OP_DROP or behind none.
-/

namespace HdacNode

open AdvancingLoop

/-- An OP_RETURN, and a push of a payload with its size in two bytes. -/
def payloadPush (payload : Bytes) : Bytes :=
  [UInt8.ofNat mcDctScriptOpReturn, UInt8.ofNat mcDctScriptOpPushData2] ++
    putLE payload.length 2 ++ payload

/-- The part in front of the OP_RETURN: a byte that is dropped, or nothing. -/
def droppedPush (dropped : Bool) : Bytes :=
  if dropped then [1, 0, UInt8.ofNat mcDctScriptOpDrop] else []

/-- A script with a payload, behind a byte that is dropped or not. -/
def payloadScript (dropped : Bool) (payload : Bytes) : Bytes :=
  droppedPush dropped ++ payloadPush payload

/-- The elements of such a script and its flags. -/
def payloadElements (dropped : Bool) (payload : Bytes) : Script where
  elements := (if dropped then [[0]] else []) ++ [payload]
  scriptType := if dropped then mcDctScriptTypeOpDrop ||| mcDctScriptTypeOpReturn
    else mcDctScriptTypeOpReturn

namespace ScriptParser

variable {front payload : Bytes} {st : ScanState}

theorem length_payloadPush (payload : Bytes) :
    (payloadPush payload).length = 4 + payload.length := by
  simp [payloadPush, length_putLE]
  omega

theorem byteAt_length (front rest : Bytes) (byte : UInt8) :
    byteAt (front ++ byte :: rest) front.length = some byte := by
  unfold byteAt
  rw [if_neg (by omega)]
  simp

theorem scanStep_opReturn (atPush : st.ptr = front.length) (outside : st.isOpReturn = false)
    (noData : st.lastSize = -1) :
    scanStep (front ++ payloadPush payload) .scriptPubKey st =
      .next ⟨front.length + 1, front.length + 1, 0, true,
        st.script.setType mcDctScriptTypeOpReturn⟩ := by
  have inside : st.ptr < (front ++ payloadPush payload).length := by
    rw [List.length_append, length_payloadPush]
    omega
  have opcode : byteAt (front ++ payloadPush payload) st.ptr =
      some (UInt8.ofNat mcDctScriptOpReturn) := by
    rw [atPush]
    exact byteAt_length front _ _
  have isReturn : (UInt8.ofNat mcDctScriptOpReturn).toNat = mcDctScriptOpReturn := rfl
  unfold scanStep
  rw [if_pos inside, opcode]
  dsimp only
  rw [isReturn]
  unfold readPush
  rw [if_neg (by decide)]
  dsimp only
  rw [if_pos ⟨rfl, by rw [outside]; decide⟩]
  unfold takeOpcode
  rw [if_pos rfl, noData, atPush]
  simp [advance, Script.setTypeIf]

theorem scanStep_payload (atPush : st.ptr = front.length + 1) (behind : st.isOpReturn = true)
    (notEmpty : payload ≠ []) (fits : payload.length < 2 ^ 16) :
    scanStep (front ++ payloadPush payload) .scriptPubKey st =
      .next ⟨(front ++ payloadPush payload).length + payload.length,
        (front ++ payloadPush payload).length, payload.length, false,
        st.script.addElement payload⟩ := by
  have positive : 0 < payload.length := List.length_pos_of_ne_nil notEmpty
  have small : payload.length < 2 ^ 31 := Nat.lt_trans fits (by decide)
  have length : (front ++ payloadPush payload).length = front.length + 4 + payload.length := by
    rw [List.length_append, length_payloadPush]
    omega
  set script := front ++ payloadPush payload with isScript
  set head := front ++ [UInt8.ofNat mcDctScriptOpReturn] with isHead
  have headLength : head.length = front.length + 1 := by simp [isHead]
  have split : script = head ++ UInt8.ofNat mcDctScriptOpPushData2 ::
      (putLE payload.length 2 ++ payload) := by
    simp [isScript, isHead, payloadPush]
  have opcode : byteAt script st.ptr = some (UInt8.ofNat mcDctScriptOpPushData2) := by
    have place : st.ptr = head.length := by omega
    rw [place, split]
    exact byteAt_length head _ _
  have isPush : (UInt8.ofNat mcDctScriptOpPushData2).toNat = mcDctScriptOpPushData2 := rfl
  have reads : readPush script mcDctScriptOpPushData2 (st.ptr + 1) =
      .ok (payload.length, st.ptr + 1 + 2) := by
    have counted := @checkEnd_readLengthBytes (head ++ [UInt8.ofNat mcDctScriptOpPushData2])
      payload 2 fits small
    have place : ((head ++ [UInt8.ofNat mcDctScriptOpPushData2]).length : Int) = st.ptr + 1 := by
      rw [List.length_append, headLength]
      simp
      omega
    have whole : head ++ [UInt8.ofNat mcDctScriptOpPushData2] ++ putLE payload.length 2 ++
        payload = script := by
      rw [split]
      simp
    rw [place, whole] at counted
    unfold readPush
    rw [if_pos (by decide)]
    unfold readLength
    rw [if_neg (by decide), if_neg (by decide), if_pos rfl]
    exact counted
  have copied : copyFrom script (st.ptr + 1 + 2) payload.length = some payload := by
    have start : (st.ptr + 1 + 2).toNat =
        (head ++ UInt8.ofNat mcDctScriptOpPushData2 :: putLE payload.length 2).length := by
      rw [List.length_append, List.length_cons, length_putLE, headLength]
      omega
    have whole : script = (head ++ UInt8.ofNat mcDctScriptOpPushData2 ::
        putLE payload.length 2) ++ payload := by
      rw [split]
      simp
    unfold copyFrom
    rw [if_pos ⟨by omega, by omega, by omega⟩, start, whole, List.drop_left, Int.toNat_natCast,
      List.take_length]
  unfold scanStep
  rw [if_pos (by omega), opcode]
  dsimp only
  rw [isPush, reads]
  dsimp only
  rw [if_neg (by simp [behind])]
  unfold takeElement
  rw [if_neg (by simp [isRedeemScript])]
  dsimp only
  have nonzero : (payload.length : Int) ≠ 0 := by omega
  rw [if_pos nonzero, copied, Option.map_some]
  dsimp only
  rw [if_pos behind]
  simp [advance, Script.setTypeIf, notEmpty]

theorem finish_opReturn (script : Script) (ptr ptrPrev lastSize : Int) (payload : Bytes) :
    finish ⟨ptr, ptrPrev, lastSize, false,
      (script.setType mcDctScriptTypeOpReturn).addElement payload⟩ =
      (script.setType mcDctScriptTypeOpReturn).addElement payload := by
  unfold finish
  dsimp only
  rw [if_neg Bool.false_ne_true, if_neg]
  intro dirty
  have flag : (script.scriptType ||| mcDctScriptTypeOpReturn) &&& mcDctScriptTypeOpReturn = 0 :=
    dirty.2
  rw [show mcDctScriptTypeOpReturn = 1 from rfl, Nat.and_one_is_mod] at flag
  have odd : (script.scriptType ||| 1) % 2 = 1 := Nat.or_mod_two_eq_one.mpr (.inr rfl)
  omega

theorem iterate_payload (atPush : st.ptr = front.length) (outside : st.isOpReturn = false)
    (noData : st.lastSize = -1) (notEmpty : payload ≠ []) (fits : payload.length < 2 ^ 16) :
    iterate (scanStep (front ++ payloadPush payload) .scriptPubKey) 3 st =
      some (.ok ((st.script.setType mcDctScriptTypeOpReturn).addElement payload)) := by
  rw [iterate, scanStep_opReturn atPush outside noData]
  dsimp only
  rw [iterate, scanStep_payload rfl rfl notEmpty fits]
  dsimp only
  rw [iterate]
  unfold scanStep
  rw [if_neg (by dsimp only; omega), finish_opReturn]

theorem scanStep_droppedByte (rest : Bytes) :
    scanStep (droppedPush true ++ rest) .scriptPubKey scanStart =
      .next ⟨2, 1, 1, false, Script.clear⟩ := by
  have inside : scanStart.ptr < (droppedPush true ++ rest).length := by
    simp [droppedPush, scanStart]
    omega
  have opcode : byteAt (droppedPush true ++ rest) scanStart.ptr = some 1 := rfl
  have reads : readPush (droppedPush true ++ rest) (1 : UInt8).toNat (scanStart.ptr + 1) =
      .ok (1, 1) := by
    change checkEnd (droppedPush true ++ rest) (.ok (1, 1)) = _
    unfold checkEnd
    dsimp only
    rw [if_neg (by simp [droppedPush]; omega)]
  unfold scanStep
  rw [if_pos inside, opcode]
  dsimp only
  rw [reads]
  rfl

theorem scanStep_drop (rest : Bytes) :
    scanStep (droppedPush true ++ rest) .scriptPubKey ⟨2, 1, 1, false, Script.clear⟩ =
      .next ⟨3, 3, -1, false, ⟨[[0]], mcDctScriptTypeOpDrop⟩⟩ := by
  have length : (droppedPush true ++ rest).length = rest.length + 3 := rfl
  have opcode : byteAt (droppedPush true ++ rest) 2 = some (UInt8.ofNat mcDctScriptOpDrop) := rfl
  have copied : copyFrom (droppedPush true ++ rest) 1 1 = some [0] := by
    unfold copyFrom
    rw [length, if_pos ⟨by omega, by omega, by omega⟩]
    rfl
  have taken : takeOpcode (droppedPush true ++ rest) ⟨2, 1, 1, false, Script.clear⟩
      (UInt8.ofNat mcDctScriptOpDrop).toNat 0 (2 + 1) =
      some ⟨⟨[[0]], mcDctScriptTypeOpDrop⟩, false, 3, 0⟩ := by
    unfold takeOpcode
    rw [if_neg (by decide), if_pos (by decide)]
    dsimp only
    rw [copied]
    rfl
  unfold scanStep
  rw [length, if_pos (by dsimp only; omega), opcode]
  dsimp only
  unfold readPush
  rw [if_neg (by decide)]
  dsimp only
  rw [if_pos ⟨rfl, Bool.false_ne_true⟩, taken]
  rfl

/-- A script with a payload is parsed to the end. -/
theorem setScript_payloadScript (dropped : Bool) {payload : Bytes} (notEmpty : payload ≠ [])
    (fits : payload.length < 2 ^ 16) :
    setScript (payloadScript dropped payload) .scriptPubKey
      ((payloadScript dropped payload).length + 1) =
      some (.ok (payloadElements dropped payload)) := by
  cases dropped with
  | false =>
      have ended := @iterate_payload [] payload scanStart rfl rfl rfl notEmpty fits
      unfold setScript
      rw [if_neg (by simp [payloadScript, payloadPush])]
      apply iterate_mono _ ended
      simp [payloadScript, length_payloadPush]
      omega
  | true =>
      have ended := @iterate_payload (droppedPush true) payload
        ⟨3, 3, -1, false, ⟨[[0]], mcDctScriptTypeOpDrop⟩⟩ rfl rfl rfl notEmpty fits
      have whole : iterate (scanStep (droppedPush true ++ payloadPush payload) .scriptPubKey) 5
          scanStart = some (.ok (payloadElements true payload)) := by
        rw [iterate, scanStep_droppedByte]
        dsimp only
        rw [iterate, scanStep_drop]
        exact ended
      unfold setScript
      rw [if_neg (by simp [payloadScript, payloadPush])]
      apply iterate_mono _ whole
      simp [payloadScript, length_payloadPush]
      omega

end ScriptParser

end HdacNode
