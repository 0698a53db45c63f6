import HdacNode.ScriptParser

/-!
# Scanners of raw scripts

`hdacscript.cpp`: three functions walk over a raw script from push to push by
`mc_GetPushDataElement`.  As in `SetScript`, the length of a push is a signed 32-bit integer,
and the check against the end lets a negative one through.
-/

namespace HdacNode

open AdvancingLoop

namespace ScriptScanners

variable (src : Bytes)

/-- `mc_GetPushDataElement`: the place and the size of the data pushed at a pointer. -/
def getPushDataElement (ptr : Int) : Except ScanError (Int × Int) :=
  if src.length ≤ ptr then .error .wrongScript
  else
    match byteAt src ptr with
    | none => .error .fault
    | some opcode =>
        if mcDctScriptOp16 < opcode.toNat then .error .wrongScript
        else (ScriptParser.readPush src opcode.toNat (ptr + 1)).map fun read => (read.2, read.1)

section OpDropOpReturn

/-- The variables of the first loop of `mc_ParseOpDropOpReturnScript`. -/
structure DropState where
  ptr : Int
  d : Nat
  opDrops : List (Int × Int)
  deriving DecidableEq, Repr

/-- A round of the loop over the data in front of OP_DROPs. -/
def dropStep (opDropCount : Nat) (st : DropState) :
    LoopStep DropState (Except ScanError DropState) :=
  if st.d < opDropCount ∧ st.ptr < src.length then
    match byteAt src st.ptr with
    | none => .stop (.error .fault)
    | some opcode =>
        if opcode.toNat = mcDctScriptOpReturn then .stop (.ok st)
        else
          let opDrops := st.opDrops.set st.d (0, -1)
          match getPushDataElement src st.ptr with
          | .error .fault => .stop (.error .fault)
          | .error .wrongScript => .next ⟨st.ptr + 1, st.d, opDrops⟩
          | .ok (offset, size) =>
              if offset + size < src.length then
                match byteAt src (offset + size) with
                | none => .stop (.error .fault)
                | some behind =>
                    if behind.toNat = mcDctScriptOpDrop then
                      .next ⟨offset + size + 1, st.d + 1, opDrops.set st.d (offset, size)⟩
                    else .next ⟨offset + size, st.d, opDrops⟩
              else .next ⟨offset + size, st.d, opDrops⟩
  else .stop (.ok st)

/-- A round of the loop that looks for OP_RETURN. -/
def returnStep (ptr : Int) : LoopStep Int (Except ScanError Int) :=
  if ptr < src.length then
    match byteAt src ptr with
    | none => .stop (.error .fault)
    | some opcode =>
        if opcode.toNat = mcDctScriptOpReturn then .stop (.ok ptr)
        else
          match getPushDataElement src ptr with
          | .error .fault => .stop (.error .fault)
          | .error .wrongScript => .next (ptr + 1)
          | .ok (offset, size) => .next (offset + size)
  else .stop (.ok ptr)

/-- What `mc_ParseOpDropOpReturnScript` writes. -/
structure OpReturnData where
  opDrops : List (Int × Int)
  opReturn : Int × Int
  deriving DecidableEq, Repr

/-- The data behind an OP_RETURN. -/
def readOpReturn (st : DropState) (ptr : Int) : Except ScanError (Option OpReturnData) :=
  if src.length ≤ ptr then .ok none
  else
    match getPushDataElement src (ptr + 1) with
    | .error .fault => .error .fault
    | .error .wrongScript => .ok (some ⟨st.opDrops, (ptr + 1, 0)⟩)
    | .ok data => .ok (some ⟨st.opDrops, data⟩)

/-- `mc_ParseOpDropOpReturnScript`, for a number of rounds at most. -/
def parseOpDropOpReturnScript (opDrops : List (Int × Int)) (opDropCount fuel : Nat) :
    Option (Except ScanError (Option OpReturnData)) :=
  match iterate (dropStep src opDropCount) fuel ⟨0, 0, opDrops⟩ with
  | none => none
  | some (.error err) => some (.error err)
  | some (.ok st) =>
      (iterate (returnStep src) fuel st.ptr).map fun found => found.bind (readOpReturn src st)

end OpDropOpReturn

section SigScript

/-- The variables of the loop in `mc_CheckSigScriptForMutableTx`. -/
structure SigState where
  ptr : Int
  result : Nat
  deriving DecidableEq, Repr

/-- What a signature's hash type disallows. -/
def disallowedBy (sighashType : Nat) : Nat :=
  (if sighashType &&& 0x1f = 0 then 0x01 else 0) |||
    (if sighashType &&& 0x1f = 1 then 0x02
      else if sighashType &&& 0x1f = 3 then 0x04
      else if sighashType &&& 0x1f = 2 then 0 else 0x07)

/-- A round of the loop in `mc_CheckSigScriptForMutableTx`. -/
def sigStep (st : SigState) : LoopStep SigState (Except ScanError Nat) :=
  if st.ptr < src.length then
    match getPushDataElement src st.ptr with
    | .error .fault => .stop (.error .fault)
    | .error .wrongScript => .next { st with result := st.result ||| 0x07 }
    | .ok (offset, size) =>
        if offset + size ≠ src.length then
          if size ≠ 0 then
            match byteAt src (offset + size - 1) with
            | none => .stop (.error .fault)
            | some last => .next ⟨offset + size, st.result ||| disallowedBy last.toNat⟩
          else if st.ptr ≠ 0 then .next ⟨offset + size, st.result ||| 0x07⟩
          else .next ⟨offset + size, st.result⟩
        else .next ⟨offset + size, st.result⟩
  else .stop (.ok st.result)

/-- `mc_CheckSigScriptForMutableTx`, for a number of rounds at most. -/
def checkSigScriptForMutableTx (fuel : Nat) : Option (Except ScanError Nat) :=
  iterate (sigStep src) fuel ⟨0, 0⟩

end SigScript

section InputScript

/-- The variables of the loop in `mc_ExtractAddressFromInputScript`. -/
structure InputState where
  ptr : Int
  size : Int
  isRedeemScript : Bool
  sighashType : Int
  deriving DecidableEq, Repr

/-- What `mc_ExtractAddressFromInputScript` leaves: whether it returns the script, and the
place of the address where it is written. -/
structure InputAddress where
  found : Bool
  opAddr : Option (Int × Int)
  isRedeemScript : Bool
  sighashType : Int
  deriving DecidableEq, Repr

/-- The strictest hash type so far. -/
def mergeSighash (sighashType : Int) (last : UInt8) : Int :=
  if last.toNat &&& 0x1f ≠ 1 then
    if last.toNat &&& 0x1f ≠ 3 then 2
    else if sighashType ≠ 2 then 3 else sighashType
  else sighashType

/-- The byte of a push with the hash type, unless the push is empty or is the last one. -/
def sighashByte (checkLast : Bool) (offset size : Int) : Except ScanError (Option UInt8) :=
  if (offset + size ≠ src.length ∨ checkLast) ∧ size ≠ 0 then
    match byteAt src (offset + size - 1) with
    | none => .error .fault
    | some last => .ok (some last)
  else .ok none

/-- A round of the loop in `mc_ExtractAddressFromInputScript`. -/
def inputStep (checkLast : Bool) (st : InputState) :
    LoopStep InputState (Except ScanError InputAddress) :=
  if st.ptr < src.length then
    match getPushDataElement src st.ptr with
    | .error .fault => .stop (.error .fault)
    | .error .wrongScript => .stop (.ok ⟨false, none, st.isRedeemScript, 2⟩)
    | .ok (offset, size) =>
        let begun := if st.sighashType < 0 then 1 else st.sighashType
        match sighashByte src checkLast offset size with
        | .error err => .stop (.error err)
        | .ok last =>
            let sighashType := last.elim begun (mergeSighash begun)
            if st.ptr = 0 then
              if size = 0 then .next ⟨offset + size, size, true, sighashType⟩
              else if offset + size = src.length then
                .stop (.ok ⟨false, none, st.isRedeemScript, sighashType⟩)
              else .next ⟨offset + size, size, st.isRedeemScript, sighashType⟩
            else .next ⟨offset + size, size, st.isRedeemScript, sighashType⟩
  else if st.sighashType < 0 then .stop (.ok ⟨false, none, st.isRedeemScript, 2⟩)
  else .stop (.ok ⟨¬ checkLast, some (st.ptr - st.size, st.size), st.isRedeemScript,
    st.sighashType⟩)

/-- `mc_ExtractAddressFromInputScript`, for a number of rounds at most. -/
def extractAddressFromInputScript (checkLast : Bool) (fuel : Nat) :
    Option (Except ScanError InputAddress) :=
  iterate (inputStep src checkLast) fuel ⟨0, 0, false, -1⟩

end InputScript

end ScriptScanners

end HdacNode
