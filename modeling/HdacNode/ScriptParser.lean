import HdacNode.AdvancingLoop
import Mathlib.Data.List.Basic
import Mathlib.Data.Nat.Bitwise

/-!
# Parsing a script into elements

`mc_Script::SetScript` walks over the opcodes of a script with a read pointer.
A push moves the pointer behind its data.  The length of a push is read into a
signed 32-bit integer, so a four-byte length may be negative; the bounds check
lets such a length through.

Pointers are offsets from the start of the script.  A read or a copy outside of
the script, or a copy of a negative size, is a fault.
-/

namespace HdacNode

open AdvancingLoop

/-- The bytes of a script. -/
abbrev Bytes := List UInt8

def mcDctScriptOpPushData1 : Nat := 0x4c
def mcDctScriptOpPushData2 : Nat := 0x4d
def mcDctScriptOpPushData4 : Nat := 0x4e
def mcDctScriptOp16 : Nat := 0x60
def mcDctScriptOpReturn : Nat := 0x6a
def mcDctScriptOpDrop : Nat := 0x75

def mcDctScriptTypeRegular : Nat := 0x00
def mcDctScriptTypeOpReturn : Nat := 0x01
def mcDctScriptTypeOpDrop : Nat := 0x02
def mcDctScriptTypeDirtyOpReturn : Nat := 0x04

/-- What `SetScript` is told about a script. -/
inductive ScriptSource where
  | scriptPubKey
  | scriptSig
  | scriptSigRaw
  deriving DecidableEq, Repr

/-- The parsed part of an `mc_Script`: its elements and the type flags. -/
structure Script where
  elements : List Bytes
  scriptType : Nat
  deriving DecidableEq, Repr

namespace Script

/-- `mc_Script::Clear`. -/
def clear : Script := ⟨[], mcDctScriptTypeRegular⟩

/-- `AddElement` followed by `SetData`. -/
def addElement (script : Script) (data : Bytes) : Script :=
  { script with elements := script.elements ++ [data] }

/-- Set a type flag. -/
def setType (script : Script) (flag : Nat) : Script :=
  { script with scriptType := script.scriptType ||| flag }

/-- Set a type flag under a condition. -/
def setTypeIf (script : Script) (condition : Bool) (flag : Nat) : Script :=
  if condition then script.setType flag else script

end Script

/-- `mc_GetLE`: an integer from bytes, lowest byte first. -/
def getLE : Bytes → Nat
  | [] => 0
  | byte :: bytes => byte.toNat + 2 ^ 8 * getLE bytes

/-- The conversion to `int`. -/
def toInt32 (value : Nat) : Int :=
  let word : Nat := value % 2 ^ 32
  if word < 2 ^ 31 then word else word - 2 ^ 32

/-- The byte under a pointer. -/
def byteAt (src : Bytes) (ptr : Int) : Option UInt8 :=
  if ptr < 0 then none else src[ptr.toNat]?

/-- The bytes a copy takes. -/
def copyFrom (src : Bytes) (ptr size : Int) : Option Bytes :=
  if 0 ≤ ptr ∧ 0 ≤ size ∧ ptr + size ≤ src.length then
    some ((src.drop ptr.toNat).take size.toNat)
  else none

/-- How `SetScript` may fail: with `MC_ERR_WRONG_SCRIPT`, or by a memory fault. -/
inductive ScanError where
  | wrongScript
  | fault
  deriving DecidableEq, Repr

/-- The variables of the loop in `SetScript`. -/
structure ScanState where
  ptr : Int
  ptrPrev : Int
  lastSize : Int
  isOpReturn : Bool
  script : Script
  deriving DecidableEq, Repr

namespace ScriptParser

/-- A length of some bytes and the pointer behind it. -/
def readLengthBytes (src : Bytes) (ptr : Int) (size : Nat) : Except ScanError (Int × Int) :=
  if src.length - ptr < size then .error .wrongScript
  else .ok (toInt32 (getLE ((src.drop ptr.toNat).take size)), ptr + size)

/-- The length of a push and the pointer behind it, without the bounds check. -/
def readLength (src : Bytes) (opcode : Nat) (ptr : Int) : Except ScanError (Int × Int) :=
  if opcode < mcDctScriptOpPushData1 then .ok (opcode, ptr)
  else if opcode = mcDctScriptOpPushData1 then readLengthBytes src ptr 1
  else if opcode = mcDctScriptOpPushData2 then readLengthBytes src ptr 2
  else readLengthBytes src ptr 4

/-- The bounds check lets a size through that ends within the script. -/
def checkEnd (src : Bytes) : Except ScanError (Int × Int) → Except ScanError (Int × Int)
  | .error err => .error err
  | .ok (size, ptr) =>
      if src.length < ptr + size then .error .wrongScript else .ok (size, ptr)

/-- The first part of a round: the size of the data of an opcode and the pointer
to it. -/
def readPush (src : Bytes) (opcode : Nat) (ptr : Int) : Except ScanError (Int × Int) :=
  if opcode ≤ mcDctScriptOpPushData4 then checkEnd src (readLength src opcode ptr)
  else .ok (0, ptr)

/-- What the middle part of a round leaves in the variables of the loop. -/
structure Taken where
  script : Script
  isOpReturn : Bool
  ptr : Int
  size : Int

/-- An opcode of a public key script up to OP_RETURN: data in front of an OP_DROP
becomes an element. -/
def takeOpcode (src : Bytes) (st : ScanState) (opcode : Nat) (size ptr : Int) : Option Taken :=
  if opcode = mcDctScriptOpReturn then
    let script := st.script.setType mcDctScriptTypeOpReturn
    some ⟨script.setTypeIf (0 ≤ st.lastSize) mcDctScriptTypeDirtyOpReturn, true, ptr, size⟩
  else if opcode = mcDctScriptOpDrop then
    let script := st.script.setType mcDctScriptTypeOpDrop
    if 0 ≤ st.lastSize then
      (copyFrom src st.ptrPrev st.lastSize).map fun data =>
        ⟨script.addElement data, st.isOpReturn, ptr, size⟩
    else some ⟨script.setType mcDctScriptTypeDirtyOpReturn, st.isOpReturn, ptr, size⟩
  else
    some ⟨st.script.setTypeIf (0 ≤ st.lastSize) mcDctScriptTypeDirtyOpReturn, st.isOpReturn,
      ptr, size⟩

/-- Whether a push of an input script is a redeem script behind enough
signatures. -/
def isRedeemScript (src : Bytes) (source : ScriptSource) (st : ScanState) (size ptr : Int) :
    Bool :=
  source = .scriptSig ∧ 1 < size ∧
    (byteAt src ptr).any fun byte =>
      0x50 < byte.toNat ∧ byte.toNat ≤ 0x60 ∧
        byte.toNat - 0x50 < st.script.elements.length

/-- An opcode that becomes an element itself. -/
def takeElement (src : Bytes) (source : ScriptSource) (st : ScanState) (size ptr : Int) :
    Option Taken :=
  if isRedeemScript src source st size ptr then some ⟨st.script, st.isOpReturn, ptr, 0⟩
  else
    let data :=
      if size ≠ 0 then copyFrom src ptr size
      else if st.isOpReturn then copyFrom src ptr 0
      else copyFrom src (ptr - 1) 1
    data.map fun data =>
      ⟨st.script.addElement data, false, if st.isOpReturn then src.length else ptr, size⟩

/-- The last part of a round. -/
def advance (taken : Taken) (opcode : Nat) : ScanState :=
  let lastSize :=
    if ¬ taken.isOpReturn ∧ taken.size = 0 ∧ mcDctScriptOp16 < opcode then -1 else taken.size
  { ptr := taken.ptr + taken.size
    ptrPrev := taken.ptr
    lastSize := lastSize
    isOpReturn := taken.isOpReturn
    script := taken.script.setTypeIf
      (lastSize < 0 ∧ opcode ≠ mcDctScriptOpReturn ∧ opcode ≠ mcDctScriptOpDrop)
      mcDctScriptTypeDirtyOpReturn }

/-- What `SetScript` does behind its loop. -/
def finish (st : ScanState) : Script :=
  let script := if st.isOpReturn then st.script.addElement [] else st.script
  if script.scriptType &&& mcDctScriptTypeDirtyOpReturn ≠ 0 ∧
      script.scriptType &&& mcDctScriptTypeOpReturn = 0 then
    { script with scriptType := script.scriptType - mcDctScriptTypeDirtyOpReturn }
  else script

/-- One round of the loop in `SetScript`. -/
def scanStep (src : Bytes) (source : ScriptSource) (st : ScanState) :
    LoopStep ScanState (Except ScanError Script) :=
  if st.ptr < src.length then
    match byteAt src st.ptr with
    | none => .stop (.error .fault)
    | some opcode =>
        match readPush src opcode.toNat (st.ptr + 1) with
        | .error err => .stop (.error err)
        | .ok (size, ptr) =>
            let taken :=
              if source = .scriptPubKey ∧ ¬ st.isOpReturn then
                takeOpcode src st opcode.toNat size ptr
              else takeElement src source st size ptr
            match taken with
            | none => .stop (.error .fault)
            | some taken => .next (advance taken opcode.toNat)
  else .stop (.ok (finish st))

/-- The variables before the loop. -/
def scanStart : ScanState := ⟨0, 0, -1, false, Script.clear⟩

/-- `mc_Script::SetScript`, for a number of rounds at most. -/
def setScript (src : Bytes) (source : ScriptSource) (fuel : Nat) :
    Option (Except ScanError Script) :=
  if src = [] then some (.ok Script.clear) else iterate (scanStep src source) fuel scanStart

section Lengths

theorem getLE_lt (bytes : Bytes) : getLE bytes < 2 ^ (8 * bytes.length) := by
  induction bytes with
  | nil => simp [getLE]
  | cons byte bytes ih =>
      have small := byte.toNat_lt
      have split : 2 ^ (8 * (byte :: bytes).length) = 2 ^ 8 * 2 ^ (8 * bytes.length) := by
        rw [List.length_cons, ← Nat.pow_add]
        congr 1
        omega
      rw [getLE, split]
      omega

/-- Short lengths are not negative. -/
theorem toInt32_of_lt {value : Nat} (small : value < 2 ^ 31) : toInt32 value = value := by
  unfold toInt32
  dsimp only
  split <;> omega

/-- The signed length of a four-byte push. -/
def pushLength (src : Bytes) (ptr : Int) : Int :=
  toInt32 (getLE ((src.drop ptr.toNat).take 4))

private theorem toInt32_getLE_nonneg (src : Bytes) (ptr : Int) {size : Nat} (short : size ≤ 2) :
    0 ≤ toInt32 (getLE ((src.drop ptr.toNat).take size)) := by
  have bound := getLE_lt ((src.drop ptr.toNat).take size)
  have lengthLe : ((src.drop ptr.toNat).take size).length ≤ 2 :=
    (List.length_take_le _ _).trans short
  have small : 2 ^ (8 * ((src.drop ptr.toNat).take size).length) ≤ 2 ^ (8 * 2) :=
    Nat.pow_le_pow_right (by omega) (by omega)
  rw [toInt32_of_lt (by omega)]
  omega

private theorem checkEnd_ok (src : Bytes) (size ptr : Int) :
    checkEnd src (.ok (size, ptr)) =
      if src.length < ptr + size then .error .wrongScript else .ok (size, ptr) :=
  rfl

private theorem checkEnd_short (src : Bytes) (ptr : Int) {size : Nat} (short : size ≤ 2) :
    checkEnd src (readLengthBytes src ptr size) = .error .wrongScript ∨
      ∃ length next, checkEnd src (readLengthBytes src ptr size) = .ok (length, next) ∧
        0 ≤ length ∧ ptr ≤ next ∧ next + length ≤ src.length := by
  have nonneg := toInt32_getLE_nonneg src ptr short
  unfold readLengthBytes
  split
  · exact .inl rfl
  · rw [checkEnd_ok]
    split
    · exact .inl rfl
    · exact .inr ⟨_, _, rfl, nonneg, by omega, by omega⟩

private theorem checkEnd_four (src : Bytes) (ptr : Int) :
    (checkEnd src (readLengthBytes src ptr 4) = .error .wrongScript ∧
        (ptr + 4 ≤ src.length → 0 ≤ pushLength src ptr)) ∨
      (ptr + 4 ≤ src.length ∧ (0 ≤ pushLength src ptr → ptr + 4 + pushLength src ptr ≤ src.length) ∧
        checkEnd src (readLengthBytes src ptr 4) = .ok (pushLength src ptr, ptr + 4)) := by
  unfold readLengthBytes
  split
  · refine .inl ⟨rfl, fun room => ?_⟩
    omega
  · have sameLength : toInt32 (getLE ((src.drop ptr.toNat).take 4)) = pushLength src ptr := rfl
    rw [sameLength, checkEnd_ok]
    split
    · exact .inl ⟨rfl, fun _ => by omega⟩
    · exact .inr ⟨by omega, fun _ => by omega, rfl⟩

/-- The outcome of reading a push: an error, a size whose data lies within the
script, or a negative four-byte length. -/
theorem readPush_cases (src : Bytes) (opcode : Nat) {ptr : Int} (inside : ptr ≤ src.length) :
    (readPush src opcode ptr = .error .wrongScript ∧
        (opcode = mcDctScriptOpPushData4 → ptr + 4 ≤ src.length → 0 ≤ pushLength src ptr)) ∨
      (∃ size next, readPush src opcode ptr = .ok (size, next) ∧ 0 ≤ size ∧ ptr ≤ next ∧
        next + size ≤ src.length ∧
        (opcode = mcDctScriptOpPushData4 → 0 ≤ pushLength src ptr)) ∨
      (opcode = mcDctScriptOpPushData4 ∧ ptr + 4 ≤ src.length ∧ pushLength src ptr < 0 ∧
        readPush src opcode ptr = .ok (pushLength src ptr, ptr + 4)) := by
  unfold readPush
  by_cases isFour : opcode = mcDctScriptOpPushData4
  · have read : readLength src opcode ptr = readLengthBytes src ptr 4 := by
      rw [isFour]
      rfl
    rw [if_pos (Nat.le_of_eq isFour), read]
    rcases checkEnd_four src ptr with ⟨failed, nonneg⟩ | ⟨room, ends, found⟩
    · exact .inl ⟨failed, fun _ => nonneg⟩
    · by_cases nonneg : 0 ≤ pushLength src ptr
      · exact .inr (.inl ⟨_, _, found, nonneg, by omega, ends nonneg, fun _ => nonneg⟩)
      · exact .inr (.inr ⟨isFour, room, by omega, found⟩)
  · have other : ∀ {statement : Prop}, opcode = mcDctScriptOpPushData4 → statement :=
      fun isFour' => absurd isFour' isFour
    split
    · rename_i isPush
      unfold readLength
      split
      · rw [checkEnd_ok]
        split
        · exact .inl ⟨rfl, other⟩
        · exact .inr (.inl ⟨_, _, rfl, by omega, by omega, by omega, other⟩)
      · rename_i notDirect
        have short : ∃ size ≤ 2, (if opcode = mcDctScriptOpPushData1 then
            readLengthBytes src ptr 1 else if opcode = mcDctScriptOpPushData2 then
              readLengthBytes src ptr 2 else readLengthBytes src ptr 4) =
                readLengthBytes src ptr size := by
          by_cases isOne : opcode = mcDctScriptOpPushData1
          · exact ⟨1, by omega, if_pos isOne⟩
          · have isTwo : opcode = mcDctScriptOpPushData2 := by
              simp only [mcDctScriptOpPushData1, mcDctScriptOpPushData2,
                mcDctScriptOpPushData4] at *
              omega
            exact ⟨2, Nat.le_refl 2, by rw [if_neg isOne, if_pos isTwo]⟩
        obtain ⟨size, shortSize, lengthEq⟩ := short
        rw [lengthEq]
        rcases checkEnd_short src ptr shortSize with failed | ⟨length, next, found, bounds⟩
        · exact .inl ⟨failed, other⟩
        · exact .inr (.inl ⟨length, next, found, bounds.1, bounds.2.1, bounds.2.2, other⟩)
    · exact .inr (.inl ⟨0, ptr, rfl, by omega, by omega, by omega, other⟩)

end Lengths

end ScriptParser

end HdacNode
