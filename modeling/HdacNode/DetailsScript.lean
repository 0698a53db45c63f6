import HdacNode.ScriptElements

/-!
# Details scripts

A details script is a sequence of parameters.  A special parameter starts with a
zero byte and its code, a named one with its name and a zero byte; the length of
the value follows as a variable length integer, and then the value.
-/

namespace HdacNode

def mcEntSprmName : UInt8 := 0x01
def mcEntSprmFollowOns : UInt8 := 0x02
def mcEntSprmIssuer : UInt8 := 0x03
def mcEntSprmAssetMultiple : UInt8 := 0x41
def mcEntSprmUpgradeProtocolVersion : UInt8 := 0x42
def mcEntSprmUpgradeStartBlock : UInt8 := 0x43

/-- `mc_VarIntSize`. -/
def varIntSize (byte : UInt8) : Nat :=
  if byte < 0xfd then 0 else if byte = 0xfd then 2 else if byte = 0xfe then 4 else 8

/-- `mc_GetVarInt` with the conversion of its result to `int`: the value, -1 as
the default, and the size that it takes. -/
def getVarInt (bytes : Bytes) : Int × Nat :=
  match bytes with
  | [] => (-1, 0)
  | byte :: rest =>
      let size := varIntSize byte
      if bytes.length < size + 1 then (-1, 0)
      else if size = 0 then (byte.toNat, 1)
      else (toInt32 (getLE (rest.take size)), size + 1)

/-- The bytes of an integer, lowest byte first, as `mc_PutLE` writes them. -/
def putLE (value : Nat) : Nat → Bytes
  | 0 => []
  | size + 1 => UInt8.ofNat value :: putLE (value / 2 ^ 8) size

theorem putLE_one (value : Nat) : putLE value 1 = [UInt8.ofNat value] := rfl

theorem length_putLE (value size : Nat) : (putLE value size).length = size := by
  induction size generalizing value with
  | zero => rfl
  | succ size ih => simp [putLE, ih]

/-- `mc_GetLE` reads back what `mc_PutLE` writes. -/
theorem getLE_putLE {value size : Nat} (fits : value < 2 ^ (8 * size)) :
    getLE (putLE value size) = value := by
  induction size generalizing value with
  | zero =>
      have isZero : value = 0 := by simpa using fits
      rw [isZero]
      rfl
  | succ size ih =>
      have higher : value / 2 ^ 8 < 2 ^ (8 * size) := by
        rw [Nat.div_lt_iff_lt_mul (by decide), ← Nat.pow_add]
        exact fits
      rw [putLE, getLE, ih higher, UInt8.toNat_ofNat']
      omega

/-- `mc_PutVarInt`. -/
def putVarInt (value : Nat) : Bytes :=
  if value < 0xfd then putLE value 1
  else if value < 0xffff then 0xfd :: putLE value 2
  else if value < 0xffffffff then 0xfe :: putLE value 4
  else 0xff :: putLE value 8

/-- `mc_Script::SetSpecialParamValue`: what it appends to an element. -/
def specialParamValue (param : UInt8) (value : Bytes) : Bytes :=
  [0, param] ++ putVarInt value.length ++ value

/-- A parameter as `mc_GetParamFromDetailsScript` reads it: the offset behind it,
the offset of its value, which is 0 when there is none, and the size of the value. -/
structure DetailsParam where
  nextOffset : Nat
  valueStart : Nat
  valueSize : Nat
  failed : Bool
  deriving DecidableEq, Repr

namespace DetailsScript

variable (script : Bytes)

/-- The number of bytes in front of the next zero byte. -/
def strlen (offset : Nat) : Nat :=
  ((script.drop offset).takeWhile (· ≠ 0)).length

/-- The size of the part of a parameter that names it. -/
def nameSize (offset : Nat) : Nat :=
  if script[offset]? = some 0 then 2 else strlen script offset + 1

/-- `mc_GetParamFromDetailsScript`. -/
def getParam (offset : Nat) : DetailsParam :=
  let total := script.length
  if total ≤ offset then ⟨total, 0, 0, decide (total < offset)⟩
  else
    let nameSize := nameSize script offset
    if total ≤ offset + nameSize then ⟨total, 0, 0, true⟩
    else
      let (valueSize, shift) := getVarInt (script.drop (offset + nameSize))
      if valueSize < 0 then ⟨total, 0, 0, true⟩
      else
        let size := nameSize + shift + valueSize.toNat
        if total < offset + size then ⟨total, 0, 0, true⟩
        else ⟨offset + size, offset + nameSize + shift, valueSize.toNat, false⟩

/-- The loop of the two searches: the offset and the size of the value of the
first parameter that is looked for, or the size of the script. -/
def findParam (isParam : Nat → Bool) : Nat → Nat → Nat × Nat
  | 0, _ => (script.length, 0)
  | fuel + 1, offset =>
      if offset < script.length then
        let param := getParam script offset
        if 0 < param.valueStart ∧ isParam offset then (param.valueStart, param.valueSize)
        else findParam isParam fuel param.nextOffset
      else (script.length, 0)

/-- `mc_FindSpecialParamInDetailsScript`. -/
def findSpecialParam (code : UInt8) : Nat × Nat :=
  findParam script
    (fun offset => script[offset]? = some 0 ∧ script[offset + 1]? = some code)
    (script.length + 1) 0

/-- One letter in the comparison of names: equal up to the case. -/
def sameLetter (left right : UInt8) : Bool :=
  left = right ∨
    (0x60 < left ∧ left < 0x7b ∧ left.toNat - 0x20 = right.toNat) ∨
      (0x60 < right ∧ right < 0x7b ∧ right.toNat - 0x20 = left.toNat)

/-- `mc_FindNamedParamInDetailsScript`. -/
def findNamedParam (name : Bytes) : Nat × Nat :=
  findParam script
    (fun offset => script[offset]? ≠ some 0 ∧
      let found := (script.drop offset).takeWhile (· ≠ 0)
      found.length = name.length ∧ (List.zipWith sameLetter name found).all id)
    (script.length + 1) 0

/-- The bytes of a value. -/
def value (param : Nat × Nat) : Bytes :=
  (script.drop param.1).take param.2

/-- The loop of `mc_VerifyDetailsScript`. -/
def verifyFrom : Nat → Nat → Bool
  | 0, _ => true
  | fuel + 1, offset =>
      if offset < script.length then
        let param := getParam script offset
        !param.failed && verifyFrom fuel param.nextOffset
      else true

/-- `mc_VerifyDetailsScript`. -/
def verify : Bool :=
  verifyFrom script (script.length + 1) 0

end DetailsScript

end HdacNode
