import HdacNode.UbjsonWriter

/-!
# Reading JSON values from UBJSON

`ubjson_read` follows a pointer through the bytes.  The rounds of a loop that waits for the
end of a container are counted by fuel, so that a loop which never ends runs out of every
fuel.
-/

namespace HdacNode

/-- How a read ends: it does not within the fuel, it reads outside of the bytes, it throws
`std::length_error`, it fails with an error code, or it has a value and the pointer behind
it. -/
inductive UbjOutcome (α : Type) where
  | outOfFuel
  | outside
  | lengthError
  | failed (err : UbjsonError)
  | ended (value : α) (ptr : Int)
  deriving Repr

namespace UbjOutcome

/-- A read that does not read outside of the bytes, and a condition on its value and pointer
if it has one. -/
def Ends {α : Type} (condition : α → Int → Prop) : UbjOutcome α → Prop
  | .outside => False
  | .ended value ptr => condition value ptr
  | _ => True

/-- The next read, if this one ends with a value. -/
def andThen {α β : Type} (outcome : UbjOutcome α) (next : α → Int → UbjOutcome β) :
    UbjOutcome β :=
  match outcome with
  | .outOfFuel => .outOfFuel
  | .outside => .outside
  | .lengthError => .lengthError
  | .failed err => .failed err
  | .ended value ptr => next value ptr

theorem Ends.andThen {α β : Type} {outcome : UbjOutcome α} {next : α → Int → UbjOutcome β}
    {condition : α → Int → Prop} {nextCondition : β → Int → Prop}
    (ends : outcome.Ends condition)
    (nextEnds : ∀ value ptr, condition value ptr → (next value ptr).Ends nextCondition) :
    (outcome.andThen next).Ends nextCondition := by
  cases outcome with
  | ended value ptr => exact nextEnds value ptr ends
  | _ => exact ends

theorem Ends.mono {α : Type} {outcome : UbjOutcome α} {condition weaker : α → Int → Prop}
    (ends : outcome.Ends condition) (weaken : ∀ value ptr, condition value ptr → weaker value ptr) :
    outcome.Ends weaker := by
  cases outcome with
  | ended value ptr => exact weaken value ptr ends
  | _ => exact ends

end UbjOutcome

namespace UbjsonReader

/-- The byte under the pointer, behind the check that it is in front of the end. -/
def readByte (data : Bytes) (ptr : Int) : UbjOutcome UInt8 :=
  if data.length < ptr + 1 then .failed .errorInScript
  else
    match byteAt data ptr with
    | none => .outside
    | some byte => .ended byte ptr

/-- The bytes behind the pointer, behind the check that they end in front of the end. -/
def readBytes (data : Bytes) (ptr : Int) (size : Nat) : UbjOutcome Bytes :=
  if data.length < ptr + size then .failed .errorInScript
  else
    match copyFrom data ptr size with
    | none => .outside
    | some bytes => .ended bytes (ptr + size)

/-- The type under the pointer. -/
def readMarker (data : Bytes) (ptr : Int) : UbjOutcome UbjType :=
  (readByte data ptr).andThen fun byte ptr =>
    match UbjType.ofMarker byte with
    | none => .failed .errorInScript
    | some type => .ended type (ptr + 1)

/-- The known type, or the type under the pointer. -/
def readType (data : Bytes) (knownType : UbjType) (ptr : Int) : UbjOutcome UbjType :=
  if knownType = .undefined then readMarker data ptr else .ended knownType ptr

/-- The integer that the bytes of an integer type stand for. -/
def intValue (type : UbjType) (bytes : Bytes) : Int :=
  let value : Int := getLE bytes.reverse
  if type ≠ .uint8 ∧ 2 ^ (8 * bytes.length - 1) ≤ value then value - 2 ^ (8 * bytes.length)
  else value

/-- `ubjson_int64_read`. -/
def int64Read (data : Bytes) (knownType : UbjType) (ptr : Int) : UbjOutcome Int :=
  (readType data knownType ptr).andThen fun type ptr =>
    if type.isInt then
      (readBytes data ptr type.size.toNat).andThen fun bytes ptr =>
        .ended (intValue type bytes) ptr
    else .failed .errorInScript

/-- The conversion of an `int64_t` to `int`. -/
def narrow (value : Int) : Int :=
  toInt32 (value % 2 ^ 64).toNat

/-- A length and the bytes that it counts. -/
def readString (data : Bytes) (ptr : Int) : UbjOutcome Bytes :=
  (int64Read data .undefined ptr).andThen fun length ptr =>
    let size := narrow length
    if data.length < ptr + size then .failed .errorInScript
    else if size < 0 then .lengthError
    else readBytes data ptr size.toNat

/-- The element type in front of the elements of a container, and the byte behind it, which
is the one in front of a count. -/
def readStrongType (data : Bytes) (ptr : Int) : UbjOutcome (UbjType × UInt8) :=
  (readByte data ptr).andThen fun byte ptr =>
    if byte = 0x24 then
      (readMarker data (ptr + 1)).andThen fun type ptr =>
        (readByte data ptr).andThen fun byte ptr =>
          if byte = 0x23 then .ended (type, byte) ptr else .failed .errorInScript
    else .ended (.undefined, byte) ptr

/-- The element type and the count in front of the elements of a container: -1 when there is
no count. -/
def readHeader (data : Bytes) (ptr : Int) : UbjOutcome (UbjType × Int) :=
  (readStrongType data ptr).andThen fun (type, byte) ptr =>
    if byte = 0x23 then
      (int64Read data .undefined (ptr + 1)).andThen fun count ptr =>
        .ended (type, narrow count) ptr
    else .ended (type, -1) ptr

section Loops

variable {α : Type}

/-- The loop over a counted container. -/
def readCounted (element : Int → UbjOutcome α) : Nat → Int → UbjOutcome (List α)
  | 0, ptr => .ended [] ptr
  | count + 1, ptr =>
      (element ptr).andThen fun value ptr =>
        (readCounted element count ptr).andThen fun values ptr => .ended (value :: values) ptr

/-- The loop over a container that ends with a marker. -/
def readUntil (data : Bytes) (close : UInt8) (element : Int → UbjOutcome α) :
    Nat → Int → UbjOutcome (List α)
  | 0, _ => .outOfFuel
  | fuel + 1, ptr =>
      (readByte data ptr).andThen fun byte ptr =>
        if byte = close then .ended [] (ptr + 1)
        else
          (element ptr).andThen fun value ptr =>
            (readUntil data close element fuel ptr).andThen fun values ptr =>
              .ended (value :: values) ptr

/-- The elements of a container. -/
def readElements (fuel : Nat) (data : Bytes) (close : UInt8) (element : Int → UbjOutcome α)
    (count : Int) (ptr : Int) : UbjOutcome (List α) :=
  if 0 ≤ count then readCounted element count.toNat ptr
  else readUntil data close element fuel ptr

end Loops

/-- The conversion of a `float` to a `double`, on their bit patterns. -/
def widenFloat (word : Nat) : BitVec 64 :=
  let sign := word / 2 ^ 31 % 2
  let exponent := word / 2 ^ 23 % 2 ^ 8
  let fraction := word % 2 ^ 23
  let magnitude :=
    if exponent = 2 ^ 8 - 1 then
      -- A signalling NaN becomes a quiet one.
      (2 ^ 11 - 1) * 2 ^ 52 + (if fraction = 0 then 0 else (fraction ||| 2 ^ 22) * 2 ^ 29)
    else if exponent = 0 then
      if fraction = 0 then 0
      else (fraction.log2 + 874) * 2 ^ 52 + (fraction - 2 ^ fraction.log2) * 2 ^ (52 - fraction.log2)
    else (exponent + 896) * 2 ^ 52 + fraction * 2 ^ 29
  BitVec.ofNat 64 (sign * 2 ^ 63 + magnitude)

/-- The switch of `ubjson_read_internal` over the type, with the nested calls. -/
def readPayload (fuel : Nat) (data : Bytes) (depth : Nat)
    (inner : UbjType → Int → UbjOutcome JsonValue) (type : UbjType) (ptr : Int) :
    UbjOutcome JsonValue :=
  match type with
  | .int8 | .uint8 | .int16 | .int32 | .int64 =>
      (int64Read data type ptr).andThen fun value ptr =>
        .ended (.int (BitVec.ofInt 64 value) false) ptr
  | .nullType => .ended .null ptr
  | .boolFalse => .ended (.bool false) ptr
  | .boolTrue => .ended (.bool true) ptr
  | .float32 =>
      (readBytes data ptr 4).andThen fun bytes ptr =>
        .ended (.real (widenFloat (getLE bytes.reverse))) ptr
  | .float64 =>
      (readBytes data ptr 8).andThen fun bytes ptr =>
        .ended (.real (BitVec.ofNat 64 (getLE bytes.reverse))) ptr
  | .char => (readBytes data ptr 1).andThen fun bytes ptr => .ended (.str bytes) ptr
  | .string | .highPrecision =>
      (readString data ptr).andThen fun value ptr => .ended (.str value) ptr
  | .array =>
      if depth = 0 then .failed .notSupported
      else
        (readHeader data ptr).andThen fun (elementType, count) ptr =>
          (readElements fuel data 0x5d (inner elementType) count ptr).andThen fun values ptr =>
            .ended (.array values) ptr
  | .object =>
      if depth = 0 then .failed .notSupported
      else
        (readHeader data ptr).andThen fun (elementType, count) ptr =>
          (readElements fuel data 0x7d
            (fun ptr =>
              -- The name is read with the known type string, one level further in.
              (readString data ptr).andThen fun name ptr =>
                (inner elementType ptr).andThen fun value ptr => .ended (name, value) ptr)
            count ptr).andThen fun pairs ptr => .ended (.obj pairs) ptr
  | .undefined | .noop | .strongType | .count => .ended .null ptr

/-- `ubjson_read_internal`. -/
def readInternal (fuel : Nat) (data : Bytes) : Nat → UbjType → Int → UbjOutcome JsonValue
  | 0, _, _ => .failed .notSupported
  | depth + 1, knownType, ptr =>
      (readType data knownType ptr).andThen fun type ptr =>
        readPayload fuel data depth (readInternal fuel data depth) type ptr

/-- `ubjson_read`.  A negative limit is not 0, and lets no container be read. -/
def ubjsonRead (fuel : Nat) (data : Bytes) (maxDepth : Int) : UbjOutcome JsonValue :=
  readInternal fuel data (if maxDepth < 0 then 1 else maxDepth.toNat) .undefined 0

end UbjsonReader

end HdacNode
