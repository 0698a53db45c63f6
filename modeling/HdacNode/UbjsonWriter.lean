import HdacNode.DetailsScript

/-!
# Writing JSON values as UBJSON

`ubjson_write` puts a type marker before every value.  A container whose elements have one
type may instead state that type and its count once, and then drops the markers of its
elements and its own end.

The bytes go to an `mc_Script`, whose `Resize` is left out.  Its `m_Size` and the arguments of
`Resize` are of the type `int`, so a list of bytes stands for a script while it is shorter than
2^31 bytes.
-/

namespace HdacNode

/-- A JSON value.  An integer is a 64-bit word with the flag `is_uint64`, a double its 64-bit
pattern. -/
inductive JsonValue where
  | null
  | bool (value : Bool)
  | int (word : BitVec 64) (isUint64 : Bool)
  | real (word : BitVec 64)
  | str (value : Bytes)
  | array (values : List JsonValue)
  | obj (pairs : List (Bytes × JsonValue))
  deriving Repr

/-- The types `UBJ_UNDEFINED` to `UBJ_COUNT`, in their order. -/
inductive UbjType where
  | undefined
  | nullType
  | noop
  | boolTrue
  | boolFalse
  | char
  | string
  | highPrecision
  | int8
  | uint8
  | int16
  | int32
  | int64
  | float32
  | float64
  | array
  | object
  | strongType
  | count
  deriving DecidableEq, Repr

namespace UbjType

/-- The number of a type. -/
def index (type : UbjType) : Nat :=
  type.ctorIdx

/-- `UBJ_TYPE`. -/
def marker : UbjType → UInt8
  | .undefined => 0x3f
  | .nullType => 0x5a
  | .noop => 0x4e
  | .boolTrue => 0x54
  | .boolFalse => 0x46
  | .char => 0x43
  | .string => 0x53
  | .highPrecision => 0x48
  | .int8 => 0x69
  | .uint8 => 0x55
  | .int16 => 0x49
  | .int32 => 0x6c
  | .int64 => 0x4c
  | .float32 => 0x64
  | .float64 => 0x44
  | .array => 0x5b
  | .object => 0x7b
  | .strongType => 0x24
  | .count => 0x23

/-- `UBJ_SIZE`: the bytes behind the marker, negative where they differ from value to value. -/
def size : UbjType → Int
  | .undefined | .nullType | .noop | .boolTrue | .boolFalse => 0
  | .char => 1
  | .string | .highPrecision => -1
  | .int8 | .uint8 => 1
  | .int16 => 2
  | .int32 => 4
  | .int64 => 8
  | .float32 => 4
  | .float64 => 8
  | .array => -2
  | .object => -3
  | .strongType => -4
  | .count => -5

/-- `UBJ_ISINT`. -/
def isInt : UbjType → Bool
  | .int8 | .uint8 | .int16 | .int32 | .int64 => true
  | _ => false

/-- `UBJ_INTERNAL_TYPE`: the type with a marker. -/
def ofMarker (byte : UInt8) : Option UbjType :=
  if byte = 0x23 then some .count
  else if byte = 0x24 then some .strongType
  else if byte = 0x43 then some .char
  else if byte = 0x44 then some .float64
  else if byte = 0x46 then some .boolFalse
  else if byte = 0x48 then some .highPrecision
  else if byte = 0x49 then some .int16
  else if byte = 0x4c then some .int64
  else if byte = 0x4e then some .noop
  else if byte = 0x53 then some .string
  else if byte = 0x54 then some .boolTrue
  else if byte = 0x55 then some .uint8
  else if byte = 0x5a then some .nullType
  else if byte = 0x5b then some .array
  else if byte = 0x64 then some .float32
  else if byte = 0x69 then some .int8
  else if byte = 0x6c then some .int32
  else if byte = 0x7b then some .object
  else none

theorem ofMarker_marker {type : UbjType} (defined : type ≠ .undefined) :
    ofMarker type.marker = some type := by
  cases type with
  | undefined => exact absurd rfl defined
  | _ => rfl

theorem ofMarker_ne_undefined {byte : UInt8} {type : UbjType} (found : ofMarker byte = some type) :
    type ≠ .undefined := by
  rintro rfl
  have checked : ∀ byte < 256, ofMarker (UInt8.ofNat byte) ≠ some .undefined := by
    decide +kernel
  apply checked byte.toNat byte.toNat_lt
  rw [UInt8.ofNat_toNat]
  exact found

end UbjType

/-- `MC_ERR_NOT_SUPPORTED` and `MC_ERR_ERROR_IN_SCRIPT`. -/
inductive UbjsonError where
  | notSupported
  | errorInScript
  deriving DecidableEq, Repr

namespace UbjsonWriter

/-- What a write appends to the script, and how it ends. -/
structure Written where
  bytes : Bytes
  err : Option UbjsonError
  deriving DecidableEq, Repr

namespace Written

/-- A write that succeeds. -/
def done (bytes : Bytes) : Written :=
  ⟨bytes, none⟩

/-- The next write, unless this one has failed. -/
def andThen (first second : Written) : Written :=
  match first.err with
  | some err => ⟨first.bytes, some err⟩
  | none => ⟨first.bytes ++ second.bytes, second.err⟩

end Written

/-- `ubjson_best_negative_int_type`. -/
def bestNegativeIntType (value : Int) : UbjType :=
  if value + 0x80 < 0 then
    if 0 ≤ value + 0x8000 then .int16
    else if 0 ≤ value + 0x80000000 then .int32
    else .int64
  else .int8

/-- `ubjson_best_int_type`: the type, and whether `not_uint8` is set. -/
def bestIntType (value : Int) : UbjType × Bool :=
  if value < 0 then (bestNegativeIntType value, true)
  else if value < 0x80 then (.int8, false)
  else if value < 0x100 then (.uint8, false)
  else if value < 0x8000 then (.int16, true)
  else if value < 0x80000000 then (.int32, true)
  else (.int64, true)

/-- The type that `ubjson_best_type` finds for a value, and whether `not_uint8` is set. -/
def ownType : JsonValue → UbjType × Bool
  | .null => (.nullType, false)
  | .bool value => (if value then .boolTrue else .boolFalse, false)
  | .int word _ => bestIntType word.toInt
  | .real _ => (.float64, false)
  | .str value =>
      match value with
      | [byte] => (if byte < 0x80 then .char else .string, false)
      | _ => (.string, false)
  | .array _ => (.array, false)
  | .obj _ => (.object, false)

/-- The variables of the loop that looks for the element type of a container. -/
structure TypeScan where
  lastType : UbjType
  notUint8 : Bool
  usize : Int
  ssize : Int

/-- The comparison with `last_type` in `ubjson_best_type`: `none` is the type -1. -/
def mergedType (lastType type : UbjType) : Option UbjType :=
  if lastType ≠ .undefined ∧ type ≠ lastType then
    if lastType.isInt && type.isInt then
      some (if type.index < lastType.index then lastType else type)
    else none
  else some type

/-- `ubjson_best_type` for an element: `none` when it has another type than those before. -/
def TypeScan.step (scan : TypeScan) (value : JsonValue) : Option TypeScan :=
  let (type, notUint8) := ownType value
  let (usize, ssize) :=
    if 0 ≤ type.size then
      (scan.usize + type.size, scan.ssize + type.size + if type = .uint8 then 1 else 0)
    else (scan.usize, scan.ssize)
  (mergedType scan.lastType type).map fun lastType =>
    ⟨lastType, scan.notUint8 || notUint8, usize, ssize⟩

/-- The loop over the elements of a container. -/
def TypeScan.run (scan : TypeScan) : List JsonValue → Option TypeScan
  | [] => some scan
  | value :: values => (scan.step value).bind fun next => next.run values

/-- The type of the elements and the size of the plain form. -/
def TypeScan.elementType (scan : TypeScan) : UbjType × Int :=
  if scan.lastType = .uint8 then
    if scan.notUint8 then (.int16, scan.ssize) else (.uint8, scan.usize)
  else (scan.lastType, scan.ssize)

/-- The element type that a container states: `none` for the plain form. -/
def statedType (values : List JsonValue) : Option UbjType :=
  match (TypeScan.mk .undefined false 0 0).run values with
  | none => none
  | some scan =>
      if scan.lastType = .undefined then none
      else
        let (lastType, ssize) := scan.elementType
        let countType := (bestIntType (toInt32 values.length)).1
        if ssize + values.length + 1 ≤ values.length * lastType.size + countType.size + 4 then none
        else some lastType

/-- `ubjson_int64_write`: the word of the integer, highest byte first. -/
def int64Write (value : Int) (knownType : UbjType) : Bytes :=
  let word := (value % 2 ^ 64).toNat
  if knownType = .undefined then
    let type := (bestIntType value).1
    type.marker :: (putLE word type.size.toNat).reverse
  else (putLE word knownType.size.toNat).reverse

/-- What a container writes around its elements. -/
def containerWrite (close : UInt8) (count : Nat) (stated : Option UbjType) (elements : Written) :
    Written :=
  match stated with
  | some type =>
      (Written.done ([0x24, type.marker, 0x23] ++ int64Write count .undefined)).andThen elements
  | none => elements.andThen (.done [close])

/-- The writes of the elements, up to the first one that fails. -/
def writeAll {α : Type} (write : α → Written) : List α → Written
  | [] => .done []
  | value :: values => (write value).andThen (writeAll write values)

/-- The switch of `ubjson_write_internal`, with the nested calls.  The type is one that the
value has. -/
def writePayload (depth : Nat) (inner : UbjType → JsonValue → Written) (type : UbjType) :
    JsonValue → Written
  | .null | .bool _ => .done []
  | .int word _ => .done (int64Write word.toInt type)
  | .real word => .done (putLE word.toNat 8).reverse
  | .str value =>
      if type = .char then .done value
      else .done (int64Write value.length .undefined ++ value)
  | .array values =>
      if depth = 0 then ⟨[], some .notSupported⟩
      else
        let stated := statedType values
        containerWrite 0x5d values.length stated
          (writeAll (inner (stated.getD .undefined)) values)
  | .obj pairs =>
      if depth = 0 then ⟨[], some .notSupported⟩
      else
        let stated := statedType (pairs.map Prod.snd)
        containerWrite 0x7d pairs.length stated
          (writeAll (fun pair =>
            (inner .string (.str pair.1)).andThen (inner (stated.getD .undefined) pair.2)) pairs)

/-- `ubjson_write_internal`. -/
def writeInternal : Nat → UbjType → JsonValue → Written
  | 0, _, _ => ⟨[], some .notSupported⟩
  | depth + 1, knownType, value =>
      if knownType = .undefined then
        let type := (ownType value).1
        (Written.done [type.marker]).andThen (writePayload depth (writeInternal depth) type value)
      else writePayload depth (writeInternal depth) knownType value

/-- `ubjson_write`. -/
def ubjsonWrite (value : JsonValue) (maxDepth : Nat) : Written :=
  writeInternal maxDepth .undefined value

end UbjsonWriter

end HdacNode
