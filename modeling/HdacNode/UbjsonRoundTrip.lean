import HdacNode.UbjsonPointers
import HdacNode.UbjsonTypes

/-!
# The UBJSON round trip

What the writer puts for a value reads back as the value, from wherever the bytes stand.
Integers come back signed, so an unsigned integer from 2^63 on does not come back; nor does
a string or a counted container whose length is too long for an `int`.
-/

namespace HdacNode

mutual

/-- A value with every integer signed that is the same signed and unsigned. -/
def JsonValue.normal : JsonValue → JsonValue
  | .int word isUint64 => .int word (isUint64 && word.msb)
  | .array values => .array (normalAll values)
  | .obj pairs => .obj (normalPairs pairs)
  | .null => .null
  | .bool value => .bool value
  | .real word => .real word
  | .str value => .str value

/-- The normal elements of an array. -/
def JsonValue.normalAll : List JsonValue → List JsonValue
  | [] => []
  | value :: values => value.normal :: normalAll values

/-- The normal pairs of an object. -/
def JsonValue.normalPairs : List (Bytes × JsonValue) → List (Bytes × JsonValue)
  | [] => []
  | (name, value) :: pairs => (name, value.normal) :: normalPairs pairs

end

mutual

/-- All integers are signed 64-bit numbers, and the lengths of all strings and names are
lengths in `int`. -/
def JsonValue.Readable : JsonValue → Prop
  | .int word isUint64 => (isUint64 && word.msb) = false
  | .str value => value.length < 2 ^ 31
  | .array values => ReadableAll values
  | .obj pairs => ReadablePairs pairs
  | _ => True

/-- The elements of an array can be read. -/
def JsonValue.ReadableAll : List JsonValue → Prop
  | [] => True
  | value :: values => value.Readable ∧ ReadableAll values

/-- The pairs of an object can be read. -/
def JsonValue.ReadablePairs : List (Bytes × JsonValue) → Prop
  | [] => True
  | (name, value) :: pairs => name.length < 2 ^ 31 ∧ value.Readable ∧ ReadablePairs pairs

end

mutual

/-- The counts that containers state are counts in `int`. -/
def JsonValue.CountsFit : JsonValue → Prop
  | .array values =>
      (UbjsonWriter.statedType values ≠ none → values.length < 2 ^ 31) ∧ CountsFitAll values
  | .obj pairs =>
      (UbjsonWriter.statedType (pairs.map Prod.snd) ≠ none → pairs.length < 2 ^ 31) ∧
        CountsFitPairs pairs
  | _ => True

/-- The counts in the elements of an array are counts in `int`. -/
def JsonValue.CountsFitAll : List JsonValue → Prop
  | [] => True
  | value :: values => value.CountsFit ∧ CountsFitAll values

/-- The counts in the pairs of an object are counts in `int`. -/
def JsonValue.CountsFitPairs : List (Bytes × JsonValue) → Prop
  | [] => True
  | (_, value) :: pairs => value.CountsFit ∧ CountsFitPairs pairs

end

namespace JsonValue

theorem normalAll_eq (values : List JsonValue) : normalAll values = values.map normal := by
  induction values with
  | nil => rfl
  | cons value values ih =>
      change value.normal :: normalAll values = _
      rw [ih]
      rfl

theorem normalPairs_eq (pairs : List (Bytes × JsonValue)) :
    normalPairs pairs = pairs.map fun pair => (pair.1, pair.2.normal) := by
  induction pairs with
  | nil => rfl
  | cons pair pairs ih =>
      change (pair.1, pair.2.normal) :: normalPairs pairs = _
      rw [ih]
      rfl

theorem readableAll_iff {values : List JsonValue} :
    ReadableAll values ↔ ∀ value ∈ values, value.Readable := by
  induction values with
  | nil => exact ⟨fun _ value member => absurd member List.not_mem_nil, fun _ => trivial⟩
  | cons value values ih =>
      rw [List.forall_mem_cons, ← ih]
      exact Iff.rfl

theorem readablePairs_iff {pairs : List (Bytes × JsonValue)} :
    ReadablePairs pairs ↔ ∀ pair ∈ pairs, pair.1.length < 2 ^ 31 ∧ pair.2.Readable := by
  induction pairs with
  | nil => exact ⟨fun _ pair member => absurd member List.not_mem_nil, fun _ => trivial⟩
  | cons pair pairs ih =>
      rw [List.forall_mem_cons, ← ih, and_assoc]
      exact Iff.rfl

theorem countsFitAll_iff {values : List JsonValue} :
    CountsFitAll values ↔ ∀ value ∈ values, value.CountsFit := by
  induction values with
  | nil => exact ⟨fun _ value member => absurd member List.not_mem_nil, fun _ => trivial⟩
  | cons value values ih =>
      rw [List.forall_mem_cons, ← ih]
      exact Iff.rfl

theorem countsFitPairs_iff {pairs : List (Bytes × JsonValue)} :
    CountsFitPairs pairs ↔ ∀ pair ∈ pairs, pair.2.CountsFit := by
  induction pairs with
  | nil => exact ⟨fun _ pair member => absurd member List.not_mem_nil, fun _ => trivial⟩
  | cons pair pairs ih =>
      rw [List.forall_mem_cons, ← ih]
      exact Iff.rfl

theorem readable_normal : ∀ value : JsonValue, value.normal.Readable ↔ value.Readable
  | .null => Iff.rfl
  | .bool _ => Iff.rfl
  | .real _ => Iff.rfl
  | .str _ => Iff.rfl
  | .int word isUint64 => by
      change (isUint64 && word.msb && word.msb) = false ↔ (isUint64 && word.msb) = false
      rw [Bool.and_assoc, Bool.and_self]
  | .array values => readableAll values
  | .obj pairs => readablePairs pairs
where
  readableAll : ∀ values, ReadableAll (normalAll values) ↔ ReadableAll values
    | [] => Iff.rfl
    | value :: values => and_congr (readable_normal value) (readableAll values)
  readablePairs : ∀ pairs, ReadablePairs (normalPairs pairs) ↔ ReadablePairs pairs
    | [] => Iff.rfl
    | (_, value) :: pairs =>
        and_congr Iff.rfl (and_congr (readable_normal value) (readablePairs pairs))

theorem normal_normal : ∀ value : JsonValue, value.normal.normal = value.normal
  | .null => rfl
  | .bool _ => rfl
  | .real _ => rfl
  | .str _ => rfl
  | .int word isUint64 => by
      change JsonValue.int word (isUint64 && word.msb && word.msb) = .int word (isUint64 && word.msb)
      rw [Bool.and_assoc, Bool.and_self]
  | .array values => congrArg JsonValue.array (all values)
  | .obj pairs => congrArg JsonValue.obj (ofPairs pairs)
where
  all : ∀ values, normalAll (normalAll values) = normalAll values
    | [] => rfl
    | value :: values => congrArg₂ List.cons (normal_normal value) (all values)
  ofPairs : ∀ pairs, normalPairs (normalPairs pairs) = normalPairs pairs
    | [] => rfl
    | (name, value) :: pairs =>
        congrArg₂ List.cons (congrArg (Prod.mk name) (normal_normal value)) (ofPairs pairs)

end JsonValue

namespace UbjsonReader

open UbjsonWriter

/-- Wherever the bytes stand, the read ends behind them with the value. -/
def ReadsBack {α : Type} (read : Nat → Bytes → Int → UbjOutcome α) (written : Bytes)
    (value : α) : Prop :=
  ∀ fuel before behind, (before ++ written ++ behind).length < fuel →
    read fuel (before ++ written ++ behind) before.length =
      .ended value (before.length + written.length)

section Rules

variable {α β : Type} {read : Nat → Bytes → Int → UbjOutcome α} {written : Bytes} {value : α}

theorem readsBack_nil (value : α) : ReadsBack (fun _ _ ptr => .ended value ptr) [] value := by
  intro fuel before behind _
  change _ = UbjOutcome.ended value (_ + 0)
  rw [add_zero]

/-- Two reads read back what was written one behind the other. -/
theorem ReadsBack.andThen {next : α → Nat → Bytes → Int → UbjOutcome β} {nextWritten : Bytes}
    {nextValue : β} (back : ReadsBack read written value)
    (nextBack : ReadsBack (next value) nextWritten nextValue) :
    ReadsBack (fun fuel data ptr => (read fuel data ptr).andThen fun value ptr =>
      next value fuel data ptr) (written ++ nextWritten) nextValue := by
  intro fuel before behind enough
  have first : before ++ (written ++ nextWritten) ++ behind =
      before ++ written ++ (nextWritten ++ behind) := by
    simp only [List.append_assoc]
  have second : before ++ (written ++ nextWritten) ++ behind =
      (before ++ written) ++ nextWritten ++ behind := by
    simp only [List.append_assoc]
  have firstRead := back fuel before (nextWritten ++ behind) (first ▸ enough)
  have secondRead := nextBack fuel (before ++ written) behind (second ▸ enough)
  rw [← first] at firstRead
  rw [← second, List.length_append, Int.natCast_add] at secondRead
  dsimp only
  rw [firstRead]
  change next value fuel _ _ = _
  rw [secondRead, List.length_append, Int.natCast_add, add_assoc]

theorem ReadsBack.map (back : ReadsBack read written value) (convert : α → β) :
    ReadsBack (fun fuel data ptr => (read fuel data ptr).andThen fun value ptr =>
      .ended (convert value) ptr) written (convert value) := by
  intro fuel before behind enough
  have read' := back fuel before behind enough
  dsimp only
  rw [read']
  rfl

/-- The byte under the pointer of a read. -/
theorem readByte_eq (before rest : Bytes) (byte : UInt8) :
    readByte (before ++ byte :: rest) before.length = .ended byte before.length := by
  unfold readByte byteAt
  rw [if_neg (by rw [List.length_append, List.length_cons]; omega),
    if_neg (Int.not_lt.2 (Int.natCast_nonneg _)), Int.toNat_natCast,
    List.getElem?_append_right (le_refl _), Nat.sub_self]
  rfl

theorem readsBack_peek {byte : UInt8} {next : UInt8 → Nat → Bytes → Int → UbjOutcome α}
    {rest : Bytes} (back : ReadsBack (next byte) (byte :: rest) value) :
    ReadsBack (fun fuel data ptr => (readByte data ptr).andThen fun byte ptr =>
      next byte fuel data ptr) (byte :: rest) value := by
  intro fuel before behind enough
  have read := back fuel before behind enough
  dsimp only
  rw [List.append_assoc, List.cons_append] at read ⊢
  rw [readByte_eq]
  exact read

theorem readsBack_readBytes {size : Nat} (length : written.length = size) :
    ReadsBack (fun _ data ptr => readBytes data ptr size) written written := by
  intro fuel before behind _
  subst length
  have whole : (before ++ written ++ behind).length =
      before.length + written.length + behind.length := by
    rw [List.length_append, List.length_append]
  have copied : copyFrom (before ++ written ++ behind) before.length written.length =
      some written := by
    unfold copyFrom
    rw [if_pos (by omega), Int.toNat_natCast, Int.toNat_natCast, List.append_assoc,
      List.drop_left, List.take_left]
  dsimp only
  unfold readBytes
  rw [if_neg (by omega), copied]

theorem readsBack_readMarker {type : UbjType} (defined : type ≠ .undefined) :
    ReadsBack (fun _ data ptr => readMarker data ptr) [type.marker] type := by
  apply readsBack_peek
  intro fuel before behind enough
  rw [UbjType.ofMarker_marker defined]
  rfl

/-- A known type is not read. -/
theorem readsBack_knownType {type : UbjType} (defined : type ≠ .undefined) :
    ReadsBack (fun _ data ptr => readType data type ptr) [] type := by
  intro fuel before behind enough
  unfold readType
  dsimp only
  rw [if_neg defined]
  exact readsBack_nil type fuel before behind enough

theorem readsBack_unknownType {type : UbjType} (defined : type ≠ .undefined) :
    ReadsBack (fun _ data ptr => readType data .undefined ptr) [type.marker] type :=
  readsBack_readMarker defined

end Rules

section Integers

theorem getLE_putLE_mod (value size : Nat) : getLE (putLE value size) = value % 2 ^ (8 * size) := by
  induction size generalizing value with
  | zero => rw [Nat.mul_zero, Nat.pow_zero, Nat.mod_one]; rfl
  | succ size ih =>
      have split : 2 ^ (8 * (size + 1)) = 2 ^ 8 * 2 ^ (8 * size) := by
        rw [← Nat.pow_add, Nat.mul_succ, Nat.add_comm]
      rw [putLE, getLE, ih, UInt8.toNat_ofNat', split, Nat.mod_mul]

variable {type : UbjType} {value : Int}

theorem intValue_putLE (holds : type.Holds value) :
    intValue type (putLE (value % 2 ^ 64).toNat type.size.toNat).reverse = value := by
  unfold intValue
  rw [List.reverse_reverse, getLE_putLE_mod, List.length_reverse, length_putLE]
  cases type with
  | uint8 =>
      rw [if_neg fun signed => signed.1 rfl]
      change ((value % 2 ^ 64).toNat % 2 ^ 8 : Nat) = value
      simp only [UbjType.Holds] at holds
      omega
  | int8 | int16 | int32 | int64 =>
      simp only [UbjType.Holds, UbjType.size, ne_eq, reduceCtorEq, not_false_eq_true, Int.reduceToNat,
        Nat.reduceMul, Nat.reduceSub, true_and] at holds ⊢
      split_ifs <;> omega
  | _ => exact holds.elim

theorem readsBack_intBytes (holds : type.Holds value) :
    ReadsBack (fun _ data ptr =>
      if type.isInt then
        (readBytes data ptr type.size.toNat).andThen fun bytes ptr =>
          .ended (intValue type bytes) ptr
      else .failed .errorInScript)
      (putLE (value % 2 ^ 64).toNat type.size.toNat).reverse value := by
  have back := (@readsBack_readBytes (putLE (value % 2 ^ 64).toNat
    type.size.toNat).reverse _ (by rw [List.length_reverse, length_putLE])).map (intValue type)
  rw [intValue_putLE holds] at back
  simp only [UbjType.isInt_of_holds holds, if_true]
  exact back

theorem defined_of_holds (holds : type.Holds value) : type ≠ .undefined := by
  rintro rfl
  exact holds

theorem readsBack_int64Read (holds : type.Holds value) :
    ReadsBack (fun _ data ptr => int64Read data type ptr) (int64Write value type) value := by
  have back := @ReadsBack.andThen _ _ _ _ _
    (fun type _ data ptr => if type.isInt then
        (readBytes data ptr type.size.toNat).andThen fun bytes ptr =>
          .ended (intValue type bytes) ptr
      else .failed .errorInScript) _ _ (readsBack_knownType (defined_of_holds holds))
    (readsBack_intBytes holds)
  unfold int64Write
  rw [if_neg (defined_of_holds holds)]
  exact back

/-- An integer behind its best type. -/
theorem readsBack_int64Read_unknown (low : -2 ^ 63 ≤ value) (high : value < 2 ^ 63) :
    ReadsBack (fun _ data ptr => int64Read data .undefined ptr) (int64Write value .undefined)
      value := by
  have holds := holds_bestIntType low high
  exact @ReadsBack.andThen _ _ _ _ _
    (fun type _ data ptr => if type.isInt then
        (readBytes data ptr type.size.toNat).andThen fun bytes ptr =>
          .ended (intValue type bytes) ptr
      else .failed .errorInScript) _ _ (readsBack_unknownType (defined_of_holds holds))
    (readsBack_intBytes holds)

theorem narrow_of_lt {count : Nat} (fits : count < 2 ^ 31) : narrow count = count := by
  unfold narrow toInt32
  dsimp only
  have word : (((count : Int) % 2 ^ 64).toNat) % 2 ^ 32 = count := by omega
  rw [word, if_pos fits]

/-- A string behind its length. -/
theorem readsBack_readString {value : Bytes} (fits : value.length < 2 ^ 31) :
    ReadsBack (fun _ data ptr => readString data ptr)
      (int64Write value.length .undefined ++ value) value := by
  have length : ReadsBack (fun _ data ptr => int64Read data .undefined ptr)
      (int64Write value.length .undefined) (value.length : Int) :=
    readsBack_int64Read_unknown (by omega) (by omega)
  refine @ReadsBack.andThen _ _ _ _ _ (fun length _ data ptr =>
    if data.length < ptr + narrow length then .failed .errorInScript
    else if narrow length < 0 then .lengthError
    else readBytes data ptr (narrow length).toNat) _ _ length ?_
  intro fuel before behind enough
  have bytes := @readsBack_readBytes value _ rfl fuel before behind enough
  dsimp only at bytes ⊢
  rw [narrow_of_lt fits, if_neg (by
      rw [List.length_append, List.length_append]
      omega), if_neg (by omega), Int.toNat_natCast]
  exact bytes

end Integers

section Containers

variable {α β γ : Type} {items : List γ} {write : γ → Bytes} {value : γ → α}

theorem readStrongType_stated (before rest : Bytes) {type : UbjType}
    (defined : type ≠ .undefined) :
    readStrongType (before ++ 0x24 :: type.marker :: 0x23 :: rest) before.length =
      .ended (type, 0x23) (before.length + 2) := by
  have atType : before ++ 0x24 :: type.marker :: 0x23 :: rest =
      (before ++ [0x24]) ++ type.marker :: 0x23 :: rest := by
    rw [List.append_assoc]
    rfl
  have atCount : before ++ 0x24 :: type.marker :: 0x23 :: rest =
      (before ++ [0x24, type.marker]) ++ 0x23 :: rest := by
    rw [List.append_assoc]
    rfl
  have typeRead := readByte_eq (before ++ [0x24]) (0x23 :: rest) type.marker
  have countRead := readByte_eq (before ++ [0x24, type.marker]) rest 0x23
  rw [← atType, List.length_append, Int.natCast_add] at typeRead
  rw [← atCount, List.length_append, Int.natCast_add] at countRead
  change readByte _ (before.length + 1) = .ended _ (before.length + 1) at typeRead
  change readByte _ (before.length + 2) = .ended _ (before.length + 2) at countRead
  unfold readStrongType
  rw [readByte_eq]
  change (readMarker _ (before.length + 1)).andThen _ = _
  unfold readMarker
  rw [typeRead]
  dsimp only [UbjOutcome.andThen]
  rw [UbjType.ofMarker_marker defined]
  dsimp only
  rw [add_assoc]
  change (readByte _ (before.length + 2)).andThen _ = _
  rw [countRead]
  rfl

theorem readsBack_readHeader {type : UbjType} (defined : type ≠ .undefined) {count : Nat}
    (fits : count < 2 ^ 31) :
    ReadsBack (fun _ data ptr => readHeader data ptr)
      ([0x24, type.marker, 0x23] ++ int64Write count .undefined) (type, (count : Int)) := by
  intro fuel before behind enough
  have strongType := readStrongType_stated before (int64Write count .undefined ++ behind) defined
  have counted := @readsBack_int64Read_unknown count (by omega) (by omega) fuel
    (before ++ [0x24, type.marker, 0x23]) behind (by simpa using enough)
  have whole : before ++ ([0x24, type.marker, 0x23] ++ int64Write count .undefined) ++ behind =
      before ++ 0x24 :: type.marker :: 0x23 :: (int64Write count .undefined ++ behind) := by
    simp only [List.append_assoc, List.cons_append, List.nil_append]
  have regrouped : before ++ [0x24, type.marker, 0x23] ++ int64Write count .undefined ++ behind =
      before ++ 0x24 :: type.marker :: 0x23 :: (int64Write count .undefined ++ behind) := by
    simp only [List.append_assoc, List.cons_append, List.nil_append]
  rw [regrouped, List.length_append, Int.natCast_add] at counted
  change int64Read _ _ (before.length + 3) =
    .ended _ (before.length + 3 + (int64Write count .undefined).length) at counted
  dsimp only
  rw [whole]
  unfold readHeader
  rw [strongType]
  change (int64Read _ _ (before.length + 2 + 1)).andThen _ = _
  rw [add_assoc]
  change (int64Read _ _ (before.length + 3)).andThen _ = _
  rw [counted, List.length_append, Int.natCast_add, ← add_assoc]
  change UbjOutcome.ended (type, narrow count) _ = _
  rw [narrow_of_lt fits]
  rfl

theorem readHeader_plain (before rest : Bytes) {byte : UInt8} (notStrong : byte ≠ 0x24)
    (notCount : byte ≠ 0x23) :
    readHeader (before ++ byte :: rest) before.length =
      .ended (.undefined, -1) before.length := by
  unfold readHeader readStrongType
  rw [readByte_eq]
  dsimp only [UbjOutcome.andThen]
  rw [if_neg notStrong]
  exact if_neg notCount

theorem readsBack_readCounted {element : Nat → Bytes → Int → UbjOutcome α}
    (back : ∀ item ∈ items, ReadsBack element (write item) (value item)) :
    ReadsBack (fun fuel data ptr => readCounted (element fuel data) items.length ptr)
      (items.flatMap write) (items.map value) := by
  induction items with
  | nil => exact readsBack_nil []
  | cons item items ih =>
      obtain ⟨here, rest⟩ := List.forall_mem_cons.1 back
      exact here.andThen ((ih rest).map (value item :: ·))

/-- The loop up to the end of a container reads all elements back, as none of them starts like
the end. -/
theorem readUntil_eq {close : UInt8} {element : Nat → Bytes → Int → UbjOutcome α}
    (back : ∀ item ∈ items, ReadsBack element (write item) (value item))
    (starts : ∀ item ∈ items, ∃ byte rest, write item = byte :: rest ∧ byte ≠ close)
    {fuel rounds : Nat} {before behind : Bytes}
    (enough : (before ++ items.flatMap write ++ close :: behind).length < fuel)
    (enoughRounds : (items.flatMap write).length < rounds) :
    readUntil (before ++ items.flatMap write ++ close :: behind) close
        (element fuel (before ++ items.flatMap write ++ close :: behind)) rounds before.length =
      .ended (items.map value) (before.length + (items.flatMap write).length + 1) := by
  induction items generalizing before rounds with
  | nil =>
      obtain ⟨rounds, rfl⟩ := Nat.exists_eq_succ_of_ne_zero (Nat.ne_zero_of_lt enoughRounds)
      unfold readUntil
      rw [List.flatMap_nil, List.append_nil, readByte_eq]
      exact if_pos rfl
  | cons item items ih =>
      obtain ⟨rounds, rfl⟩ := Nat.exists_eq_succ_of_ne_zero (Nat.ne_zero_of_lt enoughRounds)
      obtain ⟨here, rest⟩ := List.forall_mem_cons.1 back
      obtain ⟨⟨byte, tail, writeEq, different⟩, restStarts⟩ := List.forall_mem_cons.1 starts
      have whole : before ++ (item :: items).flatMap write ++ close :: behind =
          before ++ write item ++ (items.flatMap write ++ close :: behind) := by
        rw [List.flatMap_cons, List.append_assoc, List.append_assoc, List.append_assoc]
      have moved : before ++ (item :: items).flatMap write ++ close :: behind =
          (before ++ write item) ++ items.flatMap write ++ close :: behind := by
        rw [whole, List.append_assoc (before ++ write item)]
      have first : readByte (before ++ (item :: items).flatMap write ++ close :: behind)
          before.length = .ended byte before.length := by
        rw [whole, writeEq, List.append_assoc]
        exact readByte_eq _ _ _
      have read := here fuel before (items.flatMap write ++ close :: behind) (whole ▸ enough)
      have longer : ((item :: items).flatMap write).length =
          (write item).length + (items.flatMap write).length := by
        rw [List.flatMap_cons, List.length_append]
      have nonempty : 0 < (write item).length := by
        rw [writeEq]
        exact Nat.succ_pos _
      have others : readUntil ((before ++ write item) ++ items.flatMap write ++ close :: behind) close
          (element fuel ((before ++ write item) ++ items.flatMap write ++ close :: behind)) rounds
          (before ++ write item).length = .ended (items.map value)
            ((before ++ write item).length + (items.flatMap write).length + 1) :=
        ih rest restStarts (moved ▸ enough) (by omega)
      rw [← whole] at read
      rw [← moved, List.length_append, Int.natCast_add] at others
      unfold readUntil
      rw [first]
      change (if byte = close then _ else _) = _
      rw [if_neg different, read]
      dsimp only [UbjOutcome.andThen]
      rw [others, longer, Int.natCast_add, ← add_assoc]
      rfl

/-- The bytes of a container whose elements are written. -/
def containerBytes (close : UInt8) (count : Nat) (stated : Option UbjType) (elements : Bytes) :
    Bytes :=
  match stated with
  | some type => [0x24, type.marker, 0x23] ++ int64Write count .undefined ++ elements
  | none => elements ++ [close]

theorem containerWrite_bytes {close : UInt8} {count : Nat} {stated : Option UbjType}
    {elements : Written} (succeeds : elements.err = none) :
    (containerWrite close count stated elements).bytes =
      containerBytes close count stated elements.bytes := by
  cases stated with
  | some type => exact Written.andThen_bytes rfl
  | none => exact Written.andThen_bytes succeeds

/-- A container reads back if its elements do, behind a stated type or with their markers. -/
theorem readsBack_container {close : UInt8} {stated : Option UbjType}
    {element : UbjType → Nat → Bytes → Int → UbjOutcome α}
    (back : ∀ item ∈ items, ReadsBack (element (stated.getD .undefined)) (write item)
      (value item))
    (defined : ∀ type, stated = some type → type ≠ .undefined)
    (fits : stated ≠ none → items.length < 2 ^ 31)
    (starts : stated = none → ∀ item ∈ items, ∃ byte rest, write item = byte :: rest ∧
      byte ≠ close ∧ byte ≠ 0x24 ∧ byte ≠ 0x23)
    (closeNotStrong : close ≠ 0x24) (closeNotCount : close ≠ 0x23) (convert : List α → β) :
    ReadsBack (fun fuel data ptr => (readHeader data ptr).andThen fun header ptr =>
        (readElements fuel data close (element header.1 fuel data) header.2 ptr).andThen
          fun values ptr => .ended (convert values) ptr)
      (containerBytes close items.length stated (items.flatMap write))
      (convert (items.map value)) := by
  cases stated with
  | some type =>
      have header := readsBack_readHeader (defined type rfl) (fits (Option.some_ne_none _))
      have elements : ReadsBack (fun fuel data ptr =>
          readElements fuel data close (element type fuel data) (items.length : Int) ptr)
          (items.flatMap write) (items.map value) := by
        intro fuel before behind enough
        have counted := readsBack_readCounted back fuel before behind enough
        unfold readElements
        dsimp only
        rw [if_pos (Int.natCast_nonneg _), Int.toNat_natCast]
        exact counted
      exact @ReadsBack.andThen _ _ _ _ _ (fun header fuel data ptr =>
        (readElements fuel data close (element header.1 fuel data) header.2 ptr).andThen
          fun values ptr => .ended (convert values) ptr) _ _ header (elements.map convert)
  | none =>
      intro fuel before behind enough
      have plain := starts rfl
      have whole : before ++ containerBytes close items.length none (items.flatMap write) ++
          behind = before ++ items.flatMap write ++ close :: behind := by
        change before ++ (items.flatMap write ++ [close]) ++ behind = _
        simp only [List.append_assoc, List.cons_append, List.nil_append]
      rw [whole] at enough ⊢
      have header : readHeader (before ++ items.flatMap write ++ close :: behind) before.length =
          .ended (.undefined, -1) before.length := by
        cases items with
        | nil =>
            rw [List.flatMap_nil, List.append_nil]
            exact readHeader_plain _ _ closeNotStrong closeNotCount
        | cons item items =>
            obtain ⟨byte, rest, writeEq, -, notStrong, notCount⟩ := plain item (List.mem_cons_self ..)
            rw [List.flatMap_cons, writeEq, List.append_assoc]
            exact readHeader_plain _ _ notStrong notCount
      have shorter : (items.flatMap write).length < fuel := by
        rw [List.length_append, List.length_append] at enough
        omega
      have elements := readUntil_eq back (fun item member => by
        obtain ⟨byte, rest, writeEq, different, -⟩ := plain item member
        exact ⟨byte, rest, writeEq, different⟩) enough shorter
      change readUntil _ close (element .undefined fuel _) fuel before.length = _ at elements
      have length : ((containerBytes close items.length none (items.flatMap write)).length : Int) =
          (items.flatMap write).length + 1 := by
        change ((items.flatMap write ++ [close]).length : Int) = _
        rw [List.length_append]
        rfl
      dsimp only
      rw [header, length, ← add_assoc]
      change (readElements fuel _ close (element .undefined fuel _) (-1) before.length).andThen _ = _
      unfold readElements
      rw [if_neg (by decide), elements]
      rfl

end Containers

section Values

variable {depth : Nat} {type : UbjType}

theorem marker_ownType (value : JsonValue) :
    (ownType value).1.marker ≠ 0x5d ∧ (ownType value).1.marker ≠ 0x24 ∧
      (ownType value).1.marker ≠ 0x23 := by
  cases value with
  | bool value => cases value <;> decide
  | int word isUint64 =>
      have isInt := UbjType.isInt_of_holds (holds_ownType word isUint64)
      generalize (ownType (.int word isUint64)).1 = type at isInt ⊢
      cases type with
      | int8 | uint8 | int16 | int32 | int64 => decide
      | _ => cases isInt
  | str value =>
      rcases ownType_str value with ⟨-, -, same⟩ | same <;> rw [same] <;> decide
  | null => decide
  | real _ =>
      have other : UbjType.float64.marker ≠ 0x5d ∧ UbjType.float64.marker ≠ 0x24 ∧
          UbjType.float64.marker ≠ 0x23 := by
        decide
      exact other
  | array _ =>
      have other : UbjType.array.marker ≠ 0x5d ∧ UbjType.array.marker ≠ 0x24 ∧
          UbjType.array.marker ≠ 0x23 := by
        decide
      exact other
  | obj _ =>
      have other : UbjType.object.marker ≠ 0x5d ∧ UbjType.object.marker ≠ 0x24 ∧
          UbjType.object.marker ≠ 0x23 := by
        decide
      exact other

theorem int64Write_starts {value : Int} (low : -2 ^ 63 ≤ value) (high : value < 2 ^ 63) :
    ∃ byte rest, int64Write value .undefined = byte :: rest ∧ byte ≠ 0x7d ∧ byte ≠ 0x24 ∧
      byte ≠ 0x23 := by
  have isInt := UbjType.isInt_of_holds (holds_bestIntType low high)
  unfold int64Write
  rw [if_pos rfl]
  refine ⟨(bestIntType value).1.marker, _, rfl, ?_⟩
  generalize (bestIntType value).1 = type at isInt
  cases type with
  | int8 | uint8 | int16 | int32 | int64 => decide
  | _ => cases isInt

/-- The values of a known type, or with a marker, read back within the depth. -/
def ReadsBackWithin (depth : Nat) : Prop :=
  ∀ knownType value, (knownType = .undefined ∨ Has knownType value) → value.nesting ≤ depth →
    value.Readable → value.CountsFit →
    ReadsBack (fun fuel data ptr => readInternal fuel data depth knownType ptr)
      (writeInternal depth knownType value).bytes value.normal

/-- The element type of a container, with the choice of its form. -/
theorem has_stated {values : List JsonValue} {value : JsonValue} (member : value ∈ values) :
    (statedType values).getD .undefined = .undefined ∨
      Has ((statedType values).getD .undefined) value := by
  cases stated : statedType values with
  | none => exact .inl rfl
  | some type => exact .inr ((has_statedType stated).2 value member)

theorem readsBack_array (inner : ReadsBackWithin depth) (room : depth ≠ 0)
    {values : List JsonValue} (shallow : ∀ value ∈ values, value.nesting ≤ depth)
    (readable : ∀ value ∈ values, value.Readable)
    (fits : statedType values ≠ none → values.length < 2 ^ 31)
    (allFit : ∀ value ∈ values, value.CountsFit) :
    ReadsBack (fun fuel data ptr => readPayload fuel data depth (readInternal fuel data depth)
        .array ptr)
      (writePayload depth (writeInternal depth) .array (.array values)).bytes
      (.array (values.map JsonValue.normal)) := by
  obtain ⟨shallower, rfl⟩ := Nat.exists_eq_succ_of_ne_zero room
  have succeeds : ∀ value ∈ values, (writeInternal (shallower + 1)
      ((statedType values).getD .undefined) value).err = none := fun value member =>
    (writeInternal_err _ _ value).2 (shallow value member)
  have bytes : (writePayload (shallower + 1) (writeInternal (shallower + 1)) .array
      (.array values)).bytes = containerBytes 0x5d values.length (statedType values)
        (values.flatMap fun value => (writeInternal (shallower + 1)
          ((statedType values).getD .undefined) value).bytes) := by
    rw [← writeAll_bytes succeeds]
    exact containerWrite_bytes (writeAll_err.2 succeeds)
  rw [bytes]
  refine @readsBack_container _ _ _ _ _ _ _ _ (fun type fuel data ptr =>
    readInternal fuel data (shallower + 1) type ptr) ?_ ?_ fits ?_ (by decide) (by decide)
    JsonValue.array
  · exact fun value member => inner _ value (has_stated member) (shallow value member)
      (readable value member) (allFit value member)
  · exact fun type stated => (has_statedType stated).1
  · intro plain value member
    refine ⟨(ownType value).1.marker, (writePayload shallower (writeInternal shallower)
      (ownType value).1 value).bytes, ?_, marker_ownType value⟩
    rw [plain]
    change ((Written.done [(ownType value).1.marker]).andThen _).bytes = _
    exact Written.andThen_bytes rfl

theorem readsBack_obj (inner : ReadsBackWithin depth) (room : depth ≠ 0)
    {pairs : List (Bytes × JsonValue)} (shallow : ∀ pair ∈ pairs, pair.2.nesting ≤ depth)
    (readable : ∀ pair ∈ pairs, pair.1.length < 2 ^ 31 ∧ pair.2.Readable)
    (fits : statedType (pairs.map Prod.snd) ≠ none → pairs.length < 2 ^ 31)
    (allFit : ∀ pair ∈ pairs, pair.2.CountsFit) :
    ReadsBack (fun fuel data ptr => readPayload fuel data depth (readInternal fuel data depth)
        .object ptr)
      (writePayload depth (writeInternal depth) .object (.obj pairs)).bytes
      (.obj (pairs.map fun pair => (pair.1, pair.2.normal))) := by
  obtain ⟨shallower, rfl⟩ := Nat.exists_eq_succ_of_ne_zero room
  have stated := fun pair (member : pair ∈ pairs) =>
    has_stated (List.mem_map_of_mem (f := Prod.snd) member)
  generalize typeEq : (statedType (pairs.map Prod.snd)).getD .undefined = type at stated
  have name : ∀ pair : Bytes × JsonValue,
      (writeInternal (shallower + 1) .string (.str pair.1)).err = none ∧
      (writeInternal (shallower + 1) .string (.str pair.1)).bytes =
        int64Write pair.1.length .undefined ++ pair.1 := fun pair => ⟨rfl, rfl⟩
  have succeeds : ∀ pair ∈ pairs, ((writeInternal (shallower + 1) .string (.str pair.1)).andThen
      (writeInternal (shallower + 1) type pair.2)).err = none := fun pair member =>
    Written.andThen_err.2 ⟨(name pair).1, (writeInternal_err _ _ pair.2).2 (shallow pair member)⟩
  have pairBytes : ∀ pair : Bytes × JsonValue,
      ((writeInternal (shallower + 1) .string (.str pair.1)).andThen
        (writeInternal (shallower + 1) type pair.2)).bytes =
      (int64Write pair.1.length .undefined ++ pair.1) ++
        (writeInternal (shallower + 1) type pair.2).bytes := fun pair =>
    Written.andThen_bytes (name pair).1
  have bytes : (writePayload (shallower + 1) (writeInternal (shallower + 1)) .object
      (.obj pairs)).bytes = containerBytes 0x7d pairs.length (statedType (pairs.map Prod.snd))
        (pairs.flatMap fun pair => ((writeInternal (shallower + 1) .string (.str pair.1)).andThen
          (writeInternal (shallower + 1) type pair.2)).bytes) := by
    rw [← writeAll_bytes succeeds, ← typeEq]
    rw [← typeEq] at succeeds
    exact containerWrite_bytes (writeAll_err.2 succeeds)
  rw [bytes]
  refine @readsBack_container _ _ _ _ _ _ _ _ (fun type fuel data ptr =>
    (readString data ptr).andThen fun name ptr =>
      (readInternal fuel data (shallower + 1) type ptr).andThen fun value ptr =>
        .ended (name, value) ptr) ?_ ?_ fits ?_ (by decide) (by decide) JsonValue.obj
  · intro pair member
    rw [pairBytes, typeEq]
    refine @ReadsBack.andThen _ _ _ _ _
      (fun name fuel data ptr => (readInternal fuel data (shallower + 1) type ptr).andThen
        fun value ptr => .ended (name, value) ptr) _ _
      (readsBack_readString (readable pair member).1) ?_
    exact (inner type pair.2 (stated pair member) (shallow pair member) (readable pair member).2
      (allFit pair member)).map (Prod.mk pair.1)
  · exact fun type stated => (has_statedType stated).1
  · intro plain pair member
    have short := (readable pair member).1
    obtain ⟨byte, rest, starts, different⟩ : ∃ byte rest,
        int64Write pair.1.length .undefined = byte :: rest ∧ byte ≠ 0x7d ∧ byte ≠ 0x24 ∧
          byte ≠ 0x23 :=
      int64Write_starts (by omega) (by omega)
    refine ⟨byte, rest ++ pair.1 ++ (writeInternal (shallower + 1) type pair.2).bytes, ?_,
      different⟩
    rw [pairBytes, starts]
    rfl

theorem readsBack_payload (inner : ReadsBackWithin depth) {value : JsonValue}
    (has : Has type value) (shallow : value.nesting ≤ depth + 1) (readable : value.Readable)
    (fits : value.CountsFit) :
    ReadsBack (fun fuel data ptr => readPayload fuel data depth (readInternal fuel data depth)
        type ptr)
      (writePayload depth (writeInternal depth) type value).bytes value.normal := by
  cases value with
  | null =>
      cases has
      exact readsBack_nil _
  | bool value =>
      cases has
      cases value <;> exact readsBack_nil _
  | int word isUint64 =>
      have holds : type.Holds word.toInt := by
        cases has with
        | own => exact holds_ownType word isUint64
        | int _ holds => exact holds
      have back := (readsBack_int64Read holds).map
        fun value => JsonValue.int (BitVec.ofInt 64 value) false
      change (isUint64 && word.msb) = false at readable
      rw [BitVec.ofInt_toInt] at back
      change ReadsBack _ (int64Write word.toInt type) (JsonValue.int word (isUint64 && word.msb))
      rw [readable]
      cases type with
      | int8 | uint8 | int16 | int32 | int64 => exact back
      | _ => exact holds.elim
  | real word =>
      cases has
      have back := (@readsBack_readBytes (putLE word.toNat 8).reverse 8
        (by rw [List.length_reverse, length_putLE])).map
          fun bytes => JsonValue.real (BitVec.ofNat 64 (getLE bytes.reverse))
      rw [List.reverse_reverse, getLE_putLE word.isLt, BitVec.ofNat_toNat, BitVec.setWidth_eq]
        at back
      exact back
  | str value =>
      have ofString : type = .string → ReadsBack (fun fuel data ptr =>
          readPayload fuel data depth (readInternal fuel data depth) type ptr)
          (writePayload depth (writeInternal depth) type (.str value)).bytes (.str value) := by
        rintro rfl
        exact (readsBack_readString readable).map JsonValue.str
      cases has with
      | own =>
          rcases ownType_str value with ⟨byte, rfl, isChar⟩ | isString
          · rw [isChar]
            exact (@readsBack_readBytes _ 1 rfl).map JsonValue.str
          · exact ofString isString
      | string => exact ofString rfl
  | array values =>
      cases has
      change 1 + max 1 (JsonValue.nestingAll values) ≤ depth + 1 at shallow
      change _ ∧ _ at fits
      change ReadsBack _ _ (JsonValue.array (JsonValue.normalAll values))
      rw [JsonValue.normalAll_eq]
      exact readsBack_array inner (by omega) (JsonValue.nestingAll_le.1 (by omega))
        (JsonValue.readableAll_iff.1 readable) fits.1 (JsonValue.countsFitAll_iff.1 fits.2)
  | obj pairs =>
      cases has
      change 1 + max 1 (JsonValue.nestingPairs pairs) ≤ depth + 1 at shallow
      change _ ∧ _ at fits
      change ReadsBack _ _ (JsonValue.obj (JsonValue.normalPairs pairs))
      rw [JsonValue.normalPairs_eq]
      exact readsBack_obj inner (by omega) (JsonValue.nestingPairs_le.1 (by omega))
        (JsonValue.readablePairs_iff.1 readable) fits.1 (JsonValue.countsFitPairs_iff.1 fits.2)

theorem readsBackWithin (depth : Nat) : ReadsBackWithin depth := by
  induction depth with
  | zero =>
      intro knownType value _ shallow
      cases value <;> simp [JsonValue.nesting] at shallow
  | succ depth ih =>
      intro knownType value has shallow readable fits
      unfold writeInternal
      split
      · rename_i isUndefined
        subst isUndefined
        rw [Written.andThen_bytes rfl]
        exact @ReadsBack.andThen _ _ _ _ _
          (fun type fuel data ptr =>
            readPayload fuel data depth (readInternal fuel data depth) type ptr) _ _
          (readsBack_unknownType (ownType_ne_undefined value))
          (readsBack_payload ih (.own value) shallow readable fits)
      · rename_i defined
        have hasType := has.resolve_left defined
        exact @ReadsBack.andThen _ _ _ _ _
          (fun type fuel data ptr =>
            readPayload fuel data depth (readInternal fuel data depth) type ptr) _ _
          (readsBack_knownType defined)
          (readsBack_payload ih hasType shallow readable fits)

end Values

section Results

/-- A condition on the value of a read, if it has one. -/
def Yields {α : Type} (condition : α → Prop) : UbjOutcome α → Prop
  | .ended value _ => condition value
  | _ => True

variable {α β : Type}

theorem yields_any (outcome : UbjOutcome α) : Yields (fun _ => True) outcome := by
  cases outcome <;> trivial

theorem Yields.andThen {outcome : UbjOutcome α} {next : α → Int → UbjOutcome β}
    {condition : α → Prop} {nextCondition : β → Prop} (yields : Yields condition outcome)
    (nextYields : ∀ value ptr, condition value → Yields nextCondition (next value ptr)) :
    Yields nextCondition (outcome.andThen next) := by
  cases outcome with
  | ended value ptr => exact nextYields value ptr yields
  | _ => trivial

theorem yields_readBytes (data : Bytes) (ptr : Int) (size : Nat) :
    Yields (fun bytes => bytes.length ≤ size) (readBytes data ptr size) := by
  unfold readBytes copyFrom
  split
  · trivial
  · split
    · trivial
    · rename_i bytes copied
      split at copied
      · rw [← Option.some.inj copied]
        exact (List.length_take_le _ _).trans (le_of_eq (Int.toNat_natCast size))
      · cases copied

theorem narrow_lt (value : Int) : narrow value < 2 ^ 31 := by
  unfold narrow toInt32
  dsimp only
  split <;> omega

theorem yields_readString (data : Bytes) (ptr : Int) :
    Yields (fun value => value.length < 2 ^ 31) (readString data ptr) := by
  refine (yields_any _).andThen ?_
  intro length ptr _
  dsimp only
  split
  · trivial
  · split
    · trivial
    · rename_i notNegative
      have narrowed := narrow_lt length
      have bytes := yields_readBytes data ptr (narrow length).toNat
      generalize readBytes data ptr (narrow length).toNat = outcome at bytes ⊢
      cases outcome with
      | ended value place =>
          change value.length ≤ _ at bytes
          change value.length < 2 ^ 31
          omega
      | _ => trivial

theorem yields_readElements {condition : α → Prop} {element : Int → UbjOutcome α}
    (yields : ∀ ptr, Yields condition (element ptr)) (fuel : Nat) (data : Bytes) (close : UInt8)
    (count ptr : Int) :
    Yields (fun values => ∀ value ∈ values, condition value)
      (readElements fuel data close element count ptr) := by
  have cons : ∀ value values ptr, condition value → (∀ other ∈ values, condition other) →
      Yields (fun values => ∀ value ∈ values, condition value)
        (UbjOutcome.ended (value :: values) ptr) := fun value values ptr here rest =>
    List.forall_mem_cons.2 ⟨here, rest⟩
  unfold readElements
  split
  · generalize count.toNat = rounds
    induction rounds generalizing ptr with
    | zero => exact fun value member => absurd member List.not_mem_nil
    | succ rounds ih =>
        refine (yields ptr).andThen fun value ptr here => (ih ptr).andThen ?_
        exact fun values ptr rest => cons value values ptr here rest
  · induction fuel generalizing ptr with
    | zero => trivial
    | succ fuel ih =>
        refine (yields_any _).andThen fun byte ptr _ => ?_
        split
        · exact fun value member => absurd member List.not_mem_nil
        · refine (yields ptr).andThen fun value ptr here => (ih ptr).andThen ?_
          exact fun values ptr rest => cons value values ptr here rest

theorem yields_readInternal (fuel : Nat) (data : Bytes) (depth : Nat) (knownType : UbjType)
    (ptr : Int) : Yields JsonValue.Readable (readInternal fuel data depth knownType ptr) := by
  induction depth generalizing knownType ptr with
  | zero => trivial
  | succ depth ih =>
      refine (yields_any _).andThen fun type ptr _ => ?_
      cases type with
      | int8 | uint8 | int16 | int32 | int64 => exact (yields_any _).andThen fun _ _ _ => rfl
      | float32 | float64 => exact (yields_any _).andThen fun _ _ _ => trivial
      | char =>
          refine (yields_readBytes data ptr 1).andThen fun bytes ptr short => ?_
          exact short.trans_lt (by decide)
      | string | highPrecision =>
          exact (yields_readString data ptr).andThen fun value ptr short => short
      | array =>
          change Yields _ (if depth = 0 then _ else _)
          split
          · trivial
          · refine (yields_any _).andThen fun header ptr _ => ?_
            refine (yields_readElements (ih header.1) fuel data 0x5d header.2 ptr).andThen ?_
            exact fun values ptr all => JsonValue.readableAll_iff.2 all
      | object =>
          change Yields _ (if depth = 0 then _ else _)
          split
          · trivial
          · refine (yields_any _).andThen fun header ptr _ => ?_
            have pairs : ∀ ptr, Yields (fun pair : Bytes × JsonValue =>
                pair.1.length < 2 ^ 31 ∧ pair.2.Readable)
                ((readString data ptr).andThen fun name ptr =>
                  (readInternal fuel data depth header.1 ptr).andThen fun value ptr =>
                    .ended (name, value) ptr) := fun ptr =>
              (yields_readString data ptr).andThen fun name ptr short =>
                (ih header.1 ptr).andThen fun value ptr readable => ⟨short, readable⟩
            refine (yields_readElements pairs fuel data 0x7d header.2 ptr).andThen ?_
            exact fun values ptr all => JsonValue.readablePairs_iff.2 all
      | undefined | nullType | noop | boolTrue | boolFalse | strongType | count => trivial

end Results

/-- What is written for a value within a limit is read to its end within the same limit, and
gives an equal value. -/
def ReadsBackWhole (value : JsonValue) (maxDepth : Nat) : Prop :=
  ∃ fuel result, ubjsonRead fuel (ubjsonWrite value maxDepth).bytes maxDepth =
      .ended result (ubjsonWrite value maxDepth).bytes.length ∧
    result.normal = value.normal

/-- A value is written exactly within the limits that its depth fits, and then reads back. -/
def RoundTrips (value : JsonValue) (maxDepth : Nat) : Prop :=
  ((ubjsonWrite value maxDepth).err = none ↔ value.nesting ≤ maxDepth) ∧
    ((ubjsonWrite value maxDepth).err = none → ReadsBackWhole value maxDepth)

theorem readsBackWhole {value : JsonValue} {maxDepth : Nat} (shallow : value.nesting ≤ maxDepth)
    (readable : value.Readable) (fits : value.CountsFit) : ReadsBackWhole value maxDepth := by
  have back := readsBackWithin maxDepth .undefined value (.inl rfl) shallow readable fits
    ((ubjsonWrite value maxDepth).bytes.length + 1) [] []
  change ([] ++ (ubjsonWrite value maxDepth).bytes ++ []).length < _ → readInternal _
    ([] ++ (ubjsonWrite value maxDepth).bytes ++ []) _ _ _ = _ at back
  rw [List.nil_append, List.append_nil] at back
  refine ⟨(ubjsonWrite value maxDepth).bytes.length + 1, value.normal, ?_, value.normal_normal⟩
  unfold ubjsonRead
  rw [if_neg (by omega), Int.toNat_natCast]
  have ended := back (Nat.lt_succ_self _)
  rw [List.length_nil] at ended
  change readInternal _ _ _ _ 0 = .ended _ (0 + _) at ended
  rw [zero_add] at ended
  exact ended

theorem readable_of_readsBackWhole {value : JsonValue} {maxDepth : Nat}
    (back : ReadsBackWhole value maxDepth) : value.Readable := by
  obtain ⟨fuel, result, read, same⟩ := back
  have readable : Yields JsonValue.Readable
      (ubjsonRead fuel (ubjsonWrite value maxDepth).bytes maxDepth) := yields_readInternal ..
  rw [read] at readable
  rw [← value.readable_normal, ← same, result.readable_normal]
  exact readable

/-- For every JSON value and limit: the round trip holds if the integers of a value that fits
the limit are signed 64-bit numbers and the lengths and stated counts fit into `int`; and it
does not hold if an integer is no signed 64-bit number or a length does not fit. -/
theorem ubjson_roundTrips (value : JsonValue) (maxDepth : Nat) :
    ((value.nesting ≤ maxDepth → value.Readable ∧ value.CountsFit) →
      RoundTrips value maxDepth) ∧
    (RoundTrips value maxDepth → value.nesting ≤ maxDepth → value.Readable) := by
  have succeeds := writeInternal_err maxDepth .undefined value
  refine ⟨fun fits => ⟨succeeds, fun written => ?_⟩, ?_⟩
  · have shallow := succeeds.1 written
    exact readsBackWhole shallow (fits shallow).1 (fits shallow).2
  · rintro ⟨-, back⟩ shallow
    exact readable_of_readsBackWhole (back (succeeds.2 shallow))

/-- The greatest unsigned integer reads back as -1. -/
theorem greatestUint64_reads_back_negative :
    ubjsonWrite (.int (BitVec.allOnes 64) true) 1 = ⟨[0x69, 0xff], none⟩ ∧
      (∀ fuel, ubjsonRead fuel [0x69, 0xff] 1 = .ended (.int (BitVec.ofInt 64 (-1)) false) 2) ∧
      ¬ RoundTrips (.int (BitVec.allOnes 64) true) 1 := by
  refine ⟨by decide +kernel, fun fuel => by rfl, fun trips => ?_⟩
  have readable := readable_of_readsBackWhole (trips.2 rfl)
  change (true && (BitVec.allOnes 64).msb) = false at readable
  exact absurd readable (by decide)

end UbjsonReader

end HdacNode
