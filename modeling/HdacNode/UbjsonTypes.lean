import HdacNode.UbjsonWriter

/-!
# Types of written JSON values

The element type that a container states is one that all its elements have, where an integer
has every integer type that holds it.  A write fails exactly when the value is nested deeper
than the limit.
-/

namespace HdacNode

mutual

/-- The depth to which a value is nested.  A container needs room for elements. -/
def JsonValue.nesting : JsonValue → Nat
  | .array values => 1 + max 1 (nestingAll values)
  | .obj pairs => 1 + max 1 (nestingPairs pairs)
  | _ => 1

/-- The depth of the elements of an array. -/
def JsonValue.nestingAll : List JsonValue → Nat
  | [] => 0
  | value :: values => max value.nesting (nestingAll values)

/-- The depth of the pairs of an object. -/
def JsonValue.nestingPairs : List (Bytes × JsonValue) → Nat
  | [] => 0
  | (_, value) :: pairs => max value.nesting (nestingPairs pairs)

end

theorem JsonValue.nestingAll_le {values : List JsonValue} {depth : Nat} :
    nestingAll values ≤ depth ↔ ∀ value ∈ values, value.nesting ≤ depth := by
  induction values with
  | nil => exact ⟨fun _ value member => absurd member List.not_mem_nil, fun _ => Nat.zero_le _⟩
  | cons value values ih =>
      rw [List.forall_mem_cons, ← ih]
      exact Nat.max_le

theorem JsonValue.nestingPairs_le {pairs : List (Bytes × JsonValue)} {depth : Nat} :
    nestingPairs pairs ≤ depth ↔ ∀ pair ∈ pairs, pair.2.nesting ≤ depth := by
  induction pairs with
  | nil => exact ⟨fun _ pair member => absurd member List.not_mem_nil, fun _ => Nat.zero_le _⟩
  | cons pair pairs ih =>
      rw [List.forall_mem_cons, ← ih]
      exact Nat.max_le

namespace UbjType

/-- The integer fits into the type. -/
def Holds : UbjType → Int → Prop
  | .int8, value => -2 ^ 7 ≤ value ∧ value < 2 ^ 7
  | .uint8, value => 0 ≤ value ∧ value < 2 ^ 8
  | .int16, value => -2 ^ 15 ≤ value ∧ value < 2 ^ 15
  | .int32, value => -2 ^ 31 ≤ value ∧ value < 2 ^ 31
  | .int64, value => -2 ^ 63 ≤ value ∧ value < 2 ^ 63
  | _, _ => False

theorem isInt_of_holds {type : UbjType} {value : Int} (holds : type.Holds value) :
    type.isInt = true := by
  cases type with
  | int8 | uint8 | int16 | int32 | int64 => rfl
  | _ => exact holds.elim

/-- Only the unsigned type does not hold what a smaller type holds. -/
theorem Holds.mono {type larger : UbjType} {value : Int} (holds : type.Holds value)
    (isInt : larger.isInt = true) (le : type.index ≤ larger.index)
    (signed : larger = .uint8 → 0 ≤ value) : larger.Holds value := by
  have smallInt := isInt_of_holds holds
  cases type <;> cases smallInt <;> cases larger <;> cases isInt <;>
    first
    | exact absurd le (by decide)
    | (have nonneg := signed
       simp only [Holds, true_implies, reduceCtorEq, false_implies] at holds nonneg ⊢
       omega)

end UbjType

namespace UbjsonWriter

open UbjType

/-- The best type of an integer holds it. -/
theorem holds_bestIntType {value : Int} (low : -2 ^ 63 ≤ value) (high : value < 2 ^ 63) :
    (bestIntType value).1.Holds value := by
  unfold bestIntType bestNegativeIntType
  split_ifs <;> simp only [Holds] <;> omega

/-- The flag `not_uint8` stays clear only for a byte. -/
theorem byte_of_bestIntType {value : Int} (clear : (bestIntType value).2 = false) :
    UbjType.uint8.Holds value := by
  unfold bestIntType at clear
  split_ifs at clear <;> simp only [Holds] <;> omega

theorem holds_ownType (word : BitVec 64) (isUint64 : Bool) :
    (ownType (.int word isUint64)).1.Holds word.toInt :=
  holds_bestIntType (BitVec.le_toInt word) BitVec.toInt_lt

/-- A value has its own type, an integer each type that holds it, and a string of one character
also the type of strings. -/
inductive Has : UbjType → JsonValue → Prop
  | own (value : JsonValue) : Has (ownType value).1 value
  | int {type : UbjType} {word : BitVec 64} (isUint64 : Bool) (holds : type.Holds word.toInt) :
      Has type (.int word isUint64)
  | string (value : Bytes) : Has .string (.str value)

theorem ownType_str (value : Bytes) :
    (∃ byte, value = [byte] ∧ (ownType (.str value)).1 = .char) ∨
      (ownType (.str value)).1 = .string := by
  match value with
  | [] => exact .inr rfl
  | [byte] =>
      change (∃ other, [byte] = [other] ∧ (if byte < 0x80 then UbjType.char else .string) = .char) ∨
        (if byte < 0x80 then UbjType.char else .string) = .string
      split
      · exact .inl ⟨byte, rfl, rfl⟩
      · exact .inr rfl
  | _ :: _ :: _ => exact .inr rfl

theorem ownType_ne_undefined (value : JsonValue) : (ownType value).1 ≠ .undefined := by
  cases value with
  | bool value => cases value <;> decide
  | int word isUint64 =>
      intro undefined
      have holds := holds_ownType word isUint64
      rw [undefined] at holds
      exact holds
  | str value =>
      rcases ownType_str value with ⟨-, -, same⟩ | same <;> rw [same] <;> decide
  | null | real _ | array _ | obj _ =>
      intro undefined
      cases undefined

theorem int_of_ownType {value : JsonValue} (isInt : (ownType value).1.isInt = true) :
    ∃ word isUint64, value = .int word isUint64 := by
  cases value with
  | int word isUint64 => exact ⟨word, isUint64, rfl⟩
  | bool value => cases value <;> cases isInt
  | str value =>
      rcases ownType_str value with ⟨-, -, same⟩ | same <;> rw [same] at isInt <;> cases isInt
  | _ => cases isInt

section Scan

/-- The element has the last type, or a smaller integer type, and its bit of `not_uint8` has
been noted. -/
def TypeScan.Covers (scan : TypeScan) (value : JsonValue) : Prop :=
  (scan.lastType = (ownType value).1 ∨ scan.lastType.isInt = true ∧
    (ownType value).1.isInt = true ∧ (ownType value).1.index ≤ scan.lastType.index) ∧
  ((ownType value).2 = true → scan.notUint8 = true)

theorem mergedType_cases {lastType type merged : UbjType}
    (eq : mergedType lastType type = some merged) :
    (merged = type ∨ merged.isInt = true ∧ type.isInt = true ∧ type.index ≤ merged.index) ∧
      (lastType = .undefined ∨ merged = lastType ∨
        merged.isInt = true ∧ lastType.isInt = true ∧ lastType.index ≤ merged.index) := by
  unfold mergedType at eq
  split_ifs at eq with different both less
  · obtain ⟨lastInt, isInt⟩ := Bool.and_eq_true_iff.1 both
    cases eq
    exact ⟨.inr ⟨lastInt, isInt, less.le⟩, .inr (.inl rfl)⟩
  · obtain ⟨lastInt, isInt⟩ := Bool.and_eq_true_iff.1 both
    cases eq
    exact ⟨.inl rfl, .inr (.inr ⟨isInt, lastInt, not_lt.1 less⟩)⟩
  · cases eq
    refine ⟨.inl rfl, ?_⟩
    by_cases undefined : lastType = .undefined
    · exact .inl undefined
    · exact .inr (.inl (not_not.1 fun other => different ⟨undefined, other⟩))

theorem TypeScan.step_covers {scan next : TypeScan} {value : JsonValue}
    (step : scan.step value = some next) : next.Covers value ∧ next.lastType ≠ .undefined ∧
      ∀ other, scan.lastType ≠ .undefined → scan.Covers other → next.Covers other := by
  obtain ⟨merged, mergedEq, rfl⟩ := Option.map_eq_some_iff.1 step
  obtain ⟨ofType, ofLast⟩ := mergedType_cases mergedEq
  have isOwn := ownType_ne_undefined value
  refine ⟨⟨?_, ?_⟩, ?_, ?_⟩
  · exact ofType
  · intro isSet
    change (scan.notUint8 || (ownType value).2) = true
    rw [isSet, Bool.or_true]
  · rintro (undefined : merged = .undefined)
    rw [undefined] at ofType
    rcases ofType with same | ⟨impossible, -⟩
    · exact isOwn same.symm
    · cases impossible
  · rintro other defined ⟨covered, noted⟩
    refine ⟨?_, ?_⟩
    · change merged = _ ∨ merged.isInt = true ∧ _ ∧ _ ≤ merged.index
      rcases ofLast with undefined | same | ⟨isInt, lastInt, le⟩
      · exact absurd undefined defined
      · rw [same]
        exact covered
      · right
        rcases covered with same | ⟨-, otherInt, otherLe⟩
        · rw [← same]
          exact ⟨isInt, lastInt, le⟩
        · exact ⟨isInt, otherInt, otherLe.trans le⟩
    · intro isSet
      change (scan.notUint8 || (ownType value).2) = true
      rw [noted isSet, Bool.true_or]

theorem TypeScan.run_covers {values : List JsonValue} {scan last : TypeScan}
    (run : scan.run values = some last) :
    (scan.lastType ≠ .undefined → last.lastType ≠ .undefined ∧
      ∀ other, scan.Covers other → last.Covers other) ∧
      ∀ value ∈ values, last.Covers value := by
  induction values generalizing scan with
  | nil =>
      obtain rfl := Option.some.inj run
      exact ⟨fun defined => ⟨defined, fun _ covers => covers⟩,
        fun value member => absurd member List.not_mem_nil⟩
  | cons value values ih =>
      obtain ⟨next, step, rest⟩ := Option.bind_eq_some_iff.1 run
      obtain ⟨covers, nextDefined, keeps⟩ := TypeScan.step_covers step
      obtain ⟨stays, all⟩ := ih rest
      obtain ⟨lastDefined, fromNext⟩ := stays nextDefined
      refine ⟨fun defined => ⟨lastDefined, fun other covered =>
        fromNext other (keeps other defined covered)⟩, ?_⟩
      intro other member
      rcases List.mem_cons.1 member with rfl | later
      · exact fromNext other covers
      · exact all other later

theorem TypeScan.Covers.has {scan : TypeScan} {value : JsonValue} (covers : scan.Covers value) :
    Has scan.elementType.1 value := by
  obtain ⟨covered, noted⟩ := covers
  have ofInt : ∀ {type : UbjType}, type.isInt = true → (ownType value).1.isInt = true →
      (ownType value).1.index ≤ type.index → type ≠ .uint8 → Has type value := by
    intro type isInt ownInt le signed
    obtain ⟨word, isUint64, rfl⟩ := int_of_ownType ownInt
    exact .int isUint64 ((holds_ownType word isUint64).mono isInt le
      fun unsigned => absurd unsigned signed)
  by_cases isUint8 : scan.lastType = .uint8
  · rw [isUint8] at covered
    have ownInt : (ownType value).1.isInt = true ∧
        (ownType value).1.index ≤ UbjType.uint8.index := by
      rcases covered with same | ⟨-, ownInt, le⟩
      · rw [← same]
        exact ⟨rfl, le_refl _⟩
      · exact ⟨ownInt, le⟩
    unfold TypeScan.elementType
    rw [if_pos isUint8]
    split
    · exact ofInt rfl ownInt.1 (ownInt.2.trans (show 9 ≤ 10 by decide)) UbjType.noConfusion
    · rename_i clear
      obtain ⟨word, isUint64, rfl⟩ := int_of_ownType ownInt.1
      exact .int isUint64 (byte_of_bestIntType
        (eq_false_of_ne_true fun isSet => clear (noted isSet)))
  · unfold TypeScan.elementType
    rw [if_neg isUint8]
    rcases covered with same | ⟨isInt, ownInt, le⟩
    · rw [same]
      exact .own value
    · exact ofInt isInt ownInt le isUint8

/-- Every element has the type that the container states. -/
theorem has_statedType {values : List JsonValue} {type : UbjType}
    (stated : statedType values = some type) :
    type ≠ .undefined ∧ ∀ value ∈ values, Has type value := by
  unfold statedType at stated
  split at stated
  · cases stated
  · rename_i scan run
    obtain ⟨-, all⟩ := TypeScan.run_covers run
    split at stated
    · cases stated
    · rename_i defined
      dsimp only at stated
      split at stated
      · cases stated
      · obtain rfl := Option.some.inj stated
        refine ⟨?_, fun value member => (all value member).has⟩
        unfold TypeScan.elementType
        split
        · split <;> exact UbjType.noConfusion
        · exact defined

end Scan

section Limits

theorem Written.andThen_err {first second : Written} :
    (first.andThen second).err = none ↔ first.err = none ∧ second.err = none := by
  unfold Written.andThen
  cases first.err with
  | some err =>
      exact ⟨fun impossible => (Option.some_ne_none _ impossible).elim,
        fun both => (Option.some_ne_none _ both.1).elim⟩
  | none => exact ⟨fun second => ⟨rfl, second⟩, fun both => both.2⟩

theorem Written.andThen_bytes {first second : Written} (succeeds : first.err = none) :
    (first.andThen second).bytes = first.bytes ++ second.bytes := by
  unfold Written.andThen
  rw [succeeds]

theorem writeAll_err {α : Type} {write : α → Written} {values : List α} :
    (writeAll write values).err = none ↔ ∀ value ∈ values, (write value).err = none := by
  induction values with
  | nil => exact ⟨fun _ value member => absurd member List.not_mem_nil, fun _ => rfl⟩
  | cons value values ih =>
      rw [List.forall_mem_cons, ← ih]
      exact Written.andThen_err

theorem writeAll_bytes {α : Type} {write : α → Written} {values : List α}
    (succeeds : ∀ value ∈ values, (write value).err = none) :
    (writeAll write values).bytes = values.flatMap fun value => (write value).bytes := by
  induction values with
  | nil => rfl
  | cons value values ih =>
      obtain ⟨here, rest⟩ := List.forall_mem_cons.1 succeeds
      change ((write value).andThen (writeAll write values)).bytes = _
      rw [Written.andThen_bytes here, ih rest, List.flatMap_cons]

theorem containerWrite_err {close : UInt8} {count : Nat} {stated : Option UbjType}
    {elements : Written} :
    (containerWrite close count stated elements).err = none ↔ elements.err = none := by
  cases stated with
  | some type => exact Written.andThen_err.trans ⟨fun both => both.2, fun err => ⟨rfl, err⟩⟩
  | none => exact Written.andThen_err.trans ⟨fun both => both.1, fun err => ⟨err, rfl⟩⟩

/-- A write succeeds exactly when the limit is at least the depth of the value. -/
theorem writeInternal_err (depth : Nat) (knownType : UbjType) (value : JsonValue) :
    (writeInternal depth knownType value).err = none ↔ value.nesting ≤ depth := by
  induction depth generalizing knownType value with
  | zero =>
      refine ⟨fun impossible => (Option.some_ne_none _ impossible).elim, fun shallow => ?_⟩
      cases value <;> simp [JsonValue.nesting] at shallow
  | succ depth ih =>
      have payload : ∀ type, (writePayload depth (writeInternal depth) type value).err = none ↔
          value.nesting ≤ depth + 1 := by
        intro type
        cases value with
        | null | bool _ | int _ _ | real _ =>
            exact ⟨fun _ => Nat.succ_le_succ (Nat.zero_le _), fun _ => rfl⟩
        | str value =>
            refine ⟨fun _ => Nat.succ_le_succ (Nat.zero_le _), fun _ => ?_⟩
            change (if type = .char then _ else _ : Written).err = none
            split <;> rfl
        | array values =>
            change (if depth = 0 then _ else _ : Written).err = none ↔
              1 + max 1 (JsonValue.nestingAll values) ≤ depth + 1
            split
            · refine ⟨fun impossible => (Option.some_ne_none _ impossible).elim, ?_⟩
              omega
            · rw [containerWrite_err, writeAll_err]
              simp only [ih]
              rw [← JsonValue.nestingAll_le]
              omega
        | obj pairs =>
            change (if depth = 0 then _ else _ : Written).err = none ↔
              1 + max 1 (JsonValue.nestingPairs pairs) ≤ depth + 1
            split
            · refine ⟨fun impossible => (Option.some_ne_none _ impossible).elim, ?_⟩
              omega
            · rename_i room
              have name : ∀ name : Bytes, (JsonValue.str name).nesting ≤ depth := fun name =>
                Nat.one_le_iff_ne_zero.2 room
              rw [containerWrite_err, writeAll_err]
              simp only [Written.andThen_err, ih, name, true_and]
              rw [← JsonValue.nestingPairs_le]
              omega
      unfold writeInternal
      split
      · exact Written.andThen_err.trans ((and_iff_right rfl).trans (payload _))
      · exact payload _

end Limits

end UbjsonWriter

end HdacNode
