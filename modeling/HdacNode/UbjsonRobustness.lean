import HdacNode.UbjsonPointers

/-!
# Robustness of the UBJSON reader

A string whose length is negative as an `int` makes the reader throw, and an array of a type
without payload may declare any count, or none, for which no bytes need to follow.  Elsewhere
every value has a byte of its own, and every loop ends.
-/

namespace HdacNode

mutual

/-- The number of values in a value. -/
def JsonValue.count : JsonValue → Nat
  | .array values => 1 + countAll values
  | .obj pairs => 1 + countPairs pairs
  | _ => 1

/-- The number of values in the elements of an array. -/
def JsonValue.countAll : List JsonValue → Nat
  | [] => 0
  | value :: values => value.count + countAll values

/-- The number of values in the pairs of an object. -/
def JsonValue.countPairs : List (Bytes × JsonValue) → Nat
  | [] => 0
  | (_, value) :: pairs => value.count + countPairs pairs

end

namespace UbjsonReader

/-- What some bytes declare: the values with bytes of their own, and the elements of arrays
of a type without payload. -/
structure Declared where
  own : Nat
  free : Nat
  deriving DecidableEq, Repr

/-- A single value with bytes of its own. -/
def Declared.one : Declared :=
  ⟨1, 0⟩

/-- A container and its elements. -/
def Declared.container (elements : List Declared) : Declared :=
  ⟨1 + (elements.map Declared.own).sum, (elements.map Declared.free).sum⟩

/-- What is behind the header of an array of a type without payload: its count, or the end
that must follow at once. -/
def declaredFree (data : Bytes) (count ptr : Int) : UbjOutcome Declared :=
  if 0 ≤ count then .ended ⟨1, count.toNat⟩ ptr
  else
    (readByte data ptr).andThen fun byte ptr =>
      if byte = 0x5d then .ended .one (ptr + 1) else .outOfFuel

/-- What the bytes behind a pointer declare, read like a value of at most the depth. -/
def declared (data : Bytes) : Nat → UbjType → Int → UbjOutcome Declared
  | 0, _, _ => .failed .notSupported
  | depth + 1, knownType, ptr =>
      (readType data knownType ptr).andThen fun type ptr =>
        match type with
        | .int8 | .uint8 | .int16 | .int32 | .int64 =>
            (int64Read data type ptr).andThen fun _ ptr => .ended .one ptr
        | .float32 => (readBytes data ptr 4).andThen fun _ ptr => .ended .one ptr
        | .float64 => (readBytes data ptr 8).andThen fun _ ptr => .ended .one ptr
        | .char => (readBytes data ptr 1).andThen fun _ ptr => .ended .one ptr
        | .string | .highPrecision => (readString data ptr).andThen fun _ ptr => .ended .one ptr
        | .array =>
            if depth = 0 then .failed .notSupported
            else
              (readHeader data ptr).andThen fun (elementType, count) ptr =>
                if elementType.payloadFree then declaredFree data count ptr
                else
                  (readElements (data.length + 1) data 0x5d (declared data depth elementType)
                    count ptr).andThen fun elements ptr => .ended (.container elements) ptr
        | .object =>
            if depth = 0 then .failed .notSupported
            else
              (readHeader data ptr).andThen fun (elementType, count) ptr =>
                (readElements (data.length + 1) data 0x7d
                  (fun ptr =>
                    (readString data ptr).andThen fun _ ptr => declared data depth elementType ptr)
                  count ptr).andThen fun elements ptr => .ended (.container elements) ptr
        | .undefined | .nullType | .boolFalse | .boolTrue | .noop | .strongType | .count =>
            .ended .one ptr

/-- Two reads end alike, with values in a relation. -/
def Alike {α β : Type} (related : α → β → Prop) : UbjOutcome α → UbjOutcome β → Prop
  | .outOfFuel, .outOfFuel => True
  | .outside, .outside => True
  | .lengthError, .lengthError => True
  | .failed err, .failed other => err = other
  | .ended value ptr, .ended other place => ptr = place ∧ related value other
  | _, _ => False

/-- A read ends like another one, unless it runs out of fuel that is not enough. -/
def Follows {α β : Type} (enough : Prop) (related : α → β → Prop) (outcome : UbjOutcome α)
    (other : UbjOutcome β) : Prop :=
  (outcome = .outOfFuel ∧ ¬ enough) ∨ Alike related outcome other

section Rules

variable {α β γ δ : Type} {enough : Prop} {related : α → β → Prop} {nextRelated : γ → δ → Prop}
  {data : Bytes} {ptr : Int}

theorem follows_refl (outcome : UbjOutcome α) : Follows enough Eq outcome outcome := by
  cases outcome with
  | ended value ptr => exact .inr ⟨rfl, rfl⟩
  | failed err => exact .inr rfl
  | _ => exact .inr trivial

theorem Follows.andThen {outcome : UbjOutcome α} {other : UbjOutcome β}
    {next : α → Int → UbjOutcome γ} {otherNext : β → Int → UbjOutcome δ}
    {condition : α → Int → Prop} (ends : outcome.Ends condition)
    (follows : Follows enough related outcome other)
    (nextFollows : ∀ value other ptr, related value other → condition value ptr →
      Follows enough nextRelated (next value ptr) (otherNext other ptr)) :
    Follows enough nextRelated (outcome.andThen next) (other.andThen otherNext) := by
  rcases follows with ⟨rfl, short⟩ | alike
  · exact .inl ⟨rfl, short⟩
  · cases outcome with
    | outOfFuel => cases other <;> first | exact .inr trivial | cases alike
    | outside => cases other <;> first | exact .inr trivial | cases alike
    | lengthError => cases other <;> first | exact .inr trivial | cases alike
    | failed err => cases other <;> first | exact .inr alike | cases alike
    | ended value ptr =>
        cases other with
        | ended otherValue place =>
            obtain ⟨rfl, same⟩ := alike
            exact nextFollows value otherValue ptr same ends
        | _ => cases alike

/-- Both reads start with the same one. -/
theorem follows_andThen {outcome : UbjOutcome α} {next : α → Int → UbjOutcome γ}
    {otherNext : α → Int → UbjOutcome δ} {condition : α → Int → Prop}
    (ends : outcome.Ends condition)
    (nextFollows : ∀ value ptr, condition value ptr →
      Follows enough nextRelated (next value ptr) (otherNext value ptr)) :
    Follows enough nextRelated (outcome.andThen next) (outcome.andThen otherNext) := by
  refine Follows.andThen ends (follows_refl outcome) ?_
  rintro value other ptr rfl condition
  exact nextFollows value ptr condition

variable {element : Int → UbjOutcome α} {otherElement : Int → UbjOutcome β}

theorem follows_readCounted
    (lands : ∀ ptr : Int, 0 ≤ ptr → ptr ≤ data.length → Lands data ptr (element ptr))
    (follows : ∀ ptr : Int, 0 ≤ ptr → ptr ≤ data.length →
      Follows enough related (element ptr) (otherElement ptr))
    (count : Nat) (nonneg : 0 ≤ ptr) (inside : ptr ≤ data.length) :
    Follows enough (List.Forall₂ related) (readCounted element count ptr)
      (readCounted otherElement count ptr) := by
  induction count generalizing ptr with
  | zero => exact .inr ⟨rfl, .nil⟩
  | succ count ih =>
      refine Follows.andThen (lands ptr nonneg inside) (follows ptr nonneg inside) ?_
      rintro value other place same ⟨low, high⟩
      refine Follows.andThen (lands_readCounted lands count (by omega) high)
        (ih (by omega) high) ?_
      rintro values others place' sames -
      exact .inr ⟨rfl, .cons same sames⟩

theorem follows_readUntil {close : UInt8}
    (lands : ∀ ptr : Int, 0 ≤ ptr → ptr ≤ data.length → Lands data (ptr + 1) (element ptr))
    (follows : ∀ ptr : Int, 0 ≤ ptr → ptr ≤ data.length →
      Follows enough related (element ptr) (otherElement ptr))
    {fuel otherFuel : Nat} (otherEnough : (data.length : Int) < otherFuel + ptr)
    (isEnough : enough → (data.length : Int) < fuel + ptr)
    (nonneg : 0 ≤ ptr) (inside : ptr ≤ data.length) :
    Follows enough (List.Forall₂ related) (readUntil data close element fuel ptr)
      (readUntil data close otherElement otherFuel ptr) := by
  have stays : ∀ ptr : Int, 0 ≤ ptr → ptr ≤ data.length → Lands data ptr (element ptr) :=
    fun ptr nonneg inside => (lands ptr nonneg inside).mono (by omega)
  induction otherFuel generalizing fuel ptr with
  | zero => omega
  | succ otherFuel ih =>
      cases fuel with
      | zero => exact .inl ⟨rfl, fun holds => by have := isEnough holds; omega⟩
      | succ fuel =>
          refine follows_andThen (ends_readByte nonneg) ?_
          rintro byte place ⟨-, rfl, before⟩
          split
          · exact .inr ⟨rfl, .nil⟩
          · refine Follows.andThen (lands place nonneg inside) (follows place nonneg inside) ?_
            rintro value other place' same ⟨low, high⟩
            refine Follows.andThen (lands_readUntil stays fuel (by omega))
              (ih (by omega) (fun holds => ?_) (by omega) high) ?_
            · have := isEnough holds
              omega
            · rintro values others place'' sames -
              exact .inr ⟨rfl, .cons same sames⟩

theorem follows_readElements {close : UInt8} {fuel : Nat}
    (lands : ∀ ptr : Int, 0 ≤ ptr → ptr ≤ data.length → Lands data (ptr + 1) (element ptr))
    (follows : ∀ ptr : Int, 0 ≤ ptr → ptr ≤ data.length →
      Follows (data.length < fuel) related (element ptr) (otherElement ptr))
    (count : Int) (nonneg : 0 ≤ ptr) (inside : ptr ≤ data.length) :
    Follows (data.length < fuel) (List.Forall₂ related)
      (readElements fuel data close element count ptr)
      (readElements (data.length + 1) data close otherElement count ptr) := by
  unfold readElements
  split
  · refine follows_readCounted (fun ptr nonneg inside => ?_) follows _ nonneg inside
    exact (lands ptr nonneg inside).mono (by omega)
  · exact follows_readUntil lands follows (by omega) (by omega) nonneg inside

end Rules

/-- A value has as many values as the bytes have declared. -/
def CountedBy (value : JsonValue) (declared : Declared) : Prop :=
  value.count = declared.own + declared.free

section Free

variable {data : Bytes} {fuel depth : Nat} {type : UbjType}

theorem readInternal_free (free : type.payloadFree = true) (inner : depth ≠ 0) :
    ∃ value : JsonValue, value.count = 1 ∧
      ∀ ptr, readInternal fuel data depth type ptr = .ended value ptr := by
  obtain ⟨depth, rfl⟩ := Nat.exists_eq_succ_of_ne_zero inner
  cases type with
  | nullType | noop | strongType | count => exact ⟨.null, rfl, fun ptr => rfl⟩
  | boolTrue => exact ⟨.bool true, rfl, fun ptr => rfl⟩
  | boolFalse => exact ⟨.bool false, rfl, fun ptr => rfl⟩
  | _ => cases free

theorem readCounted_free {element : Int → UbjOutcome JsonValue} {value : JsonValue} {ptr : Int}
    (stays : element ptr = .ended value ptr) (count : Nat) :
    readCounted element count ptr = .ended (List.replicate count value) ptr := by
  induction count with
  | zero => rfl
  | succ count ih =>
      unfold readCounted
      rw [stays]
      change (readCounted element count ptr).andThen _ = _
      rw [ih]
      rfl

/-- A loop whose elements take no bytes does not end. -/
theorem readUntil_free {element : Int → UbjOutcome JsonValue} {value : JsonValue} {ptr : Int}
    {byte close : UInt8} (stays : element ptr = .ended value ptr)
    (read : readByte data ptr = .ended byte ptr) (different : byte ≠ close) (fuel : Nat) :
    readUntil data close element fuel ptr = .outOfFuel := by
  induction fuel with
  | zero => rfl
  | succ fuel ih =>
      unfold readUntil
      rw [read]
      change (if byte = close then _ else (element ptr).andThen _) = _
      rw [if_neg different, stays]
      change (readUntil data close element fuel ptr).andThen _ = _
      rw [ih]
      rfl

theorem countAll_replicate {value : JsonValue} (single : value.count = 1) (count : Nat) :
    JsonValue.countAll (List.replicate count value) = count := by
  induction count with
  | zero => rfl
  | succ count ih =>
      change value.count + JsonValue.countAll (List.replicate count value) = _
      rw [ih, single, add_comm]

theorem follows_free (free : type.payloadFree = true) (inner : depth ≠ 0) (count : Int)
    {ptr : Int} (nonneg : 0 ≤ ptr) :
    Follows (data.length < fuel) CountedBy
      ((readElements fuel data 0x5d (readInternal fuel data depth type) count ptr).andThen
        fun values ptr => .ended (JsonValue.array values) ptr)
      (declaredFree data count ptr) := by
  obtain ⟨value, single, stays⟩ : ∃ value : JsonValue, value.count = 1 ∧
      ∀ ptr, readInternal fuel data depth type ptr = .ended value ptr :=
    readInternal_free free inner
  unfold readElements declaredFree
  split
  · rw [readCounted_free (stays ptr)]
    refine .inr ⟨rfl, ?_⟩
    change 1 + JsonValue.countAll (List.replicate count.toNat value) = 1 + count.toNat
    rw [countAll_replicate single]
  · cases fuel with
    | zero => exact .inl ⟨rfl, by omega⟩
    | succ fuel =>
        have cases : readByte data ptr = .failed .errorInScript ∨
            ∃ byte, readByte data ptr = .ended byte ptr :=
          readByte_cases nonneg
        rcases cases with failed | ⟨byte, read⟩
        · unfold readUntil
          rw [failed]
          exact .inr rfl
        · rw [read]
          change Follows _ _ _ (if byte = 0x5d then _ else _)
          split
          · rename_i isClose
            unfold readUntil
            rw [read]
            change Follows _ _ ((if byte = 0x5d then _ else _ : UbjOutcome _).andThen _) _
            rw [if_pos isClose]
            exact .inr ⟨rfl, rfl⟩
          · rename_i different
            rw [readUntil_free (stays ptr) read different]
            exact .inr trivial

end Free

section Values

theorem count_container {values : List JsonValue} {elements : List Declared}
    (same : List.Forall₂ CountedBy values elements) :
    CountedBy (.array values) (.container elements) := by
  suffices JsonValue.countAll values =
      (elements.map Declared.own).sum + (elements.map Declared.free).sum by
    change 1 + JsonValue.countAll values = 1 + (elements.map Declared.own).sum +
      (elements.map Declared.free).sum
    rw [this, add_assoc]
  induction same with
  | nil => rfl
  | @cons value declared values elements same sames ih =>
      change value.count + JsonValue.countAll values = _
      rw [List.map_cons, List.map_cons, List.sum_cons, List.sum_cons, ih, same]
      omega

theorem countPairs_eq (pairs : List (Bytes × JsonValue)) :
    JsonValue.countPairs pairs = JsonValue.countAll (pairs.map Prod.snd) := by
  induction pairs with
  | nil => rfl
  | cons pair pairs ih =>
      change pair.2.count + JsonValue.countPairs pairs = _
      rw [ih]
      rfl

theorem count_obj {pairs : List (Bytes × JsonValue)} {elements : List Declared}
    (same : List.Forall₂ (fun pair declared => CountedBy pair.2 declared) pairs elements) :
    CountedBy (.obj pairs) (.container elements) := by
  have values := count_container (List.forall₂_map_left_iff.2 same)
  change 1 + JsonValue.countPairs pairs = _
  rw [countPairs_eq]
  exact values

end Values

/-- The reader ends as its declarations do, and its value has as many values as they declare. -/
theorem follows_declared (fuel : Nat) (data : Bytes) (depth : Nat) (knownType : UbjType)
    {ptr : Int} (nonneg : 0 ≤ ptr) (inside : ptr ≤ data.length) :
    Follows (data.length < fuel) CountedBy
      (readInternal fuel data depth knownType ptr) (declared data depth knownType ptr) := by
  induction depth generalizing knownType ptr with
  | zero => exact .inr rfl
  | succ depth ih =>
      have single : ∀ {α : Type} {outcome : UbjOutcome α} {value : α → JsonValue} {low : Int},
          Lands data low outcome → (∀ result, (value result).count = 1) →
          Follows (data.length < fuel) CountedBy
            (outcome.andThen fun result ptr => .ended (value result) ptr)
            (outcome.andThen fun _ ptr => .ended Declared.one ptr) := by
        intro α outcome value low lands isOne
        exact follows_andThen lands fun result ptr _ => .inr ⟨rfl, isOne result⟩
      refine follows_andThen (ends_readType knownType nonneg inside) ?_
      rintro type place ⟨defined, low, high, -⟩
      have placeNonneg : 0 ≤ place := by omega
      cases type with
      | int8 | uint8 | int16 | int32 | int64 =>
          exact single (lands_int64Read _ placeNonneg high) fun _ => rfl
      | nullType | boolFalse | boolTrue | noop | strongType | count => exact .inr ⟨rfl, rfl⟩
      | float32 => exact single (lands_readBytes placeNonneg 4) fun _ => rfl
      | float64 => exact single (lands_readBytes placeNonneg 8) fun _ => rfl
      | char => exact single (lands_readBytes placeNonneg 1) fun _ => rfl
      | string | highPrecision => exact single (lands_readString placeNonneg high) fun _ => rfl
      | array =>
          change Follows _ _ (if depth = 0 then _ else _) (if depth = 0 then _ else _)
          split
          · exact .inr rfl
          · rename_i inner
            refine follows_andThen (ends_readHeader placeNonneg) ?_
            rintro ⟨elementType, count⟩ start ⟨startLow, startHigh, -⟩
            have startNonneg : 0 ≤ start := by omega
            dsimp only
            split
            · rename_i free
              exact follows_free free inner count startNonneg
            · rename_i payload
              have lands : ∀ ptr : Int, 0 ≤ ptr → ptr ≤ data.length →
                  Lands data (ptr + 1) (readInternal fuel data depth elementType ptr) := by
                intro ptr nonneg inside
                have lands := lands_readInternal fuel depth elementType nonneg inside
                rw [if_neg payload] at lands
                exact lands
              refine Follows.andThen (lands_readElements (fun ptr nonneg inside =>
                (lands ptr nonneg inside).mono (by omega)) fuel count startNonneg startHigh)
                (follows_readElements lands (fun ptr => ih elementType) count startNonneg
                  startHigh) ?_
              rintro values elements ptr same -
              exact .inr ⟨rfl, count_container same⟩
      | object =>
          change Follows _ _ (if depth = 0 then _ else _) (if depth = 0 then _ else _)
          split
          · exact .inr rfl
          · refine follows_andThen (ends_readHeader placeNonneg) ?_
            rintro ⟨elementType, count⟩ start ⟨startLow, startHigh, -⟩
            have startNonneg : 0 ≤ start := by omega
            have inner : ∀ ptr : Int, 0 ≤ ptr → ptr ≤ data.length →
                Lands data ptr (readInternal fuel data depth elementType ptr) := by
              intro ptr nonneg inside
              refine (lands_readInternal fuel depth elementType nonneg inside).mono ?_
              split <;> omega
            have lands : ∀ ptr : Int, 0 ≤ ptr → ptr ≤ data.length → Lands data (ptr + 1)
                ((readString data ptr).andThen fun name ptr =>
                  (readInternal fuel data depth elementType ptr).andThen fun value ptr =>
                    .ended (name, value) ptr) := by
              intro ptr nonneg inside
              refine (lands_readString nonneg inside).andThen ?_
              rintro name place ⟨low, high⟩
              refine (inner place (by omega) high).andThen ?_
              rintro value place' ⟨low', high'⟩
              exact ⟨by omega, high'⟩
            have follows : ∀ ptr : Int, 0 ≤ ptr → ptr ≤ data.length →
                Follows (data.length < fuel)
                  (fun pair declared => CountedBy pair.2 declared)
                  ((readString data ptr).andThen fun name ptr =>
                    (readInternal fuel data depth elementType ptr).andThen fun value ptr =>
                      .ended (name, value) ptr)
                  ((readString data ptr).andThen fun _ ptr =>
                    declared data depth elementType ptr) := by
              intro ptr nonneg inside
              refine follows_andThen (lands_readString nonneg inside) ?_
              rintro name place ⟨low, high⟩
              have read : Follows (data.length < fuel) CountedBy
                  (readInternal fuel data depth elementType place)
                  (declared data depth elementType place) :=
                ih elementType (by omega) high
              generalize readInternal fuel data depth elementType place = outcome at read ⊢
              generalize declared data depth elementType place = other at read ⊢
              rcases read with ⟨rfl, short⟩ | alike
              · exact .inl ⟨rfl, short⟩
              · right
                cases outcome <;> cases other <;> exact alike
            refine Follows.andThen (lands_readElements (fun ptr nonneg inside =>
              (lands ptr nonneg inside).mono (by omega)) fuel count startNonneg startHigh)
              (follows_readElements lands follows count startNonneg startHigh) ?_
            rintro pairs elements ptr same -
            exact .inr ⟨rfl, count_obj same⟩
      | undefined => exact absurd rfl defined

/-- A read ends with an error code, or with a value of at most as many values as there are
bytes. -/
def Settles (data : Bytes) : UbjOutcome JsonValue → Prop
  | .failed _ => True
  | .ended value _ => value.count ≤ data.length
  | _ => False

/-- The read of some bytes settles within some fuel, and every nested call of it stays inside
of the bytes with its pointer never moving back. -/
structure Robust (data : Bytes) (maxDepth : Int) : Prop where
  settles : ∃ fuel, Settles data (ubjsonRead fuel data maxDepth)
  inside : ∀ fuel depth knownType (ptr : Int), 0 ≤ ptr → ptr ≤ data.length →
    Lands data ptr (readInternal fuel data depth knownType ptr)

/-- The depth of the nested calls under a limit. -/
def depthLimit (maxDepth : Int) : Nat :=
  if maxDepth < 0 then 1 else maxDepth.toNat

/-- What some bytes declare to be read has no string of a negative length, no array of a type
without payload that lacks a count, and no more elements of such arrays than there are bytes
for the other values to leave over. -/
def Modest (data : Bytes) (maxDepth : Int) : Prop :=
  match declared data (depthLimit maxDepth) .undefined 0 with
  | .failed _ => True
  | .ended declared _ => declared.own + declared.free ≤ data.length
  | _ => False

instance (data : Bytes) (maxDepth : Int) : Decidable (Modest data maxDepth) := by
  unfold Modest
  split <;> infer_instance

variable {data : Bytes} {maxDepth : Int}

theorem modest_of_settles {fuel : Nat} (settles : Settles data (ubjsonRead fuel data maxDepth)) :
    Modest data maxDepth := by
  have follows := follows_declared fuel data (depthLimit maxDepth) .undefined (le_refl 0)
    (Int.natCast_nonneg _)
  unfold Modest
  change Settles data (readInternal fuel data (depthLimit maxDepth) .undefined 0) at settles
  generalize readInternal fuel data (depthLimit maxDepth) .undefined 0 = outcome at *
  generalize declared data (depthLimit maxDepth) .undefined 0 = other at *
  rcases follows with ⟨rfl, -⟩ | alike
  · cases settles
  · cases outcome with
    | failed err =>
        cases other with
        | failed _ => trivial
        | _ => cases alike
    | ended value ptr =>
        cases other with
        | ended declared place =>
            obtain ⟨-, same⟩ := alike
            change value.count ≤ data.length at settles
            unfold CountedBy at same
            rw [same] at settles
            exact settles
        | _ => cases alike
    | _ => cases settles

theorem settles_of_modest (modest : Modest data maxDepth) :
    Settles data (ubjsonRead (data.length + 1) data maxDepth) := by
  have follows := follows_declared (data.length + 1) data (depthLimit maxDepth) .undefined
    (le_refl 0) (Int.natCast_nonneg _)
  unfold Modest at modest
  change Settles data (readInternal (data.length + 1) data (depthLimit maxDepth) .undefined 0)
  generalize readInternal (data.length + 1) data (depthLimit maxDepth) .undefined 0 = outcome at *
  generalize declared data (depthLimit maxDepth) .undefined 0 = other at *
  rcases follows with ⟨-, short⟩ | alike
  · exact absurd (Nat.lt_succ_self _) short
  · cases other with
    | failed err =>
        cases outcome with
        | failed _ => trivial
        | _ => cases alike
    | ended declared ptr =>
        cases outcome with
        | ended value place =>
            obtain ⟨-, same⟩ := alike
            change declared.own + declared.free ≤ data.length at modest
            change value.count ≤ data.length
            unfold CountedBy at same
            rw [same]
            exact modest
        | _ => cases alike
    | _ => cases modest

/-- For all bytes and every depth limit the reader is robust exactly when the bytes declare
modestly. -/
theorem ubjsonRead_robust_iff (data : Bytes) (maxDepth : Int) :
    Robust data maxDepth ↔ Modest data maxDepth := by
  constructor
  · rintro ⟨⟨fuel, settles⟩, -⟩
    exact modest_of_settles settles
  · refine fun modest => ⟨⟨_, settles_of_modest modest⟩, ?_⟩
    intro fuel depth knownType ptr nonneg inside
    refine (lands_readInternal fuel depth knownType nonneg inside).mono ?_
    split <;> omega

/-- A string of length -1 makes the reader throw, an array of nulls with the count -1 keeps it
in its loop, and an array of six nulls has more values than bytes. -/
theorem immodest_bytes :
    ubjsonRead 0 [0x53, 0x69, 0xff] 100 = .lengthError ∧
      (∀ fuel, ubjsonRead fuel [0x5b, 0x24, 0x5a, 0x23, 0x69, 0xff, 0x00] 100 = .outOfFuel) ∧
      ubjsonRead 0 [0x5b, 0x24, 0x5a, 0x23, 0x69, 0x06] 100 =
        .ended (.array (List.replicate 6 .null)) 6 ∧
      ¬ Robust [0x53, 0x69, 0xff] 100 ∧
      ¬ Robust [0x5b, 0x24, 0x5a, 0x23, 0x69, 0xff, 0x00] 100 ∧
      ¬ Robust [0x5b, 0x24, 0x5a, 0x23, 0x69, 0x06] 100 := by
  have notRobust : ∀ {bytes : Bytes}, ¬ Modest bytes 100 → ¬ Robust bytes 100 := by
    rintro bytes immodest ⟨⟨fuel, settles⟩, -⟩
    exact immodest (modest_of_settles settles)
  refine ⟨by rfl, ?_, by rfl, notRobust (by decide +kernel), notRobust (by decide +kernel),
    notRobust (by decide +kernel)⟩
  intro fuel
  have stays : readInternal fuel [0x5b, 0x24, 0x5a, 0x23, 0x69, 0xff, 0x00] 99 .nullType 6 =
      .ended .null 6 :=
    rfl
  have read : readByte [0x5b, 0x24, 0x5a, 0x23, 0x69, 0xff, 0x00] 6 = .ended 0x00 6 := rfl
  have loops : readUntil [0x5b, 0x24, 0x5a, 0x23, 0x69, 0xff, 0x00] 0x5d
      (readInternal fuel [0x5b, 0x24, 0x5a, 0x23, 0x69, 0xff, 0x00] 99 .nullType) fuel 6 =
      .outOfFuel :=
    readUntil_free stays read (by decide) fuel
  change (readUntil [0x5b, 0x24, 0x5a, 0x23, 0x69, 0xff, 0x00] 0x5d
    (readInternal fuel [0x5b, 0x24, 0x5a, 0x23, 0x69, 0xff, 0x00] 99 .nullType) fuel 6).andThen _ =
      _
  rw [loops]
  rfl

end UbjsonReader

end HdacNode
