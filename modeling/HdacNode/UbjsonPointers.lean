import HdacNode.UbjsonReader

/-!
# Pointers of the UBJSON reader

Every read checks the end of the bytes before it follows its pointer, and leaves the pointer
between its start and that end.  Only the types without payload leave it where it was.
-/

namespace HdacNode

namespace UbjType

/-- The types whose values take no bytes behind the marker. -/
def payloadFree : UbjType → Bool
  | .nullType | .noop | .boolTrue | .boolFalse | .strongType | .count => true
  | _ => false

theorem one_le_size {type : UbjType} (isInt : type.isInt = true) : 1 ≤ type.size.toNat := by
  cases type with
  | int8 | uint8 | int16 | int32 | int64 => decide
  | _ => cases isInt

end UbjType

namespace UbjsonReader

variable {α : Type} {data : Bytes} {low ptr : Int}

/-- The read stays inside of the bytes, and its pointer ends between a bound and their end. -/
def Lands (data : Bytes) (low : Int) (outcome : UbjOutcome α) : Prop :=
  outcome.Ends fun _ ptr => low ≤ ptr ∧ ptr ≤ data.length

theorem Lands.mono {outcome : UbjOutcome α} {lower : Int} (lands : Lands data low outcome)
    (le : lower ≤ low) : Lands data lower outcome :=
  UbjOutcome.Ends.mono lands fun _ _ bounds => ⟨le.trans bounds.1, bounds.2⟩

theorem byteAt_of_lt (nonneg : 0 ≤ ptr) (inside : ptr < data.length) :
    ∃ byte, byteAt data ptr = some byte := by
  unfold byteAt
  rw [if_neg (by omega)]
  exact ⟨_, List.getElem?_eq_getElem (by omega)⟩

/-- A byte is read from the pointer, which stays. -/
theorem ends_readByte (nonneg : 0 ≤ ptr) :
    (readByte data ptr).Ends fun byte place =>
      byteAt data ptr = some byte ∧ place = ptr ∧ ptr + 1 ≤ data.length := by
  unfold readByte
  split
  · trivial
  · rename_i inside
    obtain ⟨byte, found⟩ : ∃ byte, byteAt data ptr = some byte :=
      byteAt_of_lt nonneg (by omega)
    rw [found]
    exact ⟨rfl, rfl, by omega⟩

theorem readByte_cases (nonneg : 0 ≤ ptr) :
    readByte data ptr = .failed .errorInScript ∨ ∃ byte, readByte data ptr = .ended byte ptr := by
  unfold readByte
  split
  · exact .inl rfl
  · rename_i inside
    obtain ⟨byte, found⟩ : ∃ byte, byteAt data ptr = some byte :=
      byteAt_of_lt nonneg (by omega)
    rw [found]
    exact .inr ⟨byte, rfl⟩

theorem lands_readBytes (nonneg : 0 ≤ ptr) (size : Nat) :
    Lands data (ptr + size) (readBytes data ptr size) := by
  unfold readBytes
  split
  · trivial
  · rename_i inside
    have copied : 0 ≤ ptr ∧ (0 : Int) ≤ size ∧ ptr + size ≤ data.length := by omega
    unfold copyFrom
    rw [if_pos copied]
    exact ⟨le_refl _, by omega⟩

theorem ends_readMarker (nonneg : 0 ≤ ptr) :
    (readMarker data ptr).Ends fun type place =>
      type ≠ .undefined ∧ ptr + 1 ≤ place ∧ place ≤ data.length := by
  refine (ends_readByte nonneg).andThen ?_
  rintro byte place ⟨-, rfl, inside⟩
  cases found : UbjType.ofMarker byte with
  | none => trivial
  | some type => exact ⟨UbjType.ofMarker_ne_undefined found, le_refl _, inside⟩

/-- The marker is consumed if the type is not known. -/
theorem ends_readType (knownType : UbjType) (nonneg : 0 ≤ ptr) (inside : ptr ≤ data.length) :
    (readType data knownType ptr).Ends fun type place => type ≠ .undefined ∧ ptr ≤ place ∧
      place ≤ data.length ∧ (type = knownType ∨ ptr + 1 ≤ place) := by
  unfold readType
  split
  · refine (ends_readMarker nonneg).mono ?_
    rintro type place ⟨defined, low, high⟩
    exact ⟨defined, by omega, high, .inr low⟩
  · rename_i known
    exact ⟨known, le_refl _, inside, .inl rfl⟩

theorem lands_int64Read (knownType : UbjType) (nonneg : 0 ≤ ptr) (inside : ptr ≤ data.length) :
    Lands data (ptr + 1) (int64Read data knownType ptr) := by
  refine (ends_readType knownType nonneg inside).andThen ?_
  rintro type place ⟨-, low, high, -⟩
  split
  · rename_i isInt
    have size := UbjType.one_le_size isInt
    refine (lands_readBytes (by omega) _).andThen ?_
    rintro bytes place' ⟨low', high'⟩
    exact ⟨by omega, high'⟩
  · trivial

theorem lands_readString (nonneg : 0 ≤ ptr) (inside : ptr ≤ data.length) :
    Lands data (ptr + 1) (readString data ptr) := by
  refine (lands_int64Read .undefined nonneg inside).andThen ?_
  rintro length place ⟨low, high⟩
  dsimp only
  split
  · trivial
  · split
    · trivial
    · exact (lands_readBytes (by omega) _).mono (by omega)

theorem ends_readStrongType (nonneg : 0 ≤ ptr) :
    (readStrongType data ptr).Ends fun _ place => ptr ≤ place ∧ place + 1 ≤ data.length := by
  refine (ends_readByte nonneg).andThen ?_
  rintro byte place ⟨-, rfl, inside⟩
  split
  · refine (ends_readMarker (by omega)).andThen ?_
    rintro type place' ⟨-, low, high⟩
    refine (ends_readByte (by omega)).andThen ?_
    rintro byte' place'' ⟨-, rfl, inside'⟩
    split
    · exact ⟨by omega, inside'⟩
    · trivial
  · exact ⟨le_refl _, inside⟩

/-- The pointer moves behind a count. -/
theorem ends_readHeader (nonneg : 0 ≤ ptr) :
    (readHeader data ptr).Ends fun header place =>
      ptr ≤ place ∧ place ≤ data.length ∧ (0 ≤ header.2 → ptr + 1 ≤ place) := by
  refine (ends_readStrongType nonneg).andThen ?_
  rintro ⟨type, byte⟩ place ⟨low, high⟩
  dsimp only
  split
  · refine (lands_int64Read .undefined (by omega) high).andThen ?_
    rintro count place' ⟨low', high'⟩
    exact ⟨by omega, high', fun _ => by omega⟩
  · exact ⟨low, by omega, fun negative => by contradiction⟩

section Loops

variable {element : Int → UbjOutcome α}

theorem lands_readCounted
    (lands : ∀ ptr : Int, 0 ≤ ptr → ptr ≤ data.length → Lands data ptr (element ptr)) (count : Nat)
    (nonneg : 0 ≤ ptr) (inside : ptr ≤ data.length) :
    Lands data ptr (readCounted element count ptr) := by
  induction count generalizing ptr with
  | zero => exact ⟨le_refl _, inside⟩
  | succ count ih =>
      refine (lands ptr nonneg inside).andThen ?_
      rintro value place ⟨low, high⟩
      refine (ih (by omega) high).andThen ?_
      rintro values place' ⟨low', high'⟩
      exact ⟨by omega, high'⟩

theorem lands_readUntil {close : UInt8}
    (lands : ∀ ptr : Int, 0 ≤ ptr → ptr ≤ data.length → Lands data ptr (element ptr)) (fuel : Nat)
    (nonneg : 0 ≤ ptr) :
    Lands data (ptr + 1) (readUntil data close element fuel ptr) := by
  induction fuel generalizing ptr with
  | zero => trivial
  | succ fuel ih =>
      refine (ends_readByte nonneg).andThen ?_
      rintro byte place ⟨-, rfl, inside⟩
      split
      · exact ⟨le_refl _, inside⟩
      · refine (lands place nonneg (by omega)).andThen ?_
        rintro value place' ⟨low, high⟩
        refine (ih (by omega)).andThen ?_
        rintro values place'' ⟨low', high'⟩
        exact ⟨by omega, high'⟩

/-- Behind its header a container moves the pointer. -/
theorem lands_readElements {close : UInt8}
    (lands : ∀ ptr : Int, 0 ≤ ptr → ptr ≤ data.length → Lands data ptr (element ptr)) (fuel : Nat)
    (count : Int) (nonneg : 0 ≤ ptr) (inside : ptr ≤ data.length) :
    Lands data (if 0 ≤ count then ptr else ptr + 1)
      (readElements fuel data close element count ptr) := by
  unfold readElements
  split
  · exact lands_readCounted lands _ nonneg inside
  · exact lands_readUntil lands fuel nonneg

theorem lands_container {close : UInt8} {β : Type} {element : UbjType → Int → UbjOutcome α}
    (lands : ∀ (type : UbjType) (ptr : Int), 0 ≤ ptr → ptr ≤ data.length → Lands data ptr (element type ptr))
    (fuel : Nat) (value : List α → β) (nonneg : 0 ≤ ptr) :
    Lands data (ptr + 1) ((readHeader data ptr).andThen fun header ptr =>
      (readElements fuel data close (element header.1) header.2 ptr).andThen fun values ptr =>
        .ended (value values) ptr) := by
  refine (ends_readHeader nonneg).andThen ?_
  rintro header place ⟨low, high, moved⟩
  refine (lands_readElements (lands header.1) fuel header.2 (by omega) high).andThen ?_
  rintro values place' ⟨low', high'⟩
  refine ⟨?_, high'⟩
  split at low' <;> omega

end Loops

theorem lands_readValue {condition : α → JsonValue} {outcome : UbjOutcome α}
    (lands : Lands data low outcome) :
    Lands data low (outcome.andThen fun value ptr => .ended (condition value) ptr) :=
  lands.andThen fun _ _ bounds => bounds

/-- Every call of the reader stays inside of the bytes and never moves its pointer back; only
a known type without payload leaves it where it was. -/
theorem lands_readInternal (fuel : Nat) (depth : Nat) (knownType : UbjType) (nonneg : 0 ≤ ptr)
    (inside : ptr ≤ data.length) :
    Lands data (if knownType.payloadFree then ptr else ptr + 1)
      (readInternal fuel data depth knownType ptr) := by
  induction depth generalizing knownType ptr with
  | zero => trivial
  | succ depth ih =>
      have inner : ∀ (type : UbjType) (ptr : Int), 0 ≤ ptr → ptr ≤ data.length →
          Lands data ptr (readInternal fuel data depth type ptr) := by
        intro type ptr nonneg inside
        refine (ih type nonneg inside).mono ?_
        split <;> omega
      have pairs : ∀ (type : UbjType) (ptr : Int), 0 ≤ ptr → ptr ≤ data.length → Lands data ptr
          ((readString data ptr).andThen fun name ptr =>
            (readInternal fuel data depth type ptr).andThen fun value ptr =>
              .ended (name, value) ptr) := by
        intro type ptr nonneg inside
        refine (lands_readString nonneg inside).andThen ?_
        rintro name place ⟨low, high⟩
        refine (inner type place (by omega) high).andThen ?_
        rintro value place' ⟨low', high'⟩
        exact ⟨by omega, high'⟩
      refine (ends_readType knownType nonneg inside).andThen ?_
      rintro type place ⟨defined, low, high, known⟩
      have placeNonneg : 0 ≤ place := by omega
      have bound : (if type.payloadFree = true then place else place + 1) ≥
          if knownType.payloadFree = true then ptr else ptr + 1 := by
        rcases known with rfl | moved
        · split <;> omega
        · split <;> split <;> omega
      suffices Lands data (if type.payloadFree = true then place else place + 1) _ from
        this.mono bound
      cases type with
      | int8 | uint8 | int16 | int32 | int64 => exact lands_readValue (lands_int64Read _ placeNonneg high)
      | nullType | boolFalse | boolTrue | noop | strongType | count => exact ⟨le_refl _, high⟩
      | float32 => exact lands_readValue ((lands_readBytes placeNonneg 4).mono (by simp [UbjType.payloadFree]))
      | float64 => exact lands_readValue ((lands_readBytes placeNonneg 8).mono (by simp [UbjType.payloadFree]))
      | char => exact lands_readValue ((lands_readBytes placeNonneg 1).mono (by simp [UbjType.payloadFree]))
      | string | highPrecision => exact lands_readValue (lands_readString placeNonneg high)
      | array =>
          change Lands data (place + 1) (if depth = 0 then _ else _)
          split
          · trivial
          · exact lands_container inner fuel _ placeNonneg
      | object =>
          change Lands data (place + 1) (if depth = 0 then _ else _)
          split
          · trivial
          · exact lands_container pairs fuel _ placeNonneg
      | undefined => exact absurd rfl defined

end UbjsonReader

end HdacNode
